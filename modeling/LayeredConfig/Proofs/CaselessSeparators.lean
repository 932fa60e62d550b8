import LayeredConfig.Proofs.KeyPaths
import LayeredConfig.Proofs.PlainKeys
import LayeredConfig.Text.LowerTwice
import Mathlib.Data.List.Forall2

/-! # Separators without case

    A key can be split before its first step is lower-cased or after. Both come to the same
    where the separator is made of characters without case: those that stand for themselves
    in lower case, while no other character is lower-cased to them. For then no separator
    is made by lower-casing, and none is lost.

    **Main results.** `Text.Separated.recased` and, for keys,
    `Separator.split_join_recased`; the colon is without case.
-/

namespace LayeredConfig

namespace Text

/-! ## Characters without case -/

/-- Whether a character stands for itself in lower case, and nothing else does for it. -/
structure IsCaseless (d : Char) : Prop where
  kept : ∀ before rest, lowered before d rest = [d]
  alone : ∀ before c rest, d ∈ lowered before c rest → c = d

/-- A character without case is final. -/
theorem isFinal_of_isCaseless {d : Char} (h : IsCaseless d) : IsFinal d := by
  have hkept := h.kept [] []
  unfold lowered at hkept
  split at hkept
  · next hsigma =>
    subst hsigma
    exact absurd hkept (by decide +kernel)
  · next hsigma => exact ⟨hsigma, hkept⟩

/-- The characters that are lower-cased to ASCII are simple, but for the dotted capital i. -/
theorem isSimple_of_lowerChar {c d : Char} (h : lowerChar c = [d]) (hd : isAscii d = true) :
    IsSimple c := by
  by_contra hnot
  unfold IsSimple at hnot
  rw [not_or, Bool.not_eq_true] at hnot
  obtain ⟨e, he, hbeyond⟩ := lowerChar_beyond hnot.1 hnot.2
  rw [h, List.mem_singleton] at he
  subst he
  exact Bool.false_ne_true (hbeyond.symm.trans hd)

theorem isCaseless_colon : IsCaseless ':' := by
  constructor
  · intro before rest
    rfl
  · intro before c rest h
    unfold lowered at h
    split at h
    · -- A sigma stays a sigma.
      split at h
      · exact absurd h (by decide)
      · exact absurd h (by decide)
    · by_cases hdotted : c = 'İ'
      · subst hdotted
        exact absurd h (by decide)
      · have hone : ∃ d, lowerChar c = [d] := by
          unfold lowerChar
          rw [if_neg hdotted]
          split
          · exact ⟨_, rfl⟩
          · split
            · exact ⟨_, rfl⟩
            · exact ⟨_, rfl⟩
        obtain ⟨d, hd⟩ := hone
        rw [hd, List.mem_singleton] at h
        subst h
        have hsimple := isSimple_of_lowerChar hd (by decide)
        rw [lowerChar_of_isSimple hsimple] at hd
        rcases hsimple with hascii | rfl
        · rw [foldChar_of_ascii hascii] at hd
          revert hd
          exact forall_ascii (P := fun c => [c.toLower] = [':'] → c = ':') (by decide +kernel)
            hascii
        · exact absurd hd (by decide)

/-! ## Splitting in lower case -/

/-- What a text in lower case begins with, if it has no case, the text begins with. -/
theorem begins_of_begins_lowerFrom {start before cs after : List Char}
    (hstart : ∀ d ∈ start, IsCaseless d) (h : start <+: lowerFrom before cs ++ after) :
    start <+: cs ++ after := by
  induction cs generalizing start before with
  | nil => exact h
  | cons c rest ih =>
    cases start with
    | nil => exact List.nil_prefix
    | cons d more =>
      obtain ⟨hd, hmore⟩ := List.forall_mem_cons.mp hstart
      obtain ⟨e, es, hfront⟩ := List.exists_cons_of_ne_nil (lowered_ne_nil before c rest)
      rw [lowerFrom_cons, hfront, List.cons_append, List.cons_append, List.cons_prefix_cons] at h
      obtain ⟨rfl, h⟩ := h
      -- The first character has no case, so it is the one that was there.
      obtain rfl : c = d := hd.alone before c rest (hfront ▸ List.mem_cons_self)
      rw [hd.kept before rest, List.cons.injEq] at hfront
      rw [← hfront.2, List.nil_append] at h
      rw [List.cons_append, List.cons_prefix_cons]
      exact ⟨rfl, ih hmore h⟩

section delimiter

variable {delimiter : List Char} (hcaseless : ∀ d ∈ delimiter, IsCaseless d)
  (hdelimiter : delimiter ≠ [])
include hcaseless hdelimiter

/-- A delimiter without case that occurs in a text in lower case occurs in the text. -/
theorem within_of_within_lowerFrom {before cs after : List Char}
    (h : delimiter <:+: lowerFrom before cs ++ after) : delimiter <:+: cs ++ after := by
  induction cs generalizing before with
  | nil => exact h
  | cons c rest ih =>
    by_cases hcommon : ∃ d ∈ delimiter, d ∈ lowered before c rest
    · -- The character has no case, so it stays, and an occurrence may begin at it.
      obtain ⟨d, hd, hlowered⟩ := hcommon
      obtain rfl : c = d := (hcaseless d hd).alone before c rest hlowered
      have hkept : lowerFrom before (c :: rest) = c :: lowerFrom (c :: before) rest := by
        rw [lowerFrom_cons, (hcaseless c hd).kept before rest, List.singleton_append]
      rw [hkept, List.cons_append, List.infix_cons_iff, ← List.cons_append, ← hkept] at h
      rcases h with hbegins | hlater
      · exact (begins_of_begins_lowerFrom hcaseless hbegins).isInfix
      · exact List.infix_cons (ih hlater)
    · have hapart : delimiter.Disjoint (lowered before c rest) :=
        fun d hd hlowered => hcommon ⟨d, hd, hlowered⟩
      rw [lowerFrom_cons, List.append_assoc, ← List.nil_append (lowered before c rest ++ _)] at h
      rcases within_or_within (lowered_ne_nil before c rest) hapart h with hnone | hlater
      · exact absurd (List.infix_nil.mp hnone) hdelimiter
      · exact List.infix_cons (ih hlater)

theorem not_within_lowerFrom {cs : List Char} (h : ¬ delimiter <:+: cs) (before : List Char) :
    ¬ delimiter <:+: lowerFrom before cs := by
  rw [← List.append_nil cs] at h
  rw [← List.append_nil (lowerFrom before cs)]
  exact mt (within_of_within_lowerFrom hcaseless hdelimiter) h

theorem FoundBehind.lowerFrom {part : List Char} (h : FoundBehind delimiter part)
    (before : List Char) : FoundBehind delimiter (lowerFrom before part) := by
  unfold FoundBehind at h ⊢
  rw [List.dropLast_append_of_ne_nil hdelimiter] at h ⊢
  exact mt (within_of_within_lowerFrom hcaseless hdelimiter) h

/-- **Parts in another case** are found again: some of them in lower case, the others as they
    are. -/
theorem Separated.recased {parts recased : List (List Char)} (hparts : Separated delimiter parts)
    (h : List.Forall₂ (fun part new => new = part ∨ new = Text.lowerFrom [] part) parts recased) :
    Separated delimiter recased := by
  induction hparts generalizing recased with
  | last hpart =>
    obtain ⟨new, _, hnew, hnone, rfl⟩ := List.forall₂_cons_left_iff.mp h
    obtain rfl := List.forall₂_nil_left_iff.mp hnone
    rcases hnew with rfl | rfl
    · exact .last hpart
    · exact .last (not_within_lowerFrom hcaseless hdelimiter hpart [])
  | cons hpart _ ih =>
    obtain ⟨new, others, hnew, hothers, rfl⟩ := List.forall₂_cons_left_iff.mp h
    rcases hnew with rfl | rfl
    · exact .cons hpart (ih hothers)
    · exact .cons (hpart.lowerFrom hcaseless hdelimiter []) (ih hothers)

end delimiter

end Text

/-! ## Keys -/

theorem Separator.isCaseless_standard :
    ∀ d ∈ Separator.standard.text.toList, Text.IsCaseless d := by
  have hcolons : Separator.standard.text.toList = [':', ':'] := by decide
  rw [hcolons]
  intro d hd
  have hcolon : d = ':' := by simpa using hd
  exact hcolon ▸ Text.isCaseless_colon

/-- **A path in another case** is found again in its key, if the separator has no case. -/
theorem Separator.split_join_recased {separator : Separator}
    (hcaseless : ∀ d ∈ separator.text.toList, Text.IsCaseless d) (key : String)
    {recased : List String}
    (h : List.Forall₂ (fun step new => new = step ∨ new = Text.lower step)
      (separator.split key) recased) :
    separator.split (separator.join recased) = recased := by
  unfold split at h ⊢
  split at h
  · next hempty =>
    -- The empty separator leaves the key as it is.
    rw [if_pos hempty]
    cases h with
    | cons _ hnone =>
      cases hnone
      simp [join, Text.join]
  · next htext =>
    have hdelimiter : separator.text.toList ≠ [] := by simpa using htext
    rw [List.forall₂_map_left_iff] at h
    have hparts : List.Forall₂ (fun part new => new = part ∨ new = Text.lowerFrom [] part)
        (Text.split separator.text.toList key.toList) (recased.map String.toList) := by
      rw [List.forall₂_map_right_iff]
      apply h.imp
      rintro part new (rfl | rfl)
      · exact .inl String.toList_ofList
      · right
        unfold Text.lower
        rw [String.toList_ofList, String.toList_ofList]
    have hseparated := (Text.separated_split hdelimiter key.toList).recased hcaseless hdelimiter
      hparts
    rw [if_neg htext]
    unfold join
    rw [String.toList_ofList, hseparated.split_join hdelimiter]
    simp

/-- A key with its first step in lower case has the path that it is made from. -/
theorem Separator.split_join_lower {separator : Separator}
    (hcaseless : ∀ d ∈ separator.text.toList, Text.IsCaseless d) {k first : String}
    {rest : List String} (h : separator.split k = first :: rest) :
    separator.split (separator.join (Text.lower first :: rest)) = Text.lower first :: rest := by
  apply split_join_recased hcaseless k
  rw [h]
  exact .cons (.inr rfl) (List.forall₂_same.mpr fun _ _ => .inl rfl)

/-- A key with all its steps in lower case has the path that it is made from. -/
theorem Separator.split_join_map_lower {separator : Separator}
    (hcaseless : ∀ d ∈ separator.text.toList, Text.IsCaseless d) (key : String) :
    separator.split (separator.join ((separator.split key).map Text.lower)) =
      (separator.split key).map Text.lower := by
  apply split_join_recased hcaseless key
  rw [List.forall₂_map_right_iff]
  exact List.forall₂_same.mpr fun _ _ => .inr rfl

end LayeredConfig
