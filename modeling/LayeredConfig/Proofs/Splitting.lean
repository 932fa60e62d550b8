import LayeredConfig.Text.Split
import Mathlib.Data.List.Basic

/-! # Laws of splitting

    Splitting at a delimiter and joining with it again gives the text back. The other way
    round this holds exactly where the delimiter behind each part is found at no place before,
    and does not occur in the last part; so it holds where no part has the first character of
    the delimiter in it.

    So a text is its only part exactly where the delimiter does not occur in it, and
    replacing a delimiter either changes nothing or leaves the replacement in the text. A
    delimiter that has no character in common with its replacement is gone.

    **Main results.** `join_split`, `split_join_iff`, `split_join`, `replace_eq_or`,
    `not_within_replace`, `length_replace_le`, `cutAt_eq_some_iff`.
-/

namespace LayeredConfig.Text

/-! ## Any delimiter -/

@[simp] theorem split_nil (delimiter : List Char) : split delimiter [] = [[]] := rfl

/-- What is skipped does not count. -/
theorem splitFrom_skip (delimiter : List Char) (skip : Nat) (cs : List Char) :
    splitFrom delimiter skip cs = split delimiter (cs.drop skip) := by
  induction skip generalizing cs with
  | zero => rfl
  | succ skip ih =>
    cases cs with
    | nil => rfl
    | cons c rest => exact ih rest

/-- Splitting goes on behind an occurrence, or else behind one character. -/
theorem split_cons (delimiter : List Char) (c : Char) (rest : List Char) :
    split delimiter (c :: rest) =
      if delimiter.isPrefixOf (c :: rest) then
        [] :: split delimiter (rest.drop (delimiter.length - 1))
      else consFirst c (split delimiter rest) := by
  rw [← splitFrom_skip]
  rfl

theorem consFirst_ne_nil (c : Char) (parts : List (List Char)) : consFirst c parts ≠ [] := by
  cases parts <;> simp [consFirst]

theorem split_ne_nil (delimiter cs : List Char) : split delimiter cs ≠ [] := by
  cases cs with
  | nil => simp
  | cons c rest =>
    rw [split_cons]
    split
    · simp
    · exact consFirst_ne_nil c _

theorem consFirst_append (c : Char) {parts : List (List Char)} (h : parts ≠ [])
    (more : List (List Char)) : consFirst c (parts ++ more) = consFirst c parts ++ more := by
  obtain ⟨part, rest, rfl⟩ := List.exists_cons_of_ne_nil h
  rfl

theorem join_cons (delimiter part : List Char) {rest : List (List Char)} (h : rest ≠ []) :
    join delimiter (part :: rest) = part ++ delimiter ++ join delimiter rest := by
  obtain ⟨next, more, rfl⟩ := List.exists_cons_of_ne_nil h
  rfl

theorem join_consFirst (delimiter : List Char) (c : Char) {parts : List (List Char)}
    (h : parts ≠ []) : join delimiter (consFirst c parts) = c :: join delimiter parts := by
  obtain ⟨part, rest, rfl⟩ := List.exists_cons_of_ne_nil h
  cases rest <;> rfl

/-- **Joining undoes splitting.** -/
theorem join_split {delimiter : List Char} (h : delimiter ≠ []) (cs : List Char) :
    join delimiter (split delimiter cs) = cs := by
  -- The induction is on the length, since a whole occurrence is passed at a time.
  induction hn : cs.length using Nat.strongRecOn generalizing cs with
  | ind n ih =>
    cases cs with
    | nil => rfl
    | cons c rest =>
      rw [split_cons]
      split
      · next hstarts =>
        obtain ⟨after, hafter⟩ := List.isPrefixOf_iff_prefix.mp hstarts
        obtain ⟨d, more, hdelimiter⟩ := List.exists_cons_of_ne_nil h
        have hrest : rest = more ++ after := by
          rw [hdelimiter, List.cons_append, List.cons.injEq] at hafter
          exact hafter.2.symm
        have hdrop : rest.drop (delimiter.length - 1) = after := by
          rw [hdelimiter, hrest, List.length_cons, Nat.add_sub_cancel, List.drop_left]
        have hlength : after.length < n := by
          rw [← hn, ← hafter, List.length_append, hdelimiter, List.length_cons]
          omega
        rw [join_cons _ _ (split_ne_nil _ _), hdrop, ih _ hlength after rfl, List.nil_append]
        exact hafter
      · have hlength : rest.length < n := by
          rw [← hn, List.length_cons]
          omega
        rw [join_consFirst _ _ (split_ne_nil _ _), ih _ hlength rest rfl]

/-- A text that a delimiter does not occur in is its only part. -/
theorem split_of_absent {delimiter cs : List Char} (h : ¬ delimiter <:+: cs) :
    split delimiter cs = [cs] := by
  induction cs with
  | nil => rfl
  | cons c rest ih =>
    have hstarts : ¬ delimiter.isPrefixOf (c :: rest) = true := by
      intro hstarts
      exact h (List.isPrefixOf_iff_prefix.mp hstarts).isInfix
    have hrest : ¬ delimiter <:+: rest :=
      fun hwithin => h (hwithin.trans (List.suffix_cons c rest).isInfix)
    rw [split_cons, if_neg hstarts, ih hrest]
    rfl

/-- A text with one part is that part. -/
theorem eq_of_split_eq_singleton {delimiter cs part : List Char} (h : delimiter ≠ [])
    (hsplit : split delimiter cs = [part]) : cs = part := by
  have hjoin := join_split h cs
  rw [hsplit] at hjoin
  exact hjoin.symm

/-- What follows the first part begins with the delimiter and has the other parts. -/
theorem exists_of_split_eq_cons {delimiter cs part : List Char} {rest : List (List Char)}
    (h : split delimiter cs = part :: rest) (hrest : rest ≠ []) (hdelimiter : delimiter ≠ []) :
    ∃ after, cs = part ++ (delimiter ++ after) ∧ split delimiter after = rest := by
  induction cs generalizing part with
  | nil =>
    rw [split_nil, List.cons.injEq] at h
    exact absurd h.2.symm hrest
  | cons c more ih =>
    rw [split_cons] at h
    split at h
    · next hstarts =>
      obtain ⟨after, hafter⟩ := List.isPrefixOf_iff_prefix.mp hstarts
      obtain ⟨rfl, htail⟩ := List.cons.inj h
      refine ⟨after, hafter.symm, ?_⟩
      obtain ⟨d, tail, rfl⟩ := List.exists_cons_of_ne_nil hdelimiter
      rw [List.cons_append] at hafter
      obtain ⟨rfl, rfl⟩ := List.cons.inj hafter
      rw [← htail, List.length_cons, Nat.add_sub_cancel, List.drop_left]
    · obtain ⟨first, others, hsplit⟩ := List.exists_cons_of_ne_nil (split_ne_nil delimiter more)
      rw [hsplit] at h
      obtain ⟨rfl, rfl⟩ := List.cons.inj h
      obtain ⟨after, rfl, hafter⟩ := ih hsplit
      exact ⟨after, rfl, hafter⟩

/-- The first part ends at the first occurrence of the delimiter. -/
theorem length_le_of_split_eq_cons {delimiter part before after : List Char}
    {rest : List (List Char)} (h : split delimiter (before ++ (delimiter ++ after)) = part :: rest)
    (hdelimiter : delimiter ≠ []) : part.length ≤ before.length := by
  induction before generalizing part with
  | nil =>
    obtain ⟨d, tail, rfl⟩ := List.exists_cons_of_ne_nil hdelimiter
    rw [List.nil_append, List.cons_append, split_cons, if_pos] at h
    · obtain ⟨rfl, _⟩ := List.cons.inj h
      exact Nat.zero_le _
    · exact List.isPrefixOf_iff_prefix.mpr ⟨after, rfl⟩
  | cons c more ih =>
    rw [List.cons_append, split_cons] at h
    split at h
    · rw [← (List.cons.inj h).1]
      exact Nat.zero_le _
    · obtain ⟨first, others, hsplit⟩ :=
        List.exists_cons_of_ne_nil (split_ne_nil delimiter (more ++ (delimiter ++ after)))
      rw [hsplit] at h
      obtain ⟨rfl, rfl⟩ := List.cons.inj h
      exact Nat.succ_le_succ (ih hsplit)

/-- The delimiter does not occur in the first part. -/
theorem not_within_first {delimiter cs part : List Char} {rest : List (List Char)}
    (h : split delimiter cs = part :: rest) (hdelimiter : delimiter ≠ []) :
    ¬ delimiter <:+: part := by
  rintro ⟨before, after, hpart⟩
  obtain ⟨behind, hcs⟩ : ∃ behind, cs = part ++ behind := by
    by_cases hrest : rest = []
    · subst hrest
      exact ⟨[], by rw [List.append_nil, eq_of_split_eq_singleton hdelimiter h]⟩
    · obtain ⟨after, hcs, _⟩ := exists_of_split_eq_cons h hrest hdelimiter
      exact ⟨_, hcs⟩
  -- The part would end where the delimiter begins in it.
  rw [hcs, ← hpart, List.append_assoc, List.append_assoc] at h
  have hlength := length_le_of_split_eq_cons h hdelimiter
  have hlonger : 0 < delimiter.length := List.length_pos_iff.mpr hdelimiter
  rw [List.length_append, List.length_append] at hlength
  omega

/-! ## Parts that are found again -/

/-- Whether a delimiter that is put behind a part is found there, and at no place before. -/
def FoundBehind (delimiter part : List Char) : Prop :=
  ¬ delimiter <:+: (part ++ delimiter).dropLast

instance (delimiter part : List Char) : Decidable (FoundBehind delimiter part) :=
  inferInstanceAs (Decidable (¬ _ <:+: _))

/-- Parts that are found again in their joined text: the delimiter behind each of them is found
    at no place before, and it does not occur in the last one. -/
inductive Separated (delimiter : List Char) : List (List Char) → Prop where
  | last {part : List Char} (h : ¬ delimiter <:+: part) : Separated delimiter [part]
  | cons {part : List Char} {rest : List (List Char)} (h : FoundBehind delimiter part)
      (hrest : Separated delimiter rest) : Separated delimiter (part :: rest)

theorem Separated.ne_nil {delimiter : List Char} {parts : List (List Char)}
    (h : Separated delimiter parts) : parts ≠ [] := by
  cases h <;> exact List.cons_ne_nil _ _

section parts

variable {delimiter : List Char} (hdelimiter : delimiter ≠ [])
include hdelimiter

theorem foundBehind_nil : FoundBehind delimiter [] := by
  intro hwithin
  have hlength := hwithin.length_le
  have hlonger : 0 < delimiter.length := List.length_pos_iff.mpr hdelimiter
  rw [List.nil_append, List.length_dropLast] at hlength
  omega

theorem foundBehind_cons (c : Char) (part : List Char) : FoundBehind delimiter (c :: part) ↔
    ¬ delimiter <+: c :: (part ++ delimiter).dropLast ∧ FoundBehind delimiter part := by
  have hdrop : (c :: part ++ delimiter).dropLast = c :: (part ++ delimiter).dropLast :=
    List.dropLast_cons_of_ne_nil (List.append_ne_nil_of_right_ne_nil part hdelimiter)
  unfold FoundBehind
  rw [hdrop, List.infix_cons_iff, not_or]

theorem FoundBehind.not_within {part : List Char} (h : FoundBehind delimiter part) :
    ¬ delimiter <:+: part := by
  intro hwithin
  apply h
  rw [List.dropLast_append_of_ne_nil hdelimiter]
  exact List.infix_append_of_infix_left hwithin

/-- A part is the first one exactly where the delimiter behind it is found at no place before. -/
theorem split_append_iff {part : List Char} (after : List Char) :
    split delimiter (part ++ (delimiter ++ after)) = part :: split delimiter after ↔
      FoundBehind delimiter part := by
  constructor
  · rintro h ⟨before, behind, hearly⟩
    -- The first part would end where the delimiter is found.
    have hwhole : before ++ (delimiter ++ (behind ++ [(part ++ delimiter).getLast
        (List.append_ne_nil_of_right_ne_nil part hdelimiter)])) = part ++ delimiter := by
      rw [← List.append_assoc, ← List.append_assoc, hearly, List.dropLast_concat_getLast]
    rw [← List.append_assoc, ← hwhole, List.append_assoc, List.append_assoc] at h
    have hfirst := length_le_of_split_eq_cons h hdelimiter
    have hlength := congrArg List.length hwhole
    simp only [List.length_append, List.length_singleton] at hlength
    omega
  · intro h
    induction part with
    | nil =>
      obtain ⟨d, more, rfl⟩ := List.exists_cons_of_ne_nil hdelimiter
      have hstarts : (d :: more).isPrefixOf (d :: (more ++ after)) = true :=
        List.isPrefixOf_iff_prefix.mpr ⟨after, rfl⟩
      rw [List.nil_append, List.cons_append, split_cons, if_pos hstarts, List.length_cons,
        Nat.add_sub_cancel, List.drop_left]
    | cons c more ih =>
      obtain ⟨hearly, hmore⟩ := (foundBehind_cons hdelimiter c more).mp h
      have hstarts : ¬ delimiter.isPrefixOf (c :: (more ++ (delimiter ++ after))) = true := by
        rw [List.isPrefixOf_iff_prefix]
        intro hbegins
        apply hearly
        -- The delimiter is too short to reach its own end behind the part.
        apply List.prefix_of_prefix_length_le hbegins
        · rw [← List.append_assoc, List.prefix_cons_inj]
          exact (List.dropLast_prefix _).trans (List.prefix_append _ _)
        · simp
          omega
      rw [List.cons_append, split_cons, if_neg hstarts, ih hmore]
      rfl

theorem Separated.split_join {parts : List (List Char)} (h : Separated delimiter parts) :
    split delimiter (join delimiter parts) = parts := by
  induction h with
  | last hpart => exact split_of_absent hpart
  | cons hpart hrest ih =>
    rw [join_cons _ _ hrest.ne_nil, List.append_assoc, (split_append_iff hdelimiter _).mpr hpart,
      ih]

/-- The parts of a text are found again in it. -/
theorem separated_split (cs : List Char) : Separated delimiter (split delimiter cs) := by
  generalize hsplit : split delimiter cs = parts
  induction parts generalizing cs with
  | nil => exact absurd hsplit (split_ne_nil delimiter cs)
  | cons part rest ih =>
    by_cases hrest : rest = []
    · subst hrest
      exact .last (not_within_first hsplit hdelimiter)
    · obtain ⟨after, rfl, hafter⟩ := exists_of_split_eq_cons hsplit hrest hdelimiter
      rw [← hafter, split_append_iff hdelimiter] at hsplit
      exact .cons hsplit (ih after hafter)

/-- **Joining loses nothing exactly where the parts are found again.** -/
theorem split_join_iff {parts : List (List Char)} :
    split delimiter (join delimiter parts) = parts ↔ Separated delimiter parts := by
  constructor
  · intro h
    rw [← h]
    exact separated_split hdelimiter _
  · exact Separated.split_join hdelimiter

theorem Separated.not_within {parts : List (List Char)} (h : Separated delimiter parts)
    {part : List Char} (hpart : part ∈ parts) : ¬ delimiter <:+: part := by
  induction h with
  | last hlast => rwa [List.mem_singleton.mp hpart]
  | cons hfirst _ ih =>
    rcases List.mem_cons.mp hpart with rfl | hpart
    · exact hfirst.not_within hdelimiter
    · exact ih hpart

end parts

section firstCharacter

variable {d : Char} {more : List Char}

theorem foundBehind_of_not_mem {part : List Char} (h : d ∉ part) :
    FoundBehind (d :: more) part := by
  induction part with
  | nil => exact foundBehind_nil (List.cons_ne_nil d more)
  | cons c rest ih =>
    rw [List.mem_cons, not_or] at h
    rw [foundBehind_cons (List.cons_ne_nil d more), List.cons_prefix_cons]
    exact ⟨fun hstarts => h.1 hstarts.1, ih h.2⟩

/-- Parts without the first character of the delimiter are found again. -/
theorem separated_of_not_mem {parts : List (List Char)} (hne : parts ≠ [])
    (h : ∀ part ∈ parts, d ∉ part) : Separated (d :: more) parts := by
  induction parts with
  | nil => exact absurd rfl hne
  | cons part rest ih =>
    obtain ⟨hpart, hparts⟩ := List.forall_mem_cons.mp h
    by_cases hrest : rest = []
    · subst hrest
      exact .last fun hwithin => hpart (hwithin.subset List.mem_cons_self)
    · exact .cons (foundBehind_of_not_mem hpart) (ih hrest hparts)

/-- **Parts without the first character of the delimiter** survive joining and splitting. -/
theorem split_join {parts : List (List Char)} (hne : parts ≠ [])
    (h : ∀ part ∈ parts, d ∉ part) : split (d :: more) (join (d :: more) parts) = parts :=
  (separated_of_not_mem hne h).split_join (List.cons_ne_nil d more)

end firstCharacter

/-! ## Replacing -/

/-- Replacing goes on behind an occurrence, or else behind one character. -/
theorem replace_cons (old new : List Char) (c : Char) (rest : List Char) :
    replace old new (c :: rest) =
      if old.isPrefixOf (c :: rest) then new ++ replace old new (rest.drop (old.length - 1))
      else c :: replace old new rest := by
  unfold replace
  rw [split_cons]
  split
  · rw [join_cons _ _ (split_ne_nil _ _), List.nil_append]
  · exact join_consFirst _ _ (split_ne_nil _ _)

theorem replace_old_append {old : List Char} (h : old ≠ []) (new after : List Char) :
    replace old new (old ++ after) = new ++ replace old new after := by
  obtain ⟨d, more, rfl⟩ := List.exists_cons_of_ne_nil h
  have hstarts : (d :: more).isPrefixOf (d :: (more ++ after)) = true :=
    List.isPrefixOf_iff_prefix.mpr ⟨after, rfl⟩
  rw [List.cons_append, replace_cons, if_pos hstarts, List.length_cons, Nat.add_sub_cancel,
    List.drop_left]

/-- A text without the first character of what is replaced stays in front. -/
theorem replace_append_of_not_mem {d : Char} {more word : List Char} (h : d ∉ word)
    (new after : List Char) :
    replace (d :: more) new (word ++ after) = word ++ replace (d :: more) new after := by
  induction word with
  | nil => rfl
  | cons c rest ih =>
    rw [List.mem_cons, not_or] at h
    have hstarts : ¬ (d :: more).isPrefixOf (c :: (rest ++ after)) = true := by
      rw [List.isPrefixOf_iff_prefix, List.cons_prefix_cons]
      exact fun hstarts => h.1 hstarts.1
    rw [List.cons_append, replace_cons, if_neg hstarts, ih h.2, List.cons_append]

theorem replace_of_absent {old cs : List Char} (h : ¬ old <:+: cs) (new : List Char) :
    replace old new cs = cs := by
  unfold replace
  rw [split_of_absent h]
  rfl

/-- A text in which a delimiter occurs has more than one part. -/
theorem split_ne_singleton {delimiter cs : List Char} (h : delimiter ≠ [])
    (hwithin : delimiter <:+: cs) (part : List Char) : split delimiter cs ≠ [part] := by
  intro hsplit
  obtain rfl := eq_of_split_eq_singleton h hsplit
  exact not_within_first hsplit h hwithin

/-- What is replaced leaves its replacement. -/
theorem mem_replace_of_within {old cs : List Char} (h : old ≠ []) (hwithin : old <:+: cs)
    {new : List Char} {c : Char} (hc : c ∈ new) : c ∈ replace old new cs := by
  obtain ⟨part, rest, hsplit⟩ := List.exists_cons_of_ne_nil (split_ne_nil old cs)
  have hrest : rest ≠ [] := by
    rintro rfl
    exact split_ne_singleton h hwithin part hsplit
  unfold replace
  rw [hsplit, join_cons _ _ hrest]
  simp [hc]

/-- **Replacing leaves its traces.** It changes nothing, or the replacement is in the
    text. -/
theorem replace_eq_or {old : List Char} (h : old ≠ []) (new cs : List Char) :
    replace old new cs = cs ∨ ∀ c ∈ new, c ∈ replace old new cs := by
  by_cases hwithin : old <:+: cs
  · exact .inr fun c hc => mem_replace_of_within h hwithin hc
  · exact .inl (replace_of_absent hwithin new)

/-- An occurrence does not reach over a text that it has no character in common with. -/
theorem within_or_within {delimiter middle before after : List Char}
    (hmiddle : middle ≠ []) (hapart : delimiter.Disjoint middle)
    (h : delimiter <:+: before ++ (middle ++ after)) :
    delimiter <:+: before ∨ delimiter <:+: after := by
  rcases List.infix_append_iff_ne_nil.mp h with h | h | ⟨front, back, _, hback, rfl, _, hbegins⟩
  · exact .inl h
  · rcases List.infix_append_iff_ne_nil.mp h with h | h | ⟨front, back, hfront, _, rfl, hends, _⟩
    · cases delimiter with
      | nil => exact .inl List.nil_infix
      | cons d more => exact absurd (h.subset List.mem_cons_self) (hapart List.mem_cons_self)
    · exact .inr h
    · obtain ⟨d, more, rfl⟩ := List.exists_cons_of_ne_nil hfront
      exact absurd (hends.subset List.mem_cons_self) (hapart (by simp))
  · obtain ⟨d, more, rfl⟩ := List.exists_cons_of_ne_nil hback
    obtain ⟨e, others, rfl⟩ := List.exists_cons_of_ne_nil hmiddle
    obtain ⟨rfl, _⟩ := List.cons_prefix_cons.mp hbegins
    exact absurd List.mem_cons_self (hapart (a := d) (by simp))

theorem not_within_join {delimiter new : List Char} (hnew : new ≠ [])
    (hapart : delimiter.Disjoint new) {parts : List (List Char)} (hne : parts ≠ [])
    (h : ∀ part ∈ parts, ¬ delimiter <:+: part) : ¬ delimiter <:+: join new parts := by
  induction parts with
  | nil => exact absurd rfl hne
  | cons part rest ih =>
    obtain ⟨hpart, hparts⟩ := List.forall_mem_cons.mp h
    by_cases hrest : rest = []
    · subst hrest
      exact hpart
    · rw [join_cons _ _ hrest, List.append_assoc]
      intro hwithin
      exact (within_or_within hnew hapart hwithin).elim hpart (ih hrest hparts)

/-- **What is replaced is gone**, if the replacement has no character in common with it. -/
theorem not_within_replace {old new : List Char} (hold : old ≠ []) (hnew : new ≠ [])
    (hapart : old.Disjoint new) (cs : List Char) : ¬ old <:+: replace old new cs :=
  not_within_join hnew hapart (split_ne_nil old cs) fun _ hpart =>
    (separated_split hold cs).not_within hold hpart

/-! ## Characters and lengths -/

theorem mem_join_of_mem (delimiter : List Char) {parts : List (List Char)} {part : List Char}
    (hpart : part ∈ parts) {c : Char} (hc : c ∈ part) : c ∈ join delimiter parts := by
  induction parts with
  | nil => exact nomatch hpart
  | cons first rest ih =>
    by_cases hrest : rest = []
    · subst hrest
      rwa [← List.mem_singleton.mp hpart]
    · rw [join_cons _ _ hrest]
      rcases List.mem_cons.mp hpart with rfl | hpart
      · simp [hc]
      · simp [ih hpart]

theorem mem_of_mem_join {delimiter : List Char} {parts : List (List Char)} {c : Char}
    (h : c ∈ join delimiter parts) : c ∈ delimiter ∨ ∃ part ∈ parts, c ∈ part := by
  induction parts with
  | nil => exact nomatch h
  | cons first rest ih =>
    by_cases hrest : rest = []
    · subst hrest
      exact .inr ⟨first, List.mem_cons_self, h⟩
    · rw [join_cons _ _ hrest, List.mem_append, List.mem_append] at h
      rcases h with (h | h) | h
      · exact .inr ⟨first, List.mem_cons_self, h⟩
      · exact .inl h
      · rcases ih h with h | ⟨part, hpart, hc⟩
        · exact .inl h
        · exact .inr ⟨part, List.mem_cons_of_mem first hpart, hc⟩

/-- What is in a part is in the text. -/
theorem mem_of_mem_split {delimiter : List Char} (h : delimiter ≠ []) {cs part : List Char}
    (hpart : part ∈ split delimiter cs) {c : Char} (hc : c ∈ part) : c ∈ cs := by
  rw [← join_split h cs]
  exact mem_join_of_mem delimiter hpart hc

/-- Replacing brings in only what is in the replacement. -/
theorem mem_of_mem_replace {old : List Char} (h : old ≠ []) {new cs : List Char} {c : Char}
    (hc : c ∈ replace old new cs) : c ∈ new ∨ c ∈ cs := by
  rcases mem_of_mem_join hc with hnew | ⟨part, hpart, hmem⟩
  · exact .inl hnew
  · exact .inr (mem_of_mem_split h hpart hmem)

theorem length_join_le {new old : List Char} (h : new.length ≤ old.length)
    (parts : List (List Char)) : (join new parts).length ≤ (join old parts).length := by
  induction parts with
  | nil => exact Nat.le_refl _
  | cons first rest ih =>
    by_cases hrest : rest = []
    · subst hrest
      exact Nat.le_refl _
    · rw [join_cons _ _ hrest, join_cons _ _ hrest]
      simp only [List.length_append]
      omega

/-- A replacement that is not longer makes no text longer. -/
theorem length_replace_le {new old : List Char} (hold : old ≠ []) (h : new.length ≤ old.length)
    (cs : List Char) : (replace old new cs).length ≤ cs.length := by
  conv_rhs => rw [← join_split hold cs]
  exact length_join_le h (split old cs)

/-! ## A delimiter of one character -/

theorem split_cons_self (d : Char) (cs : List Char) :
    split [d] (d :: cs) = [] :: split [d] cs := by
  simp [split_cons]

theorem split_cons_of_ne {c d : Char} (h : c ≠ d) (cs : List Char) :
    split [d] (c :: cs) = consFirst c (split [d] cs) := by
  simp [split_cons, Ne.symm h]

/-- The parts of two texts with the delimiter between them are those of the one and
    those of the other. -/
theorem split_append (d : Char) (first second : List Char) :
    split [d] (first ++ d :: second) = split [d] first ++ split [d] second := by
  induction first with
  | nil =>
    rw [List.nil_append, split_cons_self]
    rfl
  | cons c rest ih =>
    by_cases h : c = d
    · subst h
      rw [List.cons_append, split_cons_self, split_cons_self, ih, List.cons_append]
    · rw [List.cons_append, split_cons_of_ne h, split_cons_of_ne h, ih,
        consFirst_append c (split_ne_nil [d] rest)]

/-- No part holds the delimiter. -/
theorem not_mem_of_mem_split {d : Char} {cs part : List Char} (h : part ∈ split [d] cs) :
    d ∉ part := by
  induction cs generalizing part with
  | nil =>
    have hpart : part = [] := by simpa using h
    simp [hpart]
  | cons c rest ih =>
    by_cases hc : c = d
    · subst hc
      rw [split_cons_self, List.mem_cons] at h
      rcases h with rfl | h
      · simp
      · exact ih h
    · obtain ⟨first, more, hsplit⟩ := List.exists_cons_of_ne_nil (split_ne_nil [d] rest)
      rw [split_cons_of_ne hc, hsplit, consFirst, List.mem_cons] at h
      rcases h with rfl | h
      · have hfirst : d ∉ first := ih (by simp [hsplit])
        simp [Ne.symm hc, hfirst]
      · exact ih (by simp [hsplit, h])

/-! ## Cutting once -/

/-- A text is cut at the first place where the character is. -/
theorem cutAt_eq_some_iff {c : Char} {cs before after : List Char} :
    cutAt c cs = some (before, after) ↔ cs = before ++ c :: after ∧ c ∉ before := by
  constructor
  · intro h
    induction cs generalizing before with
    | nil => exact nomatch h
    | cons d rest ih =>
      unfold cutAt at h
      split at h
      · next hd =>
        obtain ⟨rfl, rfl⟩ := Prod.mk.inj (Option.some.inj h)
        exact ⟨by rw [hd]; rfl, List.not_mem_nil⟩
      · next hd =>
        obtain ⟨⟨front, back⟩, hparts, heq⟩ := Option.map_eq_some_iff.mp h
        obtain ⟨rfl, rfl⟩ := Prod.mk.inj heq
        obtain ⟨hrest, hnot⟩ := ih hparts
        refine ⟨by rw [hrest]; rfl, fun hmem => ?_⟩
        exact (List.mem_cons.mp hmem).elim (fun heq => hd heq.symm) hnot
  · rintro ⟨rfl, h⟩
    induction before with
    | nil => simp [cutAt]
    | cons d more ih =>
      have hd : d ≠ c := fun heq => h (heq ▸ List.mem_cons_self)
      have hmore := ih fun hmem => h (List.mem_cons_of_mem d hmem)
      rw [List.cons_append, cutAt, if_neg hd, hmore]
      rfl

end LayeredConfig.Text
