import LayeredConfig.Proofs.ConfTree
import LayeredConfig.Proofs.CaselessSeparators

/-! # Lines that are written for any key

    The key of a line is found again in a line that is written with it, whatever stands
    behind the equals sign: it has no equals sign in it, it begins and ends with no blank, it
    has no append mark behind it, and where the line is not exported it begins with nothing
    that would be taken for a comment or for the export word. A key that was found in a line
    has most of this by itself. What it ends with is settled by its lower-case form, since
    blanks and brackets have no case.

    A value is written without a line feed, unless it is a text that has one, and what is
    written ends with no blank.

    **Main results.** `assigned?_lineOf` and `ofLine?_lineOf`: the editor and the reader find the
    key again; `isKeyText_of_assigned?`; `Text.ends_iff_of_lower_eq`.
-/

namespace LayeredConfig

/-! ## Blanks and brackets in lower case -/

namespace Text

/-- Whether a character is its own lower-case form, and the table leads from no other
    character to it. -/
def IsApart (d : Char) : Prop :=
  IsFinal d ∧ d ∉ ['i', '\u0307', 'ς', 'σ'] ∧
    (∀ n < 0x80, (Char.ofNat n).toLower = d → Char.ofNat n = d) ∧
    ∀ run ∈ caseRuns, d.toNat < run.first + run.shift ∨ run.last + run.shift < d.toNat

instance (d : Char) : Decidable (IsApart d) := inferInstanceAs (Decidable (_ ∧ _ ∧ _ ∧ _))

/-- All partners in the table are valid characters. -/
theorem caseRuns_valid : ∀ run ∈ caseRuns, 0 ≤ run.first + run.shift ∧
    (run.last + run.shift < 0xd800 ∨
      0xe000 ≤ run.first + run.shift ∧ run.last + run.shift < 0x110000) := by
  decide +kernel

/-- A partner is where the partners of its run are. -/
theorem partner_within {run : CaseRun} (hrun : run ∈ caseRuns) {c : Char}
    (hholds : run.holds c.toNat = true) :
    run.first + run.shift ≤ (Char.ofNat (c.toNat + run.shift).toNat).toNat ∧
      (Char.ofNat (c.toNat + run.shift).toNat).toNat ≤ run.last + run.shift := by
  obtain ⟨hfirst, hlast, _⟩ := CaseRun.holds_iff.mp hholds
  obtain ⟨hstart, hplane⟩ := caseRuns_valid run hrun
  have hvalid : (c.toNat + run.shift).toNat.isValidChar := by
    unfold Nat.isValidChar
    omega
  have hto : (Char.ofNat (c.toNat + run.shift).toNat).toNat = (c.toNat + run.shift).toNat := by
    unfold Char.ofNat
    rw [dif_pos hvalid]
    rfl
  omega

theorem IsApart.isCaseless {d : Char} (h : IsApart d) : IsCaseless d := by
  obtain ⟨⟨hsigma, hself⟩, hspecial, hascii, hruns⟩ := h
  constructor
  · intro before rest
    unfold lowered
    rw [if_neg hsigma, hself]
  · intro before c rest hmem
    unfold lowered lowerChar at hmem
    split at hmem
    · obtain rfl := List.mem_singleton.mp hmem
      exact absurd (by split <;> simp) hspecial
    · split at hmem
      · next hcode =>
        obtain rfl := List.mem_singleton.mp hmem
        have hsame := hascii c.toNat hcode
        rw [Char.ofNat_toNat] at hsame
        exact hsame rfl
      · split at hmem
        · refine absurd ?_ hspecial
          rcases List.mem_cons.mp hmem with rfl | hmem
          · simp
          · obtain rfl := List.mem_singleton.mp hmem
            simp
        · split at hmem
          · next run hfind =>
            obtain rfl := List.mem_singleton.mp hmem
            have hrun := List.mem_of_find?_eq_some hfind
            have hholds : run.holds c.toNat = true := by simpa using List.find?_some hfind
            have hwithin := partner_within hrun hholds
            rcases hruns run hrun with hbefore | hbehind
            · omega
            · omega
          · exact (List.mem_singleton.mp hmem).symm

/-- The code points of the blanks. -/
def blankCodes : List Nat :=
  List.range' 9 5 ++ List.range' 0x2000 11 ++
    [0x20, 0x85, 0xa0, 0x1680, 0x2028, 0x2029, 0x202f, 0x205f, 0x3000]

theorem mem_blankCodes {c : Char} (h : isBlank c = true) : c.toNat ∈ blankCodes := by
  unfold isBlank at h
  simp only [Bool.or_eq_true, Bool.and_eq_true, decide_eq_true_eq, beq_iff_eq] at h
  unfold blankCodes
  rw [List.mem_append, List.mem_append, List.mem_range'_1, List.mem_range'_1]
  rcases h with (((((((((⟨hfirst, hlast⟩ | rfl) | rfl) | rfl) | rfl) | ⟨hfirst, hlast⟩) | rfl) |
    rfl) | rfl) | rfl) | rfl
  · exact .inl (.inl ⟨hfirst, Nat.lt_succ_of_le hlast⟩)
  all_goals first
    | exact .inr (by decide)
    | exact .inl (.inr ⟨hfirst, Nat.lt_succ_of_le hlast⟩)

/-- **Blanks have no case.** -/
theorem isCaseless_of_isBlank {c : Char} (h : isBlank c = true) : IsCaseless c := by
  have hall : ∀ code ∈ blankCodes, IsApart (Char.ofNat code) := by decide +kernel
  have hapart := hall _ (mem_blankCodes h)
  rw [Char.ofNat_toNat] at hapart
  exact hapart.isCaseless

/-- So have the brackets of the append mark. -/
theorem isCaseless_of_mem_appendMark : ∀ c ∈ Conf.appendMark, IsCaseless c := by
  have hopening : IsApart '[' := by decide +kernel
  have hclosing : IsApart ']' := by decide +kernel
  exact List.forall_mem_cons.mpr
    ⟨hopening.isCaseless, List.forall_mem_singleton.mpr hclosing.isCaseless⟩

/-- A text is its own lower-case form, if there is nothing with case in that. -/
theorem lowerFrom_eq_self_of_isCaseless {before cs : List Char}
    (h : ∀ d ∈ lowerFrom before cs, IsCaseless d) : lowerFrom before cs = cs := by
  induction cs generalizing before with
  | nil => rfl
  | cons c rest ih =>
    rw [lowerFrom_cons] at h ⊢
    obtain ⟨d, ds, hfront⟩ := List.exists_cons_of_ne_nil (lowered_ne_nil before c rest)
    have hmem : d ∈ lowered before c rest := hfront ▸ List.mem_cons_self
    have hd := h d (List.mem_append_left _ hmem)
    obtain rfl := hd.alone before c rest hmem
    rw [hd.kept before rest, ih fun e he => h e (List.mem_append_right _ he)]
    rfl

/-- **What a text in lower case ends with**, if it has no case, the text ends with. -/
theorem ends_lowerFrom_iff {ending : List Char} (h : ∀ d ∈ ending, IsCaseless d)
    (before cs : List Char) : ending <:+ lowerFrom before cs ↔ ending <:+ cs := by
  induction cs generalizing before with
  | nil => rfl
  | cons c rest ih =>
    rw [lowerFrom_cons, List.suffix_cons_iff]
    constructor
    · rintro ⟨front, hfront⟩
      rcases List.append_eq_append_iff.mp hfront with ⟨inner, hblock, hending⟩ | ⟨inner, _, hrest⟩
      · -- All of the rest is in the ending, so it has no case, and it is as it was.
        have hsame : lowerFrom (c :: before) rest = rest := lowerFrom_eq_self_of_isCaseless
          fun d hd => h d (hending ▸ List.mem_append_right inner hd)
        rw [hsame] at hending
        cases inner with
        | nil => exact .inr (hending ▸ List.suffix_rfl)
        | cons d more =>
          have hd := h d (hending ▸ List.mem_cons_self)
          obtain rfl : c = d := hd.alone before c rest (by rw [hblock]; simp)
          rw [hd.kept before rest] at hblock
          have hmore : more = [] := by
            have hlength := congrArg List.length hblock
            simp only [List.length_append, List.length_cons, List.length_nil] at hlength
            exact List.eq_nil_of_length_eq_zero (by omega)
          subst hmore
          exact .inl hending
      · exact .inr ((ih (c :: before)).mp ⟨inner, hrest.symm⟩)
    · rintro (rfl | hrest)
      · obtain ⟨hc, hrest⟩ := List.forall_mem_cons.mp h
        rw [hc.kept before rest, lowerFrom_eq_self fun d hd => isFinal_of_isCaseless (hrest d hd)]
        exact List.suffix_rfl
      · exact ((ih (c :: before)).mpr hrest).trans (List.suffix_append _ _)

/-- So texts that are the same in lower case have the same endings without case. -/
theorem ends_iff_of_lower_eq {s t : String} (heq : lower s = lower t) {ending : List Char}
    (h : ∀ d ∈ ending, IsCaseless d) : ending <:+ s.toList ↔ ending <:+ t.toList := by
  have hlist : lowerFrom [] s.toList = lowerFrom [] t.toList := by
    have hsame := congrArg String.toList heq
    unfold lower at hsame
    rwa [String.toList_ofList, String.toList_ofList] at hsame
  rw [← ends_lowerFrom_iff h [] s.toList, hlist, ends_lowerFrom_iff h]

/-- A text ends with a blank if one does that is the same in lower case. -/
theorem last_not_blank_of_lower_eq {s t : String} (heq : lower s = lower t)
    (h : ∀ c ∈ t.toList.getLast?, isBlank c = false) :
    ∀ c ∈ s.toList.getLast?, isBlank c = false := by
  intro c hc
  by_contra hblank
  have hblank : isBlank c = true := by simpa using hblank
  obtain ⟨front, hfront⟩ := List.getLast?_eq_some_iff.mp hc
  have hcaseless : ∀ d ∈ [c], IsCaseless d :=
    List.forall_mem_singleton.mpr (isCaseless_of_isBlank hblank)
  have hends : [c] <:+ t.toList := (ends_iff_of_lower_eq heq hcaseless).mp ⟨front, hfront.symm⟩
  obtain ⟨front', hfront'⟩ := hends
  have hlast : t.toList.getLast? = some c := by rw [← hfront', List.getLast?_concat]
  exact Bool.false_ne_true ((h c hlast).symm.trans hblank)

end Text

/-! ## What is written for a value -/

namespace Decimal

/-- A character that numbers are written with. -/
def isNumberChar (c : Char) : Bool := c.isDigit || ['-', '+', '.', 'e'].contains c

/-- A text that is written like a number: there is a digit in it, and nothing but characters
    of numbers. -/
structure IsNumberText (cs : List Char) : Prop where
  digit : ∃ c ∈ cs, c.isDigit = true
  chars : ∀ c ∈ cs, isNumberChar c = true

theorem IsNumberText.cons {c : Char} (hc : isNumberChar c = true) {cs : List Char}
    (h : IsNumberText cs) : IsNumberText (c :: cs) := by
  obtain ⟨d, hd, hdigit⟩ := h.digit
  exact ⟨⟨d, List.mem_cons_of_mem c hd, hdigit⟩, List.forall_mem_cons.mpr ⟨hc, h.chars⟩⟩

theorem IsNumberText.append {front rest : List Char} (h : IsNumberText front)
    (hrest : ∀ c ∈ rest, isNumberChar c = true) : IsNumberText (front ++ rest) := by
  obtain ⟨d, hd, hdigit⟩ := h.digit
  exact ⟨⟨d, List.mem_append_left rest hd, hdigit⟩, List.forall_mem_append.mpr ⟨h.chars, hrest⟩⟩

theorem isNumberChar_of_isDigit {c : Char} (h : c.isDigit = true) : isNumberChar c = true := by
  unfold isNumberChar
  rw [h, Bool.true_or]

/-- One or more digits are written like a number. -/
theorem isNumberText_of_digits {cs : List Char} (hne : cs ≠ [])
    (h : ∀ c ∈ cs, c.isDigit = true) : IsNumberText cs := by
  obtain ⟨c, rest, rfl⟩ := List.exists_cons_of_ne_nil hne
  exact ⟨⟨c, List.mem_cons_self, h c List.mem_cons_self⟩,
    fun d hd => isNumberChar_of_isDigit (h d hd)⟩

theorem isNumberText_natText (n : Nat) : IsNumberText (natText n) :=
  isNumberText_of_digits Nat.toDigits_ne_nil Scalar.isDigit_natText

theorem isNumberText_exponentText (layout : Layout) (e : Int) :
    IsNumberText (exponentText layout e) := by
  have hdigits := isNumberText_natText e.natAbs
  unfold exponentText
  split
  · exact hdigits.cons (by decide)
  · split
    · exact hdigits.cons (by decide)
    · exact hdigits

theorem isNumberText_pointed {digits : List Char} (h : IsNumberText digits) (whole : Int) :
    IsNumberText (pointed digits whole) := by
  have hzeros : ∀ n, ∀ c ∈ List.replicate n '0', isNumberChar c = true := by
    intro n c hc
    rw [List.eq_of_mem_replicate hc]
    decide
  have hzero : IsNumberText ['0'] :=
    isNumberText_of_digits (by decide) (List.forall_mem_singleton.mpr (by decide))
  have hend : ∀ c ∈ ['.', '0'], isNumberChar c = true := List.all_eq_true.mp (by decide)
  unfold pointed
  dsimp only
  split
  · refine hzero.append (List.forall_mem_cons.mpr ⟨by decide, ?_⟩)
    exact List.forall_mem_append.mpr ⟨hzeros _, h.chars⟩
  · split
    · exact (h.append (hzeros _)).append hend
    · -- The digit that is there is on one side of the point or the other.
      obtain ⟨d, hd, hdigit⟩ := h.digit
      rw [← List.take_append_drop whole.toNat digits] at hd
      refine ⟨⟨d, ?_, hdigit⟩, List.forall_mem_append.mpr ⟨?_, List.forall_mem_cons.mpr
        ⟨by decide, ?_⟩⟩⟩
      · rcases List.mem_append.mp hd with hd | hd
        · exact List.mem_append_left _ hd
        · exact List.mem_append_right _ (List.mem_cons_of_mem '.' hd)
      · exact fun c hc => h.chars c (List.mem_of_mem_take hc)
      · exact fun c hc => h.chars c (List.mem_of_mem_drop hc)

/-- **A decimal is written like a number.** -/
theorem isNumberText_text (layout : Layout) (d : Decimal) : IsNumberText (d.text layout) := by
  have hdigits := isNumberText_natText d.digits
  have hne : natText d.digits ≠ [] := Nat.toDigits_ne_nil
  unfold text
  extract_lets digits first leading more magnitude
  have hmagnitude : IsNumberText magnitude := by
    unfold magnitude
    split
    · exact ⟨⟨'0', by decide, by decide⟩, List.all_eq_true.mp (by decide)⟩
    · split
      · exact isNumberText_pointed hdigits _
      · have hleading : IsNumberText leading := by
          refine isNumberText_of_digits ?_ fun c hc =>
            Scalar.isDigit_natText c (List.mem_of_mem_take hc)
          exact fun hnil => hne (List.take_eq_nil_iff.mp hnil |>.resolve_left (by decide))
        refine (hleading.append ?_).append ?_
        · split
          · exact fun c hc => (nomatch hc)
          · refine List.forall_mem_cons.mpr ⟨by decide, ?_⟩
            exact fun c hc => hdigits.chars c (List.mem_of_mem_drop hc)
        · exact ((isNumberText_exponentText layout first).cons (by decide)).chars
  split
  · exact hmagnitude.cons (by decide)
  · exact hmagnitude

end Decimal

/-- **A number is written like one.** -/
theorem Number.isNumberText_text (n : Number) : Decimal.IsNumberText n.text := by
  cases n with
  | float x => exact Decimal.isNumberText_text Number.layout (Decimal.shortest x)
  | int i hfits =>
    show Decimal.IsNumberText (intText i)
    have hdigits := Decimal.isNumberText_natText i.natAbs
    unfold intText
    split
    · exact hdigits.cons (by decide)
    · exact hdigits

namespace Edit.Conf

open LayeredConfig.Conf

theorem isBareChar_of_isNumberChar {c : Char} (h : Decimal.isNumberChar c = true) :
    isBareChar c = true := by
  unfold Decimal.isNumberChar at h
  rw [Bool.or_eq_true] at h
  rcases h with hdigit | hmark
  · exact isBareChar_of_isDigit hdigit
  · have hall : ∀ d ∈ ['-', '+', '.', 'e'], isBareChar d = true := List.all_eq_true.mp (by decide)
    exact hall c (List.contains_iff_mem.mp hmark)

/-- A number is written without quotes and blanks. -/
theorem bare_numberText (n : Number) :
    n.text ≠ [] ∧ ∀ c ∈ n.text, isBareChar c = true := by
  obtain ⟨⟨c, hc, _⟩, hchars⟩ := n.isNumberText_text
  exact ⟨List.ne_nil_of_mem hc, fun d hd => isBareChar_of_isNumberChar (hchars d hd)⟩

end Edit.Conf

namespace Json

/-- A line feed is escaped. -/
theorem newline_not_mem_escape (c : Char) : '\n' ∉ escape c := by
  by_cases hnewline : c = '\n'
  · subst hnewline
    decide
  · have hdigit : ∀ n < 16, hexDigit n ≠ '\n' := by decide
    unfold escape
    split
    all_goals try decide
    split
    · have hhigh := hdigit (c.toNat / 16) (by omega)
      have hlow := hdigit (c.toNat % 16) (by omega)
      simp [hhigh.symm, hlow.symm]
    · simp [Ne.symm hnewline]

theorem newline_not_mem_quoted (s : String) : '\n' ∉ quoted s := by
  unfold quoted
  simp only [List.mem_append, List.mem_cons, List.mem_flatMap, not_or, not_exists, not_and]
  exact ⟨⟨by decide, fun c _ => newline_not_mem_escape c⟩, by decide, List.not_mem_nil⟩

theorem newline_not_mem_commaJoin {items : List (List Char)} (h : ∀ item ∈ items, '\n' ∉ item) :
    '\n' ∉ commaJoin [] items := by
  induction items with
  | nil => exact List.not_mem_nil
  | cons first rest ih =>
    obtain ⟨hfirst, hrest⟩ := List.forall_mem_cons.mp h
    cases rest with
    | nil => exact hfirst
    | cons second more =>
      have hjoined := ih hrest
      unfold commaJoin
      simp [hfirst, hjoined]

mutual

/-- **Compact JSON** has no line feed in it. -/
theorem newline_not_mem_compact : (v : Value) → '\n' ∉ compact v
  | .null => by decide
  | .bool true => by decide
  | .bool false => by decide
  | .number n => fun hmem => absurd ((Edit.Conf.bare_numberText n).2 _ hmem) (by decide)
  | .string s => newline_not_mem_quoted s
  | .array items => by
    have hitems := newline_not_mem_commaJoin (newline_not_mem_compactItems items)
    unfold compact
    simp [hitems]
  | .object fields => by
    have hfields := newline_not_mem_commaJoin (newline_not_mem_compactFields fields)
    unfold compact
    simp [hfields]

theorem newline_not_mem_compactItems :
    (items : List Value) → ∀ item ∈ compactItems items, '\n' ∉ item
  | [] => fun _ hitem => (nomatch hitem)
  | item :: rest =>
    List.forall_mem_cons.mpr ⟨newline_not_mem_compact item, newline_not_mem_compactItems rest⟩

theorem newline_not_mem_compactFields :
    (fields : List (String × Value)) → ∀ item ∈ compactFields fields, '\n' ∉ item
  | [] => fun _ hitem => (nomatch hitem)
  | (key, v) :: rest => by
    have hkey := newline_not_mem_quoted key
    have hv := newline_not_mem_compact v
    refine List.forall_mem_cons.mpr ⟨?_, newline_not_mem_compactFields rest⟩
    simp [hkey, hv]

end

end Json

namespace Edit.Conf

/-- A value that is written without a line feed: anything but a text that has one. -/
def IsOneLine : Value → Prop
  | .string s => '\n' ∉ s.toList
  | _ => True

instance : (v : Value) → Decidable (IsOneLine v)
  | .string s => inferInstanceAs (Decidable ('\n' ∉ s.toList))
  | .null | .bool _ | .number _ | .array _ | .object _ => .isTrue trivial

theorem newline_not_mem_scalarText_of_isOneLine {v : Value} (h : IsOneLine v) :
    '\n' ∉ scalarText v := by
  cases v with
  | string s =>
    have hs : '\n' ∉ s.toList := h
    show '\n' ∉ quoted s.toList
    unfold quoted
    split
    · exact hs
    · split
      · simp [hs]
      · simp [hs]
  | array items =>
    have hitems := Json.newline_not_mem_compact (.array items)
    unfold scalarText
    simp [hitems]
  | object fields =>
    have hfields := Json.newline_not_mem_compact (.object fields)
    unfold scalarText
    simp [hfields]
  | null => exact Json.newline_not_mem_compact .null
  | bool b => exact Json.newline_not_mem_compact (.bool b)
  | number n => exact Json.newline_not_mem_compact (.number n)

/-- **What is written ends** with no blank. -/
theorem exists_last_scalarText (v : Value) :
    ∃ front c, scalarText v = front ++ [c] ∧ Text.isBlank c = false := by
  have hbare : ∀ text : List Char, text ≠ [] → (∀ c ∈ text, isBareChar c = true) →
      ∃ front c, text = front ++ [c] ∧ Text.isBlank c = false := by
    intro text hne hall
    refine ⟨text.dropLast, text.getLast hne, (List.dropLast_concat_getLast hne).symm, ?_⟩
    exact (isBareChar_apart (hall _ (List.getLast_mem hne))).1
  cases v with
  | string s =>
    show ∃ front c, quoted s.toList = front ++ [c] ∧ Text.isBlank c = false
    unfold quoted
    split
    · next hisBare =>
      unfold isBare at hisBare
      simp only [Bool.and_eq_true, Bool.not_eq_true', List.isEmpty_eq_false_iff,
        List.all_eq_true] at hisBare
      exact hbare _ hisBare.1.1 hisBare.1.2
    · split
      · exact ⟨_, '\'', rfl, by decide⟩
      · exact ⟨_, '"', rfl, by decide⟩
  | array items => exact ⟨_, '\'', rfl, by decide⟩
  | object fields => exact ⟨_, '\'', rfl, by decide⟩
  | null => exact ⟨['n', 'u', 'l'], 'l', rfl, by decide⟩
  | bool b =>
    cases b with
    | true => exact ⟨['t', 'r', 'u'], 'e', rfl, by decide⟩
    | false => exact ⟨['f', 'a', 'l', 's'], 'e', rfl, by decide⟩
  | number n => exact hbare _ (bare_numberText n).1 (bare_numberText n).2

end Edit.Conf

/-! ## Keys that are found in lines -/

/-- What is trimmed begins with no blank. -/
theorem Text.head_trimStart (cs : List Char) : ∀ c ∈ (trimStart cs).head?, isBlank c = false := by
  intro c hc
  unfold trimStart at hc
  cases hdrop : cs.dropWhile isBlank with
  | nil =>
    rw [hdrop] at hc
    exact nomatch hc
  | cons d rest =>
    have hne : cs.dropWhile isBlank ≠ [] := by simp [hdrop]
    have hd := List.head_dropWhile_not isBlank hne
    rw [hdrop] at hc
    obtain rfl := Option.some.inj hc
    simpa [hdrop] using hd

/-- What is trimmed ends with no blank. -/
theorem Text.last_trimEnd (cs : List Char) : ∀ c ∈ (trimEnd cs).getLast?, isBlank c = false := by
  intro c hc
  unfold trimEnd at hc
  rw [List.getLast?_reverse] at hc
  exact head_trimStart cs.reverse c hc

theorem Text.trimEnd_begins (cs : List Char) : trimEnd cs <+: cs := by
  obtain ⟨blanks, hcs, _⟩ := exists_trimEnd_append cs
  exact ⟨blanks, hcs.symm⟩

theorem Text.mem_head?_of_begins {front cs : List Char} (h : front <+: cs) {c : Char}
    (hc : c ∈ front.head?) : c ∈ cs.head? := by
  obtain ⟨rest, rfl⟩ := List.head?_eq_some_iff.mp hc
  obtain ⟨back, rfl⟩ := h
  rfl

namespace Edit.Conf

open LayeredConfig.Conf

theorem takeAppendMark_begins (key : List Char) : (takeAppendMark key).1 <+: key := by
  obtain ⟨stripped, append, htaken⟩ : ∃ stripped append, takeAppendMark key = (stripped, append) :=
    ⟨_, _, rfl⟩
  rw [htaken]
  rcases takeAppendMark_eq_iff.mp htaken with ⟨_, rfl⟩ | ⟨_, rfl, _⟩
  · exact List.prefix_append stripped appendMark
  · exact List.prefix_rfl

/-- What the parts of a line are. -/
theorem parts?_eq_some {line : List Char} {parts : Parts} (h : parts? '=' line = some parts) :
    isSilent (Text.trim line) = false ∧ '=' ∉ parts.key ∧
      takeExport (Text.trim line) = (parts.exported, parts.key ++ '=' :: parts.value) := by
  unfold parts? at h
  dsimp only at h
  split at h
  · exact nomatch h
  · next hsilent =>
    obtain ⟨⟨front, back⟩, hcut, rfl⟩ := Option.map_eq_some_iff.mp h
    obtain ⟨hrest, hequals⟩ := Text.cutAt_eq_some_iff.mp hcut
    exact ⟨by simpa using hsilent, hequals, Prod.ext rfl hrest⟩

/-- A line that is not exported begins with its key, and not with the export word. -/
theorem prefix_of_not_exported {line : List Char} {parts : Parts}
    (h : parts? '=' line = some parts) (hexported : parts.exported = false) :
    Text.trimStart parts.key <+: Text.trim line ∧
      ∀ c, (c = ' ' ∨ c = '\t') → ¬ exportWord ++ [c] <+: Text.trim line := by
  obtain ⟨_, _, htake⟩ := parts?_eq_some h
  rw [hexported] at htake
  have hnone : ∀ c, (c = ' ' ∨ c = '\t') → ¬ exportWord ++ [c] <+: Text.trim line := by
    rintro c hc ⟨rest, hrest⟩
    have hword := takeExport_of_word hc rest
    rw [List.append_cons, hrest, htake] at hword
    exact nomatch hword
  rw [takeExport_of_none hnone] at htake
  have hline : Text.trim line = parts.key ++ '=' :: parts.value := (Prod.mk.inj htake).2
  refine ⟨?_, hnone⟩
  -- The line begins with no blank, so neither does the key.
  have hsame : Text.trimStart parts.key = parts.key := by
    cases hkey : parts.key with
    | nil => rfl
    | cons c rest =>
      apply Text.trimStart_cons_of_not_blank
      apply Text.head_trimStart line
      apply Text.mem_head?_of_begins (Text.trimEnd_begins _)
      show (Text.trim line).head? = some c
      rw [hline, hkey]
      rfl
  rw [hsame, hline]
  exact List.prefix_append _ _

/-- **A key that is found in a line** can be found again in another one. -/
theorem isKeyText_of_assigned? {line : List Char} {exported : Bool} {key : List Char}
    (h : assigned? '=' line = some (exported, key)) : IsKeyText exported key := by
  obtain ⟨parts, hparts, heq⟩ := Option.map_eq_some_iff.mp h
  obtain ⟨rfl, rfl⟩ := Prod.mk.inj heq
  obtain ⟨hsilent, hequals, _⟩ := parts?_eq_some hparts
  have hstarts : (takeAppendMark (Text.trim parts.key)).1 <+: Text.trimStart parts.key :=
    (takeAppendMark_begins _).trans (Text.trimEnd_begins _)
  refine ⟨?_, ?_, ?_, ?_⟩
  · exact fun hmem => hequals (Text.mem_of_mem_trim ((takeAppendMark_begins _).subset hmem))
  · exact fun c hc => Text.head_trimStart parts.key c (Text.mem_head?_of_begins hstarts hc)
  · intro hexported hhash
    have hwhole := hstarts.trans (prefix_of_not_exported hparts hexported).1
    obtain ⟨rest, hline⟩ := List.head?_eq_some_iff.mp (Text.mem_head?_of_begins hwhole hhash)
    rw [hline] at hsilent
    exact nomatch hsilent
  · intro hexported c hc hword
    obtain ⟨hline, hnone⟩ := prefix_of_not_exported hparts hexported
    exact hnone c hc (hword.trans (hstarts.trans hline))

/-- What stands in the key stands in the line. -/
theorem mem_of_assigned? {line : List Char} {exported : Bool} {key : List Char}
    (h : assigned? '=' line = some (exported, key)) : ∀ c ∈ key, c ∈ line := by
  obtain ⟨parts, hparts, heq⟩ := Option.map_eq_some_iff.mp h
  obtain ⟨rfl, rfl⟩ := Prod.mk.inj heq
  obtain ⟨_, _, htake⟩ := parts?_eq_some hparts
  intro c hc
  have hkey : c ∈ parts.key := Text.mem_of_mem_trim ((takeAppendMark_begins _).subset hc)
  apply Text.mem_of_mem_trim
  apply mem_of_takeExport
  rw [htake]
  exact List.mem_append_left _ hkey

/-! ## Keys in lines that were put together -/

/-- The line that assigns a scalar to a key, or adds it to the list under the key. -/
def lineOf (exported append : Bool) (key : List Char) (v : Value) : List Char :=
  startOf exported (if append then key ++ appendMark else key) ++ '=' :: scalarText v

/-- A list is written as one line for each of its items. -/
theorem assignmentLines_array (exported : Bool) (key : List Char) (items : List Value) :
    assignmentLines '=' exported key (.array items) = items.map (lineOf exported true key) := by
  unfold assignmentLines lineOf startOf
  dsimp only
  apply List.map_congr_left
  intro item _
  cases exported <;> simp

/-- A text that a line can be written for, so that it is found there as the key. -/
structure IsWritable (exported : Bool) (key : List Char) : Prop extends IsKeyText exported key where
  last : ∀ c ∈ key.getLast?, Text.isBlank c = false
  unmarked : ¬ appendMark <:+ key

/-- With the append mark behind it, a key is still found. -/
theorem isKeyText_mark {exported : Bool} {key : List Char} (h : IsKeyText exported key) :
    IsKeyText exported (key ++ appendMark) where
  equals hmem := (List.mem_append.mp hmem).elim h.equals (by decide)
  first := by
    cases key with
    | nil =>
      intro c hc
      obtain rfl := Option.some.inj hc
      decide
    | cons c rest => exact h.first
  hash hexported := by
    cases key with
    | nil => decide
    | cons c rest => exact h.hash hexported
  word hexported c hc hword := by
    apply h.word hexported c hc
    apply prefix_of_prefix_append hword
    intro d hd
    obtain rfl := Option.some.inj hd
    rcases hc with rfl | rfl
    · decide
    · decide

section put

variable {exported : Bool} {key : List Char} (h : IsWritable exported key) (append : Bool)
include h

/-- So it is with and without the mark. -/
theorem IsWritable.marked : IsKeyText exported (if append then key ++ appendMark else key) := by
  cases append with
  | true => exact isKeyText_mark h.toIsKeyText
  | false => exact h.toIsKeyText

/-- The mark is taken off where it was put, and nowhere else. -/
theorem IsWritable.takeAppendMark_marked :
    takeAppendMark (Text.trim (if append then key ++ appendMark else key)) = (key, append) := by
  cases append with
  | true =>
    have htrim : Text.trim (key ++ appendMark) = key ++ appendMark := by
      apply Text.trim_eq_self (isKeyText_mark h.toIsKeyText).first
      intro c hc
      have hlast : (key ++ appendMark).getLast? = some ']' := by simp [appendMark]
      rw [hlast] at hc
      obtain rfl := Option.some.inj hc
      decide
    rw [if_pos rfl, htrim]
    exact takeAppendMark_eq_iff.mpr (.inl ⟨rfl, rfl⟩)
  | false =>
    rw [if_neg Bool.false_ne_true, Text.trim_eq_self h.first h.last]
    exact takeAppendMark_eq_iff.mpr (.inr ⟨rfl, rfl, h.unmarked⟩)

variable (v : Value)

/-- **A line that was put together** assigns the key that it was made from. -/
theorem assigned?_lineOf :
    assigned? '=' (lineOf exported append key v) = some (exported, key) := by
  unfold assigned? lineOf
  rw [parts?_start (h.marked append), Option.map_some]
  dsimp only
  rw [h.takeAppendMark_marked]

/-- The reader finds the key in it, with its marks of nesting, and what is written. -/
theorem ofLine?_lineOf {k : String} (hk : IsAsciiKey k) (hspells : Spells key k) :
    Assignment.ofLine? .standard (lineOf exported append key v) =
      some ⟨String.ofList (rewriteNamespace k.toList), append,
        (Scalar.unquote Options.standard.quotes (Text.trim (scalarText v))).1,
        (Scalar.unquote Options.standard.quotes (Text.trim (scalarText v))).2⟩ := by
  unfold lineOf
  rw [ofLine?_of_parts hk (parts?_start (h.marked append) _) hspells
      (h.takeAppendMark_marked append), Text.trim_trimEnd]

/-- It continues no other line. -/
theorem isContinuation_lineOf : isContinuation (lineOf exported append key v) = false := by
  obtain ⟨c, rest, hline, hblank, _⟩ := exists_start (h.marked append) (scalarText v)
  unfold lineOf
  rw [hline, Bool.eq_false_iff]
  intro hcontinues
  obtain ⟨_, _, heq, hc⟩ := isContinuation_iff.mp hcontinues
  obtain ⟨rfl, _⟩ := List.cons.inj heq
  rcases hc with rfl | rfl
  · exact absurd hblank (by decide)
  · exact absurd hblank (by decide)

end put

/-- The lines of a value are put together from the value, or from the items of a list. -/
theorem exists_of_mem_assignmentLines {exported : Bool} {key : List Char} {v : Value}
    {line : List Char} (h : line ∈ assignmentLines '=' exported key v) :
    ∃ append item, line = lineOf exported append key item ∧
      (item = v ∨ ∃ items, v = .array items ∧ item ∈ items) := by
  cases v with
  | array items =>
    rw [assignmentLines_array] at h
    obtain ⟨item, hitem, rfl⟩ := List.mem_map.mp h
    exact ⟨true, item, rfl, .inr ⟨items, rfl, hitem⟩⟩
  | _ => exact ⟨false, _, List.mem_singleton.mp h, .inl rfl⟩

/-- A line that was put together has no line feed, if neither the key nor the value has. -/
theorem newline_not_mem_lineOf {key : List Char} (hkey : '\n' ∉ key) {v : Value}
    (hv : IsOneLine v) (exported append : Bool) : '\n' ∉ lineOf exported append key v := by
  have htext := newline_not_mem_scalarText_of_isOneLine hv
  unfold lineOf startOf
  cases exported <;> cases append <;> simp [exportWord, appendMark, hkey, htext]

/-- A line that was put together does not end in a carriage return. -/
theorem dropReturn_lineOf (exported append : Bool) (key : List Char) (v : Value) :
    Text.dropReturn (lineOf exported append key v) = lineOf exported append key v := by
  obtain ⟨front, c, htext, hc⟩ := exists_last_scalarText v
  unfold Text.dropReturn
  rw [if_neg]
  unfold lineOf
  rw [htext, ← List.cons_append, ← List.append_assoc, List.getLast?_concat]
  intro heq
  rw [Option.some.inj heq] at hc
  exact absurd hc (by decide)

/-- A value whose lines are written without line feeds: no text in it has one, unless it is
    within an object or a list in a list. -/
def HasOneLineItems : Value → Prop
  | .array items => ∀ item ∈ items, IsOneLine item
  | v => IsOneLine v

instance : (v : Value) → Decidable (HasOneLineItems v)
  | .array items => inferInstanceAs (Decidable (∀ item ∈ items, IsOneLine item))
  | .null => inferInstanceAs (Decidable (IsOneLine .null))
  | .bool b => inferInstanceAs (Decidable (IsOneLine (.bool b)))
  | .number n => inferInstanceAs (Decidable (IsOneLine (.number n)))
  | .string s => inferInstanceAs (Decidable (IsOneLine (.string s)))
  | .object fields => inferInstanceAs (Decidable (IsOneLine (.object fields)))

/-- What is written for such a value is one line, or several. -/
theorem whole_assignmentLines {key : List Char} (hkey : '\n' ∉ key) {v : Value}
    (hv : HasOneLineItems v) (exported : Bool) :
    ∀ line ∈ assignmentLines '=' exported key v,
      '\n' ∉ line ∧ Text.dropReturn line = line := by
  intro line hline
  obtain ⟨append, item, rfl, hitem⟩ := exists_of_mem_assignmentLines hline
  have hone : IsOneLine item := by
    rcases hitem with rfl | ⟨items, rfl, hmem⟩
    · cases item with
      | array items => trivial
      | _ => exact hv
    · exact hv item hmem
  exact ⟨newline_not_mem_lineOf hkey hone exported append,
    dropReturn_lineOf exported append key item⟩

end Edit.Conf

end LayeredConfig
