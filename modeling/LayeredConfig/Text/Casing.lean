import LayeredConfig.Text.LowerCase

/-! # Texts whose lower-case form is plain

    Lower-casing looks at single characters and, for the capital sigma, at their
    neighbours. Where the result is all ASCII there was no sigma and nothing to look at:
    every character is ASCII itself, or it is the Kelvin sign, which is the one other
    character whose lower-case form is an ASCII letter. So the lower-case form is found
    character by character.

    **Main result.** `lower_eq_iff`: which texts have a given ASCII text as their
    lower-case form.
-/

namespace LayeredConfig.Text

/-! ## Single characters -/

/-- Whether a character is an ASCII character. -/
def isAscii (c : Char) : Bool := c.toNat < 0x80

/-- What holds of the first 128 characters holds of all ASCII characters. -/
theorem forall_ascii {P : Char → Prop} (h : ∀ n < 0x80, P (Char.ofNat n)) {c : Char}
    (hc : isAscii c = true) : P c := by
  have hcode : c.toNat < 0x80 := by simpa [isAscii] using hc
  have hchar := h c.toNat hcode
  rwa [Char.ofNat_toNat] at hchar

/-- The sign for the unit kelvin, whose lower-case form is the letter. -/
def kelvin : Char := '\u212a'

/-- A character whose lower-case form is one ASCII character. -/
def IsSimple (c : Char) : Prop := isAscii c = true ∨ c = kelvin

/-- The lower-case form of a simple character. -/
def foldChar (c : Char) : Char := if c = kelvin then 'k' else c.toLower

theorem foldChar_of_ascii {c : Char} (h : isAscii c = true) : foldChar c = c.toLower := by
  unfold foldChar
  rw [if_neg]
  intro heq
  rw [heq] at h
  exact absurd h (by decide)

/-- The partners in the table are valid characters beyond ASCII, but for that of the
    Kelvin sign. -/
theorem caseRuns_beyond : ∀ run ∈ caseRuns,
    (0x80 ≤ run.first + run.shift ∧ run.last + run.shift < 0xd800) ∨
      (0xe000 ≤ run.first + run.shift ∧ run.last + run.shift < 0x110000) ∨
      (run.first = kelvin.toNat ∧ run.last = kelvin.toNat) := by
  decide +kernel

/-- The lower-case form of a character beyond ASCII is beyond ASCII somewhere, but for the
    Kelvin sign. -/
theorem lowerChar_beyond {c : Char} (h : isAscii c = false) (hkelvin : c ≠ kelvin) :
    ∃ d ∈ lowerChar c, isAscii d = false := by
  have hcode : ¬ c.toNat < 0x80 := by simpa [isAscii] using h
  unfold lowerChar
  rw [if_neg hcode]
  split
  · exact ⟨'\u0307', by simp, by decide⟩
  · split
    · next run hfind =>
      have hmem := List.mem_of_find?_eq_some hfind
      have hholds : run.holds c.toNat = true := by simpa using List.find?_some hfind
      simp only [CaseRun.holds, Bool.and_eq_true, decide_eq_true_eq] at hholds
      obtain ⟨⟨hfirst, hlast⟩, _⟩ := hholds
      refine ⟨_, List.mem_singleton_self _, ?_⟩
      -- The partner is a valid character, so it has the code point that was computed.
      have hpartner : ∀ n : Nat, n.isValidChar → 0x80 ≤ n → isAscii (Char.ofNat n) = false := by
        intro n hvalid hn
        have hto : (Char.ofNat n).toNat = n := by
          unfold Char.ofNat
          rw [dif_pos hvalid]
          rfl
        simp only [isAscii, hto, decide_eq_false_iff_not, Nat.not_lt]
        exact hn
      rcases caseRuns_beyond run hmem with ⟨hlow, hhigh⟩ | ⟨hlow, hhigh⟩ | ⟨hone, htwo⟩
      · exact hpartner _ (.inl (by omega)) (by omega)
      · exact hpartner _ (.inr ⟨by omega, by omega⟩) (by omega)
      · exact absurd (Char.toNat_inj.mp (by omega)) hkelvin
    · exact ⟨c, List.mem_singleton_self c, h⟩

/-- A simple character has one lower-case character, whatever its neighbours are. -/
theorem lowerChar_of_isSimple {c : Char} (h : IsSimple c) : lowerChar c = [foldChar c] := by
  rcases h with hascii | rfl
  · have hcode : c.toNat < 0x80 := by simpa [isAscii] using hascii
    unfold lowerChar
    rw [if_pos hcode, foldChar_of_ascii hascii]
  · decide +kernel

theorem IsSimple.ne_sigma {c : Char} (h : IsSimple c) : c ≠ 'Σ' := by
  intro heq
  subst heq
  rcases h with h | h
  · exact absurd h (by decide)
  · exact absurd h (by decide)

/-! ## Texts -/

/-- What a character is lower-cased to between its neighbours. -/
def lowered (before : List Char) (c : Char) (rest : List Char) : List Char :=
  if c = 'Σ' then [if meetsCased before && !meetsCased rest then 'ς' else 'σ']
  else lowerChar c

theorem lowerFrom_cons (before : List Char) (c : Char) (rest : List Char) :
    lowerFrom before (c :: rest) = lowered before c rest ++ lowerFrom (c :: before) rest := rfl

theorem lowered_ne_nil (before : List Char) (c : Char) (rest : List Char) :
    lowered before c rest ≠ [] := by
  unfold lowered lowerChar
  repeat' split
  all_goals exact List.cons_ne_nil _ _

/-- A text with an ASCII lower-case form has simple characters only. -/
theorem isSimple_of_lowerFrom {before cs : List Char}
    (h : ∀ d ∈ lowerFrom before cs, isAscii d = true) : ∀ c ∈ cs, IsSimple c := by
  induction cs generalizing before with
  | nil => exact fun c hc => nomatch hc
  | cons c rest ih =>
    unfold lowerFrom at h
    dsimp only at h
    have hrest := ih fun d hd => h d (List.mem_append_right _ hd)
    have hc : IsSimple c := by
      refine Classical.byContradiction fun hnot => ?_
      unfold IsSimple at hnot
      rw [not_or, Bool.not_eq_true] at hnot
      obtain ⟨hbeyond, hkelvin⟩ := hnot
      by_cases hsigma : c = 'Σ'
      · -- Both small sigmas are beyond ASCII.
        have hfirst := h (if meetsCased before && !meetsCased rest then 'ς' else 'σ')
          (List.mem_append_left _ (by rw [if_pos hsigma]; exact List.mem_singleton_self _))
        split at hfirst
        · exact absurd hfirst (by decide)
        · exact absurd hfirst (by decide)
      · obtain ⟨d, hd, hdbeyond⟩ := lowerChar_beyond hbeyond hkelvin
        have hdascii := h d (List.mem_append_left _ (by rwa [if_neg hsigma]))
        rw [hdbeyond] at hdascii
        exact nomatch hdascii
    intro d hd
    rcases List.mem_cons.mp hd with rfl | hd
    · exact hc
    · exact hrest d hd

/-- Simple characters are lower-cased one by one. -/
theorem lowerFrom_of_isSimple {before cs : List Char} (h : ∀ c ∈ cs, IsSimple c) :
    lowerFrom before cs = cs.map foldChar := by
  induction cs generalizing before with
  | nil => rfl
  | cons c rest ih =>
    have hc := h c List.mem_cons_self
    unfold lowerFrom
    dsimp only
    rw [if_neg hc.ne_sigma, lowerChar_of_isSimple hc,
      ih fun d hd => h d (List.mem_cons_of_mem c hd)]
    rfl

/-- **ASCII lower-case forms.** A text has a given ASCII text as its lower-case form where
    all its characters are simple and fold to it. -/
theorem lower_eq_iff {cs : List Char} {k : String} (hk : ∀ c ∈ k.toList, isAscii c = true) :
    lower (String.ofList cs) = k ↔ (∀ c ∈ cs, IsSimple c) ∧ cs.map foldChar = k.toList := by
  unfold lower
  rw [String.toList_ofList]
  constructor
  · intro h
    have hlist : lowerFrom [] cs = k.toList := by rw [← h, String.toList_ofList]
    have hsimple := isSimple_of_lowerFrom fun d hd => hk d (hlist ▸ hd)
    exact ⟨hsimple, (lowerFrom_of_isSimple hsimple).symm.trans hlist⟩
  · intro hboth
    obtain ⟨hsimple, hmap⟩ := hboth
    rw [lowerFrom_of_isSimple hsimple, hmap, String.ofList_toList]

/-- The lower-case form of a text of ASCII characters, character by character. -/
theorem lower_of_ascii {k : String} (h : ∀ c ∈ k.toList, isAscii c = true) :
    (lower k).toList = k.toList.map Char.toLower := by
  have hsimple : ∀ c ∈ k.toList, IsSimple c := fun c hc => .inl (h c hc)
  unfold lower
  rw [String.toList_ofList, lowerFrom_of_isSimple hsimple]
  apply List.map_congr_left
  intro c hc
  exact foldChar_of_ascii (h c hc)

/-- A text of ASCII characters that have no lower-case form but themselves is its own. -/
theorem lower_eq_self {k : String} (h : ∀ c ∈ k.toList, isAscii c = true ∧ c.toLower = c) :
    lower k = k := by
  have hascii : ∀ c ∈ k.toList, isAscii c = true := fun c hc => (h c hc).1
  have hfold : k.toList.map foldChar = k.toList :=
    calc k.toList.map foldChar = k.toList.map id :=
          List.map_congr_left fun c hc => (foldChar_of_ascii (hascii c hc)).trans (h c hc).2
      _ = k.toList := List.map_id _
  have hself := (lower_eq_iff hascii).mpr ⟨fun c hc => .inl (hascii c hc), hfold⟩
  rwa [String.ofList_toList] at hself

end LayeredConfig.Text
