import LayeredConfig.Text.Casing

/-! # Lower case is final

    A text in lower case stays as it is when it is put in lower case again. For the partners
    in the table are no capitals of the table, the small sigmas and the two characters that
    stand for a dotted capital i are none either, and so there is nothing left to replace.
    In particular there is no capital sigma left, for which the neighbours would count.

    **Main results.** `lower_lower`, and `lower_eq_iff_isFinal` for single characters.
-/

namespace LayeredConfig.Text

/-! ## The table -/

namespace CaseRun

/-- The code point of the partner of a capital in a run. -/
def partner (run : CaseRun) (code : Nat) : Nat := (code + run.shift).toNat

/-- Whether the code points from `first` to `last` are in no part of a run: they are all
    before it or behind it, or they stand between its capitals. That is where they are when
    both are every second one, or there is one of them only (`sparse`). -/
def misses (other : CaseRun) (first last : Nat) (sparse : Bool) : Bool :=
  Nat.blt last other.first || Nat.blt other.last first ||
    (sparse && Nat.beq other.step 2 && Nat.beq ((first - other.first) % 2) 1)

/-- Whether the partners in a run are in no part of another one. -/
def isSettled (run other : CaseRun) : Bool :=
  other.misses (run.partner run.first) (run.partner run.last)
    (Nat.beq run.first run.last || Nat.beq run.step 2)

theorem holds_iff {run : CaseRun} {code : Nat} : run.holds code = true ↔
    run.first ≤ code ∧ code ≤ run.last ∧ (code - run.first) % run.step = 0 := by
  simp [holds, and_assoc]

/-- The partner of a capital is in no part of a run that those of its own run are no part
    of. -/
theorem not_holds_partner {run other : CaseRun} (hsettled : run.isSettled other = true)
    {code : Nat} (hcode : run.holds code = true) : other.holds (run.partner code) = false := by
  rw [Bool.eq_false_iff]
  intro hholds
  obtain ⟨hfirst, hlast, hstep⟩ := holds_iff.mp hcode
  obtain ⟨hbegins, hends, hother⟩ := holds_iff.mp hholds
  simp only [isSettled, misses, Bool.or_eq_true, Bool.and_eq_true, Nat.blt_eq, Nat.beq_eq]
    at hsettled
  unfold partner at *
  rcases hsettled with (hbefore | hbehind) | ⟨⟨hsparse, htwo⟩, hodd⟩
  · omega
  · omega
  · rw [htwo] at hother
    rcases hsparse with hsingle | heven
    · omega
    · rw [heven] at hstep
      omega

end CaseRun

/-- **No partner is a capital.** -/
theorem isSettled_caseRuns :
    caseRuns.all (fun run => caseRuns.all fun other => run.isSettled other) = true := by
  decide +kernel

/-- No partner is the dotted capital i, which the table leaves out. -/
theorem dotted_apart : ∀ run ∈ caseRuns,
    run.last + run.shift < 'İ'.toNat ∨ 'İ'.toNat < run.first + run.shift := by
  decide +kernel

theorem exists_holds_sigma : ∃ run ∈ caseRuns, run.holds 'Σ'.toNat = true := by
  decide +kernel

/-! ## Characters -/

/-- Whether a character is its own lower-case form, whatever its neighbours are. -/
def IsFinal (c : Char) : Prop := c ≠ 'Σ' ∧ lowerChar c = [c]

instance (c : Char) : Decidable (IsFinal c) := inferInstanceAs (Decidable (_ ∧ _))

/-- A character beyond ASCII that is not in the table is final. -/
theorem isFinal_of_not_holds {c : Char} (hascii : isAscii c = false) (hdotted : c ≠ 'İ')
    (h : ∀ run ∈ caseRuns, run.holds c.toNat = false) : IsFinal c := by
  constructor
  · rintro rfl
    obtain ⟨run, hrun, hholds⟩ := exists_holds_sigma
    exact Bool.false_ne_true ((h run hrun).symm.trans hholds)
  · have hcode : ¬ c.toNat < 0x80 := by simpa [isAscii] using hascii
    have hnone : caseRuns.find? (fun run => run.holds c.toNat) = none := by
      rw [List.find?_eq_none]
      intro run hrun hholds
      exact Bool.false_ne_true ((h run hrun).symm.trans hholds)
    unfold lowerChar
    rw [if_neg hcode, if_neg hdotted, hnone]

/-- The partner of a capital is final, but for that of the Kelvin sign, which is final as a
    letter in ASCII. -/
theorem isFinal_partner {run : CaseRun} (hrun : run ∈ caseRuns) {c : Char}
    (hholds : run.holds c.toNat = true) (hkelvin : c ≠ kelvin) :
    IsFinal (Char.ofNat (run.partner c.toNat)) := by
  obtain ⟨hfirst, hlast, _⟩ := CaseRun.holds_iff.mp hholds
  have hbeyond : (0x80 ≤ c.toNat + run.shift ∧ c.toNat + run.shift < 0xd800) ∨
      (0xe000 ≤ c.toNat + run.shift ∧ c.toNat + run.shift < 0x110000) := by
    rcases caseRuns_beyond run hrun with hlow | hhigh | ⟨hone, htwo⟩
    · omega
    · omega
    · exact absurd (Char.toNat_inj.mp (by omega)) hkelvin
  have hvalid : (run.partner c.toNat).isValidChar := by
    unfold CaseRun.partner Nat.isValidChar
    omega
  have hto : (Char.ofNat (run.partner c.toNat)).toNat = run.partner c.toNat := by
    unfold Char.ofNat
    rw [dif_pos hvalid]
    rfl
  apply isFinal_of_not_holds
  · unfold isAscii
    rw [hto, decide_eq_false_iff_not]
    unfold CaseRun.partner
    omega
  · intro heq
    rw [heq] at hto
    have hapart := dotted_apart run hrun
    unfold CaseRun.partner at hto
    omega
  · intro other hother
    rw [hto]
    have hsettled := List.all_eq_true.mp (List.all_eq_true.mp isSettled_caseRuns run hrun)
      other hother
    exact CaseRun.not_holds_partner hsettled hholds

/-- **What a character is lower-cased to is final.** -/
theorem isFinal_of_mem_lowerChar {c d : Char} (h : d ∈ lowerChar c) : IsFinal d := by
  by_cases hsimple : IsSimple c
  · rw [lowerChar_of_isSimple hsimple, List.mem_singleton] at h
    subst h
    rcases hsimple with hascii | rfl
    · rw [foldChar_of_ascii hascii]
      exact forall_ascii (P := fun c => IsFinal c.toLower) (by decide +kernel) hascii
    · decide +kernel
  · unfold IsSimple at hsimple
    rw [not_or, Bool.not_eq_true] at hsimple
    obtain ⟨hbeyond, hkelvin⟩ := hsimple
    have hcode : ¬ c.toNat < 0x80 := by simpa [isAscii] using hbeyond
    unfold lowerChar at h
    rw [if_neg hcode] at h
    split at h
    · rcases List.mem_cons.mp h with rfl | h
      · decide +kernel
      · obtain rfl := List.mem_singleton.mp h
        decide +kernel
    · next hdotted =>
      split at h
      · next run hfind =>
        obtain rfl := List.mem_singleton.mp h
        have hholds : run.holds c.toNat = true := by simpa using List.find?_some hfind
        exact isFinal_partner (List.mem_of_find?_eq_some hfind) hholds hkelvin
      · next hfind =>
        obtain rfl := List.mem_singleton.mp h
        apply isFinal_of_not_holds hbeyond hdotted
        intro run hrun
        simpa using List.find?_eq_none.mp hfind run hrun

/-! ## Texts -/

theorem isFinal_of_mem_lowerFrom {before cs : List Char} :
    ∀ d ∈ lowerFrom before cs, IsFinal d := by
  induction cs generalizing before with
  | nil => exact fun d hd => nomatch hd
  | cons c rest ih =>
    intro d hd
    rw [lowerFrom_cons, List.mem_append] at hd
    rcases hd with hd | hd
    · unfold lowered at hd
      split at hd
      · -- A sigma becomes one of the two small ones.
        obtain rfl := List.mem_singleton.mp hd
        split
        · decide +kernel
        · decide +kernel
      · exact isFinal_of_mem_lowerChar hd
    · exact ih d hd

theorem lowerFrom_eq_self {before cs : List Char} (h : ∀ c ∈ cs, IsFinal c) :
    lowerFrom before cs = cs := by
  induction cs generalizing before with
  | nil => rfl
  | cons c rest ih =>
    obtain ⟨⟨hsigma, hself⟩, hrest⟩ := List.forall_mem_cons.mp h
    rw [lowerFrom_cons, lowered, if_neg hsigma, hself, ih hrest]
    rfl

/-- **A text is in lower case** where all of its characters are final. -/
theorem lower_eq_iff_isFinal {s : String} : lower s = s ↔ ∀ c ∈ s.toList, IsFinal c := by
  constructor
  · intro h
    rw [← h]
    unfold lower
    rw [String.toList_ofList]
    exact isFinal_of_mem_lowerFrom
  · intro h
    unfold lower
    rw [lowerFrom_eq_self h, String.ofList_toList]

/-- **Lower case is final.** -/
theorem lower_lower (s : String) : lower (lower s) = lower s := by
  unfold lower
  rw [String.toList_ofList, lowerFrom_eq_self isFinal_of_mem_lowerFrom]

end LayeredConfig.Text
