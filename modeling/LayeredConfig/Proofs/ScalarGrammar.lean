import LayeredConfig.Proofs.ScalarText
import LayeredConfig.Proofs.TokenLexemes
import Mathlib.Data.List.Forall2
import Mathlib.Data.Nat.Digits.Defs

/-! # The grammar of plain scalars

    What a text without quotes stands for is given by a grammar: the spellings of three
    words, integers, and decimal numbers with a point or an exponent. Digits count by their
    places, so that a number is what its digits denote, however many there are.

    The readers find exactly that. They are tried one after the other, a word first, then an
    integer that fits 64 bits, then a decimal number with a finite floating-point number
    near it. Words have no digits and the others have one, so a word is never a number; but
    an integer is a decimal number too, and is read as one where it does not fit.

    **Main results.** `decimalInt?_eq_some_iff` and `ofLiteral?_eq_some_iff`: the readers of
    numbers; `typed_by_grammar`: what a text stands for.
-/

namespace LayeredConfig.Scalar

open Reference (StartsIn startsIn_cons takeWhile_of_not_startsIn dropWhile_of_not_startsIn
  not_startsIn_dropWhile)

/-! ## The grammar -/

/-- Whether a text is a word of lower-case letters, each letter in either case. -/
def IsSpelling (word : String) (cs : List Char) : Prop :=
  List.Forall₂ (fun letter c => c = letter ∨ c = letter.toUpper) word.toList cs

/-- Whether a text is one of the three words. -/
def IsWord (cs : List Char) : Prop :=
  IsSpelling "true" cs ∨ IsSpelling "false" cs ∨ IsSpelling "null" cs

/-- A sign, or none, and whether it is a minus. -/
inductive Sign : List Char → Bool → Prop where
  | missing : Sign [] false
  | plus : Sign ['+'] false
  | minus : Sign ['-'] true

/-- One or more digits, and the number that they denote by their places. -/
structure Digits (cs : List Char) (n : Nat) : Prop where
  ne_nil : cs ≠ []
  isDigit : ∀ c ∈ cs, c.isDigit = true
  value : n = Nat.ofDigits 10 (cs.reverse.map Decimal.digitValue)

/-- An optional sign and digits, and the integer that they denote. -/
inductive IntegerText : List Char → Int → Prop where
  | mk {sign digits : List Char} {negative : Bool} {n : Nat} (hsign : Sign sign negative)
      (hdigits : Digits digits n) :
      IntegerText (sign ++ digits) (if negative then -(n : Int) else n)

/-- Digits with an optional point, at least one digit before or behind it; the number that
    the digits denote without the point, and how many of them stand behind it. -/
inductive Significand : List Char → Nat → Nat → Prop where
  | whole {digits : List Char} {n : Nat} (h : Digits digits n) : Significand digits n 0
  | pointed {whole fraction : List Char} {n : Nat} (h : Digits (whole ++ fraction) n) :
      Significand (whole ++ '.' :: fraction) n fraction.length

/-- An exponent, or none. -/
inductive Exponent : List Char → Int → Prop where
  | missing : Exponent [] 0
  | given {e : Char} {cs : List Char} {i : Int} (he : e = 'e' ∨ e = 'E') (h : IntegerText cs i) :
      Exponent (e :: cs) i

/-- An optional sign, digits with an optional point, and an optional exponent; the decimal
    number that they denote. -/
inductive DecimalText : List Char → Decimal → Prop where
  | mk {sign significand exponent : List Char} {negative : Bool} {n places : Nat} {e : Int}
      (hsign : Sign sign negative) (hsignificand : Significand significand n places)
      (hexponent : Exponent exponent e) :
      DecimalText (sign ++ (significand ++ exponent)) ⟨negative, n, e - places⟩

/-- Whether an integer fits 64 bits with a sign. -/
def FitsSigned (i : Int) : Prop := -2 ^ 63 ≤ i ∧ i < 2 ^ 63

/-- Whether a text denotes an integer that fits 64 bits with a sign. -/
def IsSignedInteger (cs : List Char) : Prop := ∃ i, IntegerText cs i ∧ FitsSigned i

/-- What a text without quotes stands for. -/
inductive StandsFor (cs : List Char) : Value → Prop where
  | yes (h : IsSpelling "true" cs) : StandsFor cs (.bool true)
  | no (h : IsSpelling "false" cs) : StandsFor cs (.bool false)
  | null (h : IsSpelling "null" cs) : StandsFor cs .null
  | integer {i : Int} (h : IntegerText cs i) (hfits : FitsSigned i) (hnumber : Number.Fits i) :
      StandsFor cs (.number (.int i hnumber))
  | float {d : Decimal} {x : Binary64} (hword : ¬ IsWord cs) (hinteger : ¬ IsSignedInteger cs)
      (h : DecimalText cs d) (hx : d.toBinary64? = some x) : StandsFor cs (.number (.float x))
  | text (hword : ¬ IsWord cs) (hinteger : ¬ IsSignedInteger cs)
      (hfloat : ∀ d, DecimalText cs d → d.toBinary64? = none) :
      StandsFor cs (.string (String.ofList cs))

/-! ## Words -/

/-- Only ASCII letters become letters of the words. -/
theorem isAscii_of_toLower_mem {c : Char} (h : c.toLower ∈ wordChars) :
    Text.isAscii c = true := by
  have hletters : ∀ d ∈ wordChars, Text.isAscii d = true := List.all_eq_true.mp (by decide)
  unfold Char.toLower at h
  split at h
  · next hcapital =>
    unfold Text.isAscii
    rw [decide_eq_true_eq]
    exact Nat.lt_of_le_of_lt hcapital.2 (by decide)
  · exact hletters c h

theorem toLower_eq_iff {letter c : Char} (hletter : letter ∈ wordChars) :
    c.toLower = letter ↔ c = letter ∨ c = letter.toUpper := by
  constructor
  · rintro rfl
    exact Text.forall_ascii (P := fun c => c = c.toLower ∨ c = c.toLower.toUpper)
      (by decide +kernel) (isAscii_of_toLower_mem hletter)
  · have hlower : ∀ d ∈ wordChars, (d.toLower == d && d.toUpper.toLower == d) = true :=
      List.all_eq_true.mp (by decide)
    have hboth := hlower letter hletter
    rw [Bool.and_eq_true, beq_iff_eq, beq_iff_eq] at hboth
    rintro (rfl | rfl)
    · exact hboth.1
    · exact hboth.2

theorem isSpelling_iff {word : String} (hword : word.toList.all wordChars.contains = true)
    {cs : List Char} : IsSpelling word cs ↔ String.ofList (cs.map Char.toLower) = word := by
  rw [← String.toList_inj, String.toList_ofList]
  unfold IsSpelling
  generalize word.toList = letters at hword
  induction letters generalizing cs with
  | nil => rw [List.forall₂_nil_left_iff, List.map_eq_nil_iff]
  | cons letter rest ih =>
    rw [List.all_cons, Bool.and_eq_true, List.contains_iff_mem] at hword
    obtain ⟨hletter, hrest⟩ := hword
    cases cs with
    | nil => simp [List.forall₂_nil_right_iff]
    | cons c more =>
      rw [List.forall₂_cons, List.map_cons, List.cons.injEq, toLower_eq_iff hletter, ih hrest]

/-- **Words** are found by their spellings. -/
theorem word?_eq_some_iff {cs : List Char} {v : Value} : word? cs = some v ↔
    (v = .bool true ∧ IsSpelling "true" cs) ∨ (v = .bool false ∧ IsSpelling "false" cs) ∨
      v = .null ∧ IsSpelling "null" cs := by
  rw [isSpelling_iff (by decide), isSpelling_iff (by decide), isSpelling_iff (by decide)]
  unfold word?
  split
  · next h => simp [h, eq_comm]
  · next h => simp [h, eq_comm]
  · next h => simp [h, eq_comm]
  · next htrue hfalse hnull =>
    constructor
    · exact nofun
    · rintro (⟨_, h⟩ | ⟨_, h⟩ | ⟨_, h⟩)
      · exact absurd h htrue
      · exact absurd h hfalse
      · exact absurd h hnull

theorem word?_eq_none_iff {cs : List Char} : word? cs = none ↔ ¬ IsWord cs := by
  rw [Option.eq_none_iff_forall_ne_some]
  unfold IsWord
  constructor
  · rintro h (htrue | hfalse | hnull)
    · exact h _ (word?_eq_some_iff.mpr (.inl ⟨rfl, htrue⟩))
    · exact h _ (word?_eq_some_iff.mpr (.inr (.inl ⟨rfl, hfalse⟩)))
    · exact h _ (word?_eq_some_iff.mpr (.inr (.inr ⟨rfl, hnull⟩)))
  · intro h v hv
    rcases word?_eq_some_iff.mp hv with ⟨_, htrue⟩ | ⟨_, hfalse⟩ | ⟨_, hnull⟩
    · exact h (.inl htrue)
    · exact h (.inr (.inl hfalse))
    · exact h (.inr (.inr hnull))

/-! ## Signs and digits -/

/-- A sign is taken off a text, if there is one. -/
theorem exists_sign {cs rest : List Char} {negative : Bool}
    (h : Decimal.takeSign cs = (negative, rest)) :
    ∃ sign, Sign sign negative ∧ cs = sign ++ rest := by
  unfold Decimal.takeSign at h
  split at h
  · obtain ⟨rfl, rfl⟩ := Prod.mk.inj h
    exact ⟨['-'], .minus, rfl⟩
  · obtain ⟨rfl, rfl⟩ := Prod.mk.inj h
    exact ⟨['+'], .plus, rfl⟩
  · obtain ⟨rfl, rfl⟩ := Prod.mk.inj h
    exact ⟨[], .missing, rfl⟩

/-- Whether a character is a sign. -/
def isSign (c : Char) : Bool := c == '-' || c == '+'

/-- In front of what does not begin with a sign it is all of the sign. -/
theorem takeSign_append {sign : List Char} {negative : Bool} (h : Sign sign negative)
    {cs : List Char} (hcs : ¬ StartsIn isSign cs) :
    Decimal.takeSign (sign ++ cs) = (negative, cs) := by
  cases h with
  | plus => rfl
  | minus => rfl
  | missing =>
    unfold Decimal.takeSign
    split
    · next rest heq =>
      rw [List.nil_append] at heq
      exact absurd (heq ▸ startsIn_cons.mpr rfl) hcs
    · next rest heq =>
      rw [List.nil_append] at heq
      exact absurd (heq ▸ startsIn_cons.mpr rfl) hcs
    · rfl

theorem natOfDigits_eq_ofDigits (cs : List Char) :
    Decimal.natOfDigits cs = Nat.ofDigits 10 (cs.reverse.map Decimal.digitValue) := by
  induction cs using List.reverseRecOn with
  | nil => rfl
  | append_singleton front c ih =>
    rw [List.reverse_append, List.reverse_singleton, List.singleton_append, List.map_cons,
      Nat.ofDigits_cons, ← ih]
    unfold Decimal.natOfDigits
    rw [List.foldl_append, List.foldl_cons, List.foldl_nil]
    omega

theorem digits_iff {cs : List Char} {n : Nat} :
    Digits cs n ↔ (cs ≠ [] ∧ ∀ c ∈ cs, c.isDigit = true) ∧ n = Decimal.natOfDigits cs := by
  rw [natOfDigits_eq_ofDigits]
  exact ⟨fun ⟨hne, hdigit, hvalue⟩ => ⟨⟨hne, hdigit⟩, hvalue⟩,
    fun ⟨⟨hne, hdigit⟩, hvalue⟩ => ⟨hne, hdigit, hvalue⟩⟩

/-- The test of the readers for one or more digits. -/
theorem isEmpty_or_not_all_iff {cs : List Char} :
    (cs.isEmpty || !cs.all Char.isDigit) = true ↔ ¬ (cs ≠ [] ∧ ∀ c ∈ cs, c.isDigit = true) := by
  rw [Bool.or_eq_true, List.isEmpty_iff, Bool.not_eq_true', ← Bool.not_eq_true, List.all_eq_true]
  tauto

/-- Digits do not begin with a sign. -/
theorem Digits.not_startsIn {cs : List Char} {n : Nat} (h : Digits cs n) (rest : List Char) :
    ¬ StartsIn isSign (cs ++ rest) := by
  obtain ⟨c, more, rfl⟩ := List.exists_cons_of_ne_nil h.ne_nil
  have hdigit := h.isDigit c List.mem_cons_self
  rw [List.cons_append, startsIn_cons]
  unfold isSign
  intro hsign
  rw [Bool.or_eq_true, beq_iff_eq, beq_iff_eq] at hsign
  rcases hsign with rfl | rfl
  · exact absurd hdigit (by decide)
  · exact absurd hdigit (by decide)

/-! ## Integers -/

/-- **Integers** are read from the texts that denote them. -/
theorem decimalInt?_eq_some_iff {cs : List Char} {i : Int} :
    decimalInt? cs = some i ↔ IntegerText cs i := by
  constructor
  · intro h
    rcases htake : Decimal.takeSign cs with ⟨negative, digits⟩
    obtain ⟨sign, hsign, rfl⟩ := exists_sign htake
    unfold decimalInt? at h
    rw [htake] at h
    dsimp only at h
    split at h
    · exact nomatch h
    · next htest =>
      rw [isEmpty_or_not_all_iff, not_not] at htest
      rw [← Option.some.inj h]
      exact .mk hsign (digits_iff.mpr ⟨htest, rfl⟩)
  · rintro ⟨hsign, hdigits⟩
    obtain ⟨htest, rfl⟩ := digits_iff.mp hdigits
    have htake := takeSign_append hsign (by simpa using hdigits.not_startsIn [])
    unfold decimalInt?
    rw [htake]
    dsimp only
    rw [if_neg (mt isEmpty_or_not_all_iff.mp (not_not.mpr htest))]

/-! ## Decimal numbers -/

theorem ofExponent?_eq_some_iff {cs : List Char} {e : Int} :
    Decimal.ofExponent? cs = some e ↔ Exponent cs e := by
  cases cs with
  | nil =>
    constructor
    · intro h
      obtain rfl := Option.some.inj h
      exact .missing
    · rintro ⟨⟩
      rfl
  | cons first rest =>
    have hcons : Decimal.ofExponent? (first :: rest) =
        if first = 'e' ∨ first = 'E' then decimalInt? rest else none := rfl
    rw [hcons]
    constructor
    · intro h
      rw [Option.ite_none_right_eq_some, decimalInt?_eq_some_iff] at h
      exact .given h.1 h.2
    · rintro ⟨⟩
      next he h => rw [if_pos he, decimalInt?_eq_some_iff.mpr h]

/-- An exponent begins with its letter. -/
theorem Exponent.not_startsIn {cs : List Char} {e : Int} (h : Exponent cs e)
    {holds : Char → Bool} (hlower : holds 'e' = false) (hupper : holds 'E' = false) :
    ¬ StartsIn holds cs := by
  cases h with
  | missing =>
    rintro ⟨c, hc, _⟩
    exact nomatch hc
  | given he h =>
    rw [startsIn_cons, Bool.not_eq_true]
    rcases he with rfl | rfl
    · exact hlower
    · exact hupper

/-- Digits in front of what begins with no digit are all the digits there. -/
theorem span_digits {digits cs : List Char} (hdigits : ∀ c ∈ digits, c.isDigit = true)
    (hcs : ¬ StartsIn Char.isDigit cs) :
    (digits ++ cs).takeWhile Char.isDigit = digits ∧
      (digits ++ cs).dropWhile Char.isDigit = cs := by
  rw [List.takeWhile_append_of_pos hdigits, List.dropWhile_append_of_pos hdigits,
    takeWhile_of_not_startsIn hcs, dropWhile_of_not_startsIn hcs, List.append_nil]
  exact ⟨rfl, rfl⟩

/-- The digits before the point, those behind it, and what follows them. -/
def cutSignificand (cs : List Char) : List Char × List Char × List Char :=
  let (fraction, tail) :=
    match cs.dropWhile Char.isDigit with
    | '.' :: rest => (rest.takeWhile Char.isDigit, rest.dropWhile Char.isDigit)
    | rest => ([], rest)
  (cs.takeWhile Char.isDigit, fraction, tail)

theorem ofLiteral?_eq (cs : List Char) : Decimal.ofLiteral? cs =
    let (negative, unsigned) := Decimal.takeSign cs
    let (whole, fraction, tail) := cutSignificand unsigned
    if whole.isEmpty && fraction.isEmpty then none
    else (Decimal.ofExponent? tail).map fun exponent =>
      ⟨negative, Decimal.natOfDigits (whole ++ fraction), exponent - fraction.length⟩ :=
  rfl

theorem cutSignificand_of_point {cs rest : List Char}
    (h : cs.dropWhile Char.isDigit = '.' :: rest) : cutSignificand cs =
      (cs.takeWhile Char.isDigit, rest.takeWhile Char.isDigit, rest.dropWhile Char.isDigit) := by
  unfold cutSignificand
  rw [h]
  rfl

theorem cutSignificand_of_no_point {cs : List Char}
    (h : ¬ StartsIn (· == '.') (cs.dropWhile Char.isDigit)) :
    cutSignificand cs = (cs.takeWhile Char.isDigit, [], cs.dropWhile Char.isDigit) := by
  unfold cutSignificand
  split
  next _ _ hcut =>
  split at hcut
  · next rest hpoint =>
    rw [hpoint] at h
    exact absurd (startsIn_cons.mpr rfl) h
  · obtain ⟨rfl, rfl⟩ := Prod.mk.inj hcut
    rfl

/-- Where there is a digit, what is cut off is a significand. -/
theorem significand_of_cutSignificand {cs whole fraction tail : List Char}
    (h : cutSignificand cs = (whole, fraction, tail)) (hne : whole ++ fraction ≠ []) :
    ∃ significand, cs = significand ++ tail ∧
      Significand significand (Decimal.natOfDigits (whole ++ fraction)) fraction.length := by
  have hdigits : ∀ text : List Char, ∀ c ∈ text.takeWhile Char.isDigit, c.isDigit = true :=
    fun text c hc => List.mem_takeWhile_imp hc
  have hspan := List.takeWhile_append_dropWhile (p := Char.isDigit) (l := cs)
  by_cases hpoint : StartsIn (· == '.') (cs.dropWhile Char.isDigit)
  · obtain ⟨rest, hrest⟩ : ∃ rest, cs.dropWhile Char.isDigit = '.' :: rest := by
      obtain ⟨c, hc, hpoint⟩ := hpoint
      obtain rfl := beq_iff_eq.mp hpoint
      exact ⟨_, List.eq_cons_of_mem_head? hc⟩
    rw [cutSignificand_of_point hrest] at h
    obtain ⟨rfl, hpair⟩ := Prod.mk.inj h
    obtain ⟨rfl, rfl⟩ := Prod.mk.inj hpair
    refine ⟨cs.takeWhile Char.isDigit ++ '.' :: rest.takeWhile Char.isDigit, ?_, ?_⟩
    · rw [List.append_assoc, List.cons_append, List.takeWhile_append_dropWhile, ← hrest, hspan]
    · apply Significand.pointed
      exact digits_iff.mpr ⟨⟨hne, List.forall_mem_append.mpr ⟨hdigits _, hdigits _⟩⟩, rfl⟩
  · rw [cutSignificand_of_no_point hpoint] at h
    obtain ⟨rfl, hpair⟩ := Prod.mk.inj h
    obtain ⟨rfl, rfl⟩ := Prod.mk.inj hpair
    rw [List.append_nil] at hne ⊢
    exact ⟨_, hspan.symm, .whole (digits_iff.mpr ⟨⟨hne, hdigits _⟩, rfl⟩)⟩

/-- A significand is cut off in front of what does not continue it. -/
theorem cutSignificand_append {significand tail : List Char} {n places : Nat}
    (h : Significand significand n places) (hdigit : ¬ StartsIn Char.isDigit tail)
    (hpoint : ¬ StartsIn (· == '.') tail) :
    ∃ whole fraction, cutSignificand (significand ++ tail) = (whole, fraction, tail) ∧
      whole ++ fraction ≠ [] ∧ n = Decimal.natOfDigits (whole ++ fraction) ∧
        places = fraction.length := by
  cases h with
  | whole h =>
    obtain ⟨htake, hdrop⟩ := span_digits h.isDigit hdigit
    rw [← hdrop] at hpoint
    have hcut := cutSignificand_of_no_point hpoint
    rw [htake, hdrop] at hcut
    obtain ⟨htest, hvalue⟩ := digits_iff.mp h
    rw [← List.append_nil significand] at htest hvalue
    exact ⟨significand, [], hcut, htest.1, hvalue, rfl⟩
  | @pointed whole fraction _ h =>
    obtain ⟨hwhole, hfraction⟩ := List.forall_mem_append.mp h.isDigit
    have hstop : ¬ StartsIn Char.isDigit ('.' :: (fraction ++ tail)) := by
      rw [startsIn_cons]
      decide
    obtain ⟨htake, hdrop⟩ := span_digits hwhole hstop
    obtain ⟨htake', hdrop'⟩ := span_digits hfraction hdigit
    have hcut := cutSignificand_of_point hdrop
    rw [htake, htake', hdrop'] at hcut
    obtain ⟨htest, hvalue⟩ := digits_iff.mp h
    refine ⟨whole, fraction, ?_, htest.1, hvalue, rfl⟩
    rwa [List.append_assoc]

theorem Significand.not_startsIn {cs : List Char} {n places : Nat} (h : Significand cs n places)
    (rest : List Char) : ¬ StartsIn isSign (cs ++ rest) := by
  cases h with
  | whole h => exact h.not_startsIn rest
  | @pointed whole fraction _ h =>
    cases whole with
    | nil =>
      rw [List.nil_append, List.cons_append, startsIn_cons]
      decide
    | cons c more => simpa [startsIn_cons] using h.not_startsIn []

/-- **Decimal numbers** are read from the texts that denote them. -/
theorem ofLiteral?_eq_some_iff {cs : List Char} {d : Decimal} :
    Decimal.ofLiteral? cs = some d ↔ DecimalText cs d := by
  rw [ofLiteral?_eq]
  constructor
  · intro h
    rcases htake : Decimal.takeSign cs with ⟨negative, unsigned⟩
    rcases hcut : cutSignificand unsigned with ⟨whole, fraction, tail⟩
    obtain ⟨sign, hsign, rfl⟩ := exists_sign htake
    rw [htake] at h
    dsimp only at h
    rw [hcut] at h
    dsimp only at h
    rw [Option.ite_none_left_eq_some, Option.map_eq_some_iff] at h
    obtain ⟨htest, e, he, rfl⟩ := h
    have hne : whole ++ fraction ≠ [] := by simpa using htest
    obtain ⟨significand, rfl, hsignificand⟩ := significand_of_cutSignificand hcut hne
    exact .mk hsign hsignificand (ofExponent?_eq_some_iff.mp he)
  · rintro ⟨hsign, hsignificand, hexponent⟩
    obtain ⟨whole, fraction, hcut, hne, rfl, rfl⟩ := cutSignificand_append hsignificand
      (hexponent.not_startsIn (by decide) (by decide))
      (hexponent.not_startsIn (by decide) (by decide))
    rw [takeSign_append hsign (hsignificand.not_startsIn _)]
    dsimp only
    rw [hcut]
    dsimp only
    rw [if_neg (by simpa using hne), ofExponent?_eq_some_iff.mpr hexponent]
    rfl

/-! ## What a text stands for -/

theorem Digits.exists_digit {cs : List Char} {n : Nat} (h : Digits cs n) :
    ∃ c ∈ cs, c.isDigit = true := by
  obtain ⟨c, more, rfl⟩ := List.exists_cons_of_ne_nil h.ne_nil
  exact ⟨c, List.mem_cons_self, h.isDigit c List.mem_cons_self⟩

theorem IntegerText.exists_digit {cs : List Char} {i : Int} (h : IntegerText cs i) :
    ∃ c ∈ cs, c.isDigit = true := by
  obtain ⟨hsign, hdigits⟩ := h
  obtain ⟨c, hc, hdigit⟩ := hdigits.exists_digit
  exact ⟨c, List.mem_append_right _ hc, hdigit⟩

/-- A text with a digit is none of the words. -/
theorem not_isWord_of_digit {cs : List Char} (h : ∃ c ∈ cs, c.isDigit = true) : ¬ IsWord cs := by
  obtain ⟨c, hc, hdigit⟩ := h
  exact word?_eq_none_iff.mp (word?_of_isDigit hc hdigit)

theorem integer?_eq_some_iff {cs : List Char} {n : Number} : integer? cs = some n ↔
    ∃ i h, n = .int i h ∧ IntegerText cs i ∧ FitsSigned i := by
  unfold integer? FitsSigned
  rw [Option.bind_eq_bind, Option.bind_eq_some_iff]
  constructor
  · rintro ⟨i, hi, h⟩
    rw [Option.ite_none_right_eq_some] at h
    obtain ⟨hfits, h⟩ := h
    unfold Number.ofInt? at h
    split at h
    · next hnumber =>
      exact ⟨i, hnumber, (Option.some.inj h).symm, decimalInt?_eq_some_iff.mp hi, hfits⟩
    · cases h
  · rintro ⟨i, hnumber, rfl, hi, hfits⟩
    refine ⟨i, decimalInt?_eq_some_iff.mpr hi, ?_⟩
    have hrange : -9223372036854775808 ≤ i ∧ i < 9223372036854775808 := hfits
    rw [if_pos hrange]
    exact dif_pos hnumber

theorem integer?_eq_none_iff {cs : List Char} : integer? cs = none ↔ ¬ IsSignedInteger cs := by
  rw [Option.eq_none_iff_forall_ne_some]
  constructor
  · rintro h ⟨i, hi, hfits⟩
    have hnumber : Number.Fits i := ⟨hfits.1, hfits.2.trans (by norm_num)⟩
    exact h _ (integer?_eq_some_iff.mpr ⟨i, hnumber, rfl, hi, hfits⟩)
  · intro h n hn
    obtain ⟨i, _, _, hi, hfits⟩ := integer?_eq_some_iff.mp hn
    exact h ⟨i, hi, hfits⟩

theorem float?_eq_some_iff {cs : List Char} {n : Number} : float? cs = some n ↔
    ∃ d x, n = .float x ∧ DecimalText cs d ∧ d.toBinary64? = some x := by
  unfold float?
  simp only [Option.bind_eq_bind, Option.bind_eq_some_iff, Option.pure_def, Option.some.injEq]
  constructor
  · rintro ⟨d, hd, x, hx, rfl⟩
    exact ⟨d, x, rfl, ofLiteral?_eq_some_iff.mp hd, hx⟩
  · rintro ⟨d, x, rfl, hd, hx⟩
    exact ⟨d, ofLiteral?_eq_some_iff.mpr hd, x, hx, rfl⟩

theorem float?_eq_none_iff {cs : List Char} :
    float? cs = none ↔ ∀ d, DecimalText cs d → d.toBinary64? = none := by
  rw [Option.eq_none_iff_forall_ne_some]
  constructor
  · intro h d hd
    rw [Option.eq_none_iff_forall_ne_some]
    intro x hx
    exact h _ (float?_eq_some_iff.mpr ⟨d, x, rfl, hd, hx⟩)
  · intro h n hn
    obtain ⟨d, x, _, hd, hx⟩ := float?_eq_some_iff.mp hn
    rw [h d hd] at hx
    exact nomatch hx

/-- **What a text is read as** is what it stands for in the grammar. -/
theorem standsFor_typed (cs : List Char) : StandsFor cs (typed cs) := by
  unfold typed
  cases hword : word? cs with
  | some v =>
    rcases word?_eq_some_iff.mp hword with ⟨rfl, h⟩ | ⟨rfl, h⟩ | ⟨rfl, h⟩
    · exact .yes h
    · exact .no h
    · exact .null h
  | none =>
    have hnone := word?_eq_none_iff.mp hword
    cases hinteger : integer? cs with
    | some n =>
      obtain ⟨i, hnumber, rfl, hi, hfits⟩ := integer?_eq_some_iff.mp hinteger
      exact .integer hi hfits hnumber
    | none =>
      have hsigned := integer?_eq_none_iff.mp hinteger
      cases hfloat : float? cs with
      | some n =>
        obtain ⟨d, x, rfl, hd, hx⟩ := float?_eq_some_iff.mp hfloat
        exact .float hnone hsigned hd hx
      | none => exact .text hnone hsigned (float?_eq_none_iff.mp hfloat)

/-- A text stands for one value. -/
theorem StandsFor.typed_eq {cs : List Char} {v : Value} (h : StandsFor cs v) : typed cs = v := by
  unfold typed
  cases h with
  | yes h => rw [word?_eq_some_iff.mpr (.inl ⟨rfl, h⟩)]
  | no h => rw [word?_eq_some_iff.mpr (.inr (.inl ⟨rfl, h⟩))]
  | null h => rw [word?_eq_some_iff.mpr (.inr (.inr ⟨rfl, h⟩))]
  | integer h hfits hnumber =>
    rw [word?_eq_none_iff.mpr (not_isWord_of_digit h.exists_digit),
      integer?_eq_some_iff.mpr ⟨_, hnumber, rfl, h, hfits⟩]
    rfl
  | float hword hinteger h hx =>
    rw [word?_eq_none_iff.mpr hword, integer?_eq_none_iff.mpr hinteger,
      float?_eq_some_iff.mpr ⟨_, _, rfl, h, hx⟩]
    rfl
  | text hword hinteger hfloat =>
    rw [word?_eq_none_iff.mpr hword, integer?_eq_none_iff.mpr hinteger,
      float?_eq_none_iff.mpr hfloat]
    rfl

theorem typed_eq_iff {cs : List Char} {v : Value} : typed cs = v ↔ StandsFor cs v :=
  ⟨fun h => h ▸ standsFor_typed cs, StandsFor.typed_eq⟩

/-- **A text without quotes** is a truth value or null exactly if it is one of the three
    words, in any case; it is an integer exactly if it is written as one that fits 64 bits
    with a sign, and then it is that integer; it is a floating-point number exactly if it is
    neither, it is written as a decimal number, and there is a finite number nearest to that;
    and it is a text, which is itself, exactly if it is none of these. -/
theorem typed_by_grammar (cs : List Char) :
    (typed cs = .bool true ↔ IsSpelling "true" cs) ∧
    (typed cs = .bool false ↔ IsSpelling "false" cs) ∧
    (typed cs = .null ↔ IsSpelling "null" cs) ∧
    (∀ i hnumber, typed cs = .number (.int i hnumber) ↔ IntegerText cs i ∧ FitsSigned i) ∧
    (∀ x, typed cs = .number (.float x) ↔
      ¬ IsWord cs ∧ ¬ IsSignedInteger cs ∧ ∃ d, DecimalText cs d ∧ d.toBinary64? = some x) ∧
    (∀ s, typed cs = .string s ↔ s = String.ofList cs ∧
      ¬ IsWord cs ∧ ¬ IsSignedInteger cs ∧ ∀ d, DecimalText cs d → d.toBinary64? = none) := by
  simp only [typed_eq_iff]
  refine ⟨?_, ?_, ?_, fun i hnumber => ?_, fun x => ?_, fun s => ?_⟩
  · constructor
    · intro h
      cases h with
      | yes h => exact h
    · exact .yes
  · constructor
    · intro h
      cases h with
      | no h => exact h
    · exact .no
  · constructor
    · intro h
      cases h with
      | null h => exact h
    · exact .null
  · constructor
    · intro h
      cases h with
      | integer h hfits => exact ⟨h, hfits⟩
    · rintro ⟨h, hfits⟩
      exact .integer h hfits hnumber
  · constructor
    · intro h
      cases h with
      | float hword hinteger h hx => exact ⟨hword, hinteger, _, h, hx⟩
    · rintro ⟨hword, hinteger, _, h, hx⟩
      exact .float hword hinteger h hx
  · constructor
    · intro h
      cases h with
      | text hword hinteger hfloat => exact ⟨rfl, hword, hinteger, hfloat⟩
    · rintro ⟨rfl, hword, hinteger, hfloat⟩
      exact .text hword hinteger hfloat

/-- Zeros in front of the largest integer that fits do not count; the next integer is a
    floating-point number. -/
example : typed "+0009223372036854775807".toList =
      .number (.int 9223372036854775807 (by decide)) ∧
    typed "9223372036854775808".toList =
      .number (.float ⟨false, 1086 * Binary64.hiddenBit, by decide⟩) := by
  decide +kernel

end LayeredConfig.Scalar
