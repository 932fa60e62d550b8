import LayeredConfig.Proofs.Formula
import LayeredConfig.Proofs.LineReading
import LayeredConfig.Proofs.QuotePairs

/-! # Scalars that are written on a line and read back

    A scalar is written bare, where it is read back by its type alone, or between quotes.
    In quotes a text is taken as it is, but in double quotes its references are expanded,
    so a text with a dollar sign in it goes between single quotes; then it must not hold
    a single quote itself.

    What stands behind the text of a scalar in the same assignment becomes part of its
    text. With a line feed between them the two are read as a text with a line feed,
    whatever they are.

    **Main results.** `written_scalarText`: how a scalar is written; `Written.value_eq`: it
    is read back; `Written.value_of_more`: with more lines behind it, it is not.
-/

namespace LayeredConfig

/-! ## Texts without references -/

namespace Reference

theorem shellToken?_of_ne {c : Char} (h : c ≠ '$') (rest : List Char) :
    shellToken? (c :: rest) = none := by
  unfold shellToken?
  split
  · next heq => exact absurd (List.cons.inj heq).1 h
  · next heq => exact absurd (List.cons.inj heq).1 h
  · rfl

/-- What stands in front of the first dollar sign is verbatim. -/
theorem shellPieces_append {front : List Char} (h : '$' ∉ front) (rest : List Char) :
    shellPieces (front ++ rest) = front.map .verbatim ++ shellPieces rest := by
  unfold shellPieces
  induction front with
  | nil => rfl
  | cons c more ih =>
    have hc : c ≠ '$' := fun heq => h (heq ▸ List.mem_cons_self)
    rw [List.cons_append, piecesFrom, shellToken?_of_ne hc]
    dsimp only
    rw [ih fun hmem => h (List.mem_cons_of_mem c hmem)]
    rfl

/-- What stands in front of the first dollar sign is kept. -/
theorem text_expandShell_append {front : List Char} (h : '$' ∉ front) (store : Store)
    (lower : Bool) (rest : List Char) :
    (expandShell store lower (front ++ rest)).text =
      front ++ (expandShell store lower rest).text := by
  unfold expandShell
  rw [expand_eq, expand_eq]
  dsimp only
  rw [shellPieces_append h, List.flatMap_append, List.flatMap_map]
  congr 1
  exact List.flatMap_singleton' front

theorem text_expandShell_of_not_mem {cs : List Char} (h : '$' ∉ cs) (store : Store)
    (lower : Bool) : (expandShell store lower cs).text = cs := by
  have htext := text_expandShell_append h store lower []
  rw [List.append_nil] at htext
  rw [htext]
  exact List.append_nil cs

end Reference

/-! ## Typing -/

namespace Scalar

theorem typed_of_isString {cs : List Char} (h : (typed cs).isString = true) :
    typed cs = .string (String.ofList cs) := by
  unfold typed at h ⊢
  cases hword : word? cs with
  | some v =>
    -- None of the three words is a text.
    rw [hword] at h
    unfold word? at hword
    split at hword
    · rw [← Option.some.inj hword] at h
      exact nomatch h
    · rw [← Option.some.inj hword] at h
      exact nomatch h
    · rw [← Option.some.inj hword] at h
      exact nomatch h
    · exact nomatch hword
  | none =>
    rw [hword] at h
    dsimp only at h ⊢
    cases hn : (integer? cs).or (float? cs) with
    | some n =>
      rw [hn] at h
      exact nomatch h
    | none => rfl

/-- The characters of the three words. -/
def wordChars : List Char := ['t', 'r', 'u', 'e', 'f', 'a', 'l', 's', 'n']

theorem word?_eq_none {cs : List Char} {c : Char} (hc : c ∈ cs) (h : c.toLower ∉ wordChars) :
    word? cs = none := by
  have hmem : c.toLower ∈ cs.map Char.toLower := List.mem_map_of_mem hc
  have hword : ∀ word : String, word.toList.all wordChars.contains = true →
      String.ofList (cs.map Char.toLower) ≠ word := by
    intro word hchars heq
    subst heq
    rw [String.toList_ofList, List.all_eq_true] at hchars
    exact h (List.contains_iff_mem.mp (hchars _ hmem))
  unfold word?
  split
  · next heq => exact absurd heq (hword "true" (by decide))
  · next heq => exact absurd heq (hword "false" (by decide))
  · next heq => exact absurd heq (hword "null" (by decide))
  · rfl

theorem takeSign_cases (cs : List Char) :
    (∃ sign, (sign = '-' ∨ sign = '+') ∧ cs = sign :: (Decimal.takeSign cs).2) ∨
      Decimal.takeSign cs = (false, cs) := by
  unfold Decimal.takeSign
  split
  · exact .inl ⟨'-', .inl rfl, rfl⟩
  · exact .inl ⟨'+', .inr rfl, rfl⟩
  · exact .inr rfl

/-- A line feed is neither a sign nor a digit, so it stays when a sign is taken off. -/
theorem newline_mem_takeSign {cs : List Char} (h : '\n' ∈ cs) : '\n' ∈ (Decimal.takeSign cs).2 := by
  rcases takeSign_cases cs with ⟨sign, hsign, hcs⟩ | hnone
  · rw [hcs, List.mem_cons] at h
    rcases h with rfl | h
    · exact absurd hsign (by decide)
    · exact h
  · rwa [hnone]

theorem not_all_isDigit {cs : List Char} (h : '\n' ∈ cs) : cs.all Char.isDigit = false := by
  rw [List.all_eq_false]
  exact ⟨'\n', h, by decide⟩

/-- Digits in front of a line feed leave it behind them. -/
theorem newline_mem_dropWhile {cs : List Char} (h : '\n' ∈ cs) :
    '\n' ∈ cs.dropWhile Char.isDigit := by
  rw [← List.takeWhile_append_dropWhile (p := Char.isDigit) (l := cs), List.mem_append] at h
  rcases h with h | h
  · exact absurd (List.mem_takeWhile_imp h) (by decide)
  · exact h

theorem ofExponent?_of_newline {cs : List Char} (h : '\n' ∈ cs) :
    Decimal.ofExponent? cs = none := by
  unfold Decimal.ofExponent?
  split
  · cases h
  · next e rest =>
    split
    · next he =>
      have hrest : '\n' ∈ rest := by
        rw [List.mem_cons] at h
        rcases h with rfl | h
        · exact absurd he (by decide)
        · exact h
      dsimp only
      rw [not_all_isDigit (newline_mem_takeSign hrest)]
      simp
    · rfl

theorem ofLiteral?_of_newline {cs : List Char} (h : '\n' ∈ cs) : Decimal.ofLiteral? cs = none := by
  have htail := newline_mem_dropWhile (newline_mem_takeSign h)
  unfold Decimal.ofLiteral?
  dsimp only
  split
  · next rest hpoint =>
    -- The point is not the line feed either.
    rw [hpoint, List.mem_cons] at htail
    have hrest := htail.resolve_left (by decide)
    dsimp only
    rw [ofExponent?_of_newline (newline_mem_dropWhile hrest)]
    simp
  · dsimp only
    rw [ofExponent?_of_newline htail]
    simp

/-- A text with a line feed in it looks like nothing but a text. -/
theorem typed_of_newline {cs : List Char} (h : '\n' ∈ cs) :
    typed cs = .string (String.ofList cs) := by
  have hinteger : integer? cs = none := by
    unfold integer? decimalInt?
    dsimp only
    rw [not_all_isDigit (newline_mem_takeSign h)]
    simp
  have hfloat : float? cs = none := by
    unfold float?
    rw [ofLiteral?_of_newline h]
    rfl
  unfold typed
  rw [word?_eq_none h (by decide), hinteger, hfloat]
  rfl

/-! ## Integers -/

theorem isDigit_natText {n : Nat} : ∀ c ∈ Decimal.natText n, c.isDigit = true := by
  intro c hc
  exact Nat.isDigit_of_mem_toDigits (by decide) (by decide) hc

theorem natOfDigits_natText (n : Nat) : Decimal.natOfDigits (Decimal.natText n) = n := by
  have hsame : ∀ (cs : List Char) (start : Nat),
      cs.foldl (fun n c => n * 10 + Decimal.digitValue c) start = Nat.ofDigitChars 10 cs start := by
    intro cs
    induction cs with
    | nil => intro start; rfl
    | cons c rest ih =>
      intro start
      rw [List.foldl_cons, ih, Nat.ofDigitChars_cons, Nat.mul_comm]
      rfl
  unfold Decimal.natOfDigits Decimal.natText
  rw [hsame, Nat.ofDigitChars_ten_toDigits]

theorem isAscii_of_isDigit {c : Char} (h : c.isDigit = true) : Text.isAscii c = true := by
  apply isAscii_of_isWordChar
  unfold isWordChar Char.isAlphanum
  rw [h, Bool.or_true, Bool.true_or]

/-- **Integers** are read back from their digits. -/
theorem decimalInt?_intText (i : Int) : decimalInt? (Number.intText i) = some i := by
  have hdigits : ∀ n, (Decimal.natText n).all Char.isDigit = true := by
    intro n
    rw [List.all_eq_true]
    exact isDigit_natText
  have hnonempty : ∀ n, (Decimal.natText n).isEmpty = false := by
    intro n
    rw [List.isEmpty_eq_false_iff]
    exact Nat.toDigits_ne_nil
  unfold decimalInt? Number.intText
  by_cases hneg : i < 0
  · have hsign : Decimal.takeSign ('-' :: Decimal.natText i.natAbs) =
        (true, Decimal.natText i.natAbs) := rfl
    rw [if_pos hneg, hsign]
    dsimp only
    rw [hdigits, hnonempty, natOfDigits_natText, if_neg (by decide), if_pos rfl]
    congr 1
    omega
  · rw [if_neg hneg]
    have hsign : Decimal.takeSign (Decimal.natText i.natAbs) =
        (false, Decimal.natText i.natAbs) := by
      rcases takeSign_cases (Decimal.natText i.natAbs) with ⟨sign, hsign, hcs⟩ | hnone
      · have hdigit := isDigit_natText sign (hcs ▸ List.mem_cons_self)
        rcases hsign with rfl | rfl
        · exact absurd hdigit (by decide)
        · exact absurd hdigit (by decide)
      · exact hnone
    rw [hsign]
    dsimp only
    rw [hdigits, hnonempty, natOfDigits_natText, if_neg (by decide), if_neg (by decide)]
    congr 1
    omega

/-- None of the three words has a digit in it. -/
theorem word?_of_isDigit {cs : List Char} {c : Char} (hc : c ∈ cs) (hdigit : c.isDigit = true) :
    word? cs = none := by
  apply word?_eq_none hc
  have hascii := isAscii_of_isDigit hdigit
  revert hdigit
  exact Text.forall_ascii (P := fun c => c.isDigit = true → c.toLower ∉ wordChars)
    (by decide +kernel) hascii

theorem word?_intText (i : Int) : word? (Number.intText i) = none := by
  obtain ⟨c, rest, hdigits⟩ := List.exists_cons_of_ne_nil
    (show Decimal.natText i.natAbs ≠ [] from Nat.toDigits_ne_nil)
  have hdigit := isDigit_natText c (hdigits ▸ List.mem_cons_self)
  have hmem : c ∈ Number.intText i := by
    unfold Number.intText
    rw [hdigits]
    split
    · simp
    · simp
  exact word?_of_isDigit hmem hdigit

theorem typed_intText {i : Int} (hfits : Number.Fits i)
    (hi : -9223372036854775808 ≤ i ∧ i < 9223372036854775808) :
    typed (Number.intText i) = .number (.int i hfits) := by
  have hinteger : integer? (Number.intText i) = some (.int i hfits) := by
    unfold integer? Number.ofInt?
    rw [decimalInt?_intText]
    simp only [Option.bind_eq_bind, Option.bind_some]
    rw [if_pos hi, dif_pos hfits]
  unfold typed
  rw [word?_intText, hinteger]
  rfl

end Scalar

/-! ## How scalars are written -/

namespace Edit.Conf

open LayeredConfig.Conf

/-- A scalar that a line can hold: a truth value, an integer that fits 64 bits with its
    sign, or a text of one line that can be quoted. -/
def IsLineScalar : Value → Prop
  | .bool _ => True
  | .number (.int i _) => -9223372036854775808 ≤ i ∧ i < 9223372036854775808
  | .string s => '\n' ∉ s.toList ∧ ¬ ('\'' ∈ s.toList ∧ '$' ∈ s.toList)
  | _ => False

instance : (v : Value) → Decidable (IsLineScalar v)
  | .bool _ => inferInstanceAs (Decidable True)
  | .number (.int i _) =>
    inferInstanceAs (Decidable (-9223372036854775808 ≤ i ∧ i < 9223372036854775808))
  | .string s =>
    inferInstanceAs (Decidable ('\n' ∉ s.toList ∧ ¬ ('\'' ∈ s.toList ∧ '$' ∈ s.toList)))
  | .null | .number (.float _) | .array _ | .object _ => inferInstanceAs (Decidable False)

/-- The three ways in which a value is written on a line. -/
inductive Written : Value → List Char → Prop where
  /-- Bare, where it is known by its type. -/
  | bare (text : List Char) (hne : text ≠ []) (hbare : ∀ c ∈ text, isBareChar c = true) :
      Written (Scalar.typed text) text
  /-- Between single quotes. -/
  | single (s : String) : Written (.string s) ('\'' :: s.toList ++ ['\''])
  /-- Between double quotes, where it refers to nothing. -/
  | double (s : String) (h : '$' ∉ s.toList) : Written (.string s) ('"' :: s.toList ++ ['"'])

theorem isAscii_of_isBareChar {c : Char} (h : isBareChar c = true) : Text.isAscii c = true := by
  unfold isBareChar at h
  rw [Bool.or_eq_true] at h
  rcases h with h | h
  · apply isAscii_of_isWordChar
    unfold isWordChar
    rw [h, Bool.true_or]
  · have hall : ∀ d ∈ ['_', '-', '.', '/', ':', '@', '+', ','], Text.isAscii d = true :=
      List.all_eq_true.mp (by decide)
    exact hall c (List.contains_iff_mem.mp h)

/-- A bare character is not blank, and it means nothing in a value. -/
theorem isBareChar_apart {c : Char} (h : isBareChar c = true) :
    Text.isBlank c = false ∧ c ≠ '\'' ∧ c ≠ '"' ∧ c ≠ '$' ∧ c ≠ '\n' := by
  have hascii := isAscii_of_isBareChar h
  revert h
  exact Text.forall_ascii (P := fun c => isBareChar c = true →
    Text.isBlank c = false ∧ c ≠ '\'' ∧ c ≠ '"' ∧ c ≠ '$' ∧ c ≠ '\n') (by decide +kernel) hascii

theorem isBareChar_of_isDigit {c : Char} (h : c.isDigit = true) : isBareChar c = true := by
  unfold isBareChar Char.isAlphanum
  rw [h, Bool.or_true, Bool.true_or]

theorem bare_intText (i : Int) :
    Number.intText i ≠ [] ∧ ∀ c ∈ Number.intText i, isBareChar c = true := by
  have hdigits : ∀ c ∈ Decimal.natText i.natAbs, isBareChar c = true :=
    fun c hc => isBareChar_of_isDigit (Scalar.isDigit_natText c hc)
  unfold Number.intText
  split
  · exact ⟨by simp, List.forall_mem_cons.mpr ⟨by decide, hdigits⟩⟩
  · exact ⟨Nat.toDigits_ne_nil, hdigits⟩

/-- An integer is written bare, whether or not its digits are read as one. -/
theorem written_intText (i : Int) :
    Written (Scalar.typed (Number.intText i)) (Number.intText i) :=
  .bare _ (bare_intText i).1 (bare_intText i).2

/-- **How a scalar is written.** -/
theorem written_scalarText {v : Value} (hv : IsLineScalar v) : Written v (scalarText v) := by
  cases v with
  | null => exact hv.elim
  | array items => exact hv.elim
  | object fields => exact hv.elim
  | bool b =>
    cases b with
    | true => exact .bare ['t', 'r', 'u', 'e'] (by decide) (List.all_eq_true.mp (by decide))
    | false => exact .bare ['f', 'a', 'l', 's', 'e'] (by decide) (List.all_eq_true.mp (by decide))
  | number n =>
    cases n with
    | float x => exact hv.elim
    | int i hfits =>
      have hwritten := written_intText i
      rw [Scalar.typed_intText hfits hv] at hwritten
      exact hwritten
  | string s =>
    obtain ⟨_, hboth⟩ := hv
    unfold scalarText quoted
    dsimp only
    split
    · next hbare =>
      unfold isBare at hbare
      simp only [Bool.and_eq_true, Bool.not_eq_true', List.isEmpty_eq_false_iff,
        List.all_eq_true] at hbare
      obtain ⟨⟨hne, hall⟩, hstring⟩ := hbare
      have hwritten := Written.bare s.toList hne hall
      rw [Scalar.typed_of_isString hstring, String.ofList_toList] at hwritten
      exact hwritten
    · split
      · exact .single s
      · next hdouble =>
        apply Written.double
        intro hdollar
        simp only [Bool.and_eq_true, Bool.or_eq_true, List.contains_iff_mem, Bool.not_eq_true',
          not_and, Bool.not_eq_false] at hdouble
        have hquote := hdouble (.inl hdollar)
        exact hboth ⟨List.contains_iff_mem.mp (by simpa using hquote), hdollar⟩

/-! ## Reading back -/

namespace Written

variable {v : Value} {text : List Char} (h : Written v text)
include h

/-- What is written neither begins nor ends with a blank. -/
theorem exists_ends : (∃ c rest, text = c :: rest ∧ Text.isBlank c = false) ∧
    ∃ front c, text = front ++ [c] ∧ Text.isBlank c = false := by
  cases h with
  | bare text hne hbare =>
    constructor
    · obtain ⟨c, rest, rfl⟩ := List.exists_cons_of_ne_nil hne
      exact ⟨c, rest, rfl, (isBareChar_apart (hbare c List.mem_cons_self)).1⟩
    · refine ⟨text.dropLast, text.getLast hne, (List.dropLast_concat_getLast hne).symm, ?_⟩
      exact (isBareChar_apart (hbare _ (List.getLast_mem hne))).1
  | single s => exact ⟨⟨'\'', _, rfl, by decide⟩, '\'' :: s.toList, '\'', rfl, by decide⟩
  | double s hdollar => exact ⟨⟨'"', _, rfl, by decide⟩, '"' :: s.toList, '"', rfl, by decide⟩

theorem ne_nil : text ≠ [] := by
  obtain ⟨⟨c, rest, rfl, _⟩, _⟩ := h.exists_ends
  simp

theorem trim_eq : Text.trim text = text := by
  obtain ⟨⟨c, rest, hfirst, hc⟩, front, d, hlast, hd⟩ := h.exists_ends
  apply Text.trim_eq_self
  · rw [hfirst]
    intro e he
    rwa [← Option.some.inj he]
  · rw [hlast]
    intro e he
    rw [List.getLast?_concat] at he
    rwa [← Option.some.inj he]

/-- **What is written is read back**, whatever the store is. -/
theorem value_eq {a : Assignment}
    (ha : Scalar.unquote Options.standard.quotes (Text.trim text) = (a.text, a.quote))
    (store : Store) : (a.formula .standard).value store = v := by
  rw [h.trim_eq] at ha
  show a.valueOf .standard (a.expansion .standard store).text = v
  cases h with
  | bare text hne hbare =>
    have hnone : Scalar.unquote Options.standard.quotes text = (text, none) := by
      apply Scalar.unquote_of_head
      intro c hc
      obtain ⟨_, hsingle, hdouble, _⟩ := isBareChar_apart (hbare c (List.mem_of_mem_head? hc))
      exact ⟨hsingle, hdouble⟩
    obtain ⟨htext, hquote⟩ := Prod.mk.inj (hnone.symm.trans ha)
    have hdollar : '$' ∉ text := fun hmem => (isBareChar_apart (hbare '$' hmem)).2.2.2.1 rfl
    have hexpansion : (a.expansion .standard store).text = text := by
      unfold Assignment.expansion
      rw [← hquote, ← htext, if_neg (by decide)]
      exact Reference.text_expandShell_of_not_mem hdollar store _
    unfold Assignment.valueOf
    rw [hexpansion, ← hquote]
    exact if_pos rfl
  | single s =>
    obtain ⟨htext, hquote⟩ := Prod.mk.inj ((Scalar.unquote_single s.toList).symm.trans ha)
    have hexpansion : (a.expansion .standard store).text = s.toList := by
      unfold Assignment.expansion
      rw [← hquote, ← htext]
      rfl
    unfold Assignment.valueOf
    rw [hexpansion, ← hquote, if_neg (by decide), String.ofList_toList]
  | double s hdollar =>
    obtain ⟨htext, hquote⟩ := Prod.mk.inj ((Scalar.unquote_double s.toList).symm.trans ha)
    have hexpansion : (a.expansion .standard store).text = s.toList := by
      unfold Assignment.expansion
      rw [← hquote, ← htext, if_neg (by decide)]
      exact Reference.text_expandShell_of_not_mem hdollar store _
    unfold Assignment.valueOf
    rw [hexpansion, ← hquote, if_neg (by decide), String.ofList_toList]

/-- The first line feed stays in front of all references when quotes are taken off. -/
theorem unquote_of_more (hdollar : '$' ∉ text) (rest : List Char) {inner : List Char}
    {quote : Option Char}
    (hunquote : Scalar.unquote Options.standard.quotes (text ++ '\n' :: rest) = (inner, quote)) :
    ∃ front after, inner = front ++ '\n' :: after ∧ '$' ∉ front := by
  rcases Scalar.unquote_cases (text ++ '\n' :: rest) with hnone | ⟨q, body, hq, htext, hsome⟩
  · obtain ⟨rfl, _⟩ := Prod.mk.inj (hnone.symm.trans hunquote)
    exact ⟨text, rest, rfl, hdollar⟩
  · obtain ⟨rfl, _⟩ := Prod.mk.inj (hsome.symm.trans hunquote)
    obtain ⟨c, more, rfl⟩ := List.exists_cons_of_ne_nil h.ne_nil
    have hbody : more ++ '\n' :: rest = body ++ [q] := (List.cons.inj htext).2
    -- The closing quote stands behind the line feed, since it is not the line feed itself.
    rcases List.eq_nil_or_concat rest with rfl | ⟨after, d, rfl⟩
    · obtain ⟨_, hlast⟩ := List.append_inj' hbody rfl
      rw [List.cons.injEq] at hlast
      rcases hq with rfl | rfl
      · exact absurd hlast.1 (by decide)
      · exact absurd hlast.1 (by decide)
    · have hends : more ++ '\n' :: after ++ [d] = body ++ [q] := by simpa using hbody
      exact ⟨more, after, (List.append_inj' hends rfl).1.symm,
        fun hmem => hdollar (List.mem_cons_of_mem c hmem)⟩

/-- **With more lines behind it** that are not blank, what is written is read as a text
    with a line feed. -/
theorem value_of_more (hdollar : '$' ∉ text) {rest : List Char}
    (hrest : ∃ c ∈ rest, Text.isBlank c = false) {a : Assignment}
    (ha : Scalar.unquote Options.standard.quotes (Text.trim (text ++ '\n' :: rest)) =
      (a.text, a.quote)) (store : Store) :
    ∃ s : String, (a.formula .standard).value store = .string s ∧ '\n' ∈ s.toList := by
  obtain ⟨⟨c, more, hfirst, hc⟩, _⟩ := h.exists_ends
  obtain ⟨d, hd, hblank⟩ := hrest
  obtain ⟨before, after, rfl⟩ := List.append_of_mem hd
  have htrim : Text.trim (text ++ '\n' :: (before ++ d :: after)) =
      text ++ '\n' :: (before ++ d :: Text.trimEnd after) := by
    have hend := Text.trimEnd_append_cons hblank (text ++ '\n' :: before) after
    simp only [List.append_assoc, List.cons_append] at hend
    unfold Text.trim
    rw [hfirst, List.cons_append, Text.trimStart_cons_of_not_blank hc, ← List.cons_append, ← hfirst,
      hend]
  rw [htrim] at ha
  obtain ⟨front, behind, htext, hfront⟩ := h.unquote_of_more hdollar _ ha
  show ∃ s : String, a.valueOf .standard (a.expansion .standard store).text = .string s ∧ _
  have hnewline : '\n' ∈ (a.expansion .standard store).text := by
    unfold Assignment.expansion
    split
    · rw [htext]
      simp
    · rw [htext, Reference.text_expandShell_append hfront]
      have hnone : '$' ∉ ['\n'] := by decide
      have hline := Reference.text_expandShell_append hnone store Options.standard.lower behind
      rw [List.singleton_append] at hline
      rw [hline]
      simp
  unfold Assignment.valueOf
  split
  · exact ⟨_, Scalar.typed_of_newline hnewline, by rwa [String.toList_ofList]⟩
  · exact ⟨_, rfl, by rwa [String.toList_ofList]⟩

end Written

/-- No line feed is written for a scalar that a line can hold. -/
theorem newline_not_mem_scalarText {v : Value} (hv : IsLineScalar v) : '\n' ∉ scalarText v := by
  have hwritten := written_scalarText hv
  generalize htext : scalarText v = text at hwritten
  cases hwritten with
  | bare text hne hbare =>
    intro hmem
    exact (isBareChar_apart (hbare '\n' hmem)).2.2.2.2 rfl
  | single s => simp [hv.1]
  | double s hdollar => simp [hv.1]

/-- No dollar sign is written for a text that has none. -/
theorem dollar_not_mem_scalarText {v : Value} (hv : IsLineScalar v)
    (hdollar : ∀ s, v = .string s → '$' ∉ s.toList) : '$' ∉ scalarText v := by
  have hwritten := written_scalarText hv
  generalize htext : scalarText v = text at hwritten
  cases hwritten with
  | bare text hne hbare =>
    intro hmem
    exact (isBareChar_apart (hbare '$' hmem)).2.2.2.1 rfl
  | single s => simp [hdollar s rfl]
  | double s hnone => simp [hnone]

end Edit.Conf

end LayeredConfig
