import LayeredConfig.Options
import LayeredConfig.Scalar.Quotes

/-! # Quotes that are taken off

    A pair quotes a text that begins with its opening character and ends with its closing one,
    at two places. The quotes that are taken off a text are those of the first pair that quotes
    it, and what is left is what stands between them. If no pair quotes the text, it is left as
    it is.

    Texts are stored as bytes, and quotes can be taken off by counting the bytes of the two
    quote characters, whatever their widths are. A cut within a character, or beyond the end of
    the text, would leave no text. It is enough to look first whether the text has as many bytes
    as the two characters together: then every cut is between two characters.

    **Main result.** `unquote_first_pair`.
-/

namespace LayeredConfig

namespace Text

/-! ## Cutting by bytes -/

/-- A text without some bytes at its beginning and some at its end. There is none if the text
    has not so many bytes, or if they end or begin within a character. -/
def strip? (front back : Nat) (s : String) : Option String :=
  if h : front + back ≤ s.utf8ByteSize ∧ (⟨front⟩ : String.Pos.Raw).IsValid s ∧
      (⟨s.utf8ByteSize - back⟩ : String.Pos.Raw).IsValid s then
    some (String.extract (s.pos ⟨front⟩ h.2.1) (s.pos ⟨s.utf8ByteSize - back⟩ h.2.2))
  else none

theorem splits_pos_iff {s front back : String} {n : Nat}
    (h : (⟨n⟩ : String.Pos.Raw).IsValid s) :
    (s.pos ⟨n⟩ h).Splits front back ↔ s = front ++ back ∧ front.utf8ByteSize = n := by
  constructor
  · intro hsplits
    have hoffset := hsplits.offset_eq_rawEndPos
    rw [String.offset_pos, String.Pos.Raw.ext_iff] at hoffset
    exact ⟨hsplits.eq_append, hoffset.symm⟩
  · rintro ⟨hwhole, rfl⟩
    exact ⟨hwhole, String.offset_pos ..⟩

/-- What is left of a text stands between texts of as many bytes. -/
theorem strip?_eq_some_iff {front back : Nat} {s inner : String} :
    strip? front back s = some inner ↔
      ∃ before after, s = before ++ inner ++ after ∧ before.utf8ByteSize = front ∧
        after.utf8ByteSize = back := by
  unfold strip?
  constructor
  · intro h
    split at h
    · next hplaces =>
      obtain ⟨hroom, hfront, hback⟩ := hplaces
      have horder : s.pos ⟨front⟩ hfront ≤ s.pos ⟨s.utf8ByteSize - back⟩ hback := by
        rw [String.Pos.le_iff, String.offset_pos, String.offset_pos, String.Pos.Raw.le_iff]
        dsimp only
        omega
      rw [String.extract_eq_copy_slice _ _ horder] at h
      obtain ⟨before, after, hbegins, hends⟩ :=
        String.copy_slice_eq_iff_splits.mp ⟨horder, Option.some.inj h⟩
      obtain ⟨_, hfirst⟩ := (splits_pos_iff hfront).mp hbegins
      obtain ⟨hwhole, hlast⟩ := (splits_pos_iff hback).mp hends
      have hsize : s.utf8ByteSize = (before ++ inner).utf8ByteSize + after.utf8ByteSize := by
        rw [← String.utf8ByteSize_append, ← hwhole]
      exact ⟨before, after, hwhole, hfirst, by omega⟩
    · cases h
  · rintro ⟨before, after, hwhole, rfl, rfl⟩
    have hwhole' : s = before ++ (inner ++ after) := hwhole.trans (String.append_assoc ..)
    have hroom : before.utf8ByteSize + after.utf8ByteSize ≤ s.utf8ByteSize := by
      simp only [hwhole, String.utf8ByteSize_append]
      omega
    have hend : (before ++ inner).utf8ByteSize = s.utf8ByteSize - after.utf8ByteSize := by
      simp only [hwhole, String.utf8ByteSize_append]
      omega
    have hfront : (⟨before.utf8ByteSize⟩ : String.Pos.Raw).IsValid s :=
      String.Pos.Raw.isValid_iff_exists_append.mpr ⟨_, _, hwhole', rfl⟩
    have hback : (⟨s.utf8ByteSize - after.utf8ByteSize⟩ : String.Pos.Raw).IsValid s :=
      String.Pos.Raw.isValid_iff_exists_append.mpr ⟨_, _, hwhole, congrArg _ hend.symm⟩
    obtain ⟨horder, hinner⟩ := String.copy_slice_eq_iff_splits.mpr ⟨before, after,
      (splits_pos_iff hfront).mpr ⟨hwhole', rfl⟩, (splits_pos_iff hback).mpr ⟨hwhole, hend⟩⟩
    rw [dif_pos ⟨hroom, hfront, hback⟩, String.extract_eq_copy_slice _ _ horder, hinner]

end Text

namespace Scalar

/-! ## What stands between two quotes -/

theorem between?_eq_some_iff {opening closing : Char} {cs inner : List Char} :
    between? opening closing cs = some inner ↔ cs = opening :: (inner ++ [closing]) := by
  cases cs with
  | nil => simp [between?]
  | cons first rest =>
    unfold between?
    cases hrest : rest.reverse with
    | nil =>
      have hnil : rest = [] := by simpa using hrest
      simp [hnil]
    | cons last before =>
      have hsplit : rest = before.reverse ++ [last] := by
        rw [← List.reverse_reverse rest, hrest, List.reverse_cons]
      dsimp only
      rw [hrest, hsplit, List.cons.injEq, List.append_singleton_inj]
      dsimp only
      split
      · next hends =>
        rw [Option.some.injEq]
        constructor
        · exact fun heq => ⟨hends.1, heq, hends.2⟩
        · exact fun hboth => hboth.2.1
      · next hends =>
        constructor
        · intro heq
          cases heq
        · exact fun hboth => absurd ⟨hboth.1, hboth.2.2⟩ hends

theorem between?_eq_none_iff {opening closing : Char} {cs : List Char} :
    between? opening closing cs = none ↔ ¬ ∃ inner, cs = opening :: (inner ++ [closing]) := by
  rw [Option.eq_none_iff_forall_ne_some, not_exists]
  exact forall_congr' fun _ => not_congr between?_eq_some_iff

theorem exists_between_iff {opening closing : Char} {cs : List Char} :
    (∃ inner, cs = opening :: (inner ++ [closing])) ↔
      cs.head? = some opening ∧ cs.getLast? = some closing ∧ 2 ≤ cs.length := by
  constructor
  · rintro ⟨inner, rfl⟩
    refine ⟨rfl, ?_, by simp⟩
    rw [← List.cons_append, List.getLast?_concat]
  · rintro ⟨hfirst, hlast, hlength⟩
    obtain ⟨rest, rfl⟩ := List.head?_eq_some_iff.mp hfirst
    have hrest : rest ≠ [] := by
      rintro rfl
      exact absurd hlength (by simp)
    rw [List.getLast?_cons_of_ne_nil hrest, List.getLast?_eq_some_iff] at hlast
    obtain ⟨inner, rfl⟩ := hlast
    exact ⟨inner, rfl⟩

/-! ## Pairs -/

/-- Whether a pair quotes a text with its opening and its closing character, which are the same
    if the pair has one character only. -/
structure Quotes (pair : String) (opening closing : Char) (value : String) : Prop where
  opens : pair.toList.head? = some opening
  closes : pair.toList[1]?.getD opening = closing
  starts : value.toList.head? = some opening
  ends : value.toList.getLast? = some closing
  /-- The two characters are at different places of the text. -/
  apart : 2 ≤ value.toList.length

/-- Whether a pair quotes a text. -/
def IsQuotedBy (value pair : String) : Prop :=
  ∃ opening closing, Quotes pair opening closing value

theorem quotePair?_eq_some_iff {cs : List Char} {opening closing : Char} :
    quotePair? cs = some (opening, closing) ↔
      cs.head? = some opening ∧ cs[1]?.getD opening = closing := by
  match cs with
  | [] => simp [quotePair?]
  | [both] =>
    simp only [quotePair?, Option.some.injEq, Prod.mk.injEq, List.head?_cons]
    exact and_congr_right fun hboth => hboth ▸ Iff.rfl
  | first :: second :: _ => simp [quotePair?]

theorem quotes_iff {pair value : String} {opening closing : Char} :
    Quotes pair opening closing value ↔ quotePair? pair.toList = some (opening, closing) ∧
      ∃ inner, value.toList = opening :: (inner ++ [closing]) := by
  rw [quotePair?_eq_some_iff, exists_between_iff]
  exact ⟨fun h => ⟨⟨h.opens, h.closes⟩, h.starts, h.ends, h.apart⟩,
    fun ⟨⟨hopens, hcloses⟩, hstarts, hends, hapart⟩ => ⟨hopens, hcloses, hstarts, hends, hapart⟩⟩

/-! ## One pair after the other -/

section pairs

variable {pair : String} {pairs : List String} {opening closing : Char} {cs : List Char}

theorem unquote_of_no_pair (h : quotePair? pair.toList = none) :
    unquote (pair :: pairs) cs = unquote pairs cs := by
  conv => lhs; unfold unquote
  rw [h]

variable (hpair : quotePair? pair.toList = some (opening, closing))
include hpair

theorem unquote_of_between {inner : List Char} (h : between? opening closing cs = some inner) :
    unquote (pair :: pairs) cs = (inner, some opening) := by
  unfold unquote
  rw [hpair]
  dsimp only
  rw [h]

theorem unquote_of_not_between (h : between? opening closing cs = none) :
    unquote (pair :: pairs) cs = unquote pairs cs := by
  conv => lhs; unfold unquote
  rw [hpair]
  dsimp only
  rw [h]

end pairs

/-- A pair that does not quote a text is passed over. -/
theorem unquote_of_not_isQuotedBy {pair value : String} (h : ¬ IsQuotedBy value pair)
    (pairs : List String) : unquote (pair :: pairs) value.toList = unquote pairs value.toList := by
  cases hpair : quotePair? pair.toList with
  | none => exact unquote_of_no_pair hpair
  | some ends =>
    obtain ⟨opening, closing⟩ := ends
    apply unquote_of_not_between hpair
    rw [between?_eq_none_iff]
    exact fun hbetween => h ⟨opening, closing, quotes_iff.mpr ⟨hpair, hbetween⟩⟩

theorem unquote_of_quoted {pairs : List String} {value : String}
    (h : ∃ pair ∈ pairs, IsQuotedBy value pair) :
    ∃ before first after opening closing inner, pairs = before ++ first :: after ∧
      (∀ earlier ∈ before, ¬ IsQuotedBy value earlier) ∧ Quotes first opening closing value ∧
      value.toList = opening :: (inner ++ [closing]) ∧
      unquote pairs value.toList = (inner, some opening) := by
  induction pairs with
  | nil =>
    obtain ⟨pair, hmem, _⟩ := h
    exact nomatch hmem
  | cons pair pairs ih =>
    by_cases hfirst : IsQuotedBy value pair
    · obtain ⟨opening, closing, hquotes⟩ := hfirst
      obtain ⟨hpair, inner, hvalue⟩ := quotes_iff.mp hquotes
      have hunquote : unquote (pair :: pairs) value.toList = (inner, some opening) :=
        unquote_of_between hpair (between?_eq_some_iff.mpr hvalue)
      exact ⟨[], pair, pairs, opening, closing, inner, rfl, nofun, hquotes, hvalue, hunquote⟩
    · have hlater : ∃ other ∈ pairs, IsQuotedBy value other := by
        obtain ⟨other, hmem, hother⟩ := h
        rcases List.mem_cons.mp hmem with rfl | hmem
        · exact absurd hother hfirst
        · exact ⟨other, hmem, hother⟩
      obtain ⟨before, first, after, opening, closing, inner, rfl, hbefore, hrest⟩ := ih hlater
      refine ⟨pair :: before, first, after, opening, closing, inner, rfl, ?_, ?_⟩
      · exact List.forall_mem_cons.mpr ⟨hfirst, hbefore⟩
      · rwa [unquote_of_not_isQuotedBy hfirst]

theorem unquote_of_not_quoted {pairs : List String} {value : String}
    (h : ∀ pair ∈ pairs, ¬ IsQuotedBy value pair) :
    unquote pairs value.toList = (value.toList, none) := by
  induction pairs with
  | nil => rfl
  | cons pair pairs ih =>
    obtain ⟨hpair, hpairs⟩ := List.forall_mem_cons.mp h
    rw [unquote_of_not_isQuotedBy hpair, ih hpairs]

/-! ## Cutting quotes off by bytes -/

/-- Takes the quotes off a text by counting the bytes of the quote characters, where each cut
    leaves a text. -/
def unquoteBytes? : List String → String → Option (String × Option Char)
  | [], value => some (value, none)
  | pair :: pairs, value =>
    match quotePair? pair.toList with
    | none => unquoteBytes? pairs value
    | some (opening, closing) =>
      if opening.utf8Size + closing.utf8Size ≤ value.utf8ByteSize ∧
          value.startsWith opening ∧ value.endsWith closing then
        (Text.strip? opening.utf8Size closing.utf8Size value).map (·, some opening)
      else unquoteBytes? pairs value

theorem ofList_between (opening closing : Char) (inner : List Char) :
    String.ofList (opening :: (inner ++ [closing])) =
      String.singleton opening ++ String.ofList inner ++ String.singleton closing := by
  apply String.toList_injective
  simp

/-- Two quotes at the ends of a text are at two places exactly if the text has as many bytes as
    the two together. -/
theorem bytes_iff_between {opening closing : Char} {value : String} :
    opening.utf8Size + closing.utf8Size ≤ value.utf8ByteSize ∧ value.startsWith opening ∧
        value.endsWith closing ↔
      ∃ inner, value.toList = opening :: (inner ++ [closing]) := by
  rw [String.startsWith_char_eq_head?, String.endsWith_char_eq_getLast?, beq_iff_eq, beq_iff_eq]
  constructor
  · rintro ⟨hbytes, hstarts, hends⟩
    refine exists_between_iff.mpr ⟨hstarts, hends, ?_⟩
    obtain ⟨rest, hvalue⟩ := List.head?_eq_some_iff.mp hstarts
    have hrest : rest ≠ [] := by
      rintro rfl
      have hsingle : value = String.singleton opening := String.toList_injective (by simp [hvalue])
      have hpos := closing.utf8Size_pos
      rw [hsingle, String.utf8ByteSize_singleton] at hbytes
      omega
    have hlength : 0 < rest.length := List.length_pos_iff.mpr hrest
    rw [hvalue, List.length_cons]
    omega
  · intro h
    obtain ⟨hstarts, hends, _⟩ := exists_between_iff.mp h
    obtain ⟨inner, hvalue⟩ := h
    refine ⟨?_, hstarts, hends⟩
    rw [← String.ofList_toList (s := value), hvalue, ofList_between]
    simp only [String.utf8ByteSize_append, String.utf8ByteSize_singleton]
    omega

theorem strip?_between {opening closing : Char} {value : String} {inner : List Char}
    (h : value.toList = opening :: (inner ++ [closing])) :
    Text.strip? opening.utf8Size closing.utf8Size value = some (String.ofList inner) := by
  rw [Text.strip?_eq_some_iff]
  refine ⟨.singleton opening, .singleton closing, ?_, ?_, ?_⟩
  · rw [← ofList_between, ← h, String.ofList_toList]
  · exact String.utf8ByteSize_singleton
  · exact String.utf8ByteSize_singleton

/-- **No cut fails.** By bytes the same quotes are taken off, and the same text is left. -/
theorem unquoteBytes?_eq (pairs : List String) (value : String) :
    unquoteBytes? pairs value = some (String.ofList (unquote pairs value.toList).1,
      (unquote pairs value.toList).2) := by
  induction pairs with
  | nil => simp [unquoteBytes?, unquote]
  | cons pair pairs ih =>
    unfold unquoteBytes?
    cases hpair : quotePair? pair.toList with
    | none =>
      rw [unquote_of_no_pair hpair]
      exact ih
    | some ends =>
      obtain ⟨opening, closing⟩ := ends
      dsimp only
      by_cases hbetween : ∃ inner, value.toList = opening :: (inner ++ [closing])
      · rw [if_pos (bytes_iff_between.mpr hbetween)]
        obtain ⟨inner, hvalue⟩ := hbetween
        rw [strip?_between hvalue, unquote_of_between hpair (between?_eq_some_iff.mpr hvalue)]
        rfl
      · rw [if_neg (mt bytes_iff_between.mp hbetween), ih,
          unquote_of_not_between hpair (between?_eq_none_iff.mpr hbetween)]

/-- **The first pair that quotes a text is taken off it.** If some pair does, the first one is
    answered by its opening character, and with the two characters around it what is left gives
    the text. Otherwise the text is left as it is. Done by bytes this comes out the same, so
    every cut is within the text and between two characters. -/
theorem unquote_first_pair (pairs : List String) (value : String) :
    ((∃ pair ∈ pairs, IsQuotedBy value pair) →
      ∃ before first after opening closing inner, pairs = before ++ first :: after ∧
        (∀ earlier ∈ before, ¬ IsQuotedBy value earlier) ∧ Quotes first opening closing value ∧
        value.toList = opening :: (inner ++ [closing]) ∧
        unquote pairs value.toList = (inner, some opening)) ∧
    ((∀ pair ∈ pairs, ¬ IsQuotedBy value pair) →
      unquote pairs value.toList = (value.toList, none)) ∧
    unquoteBytes? pairs value = some (String.ofList (unquote pairs value.toList).1,
      (unquote pairs value.toList).2) :=
  ⟨unquote_of_quoted, unquote_of_not_quoted, unquoteBytes?_eq pairs value⟩

/-- Characters of two bytes, behind a pair without characters and one that does not close, and a
    character that is not two quotes. -/
theorem unquote_first_pair_of_widths :
    (∃ pair ∈ ["", "«", "«»"], IsQuotedBy "«ß»" pair) ∧
    unquote ["", "«", "«»"] "«ß»".toList = (['ß'], some '«') ∧
    unquoteBytes? ["", "«", "«»"] "«ß»" = some ("ß", some '«') ∧
    (∀ pair ∈ ["", "«"], ¬ IsQuotedBy "«" pair) ∧
    unquote ["", "«"] "«".toList = ("«".toList, none) := by
  have hquoted : ∃ pair ∈ ["", "«", "«»"], IsQuotedBy "«ß»" pair :=
    ⟨"«»", by decide, '«', '»', by decide, by decide, by decide, by decide, by decide⟩
  have hunquoted : ∀ pair ∈ ["", "«"], ¬ IsQuotedBy "«" pair := by
    rintro pair _ ⟨opening, closing, hquotes⟩
    exact absurd hquotes.apart (by decide)
  obtain ⟨hfirst, _, hbytes⟩ := unquote_first_pair ["", "«", "«»"] "«ß»"
  obtain ⟨_, hnone, _⟩ := unquote_first_pair ["", "«"] "«"
  obtain ⟨_, _, _, opening, closing, inner, _, _, _, hvalue, hunquote⟩ := hfirst hquoted
  have htext : "«ß»".toList = '«' :: (['ß'] ++ ['»']) := by decide
  rw [htext] at hvalue
  obtain ⟨rfl, hrest⟩ := List.cons.inj hvalue
  obtain ⟨rfl, _⟩ := List.append_inj' hrest rfl
  rw [hunquote] at hbytes
  exact ⟨hquoted, hunquote, hbytes, hunquoted, hnone hunquoted⟩

/-! ## The standard quotes -/

/-- Single quotes are taken off first. -/
theorem unquote_single (inner : List Char) :
    unquote Options.standard.quotes ('\'' :: (inner ++ ['\''])) = (inner, some '\'') :=
  unquote_of_between (by decide) (between?_eq_some_iff.mpr rfl)

theorem unquote_double (inner : List Char) :
    unquote Options.standard.quotes ('"' :: (inner ++ ['"'])) = (inner, some '"') := by
  have hsingle : between? '\'' '\'' ('"' :: (inner ++ ['"'])) = none := by
    rw [between?_eq_none_iff]
    rintro ⟨other, hother⟩
    exact absurd (List.cons.inj hother).1 (by decide)
  exact (unquote_of_not_between (by decide) hsingle).trans
    (unquote_of_between (by decide) (between?_eq_some_iff.mpr rfl))

/-- A text is left as it is, or a pair of equal quotes is taken off it. -/
theorem unquote_cases (cs : List Char) :
    unquote Options.standard.quotes cs = (cs, none) ∨
      ∃ q inner, (q = '\'' ∨ q = '"') ∧ cs = q :: (inner ++ [q]) ∧
        unquote Options.standard.quotes cs = (inner, some q) := by
  cases hsingle : between? '\'' '\'' cs with
  | some inner =>
    right
    obtain rfl := between?_eq_some_iff.mp hsingle
    exact ⟨'\'', inner, .inl rfl, rfl, unquote_single inner⟩
  | none =>
    cases hdouble : between? '"' '"' cs with
    | some inner =>
      right
      obtain rfl := between?_eq_some_iff.mp hdouble
      exact ⟨'"', inner, .inr rfl, rfl, unquote_double inner⟩
    | none =>
      left
      exact (unquote_of_not_between (by decide) hsingle).trans
        (unquote_of_not_between (by decide) hdouble)

/-- A text that begins with no quote is left as it is. -/
theorem unquote_of_head {cs : List Char} (h : ∀ c ∈ cs.head?, c ≠ '\'' ∧ c ≠ '"') :
    unquote Options.standard.quotes cs = (cs, none) := by
  rcases unquote_cases cs with hnone | ⟨q, inner, hq, hcs, _⟩
  · exact hnone
  · have hfirst := h q (by rw [hcs]; rfl)
    rcases hq with rfl | rfl
    · exact absurd rfl hfirst.1
    · exact absurd rfl hfirst.2

end Scalar

end LayeredConfig
