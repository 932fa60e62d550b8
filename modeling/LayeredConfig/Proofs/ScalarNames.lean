import LayeredConfig.Proofs.NormalPaths
import LayeredConfig.Proofs.QueueOrder
import LayeredConfig.Proofs.ScalarGrammar
import LayeredConfig.Proofs.WrittenLines

/-! # Scalars as names of files

    The characters of words and numbers separate nothing in a path, and there is more than
    points among them. So a text that is typed as something else than a text is a single name,
    and so is the text of what it is typed as, unless that is null. Seen from one directory,
    different names are different paths.

    **Main results.** `Scalar.typed_eq_string_or`; `Path.resolveInclude_of_isName`: where a name
    leads; `Path.format_of_scalarName`: such a file has no JSON in it.
-/

namespace LayeredConfig

/-! ## Names seen from a directory -/

namespace Path

theorem isName_of_mem {cs : List Char} {c : Char} (hc : c ∈ cs) (hdot : c ≠ '.')
    (hslash : '/' ∉ cs) : IsName cs := by
  have hempty : ¬ (cs = [] ∨ cs = ['.']) := by
    rintro (rfl | rfl)
    · exact nomatch hc
    · exact hdot (List.mem_singleton.mp hc)
  have habove : cs ≠ ['.', '.'] := by
    rintro rfl
    simp [hdot] at hc
  refine ⟨?_, hslash⟩
  unfold component?
  rw [if_neg hempty, if_neg habove]

theorem components_of_isName {cs : List Char} (h : IsName cs) :
    components ⟨cs⟩ = [.name cs] := by
  have hnormal : Normal false [.name cs] :=
    .climbing 0 [cs] (List.forall_mem_singleton.mpr h)
  exact hnormal.components_ofComponents

/-- A directory has a text. -/
theorem text_ne_nil_of_directory? {p d : Path} (h : p.directory? = some d) : d.text ≠ [] := by
  unfold directory? at h
  obtain ⟨parent, _, rfl⟩ := Option.map_eq_some_iff.mp h
  split
  · decide
  · assumption

/-- **A name that is included** is in the directory. -/
theorem resolveInclude_of_isName {cs : List Char} (h : IsName cs) (htrim : Text.trim cs = cs)
    (hnul : '\x00' ∉ cs) {d : Path} (hd : d.text ≠ []) :
    ∃ r, resolveInclude cs (some d) = .ok r ∧ r.components = d.resolved ++ [.name cs] := by
  have hcomponents := components_of_isName h
  have hrelative : isAbsolute ⟨cs⟩ = false := by
    rw [Bool.eq_false_iff, Ne, isAbsolute_iff_components, hcomponents]
    simp
  have hne : cs ≠ [] := by
    rintro rfl
    exact nomatch hcomponents
  refine ⟨(d.join ⟨cs⟩).normalize, ?_, ?_⟩
  · rw [resolveInclude_eq_ok_iff, htrim]
    exact ⟨hne, hnul, .inr ⟨hrelative, d, rfl, hd, rfl⟩⟩
  · rw [components_normalize]
    unfold resolved
    rw [foldl_climb_join d hrelative, hcomponents, List.foldl_cons, List.foldl_nil, climb_name,
      List.reverse_cons]

end Path

/-! ## Texts of scalars -/

namespace Scalar

/-- A character that words and numbers are written with. -/
def isScalarChar (c : Char) : Bool :=
  wordChars.contains c.toLower || c.isDigit || ['-', '+', '.'].contains c

/-- A text that is written like a word or a number: there are only their characters in it, and
    not only points. -/
structure IsScalarText (cs : List Char) : Prop where
  solid : ∃ c ∈ cs, c ≠ '.'
  chars : ∀ c ∈ cs, isScalarChar c = true

theorem isAscii_of_isScalarChar {c : Char} (h : isScalarChar c = true) : Text.isAscii c = true := by
  unfold isScalarChar at h
  rw [Bool.or_eq_true, Bool.or_eq_true] at h
  rcases h with (hletter | hdigit) | hmark
  · exact isAscii_of_toLower_mem (List.contains_iff_mem.mp hletter)
  · exact isAscii_of_isDigit hdigit
  · have hmarks : ∀ d ∈ ['-', '+', '.'], Text.isAscii d = true := List.all_eq_true.mp (by decide)
    exact hmarks c (List.contains_iff_mem.mp hmark)

/-- A character of a scalar separates nothing, and it does not occur in the name of the JSON
    format. -/
theorem isScalarChar_apart {c : Char} (h : isScalarChar c = true) :
    Text.isBlank c = false ∧ c ≠ '/' ∧ c ≠ '\x00' ∧ c.toLower.toLower ≠ 'j' := by
  have hascii := isAscii_of_isScalarChar h
  revert h
  exact Text.forall_ascii (P := fun c => isScalarChar c = true →
    Text.isBlank c = false ∧ c ≠ '/' ∧ c ≠ '\x00' ∧ c.toLower.toLower ≠ 'j')
    (by decide +kernel) hascii

theorem IsScalarText.isName {cs : List Char} (h : IsScalarText cs) : Path.IsName cs := by
  obtain ⟨c, hc, hdot⟩ := h.solid
  exact Path.isName_of_mem hc hdot fun hslash => (isScalarChar_apart (h.chars _ hslash)).2.1 rfl

theorem IsScalarText.trim_eq {cs : List Char} (h : IsScalarText cs) : Text.trim cs = cs := by
  apply Text.trim_eq_self
  · exact fun c hc => (isScalarChar_apart (h.chars c (List.mem_of_mem_head? hc))).1
  · exact fun c hc => (isScalarChar_apart (h.chars c (List.mem_of_mem_getLast? hc))).1

theorem IsScalarText.nul_not_mem {cs : List Char} (h : IsScalarText cs) : '\x00' ∉ cs :=
  fun hnul => (isScalarChar_apart (h.chars _ hnul)).2.2.1 rfl

/-! ## Texts that are words or numbers -/

theorem isScalarChar_of_isDigit {c : Char} (h : c.isDigit = true) : isScalarChar c = true := by
  unfold isScalarChar
  rw [h, Bool.or_true, Bool.true_or]

theorem isScalarText_of_digit {cs : List Char} (hdigit : ∃ c ∈ cs, c.isDigit = true)
    (h : ∀ c ∈ cs, isScalarChar c = true) : IsScalarText cs := by
  obtain ⟨c, hc, hdigit⟩ := hdigit
  refine ⟨⟨c, hc, ?_⟩, h⟩
  rintro rfl
  exact absurd hdigit (by decide)

theorem isScalarText_of_isSpelling {word : String} {cs : List Char} (hne : word ≠ "")
    (hword : word.toList.all wordChars.contains = true) (h : IsSpelling word cs) :
    IsScalarText cs := by
  rw [isSpelling_iff hword] at h
  subst h
  rw [String.toList_ofList, List.all_eq_true] at hword
  have hletter : ∀ c ∈ cs, c.toLower ∈ wordChars :=
    fun c hc => List.contains_iff_mem.mp (hword _ (List.mem_map_of_mem hc))
  constructor
  · cases cs with
    | nil => exact absurd rfl hne
    | cons c rest =>
      refine ⟨c, List.mem_cons_self, ?_⟩
      rintro rfl
      exact absurd (hletter '.' List.mem_cons_self) (by decide)
  · intro c hc
    unfold isScalarChar
    rw [List.contains_iff_mem.mpr (hletter c hc)]
    rfl

theorem Sign.chars {sign : List Char} {negative : Bool} (h : Sign sign negative) :
    ∀ c ∈ sign, isScalarChar c = true := by
  cases h with
  | missing => exact nofun
  | plus => exact List.forall_mem_singleton.mpr (by decide)
  | minus => exact List.forall_mem_singleton.mpr (by decide)

theorem Digits.chars {cs : List Char} {n : Nat} (h : Digits cs n) :
    ∀ c ∈ cs, isScalarChar c = true :=
  fun c hc => isScalarChar_of_isDigit (h.isDigit c hc)

theorem IntegerText.isScalarText {cs : List Char} {i : Int} (h : IntegerText cs i) :
    IsScalarText cs := by
  refine isScalarText_of_digit h.exists_digit ?_
  obtain ⟨hsign, hdigits⟩ := h
  exact List.forall_mem_append.mpr ⟨hsign.chars, hdigits.chars⟩

theorem Significand.isScalarText {cs : List Char} {n places : Nat} (h : Significand cs n places) :
    IsScalarText cs := by
  cases h with
  | whole h => exact isScalarText_of_digit h.exists_digit h.chars
  | pointed h =>
    obtain ⟨c, hc, hdigit⟩ := h.exists_digit
    obtain ⟨hwhole, hfraction⟩ := List.forall_mem_append.mp h.chars
    refine isScalarText_of_digit ⟨c, ?_, hdigit⟩ ?_
    · rcases List.mem_append.mp hc with hc | hc
      · exact List.mem_append_left _ hc
      · exact List.mem_append_right _ (List.mem_cons_of_mem '.' hc)
    · exact List.forall_mem_append.mpr ⟨hwhole, List.forall_mem_cons.mpr ⟨by decide, hfraction⟩⟩

theorem Exponent.chars {cs : List Char} {e : Int} (h : Exponent cs e) :
    ∀ c ∈ cs, isScalarChar c = true := by
  cases h with
  | missing => exact nofun
  | given he h =>
    refine List.forall_mem_cons.mpr ⟨?_, h.isScalarText.chars⟩
    rcases he with rfl | rfl
    · decide
    · decide

theorem DecimalText.isScalarText {cs : List Char} {d : Decimal} (h : DecimalText cs d) :
    IsScalarText cs := by
  obtain ⟨hsign, hsignificand, hexponent⟩ := h
  obtain ⟨c, hc, hdot⟩ := hsignificand.isScalarText.solid
  refine ⟨⟨c, List.mem_append_right _ (List.mem_append_left _ hc), hdot⟩, ?_⟩
  exact List.forall_mem_append.mpr ⟨hsign.chars,
    List.forall_mem_append.mpr ⟨hsignificand.isScalarText.chars, hexponent.chars⟩⟩

theorem isScalarText_numberText (n : Number) : IsScalarText n.text := by
  obtain ⟨hdigit, hchars⟩ := n.isNumberText_text
  refine isScalarText_of_digit hdigit fun c hc => ?_
  have hchar := hchars c hc
  unfold Decimal.isNumberChar at hchar
  rw [Bool.or_eq_true] at hchar
  rcases hchar with hdigit | hmark
  · exact isScalarChar_of_isDigit hdigit
  · have hmarks : ∀ d ∈ ['-', '+', '.', 'e'], isScalarChar d = true :=
      List.all_eq_true.mp (by decide)
    exact hmarks c (List.contains_iff_mem.mp hmark)

/-- **What is not read as a text** is written like a scalar, and so is the value that it is
    read as, unless that is null, which has no text. -/
theorem typed_eq_string_or (cs : List Char) : typed cs = .string (String.ofList cs) ∨
    IsScalarText cs ∧ ((typed cs).text = [] ∨ IsScalarText (typed cs).text) := by
  have hword : ∀ b : Bool, IsScalarText (Value.bool b).text := by
    intro b
    cases b with
    | true => exact ⟨⟨'t', by decide, by decide⟩, List.all_eq_true.mp (by decide)⟩
    | false => exact ⟨⟨'f', by decide, by decide⟩, List.all_eq_true.mp (by decide)⟩
  have hstands := standsFor_typed cs
  generalize typed cs = v at hstands ⊢
  cases hstands with
  | yes h =>
    exact .inr ⟨isScalarText_of_isSpelling (by decide) (by decide) h, .inr (hword true)⟩
  | no h =>
    exact .inr ⟨isScalarText_of_isSpelling (by decide) (by decide) h, .inr (hword false)⟩
  | null h => exact .inr ⟨isScalarText_of_isSpelling (by decide) (by decide) h, .inl rfl⟩
  | integer h hfits hnumber =>
    exact .inr ⟨h.isScalarText, .inr (isScalarText_numberText (.int _ hnumber))⟩
  | float hnone hinteger h hx =>
    exact .inr ⟨h.isScalarText, .inr (isScalarText_numberText (.float _))⟩
  | text hnone hinteger hfloat => exact .inl rfl

end Scalar

/-! ## Formats of scalar names -/

namespace Path

theorem mem_of_extensionOf? {name extension : List Char}
    (h : extensionOf? name = some extension) : ∀ c ∈ extension, c ∈ name := by
  intro c hc
  unfold extensionOf? at h
  split at h
  · next after before hcut =>
    split at h
    · exact nomatch h
    · obtain rfl := Option.some.inj h
      obtain ⟨hname, _⟩ := Text.cutAt_eq_some_iff.mp hcut
      rw [← List.mem_reverse, hname]
      exact List.mem_append_left _ (List.mem_reverse.mp hc)
  · exact nomatch h

/-- The JSON format has one name, apart from case and signs. -/
theorem letters_of_json {name : String} (h : Format.ofName? name = some .json) :
    (name.toList.filter Char.isAlphanum).map Char.toLower = "json".toList := by
  unfold Format.ofName? at h
  split at h
  all_goals first
    | (cases h; done)
    | next hname => rw [← hname, String.toList_ofList]

/-- A file that is named like a scalar has no JSON in it, by its extension. -/
theorem format_of_scalarName {r : Path} {front : List Component} {cs : List Char}
    (hr : r.components = front ++ [.name cs]) (h : Scalar.IsScalarText cs) :
    Format.ofName? (Loader.formatNameOf r) ≠ some .json := by
  have hname : r.fileName? = some cs := by
    unfold fileName?
    rw [hr, List.getLast?_concat]
  unfold Loader.formatNameOf extension?
  rw [hname, Option.bind_some]
  cases hextension : extensionOf? cs with
  | none => decide
  | some extension =>
    have hchars : ∀ c ∈ extension, Scalar.isScalarChar c = true :=
      fun c hc => h.chars c (mem_of_extensionOf? hextension c hc)
    have hlower : (Text.lower (String.ofList extension)).toList =
        extension.map Char.toLower := by
      rw [Text.lower_of_ascii, String.toList_ofList]
      rw [String.toList_ofList]
      exact fun c hc => Scalar.isAscii_of_isScalarChar (hchars c hc)
    intro hjson
    have hletters := letters_of_json hjson
    dsimp only at hletters
    rw [hlower] at hletters
    -- The first letter of the name of the format would have to be in the extension.
    have hfirst : 'j' ∈ ((extension.map Char.toLower).filter Char.isAlphanum).map Char.toLower := by
      rw [hletters]
      decide
    obtain ⟨c, hc, hj⟩ := List.mem_map.mp hfirst
    obtain ⟨d, hd, rfl⟩ := List.mem_map.mp (List.mem_of_mem_filter hc)
    exact (Scalar.isScalarChar_apart (hchars d hd)).2.2.2 hj

end Path

end LayeredConfig
