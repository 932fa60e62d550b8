import LayeredConfig.Conf.Line
import LayeredConfig.Key.Separator
import LayeredConfig.Text.Casing
import LayeredConfig.Proofs.UnderscoreRows
import Mathlib.Data.List.Infix

/-! # Plain keys

    A plain key has letters, digits and single underscores in it, and at least one of
    them. It stands for itself: it is a path of one step, and there is nothing in it for
    the marks of nesting to be made from. No other key becomes a plain one by that.

    A plain key in lower case can be spelled in several ways. Whatever the spelling is,
    it has no blanks in it, no equals sign, no hash sign and no brackets, so it can be
    found again in a line.

    **Main results.** `split_standard`, `rewriteNamespace_eq_iff`, and for spellings
    `isSpellingChar_of_spells` and `takeAppendMark_lower_iff`, the last for all keys in ASCII.
-/

namespace LayeredConfig

/-! ## Characters of words -/

/-- Whether a character is an ASCII letter, a digit or the underscore. -/
def isWordChar (c : Char) : Bool := c.isAlphanum || c == '_'

theorem isAscii_of_isWordChar {c : Char} (h : isWordChar c = true) : Text.isAscii c = true := by
  unfold isWordChar Char.isAlphanum Char.isAlpha Char.isUpper Char.isLower Char.isDigit at h
  simp only [Bool.or_eq_true, beq_iff_eq, decide_eq_true_eq, Bool.and_eq_true] at h
  unfold Text.isAscii
  rw [decide_eq_true_eq]
  rcases h with ((⟨_, h⟩ | ⟨_, h⟩) | ⟨_, h⟩) | rfl
  · exact Nat.lt_of_le_of_lt h (by decide)
  · exact Nat.lt_of_le_of_lt h (by decide)
  · exact Nat.lt_of_le_of_lt h (by decide)
  · decide

/-- Whether a character can stand for a letter, a digit or the underscore where case does
    not count. -/
def isSpellingChar (c : Char) : Bool := isWordChar c || c == Text.kelvin

theorem isSpellingChar_of_foldChar {c : Char} (hsimple : Text.IsSimple c)
    (h : isWordChar (Text.foldChar c) = true) : isSpellingChar c = true := by
  rcases hsimple with hascii | rfl
  · rw [Text.foldChar_of_ascii hascii] at h
    revert h
    exact Text.forall_ascii (P := fun c => isWordChar c.toLower = true → isSpellingChar c = true)
      (by decide +kernel) hascii
  · decide

/-- A character of a spelling is none of those that mean something in a line. -/
theorem isSpellingChar_apart {c : Char} (h : isSpellingChar c = true) :
    Text.isBlank c = false ∧ c ≠ '=' ∧ c ≠ '#' ∧ c ≠ '[' ∧ c ≠ ']' ∧ c ≠ ' ' ∧ c ≠ '\t' ∧
      c ≠ '\n' ∧ c ≠ '$' := by
  unfold isSpellingChar at h
  rw [Bool.or_eq_true, beq_iff_eq] at h
  rcases h with hword | rfl
  · have hascii := isAscii_of_isWordChar hword
    revert hword
    exact Text.forall_ascii (P := fun c => isWordChar c = true → Text.isBlank c = false ∧ c ≠ '=' ∧
      c ≠ '#' ∧ c ≠ '[' ∧ c ≠ ']' ∧ c ≠ ' ' ∧ c ≠ '\t' ∧ c ≠ '\n' ∧ c ≠ '$')
      (by decide +kernel) hascii
  · decide

/-- So is every word character. -/
theorem isWordChar_apart {c : Char} (h : isWordChar c = true) :
    Text.isBlank c = false ∧ c ≠ '=' ∧ c ≠ '#' ∧ c ≠ '[' ∧ c ≠ ']' ∧ c ≠ ' ' ∧ c ≠ '\t' ∧
      c ≠ '\n' ∧ c ≠ '$' := by
  apply isSpellingChar_apart
  unfold isSpellingChar
  rw [h, Bool.true_or]

theorem split_standard_eq (k : String) : Separator.standard.split k =
    (Text.split Separator.standard.text.toList k.toList).map String.ofList := by
  unfold Separator.split
  rw [if_neg (by decide)]

/-- A key without colons is a path of one step. -/
theorem split_standard_of_not_mem {k : String} (h : ':' ∉ k.toList) :
    Separator.standard.split k = [k] := by
  have habsent : ¬ Separator.standard.text.toList <:+: k.toList := by
    intro hwithin
    exact h (hwithin.subset (by decide))
  rw [split_standard_eq, Text.split_of_absent habsent, List.map_singleton, String.ofList_toList]

/-! ## Plain keys -/

/-- A key of letters, digits and single underscores. -/
structure PlainKey (key : String) : Prop where
  nonempty : key.toList ≠ []
  words : ∀ c ∈ key.toList, isWordChar c = true
  single : ¬ ['_', '_'] <:+: key.toList

instance (key : String) : Decidable (PlainKey key) :=
  decidable_of_iff (key.toList ≠ [] ∧ key.toList.all isWordChar = true ∧
      ¬ ['_', '_'] <:+: key.toList)
    ⟨fun ⟨h₁, h₂, h₃⟩ => ⟨h₁, List.all_eq_true.mp h₂, h₃⟩,
      fun h => ⟨h.nonempty, List.all_eq_true.mpr h.words, h.single⟩⟩

namespace PlainKey

variable {k : String} (h : PlainKey k)
include h

theorem not_mem {c : Char} (hc : isWordChar c = false) : c ∉ k.toList := by
  intro hmem
  rw [h.words c hmem] at hc
  exact nomatch hc

/-- A plain key is a path of one step. -/
theorem split_standard : Separator.standard.split k = [k] :=
  split_standard_of_not_mem (h.not_mem (by decide))

/-- A plain key stands for itself, and no other key becomes it. -/
theorem rewriteNamespace_eq_iff {cs : List Char} :
    rewriteNamespace cs = k.toList ↔ cs = k.toList := by
  constructor
  · intro heq
    have hsingle : ¬ ['_', '_'] <:+: cs := by
      intro hdouble
      rcases mark_mem_rewriteNamespace hdouble with hmark | hmark
      · exact h.not_mem (by decide) (heq ▸ hmark)
      · exact h.not_mem (by decide) (heq ▸ hmark)
    rw [← heq, rewriteNamespace_of_single hsingle]
  · intro heq
    subst heq
    exact rewriteNamespace_of_single h.single

end PlainKey

/-- The path of a key is that one key only for the key itself. -/
theorem eq_of_split_standard {key k : String} (h : Separator.standard.split key = [k]) :
    key = k := by
  rw [split_standard_eq] at h
  obtain ⟨part, hsplit, hpart⟩ := List.map_eq_singleton_iff.mp h
  have hkey := Text.eq_of_split_eq_singleton (by decide) hsplit
  rw [← hpart, ← hkey, String.ofList_toList]

/-! ## Lower case -/

section words

variable {key : String} (h : ∀ c ∈ key.toList, isWordChar c = true)
include h

/-- The lower-case form of a text of word characters, character by character. -/
theorem lower_of_words : (Text.lower key).toList = key.toList.map Char.toLower :=
  Text.lower_of_ascii fun c hc => isAscii_of_isWordChar (h c hc)

/-- It is made of word characters again, which have no lower-case form but themselves. -/
theorem words_lower :
    ∀ c ∈ (Text.lower key).toList, isWordChar c = true ∧ c.toLower = c := by
  rw [lower_of_words h]
  intro d hd
  obtain ⟨c, hc, rfl⟩ := List.mem_map.mp hd
  have hword := h c hc
  revert hword
  exact Text.forall_ascii
    (P := fun c => isWordChar c = true →
      isWordChar c.toLower = true ∧ c.toLower.toLower = c.toLower)
    (by decide +kernel) (isAscii_of_isWordChar (h c hc))

/-- Two underscores in a row come from two underscores in a row. -/
theorem doubled_lower_iff :
    ['_', '_'] <:+: (Text.lower key).toList ↔ ['_', '_'] <:+: key.toList := by
  rw [lower_of_words h]
  constructor
  · intro hwithin
    obtain ⟨front, back, heq⟩ := hwithin
    obtain ⟨left, right, hkey, hleft, _⟩ := List.map_eq_append_iff.mp heq.symm
    obtain ⟨start, middle, hleft', _, hmiddle⟩ := List.map_eq_append_iff.mp hleft
    -- Only the underscore itself becomes an underscore.
    have hunder : ∀ c ∈ middle, c = '_' := by
      intro c hc
      have hword := h c (by rw [hkey, hleft']; simp [hc])
      have hlower : c.toLower = '_' := by
        have hmem : c.toLower ∈ middle.map Char.toLower := List.mem_map_of_mem hc
        rw [hmiddle] at hmem
        simpa using hmem
      revert hlower
      exact Text.forall_ascii (P := fun c => c.toLower = '_' → c = '_') (by decide +kernel)
        (isAscii_of_isWordChar hword)
    have hlength : middle.length = 2 := by
      have hboth := congrArg List.length hmiddle
      simpa using hboth
    have hmiddle' : middle = ['_', '_'] := by
      rw [List.eq_replicate_of_mem hunder, hlength]
      rfl
    exact ⟨start, right, by rw [hkey, hleft', hmiddle']⟩
  · exact fun hwithin => hwithin.map Char.toLower

end words

/-- The lower-case form of a plain key, character by character. -/
theorem PlainKey.lower_eq {key : String} (h : PlainKey key) :
    (Text.lower key).toList = key.toList.map Char.toLower :=
  lower_of_words h.words

/-- Lower-casing keeps a key plain. -/
theorem PlainKey.lower {key : String} (h : PlainKey key) : PlainKey (Text.lower key) where
  nonempty := by
    rw [h.lower_eq]
    simpa using h.nonempty
  words c hc := (words_lower h.words c hc).1
  single := by
    rw [doubled_lower_iff h.words]
    exact h.single

/-! ## The append mark -/

open Conf

/-- Only the brackets themselves become brackets. -/
theorem Text.eq_foldChar_of_mark {c : Char} (hsimple : IsSimple c)
    (h : foldChar c ∈ appendMark) : c = foldChar c := by
  rcases hsimple with hascii | rfl
  · rw [foldChar_of_ascii hascii] at h ⊢
    revert h
    exact forall_ascii (P := fun c => c.toLower ∈ appendMark → c = c.toLower) (by decide +kernel)
      hascii
  · exact absurd h (by decide)

/-- So only the mark itself becomes the mark. -/
theorem Text.eq_mark_of_map_foldChar {ending : List Char} (hsimple : ∀ c ∈ ending, IsSimple c)
    (h : ending.map foldChar = appendMark) : ending = appendMark := by
  rw [← h]
  have hsame : ∀ c ∈ ending, foldChar c = c := by
    intro c hc
    have hbracket : foldChar c ∈ appendMark := h ▸ List.mem_map_of_mem hc
    exact (eq_foldChar_of_mark (hsimple c hc) hbracket).symm
  rw [List.map_congr_left hsame, List.map_id']

/-- A key has the append mark behind it, or it is left as it is. -/
theorem Conf.takeAppendMark_eq_iff {key s : List Char} {append : Bool} :
    takeAppendMark key = (s, append) ↔
      (append = true ∧ key = s ++ appendMark) ∨
        (append = false ∧ key = s ∧ ¬ appendMark <:+ key) := by
  unfold takeAppendMark Text.dropSuffix?
  cases hmark : appendMark.reverse.isPrefixOf? key.reverse with
  | none =>
    have hnot : ¬ appendMark <:+ key := by
      intro hends
      rw [← List.reverse_prefix] at hends
      obtain ⟨rest, hrest⟩ := hends
      rw [List.isPrefixOf?_eq_some_iff_append_eq.mpr hrest] at hmark
      exact nomatch hmark
    simp only [Option.map_none, Prod.mk.injEq]
    constructor
    · intro hboth
      obtain ⟨rfl, rfl⟩ := hboth
      exact .inr ⟨rfl, rfl, hnot⟩
    · intro hor
      rcases hor with ⟨_, rfl⟩ | ⟨rfl, rfl, _⟩
      · exact absurd (List.suffix_append s appendMark) hnot
      · exact ⟨rfl, rfl⟩
  | some rest =>
    have hkey : key = rest.reverse ++ appendMark := by
      have hrest := List.isPrefixOf?_eq_some_iff_append_eq.mp hmark
      rw [← List.reverse_reverse key, ← hrest, List.reverse_append, List.reverse_reverse]
    simp only [Option.map_some, Prod.mk.injEq]
    constructor
    · intro hboth
      obtain ⟨rfl, rfl⟩ := hboth
      exact .inl ⟨rfl, hkey⟩
    · intro hor
      rcases hor with ⟨rfl, hs⟩ | ⟨_, _, hnot⟩
      · exact ⟨List.append_cancel_right (hkey.symm.trans hs), rfl⟩
      · exact absurd ⟨_, hkey.symm⟩ hnot

/-! ## Spellings -/

/-- A text that is a key where case does not count. -/
def Spells (cs : List Char) (k : String) : Prop := Text.lower (String.ofList cs) = k

section spelling

variable {k : String} (hk : PlainKey k)
include hk

theorem PlainKey.ascii : ∀ c ∈ k.toList, Text.isAscii c = true :=
  fun c hc => isAscii_of_isWordChar (hk.words c hc)

theorem spells_iff {cs : List Char} :
    Spells cs k ↔ (∀ c ∈ cs, Text.IsSimple c) ∧ cs.map Text.foldChar = k.toList :=
  Text.lower_eq_iff hk.ascii

/-- **Spellings of plain keys** have no character in them that means something in a line. -/
theorem isSpellingChar_of_spells {cs : List Char} (h : Spells cs k) :
    ∀ c ∈ cs, isSpellingChar c = true := by
  obtain ⟨hsimple, hmap⟩ := (spells_iff hk).mp h
  intro c hc
  apply isSpellingChar_of_foldChar (hsimple c hc)
  apply hk.words
  rw [← hmap]
  exact List.mem_map_of_mem hc

theorem ne_nil_of_spells {cs : List Char} (h : Spells cs k) : cs ≠ [] := by
  intro hnil
  have hmap := ((spells_iff hk).mp h).2
  rw [hnil] at hmap
  exact hk.nonempty hmap.symm

end spelling

/-- A key of which every spelling is known character by character: it is in ASCII, and it has no
    append mark behind it. -/
structure IsAsciiKey (k : String) : Prop where
  ascii : ∀ c ∈ k.toList, Text.isAscii c = true
  unmarked : ¬ appendMark <:+ k.toList

theorem PlainKey.isAsciiKey {k : String} (hk : PlainKey k) : IsAsciiKey k where
  ascii := hk.ascii
  unmarked hends := hk.not_mem (c := '[') (by decide) (hends.subset (by decide))

/-- Lower-casing keeps a key so. -/
theorem IsAsciiKey.lower {k : String} (h : IsAsciiKey k) : IsAsciiKey (Text.lower k) := by
  have hsimple : ∀ c ∈ k.toList, Text.IsSimple c := fun c hc => .inl (h.ascii c hc)
  have hlower : (Text.lower k).toList = k.toList.map Text.foldChar := by
    unfold Text.lower
    rw [String.toList_ofList, Text.lowerFrom_of_isSimple hsimple]
  constructor
  · rw [hlower]
    intro d hd
    obtain ⟨c, hc, rfl⟩ := List.mem_map.mp hd
    rw [Text.foldChar_of_ascii (h.ascii c hc)]
    exact Text.forall_ascii (P := fun c => Text.isAscii c.toLower = true) (by decide +kernel)
      (h.ascii c hc)
  · rw [hlower]
    rintro ⟨front, hfront⟩
    obtain ⟨start, ending, hkey, _, hending⟩ := List.map_eq_append_iff.mp hfront.symm
    have hmark := Text.eq_mark_of_map_foldChar
      (fun c hc => hsimple c (hkey ▸ List.mem_append_right start hc)) hending
    exact h.unmarked ⟨start, by rw [hkey, hmark]⟩

/-- **The append mark and case.** Taking the mark off the lower-case form of a text gives
    such a key where taking it off the text gives a spelling of the key. -/
theorem takeAppendMark_lower_iff {k : String} (hk : IsAsciiKey k) {cs : List Char}
    {append : Bool} :
    takeAppendMark (Text.lower (String.ofList cs)).toList = (k.toList, append) ↔
      ∃ s, takeAppendMark cs = (s, append) ∧ Spells s k := by
  have hmark : ∀ c ∈ appendMark, Text.isAscii c = true :=
    List.all_eq_true.mp (by decide)
  have hboth : ∀ c ∈ (String.ofList (k.toList ++ appendMark)).toList, Text.isAscii c = true := by
    intro c hc
    rw [String.toList_ofList] at hc
    rcases List.mem_append.mp hc with h | h
    · exact hk.ascii c h
    · exact hmark c h
  constructor
  · intro h
    rcases takeAppendMark_eq_iff.mp h with ⟨rfl, hlower⟩ | ⟨rfl, hlower, _⟩
    · have hlower' : Text.lower (String.ofList cs) = String.ofList (k.toList ++ appendMark) := by
        rw [← hlower, String.ofList_toList]
      obtain ⟨hsimple, hmap⟩ := (Text.lower_eq_iff hboth).mp hlower'
      rw [String.toList_ofList] at hmap
      obtain ⟨s, ending, rfl, hs, hending⟩ := List.map_eq_append_iff.mp hmap
      refine ⟨s, takeAppendMark_eq_iff.mpr (.inl ⟨rfl, ?_⟩),
        (Text.lower_eq_iff hk.ascii).mpr ⟨?_, hs⟩⟩
      · rw [List.append_cancel_left_eq]
        exact Text.eq_mark_of_map_foldChar (fun c hc => hsimple c (List.mem_append_right s hc))
          hending
      · exact fun c hc => hsimple c (List.mem_append_left ending hc)
    · have hspells : Spells cs k := String.toList_inj.mp hlower
      refine ⟨cs, takeAppendMark_eq_iff.mpr (.inr ⟨rfl, rfl, fun hends => hk.unmarked ?_⟩), hspells⟩
      rw [← ((Text.lower_eq_iff hk.ascii).mp hspells).2]
      exact hends.map Text.foldChar
  · intro hexists
    obtain ⟨s, htake, hspells⟩ := hexists
    obtain ⟨hsimple, hmap⟩ := (Text.lower_eq_iff hk.ascii).mp hspells
    rcases takeAppendMark_eq_iff.mp htake with ⟨rfl, rfl⟩ | ⟨rfl, rfl, _⟩
    · have hlower : Text.lower (String.ofList (s ++ appendMark)) =
          String.ofList (k.toList ++ appendMark) := by
        rw [Text.lower_eq_iff hboth, String.toList_ofList, List.map_append, hmap]
        refine ⟨fun c hc => ?_, rfl⟩
        rcases List.mem_append.mp hc with h | h
        · exact hsimple c h
        · exact .inl (hmark c h)
      rw [hlower, String.toList_ofList]
      exact takeAppendMark_eq_iff.mpr (.inl ⟨rfl, rfl⟩)
    · have hlower : Text.lower (String.ofList cs) = k := hspells
      rw [hlower]
      exact takeAppendMark_eq_iff.mpr (.inr ⟨rfl, rfl, hk.unmarked⟩)

end LayeredConfig
