import LayeredConfig.Proofs.AppendedLists
import LayeredConfig.Proofs.ReferencedKeys
import LayeredConfig.Proofs.ScalarText

/-! # Scalars that are assigned on a line of their own

    A scalar that an edit writes on a line is meant to be read back from it. There are two
    kinds of scalars for which there is no way of writing them. Digits are read as an integer
    only where it fits 64 bits with a sign, so an integer beyond that becomes a floating-point
    number. And a text that holds a single quote has to go between double quotes, where its
    references are expanded; so it is read back where this leaves it as it is, and that may
    depend on what the settings are.

    All other scalars are read back, whatever there was before.

    **Main result.** `process_scalarLine`.
-/

namespace LayeredConfig

/-! ## How scalars are written -/

namespace Edit.Conf

/-- A value of one line that is neither a list nor an object nor a floating-point number. -/
def IsSimple : Value → Prop
  | .null | .bool _ | .number (.int _ _) => True
  | .string s => '\n' ∉ s.toList
  | .number (.float _) | .array _ | .object _ => False

/-- What a simple value is read as from the line that it is written on: an integer as what its
    digits are, and a text with a single quote as what it is after its references have been
    expanded. -/
def readAs (store : Store) : Value → Value
  | .number (.int i _) => Scalar.typed (Number.intText i)
  | .string s =>
    if '\'' ∈ s.toList then
      .string (String.ofList (Reference.expandShell store true s.toList).text)
    else .string s
  | v => v

/-- Whether a simple value is read as itself. -/
def ReadsBack (store : Store) : Value → Prop
  | .number (.int i _) => i < 9223372036854775808
  | .string s => '\'' ∈ s.toList → (Reference.expandShell store true s.toList).text = s.toList
  | _ => True

/-- How a simple value is written: as it is read, or as digits that need not be an integer to
    the reader, or between double quotes for want of others. -/
inductive SimpleText : Value → List Char → Prop where
  | written {v : Value} {text : List Char} (h : Written v text) (hline : '\n' ∉ text)
    (hsame : ∀ store, readAs store v = v) : SimpleText v text
  | digits (i : Int) (hfits : Number.Fits i) :
    SimpleText (.number (.int i hfits)) (Number.intText i)
  | expanded {s : String} (hline : '\n' ∉ s.toList) (hquote : '\'' ∈ s.toList) :
    SimpleText (.string s) ('"' :: (s.toList ++ ['"']))

/-- A text with a single quote goes between double quotes. -/
theorem quoted_of_mem {cs : List Char} (h : '\'' ∈ cs) : quoted cs = '"' :: (cs ++ ['"']) := by
  have hbare : isBare cs = false := by
    have hall : cs.all isBareChar = false := List.all_eq_false.mpr ⟨'\'', h, by decide⟩
    simp [isBare, hall]
  unfold quoted
  rw [hbare, List.contains_iff_mem.mpr h]
  simp

theorem simpleText_scalarText {v : Value} (hv : IsSimple v) : SimpleText v (scalarText v) := by
  cases v with
  | null =>
    have hnull : Written .null ['n', 'u', 'l', 'l'] :=
      .bare ['n', 'u', 'l', 'l'] (by decide) (List.all_eq_true.mp (by decide))
    exact .written hnull (by decide) fun _ => rfl
  | bool b =>
    have hb : IsLineScalar (.bool b) := trivial
    exact .written (written_scalarText hb) (newline_not_mem_scalarText hb) fun _ => rfl
  | number n =>
    cases n with
    | float x => exact hv.elim
    | int i hfits => exact .digits i hfits
  | string s =>
    by_cases hquote : '\'' ∈ s.toList
    · show SimpleText _ (quoted s.toList)
      rw [quoted_of_mem hquote]
      exact .expanded hv hquote
    · have hs : IsLineScalar (.string s) := ⟨hv, fun h => hquote h.1⟩
      exact .written (written_scalarText hs) (newline_not_mem_scalarText hs) fun _ => if_neg hquote
  | array items => exact hv.elim
  | object fields => exact hv.elim

/-! ## How they are read -/

/-- Digits of an integer beyond 64 bits with a sign are not read as that integer. -/
theorem typed_intText_ne {i : Int} (hfits : Number.Fits i) (h : 9223372036854775808 ≤ i) :
    Scalar.typed (Number.intText i) ≠ .number (.int i hfits) := by
  have hinteger : Scalar.integer? (Number.intText i) = none := by
    unfold Scalar.integer?
    rw [Scalar.decimalInt?_intText]
    simp only [Option.bind_eq_bind, Option.bind_some]
    rw [if_neg fun hrange => not_lt.mpr h hrange.2]
  have hfloat : Scalar.float? (Number.intText i) ≠ some (.int i hfits) := by
    intro hsome
    obtain ⟨_, _, hsome⟩ := Option.bind_eq_some_iff.mp hsome
    obtain ⟨_, _, hsome⟩ := Option.bind_eq_some_iff.mp hsome
    exact nomatch hsome
  unfold Scalar.typed
  rw [Scalar.word?_intText, hinteger, Option.none_or]
  cases hn : Scalar.float? (Number.intText i) with
  | none => exact fun heq => nomatch heq
  | some n =>
    rintro heq
    obtain rfl := Value.number.inj heq
    exact hfloat hn

/-- **Which simple values are read as themselves.** -/
theorem readAs_eq_iff {v : Value} (hv : IsSimple v) (store : Store) :
    readAs store v = v ↔ ReadsBack store v := by
  cases v with
  | null => exact iff_of_true rfl trivial
  | bool b => exact iff_of_true rfl trivial
  | number n =>
    cases n with
    | float x => exact hv.elim
    | int i hfits =>
      by_cases hi : i < 9223372036854775808
      · exact iff_of_true (Scalar.typed_intText hfits ⟨hfits.1, hi⟩) hi
      · exact iff_of_false (typed_intText_ne hfits (not_lt.mp hi)) hi
  | string s =>
    simp only [readAs, ReadsBack]
    by_cases hquote : '\'' ∈ s.toList
    · rw [if_pos hquote, Value.string.injEq, ← String.toList_inj, String.toList_ofList]
      exact ⟨fun hsame _ => hsame, fun hsame => hsame hquote⟩
    · exact iff_of_true (if_neg hquote) fun h => absurd h hquote
  | array items => exact hv.elim
  | object fields => exact hv.elim

namespace SimpleText

variable {v : Value} {text : List Char} (h : SimpleText v text)
include h

/-- What is written is read as it should be. -/
theorem value_eq {a : LayeredConfig.Conf.Assignment}
    (ha : Scalar.unquote Options.standard.quotes (Text.trim text) = (a.text, a.quote))
    (store : Store) : (a.formula .standard).value store = readAs store v := by
  cases h with
  | written hwritten _ hsame => rw [hwritten.value_eq ha, hsame]
  | digits i hfits => exact (written_intText i).value_eq ha store
  | @expanded s hline hquote =>
    rw [Text.trim_quoted (by decide), Scalar.unquote_double] at ha
    obtain ⟨htext, hdouble⟩ := Prod.mk.inj ha
    have hexpanded : readAs store (.string s) =
        .string (String.ofList (Reference.expandShell store true s.toList).text) := if_pos hquote
    rw [hexpanded]
    show a.valueOf .standard (a.expansion .standard store).text = _
    unfold LayeredConfig.Conf.Assignment.expansion LayeredConfig.Conf.Assignment.valueOf
    rw [← htext, ← hdouble]
    rfl

theorem newline_not_mem : '\n' ∉ text := by
  cases h with
  | written _ hline _ => exact hline
  | expanded hline _ => simp [hline]
  | digits i hfits =>
    intro hmem
    exact absurd ((bare_intText i).2 _ hmem) (by decide)

end SimpleText

end Edit.Conf

/-- A value without others in it is read where it was written. -/
theorem Store.get?_set_of_isScalar (s : Store) (key : String) {v : Value} (h : v.IsScalar) :
    (s.set key v).get? key = some v := by
  have hstored : s.addressing.stored v = v := by
    cases s with
    | caseless tree => exact (Value.Lowered.scalar h).lowerKeys_eq
    | _ => rfl
  rw [get?_set, hstored]
  exact Entries.at?_setAt_self _ (s.path_ne_nil key) _

namespace Source.Conf

open LayeredConfig.Conf

/-- A session in which an assignment file has written a value under a key. -/
def assigned (s : Session) (key : String) (v : Value) (names : List String) : Session :=
  { s with
    store := s.store.set key v
    tracker := ((s.tracker.push "<conf>").define key names).leave }

/-- What a line of a name, an equals sign and a text assigns. -/
def wordAssignment (name : String) (text : List Char) : Assignment :=
  ⟨assignedKey name, false, (Scalar.unquote Options.standard.quotes (Text.trim text)).1,
    (Scalar.unquote Options.standard.quotes (Text.trim text)).2⟩

/-- A line of a name, an equals sign and a text writes the value of the text, and nothing
    else, without a queue. -/
theorem process_word (files : Snapshot) {name : String} (hname : IsIdentifier name)
    {text : List Char} (hline : '\n' ∉ text) {s : Session} (hqueue : s.queue = none) :
    (Source.conf (name.toList ++ '=' :: text) .standard).process files s =
      .ok (assigned s (assignedKey name)
        (((wordAssignment name text).formula .standard).value s.store)
        ((wordAssignment name text).formula .standard).names) := by
  have hnewline : '\n' ∉ name.toList ++ '=' :: text := by
    have hapart : '\n' ∉ name.toList := fun hmem => absurd (hname.words _ hmem) (by decide)
    simp [hapart, hline]
  have hassignments : assignments .standard (name.toList ++ '=' :: text) =
      [wordAssignment name text] := by
    show (foldLines (Text.lines (name.toList ++ '=' :: text))).filterMap _ = _
    rw [Text.lines_of_not_mem (by simp) hnewline]
    show List.filterMap _ [name.toList ++ '=' :: text] = _
    rw [List.filterMap_cons_some (ofLine?_word hname.ne_nil hname.words text), List.filterMap_nil]
    rfl
  have hsteps : Conf.steps .standard (name.toList ++ '=' :: text) s.queue.isSome =
      Step.within "<conf>" [.assign true (assignedKey name)
        ((wordAssignment name text).formula .standard)] := by
    unfold Conf.steps
    rw [hassignments, hqueue]
    rfl
  have hprocess := Source.process_eq files (.conf (name.toList ++ '=' :: text) .standard) s
  rw [show Source.steps s.queue.isSome (.conf (name.toList ++ '=' :: text) .standard) =
    Conf.steps .standard (name.toList ++ '=' :: text) s.queue.isSome from rfl, hsteps,
    Session.runAll_within] at hprocess
  exact hprocess

/-- A line of a name, an equals sign and a text stores the value of the text, without a
    queue. -/
theorem exists_process_word (files : Snapshot) {name : String} (hname : IsIdentifier name)
    {text : List Char} (hline : '\n' ∉ text) {s : Session} (hqueue : s.queue = none) :
    ∃ s' a, (Source.conf (name.toList ++ '=' :: text) .standard).process files s = .ok s' ∧
      Scalar.unquote Options.standard.quotes (Text.trim text) = (a.text, a.quote) ∧
      s'.store =
        s.store.set (assignedKey name) ((Assignment.formula .standard a).value s.store) :=
  ⟨_, wordAssignment name text, process_word files hname hline hqueue, rfl, rfl⟩

/-- **A scalar on a line of its own.** Without a queue, a line of a name, an equals sign and a
    simple value as it is written stores what the value is read as under the name, whatever
    there was before. That is the value itself, if it is null or a truth value; if it is an
    integer that fits 64 bits with its sign; and if it is a text without a single quote, or one
    that is the same after its references have been expanded with what the store held. It is
    another value in all other cases. -/
theorem process_scalarLine (files : Snapshot) {name : String} (hname : IsIdentifier name)
    {v : Value} (hv : Edit.Conf.IsSimple v) {s : Session} (hqueue : s.queue = none) :
    ∃ s', (Source.conf (name.toList ++ '=' :: Edit.Conf.scalarText v) .standard).process files s =
        .ok s' ∧
      s'.store.get? (assignedKey name) = some (Edit.Conf.readAs s.store v) ∧
      (Edit.Conf.readAs s.store v = v ↔ Edit.Conf.ReadsBack s.store v) := by
  have htext := Edit.Conf.simpleText_scalarText hv
  obtain ⟨s', a, hprocess, ha, hstore⟩ :=
    exists_process_word files hname htext.newline_not_mem hqueue
  refine ⟨s', hprocess, ?_, Edit.Conf.readAs_eq_iff hv s.store⟩
  have hscalar : ((a.formula .standard).value s.store).IsScalar := a.isScalar_valueOf .standard _
  rw [hstore, Store.get?_set_of_isScalar s.store _ hscalar, htext.value_eq ha]

/-- A text with both kinds of quotes is read back, with all that stands between them. -/
theorem process_scalarLine_of_quotes :
    ∃ s', (Source.conf ("NAME".toList ++ '=' :: Edit.Conf.scalarText (.string "it's \"5\" "))
        .standard).process ⟨fun _ => none⟩ (Session.fresh (.flat [])) = .ok s' ∧
      s'.store.get? "name" = some (.string "it's \"5\" ") := by
  have hidentifier : IsIdentifier "NAME" := ⟨'N', "AME".toList, by decide, by decide, by decide⟩
  have hsimple : Edit.Conf.IsSimple (.string "it's \"5\" ") :=
    show '\n' ∉ "it's \"5\" ".toList by decide
  obtain ⟨s', hprocess, hread, hback⟩ := process_scalarLine ⟨fun _ => none⟩ hidentifier hsimple
    (s := Session.fresh (.flat [])) rfl
  rw [hback.mpr fun _ => by decide +kernel] at hread
  exact ⟨s', hprocess, hread⟩

/-- **A text with a quote in it loses its references**, and the largest integer becomes another
    number. -/
theorem written_scalars_change :
    (∃ s', (Source.conf ("a".toList ++ '=' :: Edit.Conf.scalarText (.string "it's $x"))
        .standard).process ⟨fun _ => none⟩ (Session.fresh (.nested [] .standard)) = .ok s' ∧
      s'.store.get? "a" = some (.string "it's ")) ∧
    ∃ s', (Source.conf ("a".toList ++ '=' :: Edit.Conf.scalarText
        (.number (.int 18446744073709551615 (by decide)))) .standard).process
        ⟨fun _ => none⟩ (Session.fresh (.nested [] .standard)) = .ok s' ∧
      s'.store.get? "a" ≠ some (.number (.int 18446744073709551615 (by decide))) := by
  refine ⟨⟨_, rfl, ?_⟩, _, rfl, ?_⟩ <;> decide +kernel

end Source.Conf

end LayeredConfig
