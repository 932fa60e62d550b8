import LayeredConfig.Proofs.ConfTree
import LayeredConfig.Proofs.IndependentSources
import LayeredConfig.Text.LowerTwice
import LayeredConfig.Proofs.TokenLexemes

/-! # References to assigned keys

    A name is assigned on one line and referred to on the next. Both are lower-cased. But the
    assigned key has its rows of underscores rewritten as well, and the name of a reference
    has not. So the reference reads what was assigned exactly where there is nothing to
    rewrite, that is, where the name has no two underscores in a row.

    For other names the assigned key holds a mark, a colon or a backslash, which no name
    holds, and rewriting makes no key longer. So its path and that of the name never meet:
    the reference reads what was there before, whatever has been assigned, and makes its
    name external.

    **Main result.** `process_readBack`.
-/

namespace LayeredConfig

open Reference

/-! ## Identifiers -/

/-- A letter or an underscore, and behind it letters, digits and underscores. -/
def IsIdentifier (name : String) : Prop :=
  ∃ c rest, name.toList = c :: rest ∧ beginsName c = true ∧ rest.all continuesName = true

/-- Whether a name has two underscores in a row. -/
def Doubled (name : String) : Prop := ['_', '_'] <:+: name.toList

instance (name : String) : Decidable (Doubled name) :=
  inferInstanceAs (Decidable (_ <:+: _))

theorem isWordChar_of_continuesName {c : Char} (h : continuesName c = true) :
    isWordChar c = true := by
  unfold continuesName beginsName at h
  unfold isWordChar Char.isAlphanum
  simp only [Bool.or_eq_true] at h ⊢
  rcases h with (h | h) | h
  · exact .inl (.inl h)
  · exact .inr h
  · exact .inl (.inr h)

theorem continuesName_of_beginsName {c : Char} (h : beginsName c = true) :
    continuesName c = true := by
  unfold continuesName
  rw [h, Bool.true_or]

namespace IsIdentifier

variable {name : String} (h : IsIdentifier name)
include h

theorem ne_nil : name.toList ≠ [] := by
  obtain ⟨c, rest, hname, _⟩ := h
  simp [hname]

theorem words : ∀ c ∈ name.toList, isWordChar c = true := by
  obtain ⟨c, rest, hname, hfirst, hrest⟩ := h
  rw [hname]
  refine List.forall_mem_cons.mpr ⟨?_, fun d hd => ?_⟩
  · exact isWordChar_of_continuesName (continuesName_of_beginsName hfirst)
  · exact isWordChar_of_continuesName (List.all_eq_true.mp hrest d hd)

end IsIdentifier

namespace Reference

/-- A dollar sign and an identifier are one token. -/
theorem shellPieces_identifier {name : String} (h : IsIdentifier name) :
    shellPieces ('$' :: name.toList) = [.token ⟨name.toList, none⟩] := by
  obtain ⟨c, rest, hname, hfirst, hrest⟩ := h
  -- The token goes on as long as the identifier does, and that is to the end.
  have htake : rest.takeWhile continuesName = rest :=
    List.takeWhile_eq_self_iff.mpr (List.all_eq_true.mp hrest)
  have hdrop : rest.dropWhile continuesName = [] :=
    List.dropWhile_eq_nil_iff.mpr (List.all_eq_true.mp hrest)
  have htoken := shellToken?_bare hfirst rest
  rw [htake, hdrop] at htoken
  rw [shellPieces, hname, ← List.append_nil ('$' :: c :: rest)]
  exact piecesFrom_of_some (List.cons_ne_nil _ _) (by rwa [List.append_nil])

theorem expandShell_identifier {name : String} (h : IsIdentifier name) (store : Store) :
    expandShell store true ('$' :: name.toList) =
      ⟨shellText store true ⟨name.toList, none⟩, [Text.lower name]⟩ := by
  unfold expandShell
  rw [expand_eq, shellPieces_identifier h]
  simp [namesOf, Piece.expanded, Piece.reference?, shellName, List.eraseDups_cons]

end Reference

/-! ## The assigned key -/

/-- The key that is assigned under a name. -/
def assignedKey (name : String) : String :=
  String.ofList (rewriteNamespace (Text.lower name).toList)

/-- A text is read where it was written. -/
theorem Store.get?_set_string (s : Store) (key text : String) :
    (s.set key (.string text)).get? key = some (.string text) := by
  have hstored : s.addressing.stored (.string text) = .string text := by
    cases s <;> simp [Store.addressing, Addressing.stored, Value.lowerKeys]
  rw [get?_set, hstored]
  exact Entries.at?_setAt_self _ (s.path_ne_nil key) _

/-- A store in which paths, if it has any, are written with two colons. -/
def Addressing.IsStandard : Addressing → Prop
  | .paths separator => separator = .standard
  | .names => True
  | .caselessPaths separator => separator = .standard

section assigned

variable {name : String} (hwords : ∀ c ∈ name.toList, isWordChar c = true)
include hwords

/-- Without two underscores in a row, the name and the key are the same in lower case. -/
theorem assignedKey_of_single (h : ¬ Doubled name) : assignedKey name = Text.lower name := by
  have hsingle : ¬ ['_', '_'] <:+: (Text.lower name).toList := by
    rwa [doubled_lower_iff hwords]
  unfold assignedKey
  rw [rewriteNamespace_of_single hsingle, String.ofList_toList]

/-- With two of them, the key is not longer than the name, and it is another one. -/
theorem assignedKey_of_doubled (h : Doubled name) :
    (assignedKey name).toList.length ≤ (Text.lower name).toList.length ∧
      assignedKey name ≠ Text.lower name := by
  unfold assignedKey
  refine ⟨?_, fun heq => ?_⟩
  · rw [String.toList_ofList]
    exact length_rewriteNamespace_le _
  · have hkey : rewriteNamespace (Text.lower name).toList = (Text.lower name).toList := by
      rw [← String.toList_inj, String.toList_ofList] at heq
      exact heq
    have hmark := mark_mem_rewriteNamespace ((doubled_lower_iff hwords).mpr h)
    rw [hkey] at hmark
    rcases hmark with hmark | hmark
    · exact absurd (words_lower hwords _ hmark).1 (by decide)
    · exact absurd (words_lower hwords _ hmark).1 (by decide)

/-- The characters of an assigned key are in lower case. -/
theorem lower_of_mem_assignedKey :
    ∀ c ∈ (assignedKey name).toList, Text.isAscii c = true ∧ c.toLower = c := by
  intro c hc
  unfold assignedKey at hc
  rw [String.toList_ofList] at hc
  rcases mem_of_mem_rewriteNamespace hc with rfl | rfl | hmem
  · decide
  · decide
  · obtain ⟨hword, hlower⟩ := words_lower hwords c hmem
    exact ⟨isAscii_of_isWordChar hword, hlower⟩

/-- The path of a name in lower case is that one name. -/
theorem path_lower {a : Addressing} (ha : a.IsStandard) :
    a.path (Text.lower name) = [Text.lower name] := by
  have hsplit : Separator.standard.split (Text.lower name) = [Text.lower name] := by
    apply split_standard_of_not_mem
    intro hcolon
    exact absurd (words_lower hwords _ hcolon).1 (by decide)
  cases a with
  | paths separator =>
    obtain rfl : separator = .standard := ha
    exact hsplit
  | names => exact congrArg (fun key => [key]) (Text.lower_lower name)
  | caselessPaths separator =>
    obtain rfl : separator = .standard := ha
    show (Separator.standard.split (Text.lower name)).map Text.lower = _
    rw [hsplit, List.map_singleton, Text.lower_lower]

/-- The path of an assigned key is that of its parts, in all stores of paths. -/
theorem path_assignedKey {a : Addressing} (ha : a.IsStandard) :
    a.path (assignedKey name) = [assignedKey name] ∨
      a.path (assignedKey name) = Separator.standard.split (assignedKey name) := by
  have hlower := lower_of_mem_assignedKey hwords
  cases a with
  | paths separator =>
    obtain rfl : separator = .standard := ha
    exact .inr rfl
  | names => exact .inl (congrArg (fun key => [key]) (Text.lower_eq_self hlower))
  | caselessPaths separator =>
    obtain rfl : separator = .standard := ha
    right
    -- The parts are in lower case, as the key is that they are parts of.
    have hparts : ∀ part ∈ Separator.standard.split (assignedKey name), Text.lower part = part := by
      intro part hpart
      apply Text.lower_eq_self
      intro c hc
      rw [split_standard_eq] at hpart
      obtain ⟨piece, hpiece, rfl⟩ := List.mem_map.mp hpart
      rw [String.toList_ofList] at hc
      exact hlower c (Text.mem_of_mem_split (by decide) hpiece hc)
    exact (List.map_congr_left hparts).trans (List.map_id _)

/-- **The name of a doubled key does not lead to it**, nor to anything around it. -/
theorem not_related_assignedKey {a : Addressing} (ha : a.IsStandard) (h : Doubled name) :
    ¬ a.Related (assignedKey name) (Text.lower name) := by
  obtain ⟨hlength, hne⟩ := assignedKey_of_doubled hwords h
  unfold Addressing.Related
  rw [path_lower hwords ha]
  -- The paths could meet only in the first step.
  have hfirst : ∀ rest, a.path (assignedKey name) ≠ Text.lower name :: rest := by
    intro rest hpath
    rcases path_assignedKey hwords ha with hsingle | hsplit
    · rw [hsingle] at hpath
      exact hne (List.cons.inj hpath).1
    · rw [hsplit] at hpath
      rw [split_standard_eq] at hpath
      obtain ⟨part, parts, hparts, hpart, _⟩ := List.map_eq_cons_iff.mp hpath
      -- One part is the whole key, and of several the first is shorter than the key.
      by_cases hrest : parts = []
      · subst hrest
        have hkey := Text.eq_of_split_eq_singleton (by decide) hparts
        exact hne (by rw [← hpart, ← hkey, String.ofList_toList])
      · obtain ⟨after, hkey, _⟩ := Text.exists_of_split_eq_cons hparts hrest (by decide)
        have hcolons : 0 < Separator.standard.text.toList.length := by decide
        have hwhole := congrArg List.length hkey
        rw [← hpart, String.toList_ofList] at hlength
        simp only [List.length_append] at hwhole
        omega
  rintro (⟨rest, hprefix⟩ | ⟨rest, hprefix⟩)
  · obtain ⟨first, more, hcons⟩ := List.exists_cons_of_ne_nil (a.path_ne_nil (assignedKey name))
    rw [hcons] at hprefix
    exact hfirst more (hcons.trans (by rw [(List.cons.inj hprefix).1]))
  · exact hfirst rest hprefix.symm

end assigned

/-! ## The two lines -/

/-- A text between quotes has no blanks around it. -/
theorem Text.trim_quoted {quote : Char} (h : isBlank quote = false) (inner : List Char) :
    trim (quote :: (inner ++ [quote])) = quote :: (inner ++ [quote]) := by
  apply trim_eq_self
  · intro c hc
    rwa [← Option.some.inj hc]
  · intro c hc
    rw [← List.cons_append, List.getLast?_concat] at hc
    rwa [← Option.some.inj hc]

namespace Conf

/-- A line of a word, an equals sign and a text assigns the text under the word. -/
theorem ofLine?_word {name : String} (hne : name.toList ≠ [])
    (hwords : ∀ c ∈ name.toList, isWordChar c = true) (text : List Char) :
    Assignment.ofLine? .standard (name.toList ++ '=' :: text) =
      some ⟨assignedKey name, false, (Scalar.unquote Options.standard.quotes (Text.trim text)).1,
        (Scalar.unquote Options.standard.quotes (Text.trim text)).2⟩ := by
  have hapart : ∀ c ∈ name.toList, Text.isBlank c = false ∧ c ≠ '=' ∧ c ≠ '#' := by
    intro c hc
    obtain ⟨hblank, hequals, hhash, _⟩ := isWordChar_apart (hwords c hc)
    exact ⟨hblank, hequals, hhash⟩
  have htrim : Text.trim name.toList = name.toList := by
    apply Text.trim_eq_self
    · exact fun c hc => (hapart c (List.mem_of_mem_head? hc)).1
    · exact fun c hc => (hapart c (List.mem_of_mem_getLast? hc)).1
  have hunmarked : ¬ appendMark <:+ name.toList := fun hends =>
    absurd (hwords '[' (hends.subset (by decide))) (by decide)
  have hkey : IsAsciiKey name := ⟨fun c hc => isAscii_of_isWordChar (hwords c hc), hunmarked⟩
  have htake : takeAppendMark (Text.trim name.toList) = (name.toList, false) := by
    rw [htrim]
    exact takeAppendMark_eq_iff.mpr (.inr ⟨rfl, rfl, hunmarked⟩)
  have hparts := parts?_start (IsLineKey.isKeyText ⟨hne, hapart⟩ false) text
  have hspells : Spells name.toList (Text.lower name) := congrArg Text.lower String.ofList_toList
  show Assignment.ofLine? .standard (startOf false name.toList ++ '=' :: text) = _
  rw [ofLine?_of_parts hkey.lower hparts hspells htake, Text.trim_trimEnd]
  rfl

end Conf

namespace Source.Conf

open LayeredConfig.Conf

/-- Two lines: a name is assigned a text in single quotes, and `OUT` what the name reads. -/
def readBack (name : String) (v : List Char) : List Char :=
  Edit.Conf.unlines
    [name.toList ++ '=' :: '\'' :: (v ++ ['\'']),
     "OUT".toList ++ '=' :: '"' :: ('$' :: name.toList ++ ['"'])]

section readBack

variable {name : String} (hname : IsIdentifier name) {v : List Char} (hline : '\n' ∉ v)
include hname hline

theorem assignments_readBack :
    assignments .standard (readBack name v) =
      [⟨assignedKey name, false, v, some '\''⟩, ⟨"out", false, '$' :: name.toList, some '"'⟩] := by
  have hapart : ∀ c ∈ name.toList, c ≠ '\n' ∧ c ≠ ' ' ∧ c ≠ '\t' := by
    intro c hc
    obtain ⟨_, _, _, _, _, hspace, htab, hnewline, _⟩ := isWordChar_apart (hname.words c hc)
    exact ⟨hnewline, hspace, htab⟩
  have hnewline : '\n' ∉ name.toList := fun hmem => (hapart '\n' hmem).1 rfl
  have hlines : ∀ line ∈ [name.toList ++ '=' :: '\'' :: (v ++ ['\'']),
      "OUT".toList ++ '=' :: '"' :: ('$' :: name.toList ++ ['"'])],
      '\n' ∉ line ∧ isContinuation line = false := by
    rw [List.forall_mem_cons, List.forall_mem_singleton]
    refine ⟨⟨?_, ?_⟩, ?_, rfl⟩
    · simp [hnewline, hline]
    · obtain ⟨c, rest, hcons, _⟩ := hname
      have hc := hapart c (by simp [hcons])
      rw [hcons]
      simp [isContinuation, hc.2.1, hc.2.2]
    · simp [hnewline]
  have hout : assignedKey "OUT" = "out" := by decide
  have hwords : ∀ c ∈ "OUT".toList, isWordChar c = true := List.all_eq_true.mp (by decide)
  unfold readBack
  rw [assignments_unlines_of_none hlines,
    List.filterMap_cons_some (ofLine?_word hname.ne_nil hname.words _),
    List.filterMap_cons_some (ofLine?_word (by decide) hwords _), List.filterMap_nil,
    Text.trim_quoted (by decide), Text.trim_quoted (by decide), Scalar.unquote_single,
    Scalar.unquote_double, hout]

/-- What the two lines leave, without a queue: what was assigned, and under `out` what the
    name read then; the name is used once the assigned key has been defined. -/
theorem exists_process_readBack (files : Snapshot) {s : Session} (hqueue : s.queue = none) :
    ∃ s' assigned, (Source.conf (readBack name v) .standard).process files s = .ok s' ∧
      assigned = s.store.set (assignedKey name) (.string (String.ofList v)) ∧
      s'.store = assigned.set "out"
        (.string (String.ofList (shellText assigned true ⟨name.toList, none⟩))) ∧
      s'.tracker.externals = (((s.tracker.push "<conf>").define (assignedKey name) []).define "out"
        [Text.lower name]).externals := by
  have hvalue : ∀ store, (Assignment.formula .standard
      ⟨"out", false, '$' :: name.toList, some '"'⟩).value store =
        .string (String.ofList (shellText store true ⟨name.toList, none⟩)) := by
    intro store
    show Value.string (String.ofList (expandShell store true ('$' :: name.toList)).text) = _
    rw [expandShell_identifier hname]
  have hnames : (Assignment.formula .standard
      ⟨"out", false, '$' :: name.toList, some '"'⟩).names = [Text.lower name] := by
    show (expandShell (.flat []) true ('$' :: name.toList)).names = _
    rw [expandShell_identifier hname]
  have hsteps : Conf.steps .standard (readBack name v) s.queue.isSome = Step.within "<conf>"
      [.assign true (assignedKey name) (Assignment.formula .standard
        ⟨assignedKey name, false, v, some '\''⟩),
       .assign true "out" (Assignment.formula .standard
        ⟨"out", false, '$' :: name.toList, some '"'⟩)] := by
    unfold Conf.steps
    rw [assignments_readBack hname hline, hqueue]
    rfl
  have hprocess := Source.process_eq files (.conf (readBack name v) .standard) s
  rw [show Source.steps s.queue.isSome (.conf (readBack name v) .standard) =
    Conf.steps .standard (readBack name v) s.queue.isSome from rfl, hsteps,
    Session.runAll_within] at hprocess
  refine ⟨_, s.store.set (assignedKey name) (.string (String.ofList v)), hprocess, rfl, ?_, ?_⟩
  · rw [← hvalue]
    rfl
  · show (Tracker.leave _).externals = _
    rw [Tracker.leave_eq, ← hnames]
    rfl

end readBack

/-- A name reads what has been assigned under it, if that is not empty. -/
theorem shellText_set_self {s : Store} {name : String} {v : List Char} (hv : v ≠ []) :
    shellText (s.set (Text.lower name) (.string (String.ofList v))) true ⟨name.toList, none⟩ =
      v := by
  have hread : (s.set (Text.lower name) (.string (String.ofList v))).get? (Text.lower name) =
      some (.string (String.ofList v)) := s.get?_set_string _ _
  have hfilled : Option.filter (fun w : Value => !w.isEmpty) (some (.string (String.ofList v))) =
      some (.string (String.ofList v)) := by
    simp [Option.filter, Value.isEmpty, hv]
  unfold shellText shellName
  rw [if_pos rfl, String.ofList_toList, hread, hfilled]
  exact String.toList_ofList

/-- **Referring to what has been assigned.** A name is assigned a text, and `OUT` is made from
    the name. Without two underscores in a row in the name, `out` reads the text, and the
    name is not external. With two of them, `out` reads what the name read before, whatever
    the text is, and the name is external if it was or if nothing had defined it. -/
theorem process_readBack (files : Snapshot) {name : String} (hname : IsIdentifier name)
    {v : List Char} (hv : v ≠ []) (hline : '\n' ∉ v) {s : Session} (hqueue : s.queue = none)
    (hstandard : s.store.addressing.IsStandard) :
    ∃ s', (Source.conf (readBack name v) .standard).process files s = .ok s' ∧
      (¬ Doubled name →
        s'.store.get? "out" = some (.string (String.ofList v)) ∧
        Text.lower name ∉ s'.tracker.externals.keys) ∧
      (Doubled name →
        s'.store.get? "out" =
          some (.string (String.ofList (shellText s.store true ⟨name.toList, none⟩))) ∧
        (Text.lower name ∈ s'.tracker.externals.keys ↔ Text.lower name ∈ s.tracker.externals.keys ∨
          s.tracker.definitions.contains (Text.lower name) = false)) := by
  obtain ⟨s', assigned, hprocess, rfl, hstore, hexternals⟩ :=
    exists_process_readBack hname hline files hqueue
  refine ⟨s', hprocess, ?single, ?doubled⟩
  case single =>
    intro hsingle
    have hkey := assignedKey_of_single hname.words hsingle
    rw [hstore, hexternals, hkey, Store.get?_set_string, shellText_set_self hv,
      Entries.mem_keys_iff, Tracker.contains_externals_define, Tracker.contains_externals_define,
      Tracker.contains_definitions_define]
    simp
  case doubled =>
    intro hdoubled
    -- The assignment does not touch what the name reads.
    have hapart := not_related_assignedKey hname.words hstandard hdoubled
    have hne := (assignedKey_of_doubled hname.words hdoubled).2
    have hread : shellText (s.store.set (assignedKey name) (.string (String.ofList v))) true
        ⟨name.toList, none⟩ = shellText s.store true ⟨name.toList, none⟩ := by
      apply shellText_congr
      show (s.store.set _ _).get? (Text.lower (String.ofList name.toList)) = _
      rw [String.ofList_toList, Store.get?_set_of_not_related hapart]
      unfold shellName
      rw [if_pos rfl, String.ofList_toList]
    rw [hstore, hexternals, hread, Store.get?_set_string, Entries.mem_keys_iff,
      Entries.mem_keys_iff, Tracker.contains_externals_define, Tracker.contains_externals_define,
      Tracker.contains_definitions_define]
    simp [Ne.symm hne, Tracker.push]

/-- A name with single underscores reads what has been assigned under it. -/
theorem process_readBack_of_single :
    ∃ s', (Source.conf (readBack "PORT_1" "80".toList) .standard).process ⟨fun _ => none⟩
        (Session.fresh (.nested [] .standard)) = .ok s' ∧
      s'.store.get? "out" = some (.string "80") ∧ "port_1" ∉ s'.tracker.externals.keys := by
  have hidentifier : IsIdentifier "PORT_1" := ⟨'P', "ORT_1".toList, by decide, by decide, by decide⟩
  have hfilled : "80".toList ≠ [] := by decide
  obtain ⟨s', hprocess, hsingle, _⟩ := process_readBack ⟨fun _ => none⟩ hidentifier hfilled
    (by decide) (s := Session.fresh (.nested [] .standard)) rfl rfl
  obtain ⟨hout, hinternal⟩ := hsingle (by decide)
  exact ⟨s', hprocess, hout, hinternal⟩

/-- **A name with two underscores in a row** reads nothing, right behind the line that
    assigns it, and becomes external. -/
theorem doubled_name_reads_nothing :
    readBack "A__B" "v".toList = "A__B='v'\nOUT=\"$A__B\"\n".toList ∧
    ∃ s', (Source.conf (readBack "A__B" "v".toList) .standard).process ⟨fun _ => none⟩
        (Session.fresh (.nested [] .standard)) = .ok s' ∧
      s'.store.get? "out" = some (.string "") ∧ "a__b" ∈ s'.tracker.externals.keys := by
  refine ⟨by decide, _, rfl, ?_, ?_⟩ <;> decide +kernel

end Source.Conf

end LayeredConfig
