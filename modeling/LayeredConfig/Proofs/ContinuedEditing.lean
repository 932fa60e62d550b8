import LayeredConfig.Proofs.ConfEditing

/-! # Editing an assignment that goes on

    The editor replaces the line that assigns a key and leaves the lines behind it as they
    are, also those that continue it. They then continue the line that was written: its
    value is what the edit says only where all of them are blank, and otherwise it is a
    text that holds a line feed.

    The lines behind those can change the value once more, in ways that the editor does
    not see, since it looks at one line at a time: two lines can assign the key together.

    **Main results.** `edit_single`: the lines of the edited text; `reads_edit_iff`: when
    the key reads the new value; `continuation_stays`: it does not, where a line is
    continued by another that says something.
-/

namespace LayeredConfig

/-! ## Logical lines -/

namespace Conf

/-- What continuations add to a line. -/
def continued (lines : List (List Char)) : List Char :=
  lines.flatMap fun line => '\n' :: Text.trimStart line

/-- A logical line goes as far as there are continuations. -/
theorem foldFrom_eq (current : List Char) (rest : List (List Char)) :
    foldFrom current rest =
      (current ++ continued (rest.takeWhile isContinuation)) ::
        foldLines (rest.dropWhile isContinuation) := by
  induction rest generalizing current with
  | nil => simp [foldFrom, continued, foldLines]
  | cons line more ih =>
    unfold foldFrom
    cases hline : isContinuation line with
    | true =>
      rw [if_pos rfl, ih, List.takeWhile_cons_of_pos hline, List.dropWhile_cons_of_pos hline]
      simp [continued]
    | false =>
      rw [if_neg Bool.false_ne_true, List.takeWhile_cons_of_neg (by simp [hline]),
        List.dropWhile_cons_of_neg (by simp [hline])]
      simp [continued, foldLines]

end Conf

namespace Edit.Conf

open LayeredConfig.Conf Source.Conf

/-! ## The lines of an edited text -/

/-- The lines before the first one that assigns a key. -/
def preceding (k : String) (lines : List (List Char)) : List (List Char) :=
  lines.takeWhile (!assigns k ·)

/-- What is left of the lines behind the first one that assigns a key. -/
def leftover (k : String) (lines : List (List Char)) : List (List Char) :=
  ((lines.dropWhile (!assigns k ·)).drop 1).filter (!assigns k ·)

/-- The lines that continue the one that is written for a key. -/
def continuations (k : String) (lines : List (List Char)) : List (List Char) :=
  (leftover k lines).takeWhile isContinuation

/-- The lines behind those. -/
def following (k : String) (lines : List (List Char)) : List (List Char) :=
  (leftover k lines).dropWhile isContinuation

section single

variable (change : Change)

theorem changeFor?_of_not_assigns {line : List Char} (h : assigns change.folded line = false) :
    changeFor? '=' [change] line = none :=
  changeFor?_eq_none_iff.mpr (List.forall_mem_singleton.mpr h)

theorem changeFor?_of_assigns {line : List Char} (h : assigns change.folded line = true) :
    ∃ exported key, changeFor? '=' [change] line = some (exported, key, change) := by
  obtain ⟨exported, key, hassigned, hspells⟩ := assigns_iff.mp h
  refine ⟨exported, key, changeFor?_eq_some_iff.mpr ⟨hassigned, ?_⟩⟩
  exact List.find?_cons_of_pos (beq_iff_eq.mpr hspells.symm)

/-- When a key has been written, all lines that assign it are dropped. -/
theorem editLines_of_written (lines : List (List Char)) :
    editLines '=' [change] [change.folded] lines =
      (lines.filter (!assigns change.folded ·), [change.folded]) := by
  induction lines with
  | nil => rfl
  | cons line rest ih =>
    cases hline : assigns change.folded line with
    | false =>
      rw [editLines_of_none rest (changeFor?_of_not_assigns change hline), ih,
        List.filter_cons_of_pos (by simp [hline])]
    | true =>
      obtain ⟨exported, key, hchange⟩ := changeFor?_of_assigns change hline
      rw [editLines_of_mem rest hchange List.mem_cons_self, ih,
        List.filter_cons_of_neg (by simp [hline])]

/-- The first line that assigns a key is replaced, if there is one. -/
theorem editLines_single (lines : List (List Char)) :
    (editLines '=' [change] [] lines = (lines, []) ∧ preceding change.folded lines = lines ∧
        leftover change.folded lines = []) ∨
      ∃ line ∈ lines, ∃ exported key,
        changeFor? '=' [change] line = some (exported, key, change) ∧
        editLines '=' [change] [] lines =
          (preceding change.folded lines ++ (assignmentLines '=' exported key change.value ++
            leftover change.folded lines), [change.folded]) := by
  induction lines with
  | nil => exact .inl ⟨rfl, rfl, rfl⟩
  | cons line rest ih =>
    unfold preceding leftover
    cases hline : assigns change.folded line with
    | false =>
      rw [editLines_of_none rest (changeFor?_of_not_assigns change hline),
        List.takeWhile_cons_of_pos (by simp [hline]), List.dropWhile_cons_of_pos (by simp [hline])]
      rcases ih with ⟨hsame, hall, hnone⟩ | ⟨other, hother, exported, key, hfound, hedited⟩
      · rw [hsame]
        exact .inl ⟨rfl, congrArg (line :: ·) hall, hnone⟩
      · rw [hedited]
        exact .inr ⟨other, List.mem_cons_of_mem line hother, exported, key, hfound, rfl⟩
    | true =>
      obtain ⟨exported, key, hchange⟩ := changeFor?_of_assigns change hline
      rw [editLines_of_not_mem rest hchange List.not_mem_nil, editLines_of_written,
        List.takeWhile_cons_of_neg (by simp [hline]), List.dropWhile_cons_of_neg (by simp [hline])]
      exact .inr ⟨line, List.mem_cons_self, exported, key, hchange, rfl⟩

end single

variable {k : String} {v : Value}

/-- A scalar is written as one line. -/
theorem assignmentLines_of_isLineScalar (hv : IsLineScalar v) (exported : Bool)
    (key : List Char) : assignmentLines '=' exported key v = [lineOf exported false key v] := by
  cases v with
  | array items => exact hv.elim
  | _ => rfl

/-- Where the key comes from that a value is written with: it was given with the value, or a
    line assigned it. -/
def WrittenWith (k : String) (content : List Char) (exported : Bool) (key : List Char) : Prop :=
  exported = false ∧ key = k.toList ∨
    ∃ line ∈ Text.lines content, assigned? '=' line = some (exported, key)

/-- **The lines of an edited text:** the original lines as far as none assigns the key, those
    of the value, and what is left of the original lines behind them. -/
theorem edit_single (hv : v.isNull = false) (content : List Char) :
    ∃ exported key, WrittenWith k content exported key ∧ Spells key (Text.lower k) ∧
      edit '=' content [(k, v)] =
        unlines (preceding (Text.lower k) (Text.lines content) ++
          (assignmentLines '=' exported key v ++
            leftover (Text.lower k) (Text.lines content))) := by
  have hchanges : changes [(k, v)] = [⟨Text.lower k, k, v⟩] := by
    unfold changes
    rw [List.filter_cons_of_pos (by simpa using hv)]
    rfl
  unfold edit
  rw [hchanges]
  dsimp only
  rcases editLines_single ⟨Text.lower k, k, v⟩ (Text.lines content) with
    ⟨hsame, hall, hnone⟩ | ⟨line, hline, exported, key, hfound, hedited⟩
  · -- No line assigns the key, so the new lines stand behind all others.
    refine ⟨false, k.toList, .inl ⟨rfl, rfl⟩, congrArg Text.lower String.ofList_toList, ?_⟩
    rw [hsame, hall, hnone]
    simp
  · obtain ⟨_, hspells⟩ := spells_of_changeFor? hfound
    have hassigned := (changeFor?_eq_some_iff.mp hfound).1
    refine ⟨exported, key, .inr ⟨line, hline, hassigned⟩, hspells, ?_⟩
    rw [hedited]
    simp

/-! ## What the key reads -/

/-- What continuations add is blank where all of them are. -/
theorem blank_continued_iff (lines : List (List Char)) :
    (∀ c ∈ continued (lines.map Text.dropReturn), Text.isBlank c = true) ↔
      ∀ line ∈ lines, Text.trim line = [] := by
  have hone : ∀ line, Text.trim line = [] ↔
      ∀ c ∈ Text.trimStart (Text.dropReturn line), Text.isBlank c = true := by
    intro line
    rw [← Text.trim_dropReturn, Text.trim_eq_nil_iff]
    constructor
    · intro h
      rw [Text.trimStart_of_blank h]
      exact fun c hc => (nomatch hc)
    · intro h c hc
      rw [← List.takeWhile_append_dropWhile (p := Text.isBlank) (l := Text.dropReturn line)] at hc
      rcases List.mem_append.mp hc with hc | hc
      · exact List.mem_takeWhile_imp hc
      · exact h c hc
  unfold continued
  constructor
  · intro h line hline
    rw [hone]
    intro c hc
    apply h
    rw [List.mem_flatMap]
    exact ⟨_, List.mem_map_of_mem hline, List.mem_cons_of_mem _ hc⟩
  · intro h c hc
    obtain ⟨line', hline', hmem⟩ := List.mem_flatMap.mp hc
    obtain ⟨line, hline, rfl⟩ := List.mem_map.mp hline'
    rcases List.mem_cons.mp hmem with rfl | hmem
    · decide
    · exact (hone line).mp (h line hline) c hmem

/-- Lines that assign neither a key nor anything beneath it keep what it reads. -/
theorem get?_assignLines_of_apart {lines : List (List Char)} {key : String}
    (h : ∀ a ∈ lines.filterMap (Assignment.ofLine? .standard), ¬ [key] <+: pathOf a)
    (m : Entries Value) : (assignLines m lines).get? key = m.get? key := by
  unfold assignLines
  generalize lines.filterMap (Assignment.ofLine? .standard) = as at h
  induction as generalizing m with
  | nil => rfl
  | cons a rest ih =>
    rw [List.foldl_cons, ih _ fun b hb => h b (List.mem_cons_of_mem a hb),
      get?_assignTo_of_apart (h a List.mem_cons_self)]

section reading

variable (hk : PlainKey k)
include hk

/-- What a line that assigns a key makes it read, whatever stands behind the value. -/
theorem get?_assignLines_append {key : List Char} (hspells : Spells key k) (exported : Bool)
    (more : List Char) (m : Entries Value) :
    ∃ text quote, Scalar.unquote Options.standard.quotes (Text.trim (scalarText v ++ more)) =
        (text, quote) ∧
      (assignLines m [lineOf exported false key v ++ more]).get? k =
        some (((⟨k, false, text, quote⟩ : Assignment).formula .standard).value
          (.nested m .standard)) := by
  have hjoined : lineOf exported false key v ++ more =
      startOf exported (if false then key ++ appendMark else key) ++
        '=' :: (scalarText v ++ more) := by
    unfold lineOf
    simp
  have hread := ofLine?_start hk hspells exported false (scalarText v ++ more)
  refine ⟨_, _, rfl, ?_⟩
  rw [hjoined]
  unfold assignLines
  rw [List.filterMap_cons_some hread]
  unfold List.filterMap List.foldl assignTo pathOf
  dsimp only
  rw [hk.split_standard]
  exact Entries.get?_insert_self m k _

/-- **The logical line** that is written makes the key read the value, or else a text that
    holds a line feed. -/
theorem get?_assignLines_continued {key : List Char} (hspells : Spells key k)
    (hv : IsLineScalar v) (hdollar : ∀ s, v = .string s → '$' ∉ s.toList) (exported : Bool)
    (lines : List (List Char)) (m : Entries Value) :
    ((∀ line ∈ lines, Text.trim line = []) →
      (assignLines m
        [lineOf exported false key v ++ continued (lines.map Text.dropReturn)]).get? k =
        some v) ∧
    (¬ (∀ line ∈ lines, Text.trim line = []) →
      ∃ s : String, '\n' ∈ s.toList ∧
        (assignLines m
          [lineOf exported false key v ++ continued (lines.map Text.dropReturn)]).get? k =
          some (.string s)) := by
  have hwritten := written_scalarText hv
  obtain ⟨text, quote, hunquote, hset⟩ := get?_assignLines_append (v := v) hk hspells exported
    (continued (lines.map Text.dropReturn)) m
  rw [hset]
  constructor
  · intro hblank
    rw [Text.trim_append_of_blank ((blank_continued_iff lines).mpr hblank)] at hunquote
    rw [hwritten.value_eq (a := ⟨k, false, text, quote⟩) hunquote]
  · intro hmore
    -- Something that is not blank stands behind the first line feed.
    rw [← blank_continued_iff] at hmore
    cases lines with
    | nil => exact absurd (fun c hc => (nomatch hc)) hmore
    | cons line rest =>
      have hstart : continued ((line :: rest).map Text.dropReturn) =
          '\n' :: (Text.trimStart (Text.dropReturn line) ++ continued (rest.map Text.dropReturn)) :=
        rfl
      rw [hstart] at hmore hunquote
      have hrest : ∃ c ∈ Text.trimStart (Text.dropReturn line) ++
          continued (rest.map Text.dropReturn), Text.isBlank c = false := by
        by_contra hnone
        apply hmore
        intro c hc
        rcases List.mem_cons.mp hc with rfl | hc
        · decide
        · by_contra hblank
          exact hnone ⟨c, hc, by simpa using hblank⟩
      obtain ⟨s, hs, hnewline⟩ := hwritten.value_of_more (dollar_not_mem_scalarText hv hdollar)
        hrest (a := ⟨k, false, text, quote⟩) hunquote (.nested m .standard)
      exact ⟨s, hnewline, congrArg some hs⟩

end reading

/-! ## What the edited text loads to -/

theorem mem_of_mem_preceding {lines : List (List Char)} {line : List Char}
    (h : line ∈ preceding k lines) : line ∈ lines :=
  (List.takeWhile_sublist _).subset h

theorem mem_of_mem_leftover {lines : List (List Char)} {line : List Char}
    (h : line ∈ leftover k lines) : line ∈ lines := by
  have hdropped := List.mem_of_mem_drop (List.mem_of_mem_filter h)
  exact (List.dropWhile_sublist _).subset hdropped

/-- The lines behind the continuations keep what the key reads, if they assign neither the
    key nor anything beneath it. -/
theorem get?_assignLines_following (hk : PlainKey k) {lines : List (List Char)}
    (hlines : ∀ line ∈ lines, '\n' ∉ line)
    (hfollowing : ∀ key ∈ (Source.conf (unlines (following k lines)) .standard).keys false,
      key ≠ k ∧ ¬ (Addressing.paths .standard).Beneath key k)
    (m : Entries Value) :
    (assignLines m (foldLines ((following k lines).map Text.dropReturn))).get? k = m.get? k := by
  apply get?_assignLines_of_apart
  intro a ha hstarts
  have hunlines : ∀ line ∈ following k lines, '\n' ∉ line := by
    intro line hmem
    exact hlines line (mem_of_mem_leftover ((List.dropWhile_sublist _).subset hmem))
  have hassigned : a ∈ Source.Conf.assignments .standard (unlines (following k lines)) := by
    rw [assignments_unlines hunlines]
    exact ha
  obtain ⟨hne, hbeneath⟩ := hfollowing a.key
    (List.mem_map_of_mem (List.mem_filter.mpr ⟨hassigned, rfl⟩))
  apply hbeneath
  rw [Addressing.beneath_iff]
  show Separator.standard.split _ <+: pathOf a ∧ pathOf a ≠ _
  rw [hk.split_standard]
  exact ⟨hstarts, fun heq => hne (eq_of_split_standard (heq.trans hk.split_standard))⟩

/-- **The tree of an edited text** is made by the logical lines before the one that is
    written, by this one with its continuations, and by those that follow. -/
theorem exists_treeOf_edit_single (hk : PlainKey k) (hv : IsLineScalar v) (content : List Char) :
    ∃ before exported key, Spells key (Text.lower k) ∧
      treeOf (edit '=' content [(k, v)]) =
        assignLines (assignLines (assignLines [] before)
          [lineOf exported false key v ++ continued
            ((continuations (Text.lower k) (Text.lines content)).map Text.dropReturn)])
          (foldLines ((following (Text.lower k) (Text.lines content)).map Text.dropReturn)) := by
  obtain ⟨exported, key, _, hspells, hedit⟩ :=
    edit_single (k := k) hv.isLineValue.isNull content
  have hone := assignmentLines_of_isLineScalar hv exported key
  rw [hone, List.singleton_append] at hedit
  refine ⟨foldLines ((preceding (Text.lower k) (Text.lines content)).map Text.dropReturn),
    exported, key, hspells, ?_⟩
  have hline : '\n' ∉ lineOf exported false key v ∧
      isContinuation (lineOf exported false key v) = false := by
    obtain ⟨hkey, hnewline⟩ := isWritable_of_spells hk.lower hspells exported
    apply assignmentLines_apart hkey hnewline hv.isLineValue
    rw [hone]
    exact List.mem_singleton_self _
  have hnewline : ∀ line ∈ preceding (Text.lower k) (Text.lines content) ++
      lineOf exported false key v :: leftover (Text.lower k) (Text.lines content),
      '\n' ∉ line := by
    intro line hmem
    rcases List.mem_append.mp hmem with hmem | hmem
    · exact Text.newline_not_mem_of_mem_lines (mem_of_mem_preceding hmem)
    · rcases List.mem_cons.mp hmem with rfl | hmem
      · exact hline.1
      · exact Text.newline_not_mem_of_mem_lines (mem_of_mem_leftover hmem)
  have hreturn : isContinuation ∘ Text.dropReturn = isContinuation :=
    funext isContinuation_dropReturn
  rw [hedit]
  unfold treeOf
  rw [assignments_unlines hnewline, List.map_append, List.map_cons,
    dropReturn_lineOf exported false key v, foldLines_append_cons hline.2, foldFrom_eq,
    List.takeWhile_map, List.dropWhile_map, hreturn]
  show assignLines [] _ = _
  rw [assignLines_append, assignLines_cons]
  rfl

/-- **When an edited key reads its new value.** Take any text and an edit of a plain key to
    a scalar without references, and let the lines behind the one that is written, and
    behind those that continue it, assign neither the key nor anything beneath it. Then
    the key reads the new value exactly where all continuations are blank. Otherwise it
    reads a text that holds a line feed. -/
theorem reads_edit_iff (files : Snapshot) (content : List Char) (k : String) (v : Value)
    (hk : PlainKey k) (hv : IsLineScalar v) (hdollar : ∀ s, v = .string s → '$' ∉ s.toList)
    (hfollowing : ∀ key ∈ (Source.conf (unlines (following (Text.lower k) (Text.lines content)))
        .standard).keys false,
      key ≠ Text.lower k ∧ ¬ (Addressing.paths .standard).Beneath key (Text.lower k)) :
    ∃ edited s,
      (Editor.conf '=').edit content [(k, v)] = .ok edited ∧
      (Source.conf edited .standard).process files
        (Session.fresh (.nested [] .standard)) = .ok s ∧
      (s.store.get? (Text.lower k) = some v ↔
        ∀ line ∈ continuations (Text.lower k) (Text.lines content), Text.trim line = []) ∧
      (s.store.get? (Text.lower k) ≠ some v →
        ∃ t : String, '\n' ∈ t.toList ∧ s.store.get? (Text.lower k) = some (.string t)) := by
  have hplain := hk.lower
  obtain ⟨front, exported, key, hspells, htree⟩ := exists_treeOf_edit_single hk hv content
  obtain ⟨s, hs, hstore⟩ := Source.Conf.process_standard files (edit '=' content [(k, v)])
  refine ⟨edit '=' content [(k, v)], s, rfl, hs, ?_⟩
  have hget : s.store.get? (Text.lower k) = (treeOf (edit '=' content [(k, v)])).get?
      (Text.lower k) := by
    rw [hstore]
    show Entries.at? _ (Separator.standard.split (Text.lower k)) = _
    rw [hplain.split_standard]
    rfl
  have hlines : ∀ line ∈ Text.lines content, '\n' ∉ line :=
    fun line hmem => Text.newline_not_mem_of_mem_lines hmem
  rw [hget, htree, get?_assignLines_following hplain hlines hfollowing]
  obtain ⟨hblank, hmore⟩ := get?_assignLines_continued hplain hspells hv hdollar exported
    (continuations (Text.lower k) (Text.lines content)) (assignLines [] front)
  -- A value that a line can hold has no line feed.
  have hne : ∀ t : String, '\n' ∈ t.toList → v ≠ .string t := by
    intro t ht heq
    subst heq
    exact hv.1 ht
  constructor
  · constructor
    · intro hread
      by_contra hnot
      obtain ⟨t, ht, hreads⟩ := hmore hnot
      exact hne t ht (Option.some.inj (hread.symm.trans hreads))
    · exact hblank
  · intro hread
    exact hmore fun hall => hread (hblank hall)

/-- A port reads its new value, since the line that continues it is blank. -/
theorem reads_edit_iff_behind_continued :
    ∃ edited s,
      (Editor.conf '=').edit "motd=one\n two\nport=1\n\t\n".toList
        [("Port", .bool true)] = .ok edited ∧
      (Source.conf edited .standard).process ⟨fun _ => none⟩
        (Session.fresh (.nested [] .standard)) = .ok s ∧
      s.store.get? "port" = some (.bool true) := by
  obtain ⟨edited, s, hedit, hs, hread, _⟩ := reads_edit_iff ⟨fun _ => none⟩
    "motd=one\n two\nport=1\n\t\n".toList "Port" (.bool true) (by decide +kernel)
    (by decide +kernel) nofun (by decide +kernel)
  have hlower : Text.lower "Port" = "port" := by decide +kernel
  rw [hlower] at hread
  exact ⟨edited, s, hedit, hs, hread.mpr (by decide +kernel)⟩

/-- **A continuation stays** where it was when the line before it is replaced, so that the
    edited key does not read its new value. -/
theorem continuation_stays :
    ((Source.conf "A=1\n  more\n".toList .standard).keys false = ["a"]) ∧
    ∃ edited s,
      (Editor.conf '=').edit "A=1\n  more\n".toList
        [("a", .number (.int 5 (by decide)))] = .ok edited ∧
      (Source.conf edited .standard).process ⟨fun _ => none⟩
        (Session.fresh (.nested [] .standard)) = .ok s ∧
      s.store.get? "a" = some (.string "5\nmore") := by
  refine ⟨by decide +kernel, _, _, rfl, Source.process_eq _ _ _, ?_⟩
  decide +kernel

end Edit.Conf

end LayeredConfig
