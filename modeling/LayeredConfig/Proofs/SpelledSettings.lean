import LayeredConfig.Proofs.AppendedLists
import LayeredConfig.Proofs.ReferencedKeys
import LayeredConfig.Proofs.RepeatedEditing

/-! # Editing a setting that is spelled in several ways

    A file can spell one setting in several ways: in any case, and with underscores in place of
    the marks of nesting. The editor knows a line by its key in lower case, and so it finds some
    of the spellings and not the others. Where it has found one, it takes all lines away that it
    knows for the key, and writes the value in place of the first of them; where it has found
    none, it writes the value at the end. The lines that spell the setting otherwise stay where
    they are, some before the written lines and some behind them.

    What the setting reads in the end comes from its lines in their order: a plain assignment
    replaces what was read before it, and an append line adds an item to it. So the lines that
    stay before the written ones count only for a list, which is added to the items that they
    leave. Behind the written lines nothing may be appended any more, and what is assigned must
    come to the same value.

    **Main results.** `at?_assignLines`: what a setting reads after lines; `reads_setting_iff`:
    when an edited setting reads its new value; `spelling_behind_wins`: it does not always.
-/

namespace LayeredConfig

/-! ## What a setting reads after lines -/

namespace Conf.Assignment

/-- The value of an assignment that refers to nothing. -/
def literal (a : Assignment) : Value := a.valueOf .standard a.text

theorem value_formula_of_not_mem {a : Assignment} (h : '$' ∉ a.text) (store : Store) :
    (a.formula .standard).value store = a.literal := by
  have hexpansion : (a.expansion .standard store).text = a.text := by
    unfold expansion
    split
    · rfl
    · exact Reference.text_expandShell_of_not_mem h store _
  show a.valueOf .standard (a.expansion .standard store).text = _
  rw [hexpansion]
  rfl

end Conf.Assignment

namespace Source.Conf

open LayeredConfig.Conf

/-- The assignments of a setting that stand in lines. -/
def assignmentsOf (key : String) (lines : List (List Char)) : List Assignment :=
  (lines.filterMap (Assignment.ofLine? .standard)).filter (·.key = key)

/-- What a setting reads after assignments of it that refer to nothing, by what it reads
    before. -/
def reading (read : Option Value) (as : List Assignment) : Option Value :=
  as.foldl (fun read a =>
    some (if a.append then .array (itemsOf read ++ [a.literal]) else a.literal)) read

theorem reading_cons (read : Option Value) (a : Assignment) (rest : List Assignment) :
    reading read (a :: rest) =
      reading (some (if a.append then .array (itemsOf read ++ [a.literal]) else a.literal)) rest :=
  rfl

/-- **A plain assignment** makes everything before it forgotten. -/
theorem reading_of_plain {as : List Assignment} (h : ∃ a ∈ as, a.append = false)
    (read other : Option Value) : reading read as = reading other as := by
  induction as generalizing read other with
  | nil =>
    obtain ⟨a, ha, _⟩ := h
    exact nomatch ha
  | cons a rest ih =>
    rw [reading_cons, reading_cons]
    cases happend : a.append with
    | false => rfl
    | true =>
      obtain ⟨b, hb, hplain⟩ := h
      apply ih
      refine ⟨b, (List.mem_cons.mp hb).resolve_left ?_, hplain⟩
      rintro rfl
      exact nomatch happend.symm.trans hplain

/-- **Append lines** alone add their items. -/
theorem reading_of_appends {as : List Assignment} (h : ∀ a ∈ as, a.append = true)
    (read : Option Value) : reading read as = Value.extended read (as.map (·.literal)) := by
  induction as generalizing read with
  | nil => rfl
  | cons a rest ih =>
    obtain ⟨ha, hrest⟩ := List.forall_mem_cons.mp h
    rw [reading_cons, ha, if_pos rfl, ih hrest, List.map_cons,
      ← Value.extended_of_ne_nil read (List.cons_ne_nil a.literal []), ← Value.extended_append]
    rfl

/-- A line that assigns nothing beneath a setting and nothing above it, and refers to
    nothing. -/
structure IsBeside (key : String) (line : List Char) : Prop where
  dollar : '$' ∉ line
  apart : ∀ a, Assignment.ofLine? .standard line = some a →
    ¬ (Addressing.paths .standard).Beneath a.key key ∧
      ¬ (Addressing.paths .standard).Beneath key a.key

/-- **Run.** What a setting reads after lines comes from the assignments of it. -/
theorem at?_assignLines {key : String} {lines : List (List Char)}
    (h : ∀ line ∈ lines, IsBeside key line) (m : Entries Value) :
    (assignLines m lines).at? (Separator.standard.split key) =
      reading (m.at? (Separator.standard.split key)) (assignmentsOf key lines) := by
  induction lines generalizing m with
  | nil => rfl
  | cons line rest ih =>
    obtain ⟨hline, hrest⟩ := List.forall_mem_cons.mp h
    rw [Edit.Conf.assignLines_cons, ih hrest]
    unfold assignLines assignmentsOf
    cases ha : Assignment.ofLine? .standard line with
    | none => rw [List.filterMap_cons_none ha, List.filterMap_cons_none ha]; rfl
    | some a =>
      have hdollar : '$' ∉ a.text := fun hmem => hline.dollar (mem_of_ofLine? ha _ hmem)
      rw [List.filterMap_cons_some ha, List.filterMap_cons_some ha]
      by_cases hkey : a.key = key
      · subst hkey
        rw [List.filter_cons_of_pos (by simp)]
        show reading ((assignTo m a).at? (pathOf a)) _ = _
        rw [at?_assignTo_self, Conf.Assignment.value_formula_of_not_mem hdollar]
        rfl
      · obtain ⟨hbeneath, habove⟩ := hline.apart a ha
        rw [Addressing.beneath_iff] at hbeneath habove
        have hpath : Separator.standard.split key ≠ pathOf a :=
          fun heq => hkey (Separator.split_inj heq).symm
        rw [List.filter_cons_of_neg (by simpa using hkey)]
        show reading ((assignTo m a).at? _) _ = _
        rw [at?_assignTo_of_apart m (Separator.standard.split key)
          (fun hstarts => hbeneath ⟨hstarts, hpath.symm⟩)
          (fun hstarts => habove ⟨hstarts, hpath⟩)]

end Source.Conf

namespace Edit.Conf

open LayeredConfig.Conf Source.Conf

/-! ## Keys of settings -/

/-- Whether a character is a letter, a digit, the underscore, or in a mark of nesting. -/
def isSettingChar (c : Char) : Bool := isWordChar c || c == ':' || c == '\\'

/-- A key of such characters. -/
structure IsSettingKey (k : String) : Prop where
  nonempty : k.toList ≠ []
  chars : ∀ c ∈ k.toList, isSettingChar c = true

instance (k : String) : Decidable (IsSettingKey k) :=
  decidable_of_iff (k.toList ≠ [] ∧ k.toList.all isSettingChar = true)
    ⟨fun ⟨hne, hchars⟩ => ⟨hne, List.all_eq_true.mp hchars⟩,
      fun h => ⟨h.nonempty, List.all_eq_true.mpr h.chars⟩⟩

namespace IsSettingKey

variable {k : String} (h : IsSettingKey k)
include h

theorem apart {c : Char} (hc : c ∈ k.toList) :
    Text.isAscii c = true ∧ Text.isBlank c = false ∧ c ≠ '=' ∧ c ≠ '#' ∧ c ≠ ']' := by
  have hchar := h.chars c hc
  unfold isSettingChar at hchar
  rw [Bool.or_eq_true, Bool.or_eq_true, beq_iff_eq, beq_iff_eq, or_assoc] at hchar
  rcases hchar with hword | rfl | rfl
  · obtain ⟨hblank, hequals, hhash, _, hbracket, _⟩ := isWordChar_apart hword
    exact ⟨isAscii_of_isWordChar hword, hblank, hequals, hhash, hbracket⟩
  · decide
  · decide

theorem unmarked : ¬ appendMark <:+ k.toList :=
  fun hends => (h.apart (hends.subset (show ']' ∈ appendMark by decide))).2.2.2.2 rfl

/-- An edit can be for such a key. -/
theorem isEditKey : IsEditKey k where
  newline hmem := absurd (h.apart hmem).2.1 (by decide)
  equals hmem := (h.apart hmem).2.2.1 rfl
  trimmed := Text.trim_eq_self (fun c hc => (h.apart (List.mem_of_mem_head? hc)).2.1)
    fun c hc => (h.apart (List.mem_of_mem_getLast? hc)).2.1
  hash hhead := (h.apart (List.mem_of_mem_head? hhead)).2.2.2.1 rfl
  word c hc hword := by
    have hblank := (h.apart (hword.subset (by simp : c ∈ exportWord ++ [c]))).2.1
    rcases hc with rfl | rfl
    · exact absurd hblank (by decide)
    · exact absurd hblank (by decide)
  unmarked := h.unmarked

/-- Its spellings are known character by character. -/
theorem isAsciiKey : IsAsciiKey k where
  ascii _ hc := (h.apart hc).1
  unmarked := h.unmarked

/-- Lines can be written with the key as it was given, and as a line has it. -/
theorem isWritable_of_writtenWith {content : List Char} {exported : Bool} {key : List Char}
    (hkey : WrittenWith k content exported key) (hspells : Spells key (Text.lower k)) :
    IsWritable exported key ∧ '\n' ∉ key := by
  rcases hkey with ⟨rfl, rfl⟩ | ⟨line, hline, hassigned⟩
  · exact ⟨h.isEditKey.isWritable, h.isEditKey.newline⟩
  · refine ⟨h.isEditKey.isWritable_of_assigned? hassigned hspells, fun hmem => ?_⟩
    exact Text.newline_not_mem_of_mem_lines hline (mem_of_assigned? hassigned _ hmem)

end IsSettingKey

/-! ## What a setting reads after the lines of a value -/

/-- What a setting reads when a value has been written for it, by what it reads before: a list
    is added to the items that are there. -/
def writtenOver (read : Option Value) : Value → Value
  | .array items => .array (itemsOf read ++ items)
  | v => v

section written

variable {k : String} (hk : IsSettingKey k) {exported : Bool} {key : List Char}
  (hkey : IsWritable exported key) (hspells : Spells key (Text.lower k))
include hk hkey hspells

/-- **Step.** A line that is written for a setting is read under it. -/
theorem at?_assignLines_lineOf {v : Value} (hv : IsLineScalar v) (append : Bool)
    (m : Entries Value) :
    (assignLines m [lineOf exported append key v]).at?
        (Separator.standard.split (assignedKey k)) =
      some (if append then
        .array (itemsOf (m.at? (Separator.standard.split (assignedKey k))) ++ [v]) else v) := by
  have hread := ofLine?_lineOf hkey append v hk.isAsciiKey.lower hspells
  generalize hunquote : Scalar.unquote Options.standard.quotes (Text.trim (scalarText v)) = found
    at hread
  obtain ⟨text, quote⟩ := found
  have hvalue := (written_scalarText hv).value_eq (a := ⟨assignedKey k, append, text, quote⟩)
    hunquote (.nested m .standard)
  have hself := at?_assignTo_self m ⟨assignedKey k, append, text, quote⟩
  rw [hvalue] at hself
  unfold assignLines
  rw [List.filterMap_cons_some hread]
  exact hself

/-- **Run.** The lines of a list add its items. -/
theorem at?_assignLines_items {items : List Value} (hitems : ∀ item ∈ items, IsLineScalar item)
    (m : Entries Value) :
    (assignLines m (items.map (lineOf exported true key))).at?
        (Separator.standard.split (assignedKey k)) =
      Value.extended (m.at? (Separator.standard.split (assignedKey k))) items := by
  have hstep := fun item (hitem : IsLineScalar item) =>
    at?_assignLines_lineOf hk hkey hspells hitem true
  generalize Separator.standard.split (assignedKey k) = path at hstep ⊢
  induction items generalizing m with
  | nil => exact (Value.extended_nil _).symm
  | cons item rest ih =>
    obtain ⟨hitem, hrest⟩ := List.forall_mem_cons.mp hitems
    rw [List.map_cons, assignLines_cons, ih hrest, hstep item hitem, if_pos rfl,
      ← Value.extended_of_ne_nil _ (List.cons_ne_nil item []), ← Value.extended_append,
      List.singleton_append]

/-- So are all lines of a value read. -/
theorem at?_assignLines_assignmentLines {v : Value} (hv : IsLineValue v) (m : Entries Value) :
    (assignLines m (assignmentLines '=' exported key v)).at?
        (Separator.standard.split (assignedKey k)) =
      some (writtenOver (m.at? (Separator.standard.split (assignedKey k))) v) := by
  rcases hv.cases with ⟨items, rfl, hne, hitems⟩ | ⟨hscalar, hone⟩
  · rw [assignmentLines_array, at?_assignLines_items hk hkey hspells hitems,
      Value.extended_of_ne_nil _ hne, writtenOver]
  · have hread := at?_assignLines_lineOf hk hkey hspells hscalar false m
    rw [hone, hread, if_neg Bool.false_ne_true]
    cases v with
    | array items => exact hscalar.elim
    | _ => simp only [writtenOver]

end written

/-! ## When the new value is read -/

/-- Whether a setting reads a value that is written for it between lines of its own: it does if
    a plain assignment behind the written lines leads to the same value, or if there is no
    line of the setting behind them and the value is not a list that is added to items. -/
def Prevails (v : Value) (before behind : List Assignment) : Prop :=
  ((∃ a ∈ behind, a.append = false) ∧ reading none behind = some v) ∨
    (behind = [] ∧ (itemsOf (some v) = [] ∨ itemsOf (reading none before) = []))

instance (v : Value) (before behind : List Assignment) : Decidable (Prevails v before behind) :=
  inferInstanceAs (Decidable (_ ∨ _))

/-- What has been written is the value, unless it is a list that was added to items. -/
theorem writtenOver_eq_iff (read : Option Value) {v : Value} (hv : v ≠ .array []) :
    writtenOver read v = v ↔ itemsOf (some v) = [] ∨ itemsOf read = [] := by
  cases v with
  | array items =>
    show Value.array (itemsOf read ++ items) = .array items ↔ items = [] ∨ itemsOf read = []
    rw [Value.array.injEq, List.append_left_eq_self]
    exact (or_iff_right fun hnil => hv (congrArg Value.array hnil)).symm
  | _ => exact iff_of_true (by simp only [writtenOver]) (.inl rfl)

/-- Items that are appended to what has been written are too many. -/
theorem extended_writtenOver_ne (read : Option Value) (v : Value) {more : List Value}
    (h : more ≠ []) : Value.extended (some (writtenOver read v)) more ≠ some v := by
  rw [Value.extended_of_ne_nil _ h]
  cases v with
  | array items =>
    intro heq
    have hitems : itemsOf read ++ items ++ more = items := Value.array.inj (Option.some.inj heq)
    have hlength := congrArg List.length hitems
    have hmore := List.length_pos_of_ne_nil h
    simp only [List.length_append] at hlength
    omega
  | _ => exact fun heq => nomatch Option.some.inj heq

theorem reading_writtenOver_iff {v : Value} (hv : v ≠ .array [])
    (before behind : List Assignment) :
    reading (some (writtenOver (reading none before) v)) behind = some v ↔
      Prevails v before behind := by
  unfold Prevails
  by_cases hplain : ∃ a ∈ behind, a.append = false
  · have hbehind : behind ≠ [] := by
      rintro rfl
      obtain ⟨a, ha, _⟩ := hplain
      exact nomatch ha
    rw [reading_of_plain hplain _ none]
    simp [hplain, hbehind]
  · have happends : ∀ a ∈ behind, a.append = true := by
      intro a ha
      by_contra hnot
      exact hplain ⟨a, ha, by simpa using hnot⟩
    cases behind with
    | nil =>
      show some _ = some v ↔ _
      rw [Option.some.injEq, writtenOver_eq_iff _ hv]
      simp
    | cons a rest =>
      rw [reading_of_appends happends]
      refine iff_of_false (extended_writtenOver_ne _ v (by simp)) ?_
      rintro (⟨hsome, _⟩ | ⟨hnil, _⟩)
      · exact hplain hsome
      · exact nomatch hnil

/-- The lines of a text keep to their settings, if its keys do. -/
theorem isBeside_of_keys {content : List Char} {key : String}
    (hlines : ∀ line ∈ Text.lines content, isContinuation line = false) (hdollar : '$' ∉ content)
    (hapart : ∀ other ∈ (Source.conf content .standard).keys false,
      ¬ (Addressing.paths .standard).Beneath other key ∧
        ¬ (Addressing.paths .standard).Beneath key other) :
    ∀ line ∈ Text.lines content, IsBeside key line := by
  intro line hline
  refine ⟨fun hmem => hdollar (Text.mem_of_mem_lines hline _ hmem), fun a ha => hapart a.key ?_⟩
  have hassigned : a ∈ Source.Conf.assignments .standard content := by
    rw [assignments_of_none hlines]
    exact List.mem_filterMap.mpr ⟨line, hline, ha⟩
  exact List.mem_map_of_mem (List.mem_filter.mpr ⟨hassigned, rfl⟩)

/-- **When an edited setting reads its new value.** Take any text without continuations and
    dollar signs, and an edit of a setting to a value that lines can hold, and let the text
    assign nothing beneath the setting and nothing above it. The text may spell the setting in
    any ways, and assign it or append to it any number of times. Then the setting reads the
    new value exactly where the value prevails over the assignments of the setting that stay:
    those before the first line that the editor knows for the key, and those behind it. -/
theorem reads_setting_iff (files : Snapshot) (content : List Char) (k : String) (v : Value)
    (hk : IsSettingKey k) (hv : IsLineValue v)
    (hlines : ∀ line ∈ Text.lines content, isContinuation line = false) (hdollar : '$' ∉ content)
    (hapart : ∀ key ∈ (Source.conf content .standard).keys false,
      ¬ (Addressing.paths .standard).Beneath key (assignedKey k) ∧
        ¬ (Addressing.paths .standard).Beneath (assignedKey k) key) :
    ∃ edited s,
      (Editor.conf '=').edit content [(k, v)] = .ok edited ∧
      (Source.conf edited .standard).process files
        (Session.fresh (.nested [] .standard)) = .ok s ∧
      (s.store.get? (assignedKey k) = some v ↔
        Prevails v
          (assignmentsOf (assignedKey k) (preceding (Text.lower k) (Text.lines content)))
          (assignmentsOf (assignedKey k) (leftover (Text.lower k) (Text.lines content)))) := by
  have hbeside := isBeside_of_keys hlines hdollar hapart
  obtain ⟨exported, key, hwith, hspells, hedit⟩ :=
    edit_single (k := k) hv.isNull content
  obtain ⟨hkey, hnewline⟩ := hk.isWritable_of_writtenWith hwith hspells
  obtain ⟨s, hs, hstore⟩ := Source.Conf.process_standard files (edit '=' content [(k, v)])
  refine ⟨edit '=' content [(k, v)], s, rfl, hs, ?_⟩
  have hmade : ∀ line ∈ preceding (Text.lower k) (Text.lines content) ++
      (assignmentLines '=' exported key v ++ leftover (Text.lower k) (Text.lines content)),
      '\n' ∉ line ∧ isContinuation line = false := by
    have hold : ∀ line ∈ Text.lines content, '\n' ∉ line ∧ isContinuation line = false :=
      fun line hline => ⟨Text.newline_not_mem_of_mem_lines hline, hlines line hline⟩
    intro line hline
    rcases List.mem_append.mp hline with hbefore | hline
    · exact hold line (mem_of_mem_preceding hbefore)
    · rcases List.mem_append.mp hline with hwritten | hbehind
      · exact assignmentLines_apart hkey hnewline hv line hwritten
      · exact hold line (mem_of_mem_leftover hbehind)
  have hread : s.store.get? (assignedKey k) =
      (treeOf (edit '=' content [(k, v)])).at? (Separator.standard.split (assignedKey k)) := by
    rw [hstore]
    rfl
  rw [hread, hedit, treeOf_unlines hmade, assignLines_append, assignLines_append,
    at?_assignLines fun line hline => hbeside line (mem_of_mem_leftover hline),
    at?_assignLines_assignmentLines hk hkey hspells hv,
    at?_assignLines fun line hline => hbeside line (mem_of_mem_preceding hline),
    Entries.at?_empty, reading_writtenOver_iff hv.ne_empty]

/-- A list takes the place of two lines. Lines that spell the setting with underscores stay
    before it and behind it, and those behind it make the same list once more. -/
theorem reads_setting_iff_of_spellings :
    ∃ edited s,
      (Editor.conf '=').edit
        "A__B[]=old\nexport A::b[]=1\nc=2\na::B=3\nA__B=0\na__b[]=new\n".toList
        [("a::b", .array [.string "new"])] = .ok edited ∧
      (Source.conf edited .standard).process ⟨fun _ => none⟩
        (Session.fresh (.nested [] .standard)) = .ok s ∧
      s.store.get? "a::b" = some (.array [.string "new"]) := by
  obtain ⟨edited, s, hedit, hs, hread⟩ := reads_setting_iff ⟨fun _ => none⟩
    "A__B[]=old\nexport A::b[]=1\nc=2\na::B=3\nA__B=0\na__b[]=new\n".toList "a::b"
    (.array [.string "new"]) (by decide +kernel) (by decide +kernel) (by decide +kernel)
    (by decide +kernel) (by decide +kernel)
  have hkey : assignedKey "a::b" = "a::b" := by decide +kernel
  rw [hkey] at hread
  exact ⟨edited, s, hedit, hs, hread.mpr (by decide +kernel)⟩

/-- **A spelling behind the written line wins,** so that the setting reads what it did before. -/
theorem spelling_behind_wins :
    ∃ edited s,
      (Editor.conf '=').edit "a::b=1\nA__B=2\n".toList
        [("a::b", .number (.int 5 (by decide)))] = .ok edited ∧
      (Source.conf edited .standard).process ⟨fun _ => none⟩
        (Session.fresh (.nested [] .standard)) = .ok s ∧
      s.store.get? (assignedKey "a::b") = some (.number (.int 2 (by decide))) := by
  refine ⟨_, _, rfl, Source.process_eq _ _ _, ?_⟩
  decide +kernel

end Edit.Conf

end LayeredConfig
