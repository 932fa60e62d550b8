import LayeredConfig.Proofs.Externals
import LayeredConfig.Proofs.LoweredTrees
import LayeredConfig.Proofs.StoreLaws

/-! # Lists that lines append to

    An append line reads the list under its key, adds its value at the end and writes the list
    back. The lines may be spread over several files, spell the key in several ways, and
    stand between all kinds of other lines. Where none of the others assigns to a related
    key, the list grows by exactly the values of the append lines, in their order.

    Keys are compared as the store takes them, by their paths. A value is what the line comes
    to at its turn, so the run itself says what the values are.

    **Main result.** `appends_accumulate`.
-/

namespace LayeredConfig

/-! ## Lists -/

/-- A value after items have been added to it: nothing happens without items, and anything but
    a list gives way to one. -/
def Value.extended (v : Option Value) (items : List Value) : Option Value :=
  if items = [] then v else some (.array (Source.Conf.itemsOf v ++ items))

namespace Value

@[simp] theorem extended_nil (v : Option Value) : extended v [] = v := rfl

theorem extended_of_ne_nil (v : Option Value) {items : List Value} (h : items ≠ []) :
    extended v items = some (.array (Source.Conf.itemsOf v ++ items)) := if_neg h

/-- Items can be added in portions. -/
theorem extended_append (v : Option Value) (first second : List Value) :
    extended v (first ++ second) = extended (extended v first) second := by
  by_cases hfirst : first = []
  · rw [hfirst, List.nil_append, extended_nil]
  · by_cases hsecond : second = []
    · rw [hsecond, List.append_nil, extended_nil]
    · have hboth : first ++ second ≠ [] := List.append_ne_nil_of_left_ne_nil hfirst second
      rw [extended_of_ne_nil v hboth, extended_of_ne_nil v hfirst, extended_of_ne_nil _ hsecond,
        ← List.append_assoc]
      rfl

end Value

/-- **A longer list is stored as it is**, if what was read in a store is made longer by a
    value that has no others in it. -/
theorem Store.stored_append (s : Store) (name : String) {v : Value} (hv : v.IsScalar) :
    s.addressing.stored (.array (Source.Conf.itemsOf (s.get? name) ++ [v])) =
      .array (Source.Conf.itemsOf (s.get? name) ++ [v]) := by
  cases s with
  | nested tree separator => rfl
  | flat entries => rfl
  | caseless tree =>
    apply Value.Lowered.lowerKeys_eq
    refine .array fun item hitem => ?_
    rcases List.mem_append.mp hitem with hold | hnew
    · cases hread : (Store.caseless tree).get? name with
      | none =>
        rw [hread] at hold
        exact nomatch hold
      | some w =>
        have hlowered : w.Lowered := CaselessTree.lowered_of_get? hread
        rw [hread] at hold
        cases w with
        | array items => exact hlowered.of_mem_items hold
        | _ => exact nomatch hold
    · rw [List.mem_singleton.mp hnew]
      exact .scalar hv

/-! ## Steps -/

namespace Step

/-- The item that a step adds to the list under a name, if it adds one. -/
def item? (store : Store) (name : String) : Step → Option Value
  | .append key f => if store.path key = store.path name then some (f.value store) else none
  | _ => none

/-- A step that adds an item to the list under a name, which has no other values in it. -/
def AppendsTo (a : Addressing) (name : String) (step : Step) : Prop :=
  ∃ key f, step = .append key f ∧ a.path key = a.path name ∧
    ∀ store, (f.value store).IsScalar

/-- A step that writes nothing that is related to a name. -/
def Avoids (a : Addressing) (name : String) (step : Step) : Prop :=
  ∀ key ∈ step.key?, ¬ a.Related key name

variable {step : Step} {name : String}

theorem item?_of_avoids {s : Store} (h : step.Avoids s.addressing name) :
    step.item? s name = none := by
  cases step with
  | append key f =>
    apply if_neg
    intro hpath
    replace hpath : s.addressing.path key = s.addressing.path name := hpath
    apply h key rfl
    unfold Addressing.Related
    rw [hpath]
    exact .inl List.prefix_rfl
  | _ => rfl

/-- **Step.** What is read under the name after a step is the list with the item of the
    step. -/
theorem get?_run_item (files : Snapshot) {s : Session}
    (h : step.AppendsTo s.store.addressing name ∨ step.Avoids s.store.addressing name) :
    (step.run files s).store.get? name =
      Value.extended (s.store.get? name) (step.item? s.store name).toList := by
  rcases h with ⟨key, f, rfl, hpath, hscalar⟩ | havoids
  · replace hpath : s.store.path key = s.store.path name := hpath
    have hitem : (append key f).item? s.store name = some (f.value s.store) := if_pos hpath
    -- Both spellings read the list, and what is written under the one is read under the other.
    have hread : s.store.get? key = s.store.get? name := by
      rw [Store.get?_eq_at?, Store.get?_eq_at?, hpath]
    rw [hitem, Option.toList_some, Value.extended_of_ne_nil _ (List.cons_ne_nil _ _)]
    show (s.store.set key (.array (Source.Conf.itemsOf (s.store.get? key) ++ _))).get? name = _
    rw [hread, (Store.writeLaws _ _ _ _).same hpath.symm,
      s.store.stored_append name (hscalar _)]
  · rw [item?_of_avoids havoids, get?_run_of_not_related files havoids]
    rfl

end Step

namespace Session

/-- The items that steps add to the list under a name, each of them at its turn. -/
def appended (files : Snapshot) (name : String) (s : Session) : List Step → List Value
  | [] => []
  | step :: rest => (step.item? s.store name).toList ++ appended files name (step.run files s) rest

variable (files : Snapshot) {name : String}

/-- **Run.** What is read under the name after a run is the list with the items of the run. -/
theorem get?_runAll_appended {s : Session} {steps : List Step}
    (h : ∀ step ∈ steps,
      step.AppendsTo s.store.addressing name ∨ step.Avoids s.store.addressing name) :
    (s.runAll files steps).store.get? name =
      Value.extended (s.store.get? name) (s.appended files name steps) := by
  induction steps generalizing s with
  | nil => rfl
  | cons step rest ih =>
    obtain ⟨hstep, hrest⟩ := List.forall_mem_cons.mp h
    rw [← step.addressing_run files s] at hrest
    rw [runAll_cons, ih hrest, step.get?_run_item files hstep, appended, Value.extended_append]

/-- A run in which an item is added has items. -/
theorem appended_ne_nil {s : Session} {steps : List Step}
    (h : ∃ step ∈ steps, step.AppendsTo s.store.addressing name) :
    s.appended files name steps ≠ [] := by
  induction steps generalizing s with
  | nil =>
    obtain ⟨step, hstep, _⟩ := h
    exact nomatch hstep
  | cons first rest ih =>
    obtain ⟨step, hstep, happends⟩ := h
    rw [appended]
    rcases List.mem_cons.mp hstep with rfl | hmem
    · obtain ⟨key, f, rfl, hpath, _⟩ := happends
      have hitem : (Step.append key f).item? s.store name = some (f.value s.store) := if_pos hpath
      rw [hitem]
      exact List.cons_ne_nil _ _
    · apply List.append_ne_nil_of_right_ne_nil
      rw [← first.addressing_run files s] at happends
      exact ih ⟨step, hmem, happends⟩

end Session

/-! ## Lines -/

/-- No text stands for a value that has others in it. -/
theorem Scalar.isScalar_typed (cs : List Char) : (typed cs).IsScalar := by
  unfold typed
  split
  · next v hword =>
    unfold word? at hword
    split at hword
    · obtain rfl := Option.some.inj hword
      trivial
    · obtain rfl := Option.some.inj hword
      trivial
    · obtain rfl := Option.some.inj hword
      trivial
    · cases hword
  · split
    · trivial
    · trivial

namespace Conf.Assignment

/-- The value of a line has no other values in it. -/
theorem isScalar_valueOf (o : Options) (a : Assignment) (text : List Char) :
    (a.valueOf o text).IsScalar := by
  unfold valueOf
  split
  · exact Scalar.isScalar_typed text
  · trivial

/-- Whether a line adds its value to the list under a name. -/
def AppendsTo (addressing : Addressing) (name : String) (a : Assignment) : Prop :=
  a.append = true ∧ addressing.path a.key = addressing.path name

instance (addressing : Addressing) (name : String) (a : Assignment) :
    Decidable (a.AppendsTo addressing name) := inferInstanceAs (Decidable (_ ∧ _))

end Conf.Assignment

namespace Source

/-- The sources of the texts of assignment files, each with its options. -/
def confs (texts : List (List Char × Options)) : List Source :=
  texts.map fun (content, o) => .conf content o

namespace Conf

open LayeredConfig.Conf (Assignment)

/-- The lines of assignment files that assign something, each with the options of its file.
    Where there is a queue an include does not. -/
def lines (queued : Bool) (texts : List (List Char × Options)) : List (Options × Assignment) :=
  texts.flatMap fun (content, o) =>
    ((assignments o content).filter fun a => !(queued && a.isInclude)).map fun a => (o, a)

theorem mem_lines {queued : Bool} {texts : List (List Char × Options)}
    {line : Options × Assignment} :
    line ∈ lines queued texts ↔ ∃ content, (content, line.1) ∈ texts ∧
      line.2 ∈ assignments line.1 content ∧ (queued && line.2.isInclude) = false := by
  simp only [lines, List.mem_flatMap, List.mem_map, List.mem_filter, Bool.not_eq_true']
  constructor
  · rintro ⟨⟨content, o⟩, htext, a, ⟨ha, hassigns⟩, rfl⟩
    exact ⟨content, htext, ha, hassigns⟩
  · rintro ⟨content, htext, ha, hassigns⟩
    exact ⟨_, htext, line.2, ⟨ha, hassigns⟩, rfl⟩

variable {queued : Bool} {texts : List (List Char × Options)}

/-- The step of a line that assigns something is the same with a queue and without. -/
theorem stepOf_of_assigns {o : Options} {a : Assignment} (h : (queued && a.isInclude) = false) :
    stepOf o queued a = stepOf o false a := by
  unfold stepOf
  rw [h, Bool.false_and]

/-- The steps of assignment files have no key or are those of lines. -/
theorem line_of_mem_steps {step : Step} (h : step ∈ (confs texts).flatMap (Source.steps queued)) :
    step.key? = none ∨ ∃ line ∈ lines queued texts, step = stepOf line.1 false line.2 := by
  obtain ⟨source, hsource, hstep⟩ := List.mem_flatMap.mp h
  obtain ⟨⟨content, o⟩, htext, rfl⟩ := List.mem_map.mp hsource
  apply Step.forall_mem_within (.inl rfl) _ (.inl rfl) step hstep
  intro step' hline
  obtain ⟨a, ha, rfl⟩ := List.mem_map.mp hline
  cases hinclude : queued && a.isInclude with
  | true =>
    left
    unfold stepOf
    rw [hinclude]
    rfl
  | false =>
    right
    exact ⟨(o, a), mem_lines.mpr ⟨content, htext, ha, hinclude⟩, stepOf_of_assigns hinclude⟩

theorem stepOf_mem_steps {line : Options × Assignment} (h : line ∈ lines queued texts) :
    stepOf line.1 false line.2 ∈ (confs texts).flatMap (Source.steps queued) := by
  obtain ⟨content, htext, ha, hassigns⟩ := mem_lines.mp h
  refine List.mem_flatMap.mpr ⟨.conf content line.1, List.mem_map_of_mem htext, ?_⟩
  show _ ∈ Conf.steps line.1 content queued
  unfold Conf.steps Step.within
  rw [← stepOf_of_assigns hassigns, List.mem_append]
  exact .inl (List.mem_cons_of_mem _ (List.mem_map_of_mem ha))

/-- The step of a line that appends to a list does so. -/
theorem appendsTo_stepOf {addressing : Addressing} {name : String} {line : Options × Assignment}
    (h : line.2.AppendsTo addressing name) :
    (stepOf line.1 false line.2).AppendsTo addressing name := by
  refine ⟨line.2.key, line.2.formula line.1, ?_, h.2, fun store => ?_⟩
  · unfold stepOf
    rw [h.1]
    rfl
  · exact line.2.isScalar_valueOf line.1 _

end Conf

end Source

/-! ## Files -/

/-- **Append lines accumulate.** Take a name, a session with or without a queue, over a store of
    any kind, and any assignment files with any options. Let at least one line append to the
    list under the name, in any spelling, and let the keys of all lines that do not be
    unrelated to the name. Then the files are processed, and the name reads a list: the items
    that it had, and behind them the values of these lines in the order in which they are
    processed. -/
theorem appends_accumulate (files : Snapshot) (texts : List (List Char × Options)) (name : String)
    (s : Session)
    (hlines : ∀ line ∈ Source.Conf.lines s.queue.isSome texts,
      line.2.AppendsTo s.store.addressing name ∨
        ¬ s.store.addressing.Related line.2.key name)
    (happends : ∃ line ∈ Source.Conf.lines s.queue.isSome texts,
      line.2.AppendsTo s.store.addressing name) :
    ∃ s', s.processAll files (Source.confs texts) = .ok s' ∧
      s'.store.get? name = some (.array (Source.Conf.itemsOf (s.store.get? name) ++
        s.appended files name ((Source.confs texts).flatMap (Source.steps s.queue.isSome)))) := by
  refine ⟨_, Session.processAll_eq_runAll files s _, ?_⟩
  rw [Session.get?_runAll_appended files, Value.extended_of_ne_nil]
  · apply Session.appended_ne_nil
    obtain ⟨line, hline, happend⟩ := happends
    exact ⟨_, Source.Conf.stepOf_mem_steps hline, Source.Conf.appendsTo_stepOf happend⟩
  · intro step hstep
    rcases Source.Conf.line_of_mem_steps hstep with hnone | ⟨line, hline, rfl⟩
    · right
      intro key hkey
      rw [hnone] at hkey
      exact nomatch hkey
    · apply (hlines line hline).imp Source.Conf.appendsTo_stepOf
      intro hunrelated key hkey
      rw [Source.Conf.key?_stepOf] at hkey
      obtain rfl := Option.some.inj hkey
      exact hunrelated

/-- Two spellings of a key in two files, the second of which keeps what is there, and a list
    that a caseless store begins with. -/
theorem appends_accumulate_across_spellings :
    ∃ s', (Session.fresh (.caseless (.ofValue (.object
        [("PATH", .array [.object [("Dir", .string "/bin")]])])))).processAll ⟨fun _ => none⟩
        (Source.confs [("home=/h\npath[]=$home".toList, .standard),
          ("PATH[]=2\nhome=/g".toList,
            { Options.standard with lower := false, overwrite := false })]) = .ok s' ∧
      s'.store.get? "Path" = some (.array [.object [("dir", .string "/bin")], .string "/h",
        .number (.int 2 (by decide))]) := by
  obtain ⟨s', hprocess, hread⟩ := appends_accumulate ⟨fun _ => none⟩
    [("home=/h\npath[]=$home".toList, .standard),
      ("PATH[]=2\nhome=/g".toList,
        { Options.standard with lower := false, overwrite := false })] "Path"
    (Session.fresh (.caseless (.ofValue (.object
      [("PATH", .array [.object [("Dir", .string "/bin")]])]))))
    (by decide +kernel) (by decide +kernel)
  exact ⟨s', hprocess, hread.trans (by decide +kernel)⟩

end LayeredConfig
