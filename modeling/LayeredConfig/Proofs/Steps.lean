import LayeredConfig.Proofs.Formula
import LayeredConfig.Proofs.TrackerHistory
import LayeredConfig.Source

/-! # Sources as programs of steps

    What a source does to a session is a straight-line program: which steps it takes
    is a matter of its text and its options, and of whether there is a queue, but not
    of what the store holds. Only the values that are written depend on the store, as
    formulas.

    So a property of processing follows from what one step preserves.

    **Main result.** `process_eq`: processing a source is running its steps, one after
    the other, and never fails.
-/

namespace LayeredConfig

/-! ## Steps -/

/-- What a source does at a time. -/
inductive Step where
  /-- A context is entered. -/
  | enter (context : String)
  /-- The innermost context is left. -/
  | leave
  /-- A setting is written, unless it has a value that is to be kept. -/
  | assign (overwrite : Bool) (key : String) (f : Formula)
  /-- An item is added to the list under a key. -/
  | append (key : String) (f : Formula)
  /-- A setting is written without a record. -/
  | put (key : String) (v : Value)
  /-- A file is included, where there is a queue; `base` is the directory from which
      its name is seen. -/
  | include (target : Formula) (base : FileQueue → Option Path)
  /-- Notice is given. -/
  | note (n : Notice)

namespace Step

/-- Takes a step. -/
def run (files : Snapshot) (s : Session) : Step → Session
  | .enter context => { s with tracker := s.tracker.push context }
  | .leave => { s with tracker := s.tracker.leave }
  | .assign overwrite key f => s.defineUnless overwrite key (f.value s.store) f.names
  | .append key f =>
    s.define key (.array (Source.Conf.itemsOf (s.store.get? key) ++ [f.value s.store])) f.names
  | .put key v => { s with store := s.store.set key v }
  | .include target base =>
    match s.queue with
    | some queue => s.queueInclude files queue (target.value s.store).text (base queue)
    | none => s
  | .note n => s.note n

/-- Whether a step enters or leaves a context. -/
def isScope : Step → Bool
  | .enter _ | .leave => true
  | _ => false

/-- Steps within a context. -/
def within (context : String) (steps : List Step) : List Step :=
  .enter context :: steps ++ [.leave]

theorem forall_mem_within {P : Step → Prop} {context : String} {steps : List Step}
    (henter : P (.enter context)) (hsteps : ∀ step ∈ steps, P step) (hleave : P .leave) :
    ∀ step ∈ within context steps, P step := by
  intro step hstep
  unfold within at hstep
  rw [List.cons_append, List.mem_cons, List.mem_append, List.mem_singleton] at hstep
  rcases hstep with rfl | hinner | rfl
  · exact henter
  · exact hsteps step hinner
  · exact hleave

end Step

namespace Session

/-- A session without a queue, in which nothing has been recorded. -/
def fresh (store : Store) : Session := ⟨store, .empty, none, []⟩

/-- Takes steps, one after the other. -/
def runAll (files : Snapshot) (s : Session) (steps : List Step) : Session :=
  steps.foldl (Step.run files) s

variable (files : Snapshot) (s : Session)

@[simp] theorem runAll_nil : s.runAll files [] = s := rfl

@[simp] theorem runAll_cons (step : Step) (rest : List Step) :
    s.runAll files (step :: rest) = (step.run files s).runAll files rest := rfl

@[simp] theorem runAll_append (first second : List Step) :
    s.runAll files (first ++ second) = (s.runAll files first).runAll files second := by
  unfold runAll
  rw [List.foldl_append]

/-- Steps within a context are taken after it has been entered, and then it is left. -/
theorem runAll_within (context : String) (steps : List Step) :
    s.runAll files (Step.within context steps) =
      Step.run files
        (runAll files { s with tracker := s.tracker.push context } steps) .leave := by
  unfold Step.within
  rw [List.cons_append, runAll_cons, runAll_append]
  rfl

end Session

/-! ## What steps keep -/

namespace Session

variable {files : Snapshot}

@[simp] theorem store_queueInclude (s : Session) (queue : FileQueue) (target : List Char)
    (base : Option Path) : (s.queueInclude files queue target base).store = s.store := by
  unfold queueInclude
  split <;> rfl

@[simp] theorem tracker_queueInclude (s : Session) (queue : FileQueue) (target : List Char)
    (base : Option Path) : (s.queueInclude files queue target base).tracker = s.tracker := by
  unfold queueInclude
  split <;> rfl

theorem isSome_queue_queueInclude {s : Session} (hqueue : s.queue.isSome = true)
    (queue : FileQueue) (target : List Char) (base : Option Path) :
    (s.queueInclude files queue target base).queue.isSome = true := by
  unfold queueInclude
  split
  · rfl
  · exact hqueue

theorem queue_defineUnless (s : Session) (overwrite : Bool) (key : String) (v : Value)
    (names : List String) : (s.defineUnless overwrite key v names).queue = s.queue := by
  unfold defineUnless
  split <;> rfl

theorem contexts_defineUnless (s : Session) (overwrite : Bool) (key : String) (v : Value)
    (names : List String) :
    (s.defineUnless overwrite key v names).tracker.contexts = s.tracker.contexts := by
  unfold defineUnless
  split
  · exact Tracker.contexts_define _ _ _
  · rfl

end Session

namespace Step

variable (files : Snapshot)

/-- A step neither makes nor loses the queue. -/
theorem queue_run (step : Step) (s : Session) :
    (step.run files s).queue.isSome = s.queue.isSome := by
  cases step with
  | assign overwrite key f =>
    show (s.defineUnless _ _ _ _).queue.isSome = _
    rw [Session.queue_defineUnless]
  | «include» target base =>
    unfold run
    dsimp only
    split
    · next queue hqueue =>
      have hsome : s.queue.isSome = true := by rw [hqueue]; rfl
      rw [Session.isSome_queue_queueInclude hsome, hsome]
    · rfl
  | _ => rfl

/-- Only the steps that enter or leave a context change the contexts. -/
theorem contexts_run {step : Step} (h : step.isScope = false) (s : Session) :
    (step.run files s).tracker.contexts = s.tracker.contexts := by
  cases step with
  | enter context => exact nomatch h
  | leave => exact nomatch h
  | assign overwrite key f => exact s.contexts_defineUnless _ _ _ _
  | append key f => exact Tracker.contexts_define _ _ _
  | put key v => rfl
  | «include» target base =>
    unfold run
    dsimp only
    split
    · rw [Session.tracker_queueInclude]
    · rfl
  | note n => rfl

end Step

namespace Session

variable (files : Snapshot)

/-- **Run.** A run neither makes nor loses the queue. -/
theorem queue_runAll (s : Session) (steps : List Step) :
    (s.runAll files steps).queue.isSome = s.queue.isSome := by
  induction steps generalizing s with
  | nil => rfl
  | cons step rest ih => rw [runAll_cons, ih, Step.queue_run]

/-- A run without a queue ends without one. -/
theorem queue_runAll_eq_none {s : Session} (h : s.queue = none) (steps : List Step) :
    (s.runAll files steps).queue = none := by
  have hnone := queue_runAll files s steps
  rw [h, Option.isSome_none] at hnone
  exact Option.not_isSome_iff_eq_none.mp (Bool.eq_false_iff.mp hnone)

/-- **Run.** A run within a context leaves the contexts as they were. -/
theorem contexts_runAll (s : Session) {steps : List Step}
    (h : ∀ step ∈ steps, step.isScope = false) :
    (s.runAll files steps).tracker.contexts = s.tracker.contexts := by
  induction steps generalizing s with
  | nil => rfl
  | cons step rest ih =>
    rw [runAll_cons, ih _ fun step' hstep => h step' (List.mem_cons_of_mem _ hstep),
      Step.contexts_run files (h step List.mem_cons_self)]

/-- **Run.** After steps that all define a key, a key has the definition that was recorded for
    it last, if there was one. -/
theorem definitions_runAll_defines {α : Type} {stepOf : α → Step} {keyOf : α → String}
    {namesOf : α → List String} {items : List α}
    (h : ∀ item ∈ items, ∀ s : Session,
      ((stepOf item).run files s).tracker = s.tracker.define (keyOf item) (namesOf item))
    (s : Session) (key : String) :
    (s.runAll files (items.map stepOf)).tracker.definitions.get? key =
      ((items.filter fun item => keyOf item = key).getLast?.map
        fun item => Definition.mk s.tracker.context (namesOf item)).or
          (s.tracker.definitions.get? key) := by
  induction items generalizing s with
  | nil => rfl
  | cons item rest ih =>
    obtain ⟨hitem, hrest⟩ := List.forall_mem_cons.mp h
    -- The definition stays in the context, and the steps that follow do too.
    have hcontext : ((stepOf item).run files s).tracker.context = s.tracker.context := by
      unfold Tracker.context Tracker.context?
      rw [hitem, Tracker.contexts_define]
    rw [List.map_cons, runAll_cons, ih hrest, hcontext, hitem, Tracker.definitions_define]
    by_cases hkey : keyOf item = key
    · rw [if_pos hkey, List.filter_cons_of_pos (by simpa using hkey), List.getLast?_cons]
      cases (rest.filter fun item => keyOf item = key).getLast? <;> rfl
    · rw [if_neg hkey, List.filter_cons_of_neg (by simpa using hkey)]

/-- What is done within a context is done between entering and leaving it, if it is done
    in steps that neither enter nor leave one. -/
theorem within_eq (s : Session) (context : String) {body : Session → Session}
    {steps : List Step} (hscope : ∀ step ∈ steps, step.isScope = false)
    (hbody : ∀ s' : Session, s'.queue.isSome = s.queue.isSome →
      body s' = s'.runAll files steps) :
    s.within context body = .ok (s.runAll files (Step.within context steps)) := by
  -- The context that was entered is still there when the steps have been taken.
  have hinner := hbody { s with tracker := s.tracker.push context } rfl
  have hcontexts := contexts_runAll files { s with tracker := s.tracker.push context } hscope
  have hpop := Tracker.pop_of_contexts (hcontexts.trans rfl)
  unfold Step.within within
  rw [List.cons_append, runAll_cons, runAll_append, runAll_cons, runAll_nil]
  rw [hinner]
  dsimp only
  rw [hpop]
  rfl

end Session

/-! ## The steps of a source -/

namespace Source

/-- The step of an assignment. -/
def Conf.stepOf (o : Options) (queued : Bool) (a : LayeredConfig.Conf.Assignment) : Step :=
  if queued && a.isInclude then
    .include (a.formula o) fun queue => o.context.or (queue.current.bind Path.directory?)
  else if a.append then .append a.key (a.formula o)
  else .assign o.overwrite a.key (a.formula o)

/-- The step of a leaf. -/
def Document.stepOf (o : Options) (leaf : List String × Value) : Step :=
  .assign o.overwrite (o.keySeparator.join leaf.1) (Document.leafFormula o leaf.2)

/-- The steps that queue what the value of an include member names. -/
def Document.includeSteps (o : Options) (v : Value) : List Step :=
  match Document.targets? v with
  | some targets =>
    targets.map fun target => .include (.const (.string target)) fun _ => o.context
  | none => [.note (.includeOfKind v.kind)]

/-- The members of a document, with their keys as they are written. -/
def Document.members (o : Options) (fields : Entries Value) : Entries Value :=
  if o.lower then Document.lowerOutermost fields else fields

/-- The steps of the include member, if there is one, and the members that are left. -/
def Document.splitIncludes (o : Options) (queued : Bool) (fields : Entries Value) :
    List Step × Entries Value :=
  match queued, fields.get? Document.includeKey with
  | true, some v => (Document.includeSteps o v, fields.erase Document.includeKey)
  | _, _ => ([], fields)

/-- The steps of an assignment file. -/
def Conf.steps (o : Options) (content : List Char) (queued : Bool) : List Step :=
  Step.within (o.contextName "conf") ((Conf.assignments o content).map (Conf.stepOf o queued))

/-- The steps of the members of a document. -/
def Document.memberSteps (o : Options) (name : String) (fields : Entries Value)
    (queued : Bool) : List Step :=
  let (includes, rest) := Document.splitIncludes o queued (Document.members o fields)
  includes ++ Step.within (o.contextName name)
    ((Value.fieldLeaves false rest).map (Document.stepOf o))

/-- The steps of a document. -/
def Document.steps (codec : Codec) (o : Options) (content : List Char) (queued : Bool) :
    List Step :=
  match Document.root codec content with
  | .ok fields => Document.memberSteps o codec.name fields queued
  | .error failure => [.note (.nothingApplied (o.contextName codec.name) failure)]

/-- The steps of a plain value. -/
def Plain.steps (data : Value) : List Step :=
  (Plain.members data).map fun (key, v) => .put (String.ofList (rewriteNamespace key.toList)) v

/-- The steps of a source, with or without a queue. -/
def steps (queued : Bool) : Source → List Step
  | .conf content o => Conf.steps o content queued
  | .document codec content o => Document.steps codec o content queued
  | .plain data => Plain.steps data

/-! ## What the steps can be -/

/-- What a step of a source can be. -/
inductive StepCase (queued : Bool) : Source → Step → Prop where
  | enter (source : Source) (context : String) : StepCase queued source (.enter context)
  | leave (source : Source) : StepCase queued source .leave
  | note (source : Source) (n : Notice) : StepCase queued source (.note n)
  | assignment (content : List Char) (o : Options) {a : LayeredConfig.Conf.Assignment}
      (ha : a ∈ Conf.assignments o content) :
      StepCase queued (.conf content o) (Conf.stepOf o queued a)
  | target (codec : Codec) (content : List Char) (o : Options) (target : String) :
      StepCase queued (.document codec content o)
        (.include (.const (.string target)) fun _ => o.context)
  | leaf (codec : Codec) (content : List Char) (o : Options) (leaf : List String × Value) :
      StepCase queued (.document codec content o) (Document.stepOf o leaf)
  | member (data : Value) (key : String) (v : Value) :
      StepCase queued (.plain data) (.put key v)

section cases

variable {queued : Bool} {step : Step}

/-- A step within a context is one of those, unless it enters or leaves the context. -/
theorem stepCase_within {source : Source} {context : String} {steps : List Step}
    (hsteps : ∀ step ∈ steps, StepCase queued source step)
    (hstep : step ∈ Step.within context steps) : StepCase queued source step :=
  Step.forall_mem_within (.enter source context) hsteps (.leave source) step hstep

/-- A step of an include member names a target or gives notice. -/
theorem Document.eq_of_mem_splitIncludes {o : Options} {fields : Entries Value}
    (hstep : step ∈ (Document.splitIncludes o queued fields).1) :
    (∃ target, step = .include (.const (.string target)) fun _ => o.context) ∨
      ∃ n, step = .note n := by
  unfold Document.splitIncludes at hstep
  split at hstep
  · unfold Document.includeSteps at hstep
    split at hstep
    · obtain ⟨target, -, rfl⟩ := List.mem_map.mp hstep
      exact .inl ⟨target, rfl⟩
    · exact .inr ⟨_, List.mem_singleton.mp hstep⟩
  · exact nomatch hstep

theorem Document.stepCase_splitIncludes (codec : Codec) (content : List Char) (o : Options)
    {fields : Entries Value} (hstep : step ∈ (Document.splitIncludes o queued fields).1) :
    StepCase queued (.document codec content o) step := by
  rcases Document.eq_of_mem_splitIncludes hstep with ⟨target, rfl⟩ | ⟨n, rfl⟩
  · exact .target codec content o target
  · exact .note _ n

/-- The steps of a source, in cases. -/
theorem stepCase_of_mem {source : Source} (hstep : step ∈ source.steps queued) :
    StepCase queued source step := by
  cases source with
  | conf content o =>
    apply stepCase_within _ hstep
    intro step' hassign
    obtain ⟨a, ha, rfl⟩ := List.mem_map.mp hassign
    exact .assignment content o ha
  | document codec content o =>
    change step ∈ Document.steps codec o content queued at hstep
    unfold Document.steps at hstep
    split at hstep
    · unfold Document.memberSteps at hstep
      rcases List.mem_append.mp hstep with hinclude | hmember
      · exact Document.stepCase_splitIncludes codec content o hinclude
      · apply stepCase_within _ hmember
        intro step' hleaf
        obtain ⟨leaf, -, rfl⟩ := List.mem_map.mp hleaf
        exact .leaf codec content o leaf
    · rw [List.mem_singleton.mp hstep]
      exact .note _ _
  | plain data =>
    obtain ⟨entry, -, rfl⟩ := List.mem_map.mp hstep
    exact .member data _ _

end cases

/-! ## Processing is running the steps -/

variable (files : Snapshot)

/-- Carrying out an assignment is taking its step. -/
theorem Conf.apply_eq (o : Options) (s : Session) (a : LayeredConfig.Conf.Assignment) :
    Conf.apply files o s a = (Conf.stepOf o s.queue.isSome a).run files s := by
  unfold Conf.apply Conf.stepOf
  dsimp only
  rw [a.names_expansion]
  cases hqueue : s.queue with
  | none =>
    -- Without a queue an include is an assignment, as its step is.
    rw [ite_self, Option.isSome_none, Bool.false_and, if_neg Bool.false_ne_true]
    dsimp only
    split <;> rfl
  | some queue =>
    rw [Option.isSome_some, Bool.true_and]
    cases a.isInclude with
    | true =>
      simp only [if_true, Step.run, hqueue]
      rfl
    | false =>
      simp only [Bool.false_eq_true, if_false]
      split <;> rfl

/-- Writing a leaf is taking its step. -/
theorem Document.writeLeaf_eq (o : Options) (s : Session) (leaf : List String × Value) :
    Document.writeLeaf o s leaf = (Document.stepOf o leaf).run files s := by
  unfold Document.writeLeaf
  rw [Document.resolve_eq]
  rfl

/-- Queueing the includes of a member is taking its steps. -/
theorem Document.queueIncludes_eq (o : Options) (s : Session) (v : Value) :
    Document.queueIncludes files o s v = s.runAll files (Document.includeSteps o v) := by
  unfold Document.queueIncludes Document.includeSteps
  cases Document.targets? v with
  | some targets =>
    unfold Session.runAll
    rw [List.foldl_map]
    rfl
  | none => rfl

/-- Taking the includes away is taking their steps. -/
theorem Document.takeIncludes_eq (o : Options) (s : Session) (fields : Entries Value) :
    Document.takeIncludes files o s fields =
      (s.runAll files (Document.splitIncludes o s.queue.isSome fields).1,
        (Document.splitIncludes o s.queue.isSome fields).2) := by
  unfold Document.takeIncludes Document.splitIncludes
  cases s.queue with
  | none => rfl
  | some queue =>
    cases fields.get? Document.includeKey with
    | none => rfl
    | some v =>
      dsimp only [Option.isSome_some]
      rw [Document.queueIncludes_eq]

theorem Conf.isScope_stepOf (o : Options) (queued : Bool) (a : LayeredConfig.Conf.Assignment) :
    (Conf.stepOf o queued a).isScope = false := by
  unfold Conf.stepOf
  split
  · rfl
  · split <;> rfl

/-- Carrying out assignments is taking their steps. -/
theorem Conf.foldl_apply_eq (o : Options) (s : Session)
    (assignments : List LayeredConfig.Conf.Assignment) :
    assignments.foldl (Conf.apply files o) s =
      s.runAll files (assignments.map (Conf.stepOf o s.queue.isSome)) := by
  induction assignments generalizing s with
  | nil => rfl
  | cons a rest ih =>
    rw [List.foldl_cons, ih, List.map_cons, Session.runAll_cons, Conf.apply_eq,
      Step.queue_run]

/-- Writing leaves is taking their steps. -/
theorem Document.foldl_writeLeaf_eq (o : Options) (s : Session)
    (leaves : List (List String × Value)) :
    leaves.foldl (Document.writeLeaf o) s =
      s.runAll files (leaves.map (Document.stepOf o)) := by
  induction leaves generalizing s with
  | nil => rfl
  | cons leaf rest ih =>
    rw [List.foldl_cons, ih, List.map_cons, Session.runAll_cons, Document.writeLeaf_eq]

/-- Applying an assignment file is running its steps. -/
theorem Conf.process_eq (o : Options) (content : List Char) (s : Session) :
    Conf.process files o content s =
      .ok (s.runAll files (Conf.steps o content s.queue.isSome)) := by
  have hscope : ∀ step ∈ (Conf.assignments o content).map (Conf.stepOf o s.queue.isSome),
      step.isScope = false := by
    intro step hstep
    obtain ⟨a, _, rfl⟩ := List.mem_map.mp hstep
    exact Conf.isScope_stepOf o _ a
  apply s.within_eq files _ hscope
  intro s' hqueue
  -- Whether there is a queue is the same inside of the context.
  rw [← hqueue]
  exact Conf.foldl_apply_eq files o s' _

/-- Applying the members of a document is running their steps. -/
theorem Document.applyRoot_eq (o : Options) (name : String) (fields : Entries Value)
    (s : Session) :
    Document.applyRoot files o name fields s =
      .ok (s.runAll files (Document.memberSteps o name fields s.queue.isSome)) := by
  have hscope : ∀ rest, ∀ step ∈ (Value.fieldLeaves false rest).map (Document.stepOf o),
      step.isScope = false := by
    intro rest step hstep
    obtain ⟨leaf, _, rfl⟩ := List.mem_map.mp hstep
    rfl
  -- Includes are queued before the context of the document is entered.
  have hmembers : (if o.lower then Document.lowerOutermost fields else fields) =
    Document.members o fields := rfl
  unfold Document.applyRoot Document.memberSteps
  dsimp only
  rw [hmembers, Document.takeIncludes_eq, Session.runAll_append]
  apply Session.within_eq files _ _ (hscope _)
  intro s' _
  exact Document.foldl_writeLeaf_eq files o s' _

/-- Applying a document is running its steps. -/
theorem Document.process_eq (codec : Codec) (o : Options) (content : List Char) (s : Session) :
    Document.process files codec o content s =
      .ok (s.runAll files (Document.steps codec o content s.queue.isSome)) := by
  unfold Document.process Document.steps
  cases Document.root codec content with
  | ok fields => exact Document.applyRoot_eq files o codec.name fields s
  | error failure => rfl

/-- Writing the members of a plain value is running its steps. -/
theorem Plain.process_eq (data : Value) (s : Session) :
    Plain.process data s = s.runAll files (Plain.steps data) := by
  unfold Plain.process Plain.steps
  induction Plain.members data generalizing s with
  | nil => rfl
  | cons entry rest ih =>
    rw [List.foldl_cons, List.map_cons, Session.runAll_cons, ← ih]
    rfl

/-- **Processing is running the steps**, and it always comes to an end without a
    failure. -/
theorem process_eq (source : Source) (s : Session) :
    source.process files s = .ok (s.runAll files (source.steps s.queue.isSome)) := by
  cases source with
  | conf content o => exact Conf.process_eq files o content s
  | document codec content o => exact Document.process_eq files codec o content s
  | plain data => exact congrArg Except.ok (Plain.process_eq files data s)

end Source

end LayeredConfig
