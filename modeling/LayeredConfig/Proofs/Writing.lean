import LayeredConfig.Proofs.Steps
import LayeredConfig.Proofs.WriteOrder

/-! # How and where sources write

    Whether a source overwrites what is there, and which keys it writes at all, are
    matters of its text and its options. They are read off the source here, and shown
    to be what its steps do.

    **Main results.** `Source.Assigns.steps` for the one and
    `Source.filterMap_key?_steps` for the other.
-/

namespace LayeredConfig

/-! ## With overwriting, or without -/

/-- A step by which settings are written, if at all, with overwriting or without, and
    that appends to no list. -/
def Step.Assigns (overwrite : Bool) : Step → Prop
  | .assign overwrites _ _ => overwrites = overwrite
  | .append _ _ => False
  | .put _ _ => overwrite = true
  | _ => True

/-- A source by which settings are written with overwriting or without, and that
    appends to no list. A plain value always overwrites. -/
def Source.Assigns (overwrite : Bool) : Source → Prop
  | .conf content o =>
    o.overwrite = overwrite ∧ ∀ a ∈ Source.Conf.assignments o content, a.append = false
  | .document _ _ o => o.overwrite = overwrite
  | .plain _ => overwrite = true

instance (overwrite : Bool) : (source : Source) → Decidable (source.Assigns overwrite)
  | .conf content o =>
    inferInstanceAs (Decidable (o.overwrite = overwrite ∧
      ∀ a ∈ Source.Conf.assignments o content, a.append = false))
  | .document _ _ o => inferInstanceAs (Decidable (o.overwrite = overwrite))
  | .plain _ => inferInstanceAs (Decidable (overwrite = true))

namespace Source

theorem Conf.assigns_stepOf (o : Options) (queued : Bool) {a : LayeredConfig.Conf.Assignment}
    (happend : a.append = false) : (Conf.stepOf o queued a).Assigns o.overwrite := by
  unfold Conf.stepOf
  split
  · trivial
  · rw [happend, if_neg Bool.false_ne_true]
    rfl

/-- The steps of a source assign as the source does. -/
theorem Assigns.steps {overwrite : Bool} {source : Source} (h : source.Assigns overwrite)
    (queued : Bool) : ∀ step ∈ source.steps queued, step.Assigns overwrite := by
  intro step hstep
  cases stepCase_of_mem hstep with
  | assignment content o ha =>
    obtain ⟨rfl, happend⟩ := h
    exact Conf.assigns_stepOf o queued (happend _ ha)
  | leaf codec content o leaf => exact h
  | member data key v => exact h
  | _ => trivial

/-! ## Which keys are written -/

end Source

/-- The key that a step writes, if it writes any. -/
def Step.key? : Step → Option String
  | .assign _ key _ => some key
  | .append key _ => some key
  | .put key _ => some key
  | _ => none

/-- **What a step writes.** Nothing, where it has no key or its key is kept; or else a
    value under its key, which a step that does not overwrite writes only where nothing
    is read. -/
theorem Step.store_run (files : Snapshot) (step : Step) (s : Session) :
    ((step.run files s).store = s.store ∧ ∀ key ∈ step.key?, s.store.has key = true) ∨
      ∃ key ∈ step.key?, ∃ v, (step.run files s).store = s.store.set key v ∧
        (step.Assigns false → s.store.has key = false) := by
  cases step with
  | enter context => exact .inl ⟨rfl, nofun⟩
  | leave => exact .inl ⟨rfl, nofun⟩
  | assign overwrite key f =>
    unfold run Session.defineUnless
    dsimp only
    split
    · -- Without overwriting the key is written only because it reads nothing.
      next hwrite =>
      refine .inr ⟨key, rfl, f.value s.store, rfl, ?_⟩
      intro heq
      subst heq
      simpa using hwrite
    · next hkeep =>
      refine .inl ⟨rfl, fun key' hkey' => ?_⟩
      obtain rfl := Option.some.inj hkey'
      simp only [Bool.or_eq_true, Bool.not_eq_true', not_or, Bool.not_eq_false] at hkeep
      exact hkeep.2
  | append key f => exact .inr ⟨key, rfl, _, rfl, fun h => h.elim⟩
  | put key v => exact .inr ⟨key, rfl, v, rfl, fun h => nomatch h⟩
  | «include» target base =>
    refine .inl ⟨?_, nofun⟩
    unfold run
    dsimp only
    split
    · exact Session.store_queueInclude _ _ _ _
    · rfl
  | note n => exact .inl ⟨rfl, nofun⟩

/-- A step never changes the addressing. -/
theorem Step.addressing_run (files : Snapshot) (step : Step) (s : Session) :
    (step.run files s).store.addressing = s.store.addressing := by
  rcases step.store_run files s with ⟨hsame, _⟩ | ⟨key, _, v, hset, _⟩
  · rw [hsame]
  · rw [hset, Store.addressing_set]

/-- **Run.** A run never changes the addressing. -/
theorem Session.addressing_runAll (files : Snapshot) (s : Session) (steps : List Step) :
    (s.runAll files steps).store.addressing = s.store.addressing := by
  induction steps generalizing s with
  | nil => rfl
  | cons step rest ih => rw [runAll_cons, ih, Step.addressing_run]

/-- A step whose key is unrelated to a name does not change what the name reads. -/
theorem Step.get?_run_of_not_related (files : Snapshot) {step : Step} {s : Session} {name : String}
    (h : ∀ key ∈ step.key?, ¬ s.store.addressing.Related key name) :
    (step.run files s).store.get? name = s.store.get? name := by
  rcases step.store_run files s with ⟨hsame, _⟩ | ⟨key, hkey, v, hset, _⟩
  · rw [hsame]
  · rw [hset, Store.get?_set_of_not_related (h key hkey)]

/-- **Run.** Steps whose keys are unrelated to a name do not change what the name reads. -/
theorem Session.get?_runAll_of_not_related (files : Snapshot) {s : Session} {steps : List Step}
    {name : String}
    (h : ∀ step ∈ steps, ∀ key ∈ step.key?, ¬ s.store.addressing.Related key name) :
    (s.runAll files steps).store.get? name = s.store.get? name := by
  induction steps generalizing s with
  | nil => rfl
  | cons step rest ih =>
    obtain ⟨hstep, hrest⟩ := List.forall_mem_cons.mp h
    rw [← step.addressing_run files s] at hrest
    rw [runAll_cons, ih hrest, Step.get?_run_of_not_related files hstep]

namespace Source

/-- The keys of an assignment file. With a queue an include is none of them. -/
def Conf.keys (o : Options) (content : List Char) (queued : Bool) : List String :=
  ((Conf.assignments o content).filter fun a => !(queued && a.isInclude)).map (·.key)

/-- The keys of a document: those of the leaves, the include member apart where there is
    a queue. -/
def Document.keys (codec : Codec) (o : Options) (content : List Char) (queued : Bool) :
    List String :=
  match Document.root codec content with
  | .ok fields =>
    (Value.fieldLeaves false (Document.splitIncludes o queued (Document.members o fields)).2).map
      fun leaf => o.keySeparator.join leaf.1
  | .error _ => []

/-- The keys of a plain value. -/
def Plain.keys (data : Value) : List String :=
  (Plain.members data).map fun (key, _) => String.ofList (rewriteNamespace key.toList)

/-- The keys that a source writes, whether or not they are there already. -/
def keys (queued : Bool) : Source → List String
  | .conf content o => Conf.keys o content queued
  | .document codec content o => Document.keys codec o content queued
  | .plain data => Plain.keys data

theorem filterMap_key?_within (context : String) (steps : List Step) :
    (Step.within context steps).filterMap Step.key? = steps.filterMap Step.key? := by
  unfold Step.within
  rw [List.cons_append, List.filterMap_cons_none rfl, List.filterMap_append]
  exact List.append_nil _

theorem Conf.key?_stepOf (o : Options) (queued : Bool) (a : LayeredConfig.Conf.Assignment) :
    (Conf.stepOf o queued a).key? = if queued && a.isInclude then none else some a.key := by
  unfold Conf.stepOf
  split
  · rfl
  · split <;> rfl

theorem Conf.filterMap_key?_steps (o : Options) (content : List Char) (queued : Bool) :
    (Conf.steps o content queued).filterMap Step.key? = Conf.keys o content queued := by
  unfold Conf.steps Conf.keys
  rw [filterMap_key?_within, List.filterMap_map, ← List.filterMap_eq_map, List.filterMap_filter]
  congr 1
  -- An assignment has a key unless its step is an include.
  funext a
  show (Conf.stepOf o queued a).key? = _
  rw [Conf.key?_stepOf]
  cases queued && a.isInclude <;> rfl

theorem Document.filterMap_key?_splitIncludes (o : Options) (queued : Bool)
    (fields : Entries Value) :
    (Document.splitIncludes o queued fields).1.filterMap Step.key? = [] := by
  rw [List.filterMap_eq_nil_iff]
  intro step hstep
  rcases Document.eq_of_mem_splitIncludes hstep with ⟨target, rfl⟩ | ⟨n, rfl⟩
  · rfl
  · rfl

theorem Document.filterMap_key?_steps (codec : Codec) (o : Options) (content : List Char)
    (queued : Bool) :
    (Document.steps codec o content queued).filterMap Step.key? =
      Document.keys codec o content queued := by
  unfold Document.steps Document.keys
  cases Document.root codec content with
  | error failure => rfl
  | ok fields =>
    dsimp only
    unfold Document.memberSteps
    dsimp only
    rw [List.filterMap_append, Document.filterMap_key?_splitIncludes, List.nil_append,
      filterMap_key?_within, List.filterMap_map, ← List.filterMap_eq_map]
    rfl

theorem Plain.filterMap_key?_steps (data : Value) :
    (Plain.steps data).filterMap Step.key? = Plain.keys data := by
  unfold Plain.steps Plain.keys
  rw [List.filterMap_map, ← List.filterMap_eq_map]
  rfl

/-- The keys of a source are those of its steps. -/
theorem filterMap_key?_steps (source : Source) (queued : Bool) :
    (source.steps queued).filterMap Step.key? = source.keys queued := by
  cases source with
  | conf content o => exact Conf.filterMap_key?_steps o content queued
  | document codec content o => exact Document.filterMap_key?_steps codec o content queued
  | plain data => exact Plain.filterMap_key?_steps data

end Source

end LayeredConfig
