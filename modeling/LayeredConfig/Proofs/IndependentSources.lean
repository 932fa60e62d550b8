import LayeredConfig.Proofs.Externals
import LayeredConfig.Proofs.WriteOrder

/-! # Independent sources

    Sources that keep out of each other's way can be applied in any order. They are
    independent where no key of one is related to a key of the other, or to a name that the
    other refers to. It is enough to know the texts and the options for that, since keys and
    names do not depend on the store; a key counts even where its write is left out.

    What is compared is the ground that a session covers: the store, the definitions, and
    which names are external. The contexts are left aside, since each source brings its own,
    and so is the context in which an external name was used first, which does depend on the
    order.

    On the ground a step comes to a write or to nothing. Writes commute if each spares the
    key and the names of the other, and sparing steps do not see each other's writes; so
    steps commute, then a step and a run, then two runs.

    **Main result.** `independent_sources_commute`.
-/

namespace LayeredConfig

/-! ## What sources refer to -/

/-- The names that a step refers to. -/
def Step.names : Step → List String
  | .assign _ _ f => f.names
  | .append _ f => f.names
  | _ => []

namespace Source

/-- The names that the values of an assignment file are made from. -/
def Conf.names (o : Options) (content : List Char) : List String :=
  (Conf.assignments o content).flatMap (LayeredConfig.Conf.Assignment.names o)

/-- The names that the leaves of a document are made from. -/
def Document.names (codec : Codec) (o : Options) (content : List Char) : List String :=
  match Document.root codec content with
  | .ok fields =>
    (Value.fieldLeaves false (Document.members o fields)).flatMap fun leaf =>
      (Document.leafFormula o leaf.2).names
  | .error _ => []

/-- The names that a source refers to, where there is no queue. -/
def names : Source → List String
  | .conf content o => Conf.names o content
  | .document codec content o => Document.names codec o content
  | .plain _ => []

theorem flatMap_names_within (context : String) (steps : List Step) :
    (Step.within context steps).flatMap Step.names = steps.flatMap Step.names := by
  simp [Step.within, Step.names]

theorem Conf.names_stepOf (o : Options) (a : LayeredConfig.Conf.Assignment) :
    (Conf.stepOf o false a).names = a.names o := by
  unfold Conf.stepOf
  rw [Bool.false_and, if_neg Bool.false_ne_true]
  split <;> rfl

/-- Without a queue a document is applied as it is. -/
theorem Document.splitIncludes_unqueued (o : Options) (fields : Entries Value) :
    Document.splitIncludes o false fields = ([], fields) := rfl

/-- The names that a source refers to are those of its steps. -/
theorem flatMap_names_steps (source : Source) :
    (source.steps false).flatMap Step.names = source.names := by
  cases source with
  | conf content o =>
    show (Conf.steps o content false).flatMap Step.names = Conf.names o content
    unfold Conf.steps Conf.names
    rw [flatMap_names_within, List.flatMap_map]
    simp only [Conf.names_stepOf]
  | document codec content o =>
    show (Document.steps codec o content false).flatMap Step.names = Document.names codec o content
    unfold Document.steps Document.names Document.memberSteps
    cases Document.root codec content with
    | error failure => rfl
    | ok fields =>
      simp only [Document.splitIncludes_unqueued, List.nil_append]
      rw [flatMap_names_within, List.flatMap_map]
      rfl
  | plain data =>
    show (Plain.steps data).flatMap Step.names = []
    unfold Plain.steps
    rw [List.flatMap_map]
    exact List.flatMap_eq_nil_iff.mpr fun _ _ => rfl

end Source

/-! ## Independence -/

/-- A step spares another one where its key is related neither to the key of the other nor
    to a name that the other refers to. -/
def Step.Spares (a : Addressing) (step other : Step) : Prop :=
  ∀ key ∈ step.key?, ∀ name, name ∈ other.key? ∨ name ∈ other.names → ¬ a.Related key name

/-- Steps are independent where each spares the other. -/
def Step.Independent (a : Addressing) (step other : Step) : Prop :=
  step.Spares a other ∧ other.Spares a step

/-- A source spares another one where none of its keys is related to a key of the other or
    to a name that the other refers to. -/
def Source.Spares (a : Addressing) (source other : Source) : Prop :=
  ∀ key ∈ source.keys false, ∀ name ∈ other.keys false ++ other.names, ¬ a.Related key name

/-- Sources are independent where each spares the other. -/
def Source.Independent (a : Addressing) (first second : Source) : Prop :=
  first.Spares a second ∧ second.Spares a first

instance (a : Addressing) (source other : Source) : Decidable (source.Spares a other) :=
  inferInstanceAs (Decidable (∀ key ∈ source.keys false,
    ∀ name ∈ other.keys false ++ other.names, ¬ a.Related key name))

instance (a : Addressing) (first second : Source) : Decidable (first.Independent a second) :=
  inferInstanceAs (Decidable (_ ∧ _))

/-- The steps of a source spare those of every source that it spares. -/
theorem Source.Spares.steps {a : Addressing} {source other : Source} (h : source.Spares a other)
    {step step' : Step} (hstep : step ∈ source.steps false)
    (hstep' : step' ∈ other.steps false) : step.Spares a step' := by
  intro key hkey name hname
  have hmem : key ∈ source.keys false := by
    rw [← source.filterMap_key?_steps]
    exact List.mem_filterMap.mpr ⟨step, hstep, hkey⟩
  apply h key hmem name
  rw [List.mem_append, ← other.filterMap_key?_steps, ← other.flatMap_names_steps]
  rcases hname with hname | hname
  · exact .inl (List.mem_filterMap.mpr ⟨step', hstep', hname⟩)
  · exact .inr (List.mem_flatMap.mpr ⟨step', hstep', hname⟩)

/-! ## Writes on the ground -/

/-- What a session comes to, apart from contexts, queue and notices. -/
@[ext] structure Ground where
  store : Store
  definitions : Entries Definition
  /-- Which names are external. -/
  external : String → Bool

/-- A write of a value under a key. -/
structure Write where
  key : String
  value : Value
  /-- The names that the value was made from, where the write is recorded. -/
  names? : Option (List String)

namespace Write

/-- Whether the value was made from a name. -/
def uses (w : Write) (name : String) : Bool :=
  decide (name ∈ w.names?.getD [])

/-- Whether the write gives a name a value that was made from nothing else. -/
def settles (w : Write) (name : String) : Bool :=
  decide (w.names? = some [] ∧ name = w.key)

/-- The definitions after a write within a context. -/
def define (w : Write) (context : String) (definitions : Entries Definition) :
    Entries Definition :=
  match w.names? with
  | some names => definitions.insert w.key ⟨context, names⟩
  | none => definitions

/-- A write spares another one where its key is related neither to the key of the other
    nor to a name that the other was made from. -/
def Spares (a : Addressing) (w v : Write) : Prop :=
  ∀ name, name = v.key ∨ v.uses name = true → ¬ a.Related w.key name

/-- A definition does not show under other keys. -/
theorem contains_define_of_ne {w : Write} {name : String} (h : w.key ≠ name) (context : String)
    (definitions : Entries Definition) :
    (w.define context definitions).contains name = definitions.contains name := by
  unfold define Entries.contains
  split
  · rw [Entries.get?_insert_of_ne h]
  · rfl

/-- Definitions under different keys can be recorded in any order. -/
theorem define_comm {w v : Write} (h : w.key ≠ v.key) (c d : String)
    (definitions : Entries Definition) :
    v.define d (w.define c definitions) = w.define c (v.define d definitions) := by
  unfold define
  cases w.names? with
  | none => rfl
  | some names =>
    cases v.names? with
    | none => rfl
    | some names' => exact Entries.insert_comm definitions h _ _

end Write

namespace Ground

/-- The ground after a write within a context. A name is external after it if it was
    before or is used without a definition, unless the write settles it. -/
def write (context : String) (g : Ground) (w : Write) : Ground where
  store := g.store.set w.key w.value
  definitions := w.define context g.definitions
  external name :=
    !w.settles name && (g.external name || (w.uses name && !g.definitions.contains name))

@[simp] theorem addressing_write (context : String) (g : Ground) (w : Write) :
    (g.write context w).store.addressing = g.store.addressing :=
  g.store.addressing_set w.key w.value

/-- A write that spares another one neither settles nor defines a name that the other
    uses. -/
theorem not_settles_of_uses {a : Addressing} {w v : Write} (h : w.Spares a v) {name : String}
    (huses : v.uses name = true) (context : String) (g : Ground) :
    w.settles name = false ∧
      (g.write context w).definitions.contains name = g.definitions.contains name := by
  have hne : w.key ≠ name := Addressing.ne_of_not_related (h name (.inr huses))
  constructor
  · simp [Write.settles, hne.symm]
  · exact Write.contains_define_of_ne hne context g.definitions

/-- Writes that spare each other make the same names external in any order. -/
theorem external_comm {a : Addressing} {w v : Write} (hw : w.Spares a v) (hv : v.Spares a w)
    (c d : String) (g : Ground) :
    ((g.write c w).write d v).external = ((g.write d v).write c w).external := by
  funext name
  show (!v.settles name && ((!w.settles name && (g.external name ||
      (w.uses name && !g.definitions.contains name))) ||
      (v.uses name && !(g.write c w).definitions.contains name))) =
    (!w.settles name && ((!v.settles name && (g.external name ||
      (v.uses name && !g.definitions.contains name))) ||
      (w.uses name && !(g.write d v).definitions.contains name)))
  -- What one of them uses is neither settled nor defined by the other.
  cases hwuses : w.uses name with
  | false =>
    cases hvuses : v.uses name with
    | false => simp [Bool.and_left_comm]
    | true =>
      obtain ⟨hsettles, hdefined⟩ := not_settles_of_uses hw hvuses c g
      simp [hsettles, hdefined]
  | true =>
    obtain ⟨hsettles, hdefined⟩ := not_settles_of_uses hv hwuses d g
    cases hvuses : v.uses name with
    | false => simp [hsettles, hdefined]
    | true =>
      obtain ⟨hsettles', hdefined'⟩ := not_settles_of_uses hw hvuses c g
      simp [hsettles, hdefined, hsettles', hdefined']

/-- **Writes that spare each other commute.** -/
theorem write_comm {g : Ground} {w v : Write} (hw : w.Spares g.store.addressing v)
    (hv : v.Spares g.store.addressing w) (c d : String) :
    (g.write c w).write d v = (g.write d v).write c w := by
  have hunrelated := hw v.key (.inl rfl)
  ext1
  · exact Store.set_comm hunrelated w.value v.value
  · exact Write.define_comm (Addressing.ne_of_not_related hunrelated) c d g.definitions
  · exact external_comm hw hv c d g

end Ground

/-! ## Steps on the ground -/

/-- What a step comes to: a write, unless it writes nothing or its key is to be kept. -/
def Step.write? (store : Store) : Step → Option Write
  | .assign overwrite key f =>
    if overwrite || !store.has key then some ⟨key, f.value store, some f.names⟩ else none
  | .append key f =>
    some ⟨key, .array (Source.Conf.itemsOf (store.get? key) ++ [f.value store]), some f.names⟩
  | .put key v => some ⟨key, v, none⟩
  | _ => none

namespace Step

/-- A write has the key of its step and uses no names but those of its step. -/
theorem of_write? {step : Step} {store : Store} {w : Write} (h : step.write? store = some w) :
    w.key ∈ step.key? ∧ ∀ name, w.uses name = true → name ∈ step.names := by
  cases step with
  | assign overwrite key f =>
    rw [write?] at h
    split at h
    · obtain rfl := Option.some.inj h
      exact ⟨rfl, fun name huses => of_decide_eq_true huses⟩
    · exact nomatch h
  | append key f =>
    obtain rfl := Option.some.inj h
    exact ⟨rfl, fun name huses => of_decide_eq_true huses⟩
  | put key v =>
    obtain rfl := Option.some.inj h
    exact ⟨rfl, fun name huses => nomatch of_decide_eq_true huses⟩
  | _ => exact nomatch h

/-- What a step comes to depends only on what its key and its names read. -/
theorem write?_congr {step : Step} {s t : Store}
    (h : ∀ name, name ∈ step.key? ∨ name ∈ step.names → s.get? name = t.get? name) :
    step.write? s = step.write? t := by
  cases step with
  | assign overwrite key f =>
    have hvalue : f.value s = f.value t := f.value_congr fun n hn => h n (.inr hn)
    have hhas : s.has key = t.has key := congrArg Option.isSome (h key (.inl rfl))
    rw [write?, write?, hvalue, hhas]
  | append key f =>
    have hvalue : f.value s = f.value t := f.value_congr fun n hn => h n (.inr hn)
    have hitems := h key (.inl rfl)
    rw [write?, write?, hvalue, hitems]
  | _ => rfl

/-- The writes of steps spare each other where the steps do. -/
theorem Spares.write {a : Addressing} {step other : Step} (h : step.Spares a other)
    {s t : Store} {w v : Write} (hw : step.write? s = some w) (hv : other.write? t = some v) :
    w.Spares a v := by
  obtain ⟨hkey, -⟩ := of_write? hw
  obtain ⟨hother, huses⟩ := of_write? hv
  intro name hname
  apply h w.key hkey name
  rcases hname with rfl | hname
  · exact .inl hother
  · exact .inr (huses name hname)

end Step

namespace Ground

/-- Takes a step within a context. -/
def take (g : Ground) (context : String) (step : Step) : Ground :=
  match step.write? g.store with
  | some w => g.write context w
  | none => g

/-- Takes steps within a context, one after the other. -/
def takeAll (g : Ground) (context : String) (steps : List Step) : Ground :=
  steps.foldl (fun g step => g.take context step) g

@[simp] theorem addressing_take (g : Ground) (context : String) (step : Step) :
    (g.take context step).store.addressing = g.store.addressing := by
  unfold take
  split
  · exact addressing_write context g _
  · rfl

/-- A step does not change what a step that it spares comes to. -/
theorem write?_take {g : Ground} {step other : Step}
    (h : step.Spares g.store.addressing other) (context : String) :
    other.write? (g.take context step).store = other.write? g.store := by
  unfold take
  cases hwrite : step.write? g.store with
  | none => rfl
  | some w =>
    have hkey := (Step.of_write? hwrite).1
    apply Step.write?_congr
    intro name hname
    exact Store.get?_set_of_not_related (h w.key hkey name hname) w.value

/-- **Step.** Independent steps commute. -/
theorem take_comm {g : Ground} {step other : Step}
    (h : step.Independent g.store.addressing other) (c d : String) :
    (g.take c step).take d other = (g.take d other).take c step := by
  have hother := write?_take h.1 c
  have hstep := write?_take h.2 d
  unfold take at hother hstep ⊢
  rw [hother, hstep]
  cases hw : step.write? g.store with
  | none => rfl
  | some w =>
    cases hv : other.write? g.store with
    | none => rfl
    | some v => exact write_comm (h.1.write hw hv) (h.2.write hv hw) c d

/-- A step commutes with a run of steps that it is independent of. -/
theorem takeAll_take {g : Ground} {step : Step} {others : List Step}
    (h : ∀ other ∈ others, step.Independent g.store.addressing other) (c d : String) :
    (g.take c step).takeAll d others = (g.takeAll d others).take c step := by
  induction others generalizing g with
  | nil => rfl
  | cons other rest ih =>
    have hother := h other List.mem_cons_self
    have hrest : ∀ other' ∈ rest,
        step.Independent (g.take d other).store.addressing other' := by
      intro other' hmem
      rw [addressing_take]
      exact h other' (List.mem_cons_of_mem _ hmem)
    calc (g.take c step).takeAll d (other :: rest)
        = ((g.take c step).take d other).takeAll d rest := rfl
      _ = ((g.take d other).take c step).takeAll d rest := by rw [take_comm hother]
      _ = ((g.take d other).takeAll d rest).take c step := ih hrest
      _ = (g.takeAll d (other :: rest)).take c step := rfl

/-- **Run.** Runs of independent steps commute. -/
theorem takeAll_comm {g : Ground} {steps others : List Step}
    (h : ∀ step ∈ steps, ∀ other ∈ others, step.Independent g.store.addressing other)
    (c d : String) :
    (g.takeAll c steps).takeAll d others = (g.takeAll d others).takeAll c steps := by
  induction steps generalizing g with
  | nil => rfl
  | cons step rest ih =>
    obtain ⟨hstep, hrest⟩ := List.forall_mem_cons.mp h
    have hnext : ∀ step' ∈ rest, ∀ other ∈ others,
        step'.Independent (g.take c step).store.addressing other := by
      rw [addressing_take]
      exact hrest
    calc (g.takeAll c (step :: rest)).takeAll d others
        = ((g.take c step).takeAll c rest).takeAll d others := rfl
      _ = ((g.take c step).takeAll d others).takeAll c rest := ih hnext
      _ = ((g.takeAll d others).take c step).takeAll c rest := by rw [takeAll_take hstep]
      _ = (g.takeAll d others).takeAll c (step :: rest) := rfl

end Ground

/-! ## Sessions on the ground -/

namespace Tracker

/-- A definition records itself and nothing else. -/
theorem definitions_define_eq (t : Tracker) (key : String) (dependencies : List String) :
    (t.define key dependencies).definitions =
      t.definitions.insert key ⟨t.context, dependencies⟩ := by
  unfold define
  dsimp only
  rw [definitions_foldl_use]

/-- The names that are defined after a definition. -/
theorem contains_definitions_define (t : Tracker) (key : String) (dependencies : List String)
    (n : String) :
    (t.define key dependencies).definitions.contains n =
      (decide (n = key) || t.definitions.contains n) := by
  rw [definitions_define_eq]
  unfold Entries.contains
  by_cases hn : n = key
  · subst hn
    simp
  · simp [Entries.get?_insert_of_ne (Ne.symm hn), hn]

/-- The names that are external after a definition. -/
theorem contains_externals_define (t : Tracker) (key : String) (dependencies : List String)
    (n : String) :
    (t.define key dependencies).externals.contains n =
      (!decide (dependencies = [] ∧ n = key) &&
        (t.externals.contains n || (decide (n ∈ dependencies) && !t.definitions.contains n))) := by
  show ((t.define key dependencies).externals.get? n).isSome = _
  rw [externals_define]
  by_cases hsettled : dependencies = [] ∧ n = key
  · rw [if_pos hsettled, decide_eq_true hsettled]
    rfl
  · rw [if_neg hsettled, decide_eq_false hsettled, Option.isSome_or]
    by_cases huses : n ∈ dependencies ∧ t.definitions.contains n = false
    · rw [if_pos huses, decide_eq_true huses.1, huses.2]
      rfl
    · have hknown : (decide (n ∈ dependencies) && !t.definitions.contains n) = false := by
        simpa using huses
      rw [if_neg huses, hknown]
      rfl

end Tracker

namespace Session

/-- The ground that a session covers. -/
def ground (s : Session) : Ground :=
  ⟨s.store, s.tracker.definitions, s.tracker.externals.contains⟩

/-- A write with a record, on the ground. -/
theorem ground_define (s : Session) (key : String) (v : Value) (names : List String) :
    (s.define key v names).ground = s.ground.write s.tracker.context ⟨key, v, some names⟩ := by
  ext1
  · rfl
  · exact s.tracker.definitions_define_eq key names
  · funext name
    have hexternal := s.tracker.contains_externals_define key names name
    simpa [ground, define, Ground.write, Write.settles, Write.uses] using hexternal

/-- A write without a record, on the ground. -/
theorem ground_put (s : Session) (key : String) (v : Value) (context : String) :
    { s with store := s.store.set key v }.ground = s.ground.write context ⟨key, v, none⟩ := by
  ext1
  · rfl
  · rfl
  · funext name
    simp [ground, Ground.write, Write.settles, Write.uses]

variable {files : Snapshot}

/-- A step, on the ground. -/
theorem ground_run {s : Session} (hqueue : s.queue = none) (step : Step) :
    (step.run files s).ground = s.ground.take s.tracker.context step := by
  cases step with
  | enter context => rfl
  | leave =>
    unfold Step.run
    rw [Tracker.leave_eq]
    rfl
  | assign overwrite key f =>
    show (s.defineUnless overwrite key (f.value s.store) f.names).ground = _
    unfold defineUnless Ground.take
    rw [Step.write?]
    by_cases hwrite : (overwrite || !s.store.has key) = true
    · rw [if_pos hwrite, show s.ground.store = s.store from rfl, if_pos hwrite]
      exact s.ground_define key _ f.names
    · rw [if_neg hwrite, show s.ground.store = s.store from rfl, if_neg hwrite]
  | append key f => exact s.ground_define key _ f.names
  | put key v => exact s.ground_put key v s.tracker.context
  | «include» target base =>
    unfold Step.run
    rw [hqueue]
    rfl
  | note n => rfl

/-- Steps that neither enter nor leave a context, on the ground. -/
theorem ground_runAll {s : Session} (hqueue : s.queue = none) {steps : List Step}
    (hscope : ∀ step ∈ steps, step.isScope = false) :
    (s.runAll files steps).ground = s.ground.takeAll s.tracker.context steps := by
  induction steps generalizing s with
  | nil => rfl
  | cons step rest ih =>
    obtain ⟨hstep, hrest⟩ := List.forall_mem_cons.mp hscope
    have hnone : (step.run files s).queue = none := queue_runAll_eq_none files hqueue [step]
    have hcontext : (step.run files s).tracker.context = s.tracker.context := by
      unfold Tracker.context Tracker.context?
      rw [Step.contexts_run files hstep]
    rw [runAll_cons, ih hnone hrest, hcontext, ground_run hqueue]
    rfl

/-- Steps within a context, on the ground. -/
theorem ground_within {s : Session} (hqueue : s.queue = none) (context : String)
    {steps : List Step} (hscope : ∀ step ∈ steps, step.isScope = false) :
    (s.runAll files (Step.within context steps)).ground =
      s.ground.takeAll context (Step.within context steps) := by
  have hinner : (runAll files { s with tracker := s.tracker.push context } steps).ground =
      s.ground.takeAll context steps :=
    @ground_runAll files { s with tracker := s.tracker.push context } hqueue steps hscope
  have hleave : ∀ s' : Session, (Step.leave.run files s').ground = s'.ground := by
    intro s'
    unfold Step.run
    rw [Tracker.leave_eq]
    rfl
  unfold Step.within
  rw [List.cons_append, runAll_cons, runAll_append, runAll_cons, runAll_nil, hleave]
  unfold Ground.takeAll at hinner ⊢
  rw [List.foldl_cons, List.foldl_append]
  exact hinner

/-- Writes without a record, on the ground. -/
theorem ground_plain (s : Session) (data : Value) (context : String) :
    (s.runAll files (Source.Plain.steps data)).ground =
      s.ground.takeAll context (Source.Plain.steps data) := by
  unfold Source.Plain.steps
  induction Source.Plain.members data generalizing s with
  | nil => rfl
  | cons entry rest ih =>
    have hput := s.ground_put (String.ofList (rewriteNamespace entry.1.toList)) entry.2 context
    rw [List.map_cons, runAll_cons, ih]
    exact congrArg (fun g => Ground.takeAll g context _) hput

end Session

/-- The context in which a source records its definitions. -/
def Source.recordContext : Source → String
  | .conf _ o => o.contextName "conf"
  | .document codec _ o => o.contextName codec.name
  | .plain _ => ""

/-- A source, on the ground. -/
theorem Session.ground_source {files : Snapshot} {s : Session} (hqueue : s.queue = none)
    (source : Source) :
    (s.runAll files (source.steps false)).ground =
      s.ground.takeAll source.recordContext (source.steps false) := by
  cases source with
  | conf content o =>
    apply ground_within hqueue
    intro step hstep
    obtain ⟨a, -, rfl⟩ := List.mem_map.mp hstep
    exact Source.Conf.isScope_stepOf o false a
  | document codec content o =>
    show (s.runAll files (Source.Document.steps codec o content false)).ground =
      s.ground.takeAll (o.contextName codec.name) (Source.Document.steps codec o content false)
    unfold Source.Document.steps
    cases Source.Document.root codec content with
    | error failure => rfl
    | ok fields =>
      apply ground_within hqueue
      intro step hstep
      obtain ⟨leaf, -, rfl⟩ := List.mem_map.mp hstep
      rfl
  | plain data => exact s.ground_plain data ""

/-! ## Sources -/

/-- Two sources, on the ground. -/
theorem Session.ground_program {files : Snapshot} {s : Session} (hqueue : s.queue = none)
    (first second : Source) :
    (s.runAll files (Source.program [first, second])).ground =
      (s.ground.takeAll first.recordContext (first.steps false)).takeAll second.recordContext
        (second.steps false) := by
  have hnone := queue_runAll_eq_none files hqueue (first.steps false)
  unfold Source.program
  rw [List.flatMap_cons, runAll_append, List.flatMap_singleton, ground_source hnone,
    ground_source hqueue]

/-- **Independent sources commute.** Apply two sources that are independent for the
    addressing of the store, one after the other and in the other order. Both come to an
    end, with the same store, the same definitions and the same external names. -/
theorem independent_sources_commute (files : Snapshot) (first second : Source) (s : Session)
    (hqueue : s.queue = none) (hindependent : first.Independent s.store.addressing second) :
    ∃ t u, s.processAll files [first, second] = .ok t ∧
      s.processAll files [second, first] = .ok u ∧
      t.store = u.store ∧
      t.tracker.definitions = u.tracker.definitions ∧
      ∀ name, name ∈ t.tracker.externals.keys ↔ name ∈ u.tracker.externals.keys := by
  refine ⟨_, _, Session.processAll_eq files hqueue _, Session.processAll_eq files hqueue _, ?_⟩
  have hsteps : ∀ step ∈ first.steps false, ∀ other ∈ second.steps false,
      step.Independent s.ground.store.addressing other := by
    intro step hstep other hother
    exact ⟨hindependent.1.steps hstep hother, hindependent.2.steps hother hstep⟩
  have hground : (s.runAll files (Source.program [first, second])).ground =
      (s.runAll files (Source.program [second, first])).ground := by
    rw [Session.ground_program hqueue, Session.ground_program hqueue]
    exact Ground.takeAll_comm hsteps first.recordContext second.recordContext
  refine ⟨congrArg Ground.store hground, congrArg Ground.definitions hground, fun name => ?_⟩
  rw [Entries.mem_keys_iff, Entries.mem_keys_iff]
  exact Bool.eq_iff_iff.mp (congrFun (congrArg Ground.external hground) name)

/-- An assignment file that appends and refers to the user, and a document that keeps what
    is there and writes into the same object. -/
theorem independent_sources_commute_in_one_object :
    ∃ t u,
      (Session.fresh (.nested [("db", .object [("port", .null)])] .standard)).processAll
        ⟨fun _ => none⟩
        [.conf "db::path[]=$home/db\nlog=$user".toList .standard,
          .document .json "\x7b\"db\": \x7b\"port\": 1, \"name\": \"$\x7buser\x7d\"\x7d\x7d".toList
            { Options.standard with overwrite := false }] = .ok t ∧
      (Session.fresh (.nested [("db", .object [("port", .null)])] .standard)).processAll
        ⟨fun _ => none⟩
        [.document .json "\x7b\"db\": \x7b\"port\": 1, \"name\": \"$\x7buser\x7d\"\x7d\x7d".toList
            { Options.standard with overwrite := false },
          .conf "db::path[]=$home/db\nlog=$user".toList .standard] = .ok u ∧
      t.store = u.store := by
  obtain ⟨t, u, ht, hu, hstore, _, _⟩ := independent_sources_commute ⟨fun _ => none⟩
    (.conf "db::path[]=$home/db\nlog=$user".toList .standard)
    (.document .json "\x7b\"db\": \x7b\"port\": 1, \"name\": \"$\x7buser\x7d\"\x7d\x7d".toList
      { Options.standard with overwrite := false })
    (Session.fresh (.nested [("db", .object [("port", .null)])] .standard)) rfl
    (by decide +kernel)
  exact ⟨t, u, ht, hu, hstore⟩

end LayeredConfig
