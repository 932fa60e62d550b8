import LayeredConfig.Tracker
import Mathlib.Data.List.Induction

/-! # What a tracker knows, from its history

    A tracker is changed by three events: a context is entered, a context is left,
    a definition is recorded. What it knows in the end is determined by the history
    of these events, and can be said without following it from state to state:

    * a name is external when some definition used it before anything had defined
      it, and nothing ever defined it without dependencies;
    * its context is the innermost one at the first such use;
    * the definition of a key is the last one of the history.

    **Main result.** `knows_history`: the closed form, for every history. It is the
    invariant `Reflects`, which every event keeps.
-/

namespace LayeredConfig

/-! ## Histories -/

/-- What happens to a tracker. -/
inductive TrackerEvent where
  /-- A context is entered. -/
  | enter (context : String)
  /-- The innermost context is left. -/
  | leave
  /-- A definition is recorded. -/
  | define (key : String) (dependencies : List String)
  deriving DecidableEq, Repr

namespace Tracker

/-- Leaves the innermost context. Where there is none the attempt fails, and nothing
    changes. -/
def leave (t : Tracker) : Tracker :=
  match t.pop with
  | .ok (_, left) => left
  | .error _ => t

/-- The tracker after an event. -/
def record (t : Tracker) : TrackerEvent → Tracker
  | .enter context => t.push context
  | .leave => t.leave
  | .define key dependencies => t.define key dependencies

/-- The tracker after a history that begins with nothing recorded. -/
def after (history : List TrackerEvent) : Tracker :=
  history.foldl record empty

end Tracker

namespace TrackerHistory

/-- The contexts entered and not left, the innermost first. -/
def contexts (history : List TrackerEvent) : List String :=
  history.foldl (fun stack event =>
    match event with
    | .enter context => context :: stack
    | .leave => stack.tail
    | .define _ _ => stack) []

/-- The innermost context, or the empty text outside of all. -/
def context (history : List TrackerEvent) : String := (contexts history).head?.getD ""

/-- A key has been defined. -/
def Defines (history : List TrackerEvent) (key : String) : Prop :=
  ∃ dependencies, .define key dependencies ∈ history

/-- A key has been defined without dependencies. -/
def Settles (history : List TrackerEvent) (key : String) : Prop :=
  .define key [] ∈ history

/-- A name has been used by a definition before anything had defined it. -/
def UsesUndefined (history : List TrackerEvent) (name : String) : Prop :=
  ∃ before key dependencies rest, history = before ++ .define key dependencies :: rest ∧
    name ∈ dependencies ∧ ¬ Defines before name

/-- The first such use was in this context. -/
def FirstUsedIn (history : List TrackerEvent) (name context : String) : Prop :=
  ∃ before key dependencies rest, history = before ++ .define key dependencies :: rest ∧
    name ∈ dependencies ∧ ¬ Defines before name ∧ ¬ UsesUndefined before name ∧
    context = TrackerHistory.context before

/-- The last definition of a key, with the context it was made in. -/
def LastDefinition (history : List TrackerEvent) (key : String) (d : Definition) : Prop :=
  ∃ before rest, history = before ++ .define key d.dependencies :: rest ∧
    ¬ Defines rest key ∧ d.context = context before

/-! ## One event more -/

/-- An event of a longer history is the new one or one of the shorter history. -/
theorem split_snoc {history before rest : List TrackerEvent} {event e : TrackerEvent} :
    history ++ [event] = before ++ e :: rest ↔
      (before = history ∧ e = event ∧ rest = []) ∨
        ∃ rest', rest = rest' ++ [event] ∧ history = before ++ e :: rest' := by
  constructor
  · intro h
    rcases List.append_eq_append_iff.mp h with ⟨middle, hbefore, hnew⟩ | ⟨middle, hold, hrest⟩
    · -- `before` takes in the whole history, so the event is the new one.
      cases middle with
      | nil =>
        simp only [List.nil_append, List.cons.injEq] at hnew
        exact .inl ⟨by simpa using hbefore, hnew.1.symm, hnew.2.symm⟩
      | cons x xs => simp at hnew
    · -- `before` ends within the history, where nothing or the event stands behind it.
      cases middle with
      | nil =>
        simp only [List.nil_append, List.cons.injEq] at hrest
        exact .inl ⟨by simpa using hold.symm, hrest⟩
      | cons x xs =>
        simp only [List.cons_append, List.cons.injEq] at hrest
        obtain ⟨rfl, rfl⟩ := hrest
        exact .inr ⟨xs, rfl, hold⟩
  · intro hor
    rcases hor with ⟨rfl, rfl, rfl⟩ | ⟨rest', rfl, rfl⟩
    · rfl
    · simp

section snoc

variable (history : List TrackerEvent) (event : TrackerEvent)

theorem contexts_snoc :
    contexts (history ++ [event]) =
      match event with
      | .enter context => context :: contexts history
      | .leave => (contexts history).tail
      | .define _ _ => contexts history := by
  unfold contexts
  rw [List.foldl_append]
  cases event <;> rfl

theorem defines_snoc (key : String) :
    Defines (history ++ [event]) key ↔
      Defines history key ∨ ∃ dependencies, event = .define key dependencies := by
  unfold Defines
  constructor
  · intro hexists
    obtain ⟨dependencies, h⟩ := hexists
    rcases List.mem_append.mp h with h | h
    · exact .inl ⟨dependencies, h⟩
    · exact .inr ⟨dependencies, (List.mem_singleton.mp h).symm⟩
  · intro hor
    rcases hor with ⟨dependencies, h⟩ | ⟨dependencies, rfl⟩
    · exact ⟨dependencies, List.mem_append_left _ h⟩
    · exact ⟨dependencies, List.mem_append_right _ List.mem_cons_self⟩

theorem settles_snoc (key : String) :
    Settles (history ++ [event]) key ↔ Settles history key ∨ event = .define key [] := by
  unfold Settles
  rw [List.mem_append, List.mem_singleton, eq_comm (a := event)]

/-- A definition of a longer history, and what there was before it, is the new event
    after the shorter history or one of the shorter history. -/
theorem exists_define_snoc (P : List TrackerEvent → List String → Prop) :
    (∃ before key dependencies rest,
      history ++ [event] = before ++ .define key dependencies :: rest ∧ P before dependencies) ↔
    (∃ before key dependencies rest,
      history = before ++ .define key dependencies :: rest ∧ P before dependencies) ∨
    ∃ key dependencies, event = .define key dependencies ∧ P history dependencies := by
  constructor
  · intro hexists
    obtain ⟨before, key, dependencies, rest, hsplit, h⟩ := hexists
    rcases split_snoc.mp hsplit with ⟨rfl, rfl, rfl⟩ | ⟨rest', rfl, hhistory⟩
    · exact .inr ⟨key, dependencies, rfl, h⟩
    · exact .inl ⟨before, key, dependencies, rest', hhistory, h⟩
  · intro hor
    rcases hor with ⟨before, key, dependencies, rest, rfl, h⟩ | ⟨key, dependencies, rfl, h⟩
    · exact ⟨before, key, dependencies, rest ++ [event], by simp, h⟩
    · exact ⟨history, key, dependencies, [], rfl, h⟩

theorem usesUndefined_snoc (name : String) :
    UsesUndefined (history ++ [event]) name ↔
      UsesUndefined history name ∨ ∃ key dependencies, event = .define key dependencies ∧
        name ∈ dependencies ∧ ¬ Defines history name :=
  exists_define_snoc history event fun before dependencies =>
    name ∈ dependencies ∧ ¬ Defines before name

theorem firstUsedIn_snoc (name c : String) :
    FirstUsedIn (history ++ [event]) name c ↔
      FirstUsedIn history name c ∨ ∃ key dependencies, event = .define key dependencies ∧
        name ∈ dependencies ∧ ¬ Defines history name ∧ ¬ UsesUndefined history name ∧
        c = context history :=
  exists_define_snoc history event fun before dependencies =>
    name ∈ dependencies ∧ ¬ Defines before name ∧ ¬ UsesUndefined before name ∧
      c = context before

theorem lastDefinition_snoc (key : String) (d : Definition) :
    LastDefinition (history ++ [event]) key d ↔
      (event = .define key d.dependencies ∧ d.context = context history) ∨
        (LastDefinition history key d ∧ ∀ dependencies, event ≠ .define key dependencies) := by
  constructor
  · intro hexists
    obtain ⟨before, rest, hsplit, hlast, hcontext⟩ := hexists
    rcases split_snoc.mp hsplit with ⟨rfl, rfl, rfl⟩ | ⟨rest', rfl, hhistory⟩
    · exact .inl ⟨rfl, hcontext⟩
    · rw [defines_snoc] at hlast
      refine .inr ⟨⟨before, rest', hhistory, fun h => hlast (.inl h), hcontext⟩, ?_⟩
      intro dependencies h
      exact hlast (.inr ⟨dependencies, h⟩)
  · intro hor
    rcases hor with ⟨rfl, hcontext⟩ | ⟨⟨before, rest, rfl, hlast, hcontext⟩, hevent⟩
    · refine ⟨history, [], rfl, ?_, hcontext⟩
      intro hexists
      obtain ⟨dependencies, h⟩ := hexists
      exact nomatch h
    · refine ⟨before, rest ++ [event], by simp, ?_, hcontext⟩
      rw [defines_snoc]
      intro hor
      rcases hor with h | ⟨dependencies, h⟩
      · exact hlast h
      · exact hevent dependencies h

end snoc

/-! ## Existence -/

/-- A defined key has a last definition. -/
theorem exists_lastDefinition (history : List TrackerEvent) (key : String) :
    (∃ d, LastDefinition history key d) ↔ Defines history key := by
  induction history using List.reverseRecOn with
  | nil => simp [LastDefinition, Defines]
  | append_singleton history event ih =>
    rw [defines_snoc, ← ih]
    constructor
    · intro hexists
      obtain ⟨d, hlast⟩ := hexists
      rcases (lastDefinition_snoc history event key d).mp hlast with ⟨hnew, _⟩ | ⟨hold, _⟩
      · exact .inr ⟨d.dependencies, hnew⟩
      · exact .inl ⟨d, hold⟩
    · intro h
      -- A new definition of the key is the last one; otherwise the last one stays.
      by_cases hevent : ∃ dependencies, event = .define key dependencies
      · obtain ⟨dependencies, hnew⟩ := hevent
        exact ⟨⟨context history, dependencies⟩,
          (lastDefinition_snoc history event key _).mpr (.inl ⟨hnew, rfl⟩)⟩
      · obtain ⟨d, hold⟩ := h.resolve_right hevent
        exact ⟨d, (lastDefinition_snoc history event key d).mpr
          (.inr ⟨hold, fun dependencies hnew => hevent ⟨dependencies, hnew⟩⟩)⟩

/-- A name that was used before it was defined was so used a first time. -/
theorem exists_firstUsedIn (history : List TrackerEvent) (name : String) :
    (∃ c, FirstUsedIn history name c) ↔ UsesUndefined history name := by
  induction history using List.reverseRecOn with
  | nil => simp [FirstUsedIn, UsesUndefined]
  | append_singleton history event ih =>
    rw [usesUndefined_snoc, ← ih]
    constructor
    · intro hexists
      obtain ⟨c, hfirst⟩ := hexists
      rcases (firstUsedIn_snoc history event name c).mp hfirst with
        hold | ⟨key, dependencies, hevent, hused, hdef, _, _⟩
      · exact .inl ⟨c, hold⟩
      · exact .inr ⟨key, dependencies, hevent, hused, hdef⟩
    · intro h
      -- The first use is an old one where there is any, and otherwise this one.
      by_cases hold : ∃ c, FirstUsedIn history name c
      · obtain ⟨c, hc⟩ := hold
        exact ⟨c, (firstUsedIn_snoc history event name c).mpr (.inl hc)⟩
      · obtain ⟨key, dependencies, hevent, hused, hdef⟩ := h.resolve_left hold
        rw [ih] at hold
        exact ⟨context history, (firstUsedIn_snoc history event name _).mpr
          (.inr ⟨key, dependencies, hevent, hused, hdef, hold, rfl⟩)⟩

end TrackerHistory

/-! ## What one event does to the records -/

namespace Tracker

/-- Leaving changes nothing but the contexts. -/
theorem leave_eq (t : Tracker) : t.leave = { t with contexts := t.contexts.tail } := by
  -- Outside of all contexts leaving fails, and the tail of no contexts is none.
  obtain ⟨definitions, externals, contexts⟩ := t
  cases contexts <;> rfl

/-- Where there is a context, it can be left. -/
theorem pop_of_contexts {t : Tracker} {context : String} {rest : List String}
    (h : t.contexts = context :: rest) : t.pop = .ok (context, t.leave) := by
  unfold leave pop
  rw [h]

@[simp] theorem definitions_use (t : Tracker) (name : String) :
    (t.use name).definitions = t.definitions := by
  unfold use
  split <;> rfl

@[simp] theorem definitions_foldl_use (names : List String) (t : Tracker) :
    (names.foldl use t).definitions = t.definitions := by
  induction names generalizing t with
  | nil => rfl
  | cons name rest ih => rw [List.foldl_cons, ih, definitions_use]

theorem externals_use (t : Tracker) (name n : String) :
    (t.use name).externals.get? n =
      (t.externals.get? n).or
        (if n = name ∧ t.definitions.contains n = false then some t.context else none) := by
  unfold use
  by_cases hn : n = name
  · subst hn
    cases hext : t.externals.get? n with
    | some c =>
      have hknown : t.externals.contains n = true := by
        unfold Entries.contains
        rw [hext]
        rfl
      rw [hknown, Bool.or_true, if_pos rfl, hext, Option.some_or]
    | none =>
      have hnew : t.externals.contains n = false := by
        unfold Entries.contains
        rw [hext]
        rfl
      rw [hnew, Bool.or_false, Option.none_or]
      cases hdef : t.definitions.contains n with
      | true => simpa using hext
      | false => simp
  · rw [if_neg (show ¬ (n = name ∧ t.definitions.contains n = false) from fun h => hn h.1),
      Option.or_none]
    split
    · rfl
    · exact Entries.get?_insert_of_ne (fun h => hn h.symm) _

theorem externals_foldl_use (names : List String) (t : Tracker) (n : String) :
    (names.foldl use t).externals.get? n =
      (t.externals.get? n).or
        (if n ∈ names ∧ t.definitions.contains n = false then some t.context else none) := by
  induction names generalizing t with
  | nil => simp
  | cons name rest ih =>
    -- Using a name changes neither what is defined nor the context it is used in.
    have hcontext : (t.use name).context = t.context := by
      unfold context context?
      rw [contexts_use]
    rw [List.foldl_cons, ih, externals_use, definitions_use, hcontext, Option.or_assoc]
    congr 1
    by_cases hn : n = name
    · subst hn
      split <;> simp_all
    · simp [hn]

/-- A definition is recorded under its key, in the innermost context. -/
theorem definitions_define (t : Tracker) (key : String) (dependencies : List String)
    (k : String) :
    (t.define key dependencies).definitions.get? k =
      if key = k then some ⟨t.context, dependencies⟩ else t.definitions.get? k := by
  unfold define
  dsimp only
  rw [Entries.get?_insert, definitions_foldl_use]

/-- A definition makes its undefined names external, and settles its key where it has
    no dependencies. -/
theorem externals_define (t : Tracker) (key : String) (dependencies : List String)
    (n : String) :
    (t.define key dependencies).externals.get? n =
      if dependencies = [] ∧ n = key then none
      else (t.externals.get? n).or
        (if n ∈ dependencies ∧ t.definitions.contains n = false then some t.context
          else none) := by
  unfold define
  dsimp only
  by_cases hdeps : dependencies = []
  · subst hdeps
    rw [List.isEmpty_nil, if_pos rfl]
    by_cases hn : n = key
    · subst hn
      rw [Entries.get?_erase_self, if_pos ⟨rfl, rfl⟩]
    · have hkeep : ¬ (([] : List String) = [] ∧ n = key) := fun h => hn h.2
      rw [Entries.get?_erase_of_ne (fun h => hn h.symm), externals_foldl_use, if_neg hkeep]
  · have hfilled : dependencies.isEmpty ≠ true := by simpa using hdeps
    have hkeep : ¬ (dependencies = [] ∧ n = key) := fun h => hdeps h.1
    rw [if_neg hfilled, externals_foldl_use, if_neg hkeep]

end Tracker

/-! ## The invariant -/

namespace TrackerHistory

/-- A tracker knows what a history says. -/
structure Reflects (history : List TrackerEvent) (t : Tracker) : Prop where
  contexts : t.contexts = contexts history
  definitions : ∀ key d, t.definitions.get? key = some d ↔ LastDefinition history key d
  externals : ∀ name c, t.externals.get? name = some c ↔
    FirstUsedIn history name c ∧ ¬ Settles history name

/-- Nothing is known of the empty history. -/
theorem reflects_empty : Reflects [] Tracker.empty where
  contexts := rfl
  definitions key d := by simp [Tracker.empty, LastDefinition]
  externals name c := by simp [Tracker.empty, FirstUsedIn]

/-- What has not been defined has not been settled. -/
theorem not_settles {history : List TrackerEvent} {name : String}
    (h : ¬ Defines history name) : ¬ Settles history name := by
  intro hsettles
  exact h ⟨[], hsettles⟩

/-- A definition settles its key where it has no dependencies, and nothing else. -/
theorem settles_define (history : List TrackerEvent) (key : String)
    (dependencies : List String) (name : String) :
    Settles (history ++ [.define key dependencies]) name ↔
      Settles history name ∨ (dependencies = [] ∧ name = key) := by
  rw [settles_snoc]
  constructor
  · intro hor
    rcases hor with hold | hnew
    · exact .inl hold
    · obtain ⟨rfl, rfl⟩ := TrackerEvent.define.inj hnew
      exact .inr ⟨rfl, rfl⟩
  · intro hor
    rcases hor with hold | ⟨rfl, rfl⟩
    · exact .inl hold
    · exact .inr rfl

section step

variable {history : List TrackerEvent} {t : Tracker} (h : Reflects history t)
include h

theorem Reflects.context : t.context = TrackerHistory.context history := by
  unfold Tracker.context Tracker.context? TrackerHistory.context
  rw [h.contexts]

/-- The keys with a definition are the defined ones. -/
theorem Reflects.defined (key : String) :
    t.definitions.contains key = true ↔ Defines history key := by
  unfold Entries.contains
  rw [Option.isSome_iff_exists, ← exists_lastDefinition]
  exact exists_congr (h.definitions key)

/-- The external names are those used undefined and never settled. -/
theorem Reflects.external (name : String) :
    t.externals.contains name = true ↔ UsesUndefined history name ∧ ¬ Settles history name := by
  unfold Entries.contains
  rw [Option.isSome_iff_exists, ← exists_firstUsedIn, ← exists_and_right]
  exact exists_congr (h.externals name)

/-- Entering or leaving a context changes nothing but the contexts. -/
theorem Reflects.scope {event : TrackerEvent} {t' : Tracker}
    (hevent : ∀ key dependencies, event ≠ .define key dependencies)
    (hcontexts : t'.contexts = TrackerHistory.contexts (history ++ [event]))
    (hdefinitions : t'.definitions = t.definitions) (hexternals : t'.externals = t.externals) :
    Reflects (history ++ [event]) t' where
  contexts := hcontexts
  definitions key d := by
    rw [hdefinitions, h.definitions, lastDefinition_snoc]
    simp [hevent]
  externals name c := by
    rw [hexternals, h.externals, firstUsedIn_snoc, settles_snoc]
    simp [hevent]

/-- The definitions after a definition: the new one under its key. -/
theorem Reflects.definitions_define (key : String) (dependencies : List String)
    (k : String) (d : Definition) :
    (t.define key dependencies).definitions.get? k = some d ↔
      LastDefinition (history ++ [.define key dependencies]) k d := by
  rw [Tracker.definitions_define, lastDefinition_snoc]
  by_cases hk : key = k
  · subst hk
    rw [if_pos rfl, h.context]
    constructor
    · intro hd
      obtain rfl := Option.some.inj hd
      exact .inl ⟨rfl, rfl⟩
    · intro hor
      rcases hor with ⟨hnew, hcontext⟩ | ⟨_, hother⟩
      · obtain ⟨_, rfl⟩ := TrackerEvent.define.inj hnew
        rw [← hcontext]
      · exact absurd rfl (hother dependencies)
  · rw [if_neg hk, h.definitions]
    simp [hk]

/-- The externals after a definition: its undefined names become external, and its key
    is settled where it has no dependencies. -/
theorem Reflects.externals_define (key : String) (dependencies : List String)
    (name c : String) :
    (t.define key dependencies).externals.get? name = some c ↔
      FirstUsedIn (history ++ [.define key dependencies]) name c ∧
        ¬ Settles (history ++ [.define key dependencies]) name := by
  rw [Tracker.externals_define, firstUsedIn_snoc, settles_define]
  by_cases hnow : dependencies = [] ∧ name = key
  · -- The definition settles the name, whatever was known of it.
    rw [if_pos hnow]
    constructor
    · intro hnone
      exact nomatch hnone
    · intro hexists
      obtain ⟨_, hsettles⟩ := hexists
      exact absurd (.inr hnow) hsettles
  rw [if_neg hnow]
  have hexternal := h.external name
  unfold Entries.contains at hexternal
  cases hext : t.externals.get? name with
  | some c₀ =>
    -- The name is external already, and the context of its first use stays.
    have huse : UsesUndefined history name := (hexternal.mp (by rw [hext]; rfl)).1
    rw [Option.some_or, ← hext, h.externals]
    constructor
    · intro hexists
      obtain ⟨hfirst, hsettles⟩ := hexists
      exact ⟨.inl hfirst, fun hs => hs.elim hsettles hnow⟩
    · intro hboth
      rcases hboth with ⟨hfirst | ⟨_, _, _, _, _, hnouse, _⟩, hsettles⟩
      · exact ⟨hfirst, fun hs => hsettles (.inl hs)⟩
      · exact absurd huse hnouse
  | none =>
    -- The name becomes external if this definition uses it and nothing has defined it.
    have hnot : ¬ (UsesUndefined history name ∧ ¬ Settles history name) := by
      rw [← hexternal, hext]
      exact nofun
    have hcontains : t.definitions.contains name = false ↔ ¬ Defines history name := by
      rw [← h.defined, Bool.not_eq_true]
    rw [Option.none_or]
    constructor
    · intro hnew
      split at hnew
      · next hused =>
        have hdef := hcontains.mp hused.2
        have hsettles := not_settles hdef
        have hc : c = TrackerHistory.context history := by
          rw [← h.context]
          exact (Option.some.inj hnew).symm
        exact ⟨.inr ⟨key, dependencies, rfl, hused.1, hdef, fun hu => hnot ⟨hu, hsettles⟩, hc⟩,
          fun hs => hs.elim hsettles hnow⟩
      · exact nomatch hnew
    · intro hboth
      rcases hboth with ⟨hfirst | ⟨key', dependencies', hevent, hused, hdef, _, hc⟩, hsettles⟩
      · have huse := (exists_firstUsedIn history name).mp ⟨c, hfirst⟩
        exact absurd ⟨huse, fun hs => hsettles (.inl hs)⟩ hnot
      · obtain ⟨rfl, rfl⟩ := TrackerEvent.define.inj hevent
        rw [if_pos ⟨hused, hcontains.mpr hdef⟩, hc, h.context]

/-- **Step.** Every event keeps the invariant. -/
theorem Reflects.record (event : TrackerEvent) :
    Reflects (history ++ [event]) (t.record event) := by
  cases event with
  | enter context =>
    refine h.scope (fun _ _ hevent => nomatch hevent) ?_ rfl rfl
    rw [contexts_snoc, ← h.contexts]
    rfl
  | leave =>
    show Reflects (history ++ [.leave]) t.leave
    rw [Tracker.leave_eq]
    refine h.scope (fun _ _ hevent => nomatch hevent) ?_ rfl rfl
    rw [contexts_snoc, ← h.contexts]
  | define key dependencies =>
    -- A definition stays in its context, and changes both records.
    exact {
      contexts := by
        rw [contexts_snoc, ← h.contexts]
        exact Tracker.contexts_define t key dependencies
      definitions := h.definitions_define key dependencies
      externals := h.externals_define key dependencies }

/-- **Run.** Every continuation of the history keeps the invariant. -/
theorem Reflects.foldl (events : List TrackerEvent) :
    Reflects (history ++ events) (events.foldl Tracker.record t) := by
  induction events generalizing history t with
  | nil => simpa using h
  | cons event rest ih =>
    have hnext := ih (h.record event)
    simpa using hnext

end step

theorem reflects_after (history : List TrackerEvent) :
    Reflects history (Tracker.after history) :=
  reflects_empty.foldl history

/-! ## The closed form -/

/-- The dependencies of a recorded definition are known: each of them is defined or
    external. -/
theorem dependencies_known {history : List TrackerEvent} {key : String} {d : Definition}
    (h : LastDefinition history key d) {name : String} (hname : name ∈ d.dependencies) :
    Defines history name ∨ (UsesUndefined history name ∧ ¬ Settles history name) := by
  obtain ⟨before, rest, rfl, _, _⟩ := h
  by_cases hdef : Defines (before ++ .define key d.dependencies :: rest) name
  · exact .inl hdef
  · -- What is never defined was not defined before its use, and cannot be settled.
    have hbefore : ¬ Defines before name := by
      intro hexists
      obtain ⟨dependencies, hmem⟩ := hexists
      exact hdef ⟨dependencies, List.mem_append_left _ hmem⟩
    exact .inr ⟨⟨before, key, d.dependencies, rest, rfl, hname, hbefore⟩, not_settles hdef⟩

/-- **The closed form of a tracker.** After every history, the external names are those
    that were used before anything defined them and that nothing settled, each with the
    context of its first such use; every key has its last definition; every dependency
    of a definition is defined or external; and what has been settled is not external
    after any continuation. -/
theorem knows_history (history : List TrackerEvent) :
    (∀ name, name ∈ (Tracker.after history).externals.keys ↔
      UsesUndefined history name ∧ ¬ Settles history name) ∧
    (∀ name c, (Tracker.after history).externals.get? name = some c ↔
      FirstUsedIn history name c ∧ ¬ Settles history name) ∧
    (∀ key d, (Tracker.after history).definitions.get? key = some d ↔
      LastDefinition history key d) ∧
    (∀ key d, (Tracker.after history).definitions.get? key = some d →
      ∀ name ∈ d.dependencies, (Tracker.after history).definitions.contains name = true ∨
        (Tracker.after history).externals.contains name = true) ∧
    (∀ name, Settles history name → ∀ later,
      name ∉ (Tracker.after (history ++ later)).externals.keys) := by
  have h := reflects_after history
  refine ⟨?externals, h.externals, h.definitions, ?dependencies, ?settled⟩
  case externals =>
    intro name
    rw [Entries.mem_keys_iff]
    exact h.external name
  case dependencies =>
    intro key d hd name hname
    rw [h.defined, h.external]
    exact dependencies_known ((h.definitions key d).mp hd) hname
  case settled =>
    intro name hsettles later hexternal
    rw [Entries.mem_keys_iff, (reflects_after (history ++ later)).external] at hexternal
    exact hexternal.2 (List.mem_append_left later hsettles)

end TrackerHistory

end LayeredConfig
