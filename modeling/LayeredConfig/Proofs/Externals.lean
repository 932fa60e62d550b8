import LayeredConfig.Proofs.Addressing
import LayeredConfig.Proofs.Writing

/-! # The external names are all that is read

    Sources that overwrite what is there depend on the store that they begin with
    only through the external names. Take two runs of the same sources, over stores
    that agree on every name that is external at some moment of the first: the
    records go through the same states, and in the end the stores agree on every key
    that has a definition.

    The invariant is `Agree`: the records are equal, and the stores agree on the
    names that are external at any time and on the keys defined so far. A write keeps
    agreement wherever there was one, even where it replaces a value on the way to its
    key, and makes it under its own key; so it is enough that both runs write the
    same. They do, since what a formula reads is defined or else external from now on.

    **Main result.** `externals_suffice`.
-/

namespace LayeredConfig

/-! ## Runs of sources -/

namespace Session

/-- Applies sources, one after the other. -/
def processAll (files : Snapshot) (s : Session) (sources : List Source) :
    Except Failure Session :=
  sources.foldlM (fun s source => source.process files s) s

/-- The states of the record before, between and after steps. -/
def trackers (files : Snapshot) (s : Session) (steps : List Step) : List Tracker :=
  (steps.scanl (Step.run files) s).map Session.tracker

variable (files : Snapshot) (s : Session)

theorem trackers_nil : s.trackers files [] = [s.tracker] := rfl

theorem trackers_cons (step : Step) (rest : List Step) :
    s.trackers files (step :: rest) = s.tracker :: (step.run files s).trackers files rest := by
  unfold trackers
  rw [List.scanl_cons, List.map_cons]

theorem mem_trackers (steps : List Step) : s.tracker ∈ s.trackers files steps := by
  cases steps with
  | nil => exact List.mem_cons_self
  | cons step rest =>
    rw [trackers_cons]
    exact List.mem_cons_self

/-- The last state is the one after the run. -/
theorem getLast?_trackers (steps : List Step) :
    (s.trackers files steps).getLast? = some (s.runAll files steps).tracker := by
  induction steps generalizing s with
  | nil => rfl
  | cons step rest ih =>
    rw [trackers_cons, List.getLast?_cons, ih]
    rfl

end Session

/-- Applying sources is running their steps, which differ for a queue or none. -/
theorem Session.processAll_eq_runAll (files : Snapshot) (s : Session) (sources : List Source) :
    s.processAll files sources =
      .ok (s.runAll files (sources.flatMap (Source.steps s.queue.isSome))) := by
  induction sources generalizing s with
  | nil => rfl
  | cons source rest ih =>
    -- No source makes or loses the queue, so the next one has it too.
    have hqueue := queue_runAll files s (source.steps s.queue.isSome)
    show (source.process files s >>= fun s' => s'.processAll files rest) = _
    rw [source.process_eq files s]
    show (s.runAll files (source.steps s.queue.isSome)).processAll files rest = _
    rw [ih, hqueue, List.flatMap_cons, runAll_append]

/-- The steps of sources that are applied without a queue. -/
def Source.program (sources : List Source) : List Step :=
  sources.flatMap (Source.steps false)

/-- Applying sources without a queue is running their steps. -/
theorem Session.processAll_eq (files : Snapshot) {s : Session} (hqueue : s.queue = none)
    (sources : List Source) :
    s.processAll files sources = .ok (s.runAll files (Source.program sources)) := by
  rw [processAll_eq_runAll, hqueue]
  rfl

/-! ## The invariant -/

/-- Two sessions with the same record, whose stores agree on given names and on every
    key that has a definition. -/
structure Agree (names : String → Prop) (s t : Session) : Prop where
  unqueued : s.queue = none ∧ t.queue = none
  addressing : s.store.addressing = t.store.addressing
  tracker : s.tracker = t.tracker
  named : ∀ n, names n → s.store.get? n = t.store.get? n
  defined : ∀ key, s.tracker.definitions.contains key = true →
    s.store.get? key = t.store.get? key

/-- A name that a definition uses is defined before it or external after it. -/
theorem Tracker.defined_or_external (t : Tracker) (key : String) {dependencies : List String}
    {name : String} (h : name ∈ dependencies) :
    t.definitions.contains name = true ∨ name ∈ (t.define key dependencies).externals.keys := by
  cases hdef : t.definitions.contains name with
  | true => exact .inl rfl
  | false =>
    right
    -- A definition with a dependency settles nothing, so the name stays external.
    have hfilled : ¬ (dependencies = [] ∧ name = key) := by
      intro hexists
      obtain ⟨rfl, _⟩ := hexists
      exact nomatch h
    rw [Entries.mem_keys_iff]
    unfold Entries.contains
    rw [externals_define, if_neg hfilled, if_pos ⟨h, hdef⟩]
    cases t.externals.get? name <;> rfl

section agreement

variable {files : Snapshot} {names : String → Prop} {s t : Session} (h : Agree names s t)
include h

/-- The same write and the same record keep agreement. -/
theorem Agree.define (key : String) (v : Value) (dependencies : List String) :
    Agree names (s.define key v dependencies) (t.define key v dependencies) where
  unqueued := h.unqueued
  addressing := by
    show (s.store.set key v).addressing = (t.store.set key v).addressing
    rw [Store.addressing_set, Store.addressing_set, h.addressing]
  tracker := by
    show s.tracker.define key dependencies = t.tracker.define key dependencies
    rw [h.tracker]
  named n hn := Store.get?_set_congr h.addressing (h.named n hn) key v
  defined k hk := by
    by_cases hkey : key = k
    · -- The written key need not have been defined, but now it reads what was written.
      subst hkey
      exact Store.get?_set_self_congr h.addressing key v
    · have hold : s.tracker.definitions.contains k = true := by
        unfold Entries.contains at hk ⊢
        change ((s.tracker.define key dependencies).definitions.get? k).isSome = true at hk
        rwa [Tracker.definitions_define, if_neg hkey] at hk
      exact Store.get?_set_congr h.addressing (h.defined k hold) key v

/-- The same write without a record keeps agreement. -/
theorem Agree.put (key : String) (v : Value) :
    Agree names { s with store := s.store.set key v } { t with store := t.store.set key v } where
  unqueued := h.unqueued
  addressing := by
    show (s.store.set key v).addressing = (t.store.set key v).addressing
    rw [Store.addressing_set, Store.addressing_set, h.addressing]
  tracker := h.tracker
  named n hn := Store.get?_set_congr h.addressing (h.named n hn) key v
  defined k hk := Store.get?_set_congr h.addressing (h.defined k hk) key v

/-- The same change of the record keeps agreement, if it defines nothing. -/
theorem Agree.record (change : Tracker → Tracker)
    (hchange : (change s.tracker).definitions = s.tracker.definitions) :
    Agree names { s with tracker := change s.tracker } { t with tracker := change t.tracker } where
  unqueued := h.unqueued
  addressing := h.addressing
  tracker := congrArg change h.tracker
  named := h.named
  defined k hk := by
    change (change s.tracker).definitions.contains k = true at hk
    rw [hchange] at hk
    exact h.defined k hk

/-- **Step.** A step that overwrites keeps agreement, if the names that are external
    after it are among the given ones. -/
theorem Agree.run {step : Step} (hstep : step.Assigns true)
    (hexternal : ∀ n ∈ (step.run files s).tracker.externals.keys, names n) :
    Agree names (step.run files s) (step.run files t) := by
  cases step with
  | enter context => exact h.record (fun tracker => tracker.push context) rfl
  | leave =>
    apply h.record Tracker.leave
    rw [Tracker.leave_eq]
  | assign overwrite key f =>
    obtain rfl : overwrite = true := hstep
    -- Both runs read the same under every name of the formula, so they write the same.
    have hvalue : f.value s.store = f.value t.store := by
      apply f.value_congr
      intro n hn
      rcases s.tracker.defined_or_external key hn with hdef | hext
      · exact h.defined n hdef
      · exact h.named n (hexternal n hext)
    show Agree names (s.define key (f.value s.store) f.names)
      (t.define key (f.value t.store) f.names)
    rw [← hvalue]
    exact h.define key _ f.names
  | append key f => exact hstep.elim
  | put key v => exact h.put key v
  | «include» target base =>
    -- There is no queue for it.
    unfold Step.run
    dsimp only
    rw [h.unqueued.1, h.unqueued.2]
    exact h
  | note n => exact ⟨h.unqueued, h.addressing, h.tracker, h.named, h.defined⟩

/-- **Run.** Runs of steps that overwrite take the records through the same states and
    keep agreement, if the names that are external at any time are among the given ones. -/
theorem Agree.runAll {steps : List Step} (hsteps : ∀ step ∈ steps, step.Assigns true)
    (hexternal : ∀ tracker ∈ s.trackers files steps, ∀ n ∈ tracker.externals.keys, names n) :
    s.trackers files steps = t.trackers files steps ∧
      Agree names (s.runAll files steps) (t.runAll files steps) := by
  induction steps generalizing s t with
  | nil =>
    rw [Session.trackers_nil, Session.trackers_nil, h.tracker]
    exact ⟨rfl, h⟩
  | cons step rest ih =>
    rw [Session.trackers_cons] at hexternal ⊢
    rw [Session.trackers_cons, ← h.tracker]
    -- The state after the step is the first of the remaining run.
    have hnow := hexternal _ (List.mem_cons_of_mem _ (Session.mem_trackers files _ rest))
    have hnext := h.run (hsteps step List.mem_cons_self) hnow
    obtain ⟨htrackers, hagree⟩ := ih hnext
      (fun step' hstep' => hsteps step' (List.mem_cons_of_mem _ hstep'))
      (fun tracker htracker => hexternal tracker (List.mem_cons_of_mem _ htracker))
    exact ⟨congrArg _ htrackers, hagree⟩

end agreement

/-! ## Sources -/

/-- **The external names are sufficient.** Apply sources that overwrite to two stores of
    one kind which agree on every name that is external at some moment of the first
    run. Then both runs come to an end, their records go through the same states, and
    in the end the stores agree on every key that has a definition. -/
theorem externals_suffice (files : Snapshot) (sources : List Source) (s t : Store)
    (hsources : ∀ source ∈ sources, source.Assigns true)
    (haddr : s.addressing = t.addressing)
    (hagree : ∀ tracker ∈ (Session.fresh s).trackers files (Source.program sources),
      ∀ n ∈ tracker.externals.keys, s.get? n = t.get? n) :
    ∃ s' t', (Session.fresh s).processAll files sources = .ok s' ∧
      (Session.fresh t).processAll files sources = .ok t' ∧
      (Session.fresh s).trackers files (Source.program sources) =
        (Session.fresh t).trackers files (Source.program sources) ∧
      ((Session.fresh s).trackers files (Source.program sources)).getLast? = some s'.tracker ∧
      s'.tracker = t'.tracker ∧
      ∀ key, s'.tracker.definitions.contains key = true →
        s'.store.get? key = t'.store.get? key := by
  have hbegin : Agree (fun n => s.get? n = t.get? n) (Session.fresh s) (Session.fresh t) :=
    { unqueued := ⟨rfl, rfl⟩
      addressing := haddr
      tracker := rfl
      named := fun n hn => hn
      defined := fun key hkey => nomatch hkey }
  have hprogram : ∀ step ∈ Source.program sources, step.Assigns true := by
    intro step hstep
    obtain ⟨source, hsource, hmem⟩ := List.mem_flatMap.mp hstep
    exact (hsources source hsource).steps false step hmem
  obtain ⟨htrackers, hend⟩ := hbegin.runAll hprogram hagree
  exact ⟨_, _, Session.processAll_eq files rfl sources, Session.processAll_eq files rfl sources,
    htrackers, Session.getLast?_trackers files _ _, hend.tracker, hend.defined⟩

/-- Two stores that differ in everything but the name of the user: after the same
    settings, the address made from that name reads the same. -/
theorem externals_suffice_for_user :
    ∃ s' t',
      (Session.fresh (.nested [("home", .null), ("user", .string "ann")] .standard)).processAll
        ⟨fun _ => none⟩ [.conf "home=/home/$user\nmail=$home/mail".toList .standard] = .ok s' ∧
      (Session.fresh (.nested [("mail", .bool true), ("user", .string "ann")] .standard)).processAll
        ⟨fun _ => none⟩ [.conf "home=/home/$user\nmail=$home/mail".toList .standard] = .ok t' ∧
      s'.store.get? "mail" = t'.store.get? "mail" := by
  obtain ⟨s', t', hs, ht, _, _, _, hdefined⟩ := externals_suffice ⟨fun _ => none⟩
    [.conf "home=/home/$user\nmail=$home/mail".toList .standard]
    (.nested [("home", .null), ("user", .string "ann")] .standard)
    (.nested [("mail", .bool true), ("user", .string "ann")] .standard)
    (by decide +kernel) rfl (by decide +kernel)
  refine ⟨s', t', hs, ht, hdefined "mail" ?_⟩
  rw [Session.processAll_eq _ rfl] at hs
  obtain rfl := Except.ok.inj hs
  decide +kernel

end LayeredConfig
