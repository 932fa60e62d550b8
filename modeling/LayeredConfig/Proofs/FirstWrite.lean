import LayeredConfig.Proofs.Writing

/-! # What the first write keeps

    A source that does not overwrite leaves a setting alone where its key reads a
    value. That protects the key and all that is beneath it, but not what is above:
    where `a` reads a number, `a::b` reads nothing, so it is written, and `a` is made
    to lead to an object.

    This is all that can happen to a value that is there. It stays, or a key beneath
    its name is assigned and an object takes its place.

    **Main result.** `kept_iff_nothing_beneath`: a name that reads anything but an
    object reads the same afterwards exactly when the source assigns no key beneath
    it; otherwise it reads an object.
-/

namespace LayeredConfig

/-! ## One write -/

namespace Store

variable {s : Store} {key name : String} {w : Value}

/-- A write beneath a name makes the name read an object. -/
theorem get?_set_of_beneath (hbeneath : s.addressing.Beneath key name) (v : Value) :
    ∃ fields, (s.set key v).get? name = some (.object fields) := by
  obtain ⟨rest, hrest, hpath⟩ := hbeneath
  have hp : s.path key = s.path name ++ rest := hpath
  rw [s.get?_set key v name, hp]
  exact ⟨_, Entries.at?_setAt_above s.root (s.path_ne_nil name) hrest _⟩

/-- Beneath a name something is read only if the name reads an object. -/
theorem object_of_has_beneath (hkey : s.has key = true) (hname : s.get? name = some w)
    (hbeneath : s.addressing.Beneath key name) : ∃ fields, w = .object fields := by
  obtain ⟨rest, hrest, hpath⟩ := hbeneath
  have hp : s.path key = s.path name ++ rest := hpath
  have hvalue : s.root.at? (s.path name) = some w := by rwa [← s.get?_eq_at? name]
  unfold has at hkey
  rw [s.get?_eq_at? key, hp, Entries.at?_append _ (s.path_ne_nil name) hrest] at hkey
  unfold Entries.inside at hkey
  rw [hvalue, Option.getD_some] at hkey
  cases w with
  | object fields => exact ⟨fields, rfl⟩
  | _ =>
    unfold Value.fields at hkey
    rw [Entries.at?_empty] at hkey
    exact nomatch hkey

/-- A write under a key that reads nothing changes no name that reads a value, unless
    the key is beneath it. -/
theorem get?_set_of_not_beneath (hkey : s.has key = false) (hname : s.get? name = some w)
    (hbeneath : ¬ s.addressing.Beneath key name) (v : Value) :
    (s.set key v).get? name = some w := by
  have hq : s.path name ≠ [] := s.path_ne_nil name
  have hvalue : s.root.at? (s.path name) = some w := by rwa [← s.get?_eq_at? name]
  have hnothing : (s.root.at? (s.path key)).isSome = false := by
    rw [← s.get?_eq_at? key]
    exact hkey
  rw [s.get?_set key v name, ← hvalue]
  have hp : s.path key ≠ [] := s.path_ne_nil key
  generalize hpath : s.path key = p at hp hnothing
  generalize hpath' : s.path name = q at hq hvalue
  -- Of the four ways the paths can lie, the first two would make the key read something.
  cases lies p q with
  | same =>
    rw [hvalue] at hnothing
    exact nomatch hnothing
  | beyond _ rest hrest =>
    -- What is beyond the key could not be read, since the key reads nothing.
    have hsome : (s.root.at? p).isSome = true := by
      apply Entries.at?_isSome_of_append hp (q := rest)
      rw [hvalue]
      rfl
    rw [hnothing] at hsome
    exact nomatch hsome
  | above _ rest hrest =>
    exact absurd ⟨rest, hrest, hpath.trans (congrArg (· ++ rest) hpath'.symm)⟩ hbeneath
  | apart _ _ hpq hqp => exact Entries.at?_setAt_apart s.root hpq hqp _

end Store

/-! ## Steps -/

section steps

variable (files : Snapshot) {s : Session} {name : String} {w : Value}

/-- **Step.** Where nothing is overwritten, a name that reads a value reads the same
    after a step, or an object if the step's key is beneath it. -/
theorem Step.get?_run {step : Step} (hstep : step.Assigns false)
    (hname : s.store.get? name = some w) :
    (¬ s.store.addressing.SomeBeneath step.key?.toList name →
      (step.run files s).store.get? name = some w) ∧
    (s.store.addressing.SomeBeneath step.key?.toList name →
      ∃ fields, (step.run files s).store.get? name = some (.object fields)) := by
  rcases step.store_run files s with ⟨hsame, hkept⟩ | ⟨key, hkey, v, hset, habsent⟩
  · rw [hsame]
    refine ⟨fun _ => hname, ?_⟩
    intro hexists
    obtain ⟨key, hkey, hbeneath⟩ := hexists
    -- Where a key beneath the name is kept, the name reads an object already.
    have hhas := hkept key (Option.mem_toList.mp hkey)
    obtain ⟨fields, rfl⟩ := Store.object_of_has_beneath hhas hname hbeneath
    exact ⟨fields, hname⟩
  · rw [hset]
    constructor
    · intro hnot
      have hbeneath : ¬ s.store.addressing.Beneath key name :=
        fun h => hnot ⟨key, Option.mem_toList.mpr hkey, h⟩
      exact Store.get?_set_of_not_beneath (habsent hstep) hname hbeneath v
    · intro hexists
      obtain ⟨key', hkey', hbeneath⟩ := hexists
      obtain rfl := Option.mem_unique hkey (Option.mem_toList.mp hkey')
      exact Store.get?_set_of_beneath hbeneath v

/-- **Run.** Where nothing is overwritten, a name that reads a value reads the same after
    all steps, or an object if the key of some step is beneath it. -/
theorem Session.get?_runAll {steps : List Step} (hsteps : ∀ step ∈ steps, step.Assigns false)
    (hname : s.store.get? name = some w) :
    (¬ s.store.addressing.SomeBeneath (steps.filterMap Step.key?) name →
      (s.runAll files steps).store.get? name = some w) ∧
    (s.store.addressing.SomeBeneath (steps.filterMap Step.key?) name →
      ∃ fields, (s.runAll files steps).store.get? name = some (.object fields)) := by
  induction steps generalizing s w with
  | nil =>
    refine ⟨fun _ => hname, ?_⟩
    intro hexists
    obtain ⟨key, hkey, _⟩ := hexists
    exact nomatch hkey
  | cons step rest ih =>
    have hrest : ∀ step' ∈ rest, step'.Assigns false :=
      fun step' h => hsteps step' (List.mem_cons_of_mem _ h)
    -- The induction is for any value, since the name may read an object after this step.
    have hkeys : (step :: rest).filterMap Step.key? =
        step.key?.toList ++ rest.filterMap Step.key? := by
      rw [List.filterMap_cons]
      cases step.key? <;> rfl
    obtain ⟨hkept, hobject⟩ := Step.get?_run files (hsteps step List.mem_cons_self) hname
    rw [hkeys, Addressing.someBeneath_append, runAll_cons, ← step.addressing_run files s]
    rw [← step.addressing_run files s] at hkept hobject
    constructor
    · intro hnot
      exact (ih hrest (hkept fun h => hnot (.inl h))).1 fun h => hnot (.inr h)
    · intro hsome
      by_cases hlater :
          (step.run files s).store.addressing.SomeBeneath (rest.filterMap Step.key?) name
      · -- Whatever the name reads after the first step, the others make it an object.
        by_cases hnow : (step.run files s).store.addressing.SomeBeneath step.key?.toList name
        · obtain ⟨_, hfields⟩ := hobject hnow
          exact (ih hrest hfields).2 hlater
        · exact (ih hrest (hkept hnow)).2 hlater
      · obtain ⟨fields, hfields⟩ := hobject (hsome.resolve_right hlater)
        exact ⟨fields, (ih hrest hfields).1 hlater⟩

end steps

/-! ## Sources -/

/-- **What is there is kept, but for names above a written key.** Where a source that
    overwrites nothing is applied, with a queue for its includes or without one, a name
    that reads anything but an object reads the same afterwards exactly when no key of
    the source is beneath it; otherwise it reads an object. -/
theorem kept_iff_nothing_beneath (files : Snapshot) (source : Source) (s : Session)
    (hsource : source.Assigns false) :
    ∃ s', source.process files s = .ok s' ∧
      ∀ name w, s.store.get? name = some w → (∀ fields, w ≠ .object fields) →
        (s'.store.get? name = some w ↔
          ¬ s.store.addressing.SomeBeneath (source.keys s.queue.isSome) name) ∧
        (s.store.addressing.SomeBeneath (source.keys s.queue.isSome) name →
          ∃ fields, s'.store.get? name = some (.object fields)) := by
  refine ⟨_, source.process_eq files s, ?_⟩
  intro name w hname hobject
  obtain ⟨hkept, hreplaced⟩ := Session.get?_runAll files
    (hsource.steps s.queue.isSome) hname
  rw [Source.filterMap_key?_steps] at hkept hreplaced
  refine ⟨⟨?_, hkept⟩, hreplaced⟩
  intro hsame hsome
  obtain ⟨fields, hfields⟩ := hreplaced hsome
  rw [hsame] at hfields
  exact hobject fields (Option.some.inj hfields)

/-- Of two settings, one keeps its value, and the other makes way for what is written
    beneath it. -/
theorem kept_iff_nothing_beneath_for_two :
    ∃ s', (Source.conf "a::b=no\nc=no".toList { Options.standard with overwrite := false }).process
        ⟨fun _ => none⟩
        (Session.fresh (.nested [("a", .bool true), ("c", .bool true)] .standard)) = .ok s' ∧
      s'.store.get? "c" = some (.bool true) ∧
      ∃ fields, s'.store.get? "a" = some (.object fields) := by
  obtain ⟨s', hs, hkept⟩ := kept_iff_nothing_beneath ⟨fun _ => none⟩
    (.conf "a::b=no\nc=no".toList { Options.standard with overwrite := false })
    (Session.fresh (.nested [("a", .bool true), ("c", .bool true)] .standard)) (by decide +kernel)
  refine ⟨s', hs, ?_, ?_⟩
  · exact (hkept "c" (.bool true) (by decide +kernel) nofun).1.mpr (by decide +kernel)
  · exact (hkept "a" (.bool true) (by decide +kernel) nofun).2 (by decide +kernel)

/-- A setting that is there is lost to a key beneath it, though nothing is overwritten. -/
theorem lost_to_key_beneath :
    (Source.conf "a::b=no".toList { Options.standard with overwrite := false }).Assigns false ∧
    (Session.fresh (.nested [("a", .bool true)] .standard)).store.get? "a" = some (.bool true) ∧
    ∃ s', (Source.conf "a::b=no".toList { Options.standard with overwrite := false }).process
        ⟨fun _ => none⟩ (Session.fresh (.nested [("a", .bool true)] .standard)) = .ok s' ∧
      s'.store.get? "a" ≠ some (.bool true) := by
  refine ⟨by decide +kernel, by decide +kernel, _, Source.process_eq _ _ _, ?_⟩
  decide +kernel

end LayeredConfig
