import LayeredConfig.Proofs.LoadTurns

/-! # Files in the turns of a load

    Seen from the files of a load, one file after the other has its turn: the first one
    that waits is taken, and it is passed over, or it is applied, its includes are
    queued, and it is put down as processed. What the settings are does not matter for
    that, except that they determine which includes there are. Of an include only this
    much is known: it is a target seen from the directory of the file, or from that of
    the options where the file has none.

    So a property of the files that every turn keeps holds at the end of every load.

    **Main results.** `Turn.turn_files`: a turn of a load is a turn of its files;
    `load_invariant`: what every turn keeps holds in the end.
-/

namespace LayeredConfig

/-! ## What is included -/

/-- A path that a file can include: a target seen from the directory of the file or, where
    it has none, from the given one. -/
def IncludedFrom (p : Path) (context : Option Path) (target : Path) : Prop :=
  ∃ text base, resolveInclude text base = .ok target ∧
    ∀ dir ∈ base, p.directory? = some dir ∨ context = some dir

/-- A step that includes, if it does, from the directory of the options, or else from that
    of the file in hand. -/
def Step.IncludesFrom (context : Option Path) : Step → Prop
  | .include _ base =>
    ∀ q, base q = context ∨ base q = context.or (q.current.bind Path.directory?)
  | _ => True

namespace Source

theorem Conf.includesFrom_stepOf (o : Options) (queued : Bool)
    (a : LayeredConfig.Conf.Assignment) : (Conf.stepOf o queued a).IncludesFrom o.context := by
  unfold Conf.stepOf
  split
  · exact fun q => .inr rfl
  · split <;> trivial

/-- The options of a source, if it has any. -/
def context? : Source → Option Path
  | .conf _ o => o.context
  | .document _ _ o => o.context
  | .plain _ => none

/-- All steps of a source include from the directory that its options give. -/
theorem includesFrom_steps (source : Source) (queued : Bool) :
    ∀ step ∈ source.steps queued, step.IncludesFrom source.context? := by
  intro step hstep
  cases stepCase_of_mem hstep with
  | assignment content o ha => exact Conf.includesFrom_stepOf o queued _
  | target codec content o target => exact fun q => .inl rfl
  | _ => trivial

end Source

/-- **Run.** What steps include while a file is in hand, the file can include. -/
theorem Session.includedFrom_targets (files : Snapshot) {context : Option Path} {p : Path}
    {steps : List Step} {s : Session} {q : FileQueue} (hq : s.queue = some q)
    (hcurrent : q.current = some p) (hsteps : ∀ step ∈ steps, step.IncludesFrom context) :
    ∀ target ∈ s.targets files steps, IncludedFrom p context target := by
  induction steps generalizing s q with
  | nil =>
    intro target htarget
    exact nomatch htarget
  | cons step rest ih =>
    intro target htarget
    rw [targets_cons, List.mem_append] at htarget
    rcases htarget with hnow | hlater
    · have hstep := hsteps step List.mem_cons_self
      cases step with
      | «include» text base =>
        -- The step resolves its text from one of the two directories.
        rw [Option.mem_toList] at hnow
        unfold Step.target? at hnow
        rw [hq] at hnow
        dsimp only [Option.bind_some] at hnow
        cases hresolve : resolveInclude (text.value s.store).text (base q) with
        | error failure =>
          rw [hresolve] at hnow
          exact nomatch hnow
        | ok found =>
          rw [hresolve] at hnow
          obtain rfl := Option.some.inj hnow
          refine ⟨_, base q, hresolve, ?_⟩
          intro dir hdir
          rcases hstep q with hbase | hbase
          · exact .inr (hbase ▸ hdir)
          · rw [hbase, hcurrent, Option.bind_some, Option.mem_def, Option.or_eq_some_iff] at hdir
            rcases hdir with hcontext | ⟨_, hparent⟩
            · exact .inr hcontext
            · exact .inl hparent
      | _ => exact nomatch hnow
    · obtain ⟨q', hq', hcurrent'⟩ := step.current_run files hq
      exact ih hq' (hcurrent'.trans hcurrent) (fun s hs => hsteps s (List.mem_cons_of_mem _ hs))
        target hlater

/-! ## Turns -/

namespace FileQueue

/-- The turn of the first file that waits. -/
inductive Turn (files : Snapshot) (context : Option Path) (q : FileQueue) : FileQueue → Prop where
  /-- The file is gone or cannot be read, or nothing reads it. -/
  | passOver (p : Path) (rest : List Path) (hqueued : q.queued = p :: rest) :
      Turn files context q { q with queued := rest, skipped := q.skipped ++ [p] }
  /-- The file is applied, and its includes are queued. -/
  | apply (p : Path) (rest targets : List Path) (hqueued : q.queued = p :: rest)
      (htargets : ∀ target ∈ targets, IncludedFrom p context target) :
      Turn files context q
        ((targets.foldl (addIncluded files) (q.takeUp p rest)).putDown q.current p)

end FileQueue

namespace Loader

variable (files : Snapshot) {l : Loader}

/-- What is included by a file that is applied, the file can include: its directory is
    that of the options it is read by. -/
theorem includedFrom_fileSteps (p : Path) (rest : List Path) (format : Format)
    (bytes : List UInt8) (given : List Notice) :
    ∀ target ∈ (l.takenSession p rest given).targets files (l.fileSteps p format bytes),
      IncludedFrom p l.options.context target := by
  intro target htarget
  obtain ⟨text, base, hresolve, hbase⟩ := Session.includedFrom_targets files
    (q := l.files.takeUp p rest) rfl rfl (Source.includesFrom_steps _ true) target htarget
  refine ⟨text, base, hresolve, fun dir hdir => ?_⟩
  rcases hbase dir hdir with hparent | hcontext
  · exact .inl hparent
  · have hoptions : (l.optionsFor p).context = some dir := by
      cases format with
      | plain => exact nomatch hcontext
      | _ => exact hcontext
    unfold optionsFor at hoptions
    rw [Option.or_eq_some_iff] at hoptions
    rcases hoptions with h | ⟨_, h⟩
    · exact .inl h
    · exact .inr h

/-- **Step.** A turn of a load is a turn of its files. -/
theorem Turn.turn_files {next : Loader} (h : Turn files l next) :
    FileQueue.Turn files l.options.context l.files next.files := by
  cases h with
  | passOver p rest notices hqueued hunread => exact .passOver p rest hqueued
  | apply p rest format bytes given notices hqueued hread hformat =>
    exact .apply p rest _ hqueued (includedFrom_fileSteps files p rest format bytes given)

/-- **Run.** What every turn keeps holds at the end of a load, and then no file waits. A
    load that comes to an end has not failed. -/
theorem load_invariant {P : FileQueue → Prop} {limit : Nat} {l' : Loader}
    {failure : Option Failure}
    (hturn : ∀ q q', P q → FileQueue.Turn files l.options.context q q' → P q') (h : P l.files)
    (hload : l.loadWithin? files limit = some (l', failure)) :
    failure = none ∧ P l'.files ∧ l'.files.queued = [] := by
  -- The options are part of the induction, since the turns depend on them.
  have hrun := load_induction files
    (P := fun _ l l' => (∀ q q', P q → FileQueue.Turn files l.options.context q q' → P q') →
      P l.files → P l'.files ∧ l'.files.queued = []) ?done ?next hload
  case done =>
    intro limit l hqueued _ h
    exact ⟨h, hqueued⟩
  case next =>
    intro limit l l' p rest hqueued ih hturn h
    have htaken := Turn.of_queued files hqueued
    rw [htaken.options] at ih
    exact ih hturn (hturn _ _ h htaken.turn_files)
  exact ⟨hrun.1, hrun.2 hturn h⟩

end Loader

end LayeredConfig
