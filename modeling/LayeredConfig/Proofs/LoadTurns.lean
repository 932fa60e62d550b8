import LayeredConfig.Proofs.QueueOrder
import LayeredConfig.Proofs.Steps

/-! # Turns of a load

    A load is a system that takes one turn after the other until no file waits. In its turn
    the first file that waits is passed over, or its source is applied: its steps are run
    with the file in hand, what they include is queued, and the file is put down. This is
    said here once, together with what becomes of the settings; only the notices are left
    open, since nothing depends on them. No turn fails, so a load that comes to an end is
    all its turns, and what is shown of loads is shown by induction over these.

    **Main results.** `Turn.of_queued`: where a file waits, the load has a turn;
    `load_induction`: what holds where no file waits, and before a turn if it holds after it,
    holds of every load that comes to an end.
-/

namespace LayeredConfig

/-! ## Targets -/

/-- The path that a step includes, if it includes any. -/
def Step.target? (s : Session) : Step → Option Path
  | .include target base =>
    s.queue.bind fun queue =>
      (resolveInclude (target.value s.store).text (base queue)).toOption
  | _ => none

/-- The paths that steps include, in their order. -/
def Session.targets (files : Snapshot) (s : Session) : List Step → List Path
  | [] => []
  | step :: rest => (step.target? s).toList ++ (step.run files s).targets files rest

theorem Session.targets_cons (files : Snapshot) (s : Session) (step : Step) (rest : List Step) :
    s.targets files (step :: rest) =
      (step.target? s).toList ++ (step.run files s).targets files rest := rfl

theorem Session.targets_append (files : Snapshot) (s : Session) (first second : List Step) :
    s.targets files (first ++ second) =
      s.targets files first ++ (s.runAll files first).targets files second := by
  induction first generalizing s with
  | nil => rfl
  | cons step rest ih =>
    rw [List.cons_append, targets_cons, ih, targets_cons, List.append_assoc, runAll_cons]

/-- Entering and leaving a context includes nothing. -/
theorem Session.targets_within (files : Snapshot) (s : Session) (context : String)
    (steps : List Step) :
    s.targets files (Step.within context steps) =
      targets files { s with tracker := s.tracker.push context } steps := by
  unfold Step.within
  rw [List.cons_append, targets_cons, targets_append]
  exact List.append_nil _

/-- **Step.** A step does nothing to the queue but queue its target. -/
theorem Step.queue_run_eq (files : Snapshot) (step : Step) {s : Session} {q : FileQueue}
    (hq : s.queue = some q) :
    (step.run files s).queue =
      some ((step.target? s).toList.foldl (FileQueue.addIncluded files) q) := by
  cases step with
  | assign overwrite key f =>
    show (s.defineUnless _ _ _ _).queue = _
    rw [Session.queue_defineUnless, hq]
    rfl
  | «include» target base =>
    unfold run target?
    rw [hq]
    dsimp only [Option.bind_some]
    unfold Session.queueInclude
    cases resolveInclude (target.value s.store).text (base q) with
    | ok p => rfl
    | error failure => exact hq
  | _ => exact hq

/-- **Run.** Steps do nothing to the queue but queue their targets. -/
theorem Session.queue_runAll_eq (files : Snapshot) (steps : List Step) {s : Session}
    {q : FileQueue} (hq : s.queue = some q) :
    (s.runAll files steps).queue =
      some ((s.targets files steps).foldl (FileQueue.addIncluded files) q) := by
  induction steps generalizing s q with
  | nil => exact hq
  | cons step rest ih =>
    rw [runAll_cons, ih (step.queue_run_eq files hq), targets_cons, List.foldl_append]

/-- A step leaves the file in hand as it is. -/
theorem Step.current_run (files : Snapshot) (step : Step) {s : Session} {q : FileQueue}
    (hq : s.queue = some q) :
    ∃ q', (step.run files s).queue = some q' ∧ q'.current = q.current :=
  ⟨_, step.queue_run_eq files hq, FileQueue.current_foldl_addIncluded files q _⟩

/-! ## Queues -/

namespace FileQueue

/-- The queue with its first file in hand. -/
def takeUp (q : FileQueue) (p : Path) (rest : List Path) : FileQueue :=
  { q with queued := rest, current := some p }

/-- The queue where the file in hand has been processed, and the one before is in hand
    again. -/
def putDown (q : FileQueue) (previous : Option Path) (p : Path) : FileQueue :=
  { q with current := previous, processed := q.processed ++ [p] }

/-- The queue where the first file that waits has been passed over. -/
def passOver (q : FileQueue) (p : Path) (rest : List Path) : FileQueue :=
  { q with queued := rest, skipped := q.skipped ++ [p] }

/-- The queue where the first file that waits has been taken, has included `targets` and has
    been put down. -/
def carryOut (files : Snapshot) (q : FileQueue) (p : Path) (rest targets : List Path) :
    FileQueue :=
  (targets.foldl (addIncluded files) (q.takeUp p rest)).putDown q.current p

end FileQueue

namespace Loader

/-! ## Turns -/

/-- A load with a file in hand. -/
def holding (l : Loader) (p : Path) : Loader :=
  l.withFiles fun q => { q with current := some p }

/-- Goes on after a file that may have been skipped. -/
def goOn (l : Loader) : Option Failure → Loader
  | none => l
  | some failure => l.note (.fileSkipped failure)

/-- Going on after a file adds a notice at most. -/
theorem goOn_eq (l : Loader) (outcome : Option Failure) :
    ∃ notices, l.goOn outcome = { l with notices := notices } := by
  cases outcome with
  | none => exact ⟨l.notices, rfl⟩
  | some failure => exact ⟨l.notices ++ [.fileSkipped failure], rfl⟩

/-- A load after its next turn. Where no file waits there is none. -/
def turn (files : Snapshot) (l : Loader) : Loader :=
  match l.files.queued with
  | [] => l
  | p :: rest =>
    let (next, outcome) := (l.withFiles fun q => { q with queued := rest }).loadOne files p none
    next.goOn outcome

/-- The notices that have been given when a file is applied: its text may not be valid. -/
def noticesAt (l : Loader) (p : Path) (bytes : List UInt8) : List Notice :=
  if Text.isUtf8 bytes then l.notices else l.notices ++ [.invalidText p]

/-- The session in which a file is applied that has been taken from the queue. -/
def takenSession (l : Loader) (p : Path) (rest : List Path) (given : List Notice) : Session :=
  ⟨l.store, l.tracker, some (l.files.takeUp p rest), given⟩

/-- The steps of a file of a format. -/
def fileSteps (l : Loader) (p : Path) (format : Format) (bytes : List UInt8) : List Step :=
  (Source.ofFormat format (Text.decodeLossy bytes) (l.optionsFor p)).steps true

/-- The load after a file of a format has been applied. -/
def afterFile (files : Snapshot) (l : Loader) (p : Path) (rest : List Path) (format : Format)
    (bytes : List UInt8) (given notices : List Notice) : Loader :=
  { l with
    store := ((l.takenSession p rest given).runAll files (l.fileSteps p format bytes)).store
    tracker := ((l.takenSession p rest given).runAll files (l.fileSteps p format bytes)).tracker
    files := l.files.carryOut files p rest
      ((l.takenSession p rest given).targets files (l.fileSteps p format bytes))
    notices := notices }

/-- A turn of a load: what becomes of the first file that waits, and of the settings. -/
inductive Turn (files : Snapshot) (l : Loader) : Loader → Prop where
  /-- The file is gone or cannot be read, or nothing reads it. -/
  | passOver (p : Path) (rest : List Path) (notices : List Notice)
      (hqueued : l.files.queued = p :: rest)
      (hunread : files.isReadable p = false ∨ hasFormat p = false) :
      Turn files l { l with files := l.files.passOver p rest, notices := notices }
  /-- The file is applied by the steps of its format. -/
  | apply (p : Path) (rest : List Path) (format : Format) (bytes : List UInt8)
      (given notices : List Notice) (hqueued : l.files.queued = p :: rest)
      (hread : files.read? p = some bytes)
      (hformat : Format.ofName? (formatNameOf p) = some format) :
      Turn files l (l.afterFile files p rest format bytes given notices)

/-! ## One file -/

/-- Applying a source runs its steps with the file in hand, and then puts it down as
    processed. It never fails. -/
theorem apply_eq (files : Snapshot) (l : Loader) (p : Path) (source : Source) :
    l.apply files p source =
      ((((l.holding p).resume
        ((l.holding p).session.runAll files (source.steps true))).withFiles fun q =>
          { q with current := l.files.current, processed := q.processed ++ [p] }), none) := by
  unfold apply
  dsimp only
  rw [Source.process_eq]
  rfl

/-- A file that cannot be loaded, in whatever format, is no defect of the program. -/
theorem isFatal_of_loadOne (files : Snapshot) (l : Loader) (p : Path) (hint : Option String) :
    ∀ failure ∈ (l.loadOne files p hint).2, failure.isFatal = false := by
  intro failure hfailure
  unfold loadOne at hfailure
  split at hfailure
  · exact nomatch hfailure
  · obtain rfl := Option.some.inj hfailure
    rfl
  · dsimp only at hfailure
    split at hfailure
    · rw [apply_eq] at hfailure
      exact nomatch hfailure
    · obtain rfl := Option.some.inj hfailure
      rfl

section loadOne

variable {files : Snapshot} {l : Loader} {p : Path} (rest : List Path)

/-- A file that cannot be read, or that nothing reads, is passed over. -/
theorem loadOne_of_unread (hunread : files.isReadable p = false ∨ hasFormat p = false) :
    ∃ notices outcome,
      (l.withFiles fun q => { q with queued := rest }).loadOne files p none =
        ({ l with files := l.files.passOver p rest, notices := notices }, outcome) := by
  unfold loadOne
  cases hfile : files.file? p with
  | none => exact ⟨l.notices, none, rfl⟩
  | some content =>
    cases content with
    | error reason =>
      exact ⟨l.notices, some (.unreadable (String.ofList p.text) reason), rfl⟩
    | ok bytes =>
      -- The file can be read, so it has no format.
      have hread : files.isReadable p = true :=
        Snapshot.isReadable_of_some (Snapshot.read?_eq_some_iff.mpr hfile)
      have hformat : Format.ofName? (formatNameOf p) = none :=
        (hasFormat_eq_false_iff p).mp (hunread.resolve_left (by simp [hread]))
      unfold Source.ofFormatName?
      dsimp only [Option.getD_none]
      rw [hformat]
      dsimp only [Option.map_none]
      split
      · exact ⟨l.notices, _, rfl⟩
      · exact ⟨l.notices ++ [.invalidText p], _, rfl⟩

/-- The notice of invalid text touches neither the settings nor the files. -/
theorem noted_eq (l : Loader) (p : Path) (bytes : List UInt8) :
    (if Text.isUtf8 bytes then l.withFiles fun q => { q with queued := rest }
      else (l.withFiles fun q => { q with queued := rest }).note (.invalidText p)) =
      { l with
        files := { l.files with queued := rest }
        notices := l.noticesAt p bytes } := by
  unfold noticesAt
  split <;> rfl

/-- A file of a format is applied by its steps, and that does not fail. -/
theorem loadOne_of_format {bytes : List UInt8} {format : Format}
    (hread : files.read? p = some bytes)
    (hformat : Format.ofName? (formatNameOf p) = some format) :
    ∃ notices,
      (l.withFiles fun q => { q with queued := rest }).loadOne files p none =
        (l.afterFile files p rest format bytes (l.noticesAt p bytes) notices, none) := by
  unfold loadOne Source.ofFormatName?
  rw [Snapshot.read?_eq_some_iff.mp hread]
  dsimp only [Option.getD_none]
  rw [hformat]
  dsimp only [Option.map_some]
  rw [noted_eq, apply_eq]
  have hqueue := Session.queue_runAll_eq files (l.fileSteps p format bytes)
    (s := l.takenSession p rest (l.noticesAt p bytes)) rfl
  refine ⟨((l.takenSession p rest (l.noticesAt p bytes)).runAll files
    (l.fileSteps p format bytes)).notices, ?_⟩
  unfold afterFile FileQueue.carryOut
  rw [← Option.getD_some (a := List.foldl _ _ _) (b := l.files.takeUp p rest), ← hqueue]
  rfl

end loadOne

/-! ## One turn -/

section turn

variable (files : Snapshot) {l : Loader} {p : Path} {rest : List Path}

theorem turn_done (hqueued : l.files.queued = []) : l.turn files = l := by
  unfold turn
  rw [hqueued]

variable (hqueued : l.files.queued = p :: rest)
include hqueued

/-- A turn loads the first file that waits, and notes whether it has been skipped. -/
theorem turn_eq :
    l.turn files =
      ((l.withFiles fun q => { q with queued := rest }).loadOne files p none).1.goOn
        ((l.withFiles fun q => { q with queued := rest }).loadOne files p none).2 := by
  unfold turn
  rw [hqueued]

/-- In its turn a file that cannot be read, or that nothing reads, is passed over. -/
theorem turn_of_unread (hunread : files.isReadable p = false ∨ hasFormat p = false) :
    ∃ notices,
      l.turn files = { l with files := l.files.passOver p rest, notices := notices } := by
  obtain ⟨notices, outcome, hone⟩ := loadOne_of_unread (l := l) rest hunread
  rw [turn_eq files hqueued, hone]
  exact goOn_eq { l with files := l.files.passOver p rest, notices := notices } outcome

/-- In its turn a file of a format is applied. -/
theorem turn_of_format {bytes : List UInt8} {format : Format} (hread : files.read? p = some bytes)
    (hformat : Format.ofName? (formatNameOf p) = some format) :
    ∃ notices,
      l.turn files = l.afterFile files p rest format bytes (l.noticesAt p bytes) notices := by
  obtain ⟨notices, hone⟩ := loadOne_of_format (l := l) rest hread hformat
  rw [turn_eq files hqueued, hone]
  exact ⟨notices, rfl⟩

/-- **Step.** Where a file waits, the load has a turn. -/
theorem Turn.of_queued : Turn files l (l.turn files) := by
  by_cases hunread : files.isReadable p = false ∨ hasFormat p = false
  · obtain ⟨notices, hturn⟩ := turn_of_unread files hqueued hunread
    rw [hturn]
    exact .passOver p rest notices hqueued hunread
  · rw [not_or, Bool.not_eq_false, Bool.not_eq_false] at hunread
    obtain ⟨bytes, hread⟩ := Option.isSome_iff_exists.mp hunread.1
    obtain ⟨format, hformat⟩ := Option.isSome_iff_exists.mp hunread.2
    obtain ⟨notices, hturn⟩ := turn_of_format files hqueued hread hformat
    rw [hturn]
    exact .apply p rest format bytes _ notices hqueued hread hformat

end turn

theorem Turn.options {files : Snapshot} {l next : Loader} (h : Turn files l next) :
    next.options = l.options := by
  cases h <;> rfl

/-! ## All turns -/

section loads

variable (files : Snapshot) {l : Loader}

theorem loadWithin?_done (hqueued : l.files.queued = []) (limit : Nat) :
    l.loadWithin? files limit = some (l, none) := by
  unfold loadWithin?
  cases limit <;> rw [hqueued]

theorem loadWithin?_zero {p : Path} {rest : List Path} (hqueued : l.files.queued = p :: rest) :
    l.loadWithin? files 0 = none := by
  unfold loadWithin?
  rw [hqueued]

/-- A load of one file more goes on after its turn, whether the file has been skipped or
    not. -/
theorem loadWithin?_succ {p : Path} {rest : List Path} (hqueued : l.files.queued = p :: rest)
    (limit : Nat) :
    l.loadWithin? files (limit + 1) = (l.turn files).loadWithin? files limit := by
  have hfatal := isFatal_of_loadOne files (l.withFiles fun q => { q with queued := rest }) p none
  rw [loadWithin?.eq_def, turn_eq files hqueued]
  dsimp only
  rw [hqueued]
  dsimp only
  generalize (l.withFiles fun q => { q with queued := rest }).loadOne files p none = one
    at hfatal ⊢
  obtain ⟨next, _ | failure⟩ := one
  · rfl
  · dsimp only
    rw [hfatal failure rfl, if_neg Bool.false_ne_true]
    rfl

/-- **Induction over a load.** A load that comes to an end has not failed. What holds where no
    file waits, and before a turn if it holds after it, holds of the load and its end. -/
theorem load_induction {P : Nat → Loader → Loader → Prop}
    (done : ∀ limit l, l.files.queued = [] → P limit l l)
    (next : ∀ limit l l' p rest, l.files.queued = p :: rest → P limit (l.turn files) l' →
      P (limit + 1) l l')
    {limit : Nat} {l l' : Loader} {failure : Option Failure}
    (hload : l.loadWithin? files limit = some (l', failure)) :
    failure = none ∧ P limit l l' := by
  induction limit generalizing l with
  | zero =>
    cases hqueued : l.files.queued with
    | nil =>
      rw [loadWithin?_done files hqueued] at hload
      obtain ⟨rfl, rfl⟩ := Prod.mk.inj (Option.some.inj hload)
      exact ⟨rfl, done 0 l hqueued⟩
    | cons p rest =>
      -- A file waits and no turn is left, so the load has not come to an end.
      rw [loadWithin?_zero files hqueued] at hload
      exact nomatch hload
  | succ limit ih =>
    cases hqueued : l.files.queued with
    | nil =>
      rw [loadWithin?_done files hqueued] at hload
      obtain ⟨rfl, rfl⟩ := Prod.mk.inj (Option.some.inj hload)
      exact ⟨rfl, done (limit + 1) l hqueued⟩
    | cons p rest =>
      rw [loadWithin?_succ files hqueued] at hload
      obtain ⟨hfailure, hrest⟩ := ih hload
      exact ⟨hfailure, next limit l l' p rest hqueued hrest⟩

end loads

end Loader

end LayeredConfig
