import LayeredConfig.Proofs.Accounting
import LayeredConfig.Proofs.LoadEnds

/-! # Where settings are recorded

    A source is processed within a context of its own. Whatever it defines, it defines there,
    and the context is left when the source has been carried out, so that those around it
    are as they were. What stands outside of the context records nothing: the includes of a
    document, the members of a plain value, and the notice of a document that cannot be
    applied. There is no other way through a source, and none that ends early.

    In a load the context of a file is its path as it is written. So a load never fails for
    its contexts, and what has been recorded is recorded under the path of a file that has
    been processed.

    **Main result.** `Loader.contexts_kept_and_recorded`. The invariant of the load is
    `Tracker.RecordedIn`, which every turn keeps.
-/

namespace LayeredConfig

/-! ## The shape of a source -/

/-- A step that leaves the record alone. -/
def Step.IsQuiet : Step → Prop
  | .put _ _ => True
  | .include _ _ => True
  | .note _ => True
  | _ => False

section quiet

variable (files : Snapshot)

theorem Step.tracker_run_of_isQuiet {step : Step} (h : step.IsQuiet) (s : Session) :
    (step.run files s).tracker = s.tracker := by
  cases step with
  | put key v => rfl
  | «include» target base =>
    unfold run
    dsimp only
    split
    · exact Session.tracker_queueInclude _ _ _ _
    · rfl
  | note n => rfl
  | _ => exact h.elim

theorem Session.tracker_runAll_of_isQuiet {steps : List Step}
    (h : ∀ step ∈ steps, step.IsQuiet) (s : Session) :
    (s.runAll files steps).tracker = s.tracker := by
  induction steps generalizing s with
  | nil => rfl
  | cons step rest ih =>
    obtain ⟨hstep, hrest⟩ := List.forall_mem_cons.mp h
    rw [runAll_cons, ih hrest, step.tracker_run_of_isQuiet files hstep]

end quiet

/-- The steps of a source: quiet ones, and then those within its context, if it has one. -/
inductive Source.Shape (source : Source) : List Step → Prop where
  | quiet {steps : List Step} (hquiet : ∀ step ∈ steps, step.IsQuiet) : Shape source steps
  | enclosed {steps inner : List Step} (hquiet : ∀ step ∈ steps, step.IsQuiet)
      (hinner : ∀ step ∈ inner, step.isScope = false) :
      Shape source (steps ++ Step.within source.recordContext inner)

namespace Source

theorem Document.isQuiet_splitIncludes (o : Options) (queued : Bool) (fields : Entries Value) :
    ∀ step ∈ (Document.splitIncludes o queued fields).1, step.IsQuiet := by
  intro step hstep
  rcases Document.eq_of_mem_splitIncludes hstep with ⟨target, rfl⟩ | ⟨n, rfl⟩
  · trivial
  · trivial

theorem isQuiet_plain (data : Value) (queued : Bool) :
    ∀ step ∈ (Source.plain data).steps queued, step.IsQuiet := by
  intro step hstep
  obtain ⟨entry, -, rfl⟩ := List.mem_map.mp hstep
  trivial

/-- **Every source has this shape**, whatever its text is. -/
theorem shape_steps (source : Source) (queued : Bool) : source.Shape (source.steps queued) := by
  cases source with
  | conf content o =>
    have hnone : ∀ step ∈ ([] : List Step), step.IsQuiet := fun _ hstep => nomatch hstep
    apply Shape.enclosed hnone
    intro step hstep
    obtain ⟨a, -, rfl⟩ := List.mem_map.mp hstep
    exact Conf.isScope_stepOf o queued a
  | document codec content o =>
    show Shape _ (Document.steps codec o content queued)
    unfold Document.steps
    cases Document.root codec content with
    | ok fields =>
      apply Shape.enclosed (Document.isQuiet_splitIncludes o queued _)
      intro step hstep
      obtain ⟨leaf, -, rfl⟩ := List.mem_map.mp hstep
      rfl
    | error failure =>
      apply Shape.quiet
      intro step hstep
      obtain rfl := List.mem_singleton.mp hstep
      trivial
  | plain data => exact .quiet (isQuiet_plain data queued)

/-- **A source leaves the contexts as they were.** -/
theorem contexts_runAll_steps (files : Snapshot) (source : Source) (queued : Bool) (s : Session) :
    (s.runAll files (source.steps queued)).tracker.contexts = s.tracker.contexts := by
  have hshape := source.shape_steps queued
  generalize source.steps queued = steps at hshape ⊢
  cases hshape with
  | quiet hquiet => rw [Session.tracker_runAll_of_isQuiet files hquiet]
  | enclosed hquiet hinner =>
    rw [Session.runAll_append, Session.runAll_within]
    show (Tracker.leave _).contexts = _
    -- The context that was entered is the first one when it is left.
    rw [Tracker.leave_eq, Session.contexts_runAll files _ hinner]
    show (Session.tracker _).contexts = _
    rw [Session.tracker_runAll_of_isQuiet files hquiet]

end Source

/-! ## Where records are made -/

namespace Tracker

/-- Everything in the record was recorded in one of the contexts. -/
structure RecordedIn (t : Tracker) (contexts : List String) : Prop where
  definitions : ∀ key d, t.definitions.get? key = some d → d.context ∈ contexts
  externals : ∀ name c, t.externals.get? name = some c → c ∈ contexts

theorem recordedIn_empty (contexts : List String) : empty.RecordedIn contexts where
  definitions _ _ h := nomatch h
  externals _ _ h := nomatch h

namespace RecordedIn

variable {t : Tracker} {contexts : List String}

theorem mono (h : t.RecordedIn contexts) {more : List String} (hmore : contexts ⊆ more) :
    t.RecordedIn more where
  definitions key d hd := hmore (h.definitions key d hd)
  externals name c hc := hmore (h.externals name c hc)

/-- A definition is recorded in the innermost context, and so are the names that it uses
    first. -/
theorem define (h : t.RecordedIn contexts) (hcontext : t.context ∈ contexts) (key : String)
    (dependencies : List String) : (t.define key dependencies).RecordedIn contexts where
  definitions k d hd := by
    rw [definitions_define] at hd
    split at hd
    · obtain rfl := Option.some.inj hd
      exact hcontext
    · exact h.definitions k d hd
  externals name c hc := by
    rw [externals_define] at hc
    split at hc
    · exact nomatch hc
    · rcases Option.or_eq_some_iff.mp hc with hold | ⟨-, hnew⟩
      · exact h.externals name c hold
      · split at hnew
        · obtain rfl := Option.some.inj hnew
          exact hcontext
        · exact nomatch hnew

/-- Leaving a context touches nothing that has been recorded. -/
theorem leave (h : t.RecordedIn contexts) : t.leave.RecordedIn contexts := by
  rw [leave_eq]
  exact ⟨h.definitions, h.externals⟩

end RecordedIn

end Tracker

namespace Tracker.RecordedIn

variable (files : Snapshot) {contexts : List String}

/-- **Step.** A step that stays in its context records in it. -/
theorem run {s : Session} (h : s.tracker.RecordedIn contexts)
    (hcontext : s.tracker.context ∈ contexts) {step : Step} (hscope : step.isScope = false) :
    (step.run files s).tracker.RecordedIn contexts := by
  cases step with
  | enter context => exact nomatch hscope
  | leave => exact nomatch hscope
  | assign overwrite key f =>
    unfold Step.run Session.defineUnless
    dsimp only
    split
    · exact h.define hcontext key f.names
    · exact h
  | append key f => exact h.define hcontext key f.names
  | put key v => exact h
  | «include» target base =>
    have hquiet : Step.IsQuiet (.include target base) := trivial
    rw [Step.tracker_run_of_isQuiet files hquiet]
    exact h
  | note n => exact h

/-- **Run.** Steps that stay in their context record in it. -/
theorem runAll {s : Session} (h : s.tracker.RecordedIn contexts)
    (hcontext : s.tracker.context ∈ contexts) {steps : List Step}
    (hscope : ∀ step ∈ steps, step.isScope = false) :
    (s.runAll files steps).tracker.RecordedIn contexts := by
  induction steps generalizing s with
  | nil => exact h
  | cons step rest ih =>
    obtain ⟨hstep, hrest⟩ := List.forall_mem_cons.mp hscope
    have hsame : (step.run files s).tracker.context = s.tracker.context := by
      unfold Tracker.context Tracker.context?
      rw [Step.contexts_run files hstep]
    exact ih (h.run files hcontext hstep) (hsame ▸ hcontext) hrest

/-- **What a source records** it records in its context. -/
theorem source {s : Session} (h : s.tracker.RecordedIn contexts) {source : Source}
    (hcontext : source.recordContext ∈ contexts) (queued : Bool) :
    (s.runAll files (source.steps queued)).tracker.RecordedIn contexts := by
  have hshape := source.shape_steps queued
  generalize source.steps queued = steps at hshape ⊢
  cases hshape with
  | quiet hquiet =>
    rw [Session.tracker_runAll_of_isQuiet files hquiet]
    exact h
  | @enclosed steps inner hquiet hinner =>
    rw [Session.runAll_append, Session.runAll_within]
    have hbefore : (s.runAll files steps).tracker.RecordedIn contexts := by
      rw [Session.tracker_runAll_of_isQuiet files hquiet]
      exact h
    -- Entering the context records nothing.
    exact (runAll files (s := { s.runAll files steps with
      tracker := (s.runAll files steps).tracker.push source.recordContext })
      ⟨hbefore.definitions, hbefore.externals⟩ hcontext hinner).leave

end Tracker.RecordedIn

/-! ## Loads -/

namespace Loader

/-- The contexts of the files that have been processed: their paths as they are written. -/
def processedContexts (l : Loader) : List String :=
  l.files.processed.map fun p => String.ofList p.text

/-- What a load keeps as it goes on. -/
structure Keeps (l next : Loader) : Prop where
  /-- The file in hand is the one that was. -/
  current : next.files.current = l.files.current
  /-- The contexts are as they were. -/
  contexts : next.tracker.contexts = l.tracker.contexts
  /-- What is recorded was recorded for a file that has been processed. -/
  recorded : l.tracker.RecordedIn l.processedContexts →
    next.tracker.RecordedIn next.processedContexts

theorem Keeps.refl (l : Loader) : l.Keeps l where
  current := rfl
  contexts := rfl
  recorded h := h

theorem Keeps.trans {l next last : Loader} (h : l.Keeps next) (hnext : next.Keeps last) :
    l.Keeps last where
  current := hnext.current.trans h.current
  contexts := hnext.contexts.trans h.contexts
  recorded hrecorded := hnext.recorded (h.recorded hrecorded)

section turns

variable (files : Snapshot) (l : Loader) (p : Path)

/-- A file is recorded under its path. A file of plain values has no context at all. -/
theorem recordContext_ofFormat (format : Format) (content : List Char) :
    (Source.ofFormat format content (l.optionsFor p)).recordContext = String.ofList p.text ∨
      ∃ data, Source.ofFormat format content (l.optionsFor p) = .plain data := by
  cases format with
  | plain => exact .inr ⟨_, rfl⟩
  | _ => exact .inl rfl

theorem processedContexts_apply (source : Source) :
    (l.apply files p source).1.processedContexts =
      l.processedContexts ++ [String.ofList p.text] := by
  have hqueue := Session.queue_runAll_eq files (source.steps true) (s := (l.holding p).session) rfl
  rw [apply_eq]
  unfold processedContexts withFiles resume
  dsimp only
  rw [hqueue, Option.getD_some, FileQueue.processed_foldl_addIncluded, List.map_append]
  rfl

/-- A file that is applied is recorded under its path, and leaves the contexts alone. -/
theorem keeps_apply {source : Source}
    (hsource : source.recordContext = String.ofList p.text ∨ ∃ data, source = .plain data) :
    l.Keeps (l.apply files p source).1 where
  current := by rw [apply_eq]; rfl
  contexts := by
    rw [apply_eq]
    exact source.contexts_runAll_steps files true _
  recorded h := by
    rw [processedContexts_apply, apply_eq]
    have hbegin : (l.holding p).session.tracker.RecordedIn
        (l.processedContexts ++ [String.ofList p.text]) :=
      h.mono (List.subset_append_left _ _)
    show (Session.runAll files _ (source.steps true)).tracker.RecordedIn _
    rcases hsource with hcontext | ⟨data, rfl⟩
    · apply hbegin.source files
      rw [hcontext]
      exact List.mem_append_right _ (List.mem_singleton_self _)
    · -- Of plain values nothing is recorded.
      rw [Session.tracker_runAll_of_isQuiet files (Source.isQuiet_plain data true)]
      exact hbegin

/-- **Step.** A file that is loaded, in whatever format, keeps all of this. -/
theorem keeps_loadOne (hint : Option String) : l.Keeps (l.loadOne files p hint).1 := by
  unfold loadOne
  cases files.file? p with
  | none => exact ⟨rfl, rfl, fun h => h⟩
  | some content =>
  cases content with
  | error reason => exact ⟨rfl, rfl, fun h => h⟩
  | ok bytes =>
    dsimp only
    -- The notice of invalid text touches neither files nor records.
    have hnoted : l.Keeps (if Text.isUtf8 bytes then l else l.note (.invalidText p)) := by
      split
      · exact .refl l
      · exact ⟨rfl, rfl, fun h => h⟩
    generalize (if Text.isUtf8 bytes then l else l.note (.invalidText p)) = noted at hnoted ⊢
    unfold Source.ofFormatName?
    cases Format.ofName? (hint.getD (formatNameOf p)) with
    | none => exact hnoted.trans ⟨rfl, rfl, fun h => h⟩
    | some format =>
      exact hnoted.trans (keeps_apply files noted p (noted.recordContext_ofFormat p format _))

end turns

/-- The notice of a skipped file touches neither files nor records. -/
theorem keeps_goOn (l : Loader) (outcome : Option Failure) : l.Keeps (l.goOn outcome) := by
  cases outcome with
  | none => exact .refl l
  | some failure => exact ⟨rfl, rfl, fun h => h⟩

theorem keeps_turn (files : Snapshot) {l : Loader} {p : Path} {rest : List Path}
    (hqueued : l.files.queued = p :: rest) : l.Keeps (l.turn files) := by
  have htaken : l.Keeps (l.withFiles fun q => { q with queued := rest }) :=
    ⟨rfl, rfl, fun h => h⟩
  rw [turn_eq files hqueued]
  exact (htaken.trans (keeps_loadOne files _ p none)).trans (keeps_goOn _ _)

/-- **Run.** A load that comes to an end has not failed, and has kept all of this. -/
theorem keeps_load {files : Snapshot} {limit : Nat} {l l' : Loader} {failure : Option Failure}
    (hload : l.loadWithin? files limit = some (l', failure)) : failure = none ∧ l.Keeps l' :=
  load_induction files (P := fun _ l l' => l.Keeps l') (fun _ l _ => .refl l)
    (fun _ _ _ _ _ hqueued hrest => (keeps_turn files hqueued).trans hrest) hload

/-! ## Loaders -/

/-- The loaders that a program can come by. Whatever it finds in the file system each time,
    it begins with a new one, and lists more files, loads one file or all that wait, chooses
    other options, or changes the settings. -/
inductive Reachable : Loader → Prop where
  | new (files : Snapshot) (listed : List Path) (store : Store) (options : Options) :
    Reachable (new files listed store options)
  | addListed (files : Snapshot) (listed : List Path) {l : Loader} (h : Reachable l) :
    Reachable (l.withFiles fun q => q.addListed files listed)
  | loadOne (files : Snapshot) (p : Path) (hint : Option String) {l : Loader} (h : Reachable l) :
    Reachable (l.loadOne files p hint).1
  | load (files : Snapshot) (limit : Nat) {l l' : Loader} {failure : Option Failure}
    (h : Reachable l) (hload : l.loadWithin? files limit = some (l', failure)) : Reachable l'
  | withOptions (options : Options) {l : Loader} (h : Reachable l) : Reachable { l with options }
  | withStore (store : Store) {l : Loader} (h : Reachable l) : Reachable { l with store }

/-- What holds of a loader between two operations. -/
structure AtRest (l : Loader) : Prop where
  idle : l.files.current = none
  contexts : l.tracker.contexts = []
  recorded : l.tracker.RecordedIn l.processedContexts

theorem AtRest.keeps {l next : Loader} (h : l.AtRest) (hkeeps : l.Keeps next) : next.AtRest where
  idle := hkeeps.current.trans h.idle
  contexts := hkeeps.contexts.trans h.contexts
  recorded := hkeeps.recorded h.recorded

end Loader

theorem FileQueue.processed_addListed (files : Snapshot) (q : FileQueue) (ps : List Path) :
    (q.addListed files ps).processed = q.processed := by
  unfold addListed
  induction ps generalizing q with
  | nil => rfl
  | cons p rest ih =>
    rw [List.foldl_cons, ih]
    unfold classify
    split
    · rfl
    · split <;> rfl

namespace Loader

/-- **Invariant.** Every loader is at rest between two operations. -/
theorem Reachable.atRest {l : Loader} (h : l.Reachable) : l.AtRest := by
  induction h with
  | new files listed store options =>
    exact ⟨FileQueue.current_addListed files .empty listed, rfl, Tracker.recordedIn_empty _⟩
  | addListed files listed h ih =>
    refine ih.keeps ⟨FileQueue.current_addListed files _ listed, rfl, fun hrecorded => ?_⟩
    unfold processedContexts withFiles
    dsimp only
    rw [FileQueue.processed_addListed]
    exact hrecorded
  | loadOne files p hint h ih => exact ih.keeps (keeps_loadOne files _ p hint)
  | load files limit h hload ih => exact ih.keeps (keeps_load hload).2
  | withOptions options h ih => exact ⟨ih.idle, ih.contexts, ih.recorded⟩
  | withStore store h ih => exact ⟨ih.idle, ih.contexts, ih.recorded⟩

/-- **Contexts are kept, and records name processed files.** Processing a source always comes
    to an end without a failure, and leaves the contexts as they were.

    So no load of a loader fails, whatever has been done with the loader before and whatever
    the files are: those that wait may have vanished, or may be such that they cannot be read
    any more. When it has come to an end there is no file in hand and no context, and every
    definition and every external name was recorded in a context that is the path of a
    processed file as it is written. A load of a new loader does come to an end where all
    readable paths are among finitely many. -/
theorem contexts_kept_and_recorded (files : Snapshot) :
    (∀ (source : Source) (s : Session), ∃ s', source.process files s = .ok s' ∧
      s'.tracker.contexts = s.tracker.contexts) ∧
    (∀ l : Loader, l.Reachable → ∀ limit l' failure,
      l.loadWithin? files limit = some (l', failure) →
      failure = none ∧ l'.files.current = none ∧ l'.tracker.contexts = [] ∧
      (∀ key d, l'.tracker.definitions.get? key = some d →
        ∃ p ∈ l'.files.processed, d.context = String.ofList p.text) ∧
      (∀ name c, l'.tracker.externals.get? name = some c →
        ∃ p ∈ l'.files.processed, c = String.ofList p.text)) ∧
    (∀ paths : List Path, (∀ p, files.isReadable p = true → p.isIn paths = true) →
      ∀ listed store options, ∃ limit l', ∀ more,
        (new files listed store options).loadWithin? files (limit + more) = some (l', none)) := by
  refine ⟨?source, ?load, ?ends⟩
  case source =>
    intro source s
    exact ⟨_, source.process_eq files s, source.contexts_runAll_steps files _ s⟩
  case load =>
    intro l hreachable limit l' failure hload
    obtain ⟨hfailure, hkeeps⟩ := keeps_load hload
    have hrest := hreachable.atRest.keeps hkeeps
    refine ⟨hfailure, hrest.idle, hrest.contexts, fun key d hd => ?_, fun name c hc => ?_⟩
    · obtain ⟨p, hp, hcontext⟩ := List.mem_map.mp (hrest.recorded.definitions key d hd)
      exact ⟨p, hp, hcontext.symm⟩
    · obtain ⟨p, hp, hcontext⟩ := List.mem_map.mp (hrest.recorded.externals name c hc)
      exact ⟨p, hp, hcontext.symm⟩
  case ends =>
    intro paths hpaths listed store options
    obtain ⟨limit, l', hend, -⟩ := exists_end hpaths (new files listed store options)
      ((FileQueue.ready_empty files).addListed listed)
    exact ⟨limit, l', hend⟩

/-- A document that includes an assignment file, and a text that is no document. -/
def scatteredTexts : List (Path × String) :=
  [(⟨"/a.json".toList⟩, "\x7b\"include\": \"b.conf\", \"x\": \"$\x7by\x7d\"\x7d"),
   (⟨"/b.conf".toList⟩, "z=$x\nw[]=$v"), (⟨"/c.json".toList⟩, "\x7b")]

/-- The files with these texts. -/
def scattered : Snapshot :=
  .ofContents fun p => (scatteredTexts.find? fun file => p.same file.1).map fun file =>
    file.2.toList.map fun c => UInt8.ofNat c.toNat

theorem isIn_of_isReadable_scattered (p : Path) (h : scattered.isReadable p = true) :
    p.isIn (scatteredTexts.map Prod.fst) = true := by
  unfold Snapshot.isReadable scattered at h
  rw [Snapshot.read?_ofContents, Option.isSome_map, List.find?_isSome] at h
  obtain ⟨file, hfile, hsame⟩ := h
  exact (Path.isIn_iff _ _).mpr ⟨file.1, List.mem_map_of_mem hfile, hsame⟩

/-- The load of these files, two of them listed. -/
def loadScattered : Loader :=
  new scattered [⟨"/a.json".toList⟩, ⟨"/c.json".toList⟩] (.nested [] .standard) .standard

/-- What is recorded in this load, which comes to an end. -/
theorem contexts_kept_and_recorded_of_scattered :
    ∃ l d c limit, loadScattered.loadWithin? scattered 3 = some (l, none) ∧
      l.files.current = none ∧ l.tracker.contexts = [] ∧
      l.tracker.definitions.get? "z" = some d ∧
      (∃ p ∈ l.files.processed, d.context = String.ofList p.text) ∧
      l.tracker.externals.get? "y" = some c ∧
      (∃ p ∈ l.files.processed, c = String.ofList p.text) ∧
      ∀ more, (loadScattered.loadWithin? scattered (limit + more)).isSome = true := by
  have hrecords : (loadScattered.loadWithin? scattered 3).map (fun reached =>
      (reached.1.tracker.definitions.get? "z", reached.1.tracker.externals.get? "y")) =
      some (some ⟨"/b.conf", ["x"]⟩, some "/a.json") := by decide +kernel
  obtain ⟨⟨l, failure⟩, hload, hl⟩ := Option.map_eq_some_iff.mp hrecords
  obtain ⟨hz, hy⟩ := Prod.mk.inj hl
  obtain ⟨_, hreachable, hends⟩ := contexts_kept_and_recorded scattered
  obtain ⟨rfl, hidle, hcontexts, hdefinitions, hexternals⟩ :=
    hreachable loadScattered (.new scattered _ _ _) 3 l failure hload
  obtain ⟨limit, l', hend⟩ := hends _ isIn_of_isReadable_scattered _ _ _
  refine ⟨l, _, _, limit, hload, hidle, hcontexts, hz, hdefinitions "z" _ hz, hy,
    hexternals "y" _ hy, fun more => ?_⟩
  exact Option.isSome_iff_exists.mpr ⟨_, hend more⟩

end Loader

end LayeredConfig
