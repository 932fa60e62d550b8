import LayeredConfig.Proofs.LoadTurns

/-! # Files that nothing can be applied from

    A file that no format reads, or whose document is no object, changes no setting and
    includes nothing. While it waits, or when it has been processed, it can only keep
    itself from being queued again. So a load is the same with such files and without
    them: between the turns of all other files it takes turns that change nothing but what
    is known of the unusable ones.

    Two loads are compared by what is left of them without the unusable files and the
    notices (`erased`). A turn of an unusable file leaves that as it is; a turn of another
    file makes the same of what is the same.

    **Main result.** `load_without_unusable`.
-/

namespace LayeredConfig

/-! ## Sessions that differ in their queues -/

/-- A step for which nothing of the queue matters but the file in hand. -/
def Step.SeesFileInHand : Step → Prop
  | .include _ base => ∀ q r : FileQueue, q.current = r.current → base q = base r
  | _ => True

namespace Source

theorem Conf.seesFileInHand_stepOf (o : Options) (queued : Bool)
    (a : LayeredConfig.Conf.Assignment) : (Conf.stepOf o queued a).SeesFileInHand := by
  unfold Conf.stepOf
  split
  · intro q r hcurrent
    dsimp only
    rw [hcurrent]
  · split <;> trivial

/-- Nothing of the queue matters for the steps of a source but the file in hand. -/
theorem seesFileInHand_steps (source : Source) (queued : Bool) :
    ∀ step ∈ source.steps queued, step.SeesFileInHand := by
  intro step hstep
  cases stepCase_of_mem hstep with
  | assignment content o ha => exact Conf.seesFileInHand_stepOf o queued _
  | target codec content o target => exact fun q r _ => rfl
  | _ => trivial

end Source

namespace Session

/-- Two sessions with the same settings and the same file in hand. -/
structure Alike (s t : Session) : Prop where
  store : s.store = t.store
  tracker : s.tracker = t.tracker
  queues : ∃ q r, s.queue = some q ∧ t.queue = some r ∧ q.current = r.current

section alike

variable {files : Snapshot} {s t : Session} (h : s.Alike t)
include h

/-- From sessions that are alike a step includes the same. -/
theorem Alike.target?_eq {step : Step} (hstep : step.SeesFileInHand) :
    step.target? s = step.target? t := by
  obtain ⟨q, r, hq, hr, hcurrent⟩ := h.queues
  cases step with
  | «include» target base =>
    unfold Step.target?
    rw [hq, hr, h.store]
    dsimp only [Option.bind_some]
    rw [hstep q r hcurrent]
  | _ => rfl

/-- **Step.** Sessions that are alike stay so. -/
theorem Alike.run (step : Step) : (step.run files s).Alike (step.run files t) := by
  obtain ⟨q, r, hq, hr, hcurrent⟩ := h.queues
  obtain ⟨q', hq', hcurrentQ⟩ := step.current_run files hq
  obtain ⟨r', hr', hcurrentR⟩ := step.current_run files hr
  have hqueues : ∃ q r, (step.run files s).queue = some q ∧ (step.run files t).queue = some r ∧
      q.current = r.current := ⟨q', r', hq', hr', by rw [hcurrentQ, hcurrentR, hcurrent]⟩
  have hstore := h.store
  have htracker := h.tracker
  cases step with
  | enter context => exact ⟨hstore, congrArg (Tracker.push · context) htracker, hqueues⟩
  | leave => exact ⟨hstore, congrArg Tracker.leave htracker, hqueues⟩
  | assign overwrite key f =>
    refine ⟨?_, ?_, hqueues⟩ <;>
    · unfold Step.run Session.defineUnless
      dsimp only
      rw [hstore]
      split <;> simp [Session.define, hstore, htracker]
  | append key f =>
    refine ⟨?_, ?_, hqueues⟩ <;> simp [Step.run, Session.define, hstore, htracker]
  | put key v => exact ⟨congrArg (Store.set · key v) hstore, htracker, hqueues⟩
  | «include» target base =>
    -- What is included goes to the queue, and nowhere else.
    refine ⟨?_, ?_, hqueues⟩ <;>
    · unfold Step.run
      dsimp only
      rw [hq, hr]
      simp [hstore, htracker]
  | note n => exact ⟨hstore, htracker, hqueues⟩

variable (files) in
/-- **Run.** Steps keep sessions alike, and include the same. -/
theorem Alike.runAll {steps : List Step} (hsteps : ∀ step ∈ steps, step.SeesFileInHand) :
    (s.runAll files steps).Alike (t.runAll files steps) ∧
      s.targets files steps = t.targets files steps := by
  induction steps generalizing s t with
  | nil => exact ⟨h, rfl⟩
  | cons step rest ih =>
    obtain ⟨hstep, hrest⟩ := List.forall_mem_cons.mp hsteps
    obtain ⟨halike, htargets⟩ := ih (h.run step) hrest
    exact ⟨halike, by rw [targets_cons, targets_cons, h.target?_eq hstep, htargets]⟩

end alike

end Session

/-! ## Queues without some files -/

namespace FileQueue

/-- The queue without the files of a set. -/
def without (bad : Path → Bool) (q : FileQueue) : FileQueue :=
  { q with
    queued := q.queued.filter fun p => !bad p
    processed := q.processed.filter fun p => !bad p
    skipped := q.skipped.filter fun p => !bad p }

/-- Putting a file down that is in the set leaves no trace outside of it. -/
theorem without_putDown_of_bad {bad : Path → Bool} {p : Path} (hp : bad p = true)
    (q : FileQueue) (previous : Option Path) :
    (q.putDown previous p).without bad = { q.without bad with current := previous } := by
  simp [without, putDown, hp]

theorem without_passOver_of_bad {bad : Path → Bool} {q : FileQueue} {p : Path}
    {rest : List Path} (hqueued : q.queued = p :: rest) (hp : bad p = true) :
    (q.passOver p rest).without bad = q.without bad := by
  simp [without, passOver, hqueued, hp]

theorem without_passOver_of_good {bad : Path → Bool} {p : Path} (hp : bad p = false)
    (q : FileQueue) (rest : List Path) :
    (q.passOver p rest).without bad =
      (q.without bad).passOver p (rest.filter fun p => !bad p) := by
  simp [without, passOver, hp]

section there

variable {files : Snapshot} {bad : Path → Bool}
  (hthere : ∀ p, bad p = true → files.isReadable p = true)
include hthere

/-- Queueing files of a set that can be read is nothing to the others. -/
theorem without_classify (q : FileQueue) (p : Path) :
    (q.classify files p).without bad =
      if bad p then q.without bad else (q.without bad).classify files p := by
  unfold classify
  cases hp : bad p with
  | true => simp [hthere p hp, without, hp]
  | false =>
    rw [if_neg Bool.false_ne_true]
    unfold without
    dsimp only
    split
    · simp [hp]
    · split <;> rfl

theorem without_addListed (q : FileQueue) (ps : List Path) :
    (q.addListed files ps).without bad =
      (q.without bad).addListed files (ps.filter fun p => !bad p) := by
  unfold addListed
  induction ps generalizing q with
  | nil => rfl
  | cons p rest ih =>
    rw [List.foldl_cons, ih, without_classify hthere]
    cases hp : bad p with
    | true => simp [hp]
    | false => simp [hp]

end there

section sets

variable {files : Snapshot} {bad : Path → Bool} (hsame : ∀ p q, p.same q = true → bad p = bad q)
include hsame

/-- A path that is not in the set is among others as it is among those that are not. -/
theorem isIn_filter {p : Path} (hp : bad p = false) (ps : List Path) :
    p.isIn (ps.filter fun q => !bad q) = p.isIn ps := by
  rw [Bool.eq_iff_iff, Path.isIn_iff, Path.isIn_iff]
  constructor
  · intro hexists
    obtain ⟨q, hq, hpq⟩ := hexists
    exact ⟨q, (List.mem_filter.mp hq).1, hpq⟩
  · intro hexists
    obtain ⟨q, hq, hpq⟩ := hexists
    have hqGood : bad q = false := hsame p q hpq ▸ hp
    exact ⟨q, List.mem_filter.mpr ⟨hq, by simp [hqGood]⟩, hpq⟩

/-- Without the set the other paths are known as they are with it. -/
theorem knows_without {p : Path} (hp : bad p = false) (q : FileQueue) :
    (q.without bad).knows p = q.knows p := by
  unfold knows without
  dsimp only
  rw [isIn_filter hsame hp, isIn_filter hsame hp]

variable (hthere : ∀ p, bad p = true → files.isReadable p = true)
include hthere

/-- **Including files** of a set that can be read is nothing to the others. -/
theorem without_addIncluded (q : FileQueue) (p : Path) :
    (q.addIncluded files p).without bad =
      if bad p then q.without bad else (q.without bad).addIncluded files p := by
  have hclassify := without_classify hthere q p
  unfold addIncluded
  cases hp : bad p with
  | true =>
    -- It is queued, or else it was known before.
    rw [hp] at hclassify
    split
    · rfl
    · exact hclassify
  | false =>
    rw [hp] at hclassify
    rw [if_neg Bool.false_ne_true, knows_without hsame hp]
    split
    · rfl
    · exact hclassify

theorem without_foldl_addIncluded (q : FileQueue) (targets : List Path) :
    (targets.foldl (addIncluded files) q).without bad =
      (targets.filter fun p => !bad p).foldl (addIncluded files) (q.without bad) := by
  induction targets generalizing q with
  | nil => rfl
  | cons p rest ih =>
    rw [List.foldl_cons, ih, without_addIncluded hsame hthere]
    cases hp : bad p with
    | true => simp [hp]
    | false => simp [hp]

/-- What a file outside of the set does to the queue, it does without the set. -/
theorem without_carryOut {p : Path} (hp : bad p = false) (q : FileQueue)
    (rest targets : List Path) :
    (q.carryOut files p rest targets).without bad =
      (q.without bad).carryOut files p (rest.filter fun p => !bad p)
        (targets.filter fun p => !bad p) := by
  have hincluded := without_foldl_addIncluded hsame hthere (q.takeUp p rest) targets
  unfold carryOut
  change _ = FileQueue.putDown (List.foldl _ ((q.takeUp p rest).without bad) _) q.current p
  rw [← hincluded]
  simp [without, putDown, hp]

end sets

end FileQueue

/-! ## Unusable files -/

namespace Loader

/-- A file that nothing can be applied from: no format reads it, or it is a document that
    cannot be decoded to an object. -/
def Unusable (files : Snapshot) (p : Path) : Prop :=
  ∃ bytes, files.read? p = some bytes ∧
    match Format.ofName? (formatNameOf p) with
    | none => True
    | some .json => ∀ fields, Codec.json.decode (Text.decodeLossy bytes) ≠ .ok (.object fields)
    | some .yaml => ∀ fields, Codec.yaml.decode (Text.decodeLossy bytes) ≠ .ok (.object fields)
    | some _ => False

theorem isReadable_of_unusable {files : Snapshot} {p : Path} (h : Unusable files p) :
    files.isReadable p = true := by
  obtain ⟨bytes, hread, _⟩ := h
  exact Snapshot.isReadable_of_some hread

/-- A document that cannot be decoded to an object has no root. -/
theorem root_of_not_object {codec : Codec} {content : List Char}
    (h : ∀ fields, codec.decode content ≠ .ok (.object fields)) :
    ∃ failure, Source.Document.root codec content = .error failure := by
  unfold Source.Document.root
  cases hdecode : codec.decode content with
  | error failure => exact ⟨failure, rfl⟩
  | ok v =>
    cases v with
    | object fields => exact absurd hdecode (h fields)
    | _ => exact ⟨_, rfl⟩

/-- The steps of an unusable file that has a format give notice, and do nothing else. -/
theorem fileSteps_of_unusable {files : Snapshot} {l : Loader} {p : Path} {format : Format}
    {bytes : List UInt8} (h : Unusable files p) (hread : files.read? p = some bytes)
    (hformat : Format.ofName? (formatNameOf p) = some format) :
    ∃ notice, l.fileSteps p format bytes = [.note notice] := by
  obtain ⟨bytes', hread', h⟩ := h
  obtain rfl := Option.some.inj (hread.symm.trans hread')
  rw [hformat] at h
  cases format with
  | json =>
    obtain ⟨failure, hroot⟩ := root_of_not_object h
    refine ⟨.nothingApplied ((l.optionsFor p).contextName Codec.json.name) failure, ?_⟩
    show Source.Document.steps _ _ _ _ = _
    unfold Source.Document.steps
    rw [hroot]
  | yaml =>
    obtain ⟨failure, hroot⟩ := root_of_not_object h
    refine ⟨.nothingApplied ((l.optionsFor p).contextName Codec.yaml.name) failure, ?_⟩
    show Source.Document.steps _ _ _ _ = _
    unfold Source.Document.steps
    rw [hroot]
  | conf => exact h.elim
  | plain => exact h.elim

/-- Whether a file is unusable does not depend on how its path is written. -/
theorem unusable_of_same {files : Snapshot} (hfiles : files.Consistent) {p q : Path}
    (hsame : p.same q = true) (h : Unusable files q) : Unusable files p := by
  have hname : formatNameOf p = formatNameOf q := by
    unfold formatNameOf Path.extension? Path.fileName?
    rw [(Path.same_iff p q).mp hsame]
  unfold Unusable at h ⊢
  rwa [hname, hfiles p q hsame]

/-! ## Turns -/

/-- What is left of a load without the files of a set, and without its notices. -/
def erased (bad : Path → Bool) (l : Loader) : Loader :=
  { l with files := l.files.without bad, notices := [] }

theorem erased_eq_iff {bad : Path → Bool} {l l' : Loader} :
    l.erased bad = l'.erased bad ↔
      l.store = l'.store ∧ l.tracker = l'.tracker ∧ l.options = l'.options ∧
        l.files.without bad = l'.files.without bad := by
  simp only [erased, Loader.mk.injEq, and_true]
  tauto

section turns

variable {files : Snapshot} {bad : Path → Bool} {l l' next next' : Loader} {p : Path}
  {rest rest' : List Path}

/-- **Turn of an unusable file.** It changes nothing but what is known of the file. -/
theorem Turn.erased_of_unusable (hturn : Turn files l next) (hqueued : l.files.queued = p :: rest)
    (hp : bad p = true) (hunusable : Unusable files p) : next.erased bad = l.erased bad := by
  cases hturn with
  | passOver r more notices hr hunread =>
    obtain ⟨rfl, rfl⟩ := List.cons.inj (hqueued.symm.trans hr)
    unfold erased
    dsimp only
    rw [FileQueue.without_passOver_of_bad hqueued hp]
  | apply r more format bytes given notices hr hread hformat =>
    obtain ⟨rfl, rfl⟩ := List.cons.inj (hqueued.symm.trans hr)
    obtain ⟨notice, hsteps⟩ := fileSteps_of_unusable (l := l) hunusable hread hformat
    -- The file is taken up and put down, and nothing else happens.
    have hfiles : (l.files.carryOut files p rest []).without bad = l.files.without bad := by
      unfold FileQueue.carryOut
      rw [List.foldl_nil, FileQueue.without_putDown_of_bad hp]
      simp [FileQueue.without, FileQueue.takeUp, hqueued, hp]
    unfold erased afterFile
    rw [hsteps]
    dsimp only [Session.runAll_cons, Session.runAll_nil]
    change Loader.mk (FileQueue.without bad (l.files.carryOut files p rest [])) _ _ _ _ = _
    rw [hfiles]
    rfl

/-- **Turn of another file.** What it makes of loads that are the same apart from the set is
    the same apart from the set. -/
theorem Turn.erased_congr (hsame : ∀ p q, p.same q = true → bad p = bad q)
    (hthere : ∀ p, bad p = true → files.isReadable p = true) (hturn : Turn files l next)
    (hturn' : Turn files l' next') (hqueued : l.files.queued = p :: rest)
    (hqueued' : l'.files.queued = p :: rest') (hp : bad p = false)
    (h : l.erased bad = l'.erased bad) : next.erased bad = next'.erased bad := by
  obtain ⟨hstore, htracker, hoptions, hfiles⟩ := erased_eq_iff.mp h
  have hrest : (rest.filter fun p => !bad p) = rest'.filter fun p => !bad p := by
    have hwaiting : (l.files.without bad).queued = (l'.files.without bad).queued :=
      congrArg FileQueue.queued hfiles
    simpa [FileQueue.without, hqueued, hqueued', hp] using hwaiting
  cases hturn with
  | passOver r more notices hr hunread =>
    obtain ⟨rfl, rfl⟩ := List.cons.inj (hqueued.symm.trans hr)
    cases hturn' with
    | passOver r' more' notices' hr' hunread' =>
      obtain ⟨rfl, rfl⟩ := List.cons.inj (hqueued'.symm.trans hr')
      unfold erased
      dsimp only
      rw [FileQueue.without_passOver_of_good hp, FileQueue.without_passOver_of_good hp, hfiles,
        hrest, hstore, htracker, hoptions]
    | apply r' more' format bytes given notices' hr' hread hformat =>
      obtain ⟨rfl, rfl⟩ := List.cons.inj (hqueued'.symm.trans hr')
      simp [Snapshot.isReadable_of_some hread, hasFormat_of_some hformat] at hunread
  | apply r more format bytes given notices hr hread hformat =>
    obtain ⟨rfl, rfl⟩ := List.cons.inj (hqueued.symm.trans hr)
    cases hturn' with
    | passOver r' more' notices' hr' hunread' =>
      obtain ⟨rfl, rfl⟩ := List.cons.inj (hqueued'.symm.trans hr')
      simp [Snapshot.isReadable_of_some hread, hasFormat_of_some hformat] at hunread'
    | apply r' more' format' bytes' given' notices' hr' hread' hformat' =>
      obtain ⟨rfl, rfl⟩ := List.cons.inj (hqueued'.symm.trans hr')
      obtain rfl := Option.some.inj (hread.symm.trans hread')
      obtain rfl := Option.some.inj (hformat.symm.trans hformat')
      -- The two sessions differ in nothing but the other files of the queue.
      have hsteps : l.fileSteps p format bytes = l'.fileSteps p format bytes := by
        unfold fileSteps optionsFor
        rw [hoptions]
      have halike : (l.takenSession p rest given).Alike (l'.takenSession p rest' given') :=
        ⟨hstore, htracker, _, _, rfl, rfl, rfl⟩
      obtain ⟨hend, htargets⟩ := halike.runAll files
        (Source.seesFileInHand_steps
          (Source.ofFormat format (Text.decodeLossy bytes) (l.optionsFor p)) true)
      change (Session.runAll files _ (l.fileSteps p format bytes)).Alike
        (Session.runAll files _ (l.fileSteps p format bytes)) at hend
      change Session.targets files _ (l.fileSteps p format bytes) =
        Session.targets files _ (l.fileSteps p format bytes) at htargets
      unfold erased afterFile
      dsimp only
      rw [← hsteps, hend.store, hend.tracker, htargets, hoptions,
        FileQueue.without_carryOut hsame hthere hp, FileQueue.without_carryOut hsame hthere hp,
        hfiles, hrest]

end turns

/-! ## Loads -/

section loads

variable {files : Snapshot} {bad : Path → Bool} {l l' r r' : Loader}
  {failure failure' : Option Failure}

/-- A load first takes the unusable files that wait at the front. What is left of it without
    them stays as it is. -/
theorem exists_usable_first (hbad : ∀ p, bad p = true → Unusable files p) {limit : Nat}
    (hload : l.loadWithin? files limit = some (r, failure)) :
    ∃ (limit₁ : Nat) (l₁ : Loader), limit₁ ≤ limit ∧ l₁.erased bad = l.erased bad ∧
      l₁.loadWithin? files limit₁ = some (r, failure) ∧
      ∀ p rest, l₁.files.queued = p :: rest → bad p = false := by
  induction limit generalizing l with
  | zero =>
    refine ⟨0, l, Nat.le_refl _, rfl, hload, ?_⟩
    intro p rest hqueued
    rw [loadWithin?_zero files hqueued] at hload
    exact nomatch hload
  | succ limit ih =>
    by_cases hfirst : ∀ p rest, l.files.queued = p :: rest → bad p = false
    · exact ⟨limit + 1, l, Nat.le_refl _, rfl, hload, hfirst⟩
    · simp only [not_forall, Bool.not_eq_false] at hfirst
      obtain ⟨p, rest, hqueued, hp⟩ := hfirst
      have hturn := Turn.of_queued files hqueued
      rw [loadWithin?_succ files hqueued] at hload
      obtain ⟨limit₁, l₁, hle, herased, hload₁, hfirst₁⟩ := ih hload
      exact ⟨limit₁, l₁, Nat.le_succ_of_le hle,
        herased.trans (hturn.erased_of_unusable hqueued hp (hbad p hp)), hload₁, hfirst₁⟩

/-- **Run.** Loads that are the same apart from unusable files end the same apart from
    them. -/
theorem erased_of_loads (hsame : ∀ p q, p.same q = true → bad p = bad q)
    (hbad : ∀ p, bad p = true → Unusable files p) {limit limit' : Nat}
    (h : l.erased bad = l'.erased bad)
    (hload : l.loadWithin? files limit = some (r, failure))
    (hload' : l'.loadWithin? files limit' = some (r', failure')) :
    r.erased bad = r'.erased bad ∧ failure = none ∧ failure' = none := by
  have hthere : ∀ p, bad p = true → files.isReadable p = true :=
    fun p hp => isReadable_of_unusable (hbad p hp)
  induction limit using Nat.strongRecOn generalizing l l' limit' with
  | ind limit ih =>
    obtain ⟨limit₁, l₁, hle, herased, hload₁, hfirst⟩ := exists_usable_first hbad hload
    obtain ⟨limit₁', l₁', _, herased', hload₁', hfirst'⟩ := exists_usable_first hbad hload'
    have h₁ : l₁.erased bad = l₁'.erased bad := herased.trans (h.trans herased'.symm)
    have hwaiting : (l₁.files.queued.filter fun p => !bad p) =
        l₁'.files.queued.filter fun p => !bad p :=
      congrArg (fun m : Loader => m.files.queued) h₁
    -- What waits first is usable in both, so it is the same file, or nothing waits in either.
    cases hqueued : l₁.files.queued with
    | nil =>
      cases hqueued' : l₁'.files.queued with
      | nil =>
        rw [loadWithin?_done files hqueued] at hload₁
        rw [loadWithin?_done files hqueued'] at hload₁'
        obtain ⟨rfl, rfl⟩ := Prod.mk.inj (Option.some.inj hload₁)
        obtain ⟨rfl, rfl⟩ := Prod.mk.inj (Option.some.inj hload₁')
        exact ⟨h₁, rfl, rfl⟩
      | cons p' rest' =>
        rw [hqueued, hqueued'] at hwaiting
        simp [hfirst' p' rest' hqueued'] at hwaiting
    | cons p rest =>
      cases hqueued' : l₁'.files.queued with
      | nil =>
        rw [hqueued, hqueued'] at hwaiting
        simp [hfirst p rest hqueued] at hwaiting
      | cons p' rest' =>
        have hp := hfirst p rest hqueued
        have hp' := hfirst' p' rest' hqueued'
        rw [hqueued, hqueued'] at hwaiting
        simp only [List.filter_cons, hp, hp', Bool.not_false, if_true, List.cons.injEq] at hwaiting
        obtain ⟨rfl, _⟩ := hwaiting
        have hturn := Turn.of_queued files hqueued
        have hturn' := Turn.of_queued files hqueued'
        cases limit₁ with
        | zero =>
          rw [loadWithin?_zero files hqueued] at hload₁
          exact nomatch hload₁
        | succ k =>
          cases limit₁' with
          | zero =>
            rw [loadWithin?_zero files hqueued'] at hload₁'
            exact nomatch hload₁'
          | succ k' =>
            rw [loadWithin?_succ files hqueued] at hload₁
            rw [loadWithin?_succ files hqueued'] at hload₁'
            exact ih k (by omega) (hturn.erased_congr hsame hthere hturn' hqueued hqueued' hp h₁)
              hload₁ hload₁'

end loads

/-- Listing files of a set that can be read is nothing to the others. -/
theorem erased_new {files : Snapshot} {bad : Path → Bool}
    (hthere : ∀ p, bad p = true → files.isReadable p = true) (listed : List Path) (store : Store)
    (options : Options) :
    (Loader.new files listed store options).erased bad =
      (Loader.new files (listed.filter fun p => !bad p) store options).erased bad := by
  rw [erased_eq_iff]
  refine ⟨rfl, rfl, rfl, ?_⟩
  unfold Loader.new
  dsimp only
  rw [FileQueue.without_addListed hthere, FileQueue.without_addListed hthere, List.filter_filter]
  simp only [Bool.and_self]

/-- **Unusable files do not matter.** Take a set of files that nothing can be applied from,
    given by their paths, however these are written. Where a load of listed files ends, and
    so does one of those listed files that are not in the set, they end with the same
    settings and the same record, and with the same processed files apart from the set, also
    where other files include files of the set. -/
theorem load_without_unusable (files : Snapshot) (bad : Path → Bool)
    (hsame : ∀ p q, p.same q = true → bad p = bad q)
    (hbad : ∀ p, bad p = true → Unusable files p) (listed : List Path) (store : Store)
    (options : Options) (limit limit' : Nat) (l l' : Loader) (failure failure' : Option Failure)
    (hload : (Loader.new files listed store options).loadWithin? files limit = some (l, failure))
    (hload' : (Loader.new files (listed.filter fun p => !bad p) store options).loadWithin? files
      limit' = some (l', failure')) :
    failure = none ∧ failure' = none ∧
      l.store = l'.store ∧
      l.tracker.definitions = l'.tracker.definitions ∧
      l.tracker.externals = l'.tracker.externals ∧
      (l.files.processed.filter fun p => !bad p) = (l'.files.processed.filter fun p => !bad p) ∧
      l.files.missing = l'.files.missing := by
  have hbegin := erased_new (fun p hp => isReadable_of_unusable (hbad p hp)) listed store options
  obtain ⟨hend, hfailure, hfailure'⟩ := erased_of_loads hsame hbad hbegin hload hload'
  obtain ⟨hstore, htracker, _, hfiles⟩ := erased_eq_iff.mp hend
  have hprocessed : (l.files.without bad).processed = (l'.files.without bad).processed :=
    congrArg FileQueue.processed hfiles
  have hmissing : (l.files.without bad).missing = (l'.files.without bad).missing :=
    congrArg FileQueue.missing hfiles
  exact ⟨hfailure, hfailure', hstore, congrArg Tracker.definitions htracker,
    congrArg Tracker.externals htracker, hprocessed, hmissing⟩

/-- A file that includes a broken document and notes that nothing reads. -/
def litter : Snapshot :=
  .ofContents fun p =>
    if p.components = [.root, .name "a.conf".toList] then
      some ("x=$y\ninclude=/broken.json\ninclude=/notes.txt".toList.map fun c =>
        UInt8.ofNat c.toNat)
    else if p.components = [.root, .name "broken.json".toList] then
      some ("[1".toList.map fun c => UInt8.ofNat c.toNat)
    else if p.components = [.root, .name "notes.txt".toList] then some []
    else none

theorem consistent_litter : litter.Consistent := by
  intro p q hsame
  unfold litter
  rw [Snapshot.read?_ofContents, Snapshot.read?_ofContents, (Path.same_iff p q).mp hsame]

/-- The files of the litter that nothing can be applied from. -/
def isLitter (p : Path) : Bool := p.isIn [⟨"/broken.json".toList⟩, ⟨"/notes.txt".toList⟩]

theorem unusable_of_isLitter (p : Path) (h : isLitter p = true) : Unusable litter p := by
  obtain ⟨q, hq, hsame⟩ := (Path.isIn_iff p _).mp h
  apply unusable_of_same consistent_litter hsame
  simp only [List.mem_cons, List.not_mem_nil, or_false] at hq
  rcases hq with rfl | rfl
  · have hformat : Format.ofName? (formatNameOf ⟨"/broken.json".toList⟩) = some .json := by
      decide +kernel
    have hdecode : Codec.json.decode (Text.decodeLossy ("[1".toList.map fun c =>
        UInt8.ofNat c.toNat)) = .error (.malformed "json") := by decide +kernel
    refine ⟨"[1".toList.map fun c => UInt8.ofNat c.toNat, by decide +kernel, ?_⟩
    rw [hformat]
    dsimp only
    rw [hdecode]
    exact nofun
  · have hformat : Format.ofName? (formatNameOf ⟨"/notes.txt".toList⟩) = none := by
      decide +kernel
    refine ⟨[], by decide +kernel, ?_⟩
    rw [hformat]
    trivial

theorem isLitter_congr (p q : Path) (h : p.same q = true) : isLitter p = isLitter q :=
  Path.isIn_congr h _

/-- A broken document is listed first, or only included by a file that comes after it. -/
theorem load_without_unusable_litter :
    ∃ l l' failure failure',
      (Loader.new litter [⟨"/broken.json".toList⟩, ⟨"/a.conf".toList⟩] (.nested [] .standard)
        .standard).loadWithin? litter 3 = some (l, failure) ∧
      (Loader.new litter [⟨"/a.conf".toList⟩] (.nested [] .standard) .standard).loadWithin? litter
        3 = some (l', failure') ∧
      l.store = l'.store ∧ l.tracker.externals = l'.tracker.externals ∧
      (l.files.processed.filter fun p => !isLitter p) =
        l'.files.processed.filter fun p => !isLitter p := by
  obtain ⟨⟨l, failure⟩, hload⟩ := Option.isSome_iff_exists.mp
    (show ((Loader.new litter [⟨"/broken.json".toList⟩, ⟨"/a.conf".toList⟩] (.nested [] .standard)
      .standard).loadWithin? litter 3).isSome = true by decide +kernel)
  obtain ⟨⟨l', failure'⟩, hload'⟩ := Option.isSome_iff_exists.mp
    (show ((Loader.new litter [⟨"/a.conf".toList⟩] (.nested [] .standard)
      .standard).loadWithin? litter 3).isSome = true by decide +kernel)
  have hlisted : ([⟨"/broken.json".toList⟩, ⟨"/a.conf".toList⟩] : List Path).filter
      (fun p => !isLitter p) = [⟨"/a.conf".toList⟩] := by decide +kernel
  obtain ⟨_, _, hstore, _, hexternals, hprocessed, _⟩ := load_without_unusable litter isLitter
    isLitter_congr unusable_of_isLitter _ _ _ 3 3 l l' failure failure' hload (hlisted ▸ hload')
  exact ⟨l, l', failure, failure', hload, hload', hstore, hexternals, hprocessed⟩

end Loader

end LayeredConfig
