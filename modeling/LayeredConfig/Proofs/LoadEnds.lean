import LayeredConfig.Proofs.LoadOrder
import Mathlib.Data.List.Count

/-! # Loads come to an end

    A load adds to the queue that it empties, and a file that nothing reads is queued again
    whenever it is included again. But only files with a format include anything, and such
    a file is included only as long as it is neither waiting nor in hand nor processed. So
    the turns of files with a format are paid from a budget: the files with a format that
    wait, and those among the readable ones that are not known yet. A turn of a file with a
    format costs one of them; what it includes only moves files from the second part to the
    first. A turn of a file without a format leaves the budget as it is and makes the queue
    shorter.

    **Main result.** `load_ends`: where finitely many paths are readable, every load ends, and
    there are no more processed files than readable listed files and readable paths.
-/

namespace LayeredConfig

namespace FileQueue

/-! ## The budget -/

/-- How many of the given paths have a format and are not known yet. -/
def unknown (paths : List Path) (q : FileQueue) : Nat :=
  paths.countP fun r => Loader.hasFormat r && !q.knows r

/-- The files with a format that wait, and those that can still be included. -/
def budget (paths : List Path) (q : FileQueue) : Nat :=
  q.queued.countP Loader.hasFormat + q.unknown paths

/-- Of two queues the one that knows more leaves fewer unknown. -/
theorem unknown_le {paths : List Path} {q q' : FileQueue}
    (h : ∀ r, Loader.hasFormat r = true → q.knows r = true → q'.knows r = true) :
    q'.unknown paths ≤ q.unknown paths := by
  apply List.countP_mono_left
  intro r _ hr
  simp only [Bool.and_eq_true, Bool.not_eq_true'] at hr ⊢
  refine ⟨hr.1, ?_⟩
  rw [← Bool.not_eq_true] at hr ⊢
  exact fun hknows => hr.2 (h r hr.1 hknows)

/-- A path that becomes known leaves fewer unknown, if it had a format and was one of them. -/
theorem unknown_lt {paths : List Path} {q q' : FileQueue} {r : Path} (hr : r ∈ paths)
    (hformat : Loader.hasFormat r = true) (hold : q.knows r = false) (hnew : q'.knows r = true)
    (h : ∀ r, q.knows r = true → q'.knows r = true) :
    q'.unknown paths < q.unknown paths := by
  -- Among the paths that were unknown, not all still are.
  have hsome : (paths.filter fun r => Loader.hasFormat r && !q.knows r).countP
      (fun r => !q'.knows r) < (paths.filter fun r => Loader.hasFormat r && !q.knows r).length := by
    rw [List.countP_lt_length_iff]
    exact ⟨r, List.mem_filter.mpr ⟨hr, by simp [hformat, hold]⟩, by simp [hnew]⟩
  rw [List.countP_filter, ← List.countP_eq_length_filter] at hsome
  refine Nat.lt_of_le_of_lt (List.countP_mono_left ?_) hsome
  intro s _ hs
  simp only [Bool.and_eq_true, Bool.not_eq_true'] at hs ⊢
  refine ⟨hs.2, hs.1, ?_⟩
  cases hknows : q.knows s with
  | false => rfl
  | true => exact absurd (h s hknows) (by simp [hs.2])

/-! ## Queueing -/

/-- A path is known as soon as one that is the same is. -/
theorem knows_congr (q : FileQueue) {p r : Path} (h : p.same r = true) :
    q.knows p = q.knows r := by
  unfold knows
  rw [Path.isIn_congr h, Path.isIn_congr h, funext (Path.same_congr h)]

/-- A file that can be read is known once it has been queued; nothing else becomes known. -/
theorem knows_classify (files : Snapshot) (q : FileQueue) (p r : Path) :
    (q.classify files p).knows r = (q.knows r || (files.isReadable p && r.same p)) := by
  unfold classify knows
  split
  · next hfile =>
    rw [Path.isIn_append]
    simp only [hfile, Path.isIn, List.any_cons, List.any_nil, Bool.or_false, Bool.true_and]
    ac_rfl
  · next hfile =>
    have hgone : files.isReadable p = false := by simpa using hfile
    split <;> simp [hgone]

/-- **Including a file** is paid from the budget, where the readable paths are given. -/
theorem budget_addIncluded_le {files : Snapshot} {paths : List Path}
    (hpaths : ∀ p, files.isReadable p = true → p.isIn paths = true) (q : FileQueue) (p : Path) :
    (q.addIncluded files p).budget paths ≤ q.budget paths := by
  have hgrows : ∀ r, q.knows r = true → (q.classify files p).knows r = true := by
    intro r hr
    rw [knows_classify, hr, Bool.true_or]
  unfold addIncluded
  cases hknown : q.knows p with
  | true => exact Nat.le_refl _
  | false =>
    rw [if_neg Bool.false_ne_true]
    unfold budget
    have hunknown : (q.classify files p).unknown paths ≤ q.unknown paths :=
      unknown_le fun r _ hr => hgrows r hr
    cases hfile : files.isReadable p with
    | false =>
      have hqueued : (q.classify files p).queued = q.queued := by
        unfold classify
        rw [hfile, if_neg Bool.false_ne_true]
        split <;> rfl
      rw [hqueued]
      omega
    | true =>
      have hqueued : (q.classify files p).queued = q.queued ++ [p] := by
        unfold classify
        rw [hfile, if_pos rfl]
      rw [hqueued, List.countP_append]
      cases hformat : Loader.hasFormat p with
      | false =>
        rw [List.countP_singleton, hformat, if_neg Bool.false_ne_true]
        omega
      | true =>
        -- One of the readable paths is the same, and it was not known before.
        obtain ⟨r, hr, hsame⟩ := (p.isIn_iff paths).mp (hpaths p hfile)
        have hformatR : Loader.hasFormat r = true := Loader.hasFormat_eq hsame ▸ hformat
        have hold : q.knows r = false := q.knows_congr hsame ▸ hknown
        have hnew : (q.classify files p).knows r = true := by
          rw [knows_classify, hfile, Path.same_symm hsame, Bool.and_self, Bool.or_true]
        have hless := unknown_lt hr hformatR hold hnew hgrows
        rw [List.countP_singleton, hformat, if_pos rfl]
        omega

theorem budget_foldl_addIncluded_le {files : Snapshot} {paths : List Path}
    (hpaths : ∀ p, files.isReadable p = true → p.isIn paths = true) (q : FileQueue)
    (targets : List Path) :
    (targets.foldl (addIncluded files) q).budget paths ≤ q.budget paths := by
  induction targets generalizing q with
  | nil => exact Nat.le_refl _
  | cons p rest ih =>
    exact Nat.le_trans (ih (q.addIncluded files p)) (budget_addIncluded_le hpaths q p)

/-- Including files neither processes nor skips any. -/
theorem processed_foldl_addIncluded (files : Snapshot) (q : FileQueue) (targets : List Path) :
    (targets.foldl (addIncluded files) q).processed = q.processed := by
  induction targets generalizing q with
  | nil => rfl
  | cons p rest ih =>
    rw [List.foldl_cons, ih]
    unfold addIncluded classify
    split
    · rfl
    · split
      · rfl
      · split <;> rfl

/-! ## Turns -/

/-- No file is in hand, and the files that wait can be read. -/
structure Ready (files : Snapshot) (q : FileQueue) : Prop where
  idle : q.current = none
  readable : ∀ p ∈ q.queued, files.isReadable p = true

theorem ready_empty (files : Snapshot) : Ready files empty := ⟨rfl, nofun⟩

/-- Files are queued only where they can be read. -/
theorem readable_classify {files : Snapshot} {q : FileQueue}
    (h : ∀ p ∈ q.queued, files.isReadable p = true) (p : Path) :
    ∀ r ∈ (q.classify files p).queued, files.isReadable r = true := by
  intro r hr
  unfold classify at hr
  split at hr
  · next hfile =>
    rcases List.mem_append.mp hr with hold | hnew
    · exact h r hold
    · rw [List.mem_singleton.mp hnew]
      exact hfile
  · split at hr <;> exact h r hr

theorem readable_foldl_addIncluded {files : Snapshot} {q : FileQueue}
    (h : ∀ p ∈ q.queued, files.isReadable p = true) (targets : List Path) :
    ∀ r ∈ (targets.foldl (addIncluded files) q).queued, files.isReadable r = true := by
  induction targets generalizing q with
  | nil => exact h
  | cons p rest ih =>
    apply ih
    unfold addIncluded
    split
    · exact h
    · exact readable_classify h p

theorem Ready.addListed {files : Snapshot} {q : FileQueue} (h : q.Ready files) (ps : List Path) :
    (q.addListed files ps).Ready files := by
  unfold FileQueue.addListed
  induction ps generalizing q with
  | nil => exact h
  | cons p rest ih =>
    exact ih ⟨(current_classify files q p).trans h.idle, readable_classify h.readable p⟩

/-- Processed a file is known as well as it was in hand. -/
theorem knows_putDown {q : FileQueue} {p : Path} (hcurrent : q.current = some p) (r : Path) :
    (q.putDown none p).knows r = q.knows r := by
  unfold knows Path.isIn putDown
  rw [hcurrent, List.any_append]
  simp only [Option.any_some, Option.any_none, List.any_cons, List.any_nil, Bool.or_false,
    Bool.false_or]
  ac_rfl

/-- A file without a format costs nothing. -/
theorem budget_passOver_le (paths : List Path) {q : FileQueue} {p : Path} {rest : List Path}
    (hqueued : q.queued = p :: rest) (hformat : Loader.hasFormat p = false) :
    (q.passOver p rest).budget paths ≤ q.budget paths := by
  have hcount : q.queued.countP Loader.hasFormat = rest.countP Loader.hasFormat := by
    rw [hqueued, List.countP_cons_of_neg (by simp [hformat])]
  -- A path with a format is not the same as this one, so it is known as before.
  have hunknown : (q.passOver p rest).unknown paths ≤ q.unknown paths := by
    apply unknown_le
    intro r hr hknows
    have hother : r.same p = false := by
      rw [← Bool.not_eq_true]
      intro hsame
      rw [Loader.hasFormat_eq hsame, hformat] at hr
      exact nomatch hr
    unfold knows Path.isIn at hknows ⊢
    rw [hqueued, List.any_cons, hother, Bool.false_or] at hknows
    exact hknows
  unfold budget
  rw [hcount]
  exact Nat.add_le_add_left hunknown _

section turns

variable {files : Snapshot} {paths : List Path} {q : FileQueue} {p : Path} {rest : List Path}
  (h : q.Ready files) (hqueued : q.queued = p :: rest)
include h hqueued

theorem Ready.passOver : (q.passOver p rest).Ready files where
  idle := h.idle
  readable r hr := h.readable r (hqueued ▸ List.mem_cons_of_mem p hr)

theorem Ready.carryOut (targets : List Path) : (q.carryOut files p rest targets).Ready files where
  idle := h.idle
  readable := readable_foldl_addIncluded
    (fun r hr => h.readable r (hqueued ▸ List.mem_cons_of_mem p hr)) targets

/-- In hand a file is known as well as it was when it waited. -/
theorem knows_takeUp (r : Path) : (q.takeUp p rest).knows r = q.knows r := by
  unfold knows Path.isIn takeUp
  rw [h.idle, hqueued]
  simp only [Option.any_some, Option.any_none, List.any_cons, Bool.false_or]

/-- **A file with a format costs one**, whatever it includes. -/
theorem budget_carryOut_lt (hpaths : ∀ p, files.isReadable p = true → p.isIn paths = true)
    (hformat : Loader.hasFormat p = true) (targets : List Path) :
    (q.carryOut files p rest targets).budget paths < q.budget paths := by
  have hcount : q.queued.countP Loader.hasFormat = rest.countP Loader.hasFormat + 1 := by
    rw [hqueued, List.countP_cons_of_pos hformat]
  have htaken : (q.takeUp p rest).unknown paths ≤ q.unknown paths :=
    unknown_le fun r _ hknows => (knows_takeUp h hqueued r).trans hknows
  have hincluded := budget_foldl_addIncluded_le hpaths (q.takeUp p rest) targets
  have hcurrent := current_foldl_addIncluded files (q.takeUp p rest) targets
  unfold carryOut
  rw [h.idle]
  generalize targets.foldl (addIncluded files) (q.takeUp p rest) = met at hincluded hcurrent ⊢
  have hput : (met.putDown none p).unknown paths ≤ met.unknown paths :=
    unknown_le fun r _ hknows => (knows_putDown hcurrent r).trans hknows
  have hstart : (q.takeUp p rest).queued = rest := rfl
  have hend : (met.putDown none p).queued = met.queued := rfl
  unfold budget at hincluded ⊢
  rw [hend]
  rw [hstart] at hincluded
  omega

end turns

end FileQueue

/-! ## Loads -/

namespace Loader

variable {files : Snapshot} {paths : List Path}

/-- **Turn.** A turn of a load costs one for the file that it processes; where it processes
    none it makes the queue shorter. -/
theorem Turn.progress {l next : Loader} (hturn : Turn files l next) (h : l.files.Ready files)
    (hpaths : ∀ p, files.isReadable p = true → p.isIn paths = true) :
    next.files.Ready files ∧
      (next.files.budget paths < l.files.budget paths ∧
          next.files.processed.length = l.files.processed.length + 1 ∨
        next.files.budget paths ≤ l.files.budget paths ∧
          next.files.queued.length < l.files.queued.length ∧
          next.files.processed = l.files.processed) := by
  cases hturn with
  | passOver p rest notices hqueued hunread =>
    -- The file can be read, since it waits.
    have hp : files.isReadable p = true := h.readable p (by simp [hqueued])
    have hformat : hasFormat p = false := hunread.resolve_left (by simp [hp])
    refine ⟨h.passOver hqueued, .inr ⟨FileQueue.budget_passOver_le paths hqueued hformat, ?_, rfl⟩⟩
    simp [FileQueue.passOver, hqueued]
  | apply p rest format bytes given notices hqueued hread hformat =>
    have hhas : hasFormat p = true := hasFormat_of_some hformat
    refine ⟨h.carryOut hqueued _, .inl ⟨FileQueue.budget_carryOut_lt h hqueued hpaths hhas _, ?_⟩⟩
    simp [afterFile, FileQueue.carryOut, FileQueue.putDown, FileQueue.takeUp,
      FileQueue.processed_foldl_addIncluded]

/-- **Run.** A load ends, after it has processed no more files than there are in the budget. -/
theorem exists_end (hpaths : ∀ p, files.isReadable p = true → p.isIn paths = true) (l : Loader)
    (h : l.files.Ready files) :
    ∃ limit l', (∀ more, l.loadWithin? files (limit + more) = some (l', none)) ∧
      l'.files.processed.length ≤ l.files.processed.length + l.files.budget paths := by
  cases hqueued : l.files.queued with
  | nil => exact ⟨0, l, fun more => loadWithin?_done files hqueued _, Nat.le_add_right _ _⟩
  | cons p rest =>
    obtain ⟨hready, hprogress⟩ := (Turn.of_queued files hqueued).progress h hpaths
    obtain ⟨limit, l', hend, hbound⟩ := exists_end hpaths (l.turn files) hready
    refine ⟨limit + 1, l', fun more => ?_, ?_⟩
    · rw [Nat.add_right_comm, loadWithin?_succ files hqueued]
      exact hend more
    · rcases hprogress with ⟨hless, hone⟩ | ⟨hle, _, hnone⟩
      · omega
      · rw [hnone] at hbound
        omega
termination_by (l.files.budget paths, l.files.queued.length)
decreasing_by
  rcases hprogress with ⟨hless, _⟩ | ⟨hle, hshorter, _⟩
  · exact Prod.Lex.left _ _ hless
  · rcases Nat.lt_or_eq_of_le hle with hless | heq
    · exact Prod.Lex.left _ _ hless
    · rw [heq]
      exact Prod.Lex.right _ hshorter

/-- **Every load ends.** Where all readable paths are among finitely many, however they are
    written, a load takes only finitely many files, whatever they include, and then
    nothing waits. It has processed no more files than there are readable listed files
    and paths among the given ones. -/
theorem load_ends (files : Snapshot) (paths : List Path)
    (hpaths : ∀ p, files.isReadable p = true → p.isIn paths = true) (listed : List Path)
    (store : Store) (options : Options) :
    ∃ limit l,
      (∀ more, (Loader.new files listed store options).loadWithin? files (limit + more) =
        some (l, none)) ∧
      l.files.processed.length ≤ (LoadOrder.present files listed).length + paths.length := by
  have hready : (Loader.new files listed store options).files.Ready files :=
    (FileQueue.ready_empty files).addListed listed
  obtain ⟨limit, l, hend, hbound⟩ := exists_end hpaths _ hready
  refine ⟨limit, l, hend, Nat.le_trans hbound ?_⟩
  have htracks := (LoadOrder.tracks_empty files).addListed listed
  have hidle : (FileQueue.empty.addListed files listed).current = none :=
    FileQueue.current_addListed files _ listed
  have hsplit := htracks.split
  rw [hidle] at hsplit
  have hqueued : (Loader.new files listed store options).files.queued =
      LoadOrder.present files listed := hsplit.symm
  have hprocessed : (Loader.new files listed store options).files.processed = [] :=
    htracks.processed
  have hwaiting := List.countP_le_length (p := hasFormat) (l := LoadOrder.present files listed)
  have hunknown : (Loader.new files listed store options).files.unknown paths ≤ paths.length :=
    List.countP_le_length
  unfold FileQueue.budget
  rw [hprocessed, hqueued, List.length_nil]
  omega

/-- A file that includes itself, a file that includes it, and notes that nothing reads and
    both of them include. -/
def knot : Snapshot :=
  .ofContents fun p =>
    if p.components = [.root, .name "a.conf".toList] then
      some ("include=/notes.txt\ninclude=/a.conf\ninclude=/b.conf".toList.map fun c =>
        UInt8.ofNat c.toNat)
    else if p.components = [.root, .name "b.conf".toList] then
      some ("include=/a.conf\ninclude=/notes.txt".toList.map fun c => UInt8.ofNat c.toNat)
    else if p.components = [.root, .name "notes.txt".toList] then some []
    else none

theorem isIn_of_isReadable_knot (p : Path) (h : knot.isReadable p = true) :
    p.isIn [⟨"/a.conf".toList⟩, ⟨"/b.conf".toList⟩, ⟨"/notes.txt".toList⟩] = true := by
  have ha : Path.components ⟨"/a.conf".toList⟩ = [.root, .name "a.conf".toList] := by
    decide +kernel
  have hb : Path.components ⟨"/b.conf".toList⟩ = [.root, .name "b.conf".toList] := by
    decide +kernel
  have hnotes : Path.components ⟨"/notes.txt".toList⟩ = [.root, .name "notes.txt".toList] := by
    decide +kernel
  rw [Path.isIn_iff]
  unfold Snapshot.isReadable knot at h
  rw [Snapshot.read?_ofContents] at h
  split at h
  · next hcomponents => exact ⟨_, by simp, (Path.same_iff _ _).mpr (hcomponents.trans ha.symm)⟩
  · split at h
    · next hcomponents => exact ⟨_, by simp, (Path.same_iff _ _).mpr (hcomponents.trans hb.symm)⟩
    · split at h
      · next hcomponents =>
        exact ⟨_, by simp, (Path.same_iff _ _).mpr (hcomponents.trans hnotes.symm)⟩
      · exact nomatch h

/-- The files of the knot are loaded, with one of them listed twice. -/
theorem load_ends_knot :
    ∃ limit l,
      (∀ more, (Loader.new knot [⟨"/a.conf".toList⟩, ⟨"/a.conf".toList⟩] (.flat [])
        .standard).loadWithin? knot (limit + more) = some (l, none)) ∧
      l.files.processed.length ≤ 5 := by
  obtain ⟨limit, l, hend, hbound⟩ := load_ends knot
    [⟨"/a.conf".toList⟩, ⟨"/b.conf".toList⟩, ⟨"/notes.txt".toList⟩] isIn_of_isReadable_knot
    [⟨"/a.conf".toList⟩, ⟨"/a.conf".toList⟩] (.flat []) .standard
  have hpresent : (LoadOrder.present knot [⟨"/a.conf".toList⟩, ⟨"/a.conf".toList⟩]).length = 2 := by
    decide +kernel
  rw [hpresent] at hbound
  exact ⟨limit, l, hend, hbound⟩

end Loader

end LayeredConfig
