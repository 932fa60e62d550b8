import LayeredConfig.Loader
import Mathlib.Data.List.Induction

/-! # The order in which files are taken

    The queue of a load is emptied at one end and filled at the other. What it does
    can be said without a queue, of one growing list: the files in the order in which
    they are taken. The file at a place of the list is in hand, those behind it wait,
    those before it have been taken. An included file is added at the end, unless it
    is in hand, is waiting, or has been taken and processed.

    **Main definitions.** `accept`, the rule for an included file, and the invariant
    `Tracks`, which ties a queue to the list.

    **Main results.** `Tracks.addListed` and `Tracks.addIncluded`: what queueing does to
    the queue is what the rules do to the list.
-/

namespace LayeredConfig

/-! ## The same path -/

namespace Path

theorem same_iff (p q : Path) : p.same q = true ↔ p.components = q.components := by
  unfold same
  exact beq_iff_eq

theorem same_symm {p q : Path} (h : p.same q = true) : q.same p = true := by
  rw [same_iff] at h ⊢
  exact h.symm

/-- The same paths are the same as any other path. -/
theorem same_congr {p q : Path} (h : p.same q = true) (r : Path) : p.same r = q.same r := by
  rw [Bool.eq_iff_iff, same_iff, same_iff, (same_iff p q).mp h]

/-- The same paths are among the same others. -/
theorem isIn_congr {p q : Path} (h : p.same q = true) (ps : List Path) :
    p.isIn ps = q.isIn ps := by
  unfold isIn
  rw [funext (same_congr h)]

theorem isIn_append (p : Path) (ps qs : List Path) :
    p.isIn (ps ++ qs) = (p.isIn ps || p.isIn qs) := by
  unfold isIn
  exact List.any_append

/-- A path among others is the same as one of them. -/
theorem isIn_iff (p : Path) (ps : List Path) :
    p.isIn ps = true ↔ ∃ q ∈ ps, p.same q = true := by
  unfold isIn
  exact List.any_eq_true

/-- The first occurrences of paths, in their order. -/
def firsts (ps : List Path) : List Path := ps.eraseDupsBy same

theorem eraseDupsBy_loop_snoc (ps : List Path) (p : Path) (seen : List Path) :
    List.eraseDupsBy.loop same (ps ++ [p]) seen =
      if p.isIn (List.eraseDupsBy.loop same ps seen) then List.eraseDupsBy.loop same ps seen
      else List.eraseDupsBy.loop same ps seen ++ [p] := by
  induction ps generalizing seen with
  | nil =>
    unfold isIn
    simp only [List.nil_append, List.eraseDupsBy.loop, List.any_reverse]
    cases seen.any p.same
    · simp
    · simp
  | cons q rest ih =>
    -- The first path goes to those that have been seen, or is one of them.
    rw [List.cons_append, List.eraseDupsBy.loop, List.eraseDupsBy.loop]
    split
    · exact ih seen
    · exact ih (q :: seen)

/-- One path more is a first occurrence, or else it was there. -/
theorem firsts_snoc (ps : List Path) (p : Path) :
    firsts (ps ++ [p]) = if p.isIn (firsts ps) then firsts ps else firsts ps ++ [p] :=
  eraseDupsBy_loop_snoc ps p []

theorem mem_of_mem_firsts {ps : List Path} {p : Path} (h : p ∈ firsts ps) : p ∈ ps := by
  induction ps using List.reverseRecOn with
  | nil => exact h
  | append_singleton ps q ih =>
    rw [firsts_snoc] at h
    split at h
    · exact List.mem_append_left _ (ih h)
    · rcases List.mem_append.mp h with hold | hnew
      · exact List.mem_append_left _ (ih hold)
      · exact List.mem_append_right _ hnew

/-- No two of the first occurrences are the same path. -/
theorem pairwise_firsts (ps : List Path) :
    (firsts ps).Pairwise fun p q => p.same q = false := by
  induction ps using List.reverseRecOn with
  | nil => exact .nil
  | append_singleton ps p ih =>
    rw [firsts_snoc]
    split
    · exact ih
    · next hnew =>
      rw [List.pairwise_append]
      refine ⟨ih, List.pairwise_singleton _ p, ?_⟩
      intro q hq r hr
      rw [List.mem_singleton.mp hr, ← Bool.not_eq_true]
      intro hsame
      exact hnew ((p.isIn_iff _).mpr ⟨q, hq, same_symm hsame⟩)

end Path

namespace Snapshot.Consistent

variable {files : Snapshot} (h : files.Consistent)
include h

/-- Whether a file can be read does not depend on how its path is written. -/
theorem isReadable_eq {p q : Path} (hsame : p.same q = true) :
    files.isReadable p = files.isReadable q := by
  unfold Snapshot.isReadable
  rw [h p q hsame]

/-- What is the same as a file that can be read can be read. -/
theorem isReadable_of_isIn {p : Path} {ps : List Path} (hin : p.isIn ps = true)
    (hps : ∀ q ∈ ps, files.isReadable q = true) : files.isReadable p = true := by
  obtain ⟨q, hq, hsame⟩ := (p.isIn_iff ps).mp hin
  rw [h.isReadable_eq hsame]
  exact hps q hq

end Snapshot.Consistent

/-! ## Files with a format -/

namespace Loader

/-- Whether the extension of a path names a format. -/
def hasFormat (p : Path) : Bool := (Format.ofName? (formatNameOf p)).isSome

theorem hasFormat_of_some {p : Path} {format : Format}
    (h : Format.ofName? (formatNameOf p) = some format) : hasFormat p = true :=
  Option.isSome_of_eq_some h

theorem hasFormat_eq_false_iff (p : Path) :
    hasFormat p = false ↔ Format.ofName? (formatNameOf p) = none := by
  unfold hasFormat
  rw [Option.isSome_eq_false_iff, Option.isNone_iff_eq_none]

/-- Two texts of one path have the same format. -/
theorem formatNameOf_eq {p q : Path} (h : p.same q = true) : formatNameOf p = formatNameOf q := by
  -- The extension is taken from the components.
  unfold formatNameOf Path.extension? Path.fileName?
  rw [(Path.same_iff p q).mp h]

theorem hasFormat_eq {p q : Path} (h : p.same q = true) : hasFormat p = hasFormat q := by
  unfold hasFormat
  rw [formatNameOf_eq h]

end Loader

/-! ## The file in hand

    Queueing never changes it. -/

namespace FileQueue

@[simp] theorem current_classify (files : Snapshot) (q : FileQueue) (p : Path) :
    (q.classify files p).current = q.current := by
  unfold classify
  split
  · rfl
  · split <;> rfl

@[simp] theorem current_addListed (files : Snapshot) (q : FileQueue) (ps : List Path) :
    (q.addListed files ps).current = q.current := by
  unfold addListed
  induction ps generalizing q with
  | nil => rfl
  | cons p rest ih => rw [List.foldl_cons, ih, current_classify]

@[simp] theorem current_foldl_addIncluded (files : Snapshot) (q : FileQueue) (ps : List Path) :
    (ps.foldl (addIncluded files) q).current = q.current := by
  induction ps generalizing q with
  | nil => rfl
  | cons p rest ih =>
    rw [List.foldl_cons, ih]
    unfold addIncluded
    split
    · rfl
    · exact current_classify files q p

end FileQueue

/-! ## The rules -/

namespace LoadOrder

/-- The files of a list that can be read. -/
def present (files : Snapshot) (ps : List Path) : List Path := ps.filter files.isReadable

/-- The files of a list that cannot be read, each of them once. -/
def absent (files : Snapshot) (ps : List Path) : List Path :=
  Path.firsts (ps.filter fun p => !files.isReadable p)

/-- The order with an included file, which was found in the file at place `i`. It is
    added where it can be read, unless it is the file at this place, a later one, or an
    earlier one that has a format. -/
def accept (files : Snapshot) (i : Nat) (order : List Path) (p : Path) : List Path :=
  if files.isReadable p && !p.isIn (order.drop i) &&
    !p.isIn ((order.take i).filter Loader.hasFormat)
  then order ++ [p] else order

/-- Whether the file at place `i` of an order, a later one, or an earlier one that has a
    format is the given one. -/
def barred (i : Nat) (order : List Path) (p : Path) : Bool :=
  p.isIn (order.drop i) || p.isIn ((order.take i).filter Loader.hasFormat)

theorem accept_of_barred (files : Snapshot) {i : Nat} {order : List Path} {p : Path}
    (h : barred i order p = true) : accept files i order p = order := by
  unfold barred at h
  unfold accept
  rw [Bool.and_assoc, ← Bool.not_or, h, Bool.not_true, Bool.and_false,
    if_neg Bool.false_ne_true]

theorem accept_of_not_barred (files : Snapshot) {i : Nat} {order : List Path} {p : Path}
    (h : barred i order p = false) : accept files i order p = order ++ present files [p] := by
  unfold barred at h
  unfold accept present
  rw [Bool.and_assoc, ← Bool.not_or, h, Bool.not_false, Bool.and_true]
  cases hp : files.isReadable p <;> simp [hp]

/-- An order only grows. -/
theorem prefix_accept (files : Snapshot) (i : Nat) (order : List Path) (p : Path) :
    order <+: accept files i order p := by
  unfold accept
  split
  · exact List.prefix_append _ _
  · exact List.prefix_rfl

/-- What is barred is the same as a file of the order. -/
theorem isIn_of_barred {i : Nat} {order : List Path} {p : Path} (h : barred i order p = true) :
    p.isIn order = true := by
  unfold barred at h
  rw [Bool.or_eq_true, Path.isIn_iff, Path.isIn_iff] at h
  rw [Path.isIn_iff]
  rcases h with ⟨q, hq, hsame⟩ | ⟨q, hq, hsame⟩
  · exact ⟨q, List.mem_of_mem_drop hq, hsame⟩
  · exact ⟨q, List.mem_of_mem_take (List.mem_filter.mp hq).1, hsame⟩

/-- A queue does what the order says: `before` have been taken, the file in hand
    and the waiting ones follow, and `met` are all files that were to be queued. -/
structure Tracks (files : Snapshot) (before order met : List Path) (q : FileQueue) : Prop where
  split : order = before ++ (q.current.toList ++ q.queued)
  processed : q.processed = before.filter Loader.hasFormat
  skipped : q.skipped = before.filter fun p => !Loader.hasFormat p
  missing : q.missing = absent files met
  readable : ∀ p ∈ order, files.isReadable p = true

/-- What is absent cannot be read. -/
theorem not_isReadable_of_mem_absent {files : Snapshot} {p : Path} {ps : List Path}
    (h : p ∈ absent files ps) : files.isReadable p = false := by
  have hmem := Path.mem_of_mem_firsts h
  simpa using (List.mem_filter.mp hmem).2

theorem absent_snoc_of_isReadable {files : Snapshot} {p : Path} (h : files.isReadable p = true)
    (met : List Path) : absent files (met ++ [p]) = absent files met := by
  unfold absent
  simp [h]

theorem absent_snoc_of_not_isReadable {files : Snapshot} {p : Path} (h : files.isReadable p = false)
    (met : List Path) :
    absent files (met ++ [p]) =
      if p.isIn (absent files met) then absent files met else absent files met ++ [p] := by
  unfold absent
  rw [← Path.firsts_snoc]
  simp [h]

/-- Nothing has been taken from the queue that nothing has been done with. -/
theorem tracks_empty (files : Snapshot) : Tracks files [] [] [] FileQueue.empty where
  split := rfl
  processed := rfl
  skipped := rfl
  missing := rfl
  readable := nofun

section queue

variable {files : Snapshot} {before order met : List Path} {q : FileQueue}
  (h : Tracks files before order met q)
include h

theorem Tracks.drop : order.drop before.length = q.current.toList ++ q.queued := by
  rw [h.split, List.drop_left]

theorem Tracks.take : order.take before.length = before := by
  rw [h.split, List.take_left]

/-- Queueing a file adds it to the order where it can be read. -/
theorem Tracks.classify (p : Path) :
    Tracks files before (order ++ present files [p]) (met ++ [p]) (q.classify files p) := by
  unfold FileQueue.classify present
  cases hp : files.isReadable p with
  | true =>
    rw [if_pos rfl, List.filter_cons_of_pos hp, List.filter_nil]
    exact {
      split := by
        rw [h.split]
        simp
      processed := h.processed
      skipped := h.skipped
      missing := by rw [h.missing, absent_snoc_of_isReadable hp]
      readable := by
        intro r hr
        rcases List.mem_append.mp hr with hold | hnew
        · exact h.readable r hold
        · rw [List.mem_singleton.mp hnew]
          exact hp }
  | false =>
    rw [if_neg Bool.false_ne_true, List.filter_cons_of_neg (by simp [hp]), List.filter_nil,
      List.append_nil, h.missing]
    -- The order stays as it is; the file is noted, unless it has been.
    have hmissing := absent_snoc_of_not_isReadable hp met
    split
    · next hin =>
      rw [if_pos hin] at hmissing
      exact ⟨h.split, h.processed, h.skipped, h.missing.trans hmissing.symm, h.readable⟩
    · next hin =>
      rw [if_neg hin] at hmissing
      exact ⟨h.split, h.processed, h.skipped, hmissing.symm, h.readable⟩

/-- Queueing listed files adds those that can be read, in their order. -/
theorem Tracks.addListed (ps : List Path) :
    Tracks files before (order ++ present files ps) (met ++ ps) (q.addListed files ps) := by
  unfold FileQueue.addListed
  induction ps generalizing order met q with
  | nil => simpa [present] using h
  | cons p rest ih =>
    have hnext := ih (h.classify p)
    rw [List.append_assoc, List.append_assoc] at hnext
    unfold present at hnext ⊢
    rwa [← List.filter_append] at hnext

/-- What the queue knows is what the order bars. -/
theorem Tracks.knows_eq (p : Path) : q.knows p = barred before.length order p := by
  unfold FileQueue.knows barred
  rw [h.drop, h.take, h.processed, Path.isIn_append]
  congr 2
  unfold Path.isIn
  cases q.current <;> simp

/-- Queueing an included file is accepting it into the order. -/
theorem Tracks.addIncluded (hfiles : files.Consistent) (p : Path) :
    Tracks files before (accept files before.length order p) (met ++ [p])
      (q.addIncluded files p) := by
  unfold FileQueue.addIncluded
  rw [h.knows_eq]
  cases hbarred : barred before.length order p with
  | true =>
    -- A known file can be read, since it is the same as one of the order.
    have hp : files.isReadable p = true :=
      hfiles.isReadable_of_isIn (isIn_of_barred hbarred) h.readable
    rw [if_pos rfl, accept_of_barred files hbarred]
    exact ⟨h.split, h.processed, h.skipped, h.missing.trans (absent_snoc_of_isReadable hp met).symm,
      h.readable⟩
  | false =>
    rw [if_neg Bool.false_ne_true, accept_of_not_barred files hbarred]
    exact h.classify p

/-- Queueing included files is accepting them one after the other. -/
theorem Tracks.foldl_addIncluded (hfiles : files.Consistent) (ps : List Path) :
    Tracks files before (ps.foldl (accept files before.length) order) (met ++ ps)
      (ps.foldl (FileQueue.addIncluded files) q) := by
  induction ps generalizing order met q with
  | nil => simpa using h
  | cons p rest ih =>
    have hnext := ih (h.addIncluded hfiles p)
    rwa [List.append_assoc] at hnext

end queue

/-! ## Taking a file -/

section taking

variable {files : Snapshot} {before order met : List Path} {q : FileQueue}

/-- A file that is taken is in hand. -/
theorem Tracks.takeUp {p : Path} {rest : List Path} (h : Tracks files before order met q)
    (hidle : q.current = none) (hqueued : q.queued = p :: rest) :
    Tracks files before order met { q with queued := rest, current := some p } where
  split := by
    rw [h.split, hidle, hqueued]
    rfl
  processed := h.processed
  skipped := h.skipped
  missing := h.missing
  readable := h.readable

/-- A file that has a format and has been in hand is processed. -/
theorem Tracks.putDown {p : Path} (h : Tracks files before order met q)
    (hcurrent : q.current = some p) (hformat : Loader.hasFormat p = true) :
    Tracks files (before ++ [p]) order met
      { q with current := none, processed := q.processed ++ [p] } where
  split := by
    rw [h.split, hcurrent]
    simp
  processed := by simp [h.processed, hformat]
  skipped := by simp [h.skipped, hformat]
  missing := h.missing
  readable := h.readable

/-- A file that has no format is skipped. -/
theorem Tracks.passOver {p : Path} {rest : List Path} (h : Tracks files before order met q)
    (hidle : q.current = none) (hqueued : q.queued = p :: rest)
    (hformat : Loader.hasFormat p = false) :
    Tracks files (before ++ [p]) order met
      { q with queued := rest, skipped := q.skipped ++ [p] } where
  split := by
    rw [h.split, hidle, hqueued]
    simp
  processed := by simp [h.processed, hformat]
  skipped := by simp [h.skipped, hformat]
  missing := h.missing
  readable := h.readable

end taking

end LoadOrder

end LayeredConfig
