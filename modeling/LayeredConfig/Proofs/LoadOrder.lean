import LayeredConfig.Proofs.LoadTurns

/-! # Loading follows the order

    A load that comes to an end takes the files in a certain order. It begins with the
    listed files that can be read; then come the included ones, in the order in which
    they are met, as far as they are accepted. What is included depends on the settings
    at the time, so the order refers to what each file was found to include when it was
    applied.

    **Main result.** `load_follows_order`: which files are taken and in which order, and
    what the load says of them in the end.
-/

namespace LayeredConfig

/-! ## Visits -/

namespace Loader

/-- A file that has been taken, and what it was found to include. -/
structure Visit where
  path : Path
  targets : List Path
  deriving DecidableEq, Repr

/-- What a file includes, if it is applied now. -/
def targetsOf (files : Snapshot) (l : Loader) (p : Path) : List Path :=
  match files.read? p with
  | none => []
  | some bytes =>
    let l := if Text.isUtf8 bytes then l else l.note (.invalidText p)
    match Source.ofFormatName? (formatNameOf p) (Text.decodeLossy bytes) (l.optionsFor p) with
    | some source => (l.holding p).session.targets files (source.steps true)
    | none => []

/-- The files that a load takes from its queue, as long as there are at most `limit` of
    them. -/
def visits (files : Snapshot) : Nat → Loader → List Visit
  | limit, l =>
    match l.files.queued with
    | [] => []
    | p :: rest =>
      match limit with
      | 0 => []
      | limit + 1 =>
        let taken := l.withFiles fun q => { q with queued := rest }
        ⟨p, taken.targetsOf files p⟩ ::
          match taken.loadOne files p none with
          | (l, none) => visits files limit l
          | (l, some failure) =>
            if failure.isFatal then [] else visits files limit (l.note (.fileSkipped failure))

section equations

variable (files : Snapshot) {l : Loader} {p : Path} {rest : List Path}

theorem visits_done (hqueued : l.files.queued = []) (limit : Nat) :
    l.visits files limit = [] := by
  unfold visits
  cases limit <;> rw [hqueued]

theorem visits_succ (hqueued : l.files.queued = p :: rest) (limit : Nat) :
    l.visits files (limit + 1) =
      ⟨p, (l.withFiles fun q => { q with queued := rest }).targetsOf files p⟩ ::
        (l.turn files).visits files limit := by
  have hfatal := isFatal_of_loadOne files (l.withFiles fun q => { q with queued := rest }) p none
  rw [visits.eq_def, turn_eq files hqueued]
  dsimp only
  rw [hqueued]
  dsimp only
  generalize (l.withFiles fun q => { q with queued := rest }).loadOne files p none = one
    at hfatal ⊢
  obtain ⟨next, _ | failure⟩ := one
  · rfl
  · dsimp only
    rw [hfatal failure rfl, if_neg Bool.false_ne_true]
    rfl

/-- What a file of a format includes is what its steps include while it is in hand. -/
theorem targetsOf_of_format {bytes : List UInt8} {format : Format}
    (hread : files.read? p = some bytes)
    (hformat : Format.ofName? (formatNameOf p) = some format) :
    (l.withFiles fun q => { q with queued := rest }).targetsOf files p =
      (l.takenSession p rest (l.noticesAt p bytes)).targets files
        (l.fileSteps p format bytes) := by
  unfold targetsOf Source.ofFormatName?
  rw [hread]
  dsimp only
  rw [hformat, noted_eq]
  rfl

/-- A file that no format reads includes nothing. -/
theorem targetsOf_of_unread (hformat : hasFormat p = false) (l : Loader) :
    l.targetsOf files p = [] := by
  unfold targetsOf Source.ofFormatName?
  cases files.read? p with
  | none => rfl
  | some bytes =>
    dsimp only
    rw [(hasFormat_eq_false_iff p).mp hformat]
    rfl

end equations

end Loader

/-! ## One file -/

namespace LoadOrder

open Loader

/-- A load keeps to an order: its queue does what the order says, and no file is in
    hand. -/
structure Follows (files : Snapshot) (before order met : List Path) (l : Loader) : Prop where
  tracks : Tracks files before order met l.files
  idle : l.files.current = none

variable {files : Snapshot} {before order met : List Path} {l : Loader} {p : Path}

/-- A file of a known format is carried out, and what it includes is accepted. -/
theorem Tracks.carryOut {q : FileQueue} {rest : List Path} (hfiles : files.Consistent)
    (h : Tracks files before order met q) (hidle : q.current = none)
    (hqueued : q.queued = p :: rest) (hformat : hasFormat p = true) (targets : List Path) :
    Tracks files (before ++ [p]) (targets.foldl (accept files before.length) order)
      (met ++ targets) (q.carryOut files p rest targets) := by
  have htracks := (h.takeUp hidle hqueued).foldl_addIncluded hfiles targets
  -- While includes are queued the file stays in hand.
  have hcurrent : (targets.foldl (FileQueue.addIncluded files) (q.takeUp p rest)).current =
      some p := FileQueue.current_foldl_addIncluded files _ targets
  unfold FileQueue.carryOut
  rw [hidle]
  exact htracks.putDown hcurrent hformat

/-- **Step.** A file that is taken is applied or skipped, and what it includes is
    accepted. -/
theorem Follows.turn (hfiles : files.Consistent) {rest : List Path}
    (h : Follows files before order met l) (hqueued : l.files.queued = p :: rest) :
    Follows files (before ++ [p])
      (((l.withFiles fun q => { q with queued := rest }).targetsOf files p).foldl
        (accept files before.length) order)
      (met ++ (l.withFiles fun q => { q with queued := rest }).targetsOf files p)
      (l.turn files) := by
  -- A waiting file is one of the order, so it can be read.
  have hp : files.isReadable p = true := by
    apply h.tracks.readable
    rw [h.tracks.split, hqueued]
    simp
  obtain ⟨bytes, hread⟩ := Option.isSome_iff_exists.mp hp
  cases hformat : Format.ofName? (formatNameOf p) with
  | some format =>
    have hhas : hasFormat p = true := hasFormat_of_some hformat
    obtain ⟨notices, hturn⟩ := turn_of_format files hqueued hread hformat
    rw [hturn, targetsOf_of_format files hread hformat]
    exact ⟨h.tracks.carryOut hfiles h.idle hqueued hhas _, h.idle⟩
  | none =>
    have hhas : hasFormat p = false := (hasFormat_eq_false_iff p).mpr hformat
    obtain ⟨notices, hturn⟩ := turn_of_unread files hqueued (.inr hhas)
    rw [hturn, targetsOf_of_unread files hhas, List.foldl_nil, List.append_nil]
    exact ⟨h.tracks.passOver h.idle hqueued hhas, h.idle⟩

/-! ## All files -/

/-- The order that is `order` where place `i` is reached, after the files that are taken
    from there on: what each of them includes is accepted at its place. -/
def extended (files : Snapshot) : Nat → List Path → List Visit → List Path
  | _, order, [] => order
  | i, order, visit :: rest =>
    extended files (i + 1) (visit.targets.foldl (accept files i) order) rest

/-- An order begins with what it began with. -/
theorem prefix_extended (files : Snapshot) (i : Nat) (order : List Path) (visits : List Visit) :
    order <+: extended files i order visits := by
  induction visits generalizing i order with
  | nil => exact List.prefix_rfl
  | cons visit rest ih =>
    have haccepted : order <+: visit.targets.foldl (accept files i) order := by
      induction visit.targets generalizing order with
      | nil => exact List.prefix_rfl
      | cons p ps hps => exact (prefix_accept files i order p).trans (hps _)
    exact haccepted.trans (ih (i + 1) _)

/-- A load has come to its end, after the files that were still to be taken: they are
    those that the order says, and nothing is left. -/
structure Completes (files : Snapshot) (before order met : List Path) (visits : List Visit)
    (l : Loader) : Prop where
  order : before ++ visits.map (·.path) = extended files before.length order visits
  queued : l.files.queued = []
  follows : Follows files (before ++ visits.map (·.path)) (before ++ visits.map (·.path))
    (met ++ visits.flatMap (·.targets)) l

/-- A load with an empty queue is at its end. -/
theorem Follows.done (h : Follows files before order met l) (hqueued : l.files.queued = []) :
    Completes files before order met [] l := by
  have horder : order = before := by
    rw [h.tracks.split, h.idle, hqueued]
    simp
  subst horder
  exact {
    order := List.append_nil _
    queued := hqueued
    follows := by simpa using h }

/-- The file that is taken is the next place of the order. -/
theorem Completes.cons {targets : List Path} {visits : List Visit}
    (h : Completes files (before ++ [p]) (targets.foldl (accept files before.length) order)
      (met ++ targets) visits l) :
    Completes files before order met (⟨p, targets⟩ :: visits) l where
  order := by
    have horder := h.order
    rw [List.append_assoc, List.length_append] at horder
    exact horder
  queued := h.queued
  follows := by
    have hfollows := h.follows
    rw [List.append_assoc, List.append_assoc] at hfollows
    exact hfollows

/-- **Run.** A load that comes to an end takes its files in the order that is given by
    what they include, and then nothing is left. -/
theorem load_completes (hfiles : files.Consistent) {limit : Nat} {l' : Loader}
    {failure : Option Failure} (h : Follows files before order met l)
    (hload : l.loadWithin? files limit = some (l', failure)) :
    failure = none ∧ Completes files before order met (l.visits files limit) l' := by
  have hrun := load_induction files
    (P := fun limit l l' => ∀ before order met, Follows files before order met l →
      Completes files before order met (l.visits files limit) l') ?done ?next hload
  case done =>
    intro limit l hqueued before order met h
    rw [visits_done files hqueued]
    exact h.done hqueued
  case next =>
    intro limit l l' p rest hqueued ih before order met h
    rw [visits_succ files hqueued]
    exact (ih _ _ _ (h.turn hfiles hqueued)).cons
  exact ⟨hrun.1, hrun.2 before order met h⟩

/-- What is processed, skipped or missing in the end is no two of these. -/
theorem Tracks.disjoint {q : FileQueue} (hfiles : files.Consistent)
    (h : Tracks files before order met q) :
    (∀ p ∈ q.processed, p.isIn q.skipped = false ∧ p.isIn q.missing = false) ∧
      ∀ p ∈ q.skipped, p.isIn q.missing = false := by
  -- What has been taken can be read, and what is missing cannot.
  have hthere : ∀ p ∈ before, p.isIn q.missing = false := by
    intro p hp
    rw [← Bool.not_eq_true, Path.isIn_iff, h.missing]
    intro hexists
    obtain ⟨r, hr, hsame⟩ := hexists
    have hp' : files.isReadable p = true := by
      apply h.readable
      rw [h.split]
      exact List.mem_append_left _ hp
    rw [hfiles.isReadable_eq hsame, not_isReadable_of_mem_absent hr] at hp'
    exact nomatch hp'
  rw [h.processed, h.skipped]
  refine ⟨?_, fun p hp => hthere p (List.mem_filter.mp hp).1⟩
  intro p hp
  obtain ⟨hmem, hformat⟩ := List.mem_filter.mp hp
  -- Paths that are the same have the same extension, so both have a format or none.
  refine ⟨?_, hthere p hmem⟩
  rw [← Bool.not_eq_true, Path.isIn_iff]
  intro hexists
  obtain ⟨r, hr, hsame⟩ := hexists
  have hnone := (List.mem_filter.mp hr).2
  rw [← hasFormat_eq hsame, hformat] at hnone
  exact nomatch hnone

/-- **A load follows its order.** Over a snapshot in which it does not matter how a path
    is written, a load that comes to an end has taken first the listed files that can be
    read and then the included ones that were accepted, each file's in their order at
    its place. Those with a format have been processed, the others skipped, and what
    was listed or included and cannot be read is missing, once each; nothing is left, and
    nothing is in two of the three lists. -/
theorem load_follows_order (files : Snapshot) (hfiles : files.Consistent) (listed : List Path)
    (store : Store) (options : Options) (limit : Nat) (l : Loader) (failure : Option Failure)
    (hload : (Loader.new files listed store options).loadWithin? files limit =
      some (l, failure)) :
    let visits := (Loader.new files listed store options).visits files limit
    let taken := visits.map (·.path)
    failure = none ∧
      taken = extended files 0 (present files listed) visits ∧
      present files listed <+: taken ∧
      l.files.processed = taken.filter hasFormat ∧
      l.files.skipped = taken.filter (fun p => !hasFormat p) ∧
      l.files.missing = absent files (listed ++ visits.flatMap (·.targets)) ∧
      (l.files.missing.Pairwise fun p q => p.same q = false) ∧
      l.files.queued = [] ∧
      l.files.current = none ∧
      (∀ p ∈ l.files.processed, p.isIn l.files.skipped = false ∧ p.isIn l.files.missing = false) ∧
      ∀ p ∈ l.files.skipped, p.isIn l.files.missing = false := by
  intro visits taken
  have hbegin : Follows files [] (present files listed) listed
      (Loader.new files listed store options) :=
    { tracks := (tracks_empty files).addListed listed
      idle := FileQueue.current_addListed files _ listed }
  obtain ⟨hfailure, hcompletes⟩ := load_completes hfiles hbegin hload
  have htaken : taken = extended files 0 (present files listed) visits := hcompletes.order
  have hend := hcompletes.follows
  refine ⟨hfailure, htaken, ?_, hend.tracks.processed, hend.tracks.skipped, hend.tracks.missing,
    ?_, hcompletes.queued, hend.idle, hend.tracks.disjoint hfiles⟩
  · rw [htaken]
    exact prefix_extended files 0 _ visits
  · rw [hend.tracks.missing]
    exact Path.pairwise_firsts _

/-- Two files that include each other. -/
def circle : Snapshot :=
  .ofContents fun p =>
    if p.components = [.root, .name "a.conf".toList] then
      some ("include=/b.conf\nx=1".toList.map fun c => UInt8.ofNat c.toNat)
    else if p.components = [.root, .name "b.conf".toList] then
      some ("include=/a.conf\nx=2".toList.map fun c => UInt8.ofNat c.toNat)
    else none

theorem consistent_circle : circle.Consistent := by
  intro p q hsame
  unfold circle
  rw [Snapshot.read?_ofContents, Snapshot.read?_ofContents, (Path.same_iff p q).mp hsame]

/-- Two files that include each other are processed once each, and a listed file that
    is not there is missing. -/
theorem load_follows_order_circle :
    ∃ l failure,
      (Loader.new circle [⟨"/a.conf".toList⟩, ⟨"/c.conf".toList⟩] (.flat []) .standard).loadWithin?
        circle 3 = some (l, failure) ∧
      failure = none ∧
      l.files.processed = [⟨"/a.conf".toList⟩, ⟨"/b.conf".toList⟩] ∧
      l.files.missing = [⟨"/c.conf".toList⟩] := by
  obtain ⟨⟨l, failure⟩, hload⟩ := Option.isSome_iff_exists.mp
    (show ((Loader.new circle [⟨"/a.conf".toList⟩, ⟨"/c.conf".toList⟩] (.flat [])
      .standard).loadWithin? circle 3).isSome = true by decide +kernel)
  obtain ⟨hfailure, _, _, hprocessed, _, hmissing, _⟩ :=
    load_follows_order circle consistent_circle _ _ _ _ l failure hload
  refine ⟨l, failure, hload, hfailure, ?_, ?_⟩
  · rw [hprocessed]
    decide +kernel
  · rw [hmissing]
    decide +kernel

end LoadOrder

end LayeredConfig
