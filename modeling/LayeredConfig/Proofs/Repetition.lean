import LayeredConfig.Disk
import LayeredConfig.Proofs.PathForms
import LayeredConfig.Proofs.Turns

/-! # How often a file is applied

    A file that is listed is queued as often as it is listed; a file that is included is
    queued only where it is neither processed nor in hand nor waiting. So the copies of a
    path, those processed and those still to be, are never more than its listings, or
    one where it is not listed.

    This counts paths, not files. A load compares paths by their components: a listed path
    is compared as it is written, the path of an include in its normal form. A file that
    is listed as `./a.conf` and includes `a.conf` is applied twice.

    **Main results.** `applied_once_per_listing`: the bound for a place, where its
    paths are all the same path, and in particular where plain paths are listed;
    `applied_twice_when_spelled_twice`: without that the bound does not hold.
-/

namespace LayeredConfig

namespace Path

/-- How often a path is among others, however it is written. -/
def listings (p : Path) (ps : List Path) : Nat := ps.countP p.same

theorem listings_congr {p q : Path} (h : p.same q = true) (ps : List Path) :
    p.listings ps = q.listings ps := by
  unfold listings
  exact List.countP_congr fun r _ => by rw [same_congr h r]

/-- How often a place is led to. -/
def arrivals (here place : Path) (ps : List Path) : Nat :=
  ps.countP fun p => here.placeFrom p = place

/-- A place is led to at least as often as one of the paths to it is listed. -/
theorem listings_le_arrivals {here place p : Path} (h : here.placeFrom p = place)
    (ps : List Path) : p.listings ps ≤ arrivals here place ps := by
  unfold listings arrivals
  apply List.countP_mono_left
  intro q _ hsame
  simpa using (placeFrom_eq_of_same here hsame).symm.trans h

/-- A place whose paths are all the same is led to as often as any of them is listed. -/
theorem arrivals_le_listings {here place p : Path} {ps : List Path}
    (h : ∀ q ∈ ps, here.placeFrom q = place → p.same q = true) :
    arrivals here place ps ≤ p.listings ps := by
  unfold listings arrivals
  apply List.countP_mono_left
  intro q hq hplace
  exact h q hq (by simpa using hplace)

end Path

/-! ## Copies -/

namespace FileQueue

/-- The files that have been processed, are in hand or wait. -/
def active (q : FileQueue) : List Path := q.processed ++ (q.current.toList ++ q.queued)

/-- How often a path is active. -/
def copies (q : FileQueue) (p : Path) : Nat := p.listings q.active

/-- What a queue does not know has no copies. -/
theorem copies_eq_zero {q : FileQueue} {p : Path} (h : q.knows p = false) : q.copies p = 0 := by
  unfold copies Path.listings active
  rw [List.countP_eq_zero]
  intro r hr
  unfold knows Path.isIn at h
  simp only [Bool.or_eq_false_iff, List.any_eq_false] at h
  obtain ⟨⟨hcurrent, hqueued⟩, hprocessed⟩ := h
  rw [List.mem_append, List.mem_append] at hr
  rcases hr with hr | hr | hr
  · exact hprocessed r hr
  · rw [Option.mem_toList] at hr
    rw [hr] at hcurrent
    simpa using hcurrent
  · exact hqueued r hr

/-- Queueing a file makes one copy of it, or none where it cannot be read. -/
theorem copies_classify_le (files : Snapshot) (q : FileQueue) (r p : Path) :
    (q.classify files r).copies p ≤ q.copies p + p.listings [r] := by
  unfold classify
  split
  · unfold copies Path.listings active
    simp only [List.countP_append]
    omega
  · split
    · omega
    · exact Nat.le_add_right _ _

/-- Listed files have as many copies as listings, at most. -/
theorem copies_addListed_le (files : Snapshot) (q : FileQueue) (ps : List Path) (p : Path) :
    (q.addListed files ps).copies p ≤ q.copies p + p.listings ps := by
  unfold addListed
  induction ps generalizing q with
  | nil => simp [Path.listings]
  | cons r rest ih =>
    have hfirst := copies_classify_le files q r p
    have hrest := ih (q.classify files r)
    have hsplit : p.listings (r :: rest) = p.listings [r] + p.listings rest := by
      unfold Path.listings
      rw [← List.countP_append, List.singleton_append]
    rw [List.foldl_cons]
    omega

/-- **Including a file** never makes a second copy of it. -/
theorem copies_addIncluded_le (files : Snapshot) (q : FileQueue) (r p : Path) :
    (q.addIncluded files r).copies p ≤ max 1 (q.copies p) := by
  unfold addIncluded
  cases hknown : q.knows r with
  | true => exact Nat.le_max_right _ _
  | false =>
    have hnone := copies_eq_zero hknown
    have hone := copies_classify_le files q r p
    rw [if_neg Bool.false_ne_true]
    cases hsame : p.same r with
    | true =>
      have hzero : q.copies p = 0 := (Path.listings_congr hsame _).trans hnone
      have hlisted : p.listings [r] = 1 := by simp [Path.listings, hsame]
      omega
    | false =>
      have hlisted : p.listings [r] = 0 := by simp [Path.listings, hsame]
      omega

theorem copies_foldl_addIncluded_le (files : Snapshot) (q : FileQueue) (ps : List Path)
    (p : Path) : (ps.foldl (addIncluded files) q).copies p ≤ max 1 (q.copies p) := by
  induction ps generalizing q with
  | nil => exact Nat.le_max_right _ _
  | cons r rest ih =>
    have hfirst := copies_addIncluded_le files q r p
    have hrest := ih (q.addIncluded files r)
    rw [List.foldl_cons]
    omega

/-- No path has more copies than a bound allows. Every path may have one. -/
structure Bounded (bound : Path → Nat) (q : FileQueue) : Prop where
  idle : q.current = none
  copies_le : ∀ p, q.copies p ≤ max 1 (bound p)

/-- **Turn.** A turn keeps the bound. -/
theorem Bounded.turn {files : Snapshot} {context : Option Path} {bound : Path → Nat}
    {q q' : FileQueue} (h : q.Bounded bound) (hturn : Turn files context q q') :
    q'.Bounded bound := by
  cases hturn with
  | passOver p rest hqueued =>
    refine ⟨h.idle, fun r => ?_⟩
    have hr := h.copies_le r
    unfold copies Path.listings active at hr ⊢
    rw [hqueued] at hr
    simp only [List.countP_append, List.countP_cons] at hr ⊢
    omega
  | apply p rest targets hqueued _ =>
    refine ⟨h.idle, fun r => ?_⟩
    -- The file in hand goes from one end of the active ones to another.
    have hr := h.copies_le r
    have htake : (q.takeUp p rest).copies r = q.copies r := by
      unfold copies Path.listings active takeUp
      rw [hqueued, h.idle]
      simp
    have hincluded := copies_foldl_addIncluded_le files (q.takeUp p rest) targets r
    have hcurrent := current_foldl_addIncluded files (q.takeUp p rest) targets
    generalize targets.foldl (addIncluded files) (q.takeUp p rest) = met at hincluded hcurrent ⊢
    have hput : (met.putDown q.current p).copies r = met.copies r := by
      unfold copies Path.listings active putDown
      rw [hcurrent, h.idle]
      simp [takeUp, List.countP_append]
    omega

/-! ## Plain files -/

/-- All files that have been processed, are in hand or wait are plain. -/
def AllPlain (q : FileQueue) : Prop := ∀ p ∈ q.active, p.Plain

theorem active_classify_subset (files : Snapshot) (q : FileQueue) (r : Path) :
    ∀ p ∈ (q.classify files r).active, p ∈ q.active ∨ p = r := by
  intro p hp
  unfold classify at hp
  split at hp
  · unfold active at hp ⊢
    simp only [List.mem_append, List.mem_singleton] at hp ⊢
    rcases hp with h | h | h | h
    · exact .inl (.inl h)
    · exact .inl (.inr (.inl h))
    · exact .inl (.inr (.inr h))
    · exact .inr h
  · split at hp
    · exact .inl hp
    · exact .inl hp

theorem active_foldl_classify_subset (files : Snapshot) (q : FileQueue) (ps : List Path) :
    ∀ p ∈ (q.addListed files ps).active, p ∈ q.active ∨ p ∈ ps := by
  unfold addListed
  induction ps generalizing q with
  | nil => exact fun p hp => .inl hp
  | cons r rest ih =>
    intro p hp
    rcases ih (q.classify files r) p hp with h | h
    · rcases active_classify_subset files q r p h with hold | rfl
      · exact .inl hold
      · exact .inr List.mem_cons_self
    · exact .inr (List.mem_cons_of_mem r h)

theorem active_foldl_addIncluded_subset (files : Snapshot) (q : FileQueue) (ps : List Path) :
    ∀ p ∈ (ps.foldl (addIncluded files) q).active, p ∈ q.active ∨ p ∈ ps := by
  induction ps generalizing q with
  | nil => exact fun p hp => .inl hp
  | cons r rest ih =>
    intro p hp
    rcases ih (q.addIncluded files r) p hp with h | h
    · unfold addIncluded at h
      split at h
      · exact .inl h
      · rcases active_classify_subset files q r p h with hold | rfl
        · exact .inl hold
        · exact .inr List.mem_cons_self
    · exact .inr (List.mem_cons_of_mem r h)

/-- **Turn.** Where the directory of the options is absolute, a turn makes only plain
    files active. -/
theorem AllPlain.turn {files : Snapshot} {context : Option Path} {q q' : FileQueue}
    (h : q.AllPlain) (hcontext : ∀ dir ∈ context, dir.isAbsolute = true)
    (hturn : Turn files context q q') : q'.AllPlain := by
  cases hturn with
  | passOver p rest hqueued =>
    intro r hr
    apply h r
    unfold active at hr ⊢
    rw [hqueued]
    simp only [List.mem_append, List.mem_cons] at hr ⊢
    rcases hr with hr | hr | hr
    · exact .inl hr
    · exact .inr (.inl hr)
    · exact .inr (.inr (.inr hr))
  | apply p rest targets hqueued htargets =>
    have hp : p.Plain := h p (by simp [active, hqueued])
    have hplain : ∀ target ∈ targets, target.Plain := by
      intro target htarget
      obtain ⟨text, base, hresolve, hbase⟩ := htargets target htarget
      apply Path.plain_of_resolveInclude _ hresolve
      intro dir hdir
      rcases hbase dir hdir with hparent | hgiven
      · exact Path.isAbsolute_directory? hp.isAbsolute hparent
      · exact hcontext dir hgiven
    have hmet := active_foldl_addIncluded_subset files (q.takeUp p rest) targets
    generalize targets.foldl (addIncluded files) (q.takeUp p rest) = met at hmet ⊢
    have htake : ∀ r ∈ (q.takeUp p rest).active, r.Plain := by
      intro r hr
      unfold active takeUp at hr
      simp only [Option.toList_some, List.mem_append, List.mem_singleton] at hr
      rcases hr with hr | rfl | hr
      · exact h r (by simp [active, hr])
      · exact hp
      · exact h r (by simp [active, hqueued, hr])
    have hmetPlain : ∀ r ∈ met.active, r.Plain := by
      intro r hr
      rcases hmet r hr with hold | hnew
      · exact htake r hold
      · exact hplain r hnew
    intro r hr
    unfold active putDown at hr
    simp only [List.mem_append, List.mem_singleton] at hr
    rcases hr with (hr | rfl) | hr | hr
    · exact hmetPlain r (by simp [active, hr])
    · exact hp
    · exact h r (by simp [active, hr])
    · exact hmetPlain r (by simp [active, hr])

end FileQueue

/-! ## Loads -/

namespace Loader

/-- No path is processed more often than it is listed, or once where it is not listed. -/
theorem listings_processed_le (files : Snapshot) (listed : List Path) (store : Store)
    (options : Options) {limit : Nat} {l : Loader} {failure : Option Failure}
    (hload : (Loader.new files listed store options).loadWithin? files limit =
      some (l, failure)) (p : Path) :
    p.listings l.files.processed ≤ max 1 (p.listings listed) := by
  have hbegin : (Loader.new files listed store options).files.Bounded
      (fun p => p.listings listed) := by
    refine ⟨FileQueue.current_addListed files _ listed, fun p => ?_⟩
    have hlisted := FileQueue.copies_addListed_le files .empty listed p
    have hempty : FileQueue.empty.copies p = 0 := rfl
    show (FileQueue.empty.addListed files listed).copies p ≤ _
    omega
  obtain ⟨_, hend, _⟩ := load_invariant files (fun q q' h hturn => h.turn hturn) hbegin hload
  have hcopies := hend.copies_le p
  have hactive : p.listings l.files.processed ≤ l.files.copies p := by
    unfold FileQueue.copies Path.listings FileQueue.active
    rw [List.countP_append]
    omega
  omega

/-- Where plain paths are listed, only plain paths are processed. -/
theorem plain_of_mem_processed (files : Snapshot) {listed : List Path} (store : Store)
    {options : Options} {limit : Nat} {l : Loader} {failure : Option Failure}
    (hload : (Loader.new files listed store options).loadWithin? files limit =
      some (l, failure)) (hlisted : ∀ p ∈ listed, p.Plain)
    (hcontext : ∀ dir ∈ options.context, dir.isAbsolute = true) :
    ∀ p ∈ l.files.processed, p.Plain := by
  have hbegin : (Loader.new files listed store options).files.AllPlain := by
    intro p hp
    rcases FileQueue.active_foldl_classify_subset files .empty listed p hp with h | h
    · exact nomatch h
    · exact hlisted p h
  obtain ⟨_, hend, _⟩ := load_invariant files (P := FileQueue.AllPlain)
    (fun _ _ h hturn => h.turn hcontext hturn) hbegin hload
  intro p hp
  exact hend p (by simp [FileQueue.active, hp])

/-- **A file is applied at most once for each listing**, and at most once where it is not
    listed, whatever the files include; so for every place whose processed paths are
    all the same path. That they are is sure where plain paths are listed. -/
theorem applied_once_per_listing (files : Snapshot) (listed : List Path) (store : Store)
    (options : Options) (limit : Nat) (l : Loader) (failure : Option Failure)
    (hload : (Loader.new files listed store options).loadWithin? files limit =
      some (l, failure)) (here : Path) :
    (∀ place, (∀ p ∈ l.files.processed, ∀ q ∈ l.files.processed, here.placeFrom p = place →
        here.placeFrom q = place → p.same q = true) →
      Path.arrivals here place l.files.processed ≤ max 1 (Path.arrivals here place listed)) ∧
    ((∀ p ∈ listed, p.Plain) → (∀ dir ∈ options.context, dir.isAbsolute = true) →
      ∀ place,
        Path.arrivals here place l.files.processed ≤ max 1 (Path.arrivals here place listed)) := by
  have hspelled : ∀ place, (∀ p ∈ l.files.processed, ∀ q ∈ l.files.processed,
      here.placeFrom p = place → here.placeFrom q = place → p.same q = true) →
      Path.arrivals here place l.files.processed ≤ max 1 (Path.arrivals here place listed) := by
    intro place hsame
    by_cases hany : ∃ p ∈ l.files.processed, here.placeFrom p = place
    · obtain ⟨p, hp, hplace⟩ := hany
      have hprocessed := Path.arrivals_le_listings fun q hq h => hsame p hp q hq hplace h
      have hbound := listings_processed_le files listed store options hload p
      have hlisted := Path.listings_le_arrivals hplace listed
      omega
    · have hnone : Path.arrivals here place l.files.processed = 0 := by
        unfold Path.arrivals
        rw [List.countP_eq_zero]
        intro p hp hplace
        exact hany ⟨p, hp, by simpa using hplace⟩
      omega
  refine ⟨hspelled, fun hlisted hcontext place => hspelled place ?_⟩
  intro p hp q hq hpp hqp
  have hplain := plain_of_mem_processed files store hload hlisted hcontext
  exact (hplain p hp).same_of_placeFrom_eq (hplain q hq) (hpp.trans hqp.symm)

/-- A file in the root directory with the given name and content. -/
def oneFile (name content : String) : Disk :=
  Disk.empty.write [name.toList] (content.toList.map fun c => UInt8.ofNat c.toNat)

/-- A file that includes itself, and is listed twice by its plain path, is applied twice. -/
theorem applied_once_per_listing_of_own_include :
    ∃ l failure,
      (Loader.new (oneFile "a.conf" "include=a.conf").snapshot
        [⟨"/a.conf".toList⟩, ⟨"/a.conf".toList⟩] (.flat []) .standard).loadWithin?
        (oneFile "a.conf" "include=a.conf").snapshot 2 = some (l, failure) ∧
      Path.arrivals ⟨['/']⟩ ⟨"/a.conf".toList⟩ l.files.processed ≤ 2 := by
  obtain ⟨⟨l, failure⟩, hload⟩ := Option.isSome_iff_exists.mp
    (show ((Loader.new (oneFile "a.conf" "include=a.conf").snapshot
      [⟨"/a.conf".toList⟩, ⟨"/a.conf".toList⟩] (.flat []) .standard).loadWithin?
      (oneFile "a.conf" "include=a.conf").snapshot 2).isSome = true by decide +kernel)
  have hbound := (applied_once_per_listing _ _ _ _ 2 l failure hload ⟨['/']⟩).2
  have hplain : ∀ p ∈ [(⟨"/a.conf".toList⟩ : Path), ⟨"/a.conf".toList⟩], p.Plain := by
    intro p hp
    have hp' : p = ⟨"/a.conf".toList⟩ := by simpa using hp
    exact ⟨["a.conf".toList], by rw [hp']; decide +kernel⟩
  exact ⟨l, failure, hload, hbound hplain nofun ⟨"/a.conf".toList⟩⟩

/-- **Two spellings of one path are two paths.** A file that is listed once, as `./a.conf`,
    and includes `a.conf` is applied twice. -/
theorem applied_twice_when_spelled_twice :
    ∃ l failure,
      (Loader.new (oneFile "a.conf" "include=a.conf").snapshot [⟨"./a.conf".toList⟩]
        (.nested [] .standard) .standard).loadWithin?
        (oneFile "a.conf" "include=a.conf").snapshot 2 = some (l, failure) ∧
      Path.arrivals ⟨['/']⟩ ⟨"/a.conf".toList⟩ l.files.processed = 2 ∧
      Path.arrivals ⟨['/']⟩ ⟨"/a.conf".toList⟩ [⟨"./a.conf".toList⟩] = 1 := by
  refine ⟨_, _, rfl, ?_, ?_⟩
  · decide +kernel
  · decide +kernel

end Loader

end LayeredConfig
