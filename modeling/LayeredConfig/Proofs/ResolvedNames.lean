import LayeredConfig.Proofs.Accounting
import LayeredConfig.Proofs.AppendedLists
import LayeredConfig.Proofs.ReferencedKeys

/-! # Resolved names

    A store that does not regard case resolves a reference by a key that may be spelled in
    another way than the name. The record compares names as they are spelled. So a name can
    be external although every reference to it has read what a definition without
    dependencies had written: that definition is recorded under another spelling.

    Where everything is overwritten, the record is the one that the history of the run says,
    and the history is read off the steps. A name that was resolved by a definition without
    dependencies is external only where the two are spelled differently, and lower case has
    one spelling. Assignment files are in lower case by default, both in the keys that they
    write and in the names that they refer to. Documents need not be: only their outermost
    keys are put in lower case, and their references are looked up as they are.

    **Main result.** `externals_by_spelling`.
-/

namespace LayeredConfig

/-! ## The history of a run -/

namespace Step

/-- What a step tells the record, where it keeps no value that is there already. -/
def event? : Step → Option TrackerEvent
  | .enter context => some (.enter context)
  | .leave => some .leave
  | .assign _ key f => some (.define key f.names)
  | .append key f => some (.define key f.names)
  | _ => none

/-- What steps tell the record. -/
def history (steps : List Step) : List TrackerEvent := steps.filterMap event?

variable {step : Step}

/-- **Step.** A step changes the record by what it tells. -/
theorem tracker_run (files : Snapshot) (h : step.Overwrites) (s : Session) :
    (step.run files s).tracker = step.event?.elim s.tracker s.tracker.record := by
  cases step with
  | assign overwrite key f =>
    obtain rfl : overwrite = true := h
    rfl
  | «include» target base =>
    unfold run
    dsimp only
    split
    · exact Session.tracker_queueInclude _ _ _ _
    · rfl
  | _ => rfl

/-- A definition is told with the key and the names that the step accounts for. -/
theorem of_event?_define {key : String} {dependencies : List String}
    (h : step.event? = some (.define key dependencies)) :
    step.accounted = key :: dependencies ∧ step.names = dependencies := by
  cases step with
  | assign overwrite key' f =>
    obtain ⟨rfl, rfl⟩ := TrackerEvent.define.inj (Option.some.inj h)
    exact ⟨rfl, rfl⟩
  | append key' f =>
    obtain ⟨rfl, rfl⟩ := TrackerEvent.define.inj (Option.some.inj h)
    exact ⟨rfl, rfl⟩
  | _ => cases h

/-- What a step refers to is among what it accounts for. -/
theorem mem_accounted_of_mem_names {name : String} (h : name ∈ step.names) :
    name ∈ step.accounted := by
  cases step with
  | assign overwrite key f => exact List.mem_cons_of_mem key h
  | append key f => exact List.mem_cons_of_mem key h
  | _ => exact nomatch h

/-- A use in the history is a reference of some step. -/
theorem exists_of_usesUndefined {steps : List Step} {name : String}
    (h : TrackerHistory.UsesUndefined (history steps) name) :
    ∃ before step rest, steps = before ++ step :: rest ∧ name ∈ step.names := by
  obtain ⟨events, key, dependencies, later, hhistory, hname, -⟩ := h
  have hevent : .define key dependencies ∈ history steps := by
    rw [hhistory]
    exact List.mem_append_right _ List.mem_cons_self
  obtain ⟨step, hstep, htells⟩ := List.mem_filterMap.mp hevent
  obtain ⟨before, rest, hsplit⟩ := List.append_of_mem hstep
  obtain ⟨-, hnames⟩ := of_event?_define htells
  exact ⟨before, step, rest, hsplit, hnames ▸ hname⟩

end Step

namespace Session

variable (files : Snapshot) {s : Session} {steps : List Step}

/-- **Run.** A run changes the record by its history. -/
theorem tracker_runAll (h : ∀ step ∈ steps, step.Overwrites) (s : Session) :
    (s.runAll files steps).tracker = (Step.history steps).foldl Tracker.record s.tracker := by
  induction steps generalizing s with
  | nil => rfl
  | cons step rest ih =>
    obtain ⟨hstep, hrest⟩ := List.forall_mem_cons.mp h
    rw [runAll_cons, ih hrest, step.tracker_run files hstep]
    unfold Step.history
    rw [List.filterMap_cons]
    cases step.event? <;> rfl

/-- A run that begins with nothing recorded leaves the record that its history says. -/
theorem reflects_runAll (hempty : s.tracker = .empty) (h : ∀ step ∈ steps, step.Overwrites) :
    TrackerHistory.Reflects (Step.history steps) (s.runAll files steps).tracker := by
  rw [tracker_runAll files h, hempty]
  exact TrackerHistory.reflects_empty.foldl (Step.history steps)

end Session

/-! ## Resolved references -/

namespace Step

/-- The key that a step defines without dependencies, if it does. -/
def settled? (step : Step) : Option String :=
  match step.event? with
  | some (.define key []) => some key
  | _ => none

/-- The last of some steps that writes something related to a name. -/
def lastRelated? (a : Addressing) (name : String) (steps : List Step) : Option Step :=
  steps.findRev? fun step => decide (∃ key ∈ step.key?, a.Related key name)

variable {step : Step}

/-- A step that settles a key defines it, without dependencies. -/
theorem event?_of_settled? {key : String} (h : step.settled? = some key) :
    step.event? = some (.define key []) := by
  unfold settled? at h
  split at h
  · next key' hevent =>
    obtain rfl := Option.some.inj h
    exact hevent
  · exact nomatch h

/-- What is written comes to the store. -/
theorem store_run_of_write? (files : Snapshot) {s : Session} {w : Write}
    (h : step.write? s.store = some w) : (step.run files s).store = s.store.set w.key w.value := by
  cases step with
  | assign overwrite key f =>
    rw [write?] at h
    split at h
    · next hwrite =>
      obtain rfl := Option.some.inj h
      show (s.defineUnless overwrite key (f.value s.store) f.names).store = _
      unfold Session.defineUnless
      rw [if_pos hwrite]
      rfl
    · cases h
  | append key f =>
    obtain rfl := Option.some.inj h
    rfl
  | put key v =>
    obtain rfl := Option.some.inj h
    rfl
  | _ => cases h

/-- What is told of a write is its key and its names. -/
theorem event?_of_write? {store : Store} {w : Write} {names : List String}
    (h : step.write? store = some w) (hnames : w.names? = some names) :
    step.event? = some (.define w.key names) := by
  cases step with
  | assign overwrite key f =>
    rw [write?] at h
    split at h
    · obtain rfl := Option.some.inj h
      obtain rfl := Option.some.inj hnames
      rfl
    · cases h
  | append key f =>
    obtain rfl := Option.some.inj h
    obtain rfl := Option.some.inj hnames
    rfl
  | put key v =>
    obtain rfl := Option.some.inj h
    cases hnames
  | _ => cases h

/-- Of a definition there is a write, if it keeps no value that is there already. -/
theorem exists_write_of_event? (h : step.Overwrites) {key : String} {names : List String}
    (hevent : step.event? = some (.define key names)) (store : Store) :
    ∃ v, step.write? store = some ⟨key, v, some names⟩ := by
  cases step with
  | assign overwrite key' f =>
    obtain rfl : overwrite = true := h
    obtain ⟨rfl, rfl⟩ := TrackerEvent.define.inj (Option.some.inj hevent)
    exact ⟨_, rfl⟩
  | append key' f =>
    obtain ⟨rfl, rfl⟩ := TrackerEvent.define.inj (Option.some.inj hevent)
    exact ⟨_, rfl⟩
  | _ => cases hevent

/-- Behind the last step that is related to a name all steps avoid it. -/
theorem exists_of_lastRelated? {a : Addressing} {name : String} {steps : List Step}
    (h : lastRelated? a name steps = some step) :
    ∃ before rest, steps = before ++ step :: rest ∧ ∀ other ∈ rest, other.Avoids a name := by
  unfold lastRelated? at h
  rw [List.findRev?_eq_find?_reverse, List.find?_eq_some_iff_append] at h
  obtain ⟨-, rest, before, hreverse, hrest⟩ := h
  refine ⟨before.reverse, rest.reverse, ?_, fun other hother key hkey hrelated => ?_⟩
  · rw [← List.reverse_reverse steps, hreverse, List.reverse_append, List.reverse_cons,
      List.append_assoc]
    rfl
  · have hother := hrest other (List.mem_reverse.mp hother)
    rw [Bool.not_eq_true', decide_eq_false_iff_not] at hother
    exact hother ⟨key, hkey, hrelated⟩

end Step

namespace Session

/-- After some steps a name reads what one of them has written, under a key that is taken for
    the name, and from no other names. -/
def ReadsSettled (files : Snapshot) (s : Session) (steps : List Step) (name : String) : Prop :=
  ∃ before step rest w, steps = before ++ step :: rest ∧
    step.write? (s.runAll files before).store = some w ∧ w.names? = some [] ∧
    s.store.path w.key = s.store.path name ∧
    (s.runAll files steps).store.get? name = some (s.store.addressing.stored w.value)

/-- Every reference to a name reads what an earlier step has written from no other names. -/
def Resolves (files : Snapshot) (s : Session) (steps : List Step) (name : String) : Prop :=
  ∀ before step rest, steps = before ++ step :: rest → name ∈ step.names →
    s.ReadsSettled files before name

variable (files : Snapshot) {s : Session} {steps : List Step} {name : String}

/-- **The last word.** A name reads what the last step that is related to it has written, if
    that is a definition without dependencies under some spelling of the name. -/
theorem readsSettled_of_last {last : Step} {key : String}
    (hlast : Step.lastRelated? s.store.addressing name steps = some last)
    (hoverwrites : last.Overwrites) (hkey : last.settled? = some key)
    (hpath : s.store.path key = s.store.path name) : s.ReadsSettled files steps name := by
  obtain ⟨before, rest, hsplit, hrest⟩ := Step.exists_of_lastRelated? hlast
  obtain ⟨v, hwrite⟩ := Step.exists_write_of_event? hoverwrites (Step.event?_of_settled? hkey)
    (s.runAll files before).store
  refine ⟨before, last, rest, _, hsplit, hwrite, rfl, hpath, ?_⟩
  have haddr := s.addressing_runAll files before
  have hnext := last.addressing_run files (s.runAll files before)
  -- The steps behind it leave alone what the name reads.
  have hkept : (s.runAll files steps).store.get? name =
      (last.run files (s.runAll files before)).store.get? name := by
    rw [hsplit, runAll_append, runAll_cons]
    apply get?_runAll_of_not_related files
    rw [hnext, haddr]
    exact hrest
  have hsame : (s.runAll files before).store.path name =
      (s.runAll files before).store.path key := by
    unfold Store.path at hpath ⊢
    rw [haddr, hpath]
  rw [hkept, Step.store_run_of_write? files hwrite, (Store.writeLaws _ _ _ _).same hsame, haddr]

/-- **References are resolved** if the last step before each of them that is related to the
    name is a definition without dependencies, under some spelling of the name. -/
theorem resolves_of_last (hoverwrites : ∀ step ∈ steps, step.Overwrites)
    (h : ∀ i < steps.length, ∀ step ∈ steps[i]?, name ∈ step.names →
      ∃ last ∈ Step.lastRelated? s.store.addressing name (steps.take i),
        ∃ key ∈ last.settled?, s.store.path key = s.store.path name) :
    s.Resolves files steps name := by
  intro before step rest hsplit hname
  subst hsplit
  obtain ⟨last, hlast, key, hkey, hpath⟩ := h before.length (by simp) step (by simp) hname
  rw [List.take_left] at hlast
  obtain ⟨front, back, hbefore, -⟩ := Step.exists_of_lastRelated? hlast
  have hmem : last ∈ before := by
    rw [hbefore]
    exact List.mem_append_right _ List.mem_cons_self
  have hoverwrite := hoverwrites last (List.mem_append_left _ hmem)
  exact readsSettled_of_last files hlast hoverwrite hkey hpath

end Session

/-! ## Spellings -/

/-- The steps of a path are in lower case where the key is. -/
theorem Separator.map_lower_split {separator : Separator} {key : String}
    (h : Text.lower key = key) : (separator.split key).map Text.lower = separator.split key := by
  rw [Text.lower_eq_iff_isFinal] at h
  have hsteps : ∀ step ∈ separator.split key, Text.lower step = step := by
    intro step hstep
    exact Text.lower_eq_iff_isFinal.mpr fun c hc => h c (mem_of_mem_split hstep hc)
  exact (List.map_congr_left hsteps).trans (List.map_id _)

/-- **Lower case has one spelling.** Keys that a store takes for each other are the same where
    it regards case, and where they are in lower case. -/
theorem Addressing.eq_of_path_eq {a : Addressing} {key name : String}
    (h : a.path key = a.path name)
    (hcase : (∃ separator, a = .paths separator) ∨
      (Text.lower key = key ∧ Text.lower name = name)) : key = name := by
  rcases hcase with ⟨separator, rfl⟩ | ⟨hkey, hname⟩
  · exact Separator.split_inj h
  · cases a with
    | paths separator => exact Separator.split_inj h
    | names =>
      have hlower : Text.lower key = Text.lower name := (List.cons.inj h).1
      rwa [hkey, hname] at hlower
    | caselessPaths separator =>
      replace h : (separator.split key).map Text.lower = (separator.split name).map Text.lower := h
      rw [Separator.map_lower_split hkey, Separator.map_lower_split hname] at h
      exact Separator.split_inj h

namespace Source

/-- Whether a source is read so that its keys and the names that it refers to are put in lower
    case. In a document only the outermost keys are. -/
def LowersNames : Source → Prop
  | .conf _ o => o.lower = true
  | .document _ _ _ => False
  | .plain _ => True

instance : (source : Source) → Decidable source.LowersNames
  | .conf _ o => inferInstanceAs (Decidable (o.lower = true))
  | .document _ _ _ => inferInstanceAs (Decidable False)
  | .plain _ => inferInstanceAs (Decidable True)

/-- Whether the keys that a source defines and the names that it refers to are in lower case. -/
def InLowerCase (queued : Bool) (source : Source) : Prop :=
  ∀ name ∈ (source.steps queued).flatMap Step.accounted, Text.lower name = name

instance (queued : Bool) (source : Source) : Decidable (source.InLowerCase queued) :=
  inferInstanceAs (Decidable (∀ name ∈ (source.steps queued).flatMap Step.accounted,
    Text.lower name = name))

end Source

namespace Conf

/-- What is left of a key without its append mark stands in the key. -/
theorem mem_of_takeAppendMark {key : List Char} :
    ∀ c ∈ (takeAppendMark key).1, c ∈ key := by
  intro c hc
  rcases takeAppendMark_eq_iff.mp (Prod.eta (takeAppendMark key)).symm with
    ⟨-, hkey⟩ | ⟨-, hkey, -⟩
  · rw [hkey]
    exact List.mem_append_left _ hc
  · rwa [hkey]

/-- The key of a line that is read in lower case is in lower case. -/
theorem lower_key_of_ofLine? {o : Options} (ho : o.lower = true) {line : List Char}
    {a : Assignment} (h : Assignment.ofLine? o line = some a) : Text.lower a.key = a.key := by
  obtain ⟨parts, -, ha⟩ := Option.bind_eq_some_iff.mp h
  obtain ⟨key, hkey⟩ : ∃ key, a.key = String.ofList (rewriteNamespace (takeAppendMark
      (if o.lower then (Text.lower (String.ofList key)).toList else key)).1) :=
    ⟨_, (congrArg Assignment.key (Option.some.inj ha)).symm⟩
  rw [if_pos ho] at hkey
  rw [hkey, Text.lower_eq_iff_isFinal, String.toList_ofList]
  intro c hc
  -- The marks that are put in are in lower case, and all the rest is lower-cased text.
  rcases mem_of_mem_rewriteNamespace hc with rfl | rfl | hmem
  · decide +kernel
  · decide +kernel
  · exact Text.lower_eq_iff_isFinal.mp (Text.lower_lower _) c (mem_of_takeAppendMark c hmem)

/-- The names that such a line refers to are in lower case. -/
theorem Assignment.lower_of_mem_names {o : Options} (ho : o.lower = true) {a : Assignment}
    {name : String} (h : name ∈ a.names o) : Text.lower name = name := by
  unfold names at h
  split at h
  · exact nomatch h
  · unfold Reference.namesOf at h
    rw [List.mem_eraseDups] at h
    obtain ⟨r, -, rfl⟩ := List.mem_map.mp h
    unfold Reference.shellName
    dsimp only
    rw [if_pos ho, Text.lower_lower]

end Conf

namespace Source

theorem LowersNames.inLowerCase {source : Source} (h : source.LowersNames) (queued : Bool) :
    source.InLowerCase queued := by
  intro name hname
  obtain ⟨step, hstep, hname⟩ := List.mem_flatMap.mp hname
  cases stepCase_of_mem hstep with
  | @assignment content o a ha =>
    obtain ⟨line, -, hline⟩ := List.mem_filterMap.mp ha
    have haccounted : name ∈ a.key :: a.names o := by
      unfold Conf.stepOf at hname
      split at hname
      · exact nomatch hname
      · split at hname <;> exact hname
    rcases List.mem_cons.mp haccounted with rfl | hreferred
    · exact Conf.lower_key_of_ofLine? h hline
    · exact Conf.Assignment.lower_of_mem_names h hreferred
  | leaf codec content o leaf => exact h.elim
  | _ => exact nomatch hname

/-- The steps of sources that overwrite do so. -/
theorem overwrites_of_mem {sources : List Source} (h : ∀ source ∈ sources, source.Overwrites)
    {queued : Bool} : ∀ step ∈ sources.flatMap (Source.steps queued), step.Overwrites := by
  intro step hstep
  obtain ⟨source, hsource, hmem⟩ := List.mem_flatMap.mp hstep
  exact (h source hsource).steps queued step hmem

/-- The steps of sources that define and refer in lower case do so. -/
theorem lower_of_mem_accounted {sources : List Source} {queued : Bool}
    (h : ∀ source ∈ sources, source.LowersNames ∨ source.InLowerCase queued) {step : Step}
    (hstep : step ∈ sources.flatMap (Source.steps queued)) :
    ∀ name ∈ step.accounted, Text.lower name = name := by
  obtain ⟨source, hsource, hmem⟩ := List.mem_flatMap.mp hstep
  have hlower : source.InLowerCase queued := (h source hsource).elim (·.inLowerCase queued) id
  exact fun name hname => hlower name (List.mem_flatMap.mpr ⟨step, hmem, hname⟩)

end Source

/-! ## Sources -/

/-- **Externals by spelling.** Apply sources that overwrite to a store of any kind, with or
    without a queue, where nothing has been recorded. Then a name is external exactly if some
    definition refers to it before anything is defined under this spelling, and nothing is
    ever defined without dependencies under this spelling. So a name, every reference to which
    reads what an earlier definition without dependencies has written, is not external if the
    store regards case, or if the sources define and refer in lower case. -/
theorem externals_by_spelling (files : Snapshot) (sources : List Source) (s : Session)
    (name : String) (hempty : s.tracker = .empty)
    (hsources : ∀ source ∈ sources, source.Overwrites) :
    ∃ s', s.processAll files sources = .ok s' ∧
      (name ∈ s'.tracker.externals.keys ↔
        TrackerHistory.UsesUndefined
            (Step.history (sources.flatMap (Source.steps s.queue.isSome))) name ∧
          ¬ TrackerHistory.Settles
            (Step.history (sources.flatMap (Source.steps s.queue.isSome))) name) ∧
      (s.Resolves files (sources.flatMap (Source.steps s.queue.isSome)) name →
        ((∃ separator, s.store.addressing = .paths separator) ∨
          ∀ source ∈ sources, source.LowersNames ∨ source.InLowerCase s.queue.isSome) →
        name ∉ s'.tracker.externals.keys) := by
  refine ⟨_, Session.processAll_eq_runAll files s sources, ?_⟩
  set program := sources.flatMap (Source.steps s.queue.isSome) with hprogram
  have hoverwrites : ∀ step ∈ program, step.Overwrites := Source.overwrites_of_mem hsources
  have hexternal := (Session.reflects_runAll files hempty hoverwrites).external name
  rw [← Entries.mem_keys_iff] at hexternal
  refine ⟨hexternal, fun hresolves hcase hname => ?_⟩
  obtain ⟨hused, hunsettled⟩ := hexternal.mp hname
  -- The first reference has read a write that settles its own spelling.
  obtain ⟨before, step, rest, hsplit, hrefers⟩ := Step.exists_of_usesUndefined hused
  obtain ⟨front, settling, back, w, hbefore, hwrite, hnone, hpath, -⟩ :=
    hresolves before step rest hsplit hrefers
  have hevent := Step.event?_of_write? hwrite hnone
  have hstep : step ∈ program := by
    rw [hsplit]
    exact List.mem_append_right _ List.mem_cons_self
  have hsettling : settling ∈ program := by
    rw [hsplit, hbefore]
    exact List.mem_append_left _ (List.mem_append_right _ List.mem_cons_self)
  have hkey : w.key = name := by
    apply Addressing.eq_of_path_eq hpath
    refine hcase.imp id fun hsources => ?_
    have haccounted := Source.lower_of_mem_accounted hsources hsettling
    rw [(Step.of_event?_define hevent).1] at haccounted
    exact ⟨haccounted w.key List.mem_cons_self,
      Source.lower_of_mem_accounted hsources hstep name (Step.mem_accounted_of_mem_names hrefers)⟩
  rw [hkey] at hevent
  exact hunsettled (List.mem_filterMap.mpr ⟨settling, hsettling, hevent⟩)

/-- An assignment file that spells a name in capitals, and a document that refers to it in
    lower case: over a flat store the name is not external. -/
theorem externals_by_spelling_of_capitals :
    ∃ s', (Session.fresh (.flat [("base", .null)])).processAll ⟨fun _ => none⟩
        [.conf "BASE=/srv\nlogs=$Base/logs".toList .standard,
          .document .json "\x7b\"Out\": \"$\x7bbase\x7d/out\"\x7d".toList .standard] = .ok s' ∧
      "base" ∉ s'.tracker.externals.keys := by
  obtain ⟨s', hprocess, -, hresolved⟩ := externals_by_spelling ⟨fun _ => none⟩
    [.conf "BASE=/srv\nlogs=$Base/logs".toList .standard,
      .document .json "\x7b\"Out\": \"$\x7bbase\x7d/out\"\x7d".toList .standard]
    (Session.fresh (.flat [("base", .null)])) "base" rfl (by decide)
  refine ⟨s', hprocess, hresolved ?_ (.inr (by decide +kernel))⟩
  exact Session.resolves_of_last _ (Source.overwrites_of_mem (by decide)) (by decide +kernel)

/-- **A name can be resolved and external.** A document refers to its own member by the name
    as it is written there, where a flat store finds it; and an assignment file refers in lower
    case to a member that a document has put into a caseless store in capitals. -/
theorem resolved_but_external :
    ((Session.fresh (.flat [])).Resolves ⟨fun _ => none⟩
        (Source.program [.document .json
          "\x7b\"Name\": \"x\", \"out\": \"$\x7bName\x7d\"\x7d".toList .standard]) "Name" ∧
      ∃ s', (Session.fresh (.flat [])).processAll ⟨fun _ => none⟩ [.document .json
          "\x7b\"Name\": \"x\", \"out\": \"$\x7bName\x7d\"\x7d".toList .standard] = .ok s' ∧
        "Name" ∈ s'.tracker.externals.keys) ∧
    ((Session.fresh (.caseless .empty)).Resolves ⟨fun _ => none⟩
        (Source.program [.document .json
            "\x7b\"db\": \x7b\"HOST\": \"x\"\x7d\x7d".toList .standard,
          .conf "out=$\x7bdb::host\x7d".toList .standard]) "db::host" ∧
      ∃ s', (Session.fresh (.caseless .empty)).processAll ⟨fun _ => none⟩
          [.document .json "\x7b\"db\": \x7b\"HOST\": \"x\"\x7d\x7d".toList .standard,
            .conf "out=$\x7bdb::host\x7d".toList .standard] = .ok s' ∧
        "db::host" ∈ s'.tracker.externals.keys) := by
  refine ⟨⟨?flat, _, Session.processAll_eq _ rfl _, by decide +kernel⟩,
    ⟨?caseless, _, Session.processAll_eq _ rfl _, by decide +kernel⟩⟩
  case flat =>
    exact Session.resolves_of_last _ (Source.overwrites_of_mem (by decide)) (by decide +kernel)
  case caseless =>
    exact Session.resolves_of_last _ (Source.overwrites_of_mem (by decide)) (by decide +kernel)

end LayeredConfig
