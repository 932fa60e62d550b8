import LayeredConfig.Proofs.IndependentSources
import LayeredConfig.Proofs.LoadTurns

/-! # What a load accounts for

    A name is accounted for where the record has a definition of it or holds it external.
    A definition accounts for its key and for the names that its value was made from, and
    what has been accounted for stays so: a name stops being external only when it is
    defined.

    So where everything is overwritten, what a load accounts for after any number of turns
    can be read off the files that have been applied. These are the keys that they assign
    and the names that those assignments refer to. Includes are left out: the name of an
    included file is expanded, but nothing is recorded of it. A name that occurs only there
    decides which files are loaded, and is not accounted for.

    **Main result.** `Loader.accounts_afterTurns`.
-/

namespace LayeredConfig

/-! ## The record -/

namespace Tracker

/-- Whether a name is defined or external. -/
def Accounts (t : Tracker) (name : String) : Prop :=
  t.definitions.contains name = true ∨ name ∈ t.externals.keys

instance (t : Tracker) (name : String) : Decidable (t.Accounts name) :=
  inferInstanceAs (Decidable (_ ∨ _))

theorem not_accounts_empty (name : String) : ¬ empty.Accounts name := by
  rintro (hdefined | hexternal)
  · exact nomatch hdefined
  · exact nomatch hexternal

/-- A definition accounts for its key and its dependencies, and keeps what was accounted
    for. -/
theorem accounts_define (t : Tracker) (key : String) (dependencies : List String)
    (name : String) :
    (t.define key dependencies).Accounts name ↔
      t.Accounts name ∨ name ∈ key :: dependencies := by
  unfold Accounts
  rw [Entries.mem_keys_iff, Entries.mem_keys_iff, contains_externals_define,
    contains_definitions_define, List.mem_cons]
  by_cases hname : name = key
  · simp [hname]
  · -- A name that is used becomes external unless it is defined.
    cases t.definitions.contains name <;> simp [hname]

theorem accounts_leave (t : Tracker) (name : String) :
    t.leave.Accounts name ↔ t.Accounts name := by
  rw [leave_eq]
  exact Iff.rfl

end Tracker

/-! ## Steps -/

namespace Step

/-- What a step accounts for: its key, and the names that it refers to. -/
def accounted : Step → List String
  | .assign _ key f => key :: f.names
  | .append key f => key :: f.names
  | _ => []

/-- A step that keeps no value that is there already. -/
def Overwrites : Step → Prop
  | .assign overwrite _ _ => overwrite = true
  | _ => True

variable (files : Snapshot)

/-- **Step.** What is accounted for after a step. -/
theorem accounts_run {step : Step} (h : step.Overwrites) (s : Session) (name : String) :
    (step.run files s).tracker.Accounts name ↔
      s.tracker.Accounts name ∨ name ∈ step.accounted := by
  cases step with
  | assign overwrite key f =>
    obtain rfl : overwrite = true := h
    exact s.tracker.accounts_define key f.names name
  | append key f => exact s.tracker.accounts_define key f.names name
  | leave =>
    show s.tracker.leave.Accounts name ↔ _
    simp [Tracker.accounts_leave, accounted]
  | «include» target base =>
    -- Whether or not there is a queue, the record is left alone.
    unfold run
    dsimp only
    split <;> simp [accounted]
  | enter context => exact (or_iff_left List.not_mem_nil).symm
  | put key v => exact (or_iff_left List.not_mem_nil).symm
  | note n => exact (or_iff_left List.not_mem_nil).symm

end Step

/-- **Run.** What is accounted for after steps. -/
theorem Session.accounts_runAll (files : Snapshot) {steps : List Step}
    (h : ∀ step ∈ steps, step.Overwrites) (s : Session) (name : String) :
    (s.runAll files steps).tracker.Accounts name ↔
      s.tracker.Accounts name ∨ name ∈ steps.flatMap Step.accounted := by
  induction steps generalizing s with
  | nil => simp
  | cons step rest ih =>
    obtain ⟨hstep, hrest⟩ := List.forall_mem_cons.mp h
    rw [runAll_cons, ih hrest, step.accounts_run files hstep, List.flatMap_cons,
      List.mem_append, or_assoc]

/-! ## Sources -/

namespace Source

/-- What the settings of an assignment file account for, its includes apart. -/
def Conf.accounted (o : Options) (content : List Char) : List String :=
  ((Conf.assignments o content).filter fun a => !a.isInclude).flatMap fun a => a.key :: a.names o

/-- The names that the includes of an assignment file refer to. -/
def Conf.includeNames (o : Options) (content : List Char) : List String :=
  ((Conf.assignments o content).filter fun a => a.isInclude).flatMap fun a => a.names o

/-- The leaves of a document that become settings where there is a queue. -/
def Document.settings (codec : Codec) (o : Options) (content : List Char) :
    List (List String × Value) :=
  match Document.root codec content with
  | .ok fields =>
    Value.fieldLeaves false (Document.splitIncludes o true (Document.members o fields)).2
  | .error _ => []

/-- What the settings of a document account for. -/
def Document.accounted (codec : Codec) (o : Options) (content : List Char) : List String :=
  (Document.settings codec o content).flatMap fun leaf =>
    o.keySeparator.join leaf.1 :: (Document.leafFormula o leaf.2).names

/-- What a source accounts for where there is a queue: the keys of its settings, and the
    names that they refer to. Of a plain value nothing is recorded. -/
def accounted : Source → List String
  | .conf content o => Conf.accounted o content
  | .document codec content o => Document.accounted codec o content
  | .plain _ => []

/-- The names that the includes of a source refer to. Those of a document are not expanded. -/
def includeNames : Source → List String
  | .conf content o => Conf.includeNames o content
  | .document _ _ _ => []
  | .plain _ => []

/-- The names that the lines or leaves of a source refer to, its includes among them. -/
def references : Source → List String
  | .conf content o => Conf.names o content
  | .document codec content o =>
    (Document.settings codec o content).flatMap fun leaf => (Document.leafFormula o leaf.2).names
  | .plain _ => []

/-- What a source refers to is accounted for by its settings, or it is in an include. -/
theorem accounted_or_include {source : Source} {name : String} (h : name ∈ source.references) :
    name ∈ source.accounted ∨ name ∈ source.includeNames := by
  cases source with
  | conf content o =>
    obtain ⟨a, ha, hname⟩ := List.mem_flatMap.mp h
    cases hinclude : a.isInclude with
    | true =>
      right
      exact List.mem_flatMap.mpr ⟨a, List.mem_filter.mpr ⟨ha, hinclude⟩, hname⟩
    | false =>
      left
      refine List.mem_flatMap.mpr ⟨a, List.mem_filter.mpr ⟨ha, ?_⟩, List.mem_cons_of_mem _ hname⟩
      simp [hinclude]
  | document codec content o =>
    obtain ⟨leaf, hleaf, hname⟩ := List.mem_flatMap.mp h
    exact .inl (List.mem_flatMap.mpr ⟨leaf, hleaf, List.mem_cons_of_mem _ hname⟩)
  | plain data => exact nomatch h

/-- The options of a source that has any overwrite. -/
def Overwrites : Source → Prop
  | .conf _ o => o.overwrite = true
  | .document _ _ o => o.overwrite = true
  | .plain _ => True

instance : (source : Source) → Decidable source.Overwrites
  | .conf _ o => inferInstanceAs (Decidable (o.overwrite = true))
  | .document _ _ o => inferInstanceAs (Decidable (o.overwrite = true))
  | .plain _ => inferInstanceAs (Decidable True)

theorem Overwrites.steps {source : Source} (h : source.Overwrites) (queued : Bool) :
    ∀ step ∈ source.steps queued, step.Overwrites := by
  intro step hstep
  cases stepCase_of_mem hstep with
  | assignment content o ha =>
    unfold Conf.stepOf
    split
    · trivial
    · split
      · trivial
      · exact h
  | leaf codec content o leaf => exact h
  | _ => trivial

theorem flatMap_accounted_within (context : String) (steps : List Step) :
    (Step.within context steps).flatMap Step.accounted = steps.flatMap Step.accounted := by
  simp [Step.within, Step.accounted]

theorem Conf.accounted_stepOf (o : Options) (a : LayeredConfig.Conf.Assignment) :
    (Conf.stepOf o true a).accounted = if a.isInclude then [] else a.key :: a.names o := by
  unfold Conf.stepOf
  cases a.isInclude <;> cases a.append <;> rfl

theorem Document.flatMap_accounted_splitIncludes (o : Options) (queued : Bool)
    (fields : Entries Value) :
    (Document.splitIncludes o queued fields).1.flatMap Step.accounted = [] := by
  rw [List.flatMap_eq_nil_iff]
  intro step hstep
  rcases Document.eq_of_mem_splitIncludes hstep with ⟨target, rfl⟩ | ⟨n, rfl⟩
  · rfl
  · rfl

/-- What a source accounts for is what its steps account for. -/
theorem flatMap_accounted_steps (source : Source) :
    (source.steps true).flatMap Step.accounted = source.accounted := by
  cases source with
  | conf content o =>
    show (Conf.steps o content true).flatMap Step.accounted = Conf.accounted o content
    unfold Conf.steps Conf.accounted
    -- The steps of includes account for nothing, and are left out of the file's account.
    rw [flatMap_accounted_within, List.flatMap_map]
    simp only [Conf.accounted_stepOf]
    induction Conf.assignments o content with
    | nil => rfl
    | cons a rest ih =>
      rw [List.flatMap_cons, ih]
      cases hinclude : a.isInclude <;> simp [hinclude]
  | document codec content o =>
    show (Document.steps codec o content true).flatMap Step.accounted =
      Document.accounted codec o content
    unfold Document.steps Document.accounted Document.settings Document.memberSteps
    cases Document.root codec content with
    | error failure => rfl
    | ok fields =>
      dsimp only
      rw [List.flatMap_append, Document.flatMap_accounted_splitIncludes, List.nil_append,
        flatMap_accounted_within, List.flatMap_map]
      rfl
  | plain data =>
    show (Plain.steps data).flatMap Step.accounted = []
    unfold Plain.steps
    rw [List.flatMap_map]
    exact List.flatMap_eq_nil_iff.mpr fun _ _ => rfl

end Source

/-! ## Turns of a load -/

namespace Loader

variable (files : Snapshot)

/-- The source that is applied in the next turn of a load: the first file that waits, if it
    can be read and has a format. -/
def nextSource? (l : Loader) : Option Source :=
  l.files.queued.head?.bind fun p => (files.read? p).bind fun bytes =>
    Source.ofFormatName? (formatNameOf p) (Text.decodeLossy bytes) (l.optionsFor p)

/-- A load after a number of turns. -/
def afterTurns : Nat → Loader → Loader
  | 0, l => l
  | n + 1, l => (l.turn files).afterTurns n

/-- The sources that are applied in a number of turns. -/
def sourcesOf : Nat → Loader → List Source
  | 0, _ => []
  | n + 1, l => (l.nextSource? files).toList ++ (l.turn files).sourcesOf n

variable {files} {l : Loader}

theorem afterTurns_done (hqueued : l.files.queued = []) (n : Nat) :
    l.afterTurns files n = l := by
  induction n with
  | zero => rfl
  | succ n ih =>
    show (l.turn files).afterTurns files n = l
    rw [turn_done files hqueued, ih]

/-- **The end of a load** is where its turns lead. -/
theorem eq_afterTurns {limit : Nat} {l' : Loader} {failure : Option Failure}
    (hload : l.loadWithin? files limit = some (l', failure)) : l' = l.afterTurns files limit := by
  have hrun := load_induction files (P := fun limit l l' => l' = l.afterTurns files limit)
    ?done ?next hload
  case done => exact fun limit l hqueued => (afterTurns_done hqueued limit).symm
  case next => exact fun limit l l' p rest hqueued ih => ih
  exact hrun.2

theorem options_turn : (l.turn files).options = l.options := by
  cases hqueued : l.files.queued with
  | nil => rw [turn_done files hqueued]
  | cons p rest => exact (Turn.of_queued files hqueued).options

/-- The sources of a load that overwrites do so. -/
theorem overwrites_ofFormat (h : l.options.overwrite = true) (p : Path) (format : Format)
    (content : List Char) : (Source.ofFormat format content (l.optionsFor p)).Overwrites := by
  cases format with
  | plain => trivial
  | _ => exact h

/-- **Step.** What is accounted for after a turn. -/
theorem accounts_turn (h : l.options.overwrite = true) (name : String) :
    (l.turn files).tracker.Accounts name ↔
      l.tracker.Accounts name ∨ ∃ source ∈ l.nextSource? files, name ∈ source.accounted := by
  cases hqueued : l.files.queued with
  | nil =>
    rw [turn_done files hqueued]
    simp [nextSource?, hqueued]
  | cons p rest =>
    have hturn := Turn.of_queued files hqueued
    generalize l.turn files = next at hturn ⊢
    cases hturn with
    | passOver p rest notices hqueued hunread =>
      have hnone : l.nextSource? files = none := by
        unfold nextSource? Source.ofFormatName?
        rw [hqueued]
        rcases hunread with hgone | hformat
        · simp [(files.isReadable_eq_false_iff p).mp hgone]
        · simp [(hasFormat_eq_false_iff p).mp hformat]
      simp [hnone]
    | apply p rest format bytes given notices hqueued hread hformat =>
      have hsource : l.nextSource? files =
          some (Source.ofFormat format (Text.decodeLossy bytes) (l.optionsFor p)) := by
        simp [nextSource?, hqueued, hread, Source.ofFormatName?, hformat]
      have hoverwrites := (overwrites_ofFormat h p format (Text.decodeLossy bytes)).steps true
      show (Session.runAll files _ (Source.steps true _)).tracker.Accounts name ↔ _
      rw [hsource, Session.accounts_runAll files hoverwrites, Source.flatMap_accounted_steps]
      simp [takenSession]

/-- **Run.** What is accounted for after turns. -/
theorem accounts_afterTurns_iff (h : l.options.overwrite = true) (n : Nat) (name : String) :
    (l.afterTurns files n).tracker.Accounts name ↔
      l.tracker.Accounts name ∨ ∃ source ∈ l.sourcesOf files n, name ∈ source.accounted := by
  induction n generalizing l with
  | zero => simp [afterTurns, sourcesOf]
  | succ n ih =>
    have hoptions : (l.turn files).options.overwrite = true := by rw [options_turn, h]
    show ((l.turn files).afterTurns files n).tracker.Accounts name ↔ _
    -- The turns that follow add to what the first one has left.
    rw [ih hoptions, accounts_turn h, or_assoc]
    simp [sourcesOf, or_and_right, exists_or]

/-- **What a load accounts for.** In every load that overwrites, of whatever files and after
    any number of turns, every name that a line or leaf of an applied file refers to is
    accounted for, unless it is in an include. The names that are accounted for at all are
    the keys of the settings and the names that these refer to, so a name that occurs
    only in includes is not. A load that comes to an end is where its turns lead. -/
theorem accounts_afterTurns (files : Snapshot) (listed : List Path) (store : Store)
    {options : Options} (h : options.overwrite = true) (n : Nat) :
    (∀ source ∈ (new files listed store options).sourcesOf files n,
      ∀ name ∈ source.references, name ∈ source.includeNames ∨
        ((new files listed store options).afterTurns files n).tracker.Accounts name) ∧
    (∀ name, ((new files listed store options).afterTurns files n).tracker.Accounts name ↔
      ∃ source ∈ (new files listed store options).sourcesOf files n, name ∈ source.accounted) ∧
    (∀ l failure, (new files listed store options).loadWithin? files n = some (l, failure) →
      l = (new files listed store options).afterTurns files n) := by
  have haccounts : ∀ name,
      ((new files listed store options).afterTurns files n).tracker.Accounts name ↔
        ∃ source ∈ (new files listed store options).sourcesOf files n,
          name ∈ source.accounted := by
    intro name
    rw [accounts_afterTurns_iff (l := new files listed store options) h]
    exact or_iff_right (Tracker.not_accounts_empty name)
  refine ⟨?_, haccounts, fun l failure hload => eq_afterTurns hload⟩
  intro source hsource name hname
  rcases Source.accounted_or_include hname with haccounted | hinclude
  · exact .inr ((haccounts name).mpr ⟨source, hsource, haccounted⟩)
  · exact .inl hinclude

/-- A file `a.conf` with a text of characters in the ASCII range, and no other file. -/
def alone (text : List Char) : Snapshot :=
  .ofContents fun p =>
    if p.components = [.name "a.conf".toList] then
      some (text.map fun c => UInt8.ofNat c.toNat)
    else none

/-- A load of that file into an empty store. -/
def loadAlone (text : List Char) : Loader :=
  new (alone text) [⟨"a.conf".toList⟩] (.nested [] .standard) .standard

/-- A file that makes a setting from one name, and the name of an included file from
    another one. -/
def chosenFile : List Char := "home=$base/a\ninclude=$\x7bname\x7d.conf\n".toList

/-- A file with nothing but an include, the name of which is made from a name. -/
def chosenInclude : List Char := "include=$\x7bname\x7d.conf\n".toList

theorem accounts_afterTurns_of_chosen :
    ((loadAlone chosenFile).afterTurns (alone chosenFile) 1).tracker.Accounts "base" ∧
      ¬ ((loadAlone chosenFile).afterTurns (alone chosenFile) 1).tracker.Accounts "name" := by
  have hoverwrite : Options.standard.overwrite = true := rfl
  obtain ⟨_, haccounts, _⟩ := accounts_afterTurns (alone chosenFile) [⟨"a.conf".toList⟩]
    (.nested [] .standard) hoverwrite 1
  unfold loadAlone
  rw [haccounts, haccounts]
  decide +kernel

/-- **A name that occurs only in an include** is not accounted for: its file is applied, the
    load comes to an end, and nothing is recorded. -/
theorem include_not_accounted :
    (∃ source ∈ (loadAlone chosenInclude).sourcesOf (alone chosenInclude) 1,
      "name" ∈ source.references) ∧
    ∃ l, (loadAlone chosenInclude).loadWithin? (alone chosenInclude) 1 = some (l, none) ∧
      l.files.processed = [⟨"a.conf".toList⟩] ∧ ¬ l.tracker.Accounts "name" := by
  refine ⟨by decide +kernel, _, rfl, ?_, ?_⟩ <;> decide +kernel

end Loader

end LayeredConfig
