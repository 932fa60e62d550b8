import LayeredConfig.Proofs.LoadTurns
import LayeredConfig.Proofs.ScalarNames

/-! # One target, included in two formats

    An assignment file and a document of one directory include the same target. The document
    includes it as it is. In the assignment file, as in every line, the target is typed first,
    and what is included is the text of the value: a word in capitals is included in lower
    case, null is no target at all, and a number is included as numbers are written, without
    a plus sign, zeros in front or an exponent that is not needed.

    A target that is typed as anything but itself is a single name then, and another path than
    before. So the two files include the same exactly if typing gives the target back. Then they
    add the same to every load, unless the target is one of the two: a file that is being loaded
    is not queued again.

    **Main results.** `targets_conf` and `targets_document`: what either file includes;
    `includes_agree_iff`.
-/

namespace LayeredConfig

/-! ## Files that include one target -/

/-- A text that stands on a line as it is: it has no blanks around it, no references in it and
    no quote in front. -/
structure IsTarget (t : List Char) : Prop where
  trimmed : Text.trim t = t
  dollar : '$' ∉ t
  unquoted : ∀ c ∈ t.head?, c ≠ '\'' ∧ c ≠ '"'

/-- An assignment file and a JSON document in one directory: the only line of the one and the
    only member of the other include the same target. -/
structure IncludingFiles (t : List Char) where
  directory : Path
  conf : Path
  document : Path
  confBytes : List UInt8
  documentBytes : List UInt8
  directory_conf : conf.directory? = some directory
  directory_document : document.directory? = some directory
  format_conf : Format.ofName? (Loader.formatNameOf conf) = some .conf
  format_document : Format.ofName? (Loader.formatNameOf document) = some .json
  line : Text.lines (Text.decodeLossy confBytes) = ["include".toList ++ '=' :: t]
  member : Source.Document.root .json (Text.decodeLossy documentBytes) =
    .ok [("include", .string (String.ofList t))]

/-- Whether the two files are there. -/
def IncludingFiles.AreIn {t : List Char} (pair : IncludingFiles t) (files : Snapshot) : Prop :=
  files.read? pair.conf = some pair.confBytes ∧
    files.read? pair.document = some pair.documentBytes

/-- Whether loading one of two files leaves the same files waiting and missing as loading the
    other, and neither fails. -/
def AddAlike (first second : Loader × Option Failure) : Prop :=
  first.2 = none ∧ second.2 = none ∧ first.1.files.queued = second.1.files.queued ∧
    first.1.files.missing = second.1.files.missing

/-- The assignment that includes a target. -/
def includeAssignment (t : List Char) : Conf.Assignment := ⟨"include", false, t, none⟩

/-- The options that a file of a directory is read by, where the standard ones are used. -/
def fileOptions (p d : Path) : Options :=
  { Options.standard with name := some (String.ofList p.text), context := some d }

theorem optionsFor_eq {l : Loader} (hl : l.options = .standard) {p d : Path}
    (hp : p.directory? = some d) : l.optionsFor p = fileOptions p d := by
  unfold Loader.optionsFor
  rw [hl, hp]
  rfl

section targets

variable {t : List Char} (ht : IsTarget t) (p d : Path)
include ht

/-- The line is read as an include of the target. -/
theorem ofLine?_include :
    Conf.Assignment.ofLine? (fileOptions p d) ("include".toList ++ '=' :: t) =
      some (includeAssignment t) := by
  have hkey : Spells "include".toList "include" := by
    unfold Spells
    decide
  have hread := Conf.ofLine?_start (by decide) hkey false false t
  rw [ht.trimmed, Scalar.unquote_of_head ht.unquoted] at hread
  have hoptions : ∀ line, Conf.Assignment.ofLine? (fileOptions p d) line =
      Conf.Assignment.ofLine? .standard line := by
    intro line
    simp only [Conf.Assignment.ofLine?, fileOptions]
    congr
  rw [if_neg Bool.false_ne_true] at hread
  unfold Conf.startOf at hread
  rw [if_neg Bool.false_ne_true] at hread
  rw [hoptions]
  exact hread

theorem assignments_of_line {content : List Char}
    (hline : Text.lines content = ["include".toList ++ '=' :: t]) :
    Source.Conf.assignments (fileOptions p d) content = [includeAssignment t] := by
  have hlogical : Conf.logicalLines (fileOptions p d).multiline content =
      ["include".toList ++ '=' :: t] := by
    show Conf.foldLines (Text.lines content) = _
    rw [hline]
    rfl
  unfold Source.Conf.assignments
  rw [hlogical]
  exact List.filterMap_cons_some (ofLine?_include ht p d)

omit ht in
/-- The step of the assignment is an include, seen from the directory. -/
theorem stepOf_includeAssignment :
    Source.Conf.stepOf (fileOptions p d) true (includeAssignment t) =
      .include ((includeAssignment t).formula (fileOptions p d)) fun _ => some d := by
  have hinclude : (includeAssignment t).isInclude = true := by
    show ("include".toList.map Char.toLower == Conf.Assignment.includeKey.toList) = true
    decide
  unfold Source.Conf.stepOf
  rw [hinclude]
  rfl

theorem value_includeAssignment (store : Store) :
    ((includeAssignment t).formula (fileOptions p d)).value store = Scalar.typed t := by
  show (includeAssignment t).valueOf (fileOptions p d)
    (Reference.expandShell store true t).text = _
  rw [Reference.text_expandShell_of_not_mem ht.dollar]
  rfl

end targets

namespace IncludingFiles

variable {t : List Char} (pair : IncludingFiles t) {l : Loader} (hl : l.options = .standard)
  (files : Snapshot) (rest : List Path) (given : List Notice)
include hl

/-- **The assignment file** includes the text of the value that the target is typed as. -/
theorem targets_conf (ht : IsTarget t) :
    (l.takenSession pair.conf rest given).targets files
        (l.fileSteps pair.conf .conf pair.confBytes) =
      (resolveInclude (Scalar.typed t).text (some pair.directory)).toOption.toList := by
  have hsteps : l.fileSteps pair.conf .conf pair.confBytes =
      Step.within (String.ofList pair.conf.text)
        [.include ((includeAssignment t).formula (fileOptions pair.conf pair.directory))
          fun _ => some pair.directory] := by
    show Source.Conf.steps (l.optionsFor pair.conf) (Text.decodeLossy pair.confBytes) true = _
    unfold Source.Conf.steps
    rw [optionsFor_eq hl pair.directory_conf, assignments_of_line ht _ _ pair.line, List.map_cons,
      stepOf_includeAssignment]
    rfl
  rw [hsteps, Session.targets_within, Session.targets_cons]
  unfold Step.target? Session.targets
  dsimp only [Loader.takenSession, Option.bind_some]
  rw [value_includeAssignment ht, List.append_nil]

/-- **The document** includes the target as it is. -/
theorem targets_document :
    (l.takenSession pair.document rest given).targets files
        (l.fileSteps pair.document .json pair.documentBytes) =
      (resolveInclude t (some pair.directory)).toOption.toList := by
  have hsteps : l.fileSteps pair.document .json pair.documentBytes =
      .include (.const (.string (String.ofList t))) (fun _ => some pair.directory) ::
        Step.within (String.ofList pair.document.text) [] := by
    show Source.Document.steps .json (l.optionsFor pair.document)
      (Text.decodeLossy pair.documentBytes) true = _
    unfold Source.Document.steps
    rw [optionsFor_eq hl pair.directory_document, pair.member]
    rfl
  have hvalue : ∀ store, ((Formula.const (.string (String.ofList t))).value store).text = t :=
    fun _ => String.toList_ofList
  rw [hsteps, Session.targets_cons, Session.targets_within]
  unfold Step.target? Session.targets
  dsimp only [Loader.takenSession, Option.bind_some]
  rw [hvalue, List.append_nil]

end IncludingFiles

/-! ## What is queued -/

namespace FileQueue

variable (files : Snapshot)

/-- Which file is in hand does not matter for the others. -/
theorem addIncluded_alike (q : FileQueue) {p p' r : Path} (hp : r.same p = false)
    (hp' : r.same p' = false) (rest : List Path) :
    (addIncluded files (q.takeUp p rest) r).queued =
        (addIncluded files (q.takeUp p' rest) r).queued ∧
      (addIncluded files (q.takeUp p rest) r).missing =
        (addIncluded files (q.takeUp p' rest) r).missing := by
  have hknows : (q.takeUp p rest).knows r = (q.takeUp p' rest).knows r := by
    unfold knows takeUp
    rw [Option.any_some, Option.any_some, hp, hp']
  unfold addIncluded
  rw [hknows]
  split
  · exact ⟨rfl, rfl⟩
  · unfold classify takeUp
    split
    · exact ⟨rfl, rfl⟩
    · dsimp only
      split
      · exact ⟨rfl, rfl⟩
      · exact ⟨rfl, rfl⟩

/-- A file that nothing is known of is queued or missing, unless it is in hand. -/
theorem added_of_empty (p : Path) (found : Option Path) :
    (carryOut files empty p [] found.toList).queued ++
        (carryOut files empty p [] found.toList).missing =
      found.toList.filter fun r => !r.same p := by
  cases found with
  | none => rfl
  | some r =>
    have hknows : (takeUp empty p []).knows r = r.same p := by
      show (r.same p || false || false) = r.same p
      rw [Bool.or_false, Bool.or_false]
    show (addIncluded files (takeUp empty p []) r).queued ++
      (addIncluded files (takeUp empty p []) r).missing = _
    unfold addIncluded
    rw [hknows]
    cases hsame : r.same p with
    | true => simp [hsame, takeUp, empty]
    | false =>
      rw [if_neg Bool.false_ne_true]
      unfold classify
      split
      · simp [hsame, takeUp, empty]
      · simp [hsame, takeUp, empty, Path.isIn]

end FileQueue

namespace IncludingFiles

variable {t : List Char} (pair : IncludingFiles t)

/-- What the assignment file includes, if it can be included. -/
def typedTarget : Option Path :=
  (resolveInclude (Scalar.typed t).text (some pair.directory)).toOption

/-- What the document includes, if it can be included. -/
def plainTarget : Option Path := (resolveInclude t (some pair.directory)).toOption

/-- **Loading either file** does nothing to the queue but queue its target. -/
theorem addAlike_iff (ht : IsTarget t) {files : Snapshot} (hfiles : pair.AreIn files) {l : Loader}
    (hl : l.options = .standard) :
    AddAlike (l.loadOne files pair.conf none) (l.loadOne files pair.document none) ↔
      (l.files.carryOut files pair.conf l.files.queued pair.typedTarget.toList).queued =
        (l.files.carryOut files pair.document l.files.queued pair.plainTarget.toList).queued ∧
      (l.files.carryOut files pair.conf l.files.queued pair.typedTarget.toList).missing =
        (l.files.carryOut files pair.document l.files.queued pair.plainTarget.toList).missing := by
  obtain ⟨hconf, hdocument⟩ := hfiles
  obtain ⟨notices, hone⟩ :=
    Loader.loadOne_of_format (l := l) l.files.queued hconf pair.format_conf
  obtain ⟨notices', hone'⟩ :=
    Loader.loadOne_of_format (l := l) l.files.queued hdocument pair.format_document
  have hsame : (l.withFiles fun q => { q with queued := l.files.queued }) = l := rfl
  rw [hsame] at hone hone'
  have htargets :=
    pair.targets_conf hl files l.files.queued (l.noticesAt pair.conf pair.confBytes) ht
  have htargets' := pair.targets_document hl files l.files.queued
    (l.noticesAt pair.document pair.documentBytes)
  rw [hone, hone']
  unfold AddAlike Loader.afterFile
  dsimp only
  rw [htargets, htargets']
  exact ⟨fun h => ⟨h.2.2.1, h.2.2.2⟩, fun h => ⟨rfl, rfl, h.1, h.2⟩⟩

/-- The two files have different formats, so they are not the same. -/
theorem conf_not_same_document : pair.conf.same pair.document = false := by
  rw [Bool.eq_false_iff]
  intro hsame
  have hformat := pair.format_conf
  rw [Loader.formatNameOf_eq hsame, pair.format_document] at hformat
  exact absurd hformat (by decide)

/-- A file system in which there are the two files only. -/
def alone : Snapshot :=
  .ofContents fun r =>
    if r = pair.conf then some pair.confBytes
    else if r = pair.document then some pair.documentBytes
    else none

theorem areIn_alone : pair.AreIn pair.alone := by
  have hne : pair.document ≠ pair.conf := by
    intro heq
    have hsame := pair.conf_not_same_document
    rw [heq] at hsame
    exact Bool.false_ne_true (hsame.symm.trans ((Path.same_iff _ _).mpr rfl))
  constructor
  · exact (Snapshot.read?_ofContents _ _).trans (if_pos rfl)
  · exact (Snapshot.read?_ofContents _ _).trans ((if_neg hne).trans (if_pos rfl))

/-- Where the two files add the same to a load in which there is nothing yet, they include the
    same, or what they include is in hand. -/
theorem filter_targets_of_alike (ht : IsTarget t)
    (h : ∀ (files : Snapshot) (l : Loader), pair.AreIn files → l.options = .standard →
      AddAlike (l.loadOne files pair.conf none) (l.loadOne files pair.document none)) :
    (pair.typedTarget.toList.filter fun r => !r.same pair.conf) =
      pair.plainTarget.toList.filter fun r => !r.same pair.document := by
  have halike := h pair.alone (Loader.new pair.alone [] (.flat []) .standard) pair.areIn_alone rfl
  obtain ⟨hqueued, hmissing⟩ := (pair.addAlike_iff ht pair.areIn_alone rfl).mp halike
  rw [← FileQueue.added_of_empty pair.alone, ← FileQueue.added_of_empty pair.alone]
  exact congrArg₂ (· ++ ·) hqueued hmissing

/-- A target that is typed as something else includes something else. -/
theorem text_typed_of_filter_targets
    (h : (pair.typedTarget.toList.filter fun r => !r.same pair.conf) =
      pair.plainTarget.toList.filter fun r => !r.same pair.document) :
    (Scalar.typed t).text = t := by
  have hd := Path.text_ne_nil_of_directory? pair.directory_conf
  rcases Scalar.typed_eq_string_or t with hstring | ⟨hplain, htext⟩
  · rw [hstring]
    exact String.toList_ofList
  · obtain ⟨r, hr, hcomponents⟩ := Path.resolveInclude_of_isName hplain.isName hplain.trim_eq
      hplain.nul_not_mem hd
    have hother : r.same pair.document = false := by
      rw [Bool.eq_false_iff]
      intro hsame
      have hformat := pair.format_document
      rw [← Loader.formatNameOf_eq hsame] at hformat
      exact Path.format_of_scalarName hcomponents hplain hformat
    have hadded : (pair.plainTarget.toList.filter fun r => !r.same pair.document) = [r] := by
      unfold plainTarget
      rw [hr]
      exact List.filter_cons_of_pos (by rw [hother]; rfl)
    have hfound : r ∈ pair.typedTarget.toList := by
      have hmem : r ∈ pair.typedTarget.toList.filter fun r => !r.same pair.conf := by
        rw [h, hadded]
        exact List.mem_singleton_self r
      exact List.mem_of_mem_filter hmem
    unfold typedTarget at hfound
    rcases htext with hnull | htyped
    · rw [hnull] at hfound
      exact nomatch hfound
    · obtain ⟨r', hr', hcomponents'⟩ := Path.resolveInclude_of_isName htyped.isName
        htyped.trim_eq htyped.nul_not_mem hd
      rw [hr'] at hfound
      obtain rfl : r = r' := List.mem_singleton.mp hfound
      rw [hcomponents] at hcomponents'
      have hlast := List.append_cancel_left hcomponents'
      exact (Path.Component.name.inj (List.cons.inj hlast).1).symm

/-- **One target in two formats.** In every file system and every load with the standard
    options, an assignment file and a document of one directory that include the same target
    and nothing else are loaded without failing and add the same to the files that wait and to
    those that are missing, if and only if the target is the text of the value that it is typed
    as, and names neither of the two files. -/
theorem includes_agree_iff (ht : IsTarget t) :
    (∀ (files : Snapshot) (l : Loader), pair.AreIn files → l.options = .standard →
      AddAlike (l.loadOne files pair.conf none) (l.loadOne files pair.document none)) ↔
    (Scalar.typed t).text = t ∧ ∀ r, resolveInclude t (some pair.directory) = .ok r →
      r.same pair.conf = false ∧ r.same pair.document = false := by
  constructor
  · intro h
    have hfilter := pair.filter_targets_of_alike ht h
    have htext := pair.text_typed_of_filter_targets hfilter
    refine ⟨htext, fun r hr => ?_⟩
    unfold typedTarget plainTarget at hfilter
    rw [htext, hr] at hfilter
    -- Of one path that is queued by both or by neither, both are in hand or none is.
    have hboth : r.same pair.conf = r.same pair.document := by
      cases hconf : r.same pair.conf <;> cases hdocument : r.same pair.document <;>
        simp [hconf, hdocument, Except.toOption] at hfilter ⊢
    cases hconf : r.same pair.conf with
    | false => exact ⟨rfl, hboth.symm.trans hconf⟩
    | true =>
      have hapart := pair.conf_not_same_document
      rw [← Path.same_congr hconf, ← hboth, hconf] at hapart
      exact absurd hapart.symm Bool.false_ne_true
  · rintro ⟨htext, hother⟩ files l hfiles hl
    rw [pair.addAlike_iff ht hfiles hl]
    unfold typedTarget plainTarget
    rw [htext]
    cases hr : resolveInclude t (some pair.directory) with
    | error failure => exact ⟨rfl, rfl⟩
    | ok r =>
      obtain ⟨hconf, hdocument⟩ := hother r hr
      exact FileQueue.addIncluded_alike files l.files hconf hdocument l.files.queued

/-- The bytes of an ASCII text. -/
def bytesOf (text : String) : List UInt8 := text.toList.map fun c => UInt8.ofNat c.toNat

/-- Two files that include a number as numbers are written. -/
def ofNumber : IncludingFiles "1.5".toList where
  directory := ⟨"etc".toList⟩
  conf := ⟨"etc/a.conf".toList⟩
  document := ⟨"etc/b.json".toList⟩
  confBytes := bytesOf "include=1.5\n"
  documentBytes := bytesOf "\x7b\"include\": \"1.5\"\x7d"
  directory_conf := by decide +kernel
  directory_document := by decide +kernel
  format_conf := by decide +kernel
  format_document := by decide +kernel
  line := by decide +kernel
  member := by decide +kernel

/-- Two files that include a number with zeros in front. -/
def ofZeros : IncludingFiles "007".toList where
  directory := ⟨['.']⟩
  conf := ⟨"a.conf".toList⟩
  document := ⟨"b.json".toList⟩
  confBytes := bytesOf "include=007\n"
  documentBytes := bytesOf "\x7b\"include\": \"007\"\x7d"
  directory_conf := by decide +kernel
  directory_document := by decide +kernel
  format_conf := by decide +kernel
  format_document := by decide +kernel
  line := by decide +kernel
  member := by decide +kernel

/-- A number as it is written is the text of itself. -/
theorem includes_agree_iff_of_number :
    IsTarget "1.5".toList ∧ ∀ (files : Snapshot) (l : Loader), ofNumber.AreIn files →
      l.options = .standard →
      AddAlike (l.loadOne files ofNumber.conf none) (l.loadOne files ofNumber.document none) := by
  have ht : IsTarget "1.5".toList := ⟨by decide +kernel, by decide, by rintro c ⟨⟩; decide⟩
  have hresolve : resolveInclude "1.5".toList (some ofNumber.directory) =
      .ok ⟨"etc/1.5".toList⟩ := by
    decide +kernel
  refine ⟨ht, (ofNumber.includes_agree_iff ht).mpr ⟨by decide +kernel, fun r hr => ?_⟩⟩
  obtain rfl := Except.ok.inj (hresolve.symm.trans hr)
  exact ⟨by decide +kernel, by decide +kernel⟩

/-- **Zeros in front are lost** in the assignment file, which includes another file than the
    document. -/
theorem zeros_in_front_lost :
    IsTarget "007".toList ∧ ofZeros.AreIn ofZeros.alone ∧
    ((Loader.new ofZeros.alone [] (.flat []) .standard).loadOne ofZeros.alone
      ofZeros.conf none).1.files.missing = [⟨['7']⟩] ∧
    ((Loader.new ofZeros.alone [] (.flat []) .standard).loadOne ofZeros.alone
      ofZeros.document none).1.files.missing = [⟨"007".toList⟩] :=
  ⟨⟨by decide +kernel, by decide, by rintro c ⟨⟩; decide⟩, ofZeros.areIn_alone, by decide +kernel,
    by decide +kernel⟩

end IncludingFiles

end LayeredConfig
