import LayeredConfig.Proofs.ContinuedEditing

/-! # Editing an assignment file again

    The editor goes through the lines of a file, keeps those that assign no edited key, and
    writes the lines of a new value in place of the first line that assigns its key, or at the
    end. What it leaves is settled: lines that are kept, and for some of the edited keys all
    lines of the new value in one block, with no other line that assigns the key. Going through
    settled lines again it keeps the ones, and replaces the first line of a block by the block
    and drops the others of it. So nothing changes any more, with continuations or without.

    The lines that are kept are those of the original file, each of them once and in their
    order, but for one case. A single line that is left, and empty, becomes the empty text,
    which has no lines.

    **Main results.** `settled_editLines` and `Settled.editLines_eq`: edited lines are settled
    and stay; `edit_again`; `blank_line_lost`: the one case.
-/

namespace LayeredConfig.Edit.Conf

open LayeredConfig.Conf

/-! ## Edits that lines can be written for -/

/-- A key that an edit can be for: it can be found again in a line that is written with it. -/
structure IsEditKey (k : String) : Prop where
  newline : '\n' ∉ k.toList
  equals : '=' ∉ k.toList
  trimmed : Text.trim k.toList = k.toList
  hash : k.toList.head? ≠ some '#'
  word : ∀ c, (c = ' ' ∨ c = '\t') → ¬ exportWord ++ [c] <+: k.toList
  unmarked : ¬ appendMark <:+ k.toList

instance (k : String) : Decidable (IsEditKey k) :=
  decidable_of_iff
    ('\n' ∉ k.toList ∧ '=' ∉ k.toList ∧ Text.trim k.toList = k.toList ∧
      k.toList.head? ≠ some '#' ∧ ¬ exportWord ++ [' '] <+: k.toList ∧
      ¬ exportWord ++ ['\t'] <+: k.toList ∧ ¬ appendMark <:+ k.toList)
    ⟨fun ⟨hnewline, hequals, htrimmed, hhash, hspace, htab, hunmarked⟩ =>
      ⟨hnewline, hequals, htrimmed, hhash,
        fun _ hc => hc.elim (fun heq => heq ▸ hspace) fun heq => heq ▸ htab, hunmarked⟩,
      fun ⟨hnewline, hequals, htrimmed, hhash, hword, hunmarked⟩ =>
        ⟨hnewline, hequals, htrimmed, hhash, hword ' ' (.inl rfl), hword '\t' (.inr rfl),
          hunmarked⟩⟩

/-- Changes that lines can be written for. -/
structure Writable (all : List Change) : Prop where
  keys : ∀ change ∈ all, IsEditKey change.key
  folded : ∀ change ∈ all, change.folded = Text.lower change.key
  values : ∀ change ∈ all, HasOneLineItems change.value
  distinct : (all.map (·.folded)).Nodup

theorem IsEditKey.first {k : String} (h : IsEditKey k) :
    ∀ c ∈ k.toList.head?, Text.isBlank c = false := by
  intro c hc
  rw [← h.trimmed] at hc
  exact Text.head_trimStart k.toList c (Text.mem_head?_of_begins (Text.trimEnd_begins _) hc)

theorem IsEditKey.last {k : String} (h : IsEditKey k) :
    ∀ c ∈ k.toList.getLast?, Text.isBlank c = false := by
  intro c hc
  rw [← h.trimmed] at hc
  exact Text.last_trimEnd _ c hc

/-- Lines can be written with the key of an edit. -/
theorem IsEditKey.isWritable {k : String} (h : IsEditKey k) : IsWritable false k.toList where
  equals := h.equals
  first := h.first
  hash _ := h.hash
  word _ := h.word
  last := h.last
  unmarked := h.unmarked

/-- **Any spelling** of the key of an edit that is found in a line can be written again. -/
theorem IsEditKey.isWritable_of_assigned? {k : String} (h : IsEditKey k) {line : List Char}
    {exported : Bool} {key : List Char} (hfound : assigned? '=' line = some (exported, key))
    (hspells : Spells key (Text.lower k)) : IsWritable exported key where
  toIsKeyText := isKeyText_of_assigned? hfound
  last := by
    have hlast := Text.last_not_blank_of_lower_eq hspells h.last
    rwa [String.toList_ofList] at hlast
  unmarked := by
    intro hends
    have hsame := Text.ends_iff_of_lower_eq hspells Text.isCaseless_of_mem_appendMark
    rw [String.toList_ofList] at hsame
    exact h.unmarked (hsame.mp hends)

/-! ## Which change concerns a line -/

/-- A line that a change concerns assigns the key of this change only. -/
theorem assigns_iff_of_changeFor? {all : List Change} {line : List Char} {exported : Bool}
    {key : List Char} {change : Change}
    (h : changeFor? '=' all line = some (exported, key, change)) {k : String} :
    assigns k line = true ↔ k = change.folded := by
  obtain ⟨_, hspells⟩ := spells_of_changeFor? h
  have hassigned := (changeFor?_eq_some_iff.mp h).1
  rw [assigns_iff]
  constructor
  · rintro ⟨exported', key', hassigned', hspells'⟩
    obtain ⟨rfl, rfl⟩ := Prod.mk.inj (Option.some.inj (hassigned.symm.trans hassigned'))
    exact hspells'.symm.trans hspells
  · rintro rfl
    exact ⟨exported, key, hassigned, hspells⟩

section changes

variable {all : List Change} (hall : Writable all) {change : Change} (hchange : change ∈ all)
include hall hchange

/-- The change of a key is found where a line spells the key. -/
theorem changeFor?_of_assigned? {line : List Char} {exported : Bool} {key : List Char}
    (hassigned : assigned? '=' line = some (exported, key)) (hspells : Spells key change.folded) :
    changeFor? '=' all line = some (exported, key, change) := by
  apply changeFor?_eq_some_iff.mpr ⟨hassigned, ?_⟩
  cases hfind : all.find? (fun change => change.folded == Text.lower (String.ofList key)) with
  | none => exact absurd (beq_iff_eq.mpr hspells.symm) (List.find?_eq_none.mp hfind change hchange)
  | some found =>
    have hfolded := List.find?_some hfind
    have hsame : found.folded = change.folded := (beq_iff_eq.mp hfolded).trans hspells
    rw [List.inj_on_of_nodup_map hall.distinct (List.mem_of_find?_eq_some hfind) hchange hsame]

/-- Lines can be written with the key of a change, and with every spelling of it. -/
theorem Writable.isWritable : IsWritable false change.key.toList ∧
    Spells change.key.toList change.folded := by
  refine ⟨(hall.keys change hchange).isWritable, ?_⟩
  rw [hall.folded change hchange]
  exact congrArg Text.lower String.ofList_toList

theorem Writable.isWritable_of_changeFor? {line : List Char} {exported : Bool} {key : List Char}
    (hfound : changeFor? '=' all line = some (exported, key, change)) :
    IsWritable exported key := by
  apply (hall.keys change hchange).isWritable_of_assigned? (changeFor?_eq_some_iff.mp hfound).1
  rw [← hall.folded change hchange]
  exact (spells_of_changeFor? hfound).2

/-- **The lines of a change** are found again as lines that it concerns. -/
theorem changeFor?_assignmentLines {exported : Bool} {key : List Char}
    (hkey : IsWritable exported key) (hspells : Spells key change.folded) (v : Value) :
    ∀ line ∈ assignmentLines '=' exported key v,
      changeFor? '=' all line = some (exported, key, change) := by
  intro line hline
  obtain ⟨append, item, rfl, _⟩ := exists_of_mem_assignmentLines hline
  exact changeFor?_of_assigned? hall hchange (assigned?_lineOf hkey append item) hspells

end changes

/-! ## Settled lines -/

/-- Lines that an editor leaves as they are where the keys in `written` have been dealt with:
    lines that no change concerns, and all lines of some of the changes, each of them in one
    block. -/
inductive Settled (all : List Change) : List String → List (List Char) → Prop where
  | nil (written : List String) : Settled all written []
  | keep {written : List String} {line : List Char} {rest : List (List Char)}
      (hline : changeFor? '=' all line = none) (hrest : Settled all written rest) :
      Settled all written (line :: rest)
  | block {written : List String} {change : Change} {exported : Bool} {key : List Char}
      {rest : List (List Char)} (hchange : change ∈ all) (hnew : change.folded ∉ written)
      (hkey : IsWritable exported key) (hspells : Spells key change.folded)
      (hrest : Settled all (change.folded :: written) rest) :
      Settled all written (assignmentLines '=' exported key change.value ++ rest)

/-- Lines of a change that has been dealt with are dropped. -/
theorem editLines_append_dropped {all : List Change} {written : List String}
    {lines rest : List (List Char)} {change : Change} (hwritten : change.folded ∈ written)
    (hlines : ∀ line ∈ lines, ∃ exported key,
      changeFor? '=' all line = some (exported, key, change)) :
    editLines '=' all written (lines ++ rest) = editLines '=' all written rest := by
  induction lines with
  | nil => rfl
  | cons line more ih =>
    obtain ⟨⟨exported, key, hchange⟩, hmore⟩ := List.forall_mem_cons.mp hlines
    rw [List.cons_append, editLines_of_mem _ hchange hwritten]
    exact ih hmore

/-- **Settled lines stay as they are.** -/
theorem Settled.editLines_eq {all : List Change} (hall : Writable all) {written : List String}
    {lines : List (List Char)} (h : Settled all written lines) {done : List String}
    (hdone : done ⊆ written) : (editLines '=' all done lines).1 = lines := by
  induction h generalizing done with
  | nil written => rfl
  | @keep written line rest hline hrest ih =>
    rw [editLines_of_none rest hline]
    exact congrArg (line :: ·) (ih hdone)
  | @block written change exported key rest hchange hnew hkey hspells hrest ih =>
    have hfound := changeFor?_assignmentLines hall hchange hkey hspells change.value
    cases hlines : assignmentLines '=' exported key change.value with
    | nil => exact ih fun name hname => List.mem_cons_of_mem _ (hdone hname)
    | cons first more =>
      -- The first line of the block makes the block, and the others are dropped.
      obtain ⟨hfirst, hmore⟩ := List.forall_mem_cons.mp (hlines ▸ hfound)
      have hdropped : editLines '=' all (change.folded :: done) (more ++ rest) =
          editLines '=' all (change.folded :: done) rest :=
        editLines_append_dropped List.mem_cons_self fun line hline => ⟨_, _, hmore line hline⟩
      have hnotDone : change.folded ∉ done := fun hmem => hnew (hdone hmem)
      rw [List.cons_append, editLines_of_not_mem _ hfirst hnotDone, hdropped, hlines,
        ih (List.cons_subset_cons _ hdone)]
      rfl

section editing

variable {all : List Change} (hall : Writable all)
include hall

/-- The lines of a change assign its key and no other. -/
theorem filter_assignmentLines {change : Change} (hchange : change ∈ all) {exported : Bool}
    {key : List Char} (hkey : IsWritable exported key) (hspells : Spells key change.folded)
    (k : String) :
    (assignmentLines '=' exported key change.value).filter (assigns k) =
      if k = change.folded then assignmentLines '=' exported key change.value else [] := by
  have hassigns : ∀ line ∈ assignmentLines '=' exported key change.value,
      (assigns k line = true ↔ k = change.folded) := fun line hline =>
    assigns_iff_of_changeFor?
      (changeFor?_assignmentLines hall hchange hkey hspells change.value line hline)
  split
  · next hsame => exact List.filter_eq_self.mpr fun line hline => (hassigns line hline).mpr hsame
  · next hother =>
    exact List.filter_eq_nil_iff.mpr fun line hline => mt (hassigns line hline).mp hother

/-- No settled line assigns a key that has been dealt with. -/
theorem Settled.filter_eq_nil {written : List String} {lines : List (List Char)}
    (h : Settled all written lines) {change : Change} (hchange : change ∈ all)
    (hwritten : change.folded ∈ written) : lines.filter (assigns change.folded) = [] := by
  induction h with
  | nil written => rfl
  | @keep written line rest hline hrest ih =>
    have hnot := changeFor?_eq_none_iff.mp hline change hchange
    rw [List.filter_cons_of_neg (by simp [hnot]), ih hwritten]
  | @block written other exported key rest hother hnew hkey hspells hrest ih =>
    have hne : change.folded ≠ other.folded := fun heq => hnew (heq ▸ hwritten)
    rw [List.filter_append, filter_assignmentLines hall hother hkey hspells, if_neg hne,
      ih (List.mem_cons_of_mem _ hwritten), List.nil_append]

/-- **Settled lines that assign an edited key** are the lines of its new value, or there are
    none of them. -/
theorem Settled.filter_assigns {written : List String} {lines : List (List Char)}
    (h : Settled all written lines) {change : Change} (hchange : change ∈ all) :
    lines.filter (assigns change.folded) = [] ∨
      ∃ exported key, Spells key change.folded ∧
        lines.filter (assigns change.folded) = assignmentLines '=' exported key change.value := by
  induction h with
  | nil written => exact .inl rfl
  | @keep written line rest hline hrest ih =>
    have hnot := changeFor?_eq_none_iff.mp hline change hchange
    rwa [List.filter_cons_of_neg (by simp [hnot])]
  | @block written other exported key rest hother hnew hkey hspells hrest ih =>
    rw [List.filter_append, filter_assignmentLines hall hother hkey hspells]
    by_cases hsame : change.folded = other.folded
    · obtain rfl := List.inj_on_of_nodup_map hall.distinct hchange hother hsame
      rw [if_pos rfl, hrest.filter_eq_nil hall hchange List.mem_cons_self, List.append_nil]
      exact .inr ⟨exported, key, hspells, rfl⟩
    · rw [if_neg hsame, List.nil_append]
      exact ih

/-- **What the editor makes of lines is settled**, if what comes behind it is. -/
theorem settled_editLines {written : List String} {lines tail : List (List Char)}
    (htail : Settled all (editLines '=' all written lines).2 tail) :
    Settled all written ((editLines '=' all written lines).1 ++ tail) := by
  induction lines generalizing written with
  | nil => exact htail
  | cons line rest ih =>
    cases hchange : changeFor? '=' all line with
    | none =>
      rw [editLines_of_none rest hchange] at htail ⊢
      exact .keep hchange (ih htail)
    | some found =>
      obtain ⟨exported, key, change⟩ := found
      by_cases hnew : change.folded ∈ written
      · rw [editLines_of_mem rest hchange hnew] at htail ⊢
        exact ih htail
      · obtain ⟨hmem, hspells⟩ := spells_of_changeFor? hchange
        rw [editLines_of_not_mem rest hchange hnew] at htail ⊢
        rw [List.append_assoc]
        exact .block hmem hnew (hall.isWritable_of_changeFor? hmem hchange) hspells (ih htail)

/-- Changes that are added at the end are settled. -/
theorem settled_added {written : List String} {pending : List Change}
    (hpending : ∀ change ∈ pending, change ∈ all ∧ change.folded ∉ written)
    (hdistinct : (pending.map (·.folded)).Nodup) :
    Settled all written (pending.flatMap fun change =>
      assignmentLines '=' false change.key.toList change.value) := by
  induction pending generalizing written with
  | nil => exact .nil written
  | cons change rest ih =>
    obtain ⟨⟨hmem, hnew⟩, hrest⟩ := List.forall_mem_cons.mp hpending
    rw [List.map_cons, List.nodup_cons] at hdistinct
    obtain ⟨hkey, hspells⟩ := hall.isWritable hmem
    rw [List.flatMap_cons]
    refine .block hmem hnew hkey hspells (ih ?_ hdistinct.2)
    intro other hother
    obtain ⟨hother', hnew'⟩ := hrest other hother
    refine ⟨hother', ?_⟩
    rw [List.mem_cons, not_or]
    exact ⟨fun heq => hdistinct.1 (heq ▸ List.mem_map_of_mem hother), hnew'⟩

end editing

/-! ## Which changes are dealt with -/

theorem mem_editLines_written_of_mem {all : List Change} {written : List String}
    {lines : List (List Char)} {name : String} (h : name ∈ written) :
    name ∈ (editLines '=' all written lines).2 := by
  induction lines generalizing written with
  | nil => exact h
  | cons line rest ih =>
    cases hfound : changeFor? '=' all line with
    | none =>
      rw [editLines_of_none rest hfound]
      exact ih h
    | some found =>
      by_cases hwritten : found.2.2.folded ∈ written
      · rw [editLines_of_mem rest hfound hwritten]
        exact ih h
      · rw [editLines_of_not_mem rest hfound hwritten]
        exact ih (List.mem_cons_of_mem _ h)

/-- A change is dealt with where a line assigns its key. -/
theorem mem_editLines_written_of_assigns {all : List Change} {change : Change}
    (hchange : change ∈ all) {written : List String} {lines : List (List Char)}
    (h : ∃ line ∈ lines, assigns change.folded line = true) :
    change.folded ∈ (editLines '=' all written lines).2 := by
  induction lines generalizing written with
  | nil =>
    obtain ⟨line, hline, _⟩ := h
    exact nomatch hline
  | cons first rest ih =>
    obtain ⟨line, hline, hassigns⟩ := h
    cases hfound : changeFor? '=' all first with
    | none =>
      -- The line that assigns the key is one of the others.
      have hne : line ≠ first := by
        rintro rfl
        rw [changeFor?_eq_none_iff.mp hfound change hchange] at hassigns
        exact nomatch hassigns
      rw [editLines_of_none rest hfound]
      exact ih ⟨line, (List.mem_cons.mp hline).resolve_left hne, hassigns⟩
    | some found =>
      obtain ⟨exported, key, other⟩ := found
      by_cases hsame : change.folded = other.folded
      · rw [hsame]
        by_cases hwritten : other.folded ∈ written
        · exact mem_editLines_written_of_mem hwritten
        · rw [editLines_of_not_mem rest hfound hwritten]
          exact mem_editLines_written_of_mem List.mem_cons_self
      · have hne : line ≠ first := by
          rintro rfl
          exact hsame ((assigns_iff_of_changeFor? hfound).mp hassigns)
        have hrest := (List.mem_cons.mp hline).resolve_left hne
        by_cases hwritten : other.folded ∈ written
        · rw [editLines_of_mem rest hfound hwritten]
          exact ih ⟨line, hrest, hassigns⟩
        · rw [editLines_of_not_mem rest hfound hwritten]
          exact ih ⟨line, hrest, hassigns⟩

/-- The lines of a change are written where it is dealt with. -/
theorem exists_block_of_mem_written {all : List Change} (hall : Writable all) {change : Change}
    (hchange : change ∈ all) {written : List String} {lines : List (List Char)}
    (hnew : change.folded ∉ written)
    (h : change.folded ∈ (editLines '=' all written lines).2) :
    ∃ exported key, IsWritable exported key ∧ Spells key change.folded ∧
      ∀ line ∈ assignmentLines '=' exported key change.value,
        line ∈ (editLines '=' all written lines).1 := by
  induction lines generalizing written with
  | nil => exact absurd h hnew
  | cons first rest ih =>
    cases hfound : changeFor? '=' all first with
    | none =>
      rw [editLines_of_none rest hfound] at h ⊢
      obtain ⟨exported, key, hkey, hspells, hlines⟩ := ih hnew h
      exact ⟨exported, key, hkey, hspells,
        fun line hline => List.mem_cons_of_mem _ (hlines line hline)⟩
    | some found =>
      obtain ⟨exported, key, other⟩ := found
      by_cases hwritten : other.folded ∈ written
      · rw [editLines_of_mem rest hfound hwritten] at h ⊢
        exact ih hnew h
      · rw [editLines_of_not_mem rest hfound hwritten] at h ⊢
        obtain ⟨hmem, hspells⟩ := spells_of_changeFor? hfound
        by_cases hsame : change.folded = other.folded
        · obtain rfl := List.inj_on_of_nodup_map hall.distinct hchange hmem hsame
          exact ⟨exported, key, hall.isWritable_of_changeFor? hmem hfound, hspells,
            fun line hline => List.mem_append_left _ hline⟩
        · have hnew' : change.folded ∉ other.folded :: written := by
            rw [List.mem_cons, not_or]
            exact ⟨hsame, hnew⟩
          obtain ⟨exported', key', hkey', hspells', hlines⟩ := ih hnew' h
          exact ⟨exported', key', hkey', hspells',
            fun line hline => List.mem_append_right _ (hlines line hline)⟩

/-! ## Which lines are kept -/

/-- Whether a line assigns a key that is edited; a null edits nothing. -/
def assignsEdited (edits : Entries Value) (line : List Char) : Bool :=
  edits.any fun e => !e.2.isNull && assigns (Text.lower e.1) line

/-- The lines that assign no edited key. -/
def kept (edits : Entries Value) (lines : List (List Char)) : List (List Char) :=
  lines.filter (!assignsEdited edits ·)

theorem mem_changes_iff {edits : Entries Value} {change : Change} :
    change ∈ changes edits ↔
      ∃ e ∈ edits, e.2.isNull = false ∧ change = ⟨Text.lower e.1, e.1, e.2⟩ := by
  unfold changes
  rw [List.mem_map]
  simp only [List.mem_filter, Bool.not_eq_true', and_assoc]
  constructor
  · rintro ⟨e, he, hnull, rfl⟩
    exact ⟨e, he, hnull, rfl⟩
  · rintro ⟨e, he, hnull, rfl⟩
    exact ⟨e, he, hnull, rfl⟩

/-- The lines that no change concerns are those that assign no edited key. -/
theorem assignsEdited_eq_false_iff {edits : Entries Value} {line : List Char} :
    assignsEdited edits line = false ↔ changeFor? '=' (changes edits) line = none := by
  unfold assignsEdited
  rw [List.any_eq_false, changeFor?_eq_none_iff]
  constructor
  · intro h change hchange
    obtain ⟨e, he, hnull, rfl⟩ := mem_changes_iff.mp hchange
    have hline := h e he
    simpa [hnull] using hline
  · intro h e he
    cases hnull : e.2.isNull with
    | true => simp
    | false => simp [h _ (mem_changes_iff.mpr ⟨e, he, hnull, rfl⟩)]

theorem kept_append (edits : Entries Value) (first second : List (List Char)) :
    kept edits (first ++ second) = kept edits first ++ kept edits second :=
  List.filter_append ..

theorem kept_cons (edits : Entries Value) (line : List Char) (rest : List (List Char)) :
    kept edits (line :: rest) =
      if changeFor? '=' (changes edits) line = none then line :: kept edits rest
      else kept edits rest := by
  unfold kept
  rw [List.filter_cons]
  simp only [Bool.not_eq_true', assignsEdited_eq_false_iff]

section kept

variable {edits : Entries Value} (hall : Writable (changes edits))
include hall

/-- The lines of a change are none of those that are kept. -/
theorem kept_assignmentLines {change : Change} (hchange : change ∈ changes edits)
    {exported : Bool} {key : List Char} (hkey : IsWritable exported key)
    (hspells : Spells key change.folded) :
    kept edits (assignmentLines '=' exported key change.value) = [] := by
  unfold kept
  rw [List.filter_eq_nil_iff]
  intro line hline hkept
  have hfound := changeFor?_assignmentLines hall hchange hkey hspells change.value line hline
  have hnone := assignsEdited_eq_false_iff.mp (by simpa using hkept)
  rw [hnone] at hfound
  exact nomatch hfound

/-- **The lines that assign no edited key** are kept, and no others are made. -/
theorem kept_editLines (written : List String) (lines : List (List Char)) :
    kept edits (editLines '=' (changes edits) written lines).1 = kept edits lines := by
  induction lines generalizing written with
  | nil => rfl
  | cons line rest ih =>
    rw [kept_cons edits line rest]
    cases hfound : changeFor? '=' (changes edits) line with
    | none => rw [editLines_of_none rest hfound, kept_cons, hfound, if_pos rfl, if_pos rfl, ih]
    | some found =>
      obtain ⟨exported, key, change⟩ := found
      rw [if_neg (Option.some_ne_none _)]
      by_cases hwritten : change.folded ∈ written
      · rw [editLines_of_mem rest hfound hwritten, ih]
      · obtain ⟨hmem, hspells⟩ := spells_of_changeFor? hfound
        rw [editLines_of_not_mem rest hfound hwritten, kept_append, kept_assignmentLines hall hmem
          (hall.isWritable_of_changeFor? hmem hfound) hspells, ih, List.nil_append]

end kept

/-! ## The lines of the edited text -/

/-- The changes that are still to be written when the editor has gone through lines. -/
def pending (edits : Entries Value) (lines : List (List Char)) : List Change :=
  (changes edits).filter fun change =>
    !(editLines '=' (changes edits) [] lines).2.contains change.folded

/-- The lines of changes that are added at the end. -/
def addedLines (all : List Change) : List (List Char) :=
  all.flatMap fun change => assignmentLines '=' false change.key.toList change.value

/-- The lines that the editor makes of lines. -/
def editedLines (edits : Entries Value) (lines : List (List Char)) : List (List Char) :=
  (editLines '=' (changes edits) [] lines).1 ++ addedLines (pending edits lines)

theorem edit_eq_unlines (content : List Char) (edits : Entries Value) :
    edit '=' content edits = unlines (editedLines edits (Text.lines content)) :=
  rfl

theorem mem_pending_iff {edits : Entries Value} {lines : List (List Char)} {change : Change} :
    change ∈ pending edits lines ↔
      change ∈ changes edits ∧
        change.folded ∉ (editLines '=' (changes edits) [] lines).2 := by
  unfold pending
  rw [List.mem_filter]
  simp

/-- Nothing is written for an empty list only. -/
theorem assignmentLines_eq_nil_iff {exported : Bool} {key : List Char} {v : Value} :
    assignmentLines '=' exported key v = [] ↔ v = .array [] := by
  cases v with
  | array items => simp [assignmentLines]
  | _ => simp [assignmentLines]

section edited

variable {edits : Entries Value} (hall : Writable (changes edits)) (lines : List (List Char))
include hall

theorem settled_editedLines : Settled (changes edits) [] (editedLines edits lines) := by
  apply settled_editLines hall
  apply settled_added hall
  · exact fun change hchange => mem_pending_iff.mp hchange
  · exact (List.filter_sublist.map Change.folded).nodup hall.distinct

theorem kept_editedLines : kept edits (editedLines edits lines) = kept edits lines := by
  have hadded : kept edits (addedLines (pending edits lines)) = [] := by
    unfold kept addedLines
    rw [List.filter_flatMap, List.flatMap_eq_nil_iff]
    intro change hchange
    obtain ⟨hmem, _⟩ := mem_pending_iff.mp hchange
    obtain ⟨hkey, hspells⟩ := hall.isWritable hmem
    exact kept_assignmentLines hall hmem hkey hspells
  unfold editedLines
  rw [kept_append, kept_editLines hall, hadded, List.append_nil]

/-- A change for which nothing is written at all is one to an empty list. -/
theorem exists_assigns_editedLines {change : Change} (hchange : change ∈ changes edits)
    (hvalue : change.value ≠ .array []) :
    ∃ line ∈ editedLines edits lines,
      changeFor? '=' (changes edits) line ≠ none ∧ assigns change.folded line = true := by
  have hblock : ∃ exported key, IsWritable exported key ∧ Spells key change.folded ∧
      ∀ line ∈ assignmentLines '=' exported key change.value, line ∈ editedLines edits lines := by
    by_cases hwritten : change.folded ∈ (editLines '=' (changes edits) [] lines).2
    · obtain ⟨exported, key, hkey, hspells, hlines⟩ :=
        exists_block_of_mem_written hall hchange List.not_mem_nil hwritten
      exact ⟨exported, key, hkey, hspells,
        fun line hline => List.mem_append_left _ (hlines line hline)⟩
    · obtain ⟨hkey, hspells⟩ := hall.isWritable hchange
      refine ⟨false, change.key.toList, hkey, hspells, fun line hline => ?_⟩
      apply List.mem_append_right
      exact List.mem_flatMap.mpr ⟨change, mem_pending_iff.mpr ⟨hchange, hwritten⟩, hline⟩
  obtain ⟨exported, key, hkey, hspells, hlines⟩ := hblock
  have hne : assignmentLines '=' exported key change.value ≠ [] :=
    fun hnil => hvalue (assignmentLines_eq_nil_iff.mp hnil)
  obtain ⟨line, hline⟩ := List.exists_mem_of_ne_nil _ hne
  have hfound := changeFor?_assignmentLines hall hchange hkey hspells change.value line hline
  refine ⟨line, hlines line hline, hfound ▸ Option.some_ne_none _, ?_⟩
  exact (assigns_iff_of_changeFor? hfound).mpr rfl

/-- The edited lines that assign an edited key are those of its new value. -/
theorem exists_filter_editedLines {change : Change} (hchange : change ∈ changes edits) :
    ∃ exported key, Spells key change.folded ∧
      (editedLines edits lines).filter (assigns change.folded) =
        assignmentLines '=' exported key change.value := by
  rcases (settled_editedLines hall lines).filter_assigns hall hchange with hnone | hlines
  · -- There are none where the new value is an empty list.
    refine ⟨false, change.key.toList, (hall.isWritable hchange).2, ?_⟩
    rw [hnone, eq_comm, assignmentLines_eq_nil_iff]
    by_contra hvalue
    obtain ⟨line, hline, _, hassigns⟩ := exists_assigns_editedLines hall lines hchange hvalue
    exact List.filter_eq_nil_iff.mp hnone line hline hassigns
  · exact hlines

/-- **Edited lines stay as they are** when they are edited again. -/
theorem editedLines_again :
    editedLines edits (editedLines edits lines) = editedLines edits lines := by
  have hsame := (settled_editedLines hall lines).editLines_eq hall (List.Subset.refl [])
  have hadded : addedLines (pending edits (editedLines edits lines)) = [] := by
    unfold addedLines
    rw [List.flatMap_eq_nil_iff]
    intro change hchange
    obtain ⟨hmem, hnew⟩ := mem_pending_iff.mp hchange
    rw [assignmentLines_eq_nil_iff]
    by_contra hvalue
    obtain ⟨line, hline, _, hassigns⟩ := exists_assigns_editedLines hall lines hmem hvalue
    exact hnew (mem_editLines_written_of_assigns hmem ⟨line, hline, hassigns⟩)
  rw [editedLines, hsame, hadded, List.append_nil]

end edited

/-! ## The edited text -/

/-- All settled lines are kept where every change is to an empty list. -/
theorem Settled.kept_eq {edits : Entries Value} {written : List String}
    {lines : List (List Char)} (h : Settled (changes edits) written lines)
    (hempty : ∀ change ∈ changes edits, change.value = .array []) : kept edits lines = lines := by
  induction h with
  | nil written => rfl
  | @keep written line rest hline hrest ih => rw [kept_cons, hline, if_pos rfl, ih]
  | @block written change exported key rest hchange hnew hkey hspells hrest ih =>
    rw [assignmentLines_eq_nil_iff.mpr (hempty change hchange), List.nil_append, ih]

section empty

variable {edits : Entries Value} (hall : Writable (changes edits)) (lines : List (List Char))
include hall

/-- Changes to empty lists only take lines away. -/
theorem editedLines_eq_kept (hempty : ∀ change ∈ changes edits, change.value = .array []) :
    editedLines edits lines = kept edits lines := by
  rw [← (settled_editedLines hall lines).kept_eq hempty, kept_editedLines hall]

/-- What is left is a single empty line, where one is left and no lines are written. -/
theorem editedLines_eq_empty_line_iff :
    editedLines edits lines = [[]] ↔
      kept edits lines = [[]] ∧ ∀ change ∈ changes edits, change.value = .array [] := by
  have hnone : changeFor? '=' (changes edits) [] = none := rfl
  constructor
  · intro h
    constructor
    · rw [← kept_editedLines hall lines, h, kept_cons, hnone, if_pos rfl]
      rfl
    · intro change hchange
      by_contra hvalue
      obtain ⟨line, hline, hsome, _⟩ := exists_assigns_editedLines hall lines hchange hvalue
      rw [h, List.mem_singleton] at hline
      subst hline
      exact hsome hnone
  · rintro ⟨hkept, hempty⟩
    rw [editedLines_eq_kept hall lines hempty, hkept]

end empty

/-- The lines of the edited text are lines as they are. -/
theorem whole_editedLines {edits : Entries Value} (hall : Writable (changes edits))
    {lines : List (List Char)}
    (hlines : ∀ line ∈ lines, '\n' ∉ line ∧ Text.dropReturn line = line) :
    ∀ line ∈ editedLines edits lines, '\n' ∉ line ∧ Text.dropReturn line = line := by
  intro line hline
  rcases List.mem_append.mp hline with hline | hline
  · rcases exists_of_mem_editLines hline with
      hold | ⟨other, hother, exported, key, change, hfound, hnew⟩
    · exact hlines line hold
    · obtain ⟨hmem, _⟩ := spells_of_changeFor? hfound
      have hkey : '\n' ∉ key := fun hnewline =>
        (hlines other hother).1 (mem_of_assigned? (changeFor?_eq_some_iff.mp hfound).1 _ hnewline)
      exact whole_assignmentLines hkey (hall.values change hmem) exported line hnew
  · obtain ⟨change, hchange, hnew⟩ := List.mem_flatMap.mp hline
    obtain ⟨hmem, _⟩ := mem_pending_iff.mp hchange
    exact whole_assignmentLines (hall.keys change hmem).newline (hall.values change hmem) false
      line hnew

/-- The lines of a text without carriage returns are lines as they are. -/
theorem whole_lines {content : List Char} (hreturn : '\r' ∉ content) :
    ∀ line ∈ Text.lines content, '\n' ∉ line ∧ Text.dropReturn line = line := by
  intro line hline
  refine ⟨Text.newline_not_mem_of_mem_lines hline, ?_⟩
  unfold Text.dropReturn
  rw [if_neg]
  intro hlast
  exact hreturn (Text.mem_of_mem_lines hline _ (List.mem_of_getLast? hlast))

theorem writable_changes {edits : Entries Value} (hkeys : ∀ e ∈ edits, IsEditKey e.1)
    (hvalues : ∀ e ∈ edits, HasOneLineItems e.2)
    (hdistinct : (edits.map fun e => Text.lower e.1).Nodup) : Writable (changes edits) where
  keys change hchange := by
    obtain ⟨e, he, _, rfl⟩ := mem_changes_iff.mp hchange
    exact hkeys e he
  folded change hchange := by
    obtain ⟨e, he, _, rfl⟩ := mem_changes_iff.mp hchange
    rfl
  values change hchange := by
    obtain ⟨e, he, _, rfl⟩ := mem_changes_iff.mp hchange
    exact hvalues e he
  distinct := by
    unfold changes
    rw [List.map_map]
    exact (List.filter_sublist.map _).nodup hdistinct

section text

variable {edits : Entries Value} (hall : Writable (changes edits)) {content : List Char}
  (hreturn : '\r' ∉ content)
include hall hreturn

/-- **The lines of the edited text** are the edited lines, but a single empty one is lost. -/
theorem lines_edit :
    (editedLines edits (Text.lines content) = [[]] ∧
        Text.lines (edit '=' content edits) = []) ∨
      (editedLines edits (Text.lines content) ≠ [[]] ∧
        Text.lines (edit '=' content edits) = editedLines edits (Text.lines content)) := by
  have hwhole := whole_editedLines hall (whole_lines hreturn)
  rw [edit_eq_unlines]
  by_cases hlost : editedLines edits (Text.lines content) = [[]]
  · rw [hlost]
    exact .inl ⟨rfl, rfl⟩
  · rw [lines_unlines (fun line hline => (hwhole line hline).1) hlost,
      List.map_congr_left fun line hline => (hwhole line hline).2, List.map_id']
    exact .inr ⟨hlost, rfl⟩

theorem edit_edit : edit '=' (edit '=' content edits) edits = edit '=' content edits := by
  rw [edit_eq_unlines (edit '=' content edits)]
  rcases lines_edit hall hreturn with ⟨hlost, hlines⟩ | ⟨_, hlines⟩
  · -- The empty text has no lines, and none are written for it.
    have hempty := ((editedLines_eq_empty_line_iff hall _).mp hlost).2
    have hagain : editedLines edits [] = [] := editedLines_eq_kept hall [] hempty
    rw [hlines, hagain, edit_eq_unlines, hlost]
    rfl
  · rw [hlines, editedLines_again hall]
    rfl

/-- The lines of the edited text that assign an edited key are those of its new value. -/
theorem exists_filter_lines_edit {change : Change} (hchange : change ∈ changes edits) :
    ∃ exported key, Spells key change.folded ∧
      (Text.lines (edit '=' content edits)).filter (assigns change.folded) =
        assignmentLines '=' exported key change.value := by
  rcases lines_edit hall hreturn with ⟨hlost, hlines⟩ | ⟨_, hlines⟩
  · have hempty := ((editedLines_eq_empty_line_iff hall _).mp hlost).2
    refine ⟨false, change.key.toList, (hall.isWritable hchange).2, ?_⟩
    rw [hlines, assignmentLines_eq_nil_iff.mpr (hempty change hchange)]
    rfl
  · rw [hlines]
    exact exists_filter_editedLines hall _ hchange

theorem kept_lines_edit_iff :
    kept edits (Text.lines (edit '=' content edits)) = kept edits (Text.lines content) ↔
      ¬ (kept edits (Text.lines content) = [[]] ∧
        ∀ change ∈ changes edits, change.value = .array []) := by
  rw [← editedLines_eq_empty_line_iff hall]
  rcases lines_edit hall hreturn with ⟨hlost, hlines⟩ | ⟨hleft, hlines⟩
  · rw [hlines, ((editedLines_eq_empty_line_iff hall _).mp hlost).1]
    exact iff_of_false (List.cons_ne_nil _ _).symm (not_not_intro hlost)
  · rw [hlines, kept_editedLines hall]
    exact iff_of_true rfl hleft

end text

/-- Where nothing is written, all edits are null or empty lists. -/
theorem forall_mem_changes_empty_iff {edits : Entries Value} :
    (∀ change ∈ changes edits, change.value = .array []) ↔
      ∀ e ∈ edits, e.2 = .null ∨ e.2 = .array [] := by
  constructor
  · intro h e he
    obtain ⟨key, v⟩ := e
    cases v with
    | null => exact .inl rfl
    | _ => exact .inr (h _ (mem_changes_iff.mpr ⟨_, he, rfl, rfl⟩))
  · intro h change hchange
    obtain ⟨e, he, hnull, rfl⟩ := mem_changes_iff.mp hchange
    exact (h e he).resolve_left fun heq => nomatch heq ▸ hnull

/-- **Editing again** changes nothing. Take any text without carriage returns, and edits of
    different keys that can be found again to values that are written without line feeds.
    When the edited text is edited in the same way, it stays as it is. Its lines that assign an
    edited key are the lines of the new value, under some spelling of the key. Its lines that
    assign none are those of the original text, each of them once and in their order, unless a
    single empty line is left of the original ones and nothing is written. -/
theorem edit_again (content : List Char) (edits : Entries Value) (hreturn : '\r' ∉ content)
    (hkeys : ∀ e ∈ edits, IsEditKey e.1) (hvalues : ∀ e ∈ edits, HasOneLineItems e.2)
    (hdistinct : (edits.map fun e => Text.lower e.1).Nodup) :
    ∃ edited,
      (Editor.conf '=').edit content edits = .ok edited ∧
      (Editor.conf '=').edit edited edits = .ok edited ∧
      (∀ e ∈ edits, e.2 ≠ .null → ∃ exported key, Spells key (Text.lower e.1) ∧
        (Text.lines edited).filter (assigns (Text.lower e.1)) =
          assignmentLines '=' exported key e.2) ∧
      (kept edits (Text.lines edited) = kept edits (Text.lines content) ↔
        ¬ (kept edits (Text.lines content) = [[]] ∧
          ∀ e ∈ edits, e.2 = .null ∨ e.2 = .array [])) := by
  have hall := writable_changes hkeys hvalues hdistinct
  refine ⟨edit '=' content edits, rfl, ?_, ?_, ?_⟩
  · exact congrArg Except.ok (edit_edit hall hreturn)
  · intro e he hne
    have hnull : e.2.isNull = false := by
      cases hv : e.2 with
      | null => exact absurd hv hne
      | _ => rfl
    exact exists_filter_lines_edit hall hreturn (mem_changes_iff.mpr ⟨e, he, hnull, rfl⟩)
  · rw [← forall_mem_changes_empty_iff]
    exact kept_lines_edit_iff hall hreturn

/-- A list takes the place of two lines that spell its key differently, a line that continues
    another one goes, and a text that looks like a number is added. -/
theorem edit_again_list_and_continuation :
    let edits := [("Port", .string "80"), ("more", .array []),
      ("tags", .array [.string "a b", .bool true])]
    ∃ edited,
      (Editor.conf '=').edit
        "# app\nexport Tags[]=old\nmotd=one\n  more=1\nTAGS = older\n".toList edits = .ok edited ∧
      (Editor.conf '=').edit edited edits = .ok edited ∧
      kept edits (Text.lines edited) = ["# app".toList, "motd=one".toList] := by
  intro edits
  obtain ⟨edited, hedit, hagain, _, hkept⟩ := edit_again
    "# app\nexport Tags[]=old\nmotd=one\n  more=1\nTAGS = older\n".toList edits
    (by decide +kernel) (by decide +kernel) (by decide +kernel) (by decide +kernel)
  refine ⟨edited, hedit, hagain, ?_⟩
  rw [hkept.mpr (by decide +kernel)]
  decide +kernel

/-- **A single empty line is lost**, even though nothing is edited. -/
theorem blank_line_lost :
    kept [] (Text.lines "\n".toList) = [[]] ∧ (Editor.conf '=').edit "\n".toList [] = .ok [] := by
  decide +kernel

end LayeredConfig.Edit.Conf
