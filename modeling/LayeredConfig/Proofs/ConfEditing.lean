import LayeredConfig.Edit
import LayeredConfig.Proofs.Addressing
import LayeredConfig.Proofs.WrittenLines
import LayeredConfig.Proofs.Writing
import Mathlib.Data.List.Nodup

/-! # What an edited assignment file loads to

    Editing an assignment file changes the settings that it loads to as the edits say, and
    no others. The file must have no continuations and no references in it, and it must
    assign no key beneath an edited one.

    The editor goes through the lines once, and so does the proof. Two trees grow side by
    side, the one from the original lines and the other from the edited ones. They read
    the same under every key that is not edited. Under an edited key the second one reads
    the new value as soon as it has been written, and nothing before, so that the lines
    of a list begin with an empty list.

    **Main results.** `Tracks.editLines`: the invariant through the lines;
    `edit_updates`: the edited file loads to the updated settings.
-/

namespace LayeredConfig.Edit.Conf

open LayeredConfig.Conf Source.Conf

/-! ## Values on lines -/

/-- A value that lines can hold: a scalar, or a list of scalars with something in it. -/
def IsLineValue : Value → Prop
  | .array items => items ≠ [] ∧ ∀ item ∈ items, IsLineScalar item
  | v => IsLineScalar v

instance : (v : Value) → Decidable (IsLineValue v)
  | .array items => inferInstanceAs (Decidable (items ≠ [] ∧ ∀ item ∈ items, IsLineScalar item))
  | .null => inferInstanceAs (Decidable (IsLineScalar .null))
  | .bool b => inferInstanceAs (Decidable (IsLineScalar (.bool b)))
  | .number n => inferInstanceAs (Decidable (IsLineScalar (.number n)))
  | .string s => inferInstanceAs (Decidable (IsLineScalar (.string s)))
  | .object fields => inferInstanceAs (Decidable (IsLineScalar (.object fields)))

theorem IsLineValue.isNull {v : Value} (hv : IsLineValue v) : v.isNull = false := by
  cases v with
  | null => exact hv.elim
  | _ => rfl

theorem IsLineScalar.isLineValue {v : Value} (hv : IsLineScalar v) : IsLineValue v := by
  cases v with
  | array items => exact hv.elim
  | _ => exact hv

/-- Values that lines can hold are lists, or else they are written as one line. -/
theorem IsLineValue.cases {v : Value} (hv : IsLineValue v) :
    (∃ items, v = .array items ∧ items ≠ [] ∧ ∀ item ∈ items, IsLineScalar item) ∨
      (IsLineScalar v ∧ ∀ exported key,
        assignmentLines '=' exported key v = [lineOf exported false key v]) := by
  cases v with
  | array items => exact .inl ⟨items, rfl, hv.1, hv.2⟩
  | null => exact hv.elim
  | object fields => exact hv.elim
  | bool b => exact .inr ⟨hv, fun _ _ => rfl⟩
  | number n => exact .inr ⟨hv, fun _ _ => rfl⟩
  | string s => exact .inr ⟨hv, fun _ _ => rfl⟩

/-- A value that lines can hold is written without line feeds. -/
theorem IsLineValue.hasOneLineItems {v : Value} (hv : IsLineValue v) : HasOneLineItems v := by
  have hscalar : ∀ w, IsLineScalar w → IsOneLine w := by
    intro w hw
    cases w with
    | string s => exact hw.1
    | _ => trivial
  cases v with
  | array items => exact fun item hitem => hscalar item (hv.2 item hitem)
  | string s => exact hv.1
  | _ => trivial

theorem IsLineValue.ne_empty {v : Value} (hv : IsLineValue v) : v ≠ .array [] := by
  rintro rfl
  exact hv.1 rfl

/-- The lines of a value are lines of their own, and none of them continues another. -/
theorem assignmentLines_apart {exported : Bool} {key : List Char}
    (hkey : IsWritable exported key) (hnewline : '\n' ∉ key) {v : Value} (hv : IsLineValue v) :
    ∀ line ∈ assignmentLines '=' exported key v, '\n' ∉ line ∧ isContinuation line = false := by
  intro line hline
  have hwhole := whole_assignmentLines hnewline hv.hasOneLineItems exported line hline
  obtain ⟨append, item, rfl, _⟩ := exists_of_mem_assignmentLines hline
  exact ⟨hwhole.1, isContinuation_lineOf hkey append item⟩

section lines

variable {k : String} (hk : PlainKey k) {key : List Char} (hspells : Spells key k)
include hk hspells

/-- Lines can be written with every spelling of a plain key. -/
theorem isWritable_of_spells (exported : Bool) : IsWritable exported key ∧ '\n' ∉ key := by
  have hline := isLineKey_of_spells hk hspells false
  have hapart := fun c hc => isSpellingChar_apart (isSpellingChar_of_spells hk hspells c hc)
  refine ⟨⟨hline.isKeyText exported, fun c hc => ?_, fun hends => ?_⟩, fun hmem => ?_⟩
  · exact (hapart c (List.mem_of_mem_getLast? hc)).1
  · have hbracket : '[' ∈ key := hends.subset (by decide)
    exact (hapart '[' hbracket).2.2.2.1 rfl
  · exact absurd (hapart '\n' hmem).1 (by decide)

/-- **A line is read** as the assignment that it was written for. -/
theorem assignLines_lineOf {v : Value} (hv : IsLineScalar v) (exported append : Bool)
    (m : Entries Value) (rest : List (List Char)) :
    assignLines m (lineOf exported append key v :: rest) =
      assignLines (m.insert k (if append then .array (itemsOf (m.get? k) ++ [v]) else v)) rest := by
  have hread := ofLine?_start hk hspells exported append (scalarText v)
  generalize hunquote : Scalar.unquote Options.standard.quotes (Text.trim (scalarText v)) = found
    at hread
  obtain ⟨text, quote⟩ := found
  have hvalue := (written_scalarText hv).value_eq (a := ⟨k, append, text, quote⟩) hunquote
    (.nested m .standard)
  unfold assignLines lineOf
  rw [List.filterMap_cons_some hread, List.foldl_cons]
  congr 1
  unfold assignTo pathOf
  dsimp only
  rw [hvalue, hk.split_standard]
  cases append <;> rfl

/-- **The lines of a value** write it under its key, and nothing else. A list is written
    where nothing has been written yet. -/
theorem get?_assignLines_assignmentLines {v : Value} (hv : IsLineValue v) (exported : Bool)
    {m : Entries Value} (hm : m.get? k = none) (other : String) :
    (assignLines m (assignmentLines '=' exported key v)).get? other =
      if k = other then some v else m.get? other := by
  rcases hv.cases with ⟨items, rfl, hne, hitems⟩ | ⟨hscalar, hone⟩
  · -- The items that have been written so far stand in front of those that follow.
    have hlist : ∀ (items done : List Value) (m : Entries Value),
        (∀ item ∈ items, IsLineScalar item) → itemsOf (m.get? k) = done →
        (assignLines m (items.map (lineOf exported true key))).get? other =
          if k = other ∧ items ≠ [] then some (.array (done ++ items)) else m.get? other := by
      intro items
      induction items with
      | nil => intro done m _ _; simp [assignLines]
      | cons item rest ih =>
        intro done m hitems hdone
        have hitem := hitems item List.mem_cons_self
        have hrest : ∀ other ∈ rest, IsLineScalar other :=
          fun other hother => hitems other (List.mem_cons_of_mem item hother)
        rw [List.map_cons, assignLines_lineOf hk hspells hitem, if_pos rfl,
          ih (done ++ [item]) _ hrest (by rw [Entries.get?_insert_self, hdone]; rfl)]
        by_cases hother : k = other
        · subst hother
          by_cases hnil : rest = []
          · simp [hnil, hdone]
          · simp [hnil]
        · simp [hother, Entries.get?_insert_of_ne hother]
    rw [assignmentLines_array, hlist items [] m hitems (by rw [hm]; rfl)]
    simp [hne]
  · rw [hone, assignLines_lineOf hk hspells hscalar, if_neg Bool.false_ne_true]
    exact Entries.get?_insert m k other _

end lines

/-! ## Which change concerns a line -/

/-- Changes that an assignment file can be edited by. -/
structure Proper (all : List Change) : Prop where
  plain : ∀ change ∈ all, PlainKey change.folded
  spells : ∀ change ∈ all, Spells change.key.toList change.folded
  values : ∀ change ∈ all, IsLineValue change.value
  distinct : (all.map (·.folded)).Nodup

theorem changeFor?_eq_some_iff {all : List Change} {line : List Char} {exported : Bool}
    {key : List Char} {change : Change} :
    changeFor? '=' all line = some (exported, key, change) ↔
      assigned? '=' line = some (exported, key) ∧
        all.find? (fun change => change.folded == Text.lower (String.ofList key)) =
          some change := by
  unfold changeFor?
  constructor
  · intro h
    obtain ⟨⟨exported', key'⟩, hassigned, h⟩ := Option.bind_eq_some_iff.mp h
    obtain ⟨found, hfind, h⟩ := Option.bind_eq_some_iff.mp h
    obtain ⟨rfl, heq⟩ := Prod.mk.inj (Option.some.inj h)
    obtain ⟨rfl, rfl⟩ := Prod.mk.inj heq
    exact ⟨hassigned, hfind⟩
  · rintro ⟨hassigned, hfind⟩
    simp only [hassigned, Option.bind_eq_bind, Option.bind_some, hfind]
    rfl

/-- A change that concerns a line is one of the changes, and the line spells its key. -/
theorem spells_of_changeFor? {all : List Change} {line : List Char} {exported : Bool}
    {key : List Char} {change : Change}
    (h : changeFor? '=' all line = some (exported, key, change)) :
    change ∈ all ∧ Spells key change.folded := by
  obtain ⟨_, hfind⟩ := changeFor?_eq_some_iff.mp h
  have hfolded := List.find?_some hfind
  exact ⟨List.mem_of_find?_eq_some hfind, (beq_iff_eq.mp hfolded).symm⟩

/-- Whether a line assigns a key, as the editor sees it. -/
def assigns (k : String) (line : List Char) : Bool :=
  match assigned? '=' line with
  | some (_, key) => k == Text.lower (String.ofList key)
  | none => false

theorem assigns_iff {k : String} {line : List Char} :
    assigns k line = true ↔ ∃ exported key, assigned? '=' line = some (exported, key) ∧
      Spells key k := by
  unfold assigns
  cases hassigned : assigned? '=' line with
  | none => simp
  | some found =>
    obtain ⟨exported, key⟩ := found
    constructor
    · intro h
      exact ⟨exported, key, rfl, (beq_iff_eq.mp h).symm⟩
    · rintro ⟨_, _, heq, hspells⟩
      obtain ⟨rfl, rfl⟩ := Prod.mk.inj (Option.some.inj heq)
      exact beq_iff_eq.mpr hspells.symm

/-- No change concerns a line that assigns none of their keys. -/
theorem changeFor?_eq_none_iff {all : List Change} {line : List Char} :
    changeFor? '=' all line = none ↔ ∀ change ∈ all, assigns change.folded line = false := by
  constructor
  · intro h change hchange
    rw [Bool.eq_false_iff]
    intro hassigns
    obtain ⟨exported, key, hassigned, hspells⟩ := assigns_iff.mp hassigns
    unfold changeFor? at h
    rw [hassigned] at h
    cases hfind : all.find? (fun change => change.folded == Text.lower (String.ofList key)) with
    | none =>
      exact List.find?_eq_none.mp hfind change hchange (beq_iff_eq.mpr hspells.symm)
    | some found =>
      simp only [Option.bind_eq_bind, Option.bind_some, hfind] at h
      exact nomatch h
  · intro h
    cases hchange : changeFor? '=' all line with
    | none => rfl
    | some found =>
      obtain ⟨exported, key, change⟩ := found
      obtain ⟨hmem, hspells⟩ := spells_of_changeFor? hchange
      have hassigned := (changeFor?_eq_some_iff.mp hchange).1
      have hassigns := assigns_iff.mpr ⟨exported, key, hassigned, hspells⟩
      exact absurd (h change hmem) (Bool.not_eq_false _ ▸ hassigns)

/-! ## What the editor does with a line -/

section editing

variable {all : List Change} {written : List String} {line : List Char} {exported : Bool}
  {key : List Char} {change : Change} (rest : List (List Char))

/-- **Step.** A line that no change concerns is kept. -/
theorem editLines_of_none (h : changeFor? '=' all line = none) :
    editLines '=' all written (line :: rest) =
      (line :: (editLines '=' all written rest).1, (editLines '=' all written rest).2) := by
  rw [editLines, h]

/-- **Step.** A line of a change that has been written is dropped. -/
theorem editLines_of_mem (h : changeFor? '=' all line = some (exported, key, change))
    (hwritten : change.folded ∈ written) :
    editLines '=' all written (line :: rest) = editLines '=' all written rest := by
  rw [editLines, h]
  exact if_pos (List.contains_iff_mem.mpr hwritten)

/-- **Step.** The first line of a change is replaced. -/
theorem editLines_of_not_mem (h : changeFor? '=' all line = some (exported, key, change))
    (hnew : change.folded ∉ written) :
    editLines '=' all written (line :: rest) =
      (assignmentLines '=' exported key change.value ++
          (editLines '=' all (change.folded :: written) rest).1,
        (editLines '=' all (change.folded :: written) rest).2) := by
  rw [editLines, h]
  exact if_neg fun hwritten => hnew (List.contains_iff_mem.mp hwritten)

end editing

section changes

variable {all : List Change} (hall : Proper all)
include hall

theorem changeFor?_eq_some {line : List Char} {exported : Bool} {key : List Char} {change : Change}
    (h : changeFor? '=' all line = some (exported, key, change)) :
    change ∈ all ∧ Spells key change.folded ∧
      ∃ a, Assignment.ofLine? .standard line = some a ∧ a.key = change.folded := by
  obtain ⟨hmem, hspells⟩ := spells_of_changeFor? h
  exact ⟨hmem, hspells, (key_ofLine?_iff (hall.plain _ hmem)).mpr
    ⟨exported, key, (changeFor?_eq_some_iff.mp h).1, hspells⟩⟩

/-- A line that no change concerns assigns another key, if it assigns any. -/
theorem key_ne_of_changeFor?_eq_none {line : List Char} (h : changeFor? '=' all line = none)
    {a : Assignment} (ha : Assignment.ofLine? .standard line = some a) {change : Change}
    (hchange : change ∈ all) : a.key ≠ change.folded := by
  intro hkey
  have hassigns := assigns_iff.mpr ((key_ofLine?_iff (hall.plain _ hchange)).mp ⟨a, ha, hkey⟩)
  rw [changeFor?_eq_none_iff.mp h change hchange] at hassigns
  exact nomatch hassigns

end changes

/-! ## The invariant -/

/-- The two trees while a file is edited: `m` from the original lines, `n` from the edited
    ones, where the changes in `written` have been dealt with. -/
structure Tracks (all : List Change) (written : List String) (m n : Entries Value) : Prop where
  ordered : m.Ordered ∧ n.Ordered
  others : ∀ key, (∀ change ∈ all, change.folded ≠ key) → n.get? key = m.get? key
  done : ∀ change ∈ all, change.folded ∈ written → n.get? change.folded = some change.value
  missing : ∀ change ∈ all, change.folded ∉ written → n.get? change.folded = none

/-- A line that the editor can keep: it refers to nothing, and it assigns nothing beneath
    an edited key. -/
structure Keepable (all : List Change) (line : List Char) : Prop where
  dollar : '$' ∉ line
  above : ∀ a, Assignment.ofLine? .standard line = some a → ∀ change ∈ all,
    ¬ (Addressing.paths .standard).Beneath a.key change.folded

theorem ordered_assignLines {m : Entries Value} (h : m.Ordered) (lines : List (List Char)) :
    (assignLines m lines).Ordered := by
  unfold assignLines
  induction lines.filterMap (Assignment.ofLine? .standard) generalizing m with
  | nil => exact h
  | cons a rest ih => exact ih (ordered_assignTo h a)

theorem assignLines_append (m : Entries Value) (first second : List (List Char)) :
    assignLines m (first ++ second) = assignLines (assignLines m first) second := by
  unfold assignLines
  rw [List.filterMap_append, List.foldl_append]

theorem assignLines_cons (m : Entries Value) (line : List Char) (rest : List (List Char)) :
    assignLines m (line :: rest) = assignLines (assignLines m [line]) rest :=
  assignLines_append m [line] rest

section steps

variable {all : List Change} (hall : Proper all) {written : List String} {m n : Entries Value}
  (h : Tracks all written m n)
include hall h

/-- **Step.** A line that no change concerns is kept. -/
theorem Tracks.keep {line : List Char} (hnone : changeFor? '=' all line = none)
    (hline : Keepable all line) :
    Tracks all written (assignLines m [line]) (assignLines n [line]) := by
  have hordered := And.intro (ordered_assignLines h.ordered.1 [line])
    (ordered_assignLines h.ordered.2 [line])
  unfold assignLines at hordered ⊢
  cases ha : Assignment.ofLine? .standard line with
  | none =>
    rw [List.filterMap_cons_none ha]
    exact h
  | some a =>
    rw [List.filterMap_cons_some ha] at hordered ⊢
    have hapart : ∀ change ∈ all, ¬ [change.folded] <+: pathOf a := by
      intro change hchange hstarts
      have hpath := (hall.plain change hchange).split_standard
      apply hline.above a ha change hchange
      rw [Addressing.beneath_iff]
      show Separator.standard.split change.folded <+: pathOf a ∧ pathOf a ≠ _
      rw [hpath]
      refine ⟨hstarts, fun heq => ?_⟩
      exact key_ne_of_changeFor?_eq_none hall hnone ha hchange
        (eq_of_split_standard (heq.trans hpath))
    refine ⟨hordered, ?_, ?_, ?_⟩
    · intro key hkey
      exact get?_assignTo_congr (names_of_ofLine? ha hline.dollar) (h.others key hkey)
    · intro change hchange hwritten
      rw [← h.done change hchange hwritten]
      exact get?_assignTo_of_apart (hapart change hchange) n
    · intro change hchange hwritten
      rw [← h.missing change hchange hwritten]
      exact get?_assignTo_of_apart (hapart change hchange) n

/-- **Step.** A line that a change concerns can be dropped. -/
theorem Tracks.drop {line : List Char} {exported : Bool} {key : List Char} {change : Change}
    (hsome : changeFor? '=' all line = some (exported, key, change)) :
    Tracks all written (assignLines m [line]) n := by
  obtain ⟨hchange, _, a, ha, hkey⟩ := changeFor?_eq_some hall hsome
  refine ⟨⟨ordered_assignLines h.ordered.1 _, h.ordered.2⟩, ?_, h.done, h.missing⟩
  intro other hother
  rw [h.others other hother]
  unfold assignLines
  rw [List.filterMap_cons_some ha]
  -- The line assigned the key of the change, which is another one.
  have hapart : ¬ [other] <+: pathOf a := by
    unfold pathOf
    rw [hkey, (hall.plain change hchange).split_standard, List.cons_prefix_cons]
    exact fun hboth => hother change hchange hboth.1.symm
  exact (get?_assignTo_of_apart hapart m).symm

/-- **Step.** A change is written. -/
theorem Tracks.write {change : Change} (hchange : change ∈ all)
    (hwritten : change.folded ∉ written) (exported : Bool) {key : List Char}
    (hspells : Spells key change.folded) :
    Tracks all (change.folded :: written) m
      (assignLines n (assignmentLines '=' exported key change.value)) := by
  have hread := get?_assignLines_assignmentLines (hall.plain change hchange) hspells
    (hall.values change hchange) exported (h.missing change hchange hwritten)
  refine ⟨⟨h.ordered.1, ordered_assignLines h.ordered.2 _⟩, ?_, ?_, ?_⟩
  · intro other hother
    rw [hread, if_neg (hother change hchange)]
    exact h.others other hother
  · intro other hother hmem
    rw [hread]
    by_cases hsame : change.folded = other.folded
    · have heq : change = other := List.inj_on_of_nodup_map hall.distinct hchange hother hsame
      rw [if_pos hsame, heq]
    · rw [if_neg hsame]
      exact h.done other hother ((List.mem_cons.mp hmem).resolve_left (Ne.symm hsame))
  · intro other hother hmem
    rw [List.mem_cons, not_or] at hmem
    rw [hread, if_neg (Ne.symm hmem.1)]
    exact h.missing other hother hmem.2

/-- **Run.** The invariant holds through the lines. -/
theorem Tracks.editLines {lines : List (List Char)} (hlines : ∀ line ∈ lines, Keepable all line) :
    Tracks all (editLines '=' all written lines).2 (assignLines m lines)
      (assignLines n (editLines '=' all written lines).1) := by
  induction lines generalizing written m n with
  | nil => exact h
  | cons line rest ih =>
    have hrest : ∀ l ∈ rest, Keepable all l := fun l hl => hlines l (List.mem_cons_of_mem line hl)
    rw [assignLines_cons m]
    cases hchange : changeFor? '=' all line with
    | none =>
      rw [editLines_of_none rest hchange, assignLines_cons n]
      exact ih (h.keep hall hchange (hlines line List.mem_cons_self)) hrest
    | some found =>
      obtain ⟨exported, key, change⟩ := found
      have hdropped := h.drop hall hchange
      by_cases hnew : change.folded ∈ written
      · rw [editLines_of_mem rest hchange hnew]
        exact ih hdropped hrest
      · obtain ⟨hmem, hspells⟩ := spells_of_changeFor? hchange
        rw [editLines_of_not_mem rest hchange hnew, assignLines_append]
        exact ih (hdropped.write hall hmem hnew exported hspells) hrest

/-- **Run.** Changes that have not been written are added at the end. -/
theorem Tracks.add {pending : List Change}
    (hpending : ∀ change ∈ pending, change ∈ all ∧ change.folded ∉ written)
    (hdistinct : (pending.map (·.folded)).Nodup) :
    ∃ written', Tracks all written' m (assignLines n (pending.flatMap fun change =>
        assignmentLines '=' false change.key.toList change.value)) ∧
      (∀ key ∈ written, key ∈ written') ∧ ∀ change ∈ pending, change.folded ∈ written' := by
  induction pending generalizing written n with
  | nil => exact ⟨written, h, fun _ hkey => hkey, fun _ hchange => (nomatch hchange)⟩
  | cons change rest ih =>
    obtain ⟨hmem, hnew⟩ := hpending change List.mem_cons_self
    rw [List.map_cons, List.nodup_cons] at hdistinct
    have hnext := h.write hall hmem hnew false (hall.spells change hmem)
    have hrest : ∀ other ∈ rest, other ∈ all ∧ other.folded ∉ change.folded :: written := by
      intro other hother
      obtain ⟨hother', hnew'⟩ := hpending other (List.mem_cons_of_mem change hother)
      refine ⟨hother', ?_⟩
      rw [List.mem_cons, not_or]
      refine ⟨fun heq => hdistinct.1 ?_, hnew'⟩
      rw [← heq]
      exact List.mem_map_of_mem hother
    obtain ⟨written', htracks, hkept, hadded⟩ := ih hnext hrest hdistinct.2
    rw [List.flatMap_cons, assignLines_append]
    refine ⟨written', htracks, fun key hkey => hkept key (List.mem_cons_of_mem _ hkey), ?_⟩
    intro other hother
    rcases List.mem_cons.mp hother with rfl | hother
    · exact hkept _ List.mem_cons_self
    · exact hadded other hother

end steps

/-! ## The edited text -/

/-- The lines that the editor makes: original lines, and lines of new values, in place of
    lines that assign them. -/
theorem exists_of_mem_editLines {all : List Change} {written : List String}
    {lines : List (List Char)} {line : List Char} (h : line ∈ (editLines '=' all written lines).1) :
    line ∈ lines ∨ ∃ other ∈ lines, ∃ exported key change,
      changeFor? '=' all other = some (exported, key, change) ∧
        line ∈ assignmentLines '=' exported key change.value := by
  induction lines generalizing written with
  | nil => exact nomatch h
  | cons first rest ih =>
    have hrest : ∀ {written}, line ∈ (editLines '=' all written rest).1 →
        line ∈ first :: rest ∨ ∃ other ∈ first :: rest, ∃ exported key change,
          changeFor? '=' all other = some (exported, key, change) ∧
            line ∈ assignmentLines '=' exported key change.value := by
      intro written hmem
      rcases ih hmem with hold | ⟨other, hother, hmade⟩
      · exact .inl (List.mem_cons_of_mem first hold)
      · exact .inr ⟨other, List.mem_cons_of_mem first hother, hmade⟩
    cases hchange : changeFor? '=' all first with
    | none =>
      rw [editLines_of_none rest hchange] at h
      rcases List.mem_cons.mp h with rfl | h
      · exact .inl List.mem_cons_self
      · exact hrest h
    | some found =>
      obtain ⟨exported, key, change⟩ := found
      by_cases hwritten : change.folded ∈ written
      · rw [editLines_of_mem rest hchange hwritten] at h
        exact hrest h
      · rw [editLines_of_not_mem rest hchange hwritten] at h
        rcases List.mem_append.mp h with h | h
        · exact .inr ⟨first, List.mem_cons_self, exported, key, change, hchange, h⟩
        · exact hrest h

/-- None of the lines of new values continues another. -/
theorem mem_editLines {all : List Change} (hall : Proper all) {written : List String}
    {lines : List (List Char)} {line : List Char} (h : line ∈ (editLines '=' all written lines).1) :
    line ∈ lines ∨ '\n' ∉ line ∧ isContinuation line = false := by
  apply (exists_of_mem_editLines h).imp_right
  rintro ⟨_, _, exported, key, change, hchange, hline⟩
  obtain ⟨hmem, hspells⟩ := spells_of_changeFor? hchange
  obtain ⟨hkey, hnewline⟩ := isWritable_of_spells (hall.plain change hmem) hspells exported
  exact assignmentLines_apart hkey hnewline (hall.values change hmem) line hline

/-- **The tree of an edited text** reads the new values, and otherwise what the tree of the
    original one reads. -/
theorem tracks_edit {content : List Char} {edits : Entries Value}
    (hall : Proper (changes edits))
    (hlines : ∀ line ∈ Text.lines content,
      isContinuation line = false ∧ Keepable (changes edits) line) :
    ∃ written, Tracks (changes edits) written (treeOf content) (treeOf (edit '=' content edits)) ∧
      ∀ change ∈ changes edits, change.folded ∈ written := by
  have hbegin : Tracks (changes edits) [] [] [] :=
    ⟨⟨Entries.ordered_nil, Entries.ordered_nil⟩, fun _ _ => rfl,
      fun _ _ hmem => (nomatch hmem), fun _ _ _ => rfl⟩
  have hthrough := hbegin.editLines hall fun line hline => (hlines line hline).2
  have hmade : ∀ line ∈ (editLines '=' (changes edits) [] (Text.lines content)).1,
      '\n' ∉ line ∧ isContinuation line = false := by
    intro line hline
    rcases mem_editLines hall hline with horiginal | hnew
    · exact ⟨Text.newline_not_mem_of_mem_lines horiginal, (hlines line horiginal).1⟩
    · exact hnew
  have horiginal : treeOf content = assignLines [] (Text.lines content) := by
    unfold treeOf assignLines
    rw [assignments_of_none fun line hline => (hlines line hline).1]
  unfold edit
  dsimp only
  rw [horiginal]
  generalize editLines '=' (changes edits) [] (Text.lines content) = made at hthrough hmade ⊢
  -- What is pending after the lines is written behind them.
  have hpending : ∀ change ∈ (changes edits).filter (fun change => !made.2.contains change.folded),
      change ∈ changes edits ∧ change.folded ∉ made.2 := by
    intro change hchange
    rw [List.mem_filter] at hchange
    exact ⟨hchange.1, by simpa using hchange.2⟩
  have hdistinct := List.Nodup.sublist
    (List.Sublist.map Change.folded (List.filter_sublist (l := changes edits)
      (p := fun change => !made.2.contains change.folded))) hall.distinct
  obtain ⟨written, htracks, hkept, hadded⟩ := hthrough.add hall hpending hdistinct
  have hadds : ∀ line ∈ made.1 ++ ((changes edits).filter
      fun change => !made.2.contains change.folded).flatMap
        (fun change => assignmentLines '=' false change.key.toList change.value),
      '\n' ∉ line ∧ isContinuation line = false := by
    intro line hline
    rcases List.mem_append.mp hline with hline | hline
    · exact hmade line hline
    · obtain ⟨change, hchange, hmem⟩ := List.mem_flatMap.mp hline
      obtain ⟨hchange', _⟩ := hpending change hchange
      obtain ⟨hkey, hnewline⟩ :=
        isWritable_of_spells (hall.plain change hchange') (hall.spells change hchange') false
      exact assignmentLines_apart hkey hnewline (hall.values change hchange') line hmem
  refine ⟨written, ?_, ?_⟩
  · rw [treeOf_unlines hadds, assignLines_append]
    exact htracks
  · intro change hchange
    by_cases hmem : change.folded ∈ made.2
    · exact hkept _ hmem
    · apply hadded
      rw [List.mem_filter]
      exact ⟨hchange, by simpa using hmem⟩

/-! ## The updated settings -/

/-- The store with the edits carried out, each of them under its key in lower case. -/
def updated (store : Store) (edits : Entries Value) : Store :=
  edits.foldl (fun store (key, v) => store.set (Text.lower key) v) store

/-- In a nested store, plain keys are updated at the outermost level. -/
theorem updated_nested {edits : Entries Value} (hplain : ∀ e ∈ edits, PlainKey e.1)
    (m : Entries Value) :
    updated (.nested m .standard) edits =
      .nested (edits.foldl (fun m e => m.insert (Text.lower e.1) e.2) m) .standard := by
  unfold updated
  induction edits generalizing m with
  | nil => rfl
  | cons e rest ih =>
    have hpath := (hplain e List.mem_cons_self).lower.split_standard
    rw [List.foldl_cons, List.foldl_cons, ← ih fun e' he' => hplain e' (List.mem_cons_of_mem e he')]
    congr 1
    show Store.nested (m.setAt (Separator.standard.split (Text.lower e.1)) e.2) .standard = _
    rw [hpath]
    rfl

/-- What is read after updates of different keys. -/
theorem get?_foldl_insert {edits : Entries Value} (keyOf : String → String)
    (hdistinct : (edits.map fun e => keyOf e.1).Nodup) (m : Entries Value) (key : String) :
    (∀ e ∈ edits, keyOf e.1 = key →
      (edits.foldl (fun m e => m.insert (keyOf e.1) e.2) m).get? key = some e.2) ∧
    ((∀ e ∈ edits, keyOf e.1 ≠ key) →
      (edits.foldl (fun m e => m.insert (keyOf e.1) e.2) m).get? key = m.get? key) := by
  induction edits generalizing m with
  | nil => exact ⟨fun _ he => (nomatch he), fun _ => rfl⟩
  | cons first rest ih =>
    rw [List.map_cons, List.nodup_cons] at hdistinct
    obtain ⟨hread, hother⟩ := ih hdistinct.2 (m.insert (keyOf first.1) first.2)
    rw [List.foldl_cons]
    constructor
    · intro e he hkey
      rcases List.mem_cons.mp he with rfl | he
      · subst hkey
        rw [hother, Entries.get?_insert_self]
        intro e' he' heq
        exact hdistinct.1 (heq ▸ List.mem_map_of_mem he')
      · exact hread e he hkey
    · intro hnone
      rw [hother fun e he => hnone e (List.mem_cons_of_mem first he)]
      exact Entries.get?_insert_of_ne (hnone first List.mem_cons_self) _

section edits

variable {edits : Entries Value} (hvalues : ∀ e ∈ edits, IsLineValue e.2)
include hvalues

/-- No edit is null, so every one of them is a change. -/
theorem changes_eq : changes edits = edits.map fun e => ⟨Text.lower e.1, e.1, e.2⟩ := by
  unfold changes
  rw [List.filter_eq_self.mpr]
  intro e he
  obtain ⟨key, v⟩ := e
  cases v with
  | null => exact (hvalues _ he).elim
  | _ => rfl

theorem exists_of_mem_changes {change : Change} (h : change ∈ changes edits) :
    ∃ e ∈ edits, change = ⟨Text.lower e.1, e.1, e.2⟩ := by
  rw [changes_eq hvalues] at h
  obtain ⟨e, he, rfl⟩ := List.mem_map.mp h
  exact ⟨e, he, rfl⟩

theorem proper_changes (hplain : ∀ e ∈ edits, PlainKey e.1)
    (hdistinct : (edits.map fun e => Text.lower e.1).Nodup) : Proper (changes edits) := by
  refine ⟨?_, ?_, ?_, ?_⟩
  · intro change hchange
    obtain ⟨e, he, rfl⟩ := exists_of_mem_changes hvalues hchange
    exact (hplain e he).lower
  · intro change hchange
    obtain ⟨e, he, rfl⟩ := exists_of_mem_changes hvalues hchange
    exact congrArg Text.lower String.ofList_toList
  · intro change hchange
    obtain ⟨e, he, rfl⟩ := exists_of_mem_changes hvalues hchange
    exact hvalues e he
  · rw [changes_eq hvalues, List.map_map]
    exact hdistinct

end edits

/-- **Editing updates the settings.** Take a text without continuations and dollar signs,
    and edits of different plain keys to values that lines can hold, where no key of the
    text is beneath an edited one. The edited text loads to the settings that the
    original one loads to, with every edit carried out. -/
theorem edit_updates (files : Snapshot) (content : List Char) (edits : Entries Value)
    (hlines : ∀ line ∈ Text.lines content, isContinuation line = false)
    (hdollar : '$' ∉ content)
    (hplain : ∀ e ∈ edits, PlainKey e.1)
    (hdistinct : (edits.map fun e => Text.lower e.1).Nodup)
    (hvalues : ∀ e ∈ edits, IsLineValue e.2)
    (habove : ∀ e ∈ edits, ¬ (Addressing.paths .standard).SomeBeneath
      ((Source.conf content .standard).keys false) (Text.lower e.1)) :
    ∃ edited before after,
      (Editor.conf '=').edit content edits = .ok edited ∧
      (Source.conf content .standard).process files
        (Session.fresh (.nested [] .standard)) = .ok before ∧
      (Source.conf edited .standard).process files
        (Session.fresh (.nested [] .standard)) = .ok after ∧
      after.store = updated before.store edits := by
  have hchanges := changes_eq hvalues
  have hall := proper_changes hvalues hplain hdistinct
  have hmem : ∀ change ∈ changes edits, ∃ e ∈ edits, change = ⟨Text.lower e.1, e.1, e.2⟩ :=
    fun change hchange => exists_of_mem_changes hvalues hchange
  have hkeepable : ∀ line ∈ Text.lines content,
      isContinuation line = false ∧ Keepable (changes edits) line := by
    intro line hline
    refine ⟨hlines line hline, fun hd => hdollar (Text.mem_of_mem_lines hline _ hd), ?_⟩
    intro a ha change hchange hbeneath
    obtain ⟨e, he, rfl⟩ := hmem change hchange
    apply habove e he
    refine ⟨a.key, ?_, hbeneath⟩
    have hassigned : a ∈ Source.Conf.assignments .standard content := by
      rw [assignments_of_none hlines]
      exact List.mem_filterMap.mpr ⟨line, hline, ha⟩
    exact List.mem_map_of_mem (List.mem_filter.mpr ⟨hassigned, rfl⟩)
  obtain ⟨written, htracks, hwritten⟩ := tracks_edit hall hkeepable
  obtain ⟨before, hbefore, hbeforeStore⟩ := Source.Conf.process_standard files content
  obtain ⟨after, hafter, hafterStore⟩ :=
    Source.Conf.process_standard files (edit '=' content edits)
  refine ⟨edit '=' content edits, before, after, rfl, hbefore, hafter, ?_⟩
  rw [hafterStore, hbeforeStore, updated_nested hplain]
  congr 1
  -- Both are ordered, so it is enough that every key reads the same.
  apply htracks.ordered.2.ext (htracks.ordered.1.foldl_insert (fun e => Text.lower e.1) (·.2) edits)
  intro key
  obtain ⟨hedited, hother⟩ := get?_foldl_insert Text.lower hdistinct (treeOf content) key
  by_cases hkey : ∃ e ∈ edits, Text.lower e.1 = key
  · obtain ⟨e, he, rfl⟩ := hkey
    have hchange : (⟨Text.lower e.1, e.1, e.2⟩ : Change) ∈ changes edits := by
      rw [hchanges]
      exact List.mem_map_of_mem he
    rw [hedited e he rfl]
    exact htracks.done _ hchange (hwritten _ hchange)
  · have hnone : ∀ e ∈ edits, Text.lower e.1 ≠ key := fun e he heq => hkey ⟨e, he, heq⟩
    rw [hother hnone]
    apply htracks.others
    intro change hchange
    obtain ⟨e, he, rfl⟩ := hmem change hchange
    exact hnone e he

/-- A list takes the place of two lines, the one of them exported, and a text that looks
    like a number is added. -/
theorem edit_updates_list_and_text :
    ∃ edited before after,
      (Editor.conf '=').edit "# app\nexport Tags[]=old\nn=1\ntags[]=older\n".toList
        [("Port", .string "80"), ("tags", .array [.string "a b", .bool true])] = .ok edited ∧
      (Source.conf "# app\nexport Tags[]=old\nn=1\ntags[]=older\n".toList .standard).process
        ⟨fun _ => none⟩ (Session.fresh (.nested [] .standard)) = .ok before ∧
      (Source.conf edited .standard).process ⟨fun _ => none⟩
        (Session.fresh (.nested [] .standard)) = .ok after ∧
      after.store = updated before.store
        [("Port", .string "80"), ("tags", .array [.string "a b", .bool true])] :=
  edit_updates ⟨fun _ => none⟩ _ _ (by decide +kernel) (by decide +kernel) (by decide +kernel)
    (by decide +kernel) (by decide +kernel) (by decide +kernel)

end LayeredConfig.Edit.Conf
