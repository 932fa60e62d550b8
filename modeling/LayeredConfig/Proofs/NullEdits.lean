import LayeredConfig.Edit
import LayeredConfig.Proofs.DocumentTree
import LayeredConfig.Proofs.Overlays
import LayeredConfig.Proofs.TidyDocuments
import Mathlib.Data.List.Nodup

/-! # Null edits

    An edit to null is to change nothing. In an assignment file it never does, since such
    edits are left out from the start. In a document they are gathered with the others
    first: each of them is written at its path, into the object that is laid over the
    document. That they come to nothing there depends on what they meet.

    The edits are gathered in the order of their keys, so an edit at a path comes before
    all those beneath it. A null edit is void if the document has objects all the way to
    the last step of its path, for then the null is passed over; or if an edit to a value
    is beneath it, for then that one makes an object of the null. In all other cases the
    null stays in the edited document. Null edits beneath an edit to a value are left aside
    here; they are written into that value.

    **Main results.** `edited_withoutNulls_iff`; `edit_withoutNulls_iff` for all editors.
    `null_edit_adds_object` is a null edit that changes a document.
-/

namespace LayeredConfig

/-! ## The order of keys and paths -/

/-- The joined text of some parts begins that of the same parts and more. -/
theorem Text.join_prefix_append (delimiter : List Char) (parts more : List (List Char)) :
    join delimiter parts <+: join delimiter (parts ++ more) := by
  induction parts with
  | nil => exact List.nil_prefix
  | cons part rest ih =>
    by_cases hrest : rest = []
    · subst hrest
      by_cases hmore : more = []
      · subst hmore
        exact List.prefix_rfl
      · rw [List.singleton_append, join_cons _ _ hmore, List.append_assoc]
        exact List.prefix_append part _
    · rw [List.cons_append, join_cons _ _ hrest, join_cons _ _ (by simp [hrest]),
        List.prefix_append_right_inj]
      exact ih

namespace Separator

variable {s : Separator}

/-- A key is not smaller than those whose paths its own goes on from. -/
theorem le_of_split {name key : String} (h : s.split name <+: s.split key) : name ≤ key := by
  obtain ⟨rest, hrest⟩ := h
  have hbegins : name.toList <+: key.toList := by
    rw [← s.join_split name, ← s.join_split key, ← hrest]
    unfold join
    rw [String.toList_ofList, String.toList_ofList, List.map_append]
    exact Text.join_prefix_append _ _ _
  by_cases hname : name = key
  · exact le_of_eq hname
  · exact le_of_lt (lt_of_begins hbegins hname)

theorem not_split_of_lt {name key : String} (h : name < key) : ¬ s.split key <+: s.split name :=
  fun hbegins => absurd (le_of_split hbegins) (not_le_of_gt h)

/-- A key whose path goes on from that of another key is beneath it. -/
theorem beneath_of_split {name key : String} (h : s.split name <+: s.split key)
    (hne : name ≠ key) : (Addressing.paths s).Beneath key name := by
  rw [Addressing.beneath_iff]
  refine ⟨h, fun hpath => hne ?_⟩
  have hkey : s.split key = s.split name := hpath
  have hback : s.split key <+: s.split name := by
    rw [hkey]
  exact le_antisymm (le_of_split h) (le_of_split hback)

/-- A key beneath another one is greater. -/
theorem lt_of_beneath {name key : String} (h : (Addressing.paths s).Beneath key name) :
    name < key := by
  obtain ⟨hbegins, hne⟩ := (Addressing.beneath_iff _ _ _).mp h
  apply lt_of_le_of_ne (le_of_split hbegins)
  rintro rfl
  exact hne rfl

end Separator

/-! ## Gathering edits -/

/-- What is at a path is still there, changed perhaps, after a write that is neither at the
    path nor above it. -/
theorem Entries.isSome_at?_setAt {m : Entries Value} {p q : List String}
    (h : (m.at? q).isSome = true) (hpq : ¬ p <+: q) (v : Value) :
    ((m.setAt p v).at? q).isSome = true := by
  have hq : q ≠ [] := by
    rintro rfl
    rw [at?_nil] at h
    exact nomatch h
  cases lies p q with
  | same => exact absurd List.prefix_rfl hpq
  | beyond _ r _ => exact absurd (List.prefix_append p r) hpq
  | above _ r hr =>
    rw [at?_setAt_above m hq hr]
    rfl
  | apart _ _ _ hqp => rwa [at?_setAt_apart m hpq hqp]

namespace Edit

/-- The edits without those to null. -/
def withoutNulls (edits : Entries Value) : Entries Value :=
  edits.filter fun entry => !entry.2.isNull

theorem mem_withoutNulls {edits : Entries Value} {entry : String × Value} :
    entry ∈ withoutNulls edits ↔ entry ∈ edits ∧ entry.2 ≠ .null := by
  unfold withoutNulls
  rw [List.mem_filter]
  apply and_congr_right
  intro _
  cases entry.2 <;> simp [Value.isNull]

theorem withoutNulls_null (key : String) (rest : Entries Value) :
    withoutNulls ((key, .null) :: rest) = withoutNulls rest := rfl

theorem withoutNulls_cons {v : Value} (h : v ≠ .null) (key : String) (rest : Entries Value) :
    withoutNulls ((key, v) :: rest) = (key, v) :: withoutNulls rest := by
  unfold withoutNulls
  rw [List.filter_cons_of_pos]
  cases v with
  | null => exact absurd rfl h
  | _ => rfl

namespace Document

/-- Edits gathered into a tree that is there already. -/
def gatherInto (separator : Separator) (tree : Entries Value) (edits : Entries Value) :
    Entries Value :=
  edits.foldl (fun tree entry => tree.setAt (separator.split entry.1) entry.2) tree

variable {separator : Separator}

theorem gatherInto_cons (tree : Entries Value) (key : String) (v : Value) (rest : Entries Value) :
    gatherInto separator tree ((key, v) :: rest) =
      gatherInto separator (tree.setAt (separator.split key) v) rest := rfl

/-- Gathered edits are tidy. -/
theorem tidy_gatherInto {tree edits : Entries Value} (htree : (Value.object tree).Tidy)
    (hedits : ∀ entry ∈ edits, entry.2.Tidy) :
    (Value.object (gatherInto separator tree edits)).Tidy := by
  induction edits generalizing tree with
  | nil => exact htree
  | cons entry rest ih =>
    obtain ⟨hentry, hrest⟩ := List.forall_mem_cons.mp hedits
    exact ih (htree.setAt _ hentry) hrest

/-- Trees that leave the same still do when the same edits are gathered into them. -/
theorem overlayFields_gatherInto_congr {fields t u edits : Entries Value}
    (hfields : (Value.object fields).Tidy) (ht : (Value.object t).Tidy)
    (hu : (Value.object u).Tidy) (hedits : ∀ entry ∈ edits, entry.2.Tidy)
    (h : Value.overlayFields fields t = Value.overlayFields fields u) :
    Value.overlayFields fields (gatherInto separator t edits) =
      Value.overlayFields fields (gatherInto separator u edits) := by
  induction edits generalizing t u with
  | nil => exact h
  | cons entry rest ih =>
    obtain ⟨hentry, hrest⟩ := List.forall_mem_cons.mp hedits
    exact ih (ht.setAt _ hentry) (hu.setAt _ hentry) hrest
      (Value.overlayFields_setAt_congr hfields ht hu h _ _)

/-- Nothing changes at a path that parts from those of all edits. -/
theorem at?_gatherInto_of_not_meets {p : List String} {tree edits : Entries Value}
    (hparts : ∀ entry ∈ edits, ¬ Meets (separator.split entry.1) p) :
    Entries.at? (gatherInto separator tree edits) p = tree.at? p := by
  induction edits generalizing tree with
  | nil => rfl
  | cons entry rest ih =>
    obtain ⟨hfirst, hrest⟩ := List.forall_mem_cons.mp hparts
    rw [gatherInto_cons, ih hrest]
    exact Entries.at?_setAt_of_not_meets hfirst tree entry.2

/-- What is at the path of a key stays there, changed perhaps, under greater keys. -/
theorem isSome_at?_gatherInto {key : String} {tree edits : Entries Value}
    (htree : (tree.at? (separator.split key)).isSome = true)
    (hlater : ∀ entry ∈ edits, key < entry.1) :
    (Entries.at? (gatherInto separator tree edits) (separator.split key)).isSome = true := by
  induction edits generalizing tree with
  | nil => exact htree
  | cons entry rest ih =>
    obtain ⟨hentry, hrest⟩ := List.forall_mem_cons.mp hlater
    have hnot := Separator.not_split_of_lt (s := separator) hentry
    exact ih (Entries.isSome_at?_setAt htree hnot entry.2) hrest

/-- Something is gathered at the path of every edit. -/
theorem isSome_at?_gatherInto_of_mem {tree edits : Entries Value} (hedits : edits.Ordered)
    {entry : String × Value} (hentry : entry ∈ edits) :
    (Entries.at? (gatherInto separator tree edits) (separator.split entry.1)).isSome = true := by
  induction edits generalizing tree with
  | nil => exact nomatch hentry
  | cons first rest ih =>
    obtain ⟨key, v⟩ := first
    rw [Entries.ordered_cons_iff] at hedits
    obtain ⟨hfirst, hrest⟩ := hedits
    rw [gatherInto_cons]
    rcases List.mem_cons.mp hentry with rfl | hmem
    · apply isSome_at?_gatherInto
      · rw [Entries.at?_setAt_self tree (separator.split_ne_nil key)]
        rfl
      · exact fun other hother => hfirst other.1 (List.mem_map_of_mem hother)
    · exact ih hrest hmem

/-- **A null is replaced** by the first edit beneath its key. -/
theorem gatherInto_setAt_null {key : String} {tree edits : Entries Value}
    (hvacant : tree.Vacant (separator.split key)) (hlater : ∀ entry ∈ edits, key < entry.1)
    (hbeneath : ∃ entry ∈ edits, (Addressing.paths separator).Beneath entry.1 key) :
    gatherInto separator (tree.setAt (separator.split key) .null) edits =
      gatherInto separator tree edits := by
  induction edits generalizing tree with
  | nil =>
    obtain ⟨entry, hentry, _⟩ := hbeneath
    exact nomatch hentry
  | cons entry rest ih =>
    obtain ⟨hentry, hrest⟩ := List.forall_mem_cons.mp hlater
    have hpath := separator.split_ne_nil key
    by_cases hfirst : (Addressing.paths separator).Beneath entry.1 key
    · obtain ⟨more, hmore, hsplit⟩ := hfirst
      have heq : separator.split entry.1 = separator.split key ++ more := hsplit
      have hinside : Value.null.fields = tree.inside (separator.split key) :=
        hvacant.inside_eq_nil.symm
      rw [gatherInto_cons, gatherInto_cons, heq,
        Entries.setAt_setAt_append tree hpath hmore hinside]
    · -- The edit is beside the null, so the null can be written after it.
      have hdown : ¬ separator.split key <+: separator.split entry.1 :=
        fun h => hfirst (Separator.beneath_of_split h hentry.ne)
      have hup := Separator.not_split_of_lt (s := separator) hentry
      have hparts : ¬ Meets (separator.split key) (separator.split entry.1) := by
        rintro (h | h)
        · exact hdown h
        · exact hup h
      have hstill := hvacant.setAt (v := entry.2) hdown fun h => absurd h hup
      rw [gatherInto_cons, gatherInto_cons, Entries.setAt_comm hparts]
      apply ih hstill hrest
      obtain ⟨other, hother, hbelow⟩ := hbeneath
      rcases List.mem_cons.mp hother with rfl | hmem
      · exact absurd hbelow hfirst
      · exact ⟨other, hmem, hbelow⟩

/-! ## Void edits -/

/-- Whether no null edit is beneath an edit to a value. -/
def NullsApart (separator : Separator) (edits : Entries Value) : Prop :=
  ∀ entry ∈ edits, entry.2 = .null → ∀ other ∈ edits, other.2 ≠ .null →
    ¬ (Addressing.paths separator).Beneath entry.1 other.1

/-- Whether a null edit of a key comes to nothing: the document has objects all the way to
    the last step of the path, or there is an edit to a value beneath the key. -/
def IsVoid (separator : Separator) (edits fields : Entries Value) (key : String) : Prop :=
  (fields.parent? (separator.split key)).isSome = true ∨
    ∃ other ∈ edits, other.2 ≠ .null ∧ (Addressing.paths separator).Beneath other.1 key

instance (separator : Separator) (edits : Entries Value) :
    Decidable (NullsApart separator edits) :=
  inferInstanceAs (Decidable (∀ entry ∈ edits, entry.2 = .null →
    ∀ other ∈ edits, other.2 ≠ .null → ¬ (Addressing.paths separator).Beneath entry.1 other.1))

instance (separator : Separator) (edits fields : Entries Value) (key : String) :
    Decidable (IsVoid separator edits fields key) :=
  inferInstanceAs (Decidable (_ ∨ ∃ other ∈ edits, other.2 ≠ .null ∧
    (Addressing.paths separator).Beneath other.1 key))

theorem NullsApart.tail {first : String × Value} {rest : Entries Value}
    (h : NullsApart separator (first :: rest)) : NullsApart separator rest :=
  fun entry hentry hnull other hother =>
    h entry (List.mem_cons_of_mem _ hentry) hnull other (List.mem_cons_of_mem _ hother)

/-- A null edit is void for the edits that come later, since those beneath it do. -/
theorem IsVoid.tail {first : String × Value} {rest fields : Entries Value} {key : String}
    (h : IsVoid separator (first :: rest) fields key) (hlater : first.1 < key) :
    IsVoid separator rest fields key := by
  rcases h with hparent | ⟨other, hother, hvalue, hbeneath⟩
  · exact .inl hparent
  · rcases List.mem_cons.mp hother with rfl | hmem
    · exact absurd (Separator.lt_of_beneath hbeneath) (lt_asymm hlater)
    · exact .inr ⟨other, hmem, hvalue, hbeneath⟩

/-- **Void edits change nothing**, wherever they are gathered, if their paths are vacant
    there. -/
theorem overlay_gatherInto_withoutNulls {fields tree edits : Entries Value}
    (hfields : (Value.object fields).Tidy) (htree : (Value.object tree).Tidy)
    (hedits : (Value.object edits).Tidy) (hapart : NullsApart separator edits)
    (hvacant : ∀ entry ∈ edits, entry.2 = .null → tree.Vacant (separator.split entry.1))
    (hvoid : ∀ entry ∈ edits, entry.2 = .null → IsVoid separator edits fields entry.1) :
    Value.overlayFields fields (gatherInto separator tree edits) =
      Value.overlayFields fields (gatherInto separator tree (withoutNulls edits)) := by
  induction edits generalizing tree with
  | nil => rfl
  | cons first rest ih =>
    obtain ⟨key, v⟩ := first
    obtain ⟨hfirst, hrest⟩ := Entries.ordered_cons_iff.mp hedits.ordered
    have hlater : ∀ entry ∈ rest, key < entry.1 := fun entry hentry =>
      hfirst entry.1 (List.mem_map_of_mem hentry)
    have hvalues : ∀ entry ∈ rest, entry.2.Tidy := fun entry hentry =>
      hedits.of_mem (List.mem_cons_of_mem _ hentry)
    have hrestVacant : ∀ entry ∈ rest, entry.2 = .null → tree.Vacant (separator.split entry.1) :=
      fun entry hentry => hvacant entry (List.mem_cons_of_mem _ hentry)
    have hrestVoid : ∀ entry ∈ rest, entry.2 = .null → IsVoid separator rest fields entry.1 :=
      fun entry hentry hnull =>
        (hvoid entry (List.mem_cons_of_mem _ hentry) hnull).tail (hlater entry hentry)
    by_cases hnull : v = .null
    · subst hnull
      have hkey := hvacant (key, .null) List.mem_cons_self rfl
      rw [gatherInto_cons, withoutNulls_null,
        ← ih htree (.object hrest hvalues) hapart.tail hrestVacant hrestVoid]
      rcases hvoid (key, .null) List.mem_cons_self rfl with hparent | hcovered
      · have htreeNull := htree.setAt (separator.split key) (.leaf (v := .null) trivial)
        apply overlayFields_gatherInto_congr hfields htreeNull htree hvalues
        exact Value.overlayFields_setAt_null hfields htree hkey hparent
      · obtain ⟨other, hother, hvalue, hbeneath⟩ := hcovered
        rcases List.mem_cons.mp hother with rfl | hmem
        · exact absurd rfl hvalue
        · rw [gatherInto_setAt_null hkey hlater ⟨other, hmem, hbeneath⟩]
    · rw [gatherInto_cons, withoutNulls_cons hnull, gatherInto_cons]
      have hv : v.Tidy := hedits.of_mem List.mem_cons_self
      apply ih (htree.setAt _ hv) (.object hrest hvalues) hapart.tail _ hrestVoid
      intro entry hentry hentryNull
      have hlt := hlater entry hentry
      have hbeside : ¬ (Addressing.paths separator).Beneath entry.1 key :=
        hapart entry (List.mem_cons_of_mem _ hentry) hentryNull (key, v) List.mem_cons_self hnull
      apply (hrestVacant entry hentry hentryNull).setAt
      · exact Separator.not_split_of_lt hlt
      · intro habove
        exact absurd (Separator.beneath_of_split habove hlt.ne) hbeside

/-- An edit to null and an edit to a value have different keys. -/
theorem key_ne_of_null {edits : Entries Value} (hedits : edits.Ordered)
    {entry other : String × Value} (hentry : entry ∈ edits) (hnull : entry.2 = .null)
    (hother : other ∈ edits) (hvalue : other.2 ≠ .null) : entry.1 ≠ other.1 := by
  have hnodup : (edits.map (·.1)).Nodup := List.Pairwise.imp ne_of_lt hedits
  intro hkey
  obtain rfl := List.inj_on_of_nodup_map hnodup hentry hother hkey
  exact hvalue hnull

/-- Edits to values part from a null edit that is neither above any of them nor beneath. -/
theorem not_meets_of_null {edits : Entries Value} (hedits : edits.Ordered)
    (hapart : NullsApart separator edits) {entry : String × Value} (hentry : entry ∈ edits)
    (hnull : entry.2 = .null)
    (hcovered : ¬ ∃ other ∈ edits, other.2 ≠ .null ∧
      (Addressing.paths separator).Beneath other.1 entry.1) :
    ∀ other ∈ withoutNulls edits, ¬ Meets (separator.split other.1) (separator.split entry.1) := by
  intro other hmem hmeets
  obtain ⟨hother, hvalue⟩ := mem_withoutNulls.mp hmem
  have hne := key_ne_of_null hedits hentry hnull hother hvalue
  rcases hmeets with hup | hdown
  · exact hapart entry hentry hnull other hother hvalue (Separator.beneath_of_split hup hne.symm)
  · exact hcovered ⟨other, hother, hvalue, Separator.beneath_of_split hdown hne⟩

/-- The document with the given members after edits. -/
def edited (separator : Separator) (fields edits : Entries Value) : Value :=
  (Value.object fields).overlay (.object (gather separator edits))

/-- **Null edits change nothing exactly if all of them are void.** -/
theorem edited_withoutNulls_iff {fields edits : Entries Value}
    (hfields : (Value.object fields).Tidy) (hedits : (Value.object edits).Tidy)
    (hapart : NullsApart separator edits) :
    edited separator fields edits = edited separator fields (withoutNulls edits) ↔
      ∀ entry ∈ edits, entry.2 = .null → IsVoid separator edits fields entry.1 := by
  have hdocuments : edited separator fields edits = edited separator fields (withoutNulls edits) ↔
      Value.overlayFields fields (gatherInto separator [] edits) =
        Value.overlayFields fields (gatherInto separator [] (withoutNulls edits)) :=
    ⟨fun h => Value.object.inj h, fun h => congrArg Value.object h⟩
  rw [hdocuments]
  have hvalues : ∀ entry ∈ edits, entry.2.Tidy := fun entry hentry => hedits.of_mem hentry
  constructor
  · intro hsame entry hentry hnull
    by_contra hvoid
    obtain ⟨hparent, hcovered⟩ := not_or.mp hvoid
    -- The null is in the one document and not in the other.
    have hthere := Value.isSome_at?_overlayFields (tidy_gatherInto Value.tidy_empty hvalues)
      hparent (isSome_at?_gatherInto_of_mem hedits.ordered hentry)
    have hnowhere := Value.at?_overlayFields_eq_none
      (tidy_gatherInto Value.tidy_empty fun other hother =>
        hvalues other (mem_withoutNulls.mp hother).1)
      (Entries.at?_eq_none_of_parent? hparent)
      ((at?_gatherInto_of_not_meets
        (not_meets_of_null hedits.ordered hapart hentry hnull hcovered)).trans
          (Entries.at?_empty _))
    rw [hsame, hnowhere] at hthere
    exact nomatch hthere
  · intro hvoid
    exact overlay_gatherInto_withoutNulls hfields Value.tidy_empty hedits hapart
      (fun entry _ _ => Entries.vacant_empty _) hvoid

section editing

variable {codec : Codec} {content : List Char}

/-- A document that is no object is not edited. -/
theorem edit_of_error {failure : Failure} (h : root codec content = .error failure)
    (edits : Entries Value) : edit codec separator content edits = .error failure := by
  unfold edit
  rw [h]
  rfl

/-- What a document is edited to is written anew. -/
theorem edit_of_root {fields : Entries Value} (h : root codec content = .ok (.object fields))
    (edits : Entries Value) :
    edit codec separator content edits =
      .ok (codec.encode (edited separator fields edits)) := by
  unfold edit
  rw [h]
  rfl

end editing

end Document

/-- An assignment file is edited without the null edits. -/
theorem Conf.edit_withoutNulls (separator : Char) (content : List Char) (edits : Entries Value) :
    Conf.edit separator content (withoutNulls edits) = Conf.edit separator content edits := by
  have hchanges : Conf.changes (withoutNulls edits) = Conf.changes edits := by
    unfold Conf.changes withoutNulls
    rw [List.filter_filter]
    simp
  unfold Conf.edit
  rw [hchanges]

/-- **What null edits change.** Let the edits be a map, and the objects in it as well. In an
    assignment file null edits change nothing, nor do they in a document that is refused.
    Where a document is edited, and no null edit is beneath an edit to a value, they change
    nothing exactly if every one of them is void: if the document has objects all the way to
    the last step of its path, or an edit to a value is beneath it. -/
theorem edit_withoutNulls_iff (content : List Char) (edits : Entries Value)
    (hedits : (Value.object edits).Tidy) :
    (∀ separator, (Editor.conf separator).edit content edits =
      (Editor.conf separator).edit content (withoutNulls edits)) ∧
    ∀ codec separator,
      (∃ failure, (Editor.document codec separator).edit content edits = .error failure ∧
        (Editor.document codec separator).edit content (withoutNulls edits) = .error failure) ∨
      ∃ fields : Entries Value, Document.root codec content = .ok (.object fields) ∧
        (Editor.document codec separator).edit content edits =
          .ok (codec.encode (Document.edited separator fields edits)) ∧
        (Editor.document codec separator).edit content (withoutNulls edits) =
          .ok (codec.encode (Document.edited separator fields (withoutNulls edits))) ∧
        (Document.NullsApart separator edits →
          (Document.edited separator fields edits =
              Document.edited separator fields (withoutNulls edits) ↔
            ∀ entry ∈ edits, entry.2 = .null →
              Document.IsVoid separator edits fields entry.1)) := by
  constructor
  · intro separator
    exact congrArg Except.ok (Conf.edit_withoutNulls separator content edits).symm
  · intro codec separator
    cases hroot : Document.root codec content with
    | error failure =>
      exact .inl ⟨failure, Document.edit_of_error hroot edits,
        Document.edit_of_error hroot (withoutNulls edits)⟩
    | ok v =>
      obtain ⟨fields, rfl, hfields⟩ := Document.exists_of_root hroot
      exact .inr ⟨fields, rfl, Document.edit_of_root hroot edits,
        Document.edit_of_root hroot (withoutNulls edits),
        Document.edited_withoutNulls_iff hfields hedits⟩

/-- A null edit beside an edit to a value, under a key that the document has an object for,
    and one above an edit to a value: the edited document is as it is without them. -/
theorem edit_withoutNulls_iff_of_void :
    (Editor.document .json .standard).edit "\x7b\"db\": \x7b\"port\": 1\x7d\x7d".toList
        [("db::host", .null), ("db::port", .bool true), ("log", .null),
          ("log::file", .string "a")] =
      (Editor.document .json .standard).edit "\x7b\"db\": \x7b\"port\": 1\x7d\x7d".toList
        [("db::port", .bool true), ("log::file", .string "a")] := by
  have hedits : (Value.object [("db::host", .null), ("db::port", .bool true), ("log", .null),
      ("log::file", .string "a")]).Tidy := by
    refine .object (by unfold Entries.Ordered; decide +kernel) ?_
    simp only [List.forall_mem_cons]
    exact ⟨.leaf trivial, .leaf trivial, .leaf trivial, .leaf trivial, nofun⟩
  have hroot : Document.root .json "\x7b\"db\": \x7b\"port\": 1\x7d\x7d".toList =
      .ok (.object [("db", .object [("port", .number (.int 1 (by decide)))])]) := by
    decide +kernel
  rcases (edit_withoutNulls_iff "\x7b\"db\": \x7b\"port\": 1\x7d\x7d".toList _ hedits).2
    .json .standard with ⟨failure, hrefused, _⟩ | ⟨fields, hfields, hedit, hwithout, hsame⟩
  · exact nomatch (Document.edit_of_root hroot _).symm.trans hrefused
  · obtain rfl := Value.object.inj (Except.ok.inj (hroot.symm.trans hfields))
    rw [(hsame (by decide +kernel)).mpr (by decide +kernel)] at hedit
    exact hedit.trans hwithout.symm

/-- **A null edit adds an object** where the document has none on the way to its key. -/
theorem null_edit_adds_object :
    (Editor.document .json .standard).edit "\x7b\"a\": 1\x7d".toList [("a::b", .null)] ≠
      (Editor.document .json .standard).edit "\x7b\"a\": 1\x7d".toList
        (withoutNulls [("a::b", .null)]) := by
  decide +kernel

end Edit

end LayeredConfig
