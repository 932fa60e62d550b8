import LayeredConfig.Proofs.WriteOrder
import LayeredConfig.Value.Overlay

/-! # What edits leave

    Edits are laid over a document key by key: what is under a key afterwards is decided by
    what was under it and by the edit of it. So edits that leave the same members still do
    after the same write into them.

    A null edit at a path leaves the members alone where the document has an object for the
    last step of the path to be taken in, and the other edits are out of its way. Where the
    document has none, the edits make one, and the null stays in it.

    **Main results.** `overlayFields_setAt_congr`; `overlayFields_setAt_null` for the one case,
    and `isSome_at?_overlayFields` with `at?_overlayFields_eq_none` for the other.
-/

namespace LayeredConfig

namespace Value

/-! ## One key -/

/-- What is under a key after the edits, from what was there and the edit of the key. -/
def overlaid (v? : Option Value) : Option Value → Option Value
  | none => v?
  | some edit =>
    match v? with
    | some v => some (v.overlay edit)
    | none => if edit.isNull then none else some edit

@[simp] theorem overlaid_none (v? : Option Value) : overlaid v? none = v? := rfl

@[simp] theorem overlaid_null (v? : Option Value) : overlaid v? (some .null) = v? := by
  cases v? with
  | none => rfl
  | some v => exact congrArg some v.overlay_null

/-- Members that are edited are edited further down. -/
@[simp] theorem overlaid_object_object (inner edits : Entries Value) :
    overlaid (some (.object inner)) (some (.object edits)) =
      some (.object (overlayFields inner edits)) := rfl

/-- A value that is neither null nor an object takes the place of what was there. -/
theorem overlaid_of_isLeaf (v? : Option Value) {edit : Value} (hleaf : edit.IsLeaf)
    (hnull : edit ≠ .null) : overlaid v? (some edit) = some edit := by
  cases edit with
  | null => exact absurd rfl hnull
  | object fields => exact hleaf.elim
  | _ => cases v? <;> rfl

/-- Members take the place of what was there, if that was not an object. -/
theorem overlaid_object {v? : Option Value} (h : ∀ inner, v? ≠ some (.object inner))
    (edits : Entries Value) : overlaid v? (some (.object edits)) = some (.object edits) := by
  cases v? with
  | none => rfl
  | some v =>
    cases v with
    | object inner => exact absurd rfl (h inner)
    | _ => rfl

/-- An edit is missing, null, another leaf, or an object. -/
inductive EditCase : Option Value → Prop where
  | missing : EditCase none
  | null : EditCase (some .null)
  | leaf {edit : Value} (hleaf : edit.IsLeaf) (hnull : edit ≠ .null) : EditCase (some edit)
  | object (edits : Entries Value) : EditCase (some (.object edits))

theorem editCase (edit? : Option Value) : EditCase edit? := by
  cases edit? with
  | none => exact .missing
  | some edit =>
    rcases isLeaf_or_object edit with hleaf | ⟨edits, rfl⟩
    · by_cases hnull : edit = .null
      · subst hnull
        exact .null
      · exact .leaf hleaf hnull
    · exact .object edits

/-! ## All keys -/

/-- The members after the edit of one key. -/
def change (fields : Entries Value) (key : String) (edit : Value) : Entries Value :=
  match fields.get? key with
  | some v => fields.insert key (v.overlay edit)
  | none => if edit.isNull then fields else fields.insert key edit

theorem overlayFields_cons (fields : Entries Value) (key : String) (edit : Value)
    (rest : Entries Value) :
    overlayFields fields ((key, edit) :: rest) = overlayFields (change fields key edit) rest := rfl

theorem get?_change (fields : Entries Value) (key : String) (edit : Value) (name : String) :
    (change fields key edit).get? name =
      if key = name then overlaid (fields.get? key) (some edit) else fields.get? name := by
  unfold change overlaid
  cases hread : fields.get? key with
  | some v => exact Entries.get?_insert fields key name _
  | none =>
    by_cases hnull : edit.isNull = true
    · by_cases hname : key = name
      · subst hname
        simp [hnull, hread]
      · simp [hnull, hname]
    · simp [hnull, Entries.get?_insert]

theorem ordered_change {fields : Entries Value} (h : fields.Ordered) (key : String)
    (edit : Value) : Entries.Ordered (change fields key edit) := by
  unfold change
  split
  · exact h.insert key _
  · split
    · exact h
    · exact h.insert key edit

/-- Edits keep the order of the keys. -/
theorem ordered_overlayFields {fields : Entries Value} (h : fields.Ordered)
    (edits : Entries Value) : Entries.Ordered (overlayFields fields edits) := by
  induction edits generalizing fields with
  | nil => exact h
  | cons entry rest ih => exact ih (ordered_change h entry.1 entry.2)

/-- **Each key is edited on its own.** -/
theorem get?_overlayFields (fields : Entries Value) {edits : Entries Value} (h : edits.Ordered)
    (key : String) :
    Entries.get? (overlayFields fields edits) key =
      overlaid (fields.get? key) (edits.get? key) := by
  induction edits generalizing fields with
  | nil => rfl
  | cons entry rest ih =>
    obtain ⟨k, edit⟩ := entry
    rw [Entries.ordered_cons_iff] at h
    obtain ⟨hfirst, hrest⟩ := h
    rw [overlayFields_cons, ih _ hrest, get?_change, Entries.get?]
    by_cases hk : k = key
    · -- The key comes once only.
      subst hk
      have hnone : Entries.get? rest k = none :=
        Entries.get?_eq_none_iff.mpr fun hmem => lt_irrefl k (hfirst k hmem)
      rw [if_pos rfl, if_pos rfl, hnone, overlaid_none]
    · rw [if_neg hk, if_neg hk]

/-- Members are the same after edits that leave the same under every key. -/
theorem overlayFields_ext {fields t u : Entries Value} (hfields : fields.Ordered)
    (ht : t.Ordered) (hu : u.Ordered)
    (h : ∀ key, overlaid (fields.get? key) (t.get? key) = overlaid (fields.get? key) (u.get? key)) :
    overlayFields fields t = overlayFields fields u := by
  apply (ordered_overlayFields hfields t).ext (ordered_overlayFields hfields u)
  intro key
  rw [get?_overlayFields fields ht, get?_overlayFields fields hu]
  exact h key

/-! ## The same write into edits -/

/-- The members that are left of an object, which are its own where there is none. -/
def left (inner : Entries Value) : Option Value → Entries Value
  | some (.object fields) => fields
  | _ => inner

/-- What edits leave of an object under a key is what those below the key leave. -/
theorem left_overlaid {fields edits : Entries Value} {key : String} {inner : Entries Value}
    (hread : fields.get? key = some (.object inner)) :
    left inner (overlaid (fields.get? key) (edits.get? key)) =
      overlayFields inner (edits.below key) := by
  unfold Entries.below
  rw [hread]
  generalize edits.get? key = edit?
  cases editCase edit? with
  | missing => rfl
  | null => rfl
  | @leaf edit hleaf hnull =>
    rw [overlaid_of_isLeaf _ hleaf hnull]
    cases edit with
    | object fields => exact hleaf.elim
    | _ => rfl
  | object g => rfl

/-- Where there is no object under a key, the members that edits leave under it are those
    of the edit. -/
theorem left_overlaid_of_ne {fields edits : Entries Value} {key : String}
    (hread : ∀ inner, fields.get? key ≠ some (.object inner)) :
    left [] (overlaid (fields.get? key) (edits.get? key)) = edits.below key := by
  have hnone : left [] (fields.get? key) = [] := by
    unfold left
    split
    · next inner hinner => exact absurd hinner (hread inner)
    · rfl
  unfold Entries.below
  generalize edits.get? key = edit?
  cases editCase edit? with
  | missing => exact hnone
  | null =>
    rw [overlaid_null]
    exact hnone
  | @leaf edit hleaf hnull =>
    rw [overlaid_of_isLeaf _ hleaf hnull]
    cases edit with
    | object fields => exact hleaf.elim
    | _ => rfl
  | object g =>
    rw [overlaid_object hread]
    rfl

/-- What is under the first key of a path after edits that were written to at the path. -/
theorem overlaid_setAt {fields t u : Entries Value} {key : String} {rest : List String}
    (hrest : rest ≠ []) {v w : Value}
    (hobject : ∀ inner, fields.get? key = some (.object inner) →
      overlayFields inner ((t.below key).setAt rest v) =
        overlayFields inner ((u.below key).setAt rest w))
    (hother : (∀ inner, fields.get? key ≠ some (.object inner)) →
      (t.below key).setAt rest v = (u.below key).setAt rest w) :
    overlaid (fields.get? key) ((t.setAt (key :: rest) v).get? key) =
      overlaid (fields.get? key) ((u.setAt (key :: rest) w).get? key) := by
  rw [Entries.setAt_cons t key hrest, Entries.setAt_cons u key hrest, Entries.get?_insert_self,
    Entries.get?_insert_self]
  by_cases hread : ∃ inner, fields.get? key = some (.object inner)
  · obtain ⟨inner, hinner⟩ := hread
    rw [hinner, overlaid_object_object, overlaid_object_object, hobject inner hinner]
  · rw [hother fun inner hinner => hread ⟨inner, hinner⟩]

/-- **The same write** into edits that leave the same makes edits that leave the same. -/
theorem overlayFields_setAt_congr {fields t u : Entries Value} (hfields : (object fields).Tidy)
    (ht : (object t).Tidy) (hu : (object u).Tidy)
    (h : overlayFields fields t = overlayFields fields u) (p : List String) (v : Value) :
    overlayFields fields (t.setAt p v) = overlayFields fields (u.setAt p v) := by
  induction p generalizing fields t u with
  | nil => rwa [Entries.setAt_nil, Entries.setAt_nil]
  | cons key rest ih =>
    have hslot : ∀ name, overlaid (fields.get? name) (t.get? name) =
        overlaid (fields.get? name) (u.get? name) := by
      intro name
      rw [← get?_overlayFields fields ht.ordered, ← get?_overlayFields fields hu.ordered, h]
    apply overlayFields_ext hfields.ordered (ht.ordered.setAt _ v) (hu.ordered.setAt _ v)
    intro name
    by_cases hname : key = name
    · subst hname
      by_cases hrest : rest = []
      · subst hrest
        rw [Entries.setAt_singleton, Entries.setAt_singleton, Entries.get?_insert_self,
          Entries.get?_insert_self]
      · apply overlaid_setAt hrest
        · intro inner hinner
          have hinside : (object inner).Tidy := hfields.of_mem (Entries.mem_of_get? hinner)
          apply ih hinside (ht.members key) (hu.members key)
          rw [← left_overlaid hinner, ← left_overlaid hinner, hslot]
        · intro hother
          rw [← left_overlaid_of_ne hother, ← left_overlaid_of_ne hother, hslot]
    · rw [Entries.setAt_eq_insert t key, Entries.setAt_eq_insert u key,
        Entries.get?_insert_of_ne hname, Entries.get?_insert_of_ne hname]
      exact hslot name

end Value

/-! ## Null edits -/

namespace Entries

/-- The members that the last step of a path is taken in, where there are objects all the
    way. -/
def parent? : Entries Value → List String → Option (Entries Value)
  | _, [] => none
  | m, [_] => some m
  | m, key :: rest =>
    match m.get? key with
    | some (.object inner) => Entries.parent? inner rest
    | _ => none

/-- Whether a path is vacant: at the path there is nothing but perhaps a null, and above it
    nothing but perhaps a null or an object. -/
def Vacant (m : Entries Value) (p : List String) : Prop :=
  ∀ q, q <+: p → q ≠ [] → m.at? q = none ∨ m.at? q = some .null ∨
    q ≠ p ∧ ∃ inner, m.at? q = some (.object inner)

/-- A path with objects all the way goes on in the object under its first key. -/
theorem isSome_parent?_cons {m : Entries Value} {key : String} {rest : List String}
    (hrest : rest ≠ []) :
    (m.parent? (key :: rest)).isSome = true ↔
      ∃ inner, m.get? key = some (.object inner) ∧ (parent? inner rest).isSome = true := by
  obtain ⟨next, more, rfl⟩ := List.exists_cons_of_ne_nil hrest
  show (match m.get? key with
    | some (.object inner) => parent? inner (next :: more)
    | _ => none).isSome = true ↔ _
  constructor
  · intro h
    split at h
    · next inner hinner => exact ⟨inner, hinner, h⟩
    · exact nomatch h
  · rintro ⟨inner, hinner, h⟩
    rw [hinner]
    exact h

/-- There is nothing at a path that has no objects all the way. -/
theorem at?_eq_none_of_parent? {m : Entries Value} {p : List String}
    (h : ¬ (m.parent? p).isSome = true) : m.at? p = none := by
  induction p generalizing m with
  | nil => exact at?_nil m
  | cons key rest ih =>
    by_cases hrest : rest = []
    · subst hrest
      exact absurd rfl h
    · rw [isSome_parent?_cons hrest] at h
      rw [at?_cons m key hrest]
      unfold below
      cases hread : m.get? key with
      | none => exact at?_empty rest
      | some v =>
        rcases Value.isLeaf_or_object v with hleaf | ⟨inner, rfl⟩
        · rw [Option.getD_some, Value.fields_of_isLeaf hleaf, at?_empty]
        · exact ih fun hinner => h ⟨inner, hread, hinner⟩

/-- In the empty tree every path is vacant. -/
theorem vacant_empty (p : List String) : Vacant [] p :=
  fun q _ _ => .inl (at?_empty q)

/-- A path stays vacant after a write that is neither at it nor beneath it, and writes
    null if it is above. -/
theorem Vacant.setAt {m : Entries Value} {p : List String} (h : m.Vacant p) {q : List String}
    {v : Value} (hbeneath : ¬ p <+: q) (habove : q <+: p → v = .null) :
    (m.setAt q v).Vacant p := by
  intro r hr hne
  by_cases hq : q = []
  · subst hq
    rw [setAt_nil]
    exact h r hr hne
  · cases lies q r with
    | same =>
      obtain rfl := habove hr
      exact .inr (.inl (at?_setAt_self m hq .null))
    | beyond _ more hmore =>
      obtain rfl := habove ((List.prefix_append q more).trans hr)
      rw [at?_setAt_beyond m hq hmore]
      exact .inl (at?_empty more)
    | above _ more hmore =>
      refine .inr (.inr ⟨?_, _, at?_setAt_above m hne hmore v⟩)
      rintro rfl
      exact hbeneath (List.prefix_append r more)
    | apart _ _ hqr hrq =>
      rw [at?_setAt_apart m hqr hrq]
      exact h r hr hne

/-- There are no members at a vacant path. -/
theorem Vacant.inside_eq_nil {m : Entries Value} {p : List String} (h : m.Vacant p) :
    m.inside p = [] := by
  unfold inside
  by_cases hp : p = []
  · rw [hp, at?_nil]
    rfl
  · rcases h p List.prefix_rfl hp with hnone | hnull | ⟨hne, _⟩
    · rw [hnone]
      rfl
    · rw [hnull]
      rfl
    · exact absurd rfl hne

/-- A vacant path is vacant below its first key. -/
theorem Vacant.below {m : Entries Value} {key : String} {rest : List String}
    (h : m.Vacant (key :: rest)) : (m.below key).Vacant rest := by
  intro q hq hne
  have hread := h (key :: q) ((List.prefix_cons_inj key).mpr hq) (List.cons_ne_nil key q)
  rw [at?_cons m key hne] at hread
  rcases hread with hnone | hnull | ⟨hother, hobject⟩
  · exact .inl hnone
  · exact .inr (.inl hnull)
  · exact .inr (.inr ⟨fun heq => hother (by rw [heq]), hobject⟩)

end Entries

namespace Value

/-- **A null at a vacant path is lost** where the document has objects all the way. -/
theorem overlayFields_setAt_null {fields edits : Entries Value} (hfields : (object fields).Tidy)
    (hedits : (object edits).Tidy) {p : List String} (hvacant : edits.Vacant p)
    (hparent : (fields.parent? p).isSome = true) :
    overlayFields fields (edits.setAt p .null) = overlayFields fields edits := by
  induction p generalizing fields edits with
  | nil => rw [Entries.setAt_nil]
  | cons key rest ih =>
    have hordered := hedits.ordered.setAt (key :: rest) .null
    apply overlayFields_ext hfields.ordered hordered hedits.ordered
    intro name
    rw [Entries.setAt_eq_insert]
    by_cases hname : key = name
    · subst hname
      rw [Entries.get?_insert_self]
      have hfirst := hvacant [key] ((List.prefix_cons_inj key).mpr List.nil_prefix) (by simp)
      by_cases hrest : rest = []
      · subst hrest
        rw [Entries.at?_singleton] at hfirst
        show overlaid (fields.get? key) (some .null) = _
        rcases hfirst with hnone | hnull | ⟨hne, _⟩
        · rw [hnone, overlaid_null, overlaid_none]
        · rw [hnull]
        · exact absurd rfl hne
      · obtain ⟨inner, hinner, hinnerParent⟩ := (Entries.isSome_parent?_cons hrest).mp hparent
        have hinside : (object inner).Tidy := hfields.of_mem (Entries.mem_of_get? hinner)
        have hbelow := ih hinside (hedits.members key) hvacant.below hinnerParent
        have hold : overlaid (some (.object inner)) (edits.get? key) =
            some (.object (overlayFields inner (edits.below key))) := by
          unfold Entries.below
          rw [Entries.at?_singleton] at hfirst
          rcases hfirst with hnone | hnull | ⟨_, g, hobject⟩
          · rw [hnone]
            rfl
          · rw [hnull]
            rfl
          · rw [hobject]
            rfl
        have hgrown : edits.grown key rest .null =
            .object ((edits.below key).setAt rest .null) := if_neg hrest
        rw [hinner, hold, hgrown, overlaid_object_object, hbelow]
    · rw [Entries.get?_insert_of_ne hname]

/-! ## Below a key -/

section below

variable {fields edits : Entries Value} (hedits : edits.Ordered) {key : String}
include hedits

/-- Where the document has no object under a key, the members are those of the edits. -/
theorem below_overlayFields_of_ne (hread : ∀ inner, fields.get? key ≠ some (.object inner)) :
    Entries.below (overlayFields fields edits) key = edits.below key := by
  have hleft : left [] (overlaid (fields.get? key) (edits.get? key)) = edits.below key :=
    left_overlaid_of_ne hread
  rw [← hleft, ← get?_overlayFields fields hedits]
  unfold Entries.below left
  split
  · next inner hinner =>
    rw [hinner]
    rfl
  · next hother =>
    cases hv : Entries.get? (overlayFields fields edits) key with
    | none => rfl
    | some v =>
      rcases isLeaf_or_object v with hleaf | ⟨inner, rfl⟩
      · exact fields_of_isLeaf hleaf
      · exact absurd hv (hother inner)

/-- Where the document has an object under a key, the edits below the key are laid over its
    members, unless there are none of either afterwards. -/
theorem below_overlayFields {inner : Entries Value}
    (hread : fields.get? key = some (.object inner)) :
    Entries.below (overlayFields fields edits) key = overlayFields inner (edits.below key) ∨
      Entries.below (overlayFields fields edits) key = [] ∧ edits.below key = [] := by
  unfold Entries.below
  rw [get?_overlayFields fields hedits, hread]
  generalize edits.get? key = edit?
  cases editCase edit? with
  | missing => exact .inl rfl
  | null => exact .inl rfl
  | leaf hleaf hnull =>
    rw [overlaid_of_isLeaf _ hleaf hnull]
    exact .inr ⟨fields_of_isLeaf hleaf, fields_of_isLeaf hleaf⟩
  | object g => exact .inl rfl

end below

/-- What is neither in the document nor in the edits is not in the edited document. -/
theorem at?_overlayFields_eq_none {fields edits : Entries Value} (hedits : (object edits).Tidy)
    {p : List String} (hfields : fields.at? p = none) (hnone : edits.at? p = none) :
    Entries.at? (overlayFields fields edits) p = none := by
  induction p generalizing fields edits with
  | nil => exact Entries.at?_nil _
  | cons key rest ih =>
    by_cases hrest : rest = []
    · subst hrest
      rw [Entries.at?_singleton] at hfields hnone ⊢
      rw [get?_overlayFields fields hedits.ordered, hfields, hnone]
      rfl
    · rw [Entries.at?_cons _ key hrest] at hfields hnone ⊢
      by_cases hread : ∃ inner, fields.get? key = some (.object inner)
      · obtain ⟨inner, hinner⟩ := hread
        have hinside : Entries.at? inner rest = none := by
          unfold Entries.below at hfields
          rwa [hinner] at hfields
        rcases below_overlayFields hedits.ordered hinner with hbelow | ⟨hbelow, _⟩
        · rw [hbelow]
          exact ih (hedits.members key) hinside hnone
        · rw [hbelow, Entries.at?_empty]
      · rw [below_overlayFields_of_ne hedits.ordered fun inner hinner => hread ⟨inner, hinner⟩]
        exact hnone

/-- What edits have at a path is in the edited document where the document does not have
    objects all the way. -/
theorem isSome_at?_overlayFields {fields edits : Entries Value} (hedits : (object edits).Tidy)
    {p : List String} (hparent : ¬ (fields.parent? p).isSome = true)
    (hsome : (edits.at? p).isSome = true) :
    (Entries.at? (overlayFields fields edits) p).isSome = true := by
  induction p generalizing fields edits with
  | nil =>
    rw [Entries.at?_nil] at hsome
    exact nomatch hsome
  | cons key rest ih =>
    by_cases hrest : rest = []
    · subst hrest
      exact absurd rfl hparent
    · rw [Entries.isSome_parent?_cons hrest] at hparent
      rw [Entries.at?_cons _ key hrest] at hsome ⊢
      by_cases hread : ∃ inner, fields.get? key = some (.object inner)
      · obtain ⟨inner, hinner⟩ := hread
        rcases below_overlayFields hedits.ordered hinner with hbelow | ⟨_, hempty⟩
        · rw [hbelow]
          exact ih (hedits.members key) (fun h => hparent ⟨inner, hinner, h⟩) hsome
        · rw [hempty, Entries.at?_empty] at hsome
          exact nomatch hsome
      · rw [below_overlayFields_of_ne hedits.ordered fun inner hinner => hread ⟨inner, hinner⟩]
        exact hsome

end Value

end LayeredConfig
