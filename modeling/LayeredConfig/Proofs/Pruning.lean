import LayeredConfig.Proofs.Overlays

/-! # Pruned edits

    A document can be laid over a tree in two ways: all of it at once, as edits, or leaf by
    leaf, each written at its path. The two ways differ only for objects that no leaf is in:
    these have a place in the edits, and nothing is ever written for them. So they come to
    the same when such objects are taken out of the edits first, from the innermost to the
    outermost.

    The tree itself can hold anything. Where a leaf is in the way of a path, a write puts an
    object in its place, and so do edits; where an object is in the way of a leaf, both
    replace it.

    **Main results.** `pruned?_eq_none_iff`: what is taken out; `Tidy.writeAll_fieldLeaves`:
    both ways make the same tree.
-/

namespace LayeredConfig

namespace Value

/-! ## Pruning -/

mutual

/-- The value without the objects that no leaf is in, if it is not one itself. -/
def pruned? : Value → Option Value
  | .object fields =>
    match prunedFields fields with
    | [] => none
    | kept => some (.object kept)
  | leaf => some leaf

/-- The members of an object without those that no leaf is in. -/
def prunedFields : List (String × Value) → List (String × Value)
  | [] => []
  | (key, v) :: rest =>
    match pruned? v with
    | some kept => (key, kept) :: prunedFields rest
    | none => prunedFields rest

end

theorem pruned?_of_isLeaf {v : Value} (h : v.IsLeaf) : v.pruned? = some v := by
  cases v with
  | object fields => exact h.elim
  | _ => simp [pruned?]

theorem pruned?_object {fields : Entries Value} (h : prunedFields fields ≠ []) :
    (object fields).pruned? = some (.object (prunedFields fields)) := by
  obtain ⟨entry, rest, hpruned⟩ := List.exists_cons_of_ne_nil h
  simp [pruned?, hpruned]

theorem prunedFields_cons (key : String) (v : Value) (rest : Entries Value) :
    prunedFields ((key, v) :: rest) =
      v.pruned?.elim (prunedFields rest) fun kept => (key, kept) :: prunedFields rest := by
  rw [prunedFields]
  cases v.pruned? <;> rfl

mutual

/-- **What is pruned** are the objects that no leaf is in. -/
theorem pruned?_eq_none_iff : (v : Value) → (v.pruned? = none ↔ v.leaves false = [])
  | .object fields => by
    rw [leaves_object, ← prunedFields_eq_nil_iff fields]
    by_cases h : prunedFields fields = []
    · simp [pruned?, h]
    · simp [pruned?_object h, h]
  | .null | .bool _ | .number _ | .string _ | .array _ => by simp [pruned?, leaves]

/-- Nothing is left of members that no leaf is in. -/
theorem prunedFields_eq_nil_iff :
    (fields : List (String × Value)) → (prunedFields fields = [] ↔ fieldLeaves false fields = [])
  | [] => by simp [prunedFields, fieldLeaves]
  | (key, v) :: rest => by
    have hv := pruned?_eq_none_iff v
    have hrest := prunedFields_eq_nil_iff rest
    rw [prunedFields_cons, fieldLeaves_cons, List.append_eq_nil_iff, ← hrest, memberLeaves,
      List.map_eq_nil_iff, ← hv]
    cases v.pruned? <;> simp

end

/-- Pruned members are members of before, pruned themselves. -/
theorem mem_prunedFields {fields : Entries Value} {key : String} {w : Value}
    (h : (key, w) ∈ prunedFields fields) : ∃ v, (key, v) ∈ fields ∧ v.pruned? = some w := by
  induction fields with
  | nil => exact nomatch h
  | cons first rest ih =>
    obtain ⟨k, v⟩ := first
    rw [prunedFields_cons] at h
    cases hv : v.pruned? with
    | none =>
      rw [hv] at h
      obtain ⟨u, hu, hpruned⟩ := ih h
      exact ⟨u, List.mem_cons_of_mem _ hu, hpruned⟩
    | some kept =>
      rw [hv] at h
      rcases List.mem_cons.mp h with heq | hmem
      · obtain ⟨rfl, rfl⟩ := Prod.mk.inj heq
        exact ⟨v, List.mem_cons_self, hv⟩
      · obtain ⟨u, hu, hpruned⟩ := ih hmem
        exact ⟨u, List.mem_cons_of_mem _ hu, hpruned⟩

/-- Pruning keeps the order of the members. -/
theorem ordered_prunedFields {fields : Entries Value} (h : fields.Ordered) :
    Entries.Ordered (prunedFields fields) := by
  induction fields with
  | nil => exact h
  | cons first rest ih =>
    obtain ⟨k, v⟩ := first
    rw [Entries.ordered_cons_iff] at h
    obtain ⟨hfirst, hrest⟩ := h
    rw [prunedFields_cons]
    cases v.pruned? with
    | none => exact ih hrest
    | some kept =>
      refine Entries.ordered_cons_iff.mpr ⟨?_, ih hrest⟩
      intro key hkey
      obtain ⟨⟨_, w⟩, hw, rfl⟩ := List.mem_map.mp hkey
      obtain ⟨u, hu, _⟩ := mem_prunedFields hw
      exact hfirst _ (List.mem_map.mpr ⟨_, hu, rfl⟩)

/-- Where no leaf is null, no pruned member is. -/
theorem ne_null_of_mem_prunedFields {fields : Entries Value}
    (hnull : ∀ leaf ∈ fieldLeaves false fields, leaf.2 ≠ .null) {entry : String × Value}
    (h : entry ∈ prunedFields fields) : entry.2 ≠ .null := by
  obtain ⟨key, w⟩ := entry
  obtain ⟨v, hv, hpruned⟩ := mem_prunedFields h
  rcases isLeaf_or_object v with hleaf | ⟨inner, rfl⟩
  · rw [pruned?_of_isLeaf hleaf] at hpruned
    obtain rfl := Option.some.inj hpruned
    have hself : ([], v) ∈ v.leaves false := by simp [leaves_of_isLeaf hleaf]
    exact hnull _ (mem_fieldLeaves_of_mem hv hself)
  · by_cases hinner : prunedFields inner = []
    · simp [pruned?, hinner] at hpruned
    · rw [pruned?_object hinner] at hpruned
      obtain rfl := Option.some.inj hpruned
      simp

/-! ## Edits that put in an object -/

/-- Edits without nulls are what they make of no members. -/
theorem overlayFields_empty {edits : Entries Value} (hordered : edits.Ordered)
    (hnull : ∀ entry ∈ edits, entry.2 ≠ .null) : overlayFields [] edits = edits := by
  -- Both are in the order of their keys, so it is enough to read them key by key.
  apply (ordered_overlayFields Entries.ordered_nil edits).ext hordered
  intro key
  rw [get?_overlayFields [] hordered]
  cases hedit : edits.get? key with
  | none => rfl
  | some edit =>
    have hne := hnull _ (Entries.mem_of_get? hedit)
    cases edit with
    | null => exact absurd rfl hne
    | _ => rfl

/-- A leaf is put in by an edit as by a write. -/
theorem change_of_isLeaf {v : Value} (hleaf : v.IsLeaf) (hnull : v ≠ .null) (m : Entries Value)
    (key : String) : change m key v = m.insert key v := by
  unfold change
  cases v with
  | null => exact absurd rfl hnull
  | object fields => exact hleaf.elim
  | _ => cases m.get? key <;> simp [overlay, isNull]

/-- An edit that is an object leaves an object, made of the members that were there. -/
theorem change_object {edits : Entries Value} (hempty : overlayFields [] edits = edits)
    (m : Entries Value) (key : String) :
    change m key (.object edits) = m.insert key (.object (overlayFields (m.below key) edits)) := by
  unfold change Entries.below
  cases m.get? key with
  | none => simp [isNull, fields, hempty]
  | some v => cases v <;> simp [overlay, fields, hempty]

/-! ## Leaf by leaf -/

end Value

namespace Entries

variable (address : List String → List String) (m : Entries Value)

theorem writeAll_append (first second : List (List String × Value)) :
    m.writeAll address (first ++ second) =
      (m.writeAll address first).writeAll address second := by
  unfold writeAll
  rw [List.foldl_append]

/-- Writes beneath a key go into the object under it. -/
theorem writeAll_insert_object (key : String) (inner : Entries Value)
    {leaves : List (List String × Value)} (h : ∀ leaf ∈ leaves, leaf.1 ≠ []) :
    (m.insert key (.object inner)).writeAll id (leaves.map fun leaf => (key :: leaf.1, leaf.2)) =
      m.insert key (.object (inner.writeAll id leaves)) := by
  induction leaves generalizing inner with
  | nil => rfl
  | cons leaf rest ih =>
    obtain ⟨hleaf, hrest⟩ := List.forall_mem_cons.mp h
    rw [List.map_cons, writeAll_cons, writeAll_cons, ← ih _ hrest]
    -- The first write finds the object and leaves another one for the rest.
    show writeAll id ((m.insert key (.object inner)).setAt (key :: leaf.1) leaf.2) _ = _
    rw [setAt_cons _ key hleaf, below_insert, if_pos rfl, insert_insert_self]
    rfl

/-- Some writes beneath a key leave an object under it, made of the members that were
    there. -/
theorem writeAll_beneath (key : String) {leaves : List (List String × Value)}
    (hne : leaves ≠ []) (h : ∀ leaf ∈ leaves, leaf.1 ≠ []) :
    m.writeAll id (leaves.map fun leaf => (key :: leaf.1, leaf.2)) =
      m.insert key (.object ((m.below key).writeAll id leaves)) := by
  obtain ⟨leaf, rest, rfl⟩ := List.exists_cons_of_ne_nil hne
  obtain ⟨hleaf, hrest⟩ := List.forall_mem_cons.mp h
  rw [List.map_cons, writeAll_cons, writeAll_cons]
  show writeAll id (m.setAt (key :: leaf.1) leaf.2) _ = _
  -- From the first write on there is an object under the key, whatever was there.
  rw [setAt_cons m key hleaf, writeAll_insert_object m key _ hrest]
  rfl

end Entries

namespace Value

/-- Members are written as they edit, if each of them is. -/
theorem writeAll_fieldLeaves_of_members {fields : Entries Value}
    (h : ∀ entry ∈ fields, ∀ m : Entries Value, m.writeAll id (memberLeaves entry.1 entry.2) =
      entry.2.pruned?.elim m (change m entry.1)) (m : Entries Value) :
    m.writeAll id (fieldLeaves false fields) = overlayFields m (prunedFields fields) := by
  induction fields generalizing m with
  | nil => rfl
  | cons first rest ih =>
    obtain ⟨key, v⟩ := first
    obtain ⟨hfirst, hrest⟩ := List.forall_mem_cons.mp h
    rw [fieldLeaves_cons, Entries.writeAll_append, hfirst m, ih hrest, prunedFields_cons]
    cases v.pruned? <;> rfl

/-- A member is written leaf by leaf as it edits when it is pruned. -/
theorem Tidy.writeAll_memberLeaves {v : Value} (h : v.Tidy)
    (hnull : ∀ leaf ∈ v.leaves false, leaf.2 ≠ .null) (key : String) (m : Entries Value) :
    m.writeAll id (memberLeaves key v) = v.pruned?.elim m (change m key) := by
  induction h generalizing key m with
  | @leaf v hleaf =>
    have hv : v ≠ .null := hnull ([], v) (by simp [leaves_of_isLeaf hleaf])
    unfold memberLeaves
    rw [leaves_of_isLeaf hleaf, pruned?_of_isLeaf hleaf, Option.elim_some,
      change_of_isLeaf hleaf hv]
    rfl
  | @object fields hordered hfields ih =>
    rw [leaves_object] at hnull
    have hmembers : ∀ m : Entries Value,
        m.writeAll id (fieldLeaves false fields) = overlayFields m (prunedFields fields) := by
      apply writeAll_fieldLeaves_of_members
      intro entry hentry m
      apply ih entry hentry
      intro leaf hleaf
      have hmem := mem_fieldLeaves_of_mem hentry hleaf
      exact hnull (entry.1 :: leaf.1, leaf.2) hmem
    unfold memberLeaves
    rw [leaves_object]
    -- Without a leaf nothing is written, and not even an empty object is left.
    by_cases hnone : fieldLeaves false fields = []
    · have hpruned : (Value.object fields).pruned? = none := by
        rw [pruned?_eq_none_iff, leaves_object, hnone]
      rw [hnone, hpruned]
      rfl
    · have hkept : prunedFields fields ≠ [] := by rwa [ne_eq, prunedFields_eq_nil_iff]
      have hempty := overlayFields_empty (ordered_prunedFields hordered)
        fun entry hentry => ne_null_of_mem_prunedFields hnull hentry
      rw [Entries.writeAll_beneath m key hnone fun _ hleaf => ne_nil_of_mem_fieldLeaves hleaf,
        hmembers, pruned?_object hkept, Option.elim_some, change_object hempty]

/-- **Leaf by leaf or all at once.** Writing the leaves of an object at their paths makes the
    same of every tree as laying the pruned object over it. -/
theorem Tidy.writeAll_fieldLeaves {fields : Entries Value} (h : (Value.object fields).Tidy)
    (hnull : ∀ leaf ∈ fieldLeaves false fields, leaf.2 ≠ .null) (m : Entries Value) :
    m.writeAll id (fieldLeaves false fields) = overlayFields m (prunedFields fields) := by
  apply writeAll_fieldLeaves_of_members
  intro entry hentry m
  apply (h.of_mem hentry).writeAll_memberLeaves
  intro leaf hleaf
  have hmem := mem_fieldLeaves_of_mem hentry hleaf
  exact hnull (entry.1 :: leaf.1, leaf.2) hmem

end Value

end LayeredConfig
