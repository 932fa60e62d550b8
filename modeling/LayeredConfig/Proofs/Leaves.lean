import LayeredConfig.Proofs.TidyValues
import LayeredConfig.Proofs.Tree
import Mathlib.Data.List.Pairwise

/-! # Leaves and the trees they make

    The leaves of a tidy object come in the order of their paths: any two paths part
    somewhere, and where they part the earlier one has the smaller key. A write at a path
    changes only the leaves whose paths meet it.

    Leaves are written one after the other, each of them at an address, which may be the
    path to it or another one. What is read at a path depends only on the leaves whose
    addresses meet it. A leaf that is addressed above the path makes it read nothing, so
    it can be left out where nothing was written to the path before.

    **Main results.** `Tidy.pairwise_before` and `filter_fieldLeaves_setAt` for leaves,
    `at?_writeAll_drop` and `at?_writeAll_of_last` for reading.
-/

namespace LayeredConfig

/-! ## Paths that meet -/

/-- Whether two paths meet: one of them goes on from the other, or they are the same. -/
def Meets (p q : List String) : Prop := p <+: q ∨ q <+: p

instance (p q : List String) : Decidable (Meets p q) :=
  inferInstanceAs (Decidable (p <+: q ∨ q <+: p))

theorem Meets.symm {p q : List String} (h : Meets p q) : Meets q p := Or.symm h

theorem meets_cons {key : String} {p q : List String} :
    Meets (key :: p) (key :: q) ↔ Meets p q := by
  unfold Meets
  rw [List.prefix_cons_inj, List.prefix_cons_inj]

theorem not_meets_cons {key other : String} (h : key ≠ other) (p q : List String) :
    ¬ Meets (key :: p) (other :: q) := by
  unfold Meets
  rw [List.cons_prefix_cons, List.cons_prefix_cons]
  rintro (⟨heq, _⟩ | ⟨heq, _⟩)
  · exact h heq
  · exact h heq.symm

/-- The order of paths: they part somewhere, and there the first has the smaller key. -/
inductive Before : List String → List String → Prop where
  | here {key other : String} (h : key < other) (p q : List String) :
    Before (key :: p) (other :: q)
  | further (key : String) {p q : List String} (h : Before p q) : Before (key :: p) (key :: q)

namespace Before

theorem not_meets {p q : List String} (h : Before p q) : ¬ Meets p q := by
  induction h with
  | here hlt p q => exact not_meets_cons hlt.ne p q
  | further key _ ih => rwa [meets_cons]

theorem asymm {p q : List String} (h : Before p q) : ¬ Before q p := by
  induction h with
  | here hlt p q =>
    intro hback
    cases hback with
    | here hgt => exact lt_asymm hlt hgt
    | further => exact lt_irrefl _ hlt
  | further key _ ih =>
    intro hback
    cases hback with
    | here hgt => exact lt_irrefl _ hgt
    | further _ hback => exact ih hback

end Before

/-! ## The leaves of an object -/

namespace Value

theorem isLeaf_or_object (v : Value) : v.IsLeaf ∨ ∃ fields, v = .object fields := by
  cases v with
  | object fields => exact .inr ⟨fields, rfl⟩
  | _ => exact .inl trivial

theorem fields_of_isLeaf {v : Value} (h : v.IsLeaf) : v.fields = [] := by
  cases v with
  | object fields => exact h.elim
  | _ => rfl

theorem leaves_of_isLeaf {v : Value} (h : v.IsLeaf) {keepEmpty : Bool} :
    v.leaves keepEmpty = [([], v)] := by
  cases v with
  | object fields => exact h.elim
  | _ => rfl

/-- The leaves of an object are those of its members. -/
theorem leaves_object (fields : Entries Value) :
    (Value.object fields).leaves false = fieldLeaves false fields := by
  cases fields with
  | nil => rfl
  | cons first rest => rfl

/-- The leaves of an object with members are those of its members. -/
theorem leaves_object_of_ne_nil {fields : Entries Value} (h : fields ≠ []) (keepEmpty : Bool) :
    (Value.object fields).leaves keepEmpty = fieldLeaves keepEmpty fields := by
  obtain ⟨first, rest, rfl⟩ := List.exists_cons_of_ne_nil h
  rfl

/-- The leaves of a value as a member. -/
def memberLeaves (key : String) (v : Value) : List (List String × Value) :=
  (v.leaves false).map fun leaf => (key :: leaf.1, leaf.2)

theorem fieldLeaves_cons (key : String) (v : Value) (rest : Entries Value) :
    fieldLeaves false ((key, v) :: rest) = memberLeaves key v ++ fieldLeaves false rest := rfl

section members

variable {keepEmpty : Bool} {fields : Entries Value} {leaf : List String × Value}

/-- A leaf of an object is a leaf of one of its members. -/
theorem mem_fieldLeaves :
    leaf ∈ fieldLeaves keepEmpty fields ↔ ∃ entry ∈ fields,
      ∃ inner ∈ entry.2.leaves keepEmpty, leaf = (entry.1 :: inner.1, inner.2) := by
  induction fields with
  | nil =>
    constructor
    · exact fun h => (nomatch h)
    · rintro ⟨entry, hentry, _⟩
      exact nomatch hentry
  | cons first rest ih =>
    rw [fieldLeaves, List.mem_append, ih, List.mem_map]
    constructor
    · rintro (⟨inner, hinner, rfl⟩ | ⟨entry, hentry, inner, hinner, rfl⟩)
      · exact ⟨first, List.mem_cons_self, inner, hinner, rfl⟩
      · exact ⟨entry, List.mem_cons_of_mem _ hentry, inner, hinner, rfl⟩
    · rintro ⟨entry, hentry, inner, hinner, rfl⟩
      rcases List.mem_cons.mp hentry with rfl | hentry
      · exact .inl ⟨inner, hinner, rfl⟩
      · exact .inr ⟨entry, hentry, inner, hinner, rfl⟩

/-- A leaf of a member is one of the object. -/
theorem mem_fieldLeaves_of_mem {entry : String × Value} (hentry : entry ∈ fields)
    (hleaf : leaf ∈ entry.2.leaves keepEmpty) :
    (entry.1 :: leaf.1, leaf.2) ∈ fieldLeaves keepEmpty fields :=
  mem_fieldLeaves.mpr ⟨entry, hentry, leaf, hleaf, rfl⟩

theorem ne_nil_of_mem_fieldLeaves (h : leaf ∈ fieldLeaves keepEmpty fields) : leaf.1 ≠ [] := by
  obtain ⟨entry, _, inner, _, rfl⟩ := mem_fieldLeaves.mp h
  exact List.cons_ne_nil _ _

end members

theorem Tidy.isLeaf_of_mem_leaves {v : Value} (h : v.Tidy) {leaf : List String × Value}
    (hleaf : leaf ∈ v.leaves false) : leaf.2.IsLeaf := by
  induction h generalizing leaf with
  | leaf hv =>
    rw [leaves_of_isLeaf hv, List.mem_singleton] at hleaf
    subst hleaf
    exact hv
  | object _ _ ih =>
    rw [leaves_object] at hleaf
    obtain ⟨entry, hentry, inner, hinner, rfl⟩ := mem_fieldLeaves.mp hleaf
    have hvalue : inner.2.IsLeaf := ih entry hentry hinner
    exact hvalue

/-- The leaves of members come in the order of their paths, if those of each member do. -/
theorem pairwise_before_fieldLeaves {keepEmpty : Bool} {fields : Entries Value}
    (hordered : fields.Ordered) (h : ∀ entry ∈ fields,
      (entry.2.leaves keepEmpty).Pairwise fun leaf other => Before leaf.1 other.1) :
    (fieldLeaves keepEmpty fields).Pairwise fun leaf other => Before leaf.1 other.1 := by
  induction fields with
  | nil => exact List.Pairwise.nil
  | cons first rest ih =>
    obtain ⟨key, w⟩ := first
    rw [Entries.ordered_cons_iff] at hordered
    obtain ⟨hfirst, hrest⟩ := hordered
    rw [fieldLeaves, List.pairwise_append, List.pairwise_map]
    refine ⟨?_, ?_, ?_⟩
    · exact (h (key, w) List.mem_cons_self).imp fun hbefore => .further key hbefore
    · exact ih hrest fun entry hentry => h entry (List.mem_cons_of_mem _ hentry)
    · intro leaf hleaf other hother
      obtain ⟨inner, _, rfl⟩ := List.mem_map.mp hleaf
      obtain ⟨entry, hentry, deeper, _, rfl⟩ := mem_fieldLeaves.mp hother
      exact .here (hfirst entry.1 (List.mem_map_of_mem hentry)) _ _

/-- **The leaves come in the order of their paths.** -/
theorem Tidy.pairwise_before {v : Value} (h : v.Tidy) (keepEmpty : Bool) :
    (v.leaves keepEmpty).Pairwise fun leaf other => Before leaf.1 other.1 := by
  induction h with
  | leaf hleaf =>
    rw [leaves_of_isLeaf hleaf]
    exact List.pairwise_singleton _ _
  | @object fields hordered hfields ih =>
    by_cases hempty : fields = []
    · subst hempty
      cases keepEmpty with
      | true => exact List.pairwise_singleton _ _
      | false => exact List.Pairwise.nil
    · rw [leaves_object_of_ne_nil hempty]
      exact pairwise_before_fieldLeaves hordered ih

/-- The paths to the leaves of an object part. -/
theorem Tidy.pairwise_not_meets {fields : Entries Value} (h : (Value.object fields).Tidy)
    (keepEmpty : Bool) :
    (fieldLeaves keepEmpty fields).Pairwise fun leaf other => ¬ Meets leaf.1 other.1 :=
  (pairwise_before_fieldLeaves h.ordered fun _ hentry =>
    (h.of_mem hentry).pairwise_before keepEmpty).imp Before.not_meets

/-- The paths to different leaves part. -/
theorem Tidy.eq_of_meets {fields : Entries Value} (h : (Value.object fields).Tidy)
    {keepEmpty : Bool} {leaf other : List String × Value}
    (hleaf : leaf ∈ fieldLeaves keepEmpty fields) (hother : other ∈ fieldLeaves keepEmpty fields)
    (hmeets : Meets leaf.1 other.1) : leaf = other := by
  have hparts := h.pairwise_not_meets keepEmpty
  have hsymm : Std.Symm fun leaf other : List String × Value => ¬ Meets leaf.1 other.1 :=
    ⟨fun _ _ hnot hmeets => hnot hmeets.symm⟩
  by_contra hne
  exact hparts.forall hleaf hother hne hmeets

/-! ## The leaves after a write -/

/-- Leaves of a kind stay where they are when a value is put under a key, if those under
    the key do. -/
theorem filter_fieldLeaves_insert {fields : Entries Value} (h : fields.Ordered) {key : String}
    {v : Value} (kind : List String × Value → Bool)
    (hnew : fields.get? key = none → (memberLeaves key v).filter kind = [])
    (hold : ∀ w, fields.get? key = some w →
      (memberLeaves key v).filter kind = (memberLeaves key w).filter kind) :
    (fieldLeaves false (fields.insert key v)).filter kind =
      (fieldLeaves false fields).filter kind := by
  induction fields with
  | nil =>
    rw [Entries.insert, fieldLeaves_cons, List.filter_append, hnew rfl]
    rfl
  | cons first rest ih =>
    obtain ⟨k, w⟩ := first
    rw [Entries.ordered_cons_iff] at h
    obtain ⟨hfirst, hrest⟩ := h
    unfold Entries.get? at hnew hold
    unfold Entries.insert
    by_cases hk : k = key
    · subst hk
      rw [if_pos rfl, fieldLeaves_cons, fieldLeaves_cons, List.filter_append, List.filter_append,
        hold w (if_pos rfl)]
    · rw [if_neg hk] at hnew hold ⊢
      split
      · next hlt =>
        -- All keys are larger, so there was nothing under the key.
        have hnone : Entries.get? rest key = none :=
          Entries.get?_eq_none_iff.mpr fun hmem => lt_asymm hlt (hfirst key hmem)
        rw [fieldLeaves_cons key, List.filter_append, hnew hnone, List.nil_append]
      · rw [fieldLeaves_cons, fieldLeaves_cons, List.filter_append, List.filter_append,
          ih hrest hnew hold]

/-- The leaves of a member whose paths part from one that goes through the member. -/
theorem filter_memberLeaves (key : String) (rest : List String) (v : Value) :
    (memberLeaves key v).filter (fun leaf => ¬ Meets (key :: rest) leaf.1) =
      ((v.leaves false).filter (fun leaf => ¬ Meets rest leaf.1)).map
        fun leaf => (key :: leaf.1, leaf.2) := by
  unfold memberLeaves
  rw [List.filter_map]
  congr 1
  apply List.filter_congr
  intro leaf _
  exact decide_eq_decide.mpr (not_congr meets_cons)

/-- A member without members meets every path that would go through it. -/
theorem filter_memberLeaves_of_isLeaf (key : String) (rest : List String) {v : Value}
    (h : v.IsLeaf) :
    (memberLeaves key v).filter (fun leaf => ¬ Meets (key :: rest) leaf.1) = [] := by
  rw [filter_memberLeaves, leaves_of_isLeaf h, List.filter_cons_of_neg]
  · rfl
  · simp [Meets]

/-- **A write leaves the leaves alone** whose paths part from the written one. -/
theorem filter_fieldLeaves_setAt {fields : Entries Value} (h : (Value.object fields).Tidy)
    (p : List String) (v : Value) :
    (fieldLeaves false (fields.setAt p v)).filter (fun leaf => ¬ Meets p leaf.1) =
      (fieldLeaves false fields).filter (fun leaf => ¬ Meets p leaf.1) := by
  induction p generalizing fields with
  | nil => rw [Entries.setAt_nil]
  | cons key rest ih =>
    by_cases hrest : rest = []
    · subst hrest
      rw [Entries.setAt_singleton]
      have hall : ∀ w : Value,
          (memberLeaves key w).filter (fun leaf => ¬ Meets [key] leaf.1) = [] := by
        intro w
        rw [filter_memberLeaves, List.filter_eq_nil_iff.mpr, List.map_nil]
        intro leaf _
        simp [Meets]
      exact filter_fieldLeaves_insert h.ordered _ (fun _ => hall v)
        fun w _ => (hall v).trans (hall w).symm
    · rw [Entries.setAt_cons fields key hrest]
      apply filter_fieldLeaves_insert h.ordered
      · intro hnone
        rw [filter_memberLeaves, leaves_object, Entries.below_of_get?_none hnone, ih tidy_empty]
        rfl
      · intro w hw
        have hbelow : fields.below key = w.fields := Entries.below_of_get? hw
        rcases isLeaf_or_object w with hleaf | ⟨inner, rfl⟩
        · rw [filter_memberLeaves_of_isLeaf key rest hleaf, filter_memberLeaves, leaves_object,
            hbelow, fields_of_isLeaf hleaf, ih tidy_empty]
          rfl
        · have hinner : (Value.object inner).Tidy := h.of_mem (Entries.mem_of_get? hw)
          rw [filter_memberLeaves, filter_memberLeaves, leaves_object, leaves_object, hbelow]
          congr 1
          exact ih hinner

/-- What is written is a leaf. -/
theorem mem_fieldLeaves_setAt (fields : Entries Value) {p : List String} (hp : p ≠ [])
    {v : Value} (hv : v.IsLeaf) : (p, v) ∈ fieldLeaves false (fields.setAt p v) := by
  induction p generalizing fields with
  | nil => exact absurd rfl hp
  | cons key rest ih =>
    rw [mem_fieldLeaves]
    by_cases hrest : rest = []
    · subst hrest
      refine ⟨_, Entries.mem_of_get? (Entries.get?_insert_self fields key v), ([], v), ?_, rfl⟩
      rw [leaves_of_isLeaf hv]
      exact List.mem_singleton_self _
    · rw [Entries.setAt_cons fields key hrest]
      refine ⟨_, Entries.mem_of_get? (Entries.get?_insert_self fields key _), (rest, v), ?_, rfl⟩
      rw [leaves_object]
      exact ih _ hrest

end Value

/-! ## Writing leaves -/

namespace Entries

/-- A write at a path that parts from another is not seen there. -/
theorem at?_setAt_of_not_meets {p q : List String} (h : ¬ Meets p q) (m : Entries Value)
    (v : Value) : (m.setAt p v).at? q = m.at? q :=
  at?_setAt_apart m (fun hpq => h (.inl hpq)) (fun hqp => h (.inr hqp)) v

/-- Writes leaves one after the other, each of them at an address. -/
def writeAll (address : List String → List String) (m : Entries Value)
    (leaves : List (List String × Value)) : Entries Value :=
  leaves.foldl (fun m leaf => m.setAt (address leaf.1) leaf.2) m

section writing

variable (address : List String → List String)

theorem writeAll_cons (m : Entries Value) (leaf : List String × Value)
    (rest : List (List String × Value)) :
    m.writeAll address (leaf :: rest) = (m.setAt (address leaf.1) leaf.2).writeAll address rest :=
  rfl

/-- **A leaf is read at its address**, if the addresses of all others part from it. -/
theorem at?_writeAll_of_last (m : Entries Value) {leaves : List (List String × Value)}
    {last : List String × Value} (haddress : address last.1 ≠ []) (hlast : last ∈ leaves)
    (hothers : ∀ leaf ∈ leaves, leaf = last ∨ ¬ Meets (address leaf.1) (address last.1)) :
    (m.writeAll address leaves).at? (address last.1) = some last.2 := by
  -- The reading is kept from the first time that the leaf is written.
  have hkept : ∀ (leaves : List (List String × Value)) (m : Entries Value),
      (∀ leaf ∈ leaves, leaf = last ∨ ¬ Meets (address leaf.1) (address last.1)) →
      m.at? (address last.1) = some last.2 ∨ last ∈ leaves →
      (m.writeAll address leaves).at? (address last.1) = some last.2 := by
    intro leaves
    induction leaves with
    | nil =>
      intro m _ hread
      rcases hread with hread | hmem
      · exact hread
      · exact nomatch hmem
    | cons leaf rest ih =>
      intro m hothers hread
      obtain ⟨hleaf, hrest⟩ := List.forall_mem_cons.mp hothers
      rw [writeAll_cons]
      apply ih _ hrest
      rcases hleaf with rfl | hparts
      · exact .inl (at?_setAt_self m haddress _)
      · rcases hread with hread | hmem
        · exact .inl ((at?_setAt_of_not_meets hparts m _).trans hread)
        · rcases List.mem_cons.mp hmem with rfl | hmem
          · exact absurd (.inl List.prefix_rfl) hparts
          · exact .inr hmem
  exact hkept leaves m hothers (.inr hlast)

/-- **Leaves that read nothing can be left out**: those whose address parts from the path
    that is read, and those addressed above it before anything is written that meets it. -/
theorem at?_writeAll_drop {p : List String} {leaves : List (List String × Value)}
    (dropped : List String × Value → Bool)
    (habove : ∀ leaf ∈ leaves, dropped leaf = true → Meets (address leaf.1) p →
      leaf.2.IsLeaf ∧ ∃ rest, rest ≠ [] ∧ p = address leaf.1 ++ rest ∧ address leaf.1 ≠ [])
    (hfirst : leaves.Pairwise fun leaf other => dropped other = true →
      Meets (address other.1) p → ¬ Meets (address leaf.1) p)
    {m n : Entries Value} (h : m.at? p = n.at? p)
    (hnone : m.at? p = none ∨ ∀ leaf ∈ leaves, dropped leaf = true → ¬ Meets (address leaf.1) p) :
    (m.writeAll address leaves).at? p =
      (n.writeAll address (leaves.filter fun leaf => !dropped leaf)).at? p := by
  induction leaves generalizing m n with
  | nil => exact h
  | cons leaf rest ih =>
    obtain ⟨haboveLeaf, haboveRest⟩ := List.forall_mem_cons.mp habove
    rw [List.pairwise_cons] at hfirst
    obtain ⟨hleaf, hrest⟩ := hfirst
    have hnoneRest : m.at? p = none ∨
        ∀ other ∈ rest, dropped other = true → ¬ Meets (address other.1) p := by
      rcases hnone with hnone | hparts
      · exact .inl hnone
      · exact .inr fun other hother => hparts other (List.mem_cons_of_mem _ hother)
    rw [writeAll_cons]
    by_cases hdropped : dropped leaf = true
    · rw [List.filter_cons_of_neg (by simp [hdropped])]
      by_cases hmeets : Meets (address leaf.1) p
      · -- Nothing is read before, and nothing is read beneath the leaf.
        have hbefore : m.at? p = none := by
          rcases hnone with hnone | hparts
          · exact hnone
          · exact absurd hmeets (hparts leaf List.mem_cons_self hdropped)
        obtain ⟨hvalue, more, hmore, hp, haddress⟩ := haboveLeaf hdropped hmeets
        have hafter : (m.setAt (address leaf.1) leaf.2).at? p = none := by
          rw [hp, at?_setAt_beyond m haddress hmore, Value.fields_of_isLeaf hvalue, at?_empty]
        exact ih haboveRest hrest (hafter.trans (hbefore.symm.trans h)) (.inl hafter)
      · have hsame := at?_setAt_of_not_meets hmeets m leaf.2
        apply ih haboveRest hrest (hsame.trans h)
        rwa [hsame]
    · rw [List.filter_cons_of_pos (by simpa using hdropped), writeAll_cons]
      apply ih haboveRest hrest (at?_setAt_congr h _ _)
      by_cases hmeets : Meets (address leaf.1) p
      · exact .inr fun other hother hd hm => hleaf other hother hd hm hmeets
      · rwa [at?_setAt_of_not_meets hmeets]

end writing

end Entries

end LayeredConfig
