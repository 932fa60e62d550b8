import LayeredConfig.Proofs.LoweredTrees
import LayeredConfig.Proofs.Pruning

/-! # Flattened trees

    A caseless tree is listed as one level of entries: for each path that ends, the path
    joined to a key and the value that it ends at. A path ends at a value without members,
    which is a list or a scalar, or at an object that is empty.

    Where the separator begins with a character that no key has in it, a joined path is
    split into the same path again. So no two paths share an entry, each entry is read under
    its key, and to write the entries is to write the leaves of the tree at their own paths.
    These part from each other, which leaves the order of the writes free, and in the order
    of the tree each object is made member by member.

    **Main results.** `Tidy.mem_fieldLeaves_iff`: what the leaves are;
    `Tidy.writeAll_fieldLeaves_eq`: the leaves make the tree;
    `CaselessTree.exists_last_of_mem_flatten`: what is listed in any case;
    `CaselessTree.flatten_lossless`.
-/

namespace LayeredConfig

/-! ## Keys outside of lists -/

namespace Value

mutual

/-- The keys of a value outside of lists: those of its members, of their members, and so on. -/
def openKeys : Value → List String
  | .object fields => openFieldKeys fields
  | _ => []

/-- The keys of members and those that are outside of lists in them. -/
def openFieldKeys : List (String × Value) → List String
  | [] => []
  | (key, v) :: rest => key :: (openKeys v ++ openFieldKeys rest)

end

theorem mem_openFieldKeys {fields : Entries Value} {key : String} :
    key ∈ openFieldKeys fields ↔ ∃ entry ∈ fields, key = entry.1 ∨ key ∈ entry.2.openKeys := by
  induction fields with
  | nil => simp [openFieldKeys]
  | cons first rest ih =>
    rw [openFieldKeys, List.mem_cons, List.mem_append, ih, List.exists_mem_cons_iff, or_assoc]

theorem openKeys_eq (v : Value) : v.openKeys = openFieldKeys v.fields := by
  cases v <;> rfl

/-- The steps of a path that leads somewhere are keys outside of lists. -/
theorem mem_openFieldKeys_of_at? {fields : Entries Value} {p : List String} {v : Value}
    (h : fields.at? p = some v) {step : String} (hstep : step ∈ p) :
    step ∈ openFieldKeys fields := by
  induction p generalizing fields with
  | nil => exact nomatch hstep
  | cons key rest ih =>
    rw [mem_openFieldKeys]
    by_cases hrest : rest = []
    · subst hrest
      obtain rfl := List.mem_singleton.mp hstep
      exact ⟨_, Entries.mem_of_get? h, .inl rfl⟩
    · obtain ⟨w, hread, hinner⟩ := Entries.exists_of_at?_cons hrest h
      refine ⟨_, Entries.mem_of_get? hread, ?_⟩
      rcases List.mem_cons.mp hstep with rfl | hstep
      · exact .inl rfl
      · rw [openKeys_eq]
        exact .inr (ih hinner hstep)

namespace Lowered

theorem lower_of_mem_openKeys {v : Value} (h : v.Lowered) {key : String}
    (hkey : key ∈ v.openKeys) : Text.lower key = key := by
  induction h with
  | @scalar v hscalar =>
    cases v with
    | object fields => exact hscalar.elim
    | _ => exact nomatch hkey
  | array => exact nomatch hkey
  | object _ hkeys _ ih =>
    obtain ⟨entry, hentry, rfl | hinner⟩ := mem_openFieldKeys.mp hkey
    · exact hkeys entry hentry
    · exact ih entry hentry hinner

/-- A value in lower case is tidy. -/
theorem tidy {v : Value} (h : v.Lowered) : v.Tidy := by
  induction h with
  | @scalar v hscalar =>
    cases v with
    | object fields => exact hscalar.elim
    | _ => exact .leaf trivial
  | array => exact .leaf trivial
  | object hordered _ _ ih => exact .object hordered ih

end Lowered

end Value

/-! ## Where paths end -/

/-- Whether a path ends at a value: one without members, be it an empty object. -/
def Entries.EndsAt (m : Entries Value) (p : List String) (v : Value) : Prop :=
  m.at? p = some v ∧ v.fields = []

namespace Value

/-- The leaf of a value without members is the value itself; other leaves are those of the
    members. -/
theorem mem_leaves_iff {v w : Value} {p : List String} :
    (p, w) ∈ v.leaves true ↔
      p = [] ∧ w = v ∧ v.fields = [] ∨ (p, w) ∈ fieldLeaves true v.fields := by
  rcases isLeaf_or_object v with hleaf | ⟨fields, rfl⟩
  · simp [leaves_of_isLeaf hleaf, fields_of_isLeaf hleaf, fieldLeaves]
  · cases fields with
    | nil => simp [leaves, fields, fieldLeaves]
    | cons first rest => simp [leaves, fields]

/-- Every value has a leaf, where empty objects are leaves. -/
theorem leaves_ne_nil : (v : Value) → v.leaves true ≠ []
  | .object [] => by simp [leaves]
  | .object ((key, v) :: rest) => by
    have hv := leaves_ne_nil v
    simp [leaves, fieldLeaves, hv]
  | .null | .bool _ | .number _ | .string _ | .array _ => by simp [leaves]

namespace Tidy

/-- **The leaves of an object** are the values that its paths end at. -/
theorem mem_fieldLeaves_iff {fields : Entries Value} (h : (Value.object fields).Tidy)
    {p : List String} {v : Value} :
    (p, v) ∈ fieldLeaves true fields ↔ fields.EndsAt p v := by
  unfold Entries.EndsAt
  induction p generalizing fields with
  | nil =>
    rw [Entries.at?_nil]
    constructor
    · exact fun hleaf => absurd rfl (ne_nil_of_mem_fieldLeaves hleaf)
    · exact fun hends => nomatch hends.1
  | cons key rest ih =>
    rw [mem_fieldLeaves]
    constructor
    · rintro ⟨⟨_, w⟩, hentry, ⟨_, _⟩, hinner, heq⟩
      obtain ⟨hpath, rfl⟩ := Prod.mk.inj heq
      obtain ⟨rfl, rfl⟩ := List.cons.inj hpath
      have hread : fields.get? key = some w := h.ordered.get?_of_mem hentry
      rcases mem_leaves_iff.mp hinner with ⟨rfl, rfl, hempty⟩ | hdeeper
      · exact ⟨hread, hempty⟩
      · rw [Entries.at?_cons fields key (ne_nil_of_mem_fieldLeaves hdeeper)]
        apply (ih (h.members key)).mp
        rwa [Entries.below_of_get? hread]
    · rintro ⟨hread, hempty⟩
      by_cases hrest : rest = []
      · subst hrest
        have hself : ([], v) ∈ v.leaves true := mem_leaves_iff.mpr (.inl ⟨rfl, rfl, hempty⟩)
        exact ⟨_, Entries.mem_of_get? hread, _, hself, rfl⟩
      · obtain ⟨w, hw, hinner⟩ := Entries.exists_of_at?_cons hrest hread
        have hbelow := h.members key
        rw [Entries.below_of_get? hw] at hbelow
        have hleaf : (rest, v) ∈ w.leaves true :=
          mem_leaves_iff.mpr (.inr ((ih hbelow).mpr ⟨hinner, hempty⟩))
        exact ⟨_, Entries.mem_of_get? hw, _, hleaf, rfl⟩

/-! ## The tree that leaves make -/

/-- The leaves of new members put in the members, if those of each member do. -/
theorem writeAll_fieldLeaves_of_new {fields : Entries Value} (hordered : fields.Ordered)
    (h : ∀ entry ∈ fields, ∀ m : Entries Value, m.get? entry.1 = none →
      m.writeAll id ((entry.2.leaves true).map fun leaf => (entry.1 :: leaf.1, leaf.2)) =
        m.insert entry.1 entry.2)
    {m : Entries Value} (hnew : ∀ entry ∈ fields, m.get? entry.1 = none) :
    m.writeAll id (fieldLeaves true fields) =
      fields.foldl (fun m entry => m.insert entry.1 entry.2) m := by
  induction fields generalizing m with
  | nil => rfl
  | cons first rest ih =>
    obtain ⟨key, v⟩ := first
    rw [Entries.ordered_cons_iff] at hordered
    obtain ⟨hbehind, hordered⟩ := hordered
    obtain ⟨hfirst, hrest⟩ := List.forall_mem_cons.mp h
    obtain ⟨hkey, hnew⟩ := List.forall_mem_cons.mp hnew
    rw [fieldLeaves, Entries.writeAll_append, hfirst m hkey, List.foldl_cons]
    apply ih hordered hrest
    intro entry hentry
    have hne : key ≠ entry.1 := (hbehind entry.1 (List.mem_map_of_mem hentry)).ne
    rw [Entries.get?_insert_of_ne hne]
    exact hnew entry hentry

/-- The leaves of a value put it in under a new key. -/
theorem writeAll_leaves {v : Value} (h : v.Tidy) {key : String} {m : Entries Value}
    (hnew : m.get? key = none) :
    m.writeAll id ((v.leaves true).map fun leaf => (key :: leaf.1, leaf.2)) =
      m.insert key v := by
  induction h generalizing key m with
  | leaf hleaf =>
    rw [leaves_of_isLeaf hleaf]
    rfl
  | @object fields hordered hfields ih =>
    by_cases hempty : fields = []
    · subst hempty
      rfl
    · have hsome : fieldLeaves true fields ≠ [] := by
        rw [← leaves_object_of_ne_nil hempty]
        exact leaves_ne_nil _
      -- The object under the key is made from nothing, one member after the other.
      rw [leaves_object_of_ne_nil hempty, Entries.writeAll_beneath m key hsome
          fun _ hleaf => ne_nil_of_mem_fieldLeaves hleaf,
        Entries.below_of_get?_none hnew,
        writeAll_fieldLeaves_of_new hordered (fun entry hentry _ => ih entry hentry)
          fun _ _ => rfl]
      show m.insert key (.object (Entries.ofList fields)) = _
      rw [hordered.ofList_eq]

/-- **The leaves make the tree.** Written at their paths into nothing, they give the object
    that they are the leaves of. -/
theorem writeAll_fieldLeaves_eq {fields : Entries Value} (h : (Value.object fields).Tidy) :
    Entries.writeAll id [] (fieldLeaves true fields) = fields := by
  rw [writeAll_fieldLeaves_of_new h.ordered
    (fun entry hentry _ => (h.of_mem hentry).writeAll_leaves) fun _ _ => rfl]
  exact h.ordered.ofList_eq

/-- The leaves can be written in any order. -/
theorem writeAll_perm {fields : Entries Value} (h : (Value.object fields).Tidy)
    {leaves : List (List String × Value)} (hperm : leaves.Perm (fieldLeaves true fields)) :
    Entries.writeAll id [] leaves = fields := by
  rw [← h.writeAll_fieldLeaves_eq]
  apply hperm.foldl_eq'
  intro leaf hleaf other hother m
  by_cases hmeets : Meets leaf.1 other.1
  · rw [h.eq_of_meets (hperm.mem_iff.mp hleaf) (hperm.mem_iff.mp hother) hmeets]
  · exact Entries.setAt_comm hmeets m leaf.2 other.2

end Tidy

end Value

/-! ## Trees that are listed -/

namespace CaselessTree

/-- The entry that a leaf of a tree is listed as. -/
def listed (t : CaselessTree) (leaf : List String × Value) : String × Value :=
  (t.separator.join leaf.1, leaf.2)

/-- The leaf that the write of an entry puts in a tree. -/
def placed (t : CaselessTree) (entry : String × Value) : List String × Value :=
  (t.path entry.1, entry.2.lowerKeys)

theorem root_setAll (t : CaselessTree) (writes : List (String × Value)) :
    (t.setAll writes).root = t.root.writeAll id (writes.map t.placed) := by
  induction writes generalizing t with
  | nil => rfl
  | cons write rest ih => exact ih (t.set write.1 write.2)

theorem ext_root {t u : CaselessTree} (hroot : t.root = u.root)
    (hseparator : t.separator = u.separator) : t = u := by
  obtain ⟨root, separator, _⟩ := t
  obtain rfl : root = u.root := hroot
  obtain rfl : separator = u.separator := hseparator
  rfl

/-- A tree in lower case is tidy. -/
theorem tidy (t : CaselessTree) : (Value.object t.root).Tidy := t.lowered.tidy

/-- **What is listed under a key** is the value of the last path that is joined to it. -/
theorem exists_last_of_mem_flatten {t : CaselessTree}
    {entry : String × Value} (h : entry ∈ t.flatten) :
    ∃ p, t.root.EndsAt p entry.2 ∧ t.separator.join p = entry.1 ∧
      ∀ q v, t.root.EndsAt q v → t.separator.join q = entry.1 → q = p ∨ Before q p := by
  have hordered := Value.pairwise_before_fieldLeaves t.tidy.ordered fun _ hentry =>
    (t.tidy.of_mem hentry).pairwise_before true
  obtain ⟨leaf, hleaf, rfl, hlast⟩ :=
    Entries.exists_last_of_mem_ofList hordered t.listed h
  refine ⟨leaf.1, t.tidy.mem_fieldLeaves_iff.mp hleaf, rfl, fun q v hends hjoined => ?_⟩
  rcases hlast (q, v) (t.tidy.mem_fieldLeaves_iff.mpr hends) hjoined with heq | hbefore
  · exact .inl (congrArg Prod.fst heq)
  · exact .inr hbefore

/-- Where a path ends, something is listed under its key. -/
theorem exists_mem_flatten {t : CaselessTree} {p : List String} {v : Value}
    (hends : t.root.EndsAt p v) : ∃ u, (t.separator.join p, u) ∈ t.flatten := by
  have hleaf := List.mem_map_of_mem (f := t.listed) (t.tidy.mem_fieldLeaves_iff.mpr hends)
  exact Entries.exists_mem_ofList hleaf

/-- Whether the paths that end in a tree are those of the keys that they are joined to. -/
def FindsLeaves (t : CaselessTree) : Prop :=
  ∀ p v, t.root.EndsAt p v → t.path (t.separator.join p) = p

/-- **Leaves are found** where the separator begins with a character that is in no key outside
    of lists. -/
theorem findsLeaves_of_not_mem {t : CaselessTree} {first : Char} {more : List Char}
    (htext : t.separator.text.toList = first :: more)
    (hkeys : ∀ key ∈ t.toValue.openKeys, first ∉ key.toList) : t.FindsLeaves := by
  intro p v hends
  have hne : p ≠ [] := by
    rintro rfl
    exact nomatch (Entries.at?_nil t.root).symm.trans hends.1
  have hopen : ∀ step ∈ p, step ∈ t.toValue.openKeys :=
    fun step hstep => Value.mem_openFieldKeys_of_at? hends.1 hstep
  have hlower : ∀ step ∈ p, Text.lower step = step :=
    fun step hstep => t.lowered.lower_of_mem_openKeys (hopen step hstep)
  unfold path
  rw [Separator.split_join htext hne fun step hstep => hkeys step (hopen step hstep),
    List.map_congr_left hlower, List.map_id']

section found

variable {t : CaselessTree} (hfinds : t.FindsLeaves)
include hfinds

/-- What is listed is read under its key. -/
theorem get?_of_mem_flatten {entry : String × Value} (h : entry ∈ t.flatten) :
    t.get? entry.1 = some entry.2 := by
  obtain ⟨p, hends, hjoined, _⟩ := exists_last_of_mem_flatten h
  unfold get?
  rw [← hjoined, hfinds p entry.2 hends]
  exact hends.1

/-- The leaves are listed under different keys, so all of them are. -/
theorem perm_flatten : t.flatten.Perm ((Value.fieldLeaves true t.root).map t.listed) := by
  apply Entries.perm_ofList
  rw [List.map_map]
  apply List.pairwise_map.mpr
  apply (t.tidy.pairwise_not_meets true).imp_of_mem
  intro leaf other hleaf hother hparts hjoined
  have hpath : leaf.1 = other.1 := by
    rw [← hfinds _ _ (t.tidy.mem_fieldLeaves_iff.mp hleaf),
      ← hfinds _ _ (t.tidy.mem_fieldLeaves_iff.mp hother)]
    exact congrArg t.path hjoined
  rw [hpath] at hparts
  exact hparts (.inl List.prefix_rfl)

/-- Where a path ends there is an entry. -/
theorem mem_flatten {p : List String} {v : Value} (hends : t.root.EndsAt p v) :
    (t.separator.join p, v) ∈ t.flatten := by
  rw [(perm_flatten hfinds).mem_iff]
  exact List.mem_map_of_mem (t.tidy.mem_fieldLeaves_iff.mpr hends)

/-- Written into nothing, what is listed makes the tree again, in any order. -/
theorem setAll_flatten {entries : List (String × Value)} (h : entries.Perm t.flatten) :
    setAll { empty with separator := t.separator } entries = t := by
  have hself : ∀ leaf ∈ Value.fieldLeaves true t.root, t.placed (t.listed leaf) = leaf := by
    intro leaf hleaf
    have hends := t.tidy.mem_fieldLeaves_iff.mp hleaf
    have hvalue : leaf.2.Lowered := t.lowered.at? hends.1
    exact Prod.ext (hfinds _ _ hends) hvalue.lowerKeys_eq
  have hback : ((Value.fieldLeaves true t.root).map t.listed).map t.placed =
      Value.fieldLeaves true t.root := by
    rw [List.map_map]
    exact (List.map_congr_left hself).trans (List.map_id _)
  -- So the entries are written where the leaves are, in some order.
  have hleaves := (h.trans (perm_flatten hfinds)).map t.placed
  rw [hback] at hleaves
  apply ext_root
  · rw [root_setAll]
    exact t.tidy.writeAll_perm hleaves
  · exact separator_setAll _ entries

end found

/-- **Nothing is lost when a tree is listed.** Take a tree with a separator whose first
    character is in none of its keys outside of lists. It is listed with different keys, and
    with an entry for each path that ends, which it shares with no other path. Each entry is
    read under its key. The entries make the tree again, whatever the order in which they are
    written into an empty tree with the same separator. -/
theorem flatten_lossless {t : CaselessTree} {first : Char} {more : List Char}
    (htext : t.separator.text.toList = first :: more)
    (hkeys : ∀ key ∈ t.toValue.openKeys, first ∉ key.toList) :
    t.flatten.Ordered ∧
    (∀ p v, t.root.EndsAt p v → (t.separator.join p, v) ∈ t.flatten) ∧
    (∀ entry ∈ t.flatten, ∃ p, t.root.EndsAt p entry.2 ∧ t.separator.join p = entry.1 ∧
      ∀ q v, t.root.EndsAt q v → t.separator.join q = entry.1 → q = p) ∧
    (∀ entry ∈ t.flatten, t.get? entry.1 = some entry.2) ∧
    ∀ entries : List (String × Value), entries.Perm t.flatten →
      setAll { empty with separator := t.separator } entries = t := by
  have hfinds := findsLeaves_of_not_mem htext hkeys
  refine ⟨Entries.ordered_ofList _, fun p v => mem_flatten hfinds, ?own,
    fun entry => get?_of_mem_flatten hfinds, fun entries => setAll_flatten hfinds⟩
  intro entry hentry
  obtain ⟨p, hends, hjoined, _⟩ := exists_last_of_mem_flatten hentry
  refine ⟨p, hends, hjoined, fun q v hother hsame => ?_⟩
  rw [← hfinds p entry.2 hends, ← hfinds q v hother, hjoined, hsame]

/-- A tree with a list and an empty object, made of keys in capitals. -/
def listAndEmpty : CaselessTree :=
  CaselessTree.set
    { ofValue (.object [("A", .object [("List", .array [.object [("B", .null)]])])]) with
      separator := ⟨"->"⟩ } "a->E" (.object [])

/-- Both are listed, and the tree is made again from the last entry to the first. -/
theorem flatten_lossless_of_listAndEmpty :
    listAndEmpty.flatten =
      [("a->e", .object []), ("a->list", .array [.object [("b", .null)]])] ∧
    (∀ key ∈ listAndEmpty.toValue.openKeys, '-' ∉ key.toList) ∧
    setAll { empty with separator := ⟨"->"⟩ }
      [("a->list", .array [.object [("b", .null)]]), ("a->e", .object [])] = listAndEmpty := by
  have htext : listAndEmpty.separator.text.toList = '-' :: ['>'] := by decide +kernel
  have hflat : listAndEmpty.flatten =
      [("a->e", .object []), ("a->list", .array [.object [("b", .null)]])] := by decide +kernel
  have hkeys : ∀ key ∈ listAndEmpty.toValue.openKeys, '-' ∉ key.toList := by decide +kernel
  obtain ⟨_, _, _, _, hrebuilt⟩ := flatten_lossless htext hkeys
  refine ⟨hflat, hkeys, hrebuilt _ ?_⟩
  rw [hflat]
  exact List.Perm.swap _ _ _

end CaselessTree

end LayeredConfig
