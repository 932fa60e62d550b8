import LayeredConfig.Text.LowerTwice
import LayeredConfig.Value.Path

/-! # Values in lower case

    A value is in lower case if all keys of objects in it are, at every depth and also inside
    of lists. Any value can be put in lower case. Where two keys of one object become equal,
    the one that came later in the order of the keys as given wins.

    A key that has been put in lower case stays as it is when that is done again, so a value
    that has been put in lower case is in lower case. A write at a path in lower case keeps
    an object in lower case if the written value is.

    **Main results.** `lowered_lowerKeys` and `Lowered.setAt`.
-/

namespace LayeredConfig.Value

/-! ## Putting values in lower case -/

mutual

/-- The value with all object keys in lower case. -/
def lowerKeys : Value → Value
  | .object fields => .object (Entries.ofList (lowerFieldKeys fields))
  | .array items => .array (lowerItemKeys items)
  | v => v

/-- The items of a list with all object keys in lower case. -/
def lowerItemKeys : List Value → List Value
  | [] => []
  | item :: rest => lowerKeys item :: lowerItemKeys rest

/-- The members of an object with all keys in lower case, in the order they had. -/
def lowerFieldKeys : List (String × Value) → List (String × Value)
  | [] => []
  | (key, value) :: rest => (Text.lower key, lowerKeys value) :: lowerFieldKeys rest

end

/-- A value that has no other values in it. -/
def IsScalar : Value → Prop
  | .array _ | .object _ => False
  | _ => True

/-- A value in which all keys of objects are in lower case and in order, at every depth and
    also inside of lists. -/
inductive Lowered : Value → Prop where
  | scalar {v : Value} (h : v.IsScalar) : Lowered v
  | array {items : List Value} (hitems : ∀ item ∈ items, Lowered item) : Lowered (.array items)
  | object {fields : Entries Value} (hordered : fields.Ordered)
      (hkeys : ∀ entry ∈ fields, Text.lower entry.1 = entry.1)
      (hfields : ∀ entry ∈ fields, Lowered entry.2) : Lowered (.object fields)

theorem lowered_empty : Lowered (.object []) := by
  refine .object Entries.ordered_nil ?_ ?_
  · exact fun entry hentry => nomatch hentry
  · exact fun entry hentry => nomatch hentry

mutual

/-- **Lower-casing makes lower case.** -/
theorem lowered_lowerKeys : (v : Value) → v.lowerKeys.Lowered
  | .null | .bool _ | .number _ | .string _ => .scalar trivial
  | .array items => .array (lowered_lowerItemKeys items)
  | .object fields => by
    have hmembers := lowered_lowerFieldKeys fields
    refine .object (Entries.ordered_ofList _) ?_ ?_
    · intro entry hentry
      exact (hmembers entry (Entries.mem_of_mem_ofList hentry)).1
    · intro entry hentry
      exact (hmembers entry (Entries.mem_of_mem_ofList hentry)).2

theorem lowered_lowerItemKeys : (items : List Value) → ∀ item ∈ lowerItemKeys items, item.Lowered
  | [], item, hitem => nomatch hitem
  | first :: rest, item, hitem => by
    rcases List.mem_cons.mp hitem with rfl | hmem
    · exact lowered_lowerKeys first
    · exact lowered_lowerItemKeys rest item hmem

theorem lowered_lowerFieldKeys : (fields : List (String × Value)) →
    ∀ entry ∈ lowerFieldKeys fields, Text.lower entry.1 = entry.1 ∧ entry.2.Lowered
  | [], entry, hentry => nomatch hentry
  | (key, v) :: rest, entry, hentry => by
    rcases List.mem_cons.mp hentry with rfl | hmem
    · exact ⟨Text.lower_lower key, lowered_lowerKeys v⟩
    · exact lowered_lowerFieldKeys rest entry hmem

end

namespace Lowered

/-! ## What is in a value in lower case -/

theorem ordered {fields : Entries Value} (h : Lowered (.object fields)) : fields.Ordered := by
  cases h with
  | scalar hscalar => exact hscalar.elim
  | object hordered _ _ => exact hordered

theorem key_of_mem {fields : Entries Value} (h : Lowered (.object fields))
    {entry : String × Value} (hentry : entry ∈ fields) : Text.lower entry.1 = entry.1 := by
  cases h with
  | scalar hscalar => exact hscalar.elim
  | object _ hkeys _ => exact hkeys entry hentry

theorem of_mem {fields : Entries Value} (h : Lowered (.object fields)) {entry : String × Value}
    (hentry : entry ∈ fields) : Lowered entry.2 := by
  cases h with
  | scalar hscalar => exact hscalar.elim
  | object _ _ hfields => exact hfields entry hentry

theorem of_mem_items {items : List Value} (h : Lowered (.array items)) {item : Value}
    (hitem : item ∈ items) : Lowered item := by
  cases h with
  | scalar hscalar => exact hscalar.elim
  | array hitems => exact hitems item hitem

theorem fields {v : Value} (h : v.Lowered) : Lowered (.object v.fields) := by
  cases v with
  | object fields => exact h
  | _ => exact lowered_empty

/-- The members of what is under a key; anything but an object has none. -/
theorem members {fields : Entries Value} (h : Lowered (.object fields)) (key : String) :
    Lowered (.object ((fields.get? key).getD .null).fields) := by
  cases hread : fields.get? key with
  | none => exact lowered_empty
  | some v => exact (h.of_mem (Entries.mem_of_get? hread)).fields

/-! ## Writing -/

theorem insert {fields : Entries Value} (h : Lowered (.object fields)) {key : String}
    (hkey : Text.lower key = key) {v : Value} (hv : v.Lowered) :
    Lowered (.object (fields.insert key v)) := by
  refine .object (h.ordered.insert key v) ?_ ?_
  · intro entry hentry
    rcases Entries.mem_insert hentry with rfl | hmem
    · exact hkey
    · exact h.key_of_mem hmem
  · intro entry hentry
    rcases Entries.mem_insert hentry with rfl | hmem
    · exact hv
    · exact h.of_mem hmem

/-- **A write at a path in lower case** keeps an object in lower case. -/
theorem setAt {m : Entries Value} (h : Lowered (.object m)) {p : List String}
    (hp : ∀ key ∈ p, Text.lower key = key) {v : Value} (hv : v.Lowered) :
    Lowered (.object (m.setAt p v)) := by
  induction p generalizing m with
  | nil => rwa [Entries.setAt]
  | cons key rest ih =>
    obtain ⟨hkey, hrest⟩ := List.forall_mem_cons.mp hp
    cases rest with
    | nil => exact h.insert hkey hv
    | cons next more => exact h.insert hkey (ih (h.members key) hrest)

end Lowered

end LayeredConfig.Value
