import LayeredConfig.Proofs.Addressing
import LayeredConfig.Proofs.OrderedEntries

/-! # Trees in lower case

    A caseless store puts every value in lower case that is written to it, the keys of objects
    inside of lists included. What such a store holds already is in lower case, so reading a
    value, adding to it and writing it back does not change what was read.

    This holds of every caseless store, since its tree carries that it is in lower case.

    **Main results.** `Lowered.lowerKeys_eq`: lower-casing is done once;
    `CaselessTree.keys_stay_lower` for trees that are made and written to.
-/

namespace LayeredConfig

/-! ## Values in lower case -/

namespace Value

theorem lowerItemKeys_eq (items : List Value) : lowerItemKeys items = items.map lowerKeys := by
  induction items with
  | nil => rfl
  | cons item rest ih => rw [lowerItemKeys, ih, List.map_cons]

theorem lowerFieldKeys_eq (fields : Entries Value) :
    lowerFieldKeys fields = fields.map fun entry => (Text.lower entry.1, entry.2.lowerKeys) := by
  induction fields with
  | nil => rfl
  | cons entry rest ih => rw [lowerFieldKeys, ih, List.map_cons]

namespace Lowered

/-- **A value in lower case is left as it is.** -/
theorem lowerKeys_eq {v : Value} (h : v.Lowered) : v.lowerKeys = v := by
  induction h with
  | @scalar v hscalar =>
    cases v with
    | array items => exact hscalar.elim
    | object fields => exact hscalar.elim
    | _ => rfl
  | @array items _ ih =>
    rw [lowerKeys, lowerItemKeys_eq, List.map_congr_left ih, List.map_id']
  | @object fields hordered hkeys _ ih =>
    have hmembers : ∀ entry ∈ fields, (Text.lower entry.1, entry.2.lowerKeys) = entry :=
      fun entry hentry => Prod.ext (hkeys entry hentry) (ih entry hentry)
    rw [lowerKeys, lowerFieldKeys_eq, List.map_congr_left hmembers, List.map_id',
      hordered.ofList_eq]

/-- What is read in an object in lower case is in lower case. -/
theorem at? {m : Entries Value} (h : Lowered (.object m)) {p : List String} {v : Value}
    (hread : m.at? p = some v) : v.Lowered := by
  induction p generalizing m with
  | nil => exact nomatch (Entries.at?_nil m).symm.trans hread
  | cons key rest ih =>
    by_cases hrest : rest = []
    · subst hrest
      exact h.of_mem (Entries.mem_of_get? hread)
    · rw [Entries.at?_cons m key hrest] at hread
      exact ih (h.members key) hread

end Lowered

end Value

/-! ## Trees that are made and written to -/

namespace CaselessTree

/-- What is read in a tree is in lower case. -/
theorem lowered_of_get? {t : CaselessTree} {key : String} {v : Value}
    (hread : t.get? key = some v) : v.Lowered := t.lowered.at? hread

/-- Writes settings, one after the other. -/
def setAll (t : CaselessTree) (writes : List (String × Value)) : CaselessTree :=
  writes.foldl (fun t write => t.set write.1 write.2) t

/-- The tree of a value with a separator, after settings have been written to it. -/
def written (v : Value) (separator : Separator) (writes : List (String × Value)) : CaselessTree :=
  setAll { ofValue v with separator } writes

@[simp] theorem separator_setAll (t : CaselessTree) (writes : List (String × Value)) :
    (t.setAll writes).separator = t.separator := by
  induction writes generalizing t with
  | nil => rfl
  | cons write rest ih => exact ih (t.set write.1 write.2)

@[simp] theorem separator_written (v : Value) (separator : Separator)
    (writes : List (String × Value)) : (written v separator writes).separator = separator :=
  separator_setAll _ writes

/-- Keys with the same steps in lower case read the same. -/
theorem get?_congr {t : CaselessTree} {key other : String} (h : t.path key = t.path other) :
    t.get? key = t.get? other := by
  unfold get?
  rw [h]

/-- What is read right after it was written is in lower case. -/
theorem get?_set_self (t : CaselessTree) (key : String) (v : Value) :
    (t.set key v).get? key = some v.lowerKeys := by
  have hpath : t.path key ≠ [] := by simp [path, t.separator.split_ne_nil]
  exact Entries.at?_setAt_self t.root hpath v.lowerKeys

/-- **Every key stays in lower case.** Take the tree of any value with any separator, after any
    writes. All keys of objects in it are in lower case, at every depth and also inside of
    lists. So the tree made of it as a value is the same tree; keys whose steps become
    equal in lower case read the same; and a value that has just been written is read with
    its keys in lower case. -/
theorem keys_stay_lower (v : Value) (separator : Separator) (writes : List (String × Value)) :
    (written v separator writes).toValue.Lowered ∧
    (ofValue (written v separator writes).toValue).toValue =
      (written v separator writes).toValue ∧
    (∀ key other, (separator.split key).map Text.lower = (separator.split other).map Text.lower →
      (written v separator writes).get? key = (written v separator writes).get? other) ∧
    ∀ key w, ((written v separator writes).set key w).get? key = some w.lowerKeys := by
  have hlowered : (written v separator writes).toValue.Lowered :=
    (written v separator writes).lowered
  refine ⟨hlowered, ?same, ?spellings, fun key w => get?_set_self _ key w⟩
  case same =>
    show Value.object (written v separator writes).toValue.lowerKeys.fields = _
    rw [Value.Lowered.lowerKeys_eq hlowered]
    rfl
  case spellings =>
    intro key other h
    apply get?_congr
    unfold path
    rwa [separator_written]

/-- Capitals in a list, and two spellings of a key that was written through a text. -/
theorem keys_stay_lower_across_spellings :
    (written (.object [("B", .string "v"), ("LIST", .array [.object [("Key", .null)]])]) ⟨"/"⟩
      [("b/Éa", .bool true)]).toValue =
      .object [("b", .object [("éa", .bool true)]), ("list", .array [.object [("key", .null)]])] ∧
    ((⟨"/"⟩ : Separator).split "B/éA").map Text.lower =
      ((⟨"/"⟩ : Separator).split "b/ÉA").map Text.lower ∧
    (written (.object [("B", .string "v"), ("LIST", .array [.object [("Key", .null)]])]) ⟨"/"⟩
      [("b/Éa", .bool true)]).get? "B/éA" =
    (written (.object [("B", .string "v"), ("LIST", .array [.object [("Key", .null)]])]) ⟨"/"⟩
      [("b/Éa", .bool true)]).get? "b/ÉA" := by
  have hspellings : ((⟨"/"⟩ : Separator).split "B/éA").map Text.lower =
      ((⟨"/"⟩ : Separator).split "b/ÉA").map Text.lower := by decide +kernel
  obtain ⟨_, _, hreads, _⟩ := keys_stay_lower
    (.object [("B", .string "v"), ("LIST", .array [.object [("Key", .null)]])]) ⟨"/"⟩
    [("b/Éa", .bool true)]
  exact ⟨by decide +kernel, hspellings, hreads "B/éA" "b/ÉA" hspellings⟩

end CaselessTree

end LayeredConfig
