import LayeredConfig.Proofs.DocumentTree
import LayeredConfig.Proofs.Pruning
import LayeredConfig.Proofs.TidyDocuments

/-! # Merging a document

    A document is flattened to be applied: every leaf becomes a setting, whose key is the
    path to it. A store of paths takes the key apart again. So what is left of the document
    in the store is a merge of two trees, as if the document were a set of edits, and the
    settings that are recorded are those of its leaves.

    For this the keys on the paths must not look as if they were joined: none of them has
    the first character of the separator in it.

    **Main result.** `process_eq_overlay`.
-/

namespace LayeredConfig.Source.Document

open Value

/-! ## Keys of paths -/

/-- A path is its own address, if no step has the first character of the separator in it. -/
theorem address_of_not_mem {separator : Separator} {first : Char} {more : List Char}
    (htext : separator.text.toList = first :: more) {path : List String} (hpath : path ≠ [])
    (h : ∀ key ∈ path, first ∉ key.toList) : address separator path = path :=
  Separator.split_join htext hpath h

/-- Leaves are written at their paths, if that is where their keys lead. -/
theorem writeAll_address {separator : Separator} {leaves : List (List String × Value)}
    (h : ∀ leaf ∈ leaves, address separator leaf.1 = leaf.1) (m : Entries Value) :
    m.writeAll (address separator) leaves = m.writeAll id leaves := by
  induction leaves generalizing m with
  | nil => rfl
  | cons leaf rest ih =>
    obtain ⟨hleaf, hrest⟩ := List.forall_mem_cons.mp h
    rw [Entries.writeAll_cons, Entries.writeAll_cons, hleaf, ih hrest]
    rfl

/-! ## Leaves that refer to nothing -/

theorem leafFormula_of_not_interpolate {o : Options} (h : o.interpolate = false) (v : Value) :
    leafFormula o v = .const v := by
  cases v with
  | string text => simp [leafFormula, h]
  | _ => rfl

section records

variable (files : Snapshot) {o : Options} (hoverwrite : o.overwrite = true)
include hoverwrite

/-- The step of such a leaf defines its key from nothing. -/
theorem run_stepOf {leaf : List String × Value} (h : leafFormula o leaf.2 = .const leaf.2)
    (s : Session) :
    (stepOf o leaf).run files s = s.define (o.keySeparator.join leaf.1) leaf.2 [] := by
  unfold stepOf
  rw [h, hoverwrite]
  rfl

/-- **What is recorded** for such leaves: their keys, each of them made from nothing, in the
    context of the record. -/
theorem definitions_runAll {leaves : List (List String × Value)}
    (h : ∀ leaf ∈ leaves, leafFormula o leaf.2 = .const leaf.2) (s : Session) (key : String) :
    (s.runAll files (leaves.map (stepOf o))).tracker.definitions.get? key =
      if key ∈ leaves.map fun leaf => o.keySeparator.join leaf.1 then
        some ⟨s.tracker.context, []⟩
      else s.tracker.definitions.get? key := by
  have hdefines : ∀ leaf ∈ leaves, ∀ s : Session,
      ((stepOf o leaf).run files s).tracker =
        s.tracker.define (o.keySeparator.join leaf.1) [] := by
    intro leaf hleaf s
    rw [run_stepOf files hoverwrite (h leaf hleaf)]
    rfl
  have hkeys : key ∈ leaves.map (fun leaf => o.keySeparator.join leaf.1) ↔
      ∃ leaf ∈ leaves, o.keySeparator.join leaf.1 = key := List.mem_map
  rw [Session.definitions_runAll_defines files hdefines]
  cases hlast : (leaves.filter fun leaf => o.keySeparator.join leaf.1 = key).getLast? with
  | none =>
    rw [if_neg]
    · rfl
    · rw [hkeys]
      simpa [List.filter_eq_nil_iff] using hlast
  | some leaf =>
    rw [if_pos]
    · rfl
    · obtain ⟨hleaf, hkey⟩ := List.mem_filter.mp (List.mem_of_getLast? hlast)
      exact hkeys.mpr ⟨leaf, hleaf, of_decide_eq_true hkey⟩

end records

/-! ## The merge -/

/-- **A document is merged.** Take a separator that is not empty, and a document that is an
    object without nulls in which no key on the path to a leaf has the first character of
    the separator. Where nothing is lower-cased, expanded or kept, applying it to a nested
    store lays the pruned document over the tree of the store. The keys that are recorded
    are the paths to the leaves, joined, and none of them is made from other names. -/
theorem process_eq_overlay (files : Snapshot) {codec : Codec} {content : List Char}
    {fields : Entries Value} (hdecode : codec.decode content = .ok (.object fields))
    {o : Options} (hlower : o.lower = false) (hinterpolate : o.interpolate = false)
    (hoverwrite : o.overwrite = true) {first : Char} {more : List Char}
    (hseparator : o.keySeparator.text.toList = first :: more)
    (hnull : ∀ leaf ∈ fieldLeaves false fields, leaf.2 ≠ .null)
    (hkeys : ∀ leaf ∈ fieldLeaves false fields, ∀ key ∈ leaf.1, first ∉ key.toList)
    (m : Entries Value) :
    ∃ s tree, (Source.document codec content o).process files
        (Session.fresh (.nested m o.keySeparator)) = .ok s ∧
      s.store = .nested tree o.keySeparator ∧
      .object tree = (Value.object m).overlay (.object (prunedFields fields)) ∧
      ∀ key d, s.tracker.definitions.get? key = some d ↔
        (∃ leaf ∈ fieldLeaves false fields, key = o.keySeparator.join leaf.1) ∧
          d = ⟨o.contextName codec.name, []⟩ := by
  have htidy := Codec.tidy_of_decode hdecode
  have hconst : ∀ leaf ∈ fieldLeaves false fields, leafFormula o leaf.2 = .const leaf.2 :=
    fun leaf _ => leafFormula_of_not_interpolate hinterpolate leaf.2
  have hsteps : Document.steps codec o content false = Step.within (o.contextName codec.name)
      ((fieldLeaves false fields).map (stepOf o)) := by
    rw [steps_of_decode hdecode]
    simp [members, hlower]
  have haddress : ∀ leaf ∈ fieldLeaves false fields, address o.keySeparator leaf.1 = leaf.1 :=
    fun leaf hleaf =>
      address_of_not_mem hseparator (ne_nil_of_mem_fieldLeaves hleaf) (hkeys leaf hleaf)
  refine ⟨_, overlayFields m (prunedFields fields), Source.process_eq files _ _, ?store, rfl,
    ?records⟩
  case store =>
    show (Session.runAll files _ (Document.steps codec o content false)).store = _
    -- A leaf is written at the path that its key is taken apart to, which is its own.
    rw [hsteps, Session.runAll_within, ← htidy.writeAll_fieldLeaves hnull,
      ← writeAll_address haddress]
    exact store_runAll files hoverwrite hconst rfl
  case records =>
    intro key d
    show (Session.runAll files _ (Document.steps codec o content false)).tracker.definitions.get?
      key = _ ↔ _
    rw [hsteps, Session.runAll_within]
    show (Tracker.leave _).definitions.get? key = _ ↔ _
    rw [Tracker.leave_eq]
    show (Session.tracker _).definitions.get? key = _ ↔ _
    -- The record begins empty, so what is found was recorded for a leaf.
    rw [definitions_runAll files hoverwrite hconst]
    show (if _ then some (Definition.mk (o.contextName codec.name) []) else none) = some d ↔ _
    have hkey : key ∈ (fieldLeaves false fields).map (fun leaf => o.keySeparator.join leaf.1) ↔
        ∃ leaf ∈ fieldLeaves false fields, key = o.keySeparator.join leaf.1 := by
      simp [eq_comm]
    rw [← hkey]
    split
    · next hmem => simp [hmem, eq_comm]
    · next hmem => simp [hmem]

/-- A document with a leaf where the store has an object, a path where it has a leaf, and an
    object that no leaf is in. -/
theorem process_eq_overlay_of_conflicts :
    ∃ s tree,
      (Source.document .json
        "\x7b\"a\": \x7b\"b\": \"1\", \"c\": \x7b\x7d\x7d, \"d\": \"2\"\x7d".toList
        { Options.standard with lower := false, interpolate := false }).process ⟨fun _ => none⟩
        (Session.fresh (.nested [("a", .string "0"), ("d", .object [("e", .null)])] .standard)) =
          .ok s ∧
      s.store = .nested tree .standard ∧
      tree = [("a", .object [("b", .string "1")]), ("d", .string "2")] ∧
      s.tracker.definitions.get? "a::b" = some ⟨"<json>", []⟩ := by
  have hdecode : Codec.json.decode
      "\x7b\"a\": \x7b\"b\": \"1\", \"c\": \x7b\x7d\x7d, \"d\": \"2\"\x7d".toList = .ok (.object
        [("a", .object [("b", .string "1"), ("c", .object [])]), ("d", .string "2")]) := by
    decide +kernel
  have hseparator : Separator.standard.text.toList = ':' :: [':'] := by decide
  obtain ⟨s, tree, hprocess, hstore, htree, hrecords⟩ := process_eq_overlay ⟨fun _ => none⟩
    hdecode (o := { Options.standard with lower := false, interpolate := false }) rfl rfl rfl
    hseparator (by decide +kernel) (by decide +kernel)
    [("a", .string "0"), ("d", .object [("e", .null)])]
  refine ⟨s, tree, hprocess, hstore, ?_, ?_⟩
  · exact Value.object.inj (htree.trans (by decide +kernel))
  · rw [hrecords]
    exact ⟨⟨(["a", "b"], .string "1"), by decide +kernel, by decide +kernel⟩, rfl⟩

end LayeredConfig.Source.Document
