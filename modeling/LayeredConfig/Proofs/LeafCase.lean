import LayeredConfig.Proofs.DocumentEditing
import LayeredConfig.Proofs.DocumentMerging
import LayeredConfig.Proofs.StoreLaws
import LayeredConfig.Proofs.Writing

/-! # Leaves under keys in lower case

    Where the outermost keys of a document are lower-cased, members whose keys become
    equal are not merged: the last of them takes the place of the others, with all that is
    in it. This happens before the leaves are gathered. So a leaf of one of the others is
    never written, even where its key is like no key that is left, and nothing is recorded
    for it.

    All other leaves are read and recorded, if none of the keys that the leaves would have
    is related to another.

    **Main result.** `reads_leaf_iff_stands`. In `leaf_lost_to_case` nothing but the case of
    an outermost key stands between two leaves, and one of them is lost.
-/

namespace LayeredConfig.Source.Document

open Value

/-! ## Members that are left -/

/-- **The members that are left** are those whose keys stand for all that become equal. -/
theorem mem_lowerOutermost_iff {fields : Entries Value} (h : fields.Ordered)
    {entry : String × Value} :
    entry ∈ lowerOutermost fields ↔
      ∃ original ∈ fields, StandsForCase fields original.1 ∧
        entry = (Text.lower original.1, original.2) := by
  constructor
  · intro hentry
    have hread := (ordered_lowerOutermost fields).get?_of_mem hentry
    rw [get?_lowerOutermost, Option.map_eq_some_iff] at hread
    obtain ⟨original, hlast, hvalue⟩ := hread
    obtain ⟨hmem, hkey⟩ := List.mem_filter.mp (List.mem_of_getLast? hlast)
    replace hkey : Text.lower original.1 = entry.1 := by simpa using hkey
    refine ⟨original, hmem, ?_, Prod.ext hkey.symm hvalue.symm⟩
    intro other hother hsame
    obtain ⟨member, hmember, rfl⟩ := List.mem_map.mp hother
    have hrival : member ∈ fields.filter fun other => Text.lower other.1 = entry.1 :=
      List.mem_filter.mpr ⟨hmember, by simpa using hsame.trans hkey⟩
    exact ⟨List.mem_map_of_mem hmem, (h.filter _).le_of_getLast? hlast hrival⟩
  · rintro ⟨original, hmem, hstands, rfl⟩
    apply Entries.mem_of_get?
    exact get?_lowerOutermost_of_last h (h.get?_of_mem hmem) fun other hother hsame =>
      (hstands other hother hsame).2

/-- Whether the outermost key on a path stands for all that become equal to it. -/
def Stands (fields : Entries Value) (path : List String) : Prop :=
  ∀ first ∈ path.head?, StandsForCase fields first

instance (fields : Entries Value) : (path : List String) → Decidable (Stands fields path)
  | [] => isTrue (by simp [Stands])
  | first :: rest => decidable_of_iff (StandsForCase fields first) (by simp [Stands])

/-- The leaves that are left are those of the members that are left. -/
theorem mem_fieldLeaves_lowerOutermost {fields : Entries Value} (h : fields.Ordered)
    {leaf : List String × Value} :
    leaf ∈ fieldLeaves false (lowerOutermost fields) ↔
      ∃ original ∈ fieldLeaves false fields, Stands fields original.1 ∧
        leaf = (original.1.modifyHead Text.lower, original.2) := by
  rw [mem_fieldLeaves]
  constructor
  · rintro ⟨entry, hentry, inner, hinner, rfl⟩
    obtain ⟨original, hmem, hstands, rfl⟩ := (mem_lowerOutermost_iff h).mp hentry
    refine ⟨_, mem_fieldLeaves_of_mem hmem hinner, ?_, rfl⟩
    simpa [Stands] using hstands
  · rintro ⟨original, hmem, hstands, rfl⟩
    obtain ⟨entry, hentry, inner, hinner, rfl⟩ := mem_fieldLeaves.mp hmem
    have hleft : (Text.lower entry.1, entry.2) ∈ lowerOutermost fields :=
      (mem_lowerOutermost_iff h).mpr ⟨entry, hentry, hstands entry.1 rfl, rfl⟩
    exact ⟨_, hleft, inner, hinner, rfl⟩

/-! ## Writing leaves under keys apart -/

section writing

variable (files : Snapshot) {o : Options} (hoverwrite : o.overwrite = true)
  {leaves : List (List String × Value)}
  (hconst : ∀ leaf ∈ leaves, leafFormula o leaf.2 = .const leaf.2) (s : Session)
include hoverwrite hconst

/-- **A leaf is read under its key**, if the keys of all others are unrelated to it. -/
theorem get?_runAll_of_mem {leaf : List String × Value} (hmem : leaf ∈ leaves)
    (hothers : ∀ other ∈ leaves, other = leaf ∨
      ¬ s.store.addressing.Related (o.keySeparator.join other.1) (o.keySeparator.join leaf.1)) :
    (s.runAll files (leaves.map (stepOf o))).store.get? (o.keySeparator.join leaf.1) =
      some (s.store.addressing.stored leaf.2) := by
  induction leaves using List.reverseRecOn with
  | nil => exact nomatch hmem
  | append_singleton front last ih =>
    have hfront : ∀ other ∈ front, leafFormula o other.2 = .const other.2 :=
      fun other hother => hconst other (List.mem_append_left _ hother)
    have hlast : leafFormula o last.2 = .const last.2 :=
      hconst last (List.mem_append_right _ (List.mem_singleton_self last))
    have haddr : (s.runAll files (front.map (stepOf o))).store.addressing = s.store.addressing :=
      Session.addressing_runAll files s _
    rw [List.map_append, List.map_singleton, Session.runAll_append, Session.runAll_cons,
      Session.runAll_nil, run_stepOf files hoverwrite hlast]
    rcases hothers last (List.mem_append_right _ (List.mem_singleton_self last)) with rfl | hpart
    · show (Store.set _ _ _).get? _ = _
      rw [(Store.writeLaws _ _ _ _).same rfl, haddr]
    · show (Store.set _ _ _).get? _ = _
      rw [Store.get?_set_of_not_related (haddr ▸ hpart)]
      rcases List.mem_append.mp hmem with hfirst | hend
      · exact ih hfront hfirst fun other hother => hothers other (List.mem_append_left _ hother)
      · obtain rfl := List.mem_singleton.mp hend
        exact absurd (Addressing.related_refl _ _) hpart

end writing

/-! ## Processing -/

/-- The key of a leaf where the outermost keys are lower-cased. -/
def leafKey (separator : Separator) (path : List String) : String :=
  separator.join (path.modifyHead Text.lower)

/-- Where keys are lower-cased and no includes are taken up, the leaves that are left are
    written. -/
theorem steps_of_lower {codec : Codec} {content : List Char} {fields : Entries Value}
    (hdecode : codec.decode content = .ok (.object fields)) {o : Options}
    (hlower : o.lower = true) :
    Document.steps codec o content false = Step.within (o.contextName codec.name)
      ((fieldLeaves false (lowerOutermost fields)).map (stepOf o)) := by
  rw [steps_of_decode hdecode]
  simp [members, hlower]

section left

variable {fields : Entries Value} (hordered : fields.Ordered) {o : Options} {s : Session}
  (hparts : (fieldLeaves false fields).Pairwise fun leaf other =>
    ¬ s.store.addressing.Related (leafKey o.keySeparator leaf.1)
      (leafKey o.keySeparator other.1))
  {leaf : List String × Value} (hleaf : leaf ∈ fieldLeaves false fields)
include hordered hparts hleaf

/-- A leaf that is left either is the given one, which then stands, or has a key unrelated
    to the key of the given one. -/
theorem stands_or_not_related {other : List String × Value}
    (hother : other ∈ fieldLeaves false (lowerOutermost fields)) :
    other = (leaf.1.modifyHead Text.lower, leaf.2) ∧ Stands fields leaf.1 ∨
      ¬ s.store.addressing.Related (o.keySeparator.join other.1)
        (leafKey o.keySeparator leaf.1) := by
  have hsymm : Std.Symm fun leaf other : List String × Value =>
      ¬ s.store.addressing.Related (leafKey o.keySeparator leaf.1)
        (leafKey o.keySeparator other.1) := ⟨fun _ _ hnot hmeets => hnot hmeets.symm⟩
  obtain ⟨original, hmem, hstands, rfl⟩ := (mem_fieldLeaves_lowerOutermost hordered).mp hother
  by_cases hsame : original = leaf
  · subst hsame
    exact .inl ⟨rfl, hstands⟩
  · exact .inr (hparts.forall hmem hleaf hsame)

/-- A leaf has its key among the keys of those that are left exactly if it stands. -/
theorem leafKey_mem_iff :
    leafKey o.keySeparator leaf.1 ∈
      (fieldLeaves false (lowerOutermost fields)).map (fun leaf => o.keySeparator.join leaf.1) ↔
        Stands fields leaf.1 := by
  rw [List.mem_map]
  constructor
  · rintro ⟨other, hother, heq⟩
    rcases stands_or_not_related hordered hparts hleaf hother with h | hpart
    · exact h.2
    · exact absurd heq (Addressing.ne_of_not_related hpart)
  · intro hstands
    exact ⟨_, (mem_fieldLeaves_lowerOutermost hordered).mpr ⟨leaf, hleaf, hstands, rfl⟩, rfl⟩

variable (files : Snapshot) (hinterpolate : o.interpolate = false)
  (hoverwrite : o.overwrite = true)
include hinterpolate hoverwrite

/-- When the leaves that are left have been written, a leaf that stands is read under its
    key; under the key of any other leaf, what was there before is read. -/
theorem get?_runAll_left :
    (s.runAll files ((fieldLeaves false (lowerOutermost fields)).map (stepOf o))).store.get?
        (leafKey o.keySeparator leaf.1) =
      if Stands fields leaf.1 then some (s.store.addressing.stored leaf.2)
      else s.store.get? (leafKey o.keySeparator leaf.1) := by
  split
  case isTrue hstands =>
    have hleft := (mem_fieldLeaves_lowerOutermost hordered).mpr ⟨leaf, hleaf, hstands, rfl⟩
    exact get?_runAll_of_mem files hoverwrite
      (fun leaf _ => leafFormula_of_not_interpolate hinterpolate leaf.2) s hleft
      fun other hother =>
        (stands_or_not_related hordered hparts hleaf hother).imp_left And.left
  case isFalse hlost =>
    refine Session.get?_runAll_of_not_related files fun step hstep key hkey => ?_
    obtain ⟨other, hother, rfl⟩ := List.mem_map.mp hstep
    obtain rfl := Option.some.inj hkey
    exact (stands_or_not_related hordered hparts hleaf hother).resolve_left
      fun h => hlost h.2

/-- When the leaves that are left have been written, a leaf that stands has a new definition;
    the definition of any other leaf is what it was. -/
theorem definitions_runAll_left :
    (s.runAll files ((fieldLeaves false (lowerOutermost fields)).map
        (stepOf o))).tracker.definitions.get? (leafKey o.keySeparator leaf.1) =
      if Stands fields leaf.1 then some ⟨s.tracker.context, []⟩
      else s.tracker.definitions.get? (leafKey o.keySeparator leaf.1) := by
  rw [definitions_runAll files hoverwrite
    fun leaf _ => leafFormula_of_not_interpolate hinterpolate leaf.2]
  simp only [leafKey_mem_iff hordered hparts hleaf]

end left

/-- **A leaf is read and recorded exactly if its outermost key stands** for all that become
    equal to it in lower case. Take a document that is an object and a session without a
    queue, where nothing is expanded or kept and the keys are lower-cased, and let the keys
    of the leaves be unrelated for the store. Then the document is processed; a leaf whose
    outermost key stands is read under its key and has a definition, which is made from
    nothing; and for any other leaf, store and record are left as they were. -/
theorem reads_leaf_iff_stands (files : Snapshot) {codec : Codec} {content : List Char}
    {fields : Entries Value} (hdecode : codec.decode content = .ok (.object fields))
    {o : Options} (hlower : o.lower = true) (hinterpolate : o.interpolate = false)
    (hoverwrite : o.overwrite = true) {s : Session} (hqueue : s.queue = none)
    (hparts : (fieldLeaves false fields).Pairwise fun leaf other =>
      ¬ s.store.addressing.Related (leafKey o.keySeparator leaf.1)
        (leafKey o.keySeparator other.1)) :
    ∃ s', (Source.document codec content o).process files s = .ok s' ∧
      ∀ leaf ∈ fieldLeaves false fields,
        s'.store.get? (leafKey o.keySeparator leaf.1) =
          (if Stands fields leaf.1 then some (s.store.addressing.stored leaf.2)
          else s.store.get? (leafKey o.keySeparator leaf.1)) ∧
        s'.tracker.definitions.get? (leafKey o.keySeparator leaf.1) =
          (if Stands fields leaf.1 then some ⟨o.contextName codec.name, []⟩
          else s.tracker.definitions.get? (leafKey o.keySeparator leaf.1)) := by
  have hordered : fields.Ordered := (Codec.tidy_of_decode hdecode).ordered
  have hprocess := Source.process_eq files (.document codec content o) s
  rw [hqueue] at hprocess
  refine ⟨_, hprocess, ?_⟩
  intro leaf hleaf
  show (Session.runAll files s (Document.steps codec o content false)).store.get? _ = _ ∧
    (Session.runAll files s (Document.steps codec o content false)).tracker.definitions.get? _ = _
  rw [steps_of_lower hdecode hlower, Session.runAll_within]
  let entered : Session := { s with tracker := s.tracker.push (o.contextName codec.name) }
  refine ⟨?read, ?record⟩
  case read =>
    show (entered.runAll files _).store.get? _ = _
    exact get?_runAll_left (s := entered) hordered hparts hleaf files hinterpolate hoverwrite
  case record =>
    show (Tracker.leave _).definitions.get? _ = _
    rw [Tracker.leave_eq]
    show (entered.runAll files _).tracker.definitions.get? _ = _
    exact definitions_runAll_left (s := entered) hordered hparts hleaf files hinterpolate
      hoverwrite

/-- A document with a host that is lost to the port, where the store has a host already. -/
theorem reads_leaf_iff_stands_in_capitals :
    ∃ s', (Source.document .json
        "\x7b\"DB\": \x7b\"host\": 1\x7d, \"Log\": \"A\", \"db\": \x7b\"port\": 2\x7d\x7d".toList
        { Options.standard with interpolate := false }).process ⟨fun _ => none⟩
        (Session.fresh (.nested [("db", .object [("host", .null)])] .standard)) = .ok s' ∧
      s'.store.get? "log" = some (.string "A") ∧
      s'.tracker.definitions.get? "log" = some ⟨"<json>", []⟩ ∧
      s'.store.get? "db::port" = some (.number (.int 2 (by decide))) ∧
      s'.store.get? "db::host" = some .null ∧
      s'.tracker.definitions.get? "db::host" = none := by
  have hdecode : Codec.json.decode
      "\x7b\"DB\": \x7b\"host\": 1\x7d, \"Log\": \"A\", \"db\": \x7b\"port\": 2\x7d\x7d".toList =
      .ok (.object [("DB", .object [("host", .number (.int 1 (by decide)))]),
        ("Log", .string "A"),
        ("db", .object [("port", .number (.int 2 (by decide)))])]) := by decide +kernel
  obtain ⟨s', hprocess, hleaves⟩ := reads_leaf_iff_stands ⟨fun _ => none⟩ hdecode
    (o := { Options.standard with interpolate := false }) rfl rfl rfl
    (s := Session.fresh (.nested [("db", .object [("host", .null)])] .standard)) rfl
    (by decide +kernel)
  have hlog := hleaves (["Log"], .string "A") (by decide +kernel)
  have hport := hleaves (["db", "port"], .number (.int 2 (by decide))) (by decide +kernel)
  have hhost := hleaves (["DB", "host"], .number (.int 1 (by decide))) (by decide +kernel)
  rw [if_pos (by decide +kernel), if_pos (by decide +kernel)] at hlog hport
  rw [if_neg (by decide +kernel), if_neg (by decide +kernel)] at hhost
  exact ⟨s', hprocess, hlog.1, hlog.2, hport.1, hhost.1, hhost.2⟩

/-- **A leaf is lost to case**, although the keys of the leaves are unrelated: the host is
    neither read nor recorded. -/
theorem leaf_lost_to_case :
    ∃ fields s',
      Codec.json.decode "\x7b\"DB\": \x7b\"host\": 1\x7d, \"db\": \x7b\"port\": 2\x7d\x7d".toList =
        .ok (.object fields) ∧
      (fieldLeaves false fields).map Prod.fst = [["DB", "host"], ["db", "port"]] ∧
      (∀ leaf ∈ fieldLeaves false fields, ∀ key ∈ leaf.1, ':' ∉ key.toList) ∧
      leafKey .standard ["DB", "host"] = "db::host" ∧
      leafKey .standard ["db", "port"] = "db::port" ∧
      ¬ (Addressing.paths .standard).Related "db::host" "db::port" ∧
      (Source.document .json
        "\x7b\"DB\": \x7b\"host\": 1\x7d, \"db\": \x7b\"port\": 2\x7d\x7d".toList
        { Options.standard with interpolate := false }).process ⟨fun _ => none⟩
        (Session.fresh (.nested [] .standard)) = .ok s' ∧
      s'.store.get? "db::host" = none ∧
      s'.tracker.definitions.get? "db::host" = none := by
  refine ⟨[("DB", .object [("host", .number (.int 1 (by decide)))]),
    ("db", .object [("port", .number (.int 2 (by decide)))])], _, by decide +kernel,
    by decide +kernel, by decide +kernel, by decide +kernel, by decide +kernel, by decide +kernel,
    Source.process_eq _ _ _, by decide +kernel, by decide +kernel⟩

end LayeredConfig.Source.Document
