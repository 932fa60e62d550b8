import LayeredConfig.Proofs.NullEdits

/-! # Edits of keys that are not related

    The edits of a document are gathered into one object, and that is laid over the document.
    Where no path of an edit goes on from that of another, none of this shows: the document
    comes out as if every edit had been written into it at its path, one after the other. What
    they share on the way is one object for all of them, and a value of the document that is in
    the way of one of them makes room for it in either case.

    So each path that is named reads its value afterwards, and what parts from all of them
    reads as before. A text is refused only if it is not blank, and then only if it is no
    document or the document is no object.

    **Main results.** `overlayFields_setAt_of_not_meets`: an edit apart from others is a write;
    `edited_eq_gatherInto`: so are all edits; `edit_changes_named_paths`.
-/

namespace LayeredConfig

/-! ## One more edit -/

namespace Value

section apart

variable {fields edits : Entries Value} {key : String} {rest : List String}
  (hparts : ∀ leaf ∈ fieldLeaves false edits, ¬ Meets leaf.1 (key :: rest))
include hparts

/-- No edit ends where a path goes through that parts from all of them. -/
theorem exists_object_of_not_meets {w : Value} (hread : edits.get? key = some w) :
    ∃ inner, w = .object inner := by
  rcases isLeaf_or_object w with hleaf | hobject
  · have hself : (([], w) : List String × Value) ∈ leaves false w := by
      simp [leaves_of_isLeaf hleaf]
    have hmem : ([key], w) ∈ fieldLeaves false edits :=
      mem_fieldLeaves_of_mem (Entries.mem_of_get? hread) hself
    have hmeets : Meets [key] (key :: rest) := .inl (by simp)
    exact absurd hmeets (hparts _ hmem)
  · exact hobject

/-- Below its first key the path parts from the edits there. -/
theorem not_meets_of_mem_below :
    ∀ leaf ∈ fieldLeaves false (edits.below key), ¬ Meets leaf.1 rest := by
  intro leaf hleaf hmeets
  cases hread : edits.get? key with
  | none =>
    rw [Entries.below_of_get?_none hread] at hleaf
    exact nomatch hleaf
  | some w =>
    obtain ⟨inner, rfl⟩ := exists_object_of_not_meets hparts hread
    rw [Entries.below_of_get? hread] at hleaf
    have hmem : (key :: leaf.1, leaf.2) ∈ fieldLeaves false edits :=
      mem_fieldLeaves_of_mem (Entries.mem_of_get? hread) (by rwa [leaves_object])
    exact hparts _ hmem (meets_cons.mpr hmeets)

/-- The edits below the key are laid over the members that the document has there. -/
theorem below_overlayFields_of_not_meets (hedits : edits.Ordered) {inner : Entries Value}
    (hinner : fields.get? key = some (.object inner)) :
    Entries.below (overlayFields fields edits) key = overlayFields inner (edits.below key) := by
  have hkey := get?_overlayFields fields hedits key
  cases hread : edits.get? key with
  | none =>
    rw [hread, hinner, overlaid_none] at hkey
    rw [Entries.below_of_get? hkey, Entries.below_of_get?_none hread]
    rfl
  | some w =>
    obtain ⟨g, rfl⟩ := exists_object_of_not_meets hparts hread
    rw [hread, hinner, overlaid_object_object] at hkey
    rw [Entries.below_of_get? hkey, Entries.below_of_get? hread]
    rfl

end apart

/-- **An edit apart from the others is a write** into what the others leave. -/
theorem overlayFields_setAt_of_not_meets {fields edits : Entries Value}
    (hfields : (object fields).Tidy) (hedits : (object edits).Tidy) {p : List String} {v : Value}
    (hv : v.IsLeaf) (hnull : v ≠ .null)
    (hparts : ∀ leaf ∈ fieldLeaves false edits, ¬ Meets leaf.1 p) :
    overlayFields fields (edits.setAt p v) =
      Entries.setAt (overlayFields fields edits) p v := by
  induction p generalizing fields edits with
  | nil => rw [Entries.setAt_nil, Entries.setAt_nil]
  | cons key rest ih =>
    apply (ordered_overlayFields hfields.ordered _).ext
      ((ordered_overlayFields hfields.ordered edits).setAt _ v)
    intro name
    rw [get?_overlayFields fields (hedits.ordered.setAt _ v), Entries.setAt_eq_insert edits,
      Entries.setAt_eq_insert (overlayFields fields edits)]
    by_cases hname : key = name
    · subst hname
      rw [Entries.get?_insert_self, Entries.get?_insert_self]
      by_cases hrest : rest = []
      · subst hrest
        exact overlaid_of_isLeaf _ hv hnull
      · have hgrown : ∀ m : Entries Value,
            m.grown key rest v = .object ((m.below key).setAt rest v) := fun m => if_neg hrest
        rw [hgrown, hgrown]
        by_cases hread : ∃ inner, fields.get? key = some (.object inner)
        · -- The write goes on in the members that the document has under the key.
          obtain ⟨inner, hinner⟩ := hread
          have hinside : (object inner).Tidy := hfields.of_mem (Entries.mem_of_get? hinner)
          rw [hinner, overlaid_object_object,
            below_overlayFields_of_not_meets hparts hedits.ordered hinner,
            ih hinside (hedits.members key) (not_meets_of_mem_below hparts)]
        · -- Whatever else is there makes room for the members of the edits.
          have hother : ∀ inner, fields.get? key ≠ some (.object inner) :=
            fun inner hinner => hread ⟨inner, hinner⟩
          rw [overlaid_object hother, below_overlayFields_of_ne hedits.ordered hother]
    · rw [Entries.get?_insert_of_ne hname, Entries.get?_insert_of_ne hname,
        get?_overlayFields fields hedits.ordered]

end Value

/-! ## All edits -/

namespace Edit.Document

variable {separator : Separator}

/-- Edits that part from each other and from what has been gathered are writes into what
    that leaves. -/
theorem overlayFields_gatherInto {fields tree edits : Entries Value}
    (hfields : (Value.object fields).Tidy) (htree : (Value.object tree).Tidy)
    (hvalues : ∀ entry ∈ edits, entry.2.IsLeaf ∧ entry.2 ≠ .null)
    (hkeys : edits.Pairwise fun entry other =>
      ¬ Meets (separator.split entry.1) (separator.split other.1))
    (hparts : ∀ entry ∈ edits, ∀ leaf ∈ Value.fieldLeaves false tree,
      ¬ Meets leaf.1 (separator.split entry.1)) :
    Value.overlayFields fields (gatherInto separator tree edits) =
      gatherInto separator (Value.overlayFields fields tree) edits := by
  induction edits generalizing tree with
  | nil => rfl
  | cons entry rest ih =>
    obtain ⟨⟨hleaf, hnull⟩, hvaluesRest⟩ := List.forall_mem_cons.mp hvalues
    obtain ⟨hfirst, hkeysRest⟩ := List.pairwise_cons.mp hkeys
    obtain ⟨hpartsFirst, hpartsRest⟩ := List.forall_mem_cons.mp hparts
    rw [gatherInto_cons, gatherInto_cons,
      ← Value.overlayFields_setAt_of_not_meets hfields htree hleaf hnull hpartsFirst]
    apply ih (htree.setAt _ (.leaf hleaf)) hvaluesRest hkeysRest
    intro other hother leaf hmem
    have hpath := separator.split_ne_nil entry.1
    -- A leaf of what has been gathered is what was written last, or was there before.
    have hcases := Source.Document.eq_or_mem_of_mem_fieldLeaves_setAt htree hpath hleaf hmem
    rcases hcases with rfl | ⟨_, hold⟩
    · exact hfirst other hother
    · exact hpartsRest other hother leaf hold

section unrelated

variable {fields edits : Entries Value} (hkeys : edits.Pairwise fun entry other =>
    ¬ Meets (separator.split entry.1) (separator.split other.1))
include hkeys

/-- Where edits part from each other, each of them is found at its path. -/
theorem at?_gatherInto_of_mem {entry : String × Value} (hentry : entry ∈ edits) :
    Entries.at? (gatherInto separator fields edits) (separator.split entry.1) = some entry.2 := by
  induction edits generalizing fields with
  | nil => exact nomatch hentry
  | cons first rest ih =>
    obtain ⟨hfirst, hrest⟩ := List.pairwise_cons.mp hkeys
    rw [gatherInto_cons]
    rcases List.mem_cons.mp hentry with rfl | hmem
    · have hlater : ∀ other ∈ rest,
          ¬ Meets (separator.split other.1) (separator.split entry.1) :=
        fun other hother hmeets => hfirst other hother hmeets.symm
      rw [at?_gatherInto_of_not_meets hlater]
      exact Entries.at?_setAt_self fields (separator.split_ne_nil entry.1) entry.2
    · exact ih hrest hmem

/-- **Unrelated edits are writes** into the document. -/
theorem edited_eq_gatherInto (hfields : (Value.object fields).Tidy)
    (hvalues : ∀ entry ∈ edits, entry.2.IsLeaf ∧ entry.2 ≠ .null) :
    edited separator fields edits = .object (gatherInto separator fields edits) := by
  have hnone : ∀ entry ∈ edits, ∀ leaf ∈ Value.fieldLeaves false [],
      ¬ Meets leaf.1 (separator.split entry.1) := fun _ _ leaf hleaf => nomatch hleaf
  have hwrites := overlayFields_gatherInto hfields Value.tidy_empty hvalues hkeys hnone
  exact congrArg Value.object hwrites

end unrelated

/-! ## What is edited, and what is refused -/

/-- Whether a text is to be edited as an object with these members: as one without any, if it
    is blank, and otherwise as the object that it denotes. -/
def Denotes (codec : Codec) (content : List Char) (fields : Entries Value) : Prop :=
  if Text.trim content = [] then fields = [] else codec.decode content = .ok (.object fields)

theorem root_eq_ok_iff {codec : Codec} {content : List Char} {fields : Entries Value} :
    root codec content = .ok (.object fields) ↔ Denotes codec content fields := by
  unfold root Denotes
  by_cases hblank : Text.trim content = []
  · rw [if_pos hblank, if_pos hblank]
    show (Except.ok (Value.object []) : Except Failure Value) = _ ↔ _
    rw [Except.ok.injEq, Value.object.injEq]
    exact eq_comm
  · rw [if_neg hblank, if_neg hblank]
    cases hdecode : codec.decode content with
    | error failure => exact iff_of_false nofun nofun
    | ok v =>
      cases v with
      | object found => exact Iff.rfl
      | _ => exact iff_of_false nofun nofun

/-- **Which texts are refused**, whatever the edits are. -/
theorem root_eq_error_iff {codec : Codec} {content : List Char} :
    (∃ failure, root codec content = .error failure) ↔
      Text.trim content ≠ [] ∧ ((∃ failure, codec.decode content = .error failure) ∨
        ∃ v, codec.decode content = .ok v ∧ v.IsLeaf) := by
  unfold root
  by_cases hblank : Text.trim content = []
  · rw [if_pos hblank]
    exact iff_of_false nofun fun h => h.1 hblank
  · rw [if_neg hblank]
    cases hdecode : codec.decode content with
    | error failure => exact iff_of_true ⟨failure, rfl⟩ ⟨hblank, .inl ⟨failure, rfl⟩⟩
    | ok v =>
      cases v with
      | object fields =>
        refine iff_of_false nofun ?_
        rintro ⟨_, ⟨_, hfailed⟩ | ⟨w, hw, hleaf⟩⟩
        · exact nomatch hfailed
        · obtain rfl := Except.ok.inj hw
          exact hleaf
      | _ => exact iff_of_true ⟨_, rfl⟩ ⟨hblank, .inr ⟨_, rfl, trivial⟩⟩

/-- **Edits change exactly the paths they name.** Let the edits be to values that are neither
    null nor objects, under keys of which no path is or goes on from that of another. A text is
    refused exactly if it is not blank and either is no document or denotes something other
    than an object. If it is to be edited as an object with some members, it is edited; and if
    the codec reads back what is written then, it reads an object in which the path of every
    key reads the value of the key, and every path that parts from those of all keys reads as
    in the members before. -/
theorem edit_changes_named_paths (codec : Codec) (separator : Separator) (content : List Char)
    {edits : Entries Value} (hvalues : ∀ entry ∈ edits, entry.2.IsLeaf ∧ entry.2 ≠ .null)
    (hkeys : edits.Pairwise fun entry other =>
      ¬ Meets (separator.split entry.1) (separator.split other.1)) :
    ((∃ failure, (Editor.document codec separator).edit content edits = .error failure) ↔
      Text.trim content ≠ [] ∧ ((∃ failure, codec.decode content = .error failure) ∨
        ∃ v, codec.decode content = .ok v ∧ v.IsLeaf)) ∧
    ∀ before : Entries Value, Denotes codec content before →
      codec.decode (codec.encode (edited separator before edits)) =
        .ok (edited separator before edits) →
      ∃ (text : List Char) (after : Entries Value),
        (Editor.document codec separator).edit content edits = .ok text ∧
        codec.decode text = .ok (.object after) ∧
        (∀ entry ∈ edits, after.at? (separator.split entry.1) = some entry.2) ∧
        ∀ p, (∀ entry ∈ edits, ¬ Meets (separator.split entry.1) p) →
          after.at? p = before.at? p := by
  constructor
  · rw [← root_eq_error_iff]
    constructor
    · rintro ⟨failure, hrefused⟩
      cases hroot : root codec content with
      | error failure => exact ⟨failure, rfl⟩
      | ok v =>
        obtain ⟨fields, rfl, _⟩ := exists_of_root hroot
        exact nomatch (edit_of_root hroot edits).symm.trans hrefused
    · rintro ⟨failure, hroot⟩
      exact ⟨failure, edit_of_error hroot edits⟩
  · intro before hbefore hcodec
    have hroot := root_eq_ok_iff.mpr hbefore
    obtain ⟨_, hobject, htidy⟩ := exists_of_root hroot
    obtain rfl := Value.object.inj hobject
    have hwrites := edited_eq_gatherInto hkeys htidy hvalues
    refine ⟨_, gatherInto separator before edits, edit_of_root hroot edits,
      hcodec.trans (congrArg Except.ok hwrites), ?_, ?_⟩
    · exact fun entry hentry => at?_gatherInto_of_mem hkeys hentry
    · exact fun p hparts => at?_gatherInto_of_not_meets hparts

/-- A port and a file are edited, a time is added, and the text that is in the way of the file
    goes; the host stays. -/
theorem edit_changes_named_paths_of_database :
    ∃ (text : List Char) (after : Entries Value),
      (Editor.document .json .standard).edit
        "\x7b\"db\": \x7b\"host\": \"a\", \"port\": 1\x7d, \"log\": \"b\"\x7d".toList
        [("cache::ttl", .number (.int 60 (by decide))), ("db::port", .bool true),
          ("log::file", .string "c")] = .ok text ∧
      Codec.json.decode text = .ok (.object after) ∧
      after.at? ["cache", "ttl"] = some (.number (.int 60 (by decide))) ∧
      after.at? ["db", "port"] = some (.bool true) ∧
      after.at? ["log", "file"] = some (.string "c") ∧
      after.at? ["db", "host"] = some (.string "a") := by
  have hvalues : ∀ entry ∈ [("cache::ttl", Value.number (.int 60 (by decide))),
      ("db::port", .bool true), ("log::file", .string "c")],
      entry.2.IsLeaf ∧ entry.2 ≠ .null := by
    simp only [List.forall_mem_cons]
    exact ⟨⟨trivial, nofun⟩, ⟨trivial, nofun⟩, ⟨trivial, nofun⟩, nofun⟩
  obtain ⟨_, hedited⟩ := edit_changes_named_paths .json .standard
    "\x7b\"db\": \x7b\"host\": \"a\", \"port\": 1\x7d, \"log\": \"b\"\x7d".toList hvalues
    (by decide +kernel)
  have hdenotes : Denotes .json
      "\x7b\"db\": \x7b\"host\": \"a\", \"port\": 1\x7d, \"log\": \"b\"\x7d".toList
      [("db", .object [("host", .string "a"), ("port", .number (.int 1 (by decide)))]),
        ("log", .string "b")] := by
    unfold Denotes
    decide +kernel
  obtain ⟨text, after, hedit, hdecode, hnamed, hothers⟩ :=
    hedited _ hdenotes (by decide +kernel)
  refine ⟨text, after, hedit, hdecode, ?_, ?_, ?_, ?_⟩
  · exact hnamed _ (List.mem_cons_self ..)
  · exact hnamed _ (List.mem_cons_of_mem _ (List.mem_cons_self ..))
  · exact hnamed _ (List.mem_cons_of_mem _ (List.mem_cons_of_mem _ (List.mem_cons_self ..)))
  · exact hothers ["db", "host"] (by decide +kernel)

end Edit.Document

end LayeredConfig
