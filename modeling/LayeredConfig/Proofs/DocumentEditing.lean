import LayeredConfig.Edit
import LayeredConfig.Proofs.CaselessSeparators
import LayeredConfig.Proofs.DocumentTree
import LayeredConfig.Proofs.TidyDocuments

/-! # Edited documents load to the edited settings

    An edit of a document is a write at the path of its key, in the document as it stands.
    When the document is loaded, the outermost keys are put in lower case, and of those
    that become equal only the last is left. So the write is found again, and nothing else
    is changed by it, unless other keys of the document become equal to the outermost key
    of the path: then that key has to be one of them already, and the last one. Around the
    path no leaf may be spelled flat either, since flat leaves are written after nested
    ones, and where those were.

    **Main results.** `overlayFields_setAt`: an edit is a write; `lowerOutermost_setAt`: it
    is one in lower case, too; `edit_reads`: what the edited document loads to.
    `sibling_lost_to_case` is an edit that loses another setting.
-/

namespace LayeredConfig

/-! ## Edits as writes -/

namespace Value

theorem overlay_of_isLeaf (v : Value) {edit : Value} (hedit : edit.IsLeaf) (hnull : edit ≠ .null) :
    v.overlay edit = edit := by
  cases edit with
  | null => exact absurd rfl hnull
  | object fields => exact hedit.elim
  | _ => rfl

/-- An object of edits is laid over what is in its place, where this is an object. -/
theorem overlay_object (v : Value) {edits : Entries Value}
    (hedits : overlayFields [] edits = edits) :
    v.overlay (.object edits) = .object (overlayFields v.fields edits) := by
  cases v with
  | object fields => rfl
  | _ =>
    show Value.object edits = .object (overlayFields [] edits)
    rw [hedits]

/-- An edit of one member puts a value under its key. -/
theorem overlayFields_singleton (fields : Entries Value) (key : String) {edit : Value}
    (hnull : edit ≠ .null) :
    overlayFields fields [(key, edit)] =
      fields.insert key (((fields.get? key).map fun v => v.overlay edit).getD edit) := by
  unfold overlayFields overlayFields
  cases fields.get? key with
  | some w => rfl
  | none =>
    cases edit with
    | null => exact absurd rfl hnull
    | _ => rfl

/-- **A single edit is a write** at its path. -/
theorem overlayFields_setAt (fields : Entries Value) {p : List String} (hp : p ≠ []) {v : Value}
    (hv : v.IsLeaf) (hnull : v ≠ .null) :
    overlayFields fields (Entries.setAt [] p v) = fields.setAt p v := by
  induction p generalizing fields with
  | nil => exact absurd rfl hp
  | cons key rest ih =>
    by_cases hrest : rest = []
    · subst hrest
      show overlayFields fields [(key, v)] = fields.insert key v
      rw [overlayFields_singleton fields key hnull]
      cases fields.get? key with
      | none => rfl
      | some w =>
        show fields.insert key (w.overlay v) = _
        rw [overlay_of_isLeaf w hv hnull]
    · rw [Entries.setAt_cons _ key hrest, Entries.setAt_cons _ key hrest]
      show overlayFields fields [(key, .object (Entries.setAt [] rest v))] = _
      have hobject : Value.object (Entries.setAt [] rest v) ≠ .null := by simp
      rw [overlayFields_singleton fields key hobject, ← ih (fields.below key) hrest]
      unfold Entries.below
      cases fields.get? key with
      | none =>
        show fields.insert key (.object (Entries.setAt [] rest v)) =
          fields.insert key (.object (overlayFields [] _))
        rw [ih [] hrest]
      | some w =>
        show fields.insert key (w.overlay (.object (Entries.setAt [] rest v))) = _
        rw [overlay_object w (ih [] hrest)]
        rfl

end Value

/-! ## Writes in lower case -/

namespace Source.Document

theorem get?_lowerOutermost (fields : Entries Value) (key : String) :
    (lowerOutermost fields).get? key =
      ((fields.filter fun entry => Text.lower entry.1 = key).getLast?).map (·.2) := by
  unfold lowerOutermost
  rw [Entries.get?_ofList, List.filter_map, List.getLast?_map, Option.map_map]
  rfl

theorem ordered_lowerOutermost (fields : Entries Value) : (lowerOutermost fields).Ordered :=
  Entries.ordered_ofList _

theorem mem_of_mem_lowerOutermost {fields : Entries Value} {entry : String × Value}
    (h : entry ∈ lowerOutermost fields) :
    ∃ original ∈ fields, entry = (Text.lower original.1, original.2) := by
  obtain ⟨original, hmem, heq⟩ := List.mem_map.mp (Entries.mem_of_mem_ofList h)
  exact ⟨original, hmem, heq.symm⟩

theorem tidy_lowerOutermost {fields : Entries Value} (h : (Value.object fields).Tidy) :
    (Value.object (lowerOutermost fields)).Tidy := by
  refine .object (ordered_lowerOutermost fields) ?_
  intro entry hentry
  obtain ⟨original, hmem, rfl⟩ := mem_of_mem_lowerOutermost hentry
  have htidy : original.2.Tidy := h.of_mem hmem
  exact htidy

theorem isVerbatim_lowerOutermost {fields : Entries Value}
    (h : ∀ leaf ∈ Value.fieldLeaves false fields, IsVerbatim leaf.2) :
    ∀ leaf ∈ Value.fieldLeaves false (lowerOutermost fields), IsVerbatim leaf.2 := by
  intro leaf hmem
  obtain ⟨entry, hentry, inner, hinner, rfl⟩ := Value.mem_fieldLeaves.mp hmem
  obtain ⟨original, horiginal, rfl⟩ := mem_of_mem_lowerOutermost hentry
  exact h (original.1 :: inner.1, inner.2)
    (Value.mem_fieldLeaves.mpr ⟨original, horiginal, inner, hinner, rfl⟩)

/-- Of several keys that become equal the last one is read. -/
theorem get?_lowerOutermost_of_last {fields : Entries Value} (h : fields.Ordered) {key : String}
    {v : Value} (hread : fields.get? key = some v)
    (hlast : ∀ other ∈ fields.keys, Text.lower other = Text.lower key → other ≤ key) :
    (lowerOutermost fields).get? (Text.lower key) = some v := by
  have hmem : (key, v) ∈ fields.filter fun entry => Text.lower entry.1 = Text.lower key :=
    List.mem_filter.mpr ⟨Entries.mem_of_get? hread, by simp⟩
  rw [get?_lowerOutermost, (h.filter _).getLast?_eq hmem]
  · rfl
  · intro other hother
    obtain ⟨hother, hsame⟩ := List.mem_filter.mp hother
    exact hlast other.1 (List.mem_map_of_mem hother) (by simpa using hsame)

/-- The entries of other kinds stay where they are when a value is put under a key. -/
theorem filter_insert (fields : Entries Value) {key : String} (v : Value) (kind : String → Bool)
    (hkey : kind key = false) :
    (fields.insert key v).filter (fun entry => kind entry.1) =
      fields.filter fun entry => kind entry.1 := by
  induction fields with
  | nil => simp [Entries.insert, hkey]
  | cons first rest ih =>
    obtain ⟨k, w⟩ := first
    unfold Entries.insert
    split
    · next hk =>
      subst hk
      rw [List.filter_cons_of_neg (by simp [hkey]), List.filter_cons_of_neg (by simp [hkey])]
    · split
      · rw [List.filter_cons_of_neg (by simp [hkey])]
      · rw [List.filter_cons, List.filter_cons, ih]

/-- Whether a key stands for those that become equal to it: where there are any, it is one
    of them, and the last one. -/
def StandsForCase (fields : Entries Value) (key : String) : Prop :=
  ∀ other ∈ fields.keys, Text.lower other = Text.lower key → key ∈ fields.keys ∧ other ≤ key

instance (fields : Entries Value) (key : String) : Decidable (StandsForCase fields key) :=
  inferInstanceAs (Decidable (∀ other ∈ fields.keys, Text.lower other = Text.lower key →
    key ∈ fields.keys ∧ other ≤ key))

section lowering

variable {fields : Entries Value} {key : String} (hordered : fields.Ordered)
  (hcase : StandsForCase fields key)
include hordered hcase

/-- Such a key is read in lower case as it is read. -/
theorem get?_lowerOutermost_of_standsForCase :
    (lowerOutermost fields).get? (Text.lower key) = fields.get? key := by
  cases hread : fields.get? key with
  | some v => exact get?_lowerOutermost_of_last hordered hread fun other ho hsame =>
      (hcase other ho hsame).2
  | none =>
    -- Without the key itself there are none that become equal to it.
    have hempty : fields.filter (fun entry => Text.lower entry.1 = Text.lower key) = [] := by
      rw [List.filter_eq_nil_iff]
      intro entry hentry hsame
      have hkey := (hcase entry.1 (List.mem_map_of_mem hentry) (by simpa using hsame)).1
      exact Entries.get?_eq_none_iff.mp hread hkey
    rw [get?_lowerOutermost, hempty]
    rfl

/-- Putting a value under such a key is putting it under the key in lower case. -/
theorem lowerOutermost_insert (v : Value) :
    lowerOutermost (fields.insert key v) = (lowerOutermost fields).insert (Text.lower key) v := by
  apply (ordered_lowerOutermost _).ext ((ordered_lowerOutermost fields).insert _ v)
  intro name
  by_cases hname : Text.lower key = name
  · subst hname
    rw [Entries.get?_insert_self]
    apply get?_lowerOutermost_of_last (hordered.insert key v)
      (Entries.get?_insert_self fields key v)
    intro other hother hsame
    rcases Entries.mem_keys_insert.mp hother with rfl | hother
    · exact le_refl other
    · exact (hcase other hother hsame).2
  · rw [Entries.get?_insert_of_ne hname, get?_lowerOutermost, get?_lowerOutermost,
      filter_insert fields v (fun k => decide (Text.lower k = name)) (by simpa using hname)]

/-- **A write is a write in lower case.** -/
theorem lowerOutermost_setAt (rest : List String) (v : Value) :
    lowerOutermost (fields.setAt (key :: rest) v) =
      (lowerOutermost fields).setAt (Text.lower key :: rest) v := by
  by_cases hrest : rest = []
  · subst hrest
    exact lowerOutermost_insert hordered hcase v
  · rw [Entries.setAt_cons fields key hrest, Entries.setAt_cons _ (Text.lower key) hrest,
      lowerOutermost_insert hordered hcase]
    unfold Entries.below
    rw [get?_lowerOutermost_of_standsForCase hordered hcase]

end lowering

end Source.Document

/-! ## Editing -/

namespace Edit.Document

open Source.Document

theorem root_json {content : List Char} {fields : Entries Value}
    (h : Codec.json.decode content = .ok (.object fields)) :
    root .json content = .ok (.object fields) := by
  have hread : Json.read? content = some (.object fields) := Codec.decode_eq_ok_iff.mp h
  have hfilled : Text.trim content ≠ [] := by
    intro hblank
    rw [Json.read?_eq_none_of_blank hblank] at hread
    exact nomatch hread
  unfold root
  rw [if_neg hfilled, h]
  rfl

/-- The text of a document after an edit is the text of the document with a write in it. -/
theorem edit_single_json {separator : Separator} {content : List Char} {fields : Entries Value}
    {k : String} {v : Value} (hdecode : Codec.json.decode content = .ok (.object fields))
    (hpath : separator.split k ≠ []) (hleaf : v.IsLeaf) (hnull : v ≠ .null) :
    edit .json separator content [(k, v)] =
      .ok (Codec.json.encode (.object (fields.setAt (separator.split k) v))) := by
  unfold edit
  rw [root_json hdecode, ← Value.overlayFields_setAt fields hpath hleaf hnull]
  rfl

/-- **What an edited document loads to.** Take a JSON document with an object for its root,
    and an edit of a key to a value that is neither null nor an object, where no text that
    is written holds a token and the codec reads what it wrote. Let the key with its first
    step in lower case have the path that it is made from, as it has where the separator
    is without case.

    Let no other outermost key of the document take the place of that first step, and no
    leaf around the path be spelled flat. Then the edited key reads the value, and what
    parts from it reads as it does in the original document. -/
theorem edit_reads (files : Snapshot) (separator : Separator) (content : List Char) (k : String)
    (v : Value) {fields : Entries Value} {first : String} {rest : List String}
    (hdecode : Codec.json.decode content = .ok (.object fields))
    (hpath : separator.split k = first :: rest)
    (hnull : v ≠ .null) (hleaf : v.IsLeaf)
    (hverbatim : ∀ leaf ∈ Value.fieldLeaves false fields, IsVerbatim leaf.2)
    (hv : IsVerbatim v)
    (hcodec : Codec.json.decode (Codec.json.encode (.object (fields.setAt (separator.split k) v))) =
      .ok (.object (fields.setAt (separator.split k) v)))
    (hcase : StandsForCase fields first)
    (haddress : address separator (Text.lower first :: rest) = Text.lower first :: rest)
    (hnested : NestedAt separator (lowerOutermost fields) (Text.lower first :: rest)) :
    ∃ edited before after,
      (Editor.document .json separator).edit content [(k, v)] = .ok edited ∧
      (Source.document .json content (standardWith separator)).process files
        (Session.fresh (.nested [] separator)) = .ok before ∧
      (Source.document .json edited (standardWith separator)).process files
        (Session.fresh (.nested [] separator)) = .ok after ∧
      after.store.get? (separator.join (Text.lower first :: rest)) = some v ∧
      ∀ name, ¬ (Text.lower first :: rest) <+: separator.split name →
        ¬ separator.split name <+: (Text.lower first :: rest) →
        after.store.get? name = before.store.get? name := by
  have htidy := Codec.tidy_of_decode hdecode
  have hlower := tidy_lowerOutermost htidy
  have hwritten := lowerOutermost_setAt htidy.ordered hcase rest v
  have hpathNe : separator.split k ≠ [] := by
    rw [hpath]
    exact List.cons_ne_nil first rest
  have hedit := edit_single_json hdecode hpathNe hleaf hnull
  have hverbatimLower := isVerbatim_lowerOutermost hverbatim
  have hverbatimWritten : ∀ leaf ∈ Value.fieldLeaves false
      ((lowerOutermost fields).setAt (Text.lower first :: rest) v), IsVerbatim leaf.2 := by
    intro leaf hmem
    rcases eq_or_mem_of_mem_fieldLeaves_setAt hlower (by simp) hleaf hmem with rfl | ⟨_, hold⟩
    · exact hv
    · exact hverbatimLower leaf hold
  rw [hpath] at hedit hcodec
  rw [← hwritten] at hverbatimWritten
  obtain ⟨before, hbefore, hbeforeStore⟩ :=
    process_verbatim files separator hdecode hverbatimLower
  obtain ⟨after, hafter, hafterStore⟩ :=
    process_verbatim files separator hcodec hverbatimWritten
  rw [hwritten] at hafterStore
  refine ⟨_, before, after, hedit, hbefore, hafter, ?_, ?_⟩
  · rw [hafterStore]
    show Entries.at? _ (address separator (Text.lower first :: rest)) = _
    rw [haddress]
    exact at?_treeOf_setAt_self hlower (by simp) hleaf haddress hnested
  · intro name hextends hends
    have hparts : ¬ Meets (Text.lower first :: rest) (separator.split name) := by
      rintro (h | h)
      · exact hextends h
      · exact hends h
    rw [hafterStore, hbeforeStore]
    exact at?_treeOf_setAt_of_not_meets hlower (by simp) hleaf haddress hnested hparts

/-- A name is added beside a host, under a key in capitals, while the port is spelled flat. -/
theorem edit_reads_beside_flat_key :
    ∃ edited before after,
      (Editor.document .json .standard).edit
        "\x7b\"DB\": \x7b\"host\": \"a\"\x7d, \"db::port\": 2\x7d".toList
        [("DB::name", .bool true)] = .ok edited ∧
      (Source.document .json
        "\x7b\"DB\": \x7b\"host\": \"a\"\x7d, \"db::port\": 2\x7d".toList
        (standardWith .standard)).process ⟨fun _ => none⟩
        (Session.fresh (.nested [] .standard)) = .ok before ∧
      (Source.document .json edited (standardWith .standard)).process ⟨fun _ => none⟩
        (Session.fresh (.nested [] .standard)) = .ok after ∧
      after.store.get? "db::name" = some (.bool true) ∧
      after.store.get? "db::host" = before.store.get? "db::host" ∧
      after.store.get? "db::port" = before.store.get? "db::port" := by
  have hdecode : Codec.json.decode
      "\x7b\"DB\": \x7b\"host\": \"a\"\x7d, \"db::port\": 2\x7d".toList =
      .ok (.object [("DB", .object [("host", .string "a")]),
        ("db::port", .number (.int 2 (by decide)))]) := by decide +kernel
  have hpath : Separator.standard.split "DB::name" = "DB" :: ["name"] := by decide +kernel
  have hlower : Text.lower "DB" = "db" := by decide +kernel
  obtain ⟨edited, before, after, hedit, hbefore, hafter, hread, hothers⟩ :=
    edit_reads ⟨fun _ => none⟩ .standard _ "DB::name" (.bool true) hdecode hpath nofun trivial
      (by decide +kernel) trivial (by decide +kernel) (by decide +kernel)
      (Separator.split_join_lower Separator.isCaseless_standard hpath) (by decide +kernel)
  rw [hlower] at hread hothers
  refine ⟨edited, before, after, hedit, hbefore, hafter, hread, ?_, ?_⟩
  · exact hothers "db::host" (by decide +kernel) (by decide +kernel)
  · exact hothers "db::port" (by decide +kernel) (by decide +kernel)

/-- **A sibling is lost** where the document has the first step of the path in capitals, and
    the edit does not: what the edit adds takes the place of all that was there. -/
theorem sibling_lost_to_case :
    ¬ Meets (Separator.standard.split "db::port") (Separator.standard.split "db::host") ∧
    ∃ edited before after,
      (Editor.document .json .standard).edit
        "\x7b\"DB\": \x7b\"host\": 1, \"port\": 2\x7d\x7d".toList
        [("db::port", .number (.int 5 (by decide)))] = .ok edited ∧
      Codec.json.decode edited = .ok (.object
        [("DB", .object
          [("host", .number (.int 1 (by decide))), ("port", .number (.int 2 (by decide)))]),
         ("db", .object [("port", .number (.int 5 (by decide)))])]) ∧
      (Source.document .json
        "\x7b\"DB\": \x7b\"host\": 1, \"port\": 2\x7d\x7d".toList
        (standardWith .standard)).process ⟨fun _ => none⟩
        (Session.fresh (.nested [] .standard)) = .ok before ∧
      (Source.document .json edited (standardWith .standard)).process ⟨fun _ => none⟩
        (Session.fresh (.nested [] .standard)) = .ok after ∧
      before.store.get? "db::host" = some (.number (.int 1 (by decide))) ∧
      after.store.get? "db::host" = none := by
  refine ⟨by decide +kernel, _, _, _, rfl, by decide +kernel, Source.process_eq _ _ _,
    Source.process_eq _ _ _, by decide +kernel, by decide +kernel⟩

-- An edit is lost to the flat spelling of its key.
example : ∃ edited after,
    (Editor.document .json .standard).edit "\x7b\"a::b\": 1\x7d".toList
      [("a::b", .bool true)] = .ok edited ∧
    (Source.document .json edited (standardWith .standard)).process ⟨fun _ => none⟩
      (Session.fresh (.nested [] .standard)) = .ok after ∧
    after.store.get? "a::b" = some (.number (.int 1 (by decide))) :=
  ⟨_, _, rfl, Source.process_eq _ _ _, by decide +kernel⟩

end Edit.Document

end LayeredConfig
