import LayeredConfig.Proofs.Overlays
import LayeredConfig.Proofs.Pruning

/-! # Edits laid over a document again

    Edits that were laid over a document find everything as they want it: laid over it once
    more they change nothing. Where the document had no object for them they were taken over
    as they are, nulls and all, so this includes edits that are laid over themselves.

    Edits reach no further than their leaves. What they say at a leaf is what the edited
    document reads there, unless the leaf is null, and every path that parts from the paths
    to all the leaves reads as before. An object without members is where a path of the edits
    ends too.

    **Main result.** `overlay_repeated_and_local`.
-/

namespace LayeredConfig

theorem Entries.below_of_ne {m : Entries Value} {key : String}
    (h : ∀ inner, m.get? key ≠ some (.object inner)) : m.below key = [] := by
  cases hread : m.get? key with
  | none => exact below_of_get?_none hread
  | some v =>
    rcases Value.isLeaf_or_object v with hleaf | ⟨inner, rfl⟩
    · rw [below_of_get? hread, Value.fields_of_isLeaf hleaf]
    · exact absurd hread (h inner)

namespace Value

/-! ## Once more -/

/-- Members laid over themselves are themselves, if each of them is. -/
theorem overlayFields_self_of_members {fields : Entries Value} (hordered : fields.Ordered)
    (h : ∀ entry ∈ fields, entry.2.overlay entry.2 = entry.2) :
    overlayFields fields fields = fields := by
  apply (ordered_overlayFields hordered fields).ext hordered
  intro key
  rw [get?_overlayFields fields hordered]
  cases hread : fields.get? key with
  | none => rfl
  | some v => exact congrArg some (h (key, v) (Entries.mem_of_get? hread))

/-- A value laid over itself is itself. -/
theorem Tidy.overlay_self {v : Value} (h : v.Tidy) : v.overlay v = v := by
  induction h with
  | @leaf v hleaf =>
    cases v with
    | object fields => exact hleaf.elim
    | _ => simp [overlay]
  | @object fields hordered hfields ih =>
    rw [overlay, overlayFields_self_of_members hordered ih]

theorem Tidy.overlayFields_self {fields : Entries Value} (h : (Value.object fields).Tidy) :
    overlayFields fields fields = fields :=
  overlayFields_self_of_members h.ordered fun _ hentry => (h.of_mem hentry).overlay_self

/-- Where the document is no object, an object of edits takes its place. -/
theorem overlay_object_of_isLeaf {v : Value} (h : v.IsLeaf) (edits : Entries Value) :
    v.overlay (.object edits) = .object edits := by
  cases v with
  | object fields => exact h.elim
  | _ => simp [overlay]

/-- **One key, once more.** What an edit left under its key it leaves again. -/
theorem overlaid_overlaid {v? edit? : Option Value}
    (hself : ∀ edit, edit? = some edit → edit.overlay edit = edit)
    (htwice : ∀ v edit, v? = some v → edit? = some edit →
      (v.overlay edit).overlay edit = v.overlay edit) :
    overlaid (overlaid v? edit?) edit? = overlaid v? edit? := by
  cases edit? with
  | none => rfl
  | some edit =>
    cases v? with
    | some v => exact congrArg some (htwice v edit rfl rfl)
    | none =>
      -- The edit was added as it is, or it was null and nothing was.
      by_cases hnull : edit.isNull = true
      · simp [overlaid, hnull]
      · simp [overlaid, hnull, hself edit rfl]

/-- **All keys, once more.** -/
theorem Tidy.overlay_overlay {d e : Value} (hd : d.Tidy) (he : e.Tidy) :
    (d.overlay e).overlay e = d.overlay e := by
  induction he generalizing d with
  | @leaf e hleaf =>
    cases e with
    | object edits => exact hleaf.elim
    | _ => simp [overlay]
  | @object edits hordered hedits ih =>
    rcases isLeaf_or_object d with hleaf | ⟨fields, rfl⟩
    · rw [overlay_object_of_isLeaf hleaf]
      exact (Tidy.object hordered hedits).overlay_self
    · have hkeys : overlayFields (overlayFields fields edits) edits =
          overlayFields fields edits := by
        have honce := ordered_overlayFields hd.ordered edits
        apply (ordered_overlayFields honce edits).ext honce
        intro key
        rw [get?_overlayFields _ hordered, get?_overlayFields fields hordered]
        apply overlaid_overlaid
        · intro edit hedit
          exact (hedits (key, edit) (Entries.mem_of_get? hedit)).overlay_self
        · intro v edit hv hedit
          have htidy : v.Tidy := hd.of_mem (Entries.mem_of_get? hv)
          exact ih (key, edit) (Entries.mem_of_get? hedit) htidy
      rw [overlay, overlay, hkeys]

/-! ## The leaves of edits -/

/-- The leaves of an object under a key are leaves of the members it is among. -/
theorem mem_fieldLeaves_of_get? {keepEmpty : Bool} {fields inner : Entries Value} {key : String}
    (hread : fields.get? key = some (.object inner)) {leaf : List String × Value}
    (hleaf : leaf ∈ fieldLeaves keepEmpty inner) :
    (key :: leaf.1, leaf.2) ∈ fieldLeaves keepEmpty fields := by
  have hne : inner ≠ [] := by
    rintro rfl
    exact nomatch hleaf
  apply mem_fieldLeaves_of_mem (Entries.mem_of_get? hread)
  rwa [leaves_object_of_ne_nil hne]

/-- Every value has a leaf, if objects without members count. -/
theorem Tidy.exists_mem_leaves {v : Value} (h : v.Tidy) : ∃ leaf, leaf ∈ v.leaves true := by
  induction h with
  | @leaf v hleaf => exact ⟨([], v), by simp [leaves_of_isLeaf hleaf]⟩
  | @object fields hordered hfields ih =>
    cases fields with
    | nil => exact ⟨([], .object []), List.mem_singleton.mpr rfl⟩
    | cons first rest =>
      obtain ⟨leaf, hleaf⟩ := ih first List.mem_cons_self
      exact ⟨_, mem_fieldLeaves_of_mem List.mem_cons_self hleaf⟩

/-- Where there is something at a path, there is a leaf on the way or behind it. -/
theorem Tidy.exists_meets_of_at? {fields : Entries Value} (h : (Value.object fields).Tidy)
    {p : List String} {v : Value} (hsome : fields.at? p = some v) :
    ∃ leaf ∈ fieldLeaves true fields, Meets leaf.1 p := by
  induction p generalizing fields with
  | nil =>
    rw [Entries.at?_nil] at hsome
    exact nomatch hsome
  | cons key rest ih =>
    by_cases hrest : rest = []
    · subst hrest
      have hmem : (key, v) ∈ fields := Entries.mem_of_get? hsome
      obtain ⟨leaf, hleaf⟩ := (h.of_mem hmem).exists_mem_leaves
      exact ⟨_, mem_fieldLeaves_of_mem hmem hleaf, meets_cons.mpr (.inr List.nil_prefix)⟩
    · obtain ⟨w, hread, hbelow⟩ := Entries.exists_of_at?_cons hrest hsome
      rcases isLeaf_or_object w with hw | ⟨inner, rfl⟩
      · rw [fields_of_isLeaf hw, Entries.at?_empty] at hbelow
        exact nomatch hbelow
      · obtain ⟨leaf, hleaf, hmeets⟩ := ih (h.of_mem (Entries.mem_of_get? hread)) hbelow
        exact ⟨_, mem_fieldLeaves_of_get? hread hleaf, meets_cons.mpr hmeets⟩

/-- So there is nothing at a path that parts from the paths to all the leaves. -/
theorem Tidy.at?_eq_none_of_not_meets {fields : Entries Value} (h : (Value.object fields).Tidy)
    {p : List String} (hparts : ∀ leaf ∈ fieldLeaves true fields, ¬ Meets leaf.1 p) :
    fields.at? p = none := by
  by_contra hne
  obtain ⟨v, hv⟩ := Option.ne_none_iff_exists'.mp hne
  obtain ⟨leaf, hleaf, hmeets⟩ := h.exists_meets_of_at? hv
  exact hparts leaf hleaf hmeets

/-! ## What edits reach -/

/-- **At a leaf** of the edits the edited members read the leaf, unless it is null. -/
theorem at?_overlayFields_of_mem {fields edits : Entries Value} (hedits : (object edits).Tidy)
    {leaf : List String × Value} (hmem : leaf ∈ fieldLeaves true edits) (hleaf : leaf.2.IsLeaf)
    (hnull : leaf.2 ≠ .null) : Entries.at? (overlayFields fields edits) leaf.1 = some leaf.2 := by
  obtain ⟨path, w⟩ := leaf
  induction path generalizing fields edits with
  | nil => exact absurd rfl (ne_nil_of_mem_fieldLeaves hmem)
  | cons key rest ih =>
    obtain ⟨⟨_, edit⟩, hentry, ⟨_, _⟩, hinner, heq⟩ := mem_fieldLeaves.mp hmem
    obtain ⟨hpath, rfl⟩ := Prod.mk.inj heq
    obtain ⟨rfl, rfl⟩ := List.cons.inj hpath
    have hedit : edits.get? key = some edit := hedits.ordered.get?_of_mem hentry
    have hkey := get?_overlayFields fields hedits.ordered key
    rcases isLeaf_or_object edit with hself | ⟨inner, rfl⟩
    · rw [leaves_of_isLeaf hself, List.mem_singleton] at hinner
      obtain ⟨rfl, rfl⟩ := Prod.mk.inj hinner
      rw [Entries.at?_singleton, hkey, hedit, overlaid_of_isLeaf _ hself hnull]
    · have hne : inner ≠ [] := by
        rintro rfl
        obtain ⟨rfl, rfl⟩ := Prod.mk.inj (List.mem_singleton.mp hinner)
        exact hleaf
      rw [leaves_object_of_ne_nil hne] at hinner
      have htidy : (object inner).Tidy := hedits.of_mem hentry
      rw [Entries.at?_cons _ key (ne_nil_of_mem_fieldLeaves hinner)]
      by_cases hread : ∃ g, fields.get? key = some (.object g)
      · obtain ⟨g, hg⟩ := hread
        rw [hg, hedit, overlaid_object_object] at hkey
        rw [Entries.below_of_get? hkey]
        exact ih htidy hinner hleaf hnull
      · -- The members are taken over as they are, which is as they were laid over themselves.
        rw [below_overlayFields_of_ne hedits.ordered fun g hg => hread ⟨g, hg⟩,
          Entries.below_of_get? hedit, ← htidy.overlayFields_self]
        exact ih htidy hinner hleaf hnull

/-- **Apart from the leaves** of the edits the edited members read what they read before. -/
theorem at?_overlayFields_of_not_meets {fields edits : Entries Value}
    (hedits : (object edits).Tidy) {p : List String}
    (hparts : ∀ leaf ∈ fieldLeaves true edits, ¬ Meets leaf.1 p) :
    Entries.at? (overlayFields fields edits) p = fields.at? p := by
  induction p generalizing fields edits with
  | nil => rw [Entries.at?_nil, Entries.at?_nil]
  | cons key rest ih =>
    have hkey := get?_overlayFields fields hedits.ordered key
    cases hedit : edits.get? key with
    | none =>
      rw [hedit, overlaid_none] at hkey
      exact Entries.at?_congr hkey rest
    | some edit =>
      have hmem : (key, edit) ∈ edits := Entries.mem_of_get? hedit
      have hbeneath : ∀ leaf ∈ edit.leaves true, ¬ Meets leaf.1 rest := fun leaf hleaf hmeets =>
        hparts _ (mem_fieldLeaves_of_mem hmem hleaf) (meets_cons.mpr hmeets)
      have hrest : rest ≠ [] := by
        rintro rfl
        obtain ⟨leaf, hleaf⟩ := (hedits.of_mem hmem).exists_mem_leaves
        exact hbeneath leaf hleaf (.inr List.nil_prefix)
      rcases isLeaf_or_object edit with hself | ⟨inner, rfl⟩
      · exact absurd (.inl List.nil_prefix) (hbeneath ([], edit) (by simp [leaves_of_isLeaf hself]))
      · have hinner : (object inner).Tidy := hedits.of_mem hmem
        have hinside : ∀ leaf ∈ fieldLeaves true inner, ¬ Meets leaf.1 rest :=
          fun leaf hleaf hmeets =>
            hparts _ (mem_fieldLeaves_of_get? hedit hleaf) (meets_cons.mpr hmeets)
        rw [Entries.at?_cons _ key hrest, Entries.at?_cons fields key hrest]
        by_cases hread : ∃ g, fields.get? key = some (.object g)
        · obtain ⟨g, hg⟩ := hread
          rw [hg, hedit, overlaid_object_object] at hkey
          rw [Entries.below_of_get? hkey, Entries.below_of_get? hg]
          exact ih hinner hinside
        · -- There was nothing beneath the key, and the members put no object in the way.
          have hother : ∀ g, fields.get? key ≠ some (.object g) := fun g hg => hread ⟨g, hg⟩
          rw [below_overlayFields_of_ne hedits.ordered hother, Entries.below_of_get? hedit,
            Entries.below_of_ne hother, Entries.at?_empty]
          exact hinner.at?_eq_none_of_not_meets hinside

/-- **Edits are laid over a document once and for all**, and reach no further than their
    leaves. Whatever the document and the edits are, laying the edits over the document twice
    is laying them over it once. Where both are objects, every path to a leaf of the edits
    that is neither null nor an object reads the leaf afterwards, and every path that no path
    to a leaf goes on from or goes on to reads as in the document. An object without members
    counts as a leaf here, so that the path to it is one that ends. -/
theorem overlay_repeated_and_local :
    (∀ d e : Value, d.Tidy → e.Tidy → (d.overlay e).overlay e = d.overlay e) ∧
    ∀ fields edits : Entries Value, (object fields).Tidy → (object edits).Tidy →
      ∃ after, (object fields).overlay (object edits) = .object after ∧
        (∀ leaf ∈ fieldLeaves true edits, leaf.2.IsLeaf → leaf.2 ≠ .null →
          Entries.at? after leaf.1 = some leaf.2) ∧
        ∀ p, (∀ leaf ∈ fieldLeaves true edits, ¬ Meets leaf.1 p) →
          Entries.at? after p = fields.at? p := by
  refine ⟨fun d e hd he => hd.overlay_overlay he, fun fields edits hfields hedits => ?_⟩
  refine ⟨overlayFields fields edits, by rw [overlay], ?_, ?_⟩
  · intro leaf hmem hleaf hnull
    exact at?_overlayFields_of_mem hedits hmem hleaf hnull
  · intro p hparts
    exact at?_overlayFields_of_not_meets hedits hparts

/-- A database is switched to another user, and a null that comes with it leaves the password
    and the hosts as they are. -/
theorem overlay_repeated_and_local_of_database :
    let document : Entries Value :=
      [("db", .object [("hosts", .array [.string "a"]), ("user", .string "guest")])]
    let edits : Entries Value := [("db", .object [("pass", .null), ("user", .string "app")])]
    ((object document).overlay (object edits)).overlay (object edits) =
        (object document).overlay (object edits) ∧
      ∃ after, (object document).overlay (object edits) = .object after ∧
        Entries.at? after ["db", "user"] = some (.string "app") ∧
        Entries.at? after ["db", "hosts"] = some (.array [.string "a"]) := by
  intro document edits
  have hdocument : (object document).Tidy :=
    have hhosts : Tidy (.array [.string "a"]) := .leaf trivial
    have huser : Tidy (.string "guest") := .leaf trivial
    (tidy_empty.setAt ["db", "hosts"] hhosts).setAt ["db", "user"] huser
  have hedits : (object edits).Tidy :=
    have huser : Tidy (.string "app") := .leaf trivial
    (tidy_empty.setAt ["db", "pass"] (.leaf (v := .null) trivial)).setAt ["db", "user"] huser
  obtain ⟨hrepeated, hlocal⟩ := overlay_repeated_and_local
  obtain ⟨after, hafter, hleaves, hapart⟩ := hlocal document edits hdocument hedits
  refine ⟨hrepeated _ _ hdocument hedits, after, hafter, ?_, ?_⟩
  · exact hleaves (["db", "user"], .string "app") (by decide) trivial (by decide)
  · rw [hapart ["db", "hosts"] (by decide)]
    rfl

end Value

end LayeredConfig
