import LayeredConfig.Proofs.WriteOrder

/-! # The laws of a store

    What a store reads after a write is said by the paths of the two keys alone. The
    written path reads what was written, and a path beyond it is followed inside of that;
    a path that parts from it reads what it read before; and a path above it reads an
    object, which is the one that was there but for the member at the next step of the
    written path. Where something else was there, or nothing, the object begins empty.

    These are the laws of trees, for the tree of the store. They hold of it without
    exception, since no store takes a key for the empty path.

    **Main results.** `Store.writeLaws` for every store, and
    `nested_and_caseless_write_laws` for the stores of paths.
-/

namespace LayeredConfig

/-! ## The laws -/

/-- What a write of `v` at the path `p` does to the reading at the path `q`, which was
    `before` the write and is `after` it. -/
structure WriteLaws (p q : List String) (v : Value) (before after : Option Value) : Prop where
  /-- The written path reads what was written. -/
  same : q = p → after = some v
  /-- A path beyond the written one is followed inside of what was written. -/
  beyond : ∀ rest, rest ≠ [] → q = p ++ rest → after = v.fields.at? rest
  /-- A path that parts from the written one reads what it read before. -/
  apart : ¬ p <+: q → ¬ q <+: p → after = before
  /-- A path above the written one reads an object, in which only the member at the next
      step of the written path is new. -/
  above : ∀ next rest, p = q ++ next :: rest →
    ∃ w, after = some (.object ((before.getD .null).fields.insert next w))

/-- **The laws of a tree.** -/
theorem Entries.writeLaws (m : Entries Value) {p q : List String} (hp : p ≠ []) (hq : q ≠ [])
    (v : Value) : WriteLaws p q v (m.at? q) ((m.setAt p v).at? q) where
  same h := by
    subst h
    exact at?_setAt_self m hp v
  beyond rest hrest h := by
    subst h
    exact at?_setAt_beyond m hp hrest v
  apart hpq hqp := at?_setAt_apart m hpq hqp v
  above next rest h := by
    subst h
    -- The object above is written like a tree of its own, at what is left of the path.
    have hbelow := at?_setAt_above m hq (List.cons_ne_nil next rest) v
    refine ⟨(m.inside q).grown next rest v, ?_⟩
    rw [hbelow, setAt_eq_insert]
    rfl

/-! ## Stores -/

namespace Store

/-- **The laws of a store**, of whatever kind. -/
theorem writeLaws (s : Store) (key : String) (v : Value) (name : String) :
    WriteLaws (s.path key) (s.path name) (s.addressing.stored v) (s.get? name)
      ((s.set key v).get? name) := by
  rw [get?_set, get?_eq_at?]
  exact s.root.writeLaws (s.path_ne_nil key) (s.path_ne_nil name) _

theorem has_iff (s : Store) (name : String) : s.has name = true ↔ ∃ v, s.get? name = some v :=
  Option.isSome_iff_exists

/-- **The stores of paths.** For nested stores over every tree and separator, a write is read
    along the paths that the separator makes of the keys, and the value is stored as it
    is. For caseless ones the steps of the paths are lower-cased, and so are the keys in the
    stored value. Both have a name exactly where they read a value under it. -/
theorem nested_and_caseless_write_laws :
    (∀ (tree : Entries Value) (separator : Separator) (key : String) (v : Value) (name : String),
      WriteLaws (separator.split key) (separator.split name) v
        ((nested tree separator).get? name) (((nested tree separator).set key v).get? name) ∧
      ((nested tree separator).has name = true ↔
        ∃ u, (nested tree separator).get? name = some u)) ∧
    (∀ (tree : CaselessTree) (key : String) (v : Value) (name : String),
      WriteLaws ((tree.separator.split key).map Text.lower)
        ((tree.separator.split name).map Text.lower) v.lowerKeys
        ((caseless tree).get? name) (((caseless tree).set key v).get? name) ∧
      ((caseless tree).has name = true ↔ ∃ u, (caseless tree).get? name = some u)) := by
  refine ⟨?nested, ?caseless⟩
  case nested =>
    intro tree separator key v name
    exact ⟨writeLaws (nested tree separator) key v name, has_iff _ name⟩
  case caseless =>
    intro tree key v name
    exact ⟨writeLaws (caseless tree) key v name, has_iff _ name⟩

end Store

end LayeredConfig
