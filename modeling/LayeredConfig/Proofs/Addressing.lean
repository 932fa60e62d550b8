import LayeredConfig.Proofs.KeyPaths
import LayeredConfig.Proofs.Tree
import LayeredConfig.Store

/-! # Stores as trees with an addressing

    The three kinds of stores are one kind of tree, read and written at paths. What
    is different is the addressing: which path a key is taken for, and what becomes
    of a value when it is stored. A write changes the tree and never the addressing,
    so the laws of paths are laws of all stores.

    **Main results.** `get?_set_congr` and `get?_set_self_congr`: two stores of one
    addressing that read the same under a name still do after the same write, and
    they read the same under the written key.
-/

namespace LayeredConfig

/-! ## Addressings -/

/-- What a store takes its keys for. -/
inductive Addressing where
  /-- Paths, case included. -/
  | paths (separator : Separator)
  /-- Single names without regard to case. -/
  | names
  /-- Paths without regard to case. -/
  | caselessPaths (separator : Separator)
  deriving DecidableEq, Repr

namespace Addressing

/-- The path that a key is taken for. -/
def path : Addressing → String → List String
  | .paths separator, key => separator.split key
  | .names, key => [Text.lower key]
  | .caselessPaths separator, key => (separator.split key).map Text.lower

/-- What becomes of a value when it is stored. -/
def stored : Addressing → Value → Value
  | .paths _, v => v
  | .names, v => v
  | .caselessPaths _, v => v.lowerKeys

/-- No key is taken for the empty path. -/
theorem path_ne_nil (a : Addressing) (key : String) : a.path key ≠ [] := by
  cases a with
  | paths separator => exact separator.split_ne_nil key
  | names => exact List.cons_ne_nil _ _
  | caselessPaths separator => simp [path, separator.split_ne_nil]

/-- Whether a key goes on where a name ends. -/
def Beneath (a : Addressing) (key name : String) : Prop :=
  ∃ rest, rest ≠ [] ∧ a.path key = a.path name ++ rest

theorem beneath_iff (a : Addressing) (key name : String) :
    a.Beneath key name ↔ a.path name <+: a.path key ∧ a.path key ≠ a.path name := by
  unfold Beneath
  constructor
  · intro hexists
    obtain ⟨rest, hrest, h⟩ := hexists
    refine ⟨⟨rest, h.symm⟩, fun heq => hrest ?_⟩
    rwa [heq, List.self_eq_append_right] at h
  · intro hexists
    obtain ⟨⟨rest, h⟩, hne⟩ := hexists
    refine ⟨rest, ?_, h.symm⟩
    intro heq
    subst heq
    rw [List.append_nil] at h
    exact hne h.symm

instance (a : Addressing) (key name : String) : Decidable (a.Beneath key name) :=
  decidable_of_iff _ (a.beneath_iff key name).symm

/-- Some of the keys is beneath a name. -/
def SomeBeneath (a : Addressing) (keys : List String) (name : String) : Prop :=
  ∃ key ∈ keys, a.Beneath key name

instance (a : Addressing) (keys : List String) (name : String) :
    Decidable (a.SomeBeneath keys name) :=
  inferInstanceAs (Decidable (∃ key ∈ keys, a.Beneath key name))

theorem someBeneath_append (a : Addressing) (first second : List String) (name : String) :
    a.SomeBeneath (first ++ second) name ↔
      a.SomeBeneath first name ∨ a.SomeBeneath second name := by
  unfold SomeBeneath
  constructor
  · intro hexists
    obtain ⟨key, hkey, hbeneath⟩ := hexists
    rcases List.mem_append.mp hkey with h | h
    · exact .inl ⟨key, h, hbeneath⟩
    · exact .inr ⟨key, h, hbeneath⟩
  · intro hor
    rcases hor with ⟨key, hkey, hbeneath⟩ | ⟨key, hkey, hbeneath⟩
    · exact ⟨key, List.mem_append_left _ hkey, hbeneath⟩
    · exact ⟨key, List.mem_append_right _ hkey, hbeneath⟩

end Addressing

namespace Store

/-- The addressing of a store. -/
def addressing : Store → Addressing
  | .nested _ separator => .paths separator
  | .flat _ => .names
  | .caseless tree => .caselessPaths tree.separator

/-- The path that a store takes a key for. -/
def path (s : Store) (key : String) : List String := s.addressing.path key

/-- The tree that a store reads and writes. -/
def root (s : Store) : Entries Value := s.tree.fields

/-! ## Operations through the tree -/

/-- Reading a store is reading its tree at a path. -/
theorem get?_eq_at? (s : Store) (key : String) : s.get? key = s.root.at? (s.path key) := by
  cases s <;> rfl

/-- A write does not change the addressing. -/
@[simp] theorem addressing_set (s : Store) (key : String) (v : Value) :
    (s.set key v).addressing = s.addressing := by
  cases s <;> rfl

@[simp] theorem path_set (s : Store) (key : String) (v : Value) (name : String) :
    (s.set key v).path name = s.path name := by
  unfold path
  rw [addressing_set]

/-- Writing a store is writing its tree at a path. -/
theorem root_set (s : Store) (key : String) (v : Value) :
    (s.set key v).root = s.root.setAt (s.path key) (s.addressing.stored v) := by
  cases s <;> rfl

/-- What a name reads after a write. -/
theorem get?_set (s : Store) (key : String) (v : Value) (name : String) :
    (s.set key v).get? name =
      (s.root.setAt (s.path key) (s.addressing.stored v)).at? (s.path name) := by
  rw [get?_eq_at?, root_set, path_set]

theorem path_ne_nil (s : Store) (key : String) : s.path key ≠ [] :=
  s.addressing.path_ne_nil key

/-! ## Two stores of one addressing -/

section agreement

variable {s t : Store} (haddr : s.addressing = t.addressing)
include haddr

theorem path_congr (key : String) : s.path key = t.path key := by
  unfold path
  rw [haddr]

/-- **Agreement is stable.** Stores that read the same under a name still do after the
    same write, at, above, beneath or beside the name. -/
theorem get?_set_congr {name : String} (h : s.get? name = t.get? name) (key : String)
    (v : Value) : (s.set key v).get? name = (t.set key v).get? name := by
  have hname := path_congr haddr name
  have hkey := path_congr haddr key
  rw [get?_eq_at?, get?_eq_at?, ← hname] at h
  rw [get?_set, get?_set, ← hname, ← hkey, ← haddr]
  exact Entries.at?_setAt_congr h (s.path key) (s.addressing.stored v)

/-- **Writes agree.** After the same write, stores read the same under the written key,
    whatever they held before. -/
theorem get?_set_self_congr (key : String) (v : Value) :
    (s.set key v).get? key = (t.set key v).get? key := by
  have hp := s.path_ne_nil key
  rw [get?_set, get?_set, ← path_congr haddr key, ← haddr, Entries.at?_setAt_self _ hp,
    Entries.at?_setAt_self _ hp]

end agreement

end Store

end LayeredConfig
