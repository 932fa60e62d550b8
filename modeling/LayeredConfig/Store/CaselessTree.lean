import LayeredConfig.Key.Separator
import LayeredConfig.Value.Lowered

/-! # Settings trees without case

    A tree of settings in which every key is lower case, at every depth and also
    inside of lists. Keys are lower-cased when they are written and when they are
    looked up, so the case of a key never matters. That the tree is in lower case is
    part of it: what it is made of is put in lower case, and every write keeps it so.
-/

namespace LayeredConfig

/-- The members of a tree as one level of entries: a key for every leaf, where an
    empty object is a leaf too. -/
def Entries.flatten (m : Entries Value) (separator : Separator) : Entries Value :=
  Entries.ofList ((Value.fieldLeaves true m).map fun (path, leaf) => (separator.join path, leaf))

/-- A tree of settings whose keys are in lower case, and the separator of its paths. -/
structure CaselessTree where
  root : Entries Value
  separator : Separator
  lowered : (Value.object root).Lowered
  deriving DecidableEq, Repr

namespace CaselessTree

/-- The empty tree. -/
def empty : CaselessTree := ⟨[], .standard, Value.lowered_empty⟩

/-- The tree of a value. Only an object gives one that is not empty. -/
def ofValue (v : Value) : CaselessTree where
  root := v.lowerKeys.fields
  separator := .standard
  lowered := (Value.lowered_lowerKeys v).fields

/-- The tree as a value. -/
def toValue (t : CaselessTree) : Value := .object t.root

/-- The path that a key denotes. The key is split before it is lower-cased. -/
def path (t : CaselessTree) (key : String) : List String :=
  (t.separator.split key).map Text.lower

/-- The value under a key. -/
def get? (t : CaselessTree) (key : String) : Option Value :=
  t.root.at? (t.path key)

/-- The steps of the path that a key denotes are in lower case. -/
theorem lower_of_mem_path (t : CaselessTree) (key : String) :
    ∀ step ∈ t.path key, Text.lower step = step := by
  intro step hstep
  obtain ⟨part, _, rfl⟩ := List.mem_map.mp hstep
  exact Text.lower_lower part

/-- Writes a value under a key. -/
def set (t : CaselessTree) (key : String) (v : Value) : CaselessTree where
  root := t.root.setAt (t.path key) v.lowerKeys
  separator := t.separator
  lowered := t.lowered.setAt (t.lower_of_mem_path key) (Value.lowered_lowerKeys v)

/-- The leaves of the tree by key. -/
def flatten (t : CaselessTree) : Entries Value :=
  t.root.flatten t.separator

end CaselessTree

end LayeredConfig
