import LayeredConfig.Store.CaselessTree

/-! # Stores of settings

    All sources write into a store, and all references are looked up in one. There
    are three kinds, which differ in what they take a key for:

    * a nested store takes it for a path into a tree, case included;
    * a flat store takes it for the name of one entry, without regard to case;
    * a caseless store takes it for a path into a tree without case.

    The entries that a flat store begins with keep the case they have, and only
    those in lower case can be reached.
-/

namespace LayeredConfig

/-- A store of settings. -/
inductive Store where
  | nested (tree : Entries Value) (separator : Separator)
  | flat (entries : Entries Value)
  | caseless (tree : CaselessTree)
  deriving DecidableEq, Repr

namespace Store

/-- The value reached by a key. -/
def get? : Store → String → Option Value
  | .nested tree separator, key => tree.at? (separator.split key)
  | .flat entries, key => entries.get? (Text.lower key)
  | .caseless tree, key => tree.get? key

/-- Whether a value is reached by a key, even an empty one. -/
def has (s : Store) (key : String) : Bool := (s.get? key).isSome

/-- Writes a value under a key. -/
def set : Store → String → Value → Store
  | .nested tree separator, key, v => .nested (tree.setAt (separator.split key) v) separator
  | .flat entries, key, v => .flat (entries.insert (Text.lower key) v)
  | .caseless tree, key, v => .caseless (tree.set key v)

/-- What the store holds, as entries. -/
def entries : Store → Entries Value
  | .nested tree _ => tree
  | .flat entries => entries
  | .caseless tree => tree.flatten

/-- What the store holds, as one value. -/
def tree : Store → Value
  | .nested tree _ => .object tree
  | .flat entries => .object entries
  | .caseless tree => tree.toValue

/-- The value reached by a key, or a default where nothing is reached. -/
def getOr (s : Store) (key : String) (fallback : Value) : Value :=
  (s.get? key).getD fallback

/-- The value reached by a key, or a default where nothing or an empty value is
    reached. -/
def getFilledOr (s : Store) (key : String) (fallback : Value) : Value :=
  ((s.get? key).filter (!·.isEmpty)).getD fallback

end Store

end LayeredConfig
