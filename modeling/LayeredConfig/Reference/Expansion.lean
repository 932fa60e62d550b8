import LayeredConfig.Reference
import LayeredConfig.Store
import LayeredConfig.Value.Text

/-! # Expanding references

    Expanding a text replaces each of its tokens by a text that depends on the
    store, and keeps the rest. The names that were looked up are remembered, each
    of them once, in the order in which they first occur.

    The two grammars expand differently. A shell token uses its default where the
    setting has no value or an empty one, and its name may be lower-cased first. A
    brace token is looked up as it is written.
-/

namespace LayeredConfig.Reference

/-- An expanded text, and the names it was made from. -/
structure Expansion where
  text : List Char
  names : List String
  deriving DecidableEq, Repr

/-- Replaces the tokens among pieces: `nameOf` is the name that a reference is
    looked up by, and `textOf` the text that stands for it. -/
def expand (nameOf : Reference → String) (textOf : Reference → List Char) (pieces : List Piece) :
    Expansion where
  text := pieces.flatMap fun
    | .verbatim c => [c]
    | .token r => textOf r
  names := ((pieces.filterMap Piece.reference?).map nameOf).eraseDups

/-- The name that a shell token is looked up by. -/
def shellName (lower : Bool) (r : Reference) : String :=
  let name := String.ofList r.name
  if lower then Text.lower name else name

/-- The text that stands for a shell token. -/
def shellText (store : Store) (lower : Bool) (r : Reference) : List Char :=
  match (store.get? (shellName lower r)).filter (!·.isEmpty) with
  | some v => v.text
  | none => r.fallback.getD []

/-- The text that stands for a brace token. -/
def braceText (store : Store) (r : Reference) : List Char :=
  match store.get? (String.ofList r.name) with
  | some v => v.text
  | none => []

/-- Expands the shell tokens of a text. -/
def expandShell (store : Store) (lower : Bool) (cs : List Char) : Expansion :=
  expand (shellName lower) (shellText store lower) (shellPieces cs)

/-- Expands the brace tokens of a text. -/
def expandBraces (store : Store) (cs : List Char) : Expansion :=
  expand (fun r => String.ofList r.name) (braceText store) (bracePieces cs)

end LayeredConfig.Reference
