/-! # References within a text

    A reference is a token that stands for the value of a setting. Two grammars of
    tokens are in use:

    * the shell grammar: `$name`, where the name is as long as it can be, and
      `${name}`, `${name:-default}`, `${name:=default}`, where the name is made of
      parts without `:` and `}`, joined by `::`;
    * the brace grammar: `${name}`, where the name is anything without `}`.

    A text is split into verbatim characters and tokens from left to right. What
    does not begin a token is verbatim, and what a token stands for is not looked
    at again.
-/

namespace LayeredConfig

/-- A reference to a setting, with the text to use where the setting has no value. -/
structure Reference where
  name : List Char
  fallback : Option (List Char)
  deriving DecidableEq, Repr

namespace Reference

/-! ## Tokens

    A token is recognised at the beginning of a text, and answered together with
    what follows it. -/

/-- Whether a character may begin a bare name. -/
def beginsName (c : Char) : Bool := c.isAlpha || c == '_'

/-- Whether a character may continue a bare name. -/
def continuesName (c : Char) : Bool := beginsName c || c.isDigit

/-- Whether a character may stand in a part of a name between braces. -/
def isPartChar (c : Char) : Bool := c != '}' && c != ':'

/-- The rest of a scoped name behind one of its characters, as long as it can be.
    Two colons continue the name only together with the first character of the next
    part. -/
def scopedName : List Char → List Char × List Char
  | ':' :: ':' :: c :: rest =>
    if isPartChar c then
      let (name, after) := scopedName rest
      (':' :: ':' :: c :: name, after)
    else ([], ':' :: ':' :: c :: rest)
  | c :: rest =>
    if isPartChar c then
      let (name, after) := scopedName rest
      (c :: name, after)
    else ([], c :: rest)
  | [] => ([], [])

/-- Reads the text up to the closing brace, which is dropped. -/
def untilBrace? : List Char → Option (List Char × List Char)
  | [] => none
  | '}' :: rest => some ([], rest)
  | c :: rest => (untilBrace? rest).map fun (text, after) => (c :: text, after)

/-- Reads what follows the name between the braces of a shell token. -/
def endBraces? (name : List Char) : List Char → Option (Reference × List Char)
  | '}' :: rest => some (⟨name, none⟩, rest)
  | ':' :: c :: rest =>
    if c = '-' ∨ c = '=' then
      (untilBrace? rest).map fun (fallback, after) => (⟨name, some fallback⟩, after)
    else none
  | _ => none

/-- Recognises a token of the shell grammar. -/
def shellToken? : List Char → Option (Reference × List Char)
  | '$' :: '{' :: c :: rest =>
    if isPartChar c then
      let (name, after) := scopedName rest
      endBraces? (c :: name) after
    else none
  | '$' :: c :: rest =>
    if beginsName c then
      some (⟨c :: rest.takeWhile continuesName, none⟩, rest.dropWhile continuesName)
    else none
  | _ => none

/-- Recognises a token of the brace grammar. -/
def braceToken? : List Char → Option (Reference × List Char)
  | '$' :: '{' :: rest =>
    match untilBrace? rest with
    | some (c :: name, after) => some (⟨c :: name, none⟩, after)
    | _ => none
  | _ => none

/-! ## Pieces -/

/-- A piece of a text. -/
inductive Piece where
  | verbatim (c : Char)
  | token (r : Reference)
  deriving DecidableEq, Repr

/-- The pieces of a text by a grammar, where the next `skip` characters belong to
    the token found last. -/
def piecesFrom (token? : List Char → Option (Reference × List Char)) :
    Nat → List Char → List Piece
  | _, [] => []
  | skip + 1, _ :: rest => piecesFrom token? skip rest
  | 0, c :: rest =>
    match token? (c :: rest) with
    | some (r, after) => .token r :: piecesFrom token? (rest.length - after.length) rest
    | none => .verbatim c :: piecesFrom token? 0 rest

/-- The pieces of a text by the shell grammar. -/
def shellPieces (cs : List Char) : List Piece := piecesFrom shellToken? 0 cs

/-- The pieces of a text by the brace grammar. -/
def bracePieces (cs : List Char) : List Piece := piecesFrom braceToken? 0 cs

/-- The reference of a piece. -/
def Piece.reference? : Piece → Option Reference
  | .verbatim _ => none
  | .token r => some r

/-- Whether a text holds a token of the brace grammar. -/
def hasBraceToken (cs : List Char) : Bool :=
  (bracePieces cs).any (·.reference?.isSome)

end Reference

end LayeredConfig
