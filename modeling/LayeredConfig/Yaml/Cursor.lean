/-! # Positions in a YAML text

    A cursor is what is left of a text together with where in the text that is:
    how many characters have been passed, on which line, and in which column.
    YAML knows five line breaks; a carriage return and a line feed together are
    one. All but the two separators U+2028 and U+2029 are read as a line feed.
-/

namespace LayeredConfig.Yaml

/-! ## Characters -/

/-- The blanks within a line. -/
def isBlank (c : Char) : Bool := c == ' ' || c == '\t'

/-- The line breaks. -/
def isBreak (c : Char) : Bool :=
  c == '\r' || c == '\n' || c == '\u0085' || c == '\u2028' || c == '\u2029'

/-- Blanks and line breaks. -/
def isGap (c : Char) : Bool := isBlank c || isBreak c

/-- Whether what stands at a place ends a word: a blank, a line break, or nothing. -/
def endsWord : Option Char → Bool
  | none => true
  | some c => isGap c

/-- Whether what stands at a place ends a line: a line break or nothing. -/
def endsLine : Option Char → Bool
  | none => true
  | some c => isBreak c

/-- The characters of names: of anchors, directives and tag handles. -/
def isName (c : Char) : Bool :=
  c.isAlphanum || c == '_' || c == '-'

/-- The characters that structure a list or a mapping in brackets. -/
def isFlowIndicator (c : Char) : Bool :=
  c == ',' || c == '[' || c == ']' || c == '{' || c == '}'

/-- The characters that a YAML text may hold at all. -/
def isAllowed (c : Char) : Bool :=
  c == '\t' || c == '\n' || c == '\r' || (' ' ≤ c && c ≤ '~') || c == '\u0085' ||
  ('\u00a0' ≤ c && c ≤ '\uFFFD') || 0x10000 ≤ c.toNat

/-! ## Cursors -/

/-- A position in a text. -/
structure Cursor where
  rest : List Char
  index : Nat
  line : Nat
  column : Nat
  deriving DecidableEq, Repr

namespace Cursor

/-- The start of a text. -/
def start (cs : List Char) : Cursor := ⟨cs, 0, 0, 0⟩

/-- The character `n` places further on. -/
def peekAt (c : Cursor) (n : Nat) : Option Char := c.rest[n]?

/-- The next character. -/
def peek (c : Cursor) : Option Char := c.rest.head?

/-- Whether a certain character comes next. -/
def sees (c : Cursor) (x : Char) : Bool := c.peek == some x

/-- Moves to a later place of the same line. -/
def moveTo (c : Cursor) (rest : List Char) : Cursor :=
  let passed := c.rest.length - rest.length
  { c with rest, index := c.index + passed, column := c.column + passed }

/-- Moves over `n` characters of the same line. -/
def skip (c : Cursor) (n : Nat) : Cursor := c.moveTo (c.rest.drop n)

/-- Moves over the characters of a class that holds no line break. -/
def skipWhile (c : Cursor) (p : Char → Bool) : Cursor := c.moveTo (c.rest.dropWhile p)

/-- Takes the characters of a class that holds no line break. -/
def takeWhile (c : Cursor) (p : Char → Bool) : List Char × Cursor :=
  (c.rest.takeWhile p, c.skipWhile p)

/-- Moves over a line break, with the text that it is read as. Where there is
    none, the cursor stays. -/
def takeBreak (c : Cursor) : List Char × Cursor :=
  let next (text rest : List Char) (passed : Nat) : List Char × Cursor :=
    (text, ⟨rest, c.index + passed, c.line + 1, 0⟩)
  match c.rest with
  | '\r' :: '\n' :: rest => next ['\n'] rest 2
  | x :: rest =>
    if x = '\u2028' ∨ x = '\u2029' then next [x] rest 1
    else if isBreak x then next ['\n'] rest 1
    else ([], c)
  | [] => ([], c)

/-- Moves over blanks and a comment to the end of the line, if nothing else is there. -/
def skipRestOfLine? (c : Cursor) : Option Cursor :=
  let c := c.skipWhile isBlank
  let c := if c.sees '#' then c.skipWhile fun x => !isBreak x else c
  if endsLine c.peek then some c.takeBreak.2 else none

/-- Whether a line of three marks stands here, as around documents. -/
def atDocumentMark (c : Cursor) (mark : Char) : Bool :=
  c.column == 0 && c.rest.take 3 == [mark, mark, mark] && endsWord (c.peekAt 3)

/-- Whether a document begins or ends here. -/
def atDocumentBoundary (c : Cursor) : Bool :=
  c.atDocumentMark '-' || c.atDocumentMark '.'

end Cursor

end LayeredConfig.Yaml
