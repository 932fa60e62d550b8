import LayeredConfig.Text.Utf8
import LayeredConfig.Yaml.ScalarText

/-! # Tokens of a YAML text

    A YAML text is a sequence of tokens in which indentation has become explicit:
    a list or mapping of lines has a token at its start and one at its end. A
    mapping key needs no mark of its own, so a place where one may have begun is
    remembered as a `Candidate`, and its tokens are put in afterwards, when the
    colon behind it is met. A key without a mark stays on one line and within
    1024 characters.
-/

namespace LayeredConfig.Yaml

/-! ## Tokens -/

/-- A tag as it is written: a handle that abbreviates a beginning, and the rest,
    as bytes, since it may be written with escapes. -/
structure TagText where
  handle : List Char
  suffix : List UInt8
  deriving DecidableEq, Repr

/-- A token. -/
inductive Token where
  | version (major minor : Nat)
  | tagDirective (handle : List Char) (beginning : List UInt8)
  | documentStart
  | documentEnd
  | blockSequence
  | blockMapping
  | blockEnd
  | flowSequence
  | flowSequenceEnd
  | flowMapping
  | flowMappingEnd
  | entry
  | comma
  | key
  | value
  | alias (name : List Char)
  | anchor (name : List Char)
  | tag (t : TagText)
  /-- A scalar; `plain` says that it was written without quotes and not as a block. -/
  | scalar (text : List Char) (plain : Bool)
  deriving DecidableEq, Repr

/-! ## Directives, anchors and tags -/

/-- Takes a number of at most nine digits. -/
def versionNumber? (c : Cursor) : Option (Nat × Cursor) :=
  let (digits, c) := c.takeWhile Char.isDigit
  if digits.isEmpty || 9 < digits.length then none else some (Decimal.natOfDigits digits, c)

/-- Takes a tag handle: an exclamation mark, or a name between two. In a directive
    the second mark of a name must not be missing. -/
def tagHandle? (directive : Bool) (c : Cursor) : Option (List Char × Cursor) :=
  if !c.sees '!' then none
  else
    let (name, c) := (c.skip 1).takeWhile isName
    if c.sees '!' then some ('!' :: name ++ ['!'], c.skip 1)
    else if directive && !name.isEmpty then none
    else some ('!' :: name, c)

/-- Takes one escaped byte. -/
def escapedByte? : List Char → Option (Nat × List Char)
  | '%' :: a :: b :: rest => do
    return ((← Json.hexValue? a) * 16 + (← Json.hexValue? b), rest)
  | _ => none

/-- Takes `n` escaped bytes that continue a character. -/
def continuationBytes? : Nat → List Char → Option (List UInt8 × List Char)
  | 0, cs => some ([], cs)
  | n + 1, cs => do
    let (byte, rest) ← escapedByte? cs
    if byte / 64 = 2 then
      let (more, rest) ← continuationBytes? n rest
      return (UInt8.ofNat byte :: more, rest)
    else none

/-- Takes the escaped bytes of one character. -/
def escapedChar? (cs : List Char) : Option (List UInt8 × List Char) := do
  let (lead, rest) ← escapedByte? cs
  let following ←
    if lead < 0x80 then some 0
    else if lead / 32 = 6 then some 1
    else if lead / 16 = 14 then some 2
    else if lead / 8 = 30 then some 3
    else none
  let (more, rest) ← continuationBytes? following rest
  return (UInt8.ofNat lead :: more, rest)

/-- The characters that a tag may hold besides escapes; between angle brackets and
    in directives also those that structure lists. -/
def isTagChar (delimited : Bool) (c : Char) : Bool :=
  isName c ||
  [';', '/', '?', ':', '@', '&', '=', '+', '$', '.', '!', '~', '*', '\'', '(', ')'].contains c ||
  (delimited && [',', '[', ']'].contains c)

/-- Takes the characters of a tag. -/
def tagChars? (delimited : Bool) : Nat → List Char → Option (List UInt8 × List Char)
  | 0, cs => some ([], cs)
  | fuel + 1, cs =>
    match cs with
    | [] => some ([], [])
    | c :: rest =>
      if c = '%' then do
        let (bytes, rest) ← escapedChar? (c :: rest)
        let (more, rest) ← tagChars? delimited fuel rest
        return (bytes ++ more, rest)
      else if isTagChar delimited c then do
        let (more, rest) ← tagChars? delimited fuel rest
        return (UInt8.ofNat c.toNat :: more, rest)
      else some ([], c :: rest)

/-- Takes the characters of a tag behind the cursor. -/
def tagText? (delimited : Bool) (c : Cursor) : Option (List UInt8 × Cursor) := do
  let (bytes, rest) ← tagChars? delimited c.rest.length c.rest
  return (bytes, c.moveTo rest)

/-- ASCII characters as bytes. -/
def asciiBytes (cs : List Char) : List UInt8 :=
  cs.map fun c => UInt8.ofNat c.toNat

/-- Takes a directive, beginning at its percent sign. -/
def directive? (c : Cursor) : Option (Token × Cursor) := do
  let (name, c) := (c.skip 1).takeWhile isName
  if name.isEmpty || !endsWord c.peek then none
  let c := c.skipWhile isBlank
  if name = ['Y', 'A', 'M', 'L'] then
    let (major, c) ← versionNumber? c
    if !c.sees '.' then none
    let (minor, c) ← versionNumber? (c.skip 1)
    return (.version major minor, ← c.skipRestOfLine?)
  else if name = ['T', 'A', 'G'] then
    let (handle, c) ← tagHandle? true c
    if !c.peek.any isBlank then none
    let (beginning, c) ← tagText? true (c.skipWhile isBlank)
    if beginning.isEmpty || !endsWord c.peek then none
    return (.tagDirective handle beginning, ← c.skipRestOfLine?)
  else none

/-- Takes the name of an anchor or alias, behind its mark. -/
def anchorName? (c : Cursor) : Option (List Char × Cursor) :=
  let (name, c) := c.takeWhile isName
  let closed :=
    endsWord c.peek || c.peek.any (['?', ':', ',', ']', '}', '%', '@', '\x60'].contains ·)
  if name.isEmpty || !closed then none else some (name, c)

/-- Takes a tag without what must follow it. -/
def tagBody? (c : Cursor) : Option (TagText × Cursor) := do
  if c.peekAt 1 == some '<' then
    let (suffix, c) ← tagText? true (c.skip 2)
    if suffix.isEmpty || !c.sees '>' then none
    return (⟨[], suffix⟩, c.skip 1)
  else
    let (handle, c) ← tagHandle? false c
    if 2 ≤ handle.length ∧ handle.getLast? = some '!' then
      let (suffix, c) ← tagText? false c
      if suffix.isEmpty then none
      return (⟨handle, suffix⟩, c)
    else
      -- There is no second mark, so what looked like a name is part of the tag.
      let (more, c) ← tagText? false c
      let suffix := asciiBytes (handle.drop 1) ++ more
      return (if suffix.isEmpty then ⟨[], asciiBytes ['!']⟩ else ⟨['!'], suffix⟩, c)

/-- Takes a tag, beginning at its exclamation mark. -/
def tag? (inFlow : Bool) (c : Cursor) : Option (TagText × Cursor) := do
  let (t, c) ← tagBody? c
  if endsWord c.peek || (inFlow && c.sees ',') then return (t, c) else none

/-! ## The state of the reading -/

/-- A place where a key without a mark may have begun: how many tokens came before
    it, and where it is. A required one must turn out to be a key. -/
structure Candidate where
  tokensBefore : Nat
  required : Bool
  index : Nat
  line : Nat
  column : Nat
  deriving DecidableEq, Repr

/-- The state of reading tokens. -/
structure Scan where
  cursor : Cursor
  /-- The tokens read, the last one first. -/
  tokens : List Token
  /-- The column of the innermost list or mapping of lines, -1 outside of all. -/
  indent : Int
  /-- The columns around `indent`, the innermost first. -/
  outer : List Int
  /-- Whether a key without a mark may begin here. -/
  keyAllowed : Bool
  /-- The candidate for a key outside of all brackets. -/
  candidate : Option Candidate
  /-- The candidates within the open brackets, the innermost first. -/
  nested : List (Option Candidate)
  deriving DecidableEq, Repr

namespace Scan

/-- The state at the start of a text. -/
def start (cs : List Char) : Scan :=
  ⟨.start cs, [], -1, [], true, none, []⟩

/-- Whether a bracket is open. -/
def inFlow (s : Scan) : Bool := !s.nested.isEmpty

/-- Adds a token behind the others. -/
def push (s : Scan) (t : Token) : Scan := { s with tokens := t :: s.tokens }

/-- Adds a token behind the first `n` tokens. -/
def insertAfter (s : Scan) (n : Nat) (t : Token) : Scan :=
  let later := s.tokens.take (s.tokens.length - n)
  { s with tokens := later ++ t :: s.tokens.drop (s.tokens.length - n) }

/-- The innermost candidate. -/
def innermost (s : Scan) : Option Candidate :=
  match s.nested with
  | [] => s.candidate
  | inner :: _ => inner

/-- Replaces the innermost candidate. -/
def setInnermost (s : Scan) (k : Option Candidate) : Scan :=
  match s.nested with
  | [] => { s with candidate := k }
  | _ :: rest => { s with nested := k :: rest }

/-- Gives up the innermost candidate, which must not be a required one. -/
def dropCandidate? (s : Scan) : Option Scan :=
  if s.innermost.any (·.required) then none else some (s.setInnermost none)

/-- Notes that a key without a mark may begin here. -/
def noteCandidate? (s : Scan) : Option Scan :=
  if s.keyAllowed then do
    let s ← s.dropCandidate?
    -- At the column of an open list or mapping only a key can begin.
    let required := !s.inFlow && s.indent == s.cursor.column
    return s.setInnermost
      (some ⟨s.tokens.length, required, s.cursor.index, s.cursor.line, s.cursor.column⟩)
  else some s

/-- Whether a candidate can no longer become a key. -/
def isStale (c : Cursor) (k : Candidate) : Bool :=
  k.line < c.line || k.index + 1024 < c.index

/-- Drops a candidate that can no longer become a key; refuses if it has to. -/
def refresh? (c : Cursor) : Option Candidate → Option (Option Candidate)
  | none => some none
  | some k => if isStale c k then if k.required then none else some none else some (some k)

/-- Drops all candidates that can no longer become keys. -/
def refreshAll? (s : Scan) : Option Scan := do
  let candidate ← refresh? s.cursor s.candidate
  let nested ← s.nested.mapM (refresh? s.cursor)
  return { s with candidate, nested }

/-- Opens a list or mapping of lines at a column, unless one is open there already
    or a bracket is open. Its token goes behind the first `place` tokens. -/
def openAt (s : Scan) (column : Nat) (place : Nat) (t : Token) : Scan :=
  if !s.inFlow && s.indent < column then
    { s.insertAfter place t with indent := column, outer := s.indent :: s.outer }
  else s

/-- Closes columns from the innermost outwards while they are right of `column`. -/
def closeColumns (column : Int) : Int → List Int → List Token → Int × List Int × List Token
  | indent, [], tokens => (indent, [], tokens)
  | indent, next :: rest, tokens =>
    if column < indent then closeColumns column next rest (.blockEnd :: tokens)
    else (indent, next :: rest, tokens)

/-- Closes the lists and mappings of lines that are right of `column`, unless a
    bracket is open. -/
def closeTo (s : Scan) (column : Int) : Scan :=
  if s.inFlow then s
  else
    let (indent, outer, tokens) := closeColumns column s.indent s.outer s.tokens
    { s with indent, outer, tokens }

/-- Moves on to the next token, over blanks, comments and line breaks. A tab is no
    blank where a key may begin outside of brackets. -/
def toNextToken (s : Scan) : Nat → Scan
  | 0 => s
  | fuel + 1 =>
    -- A byte order mark may stand at the beginning of a line, and takes up a column.
    let c := if s.cursor.column == 0 && s.cursor.sees '\uFEFF' then s.cursor.skip 1 else s.cursor
    let c := c.skipWhile fun x => x == ' ' || (x == '\t' && (s.inFlow || !s.keyAllowed))
    let c := if c.sees '#' then c.skipWhile fun x => !isBreak x else c
    if c.peek.any isBreak then
      toNextToken { s with cursor := c.takeBreak.2, keyAllowed := s.keyAllowed || !s.inFlow } fuel
    else { s with cursor := c }

/-- Adds the token of a mark of `n` characters. -/
def take (s : Scan) (n : Nat) (t : Token) : Scan :=
  { s.push t with cursor := s.cursor.skip n }

/-! ## One token -/

/-- A directive. -/
def directiveToken? (s : Scan) : Option Scan := do
  let s ← (s.closeTo (-1)).dropCandidate?
  let (t, cursor) ← directive? s.cursor
  return { s.push t with cursor, keyAllowed := false }

/-- A mark between documents. -/
def documentToken? (s : Scan) (t : Token) : Option Scan := do
  let s ← (s.closeTo (-1)).dropCandidate?
  return { s.take 3 t with keyAllowed := false }

/-- An opening bracket. -/
def openBracket? (s : Scan) (t : Token) : Option Scan := do
  let s ← s.noteCandidate?
  return { s.take 1 t with nested := none :: s.nested, keyAllowed := true }

/-- A closing bracket. -/
def closeBracket? (s : Scan) (t : Token) : Option Scan := do
  let s ← s.dropCandidate?
  return { s.take 1 t with nested := s.nested.tail, keyAllowed := false }

/-- A comma. -/
def comma? (s : Scan) : Option Scan := do
  let s ← s.dropCandidate?
  return { s.take 1 .comma with keyAllowed := true }

/-- Opens a list or mapping at the cursor, where its entry or key has a mark. -/
def openHere? (s : Scan) (t : Token) : Option Scan :=
  if s.inFlow then some s
  else if s.keyAllowed then some (s.openAt s.cursor.column s.tokens.length t)
  else none

/-- The mark of a list entry. -/
def entry? (s : Scan) : Option Scan := do
  let s ← (← s.openHere? .blockSequence).dropCandidate?
  return { s.take 1 .entry with keyAllowed := true }

/-- The mark of a key. -/
def key? (s : Scan) : Option Scan := do
  let s ← (← s.openHere? .blockMapping).dropCandidate?
  return { s.take 1 .key with keyAllowed := !s.inFlow }

/-- The mark of a value. If there is a candidate, it is a key after all. -/
def value? (s : Scan) : Option Scan :=
  match s.innermost with
  | some k =>
    -- The mark of the key goes in front of its tokens, and the start of the mapping
    -- in front of the mark.
    let s := s.insertAfter k.tokensBefore .key
    let s := (s.openAt k.column k.tokensBefore .blockMapping).setInnermost none
    some { s.take 1 .value with keyAllowed := false }
  | none => do
    let s ← s.openHere? .blockMapping
    return { s.take 1 .value with keyAllowed := !s.inFlow }

/-- An anchor or alias. -/
def anchor? (s : Scan) (t : List Char → Token) : Option Scan := do
  let s ← s.noteCandidate?
  let (name, cursor) ← anchorName? (s.cursor.skip 1)
  return { s.push (t name) with cursor, keyAllowed := false }

/-- A tag. -/
def tagToken? (s : Scan) : Option Scan := do
  let s ← s.noteCandidate?
  let (t, cursor) ← tag? s.inFlow s.cursor
  return { s.push (.tag t) with cursor, keyAllowed := false }

/-- A block scalar. -/
def blockScalar? (s : Scan) (literal : Bool) : Option Scan := do
  let s ← s.dropCandidate?
  let (text, cursor) ← block? literal s.indent s.cursor
  return { s.push (.scalar text false) with cursor, keyAllowed := true }

/-- A quoted scalar. -/
def quotedScalar? (s : Scan) (quote : Char) : Option Scan := do
  let s ← s.noteCandidate?
  let (text, cursor) ← quoted? quote s.cursor
  return { s.push (.scalar text false) with cursor, keyAllowed := false }

/-- A plain scalar. -/
def plainScalar? (s : Scan) : Option Scan := do
  let s ← s.noteCandidate?
  let (text, brokeLine, cursor) ← plain? s.inFlow (s.indent + 1).toNat s.cursor
  return { s.push (.scalar text true) with cursor, keyAllowed := brokeLine }

/-- Whether a plain scalar may begin with a character, given the one behind it. -/
def beginsPlain (inFlow : Bool) (c : Char) (next : Option Char) : Bool :=
  if c == '-' then !next.any isBlank
  else if c == '?' || c == ':' then !inFlow && !endsWord next
  else !isGap c && !isFlowIndicator c &&
    !(['#', '&', '*', '!', '|', '>', '\'', '"', '%', '@', '\x60'].contains c)

/-- Reads the token at the cursor, which stands at a character. -/
def token? (s : Scan) (c : Char) : Option Scan :=
  let next := s.cursor.peekAt 1
  if s.cursor.column = 0 ∧ c = '%' then s.directiveToken?
  else if s.cursor.atDocumentMark '-' then s.documentToken? .documentStart
  else if s.cursor.atDocumentMark '.' then s.documentToken? .documentEnd
  else if c = '[' then s.openBracket? .flowSequence
  else if c = '{' then s.openBracket? .flowMapping
  else if c = ']' then s.closeBracket? .flowSequenceEnd
  else if c = '}' then s.closeBracket? .flowMappingEnd
  else if c = ',' then s.comma?
  else if c = '-' ∧ endsWord next then s.entry?
  else if c = '?' ∧ (s.inFlow ∨ endsWord next) then s.key?
  else if c = ':' ∧ (s.inFlow ∨ endsWord next) then s.value?
  else if c = '*' then s.anchor? .alias
  else if c = '&' then s.anchor? .anchor
  else if c = '!' then s.tagToken?
  else if c = '|' ∧ !s.inFlow then s.blockScalar? true
  else if c = '>' ∧ !s.inFlow then s.blockScalar? false
  else if c = '\'' ∨ c = '"' then s.quotedScalar? c
  else if beginsPlain s.inFlow c next then s.plainScalar?
  else none

/-- Reads all tokens from here on. -/
def finish? (s : Scan) : Nat → Option (List Token)
  | 0 => none
  | fuel + 1 => do
    let s := s.toNextToken (s.cursor.rest.length + 1)
    let s ← s.refreshAll?
    match s.cursor.peek with
    | none =>
      -- A bracket that is open stays open, and no node is made of its tokens.
      let s ← (s.closeTo (-1)).dropCandidate?
      return s.tokens.reverse
    | some c => finish? (← (s.closeTo s.cursor.column).token? c) fuel

end Scan

/-- The tokens of a YAML text, or `none` if it is not made of tokens. -/
def tokens? (cs : List Char) : Option (List Token) :=
  if cs.all isAllowed then (Scan.start cs).finish? (cs.length + 1) else none

end LayeredConfig.Yaml
