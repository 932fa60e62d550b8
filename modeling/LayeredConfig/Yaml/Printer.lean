import LayeredConfig.Value
import LayeredConfig.Yaml.Cursor
import LayeredConfig.Yaml.Schema

/-! # Writing YAML

    Values are written as YAML in lines: a member or an item to a line, indented
    by two spaces a level, except that a list stands at the column of the mapping
    it belongs to. Empty lists and objects are written in brackets.

    A text is written plainly where it then reads back as itself, between single
    quotes where it would read back as something else, as a block where it has
    line feeds, and between double quotes where it holds characters that only
    escapes can express. A key that is too long for one line, or has a line break,
    is marked as a key.
-/

namespace LayeredConfig.Yaml

/-! ## The shape of a text -/

/-- Whether a character can be written without an escape. -/
def isPrintable (c : Char) : Bool :=
  c == '\n' || (' ' ≤ c && c ≤ '~') ||
  ('\u00a0' ≤ c && c ≤ '\uFFFD' && c != '\uFEFF') || 0x10000 ≤ c.toNat

/-- The characters that mean something at the beginning of a scalar. -/
def isIndicator (c : Char) : Bool :=
  ['#', ',', '[', ']', '{', '}', '&', '*', '!', '|', '>', '\'', '"', '%', '@', '\x60'].contains c

/-- Whether a plain text would mean something else because of a character at its
    beginning. -/
def misleadsAtStart : List Char → Bool
  | [] => false
  | c :: rest =>
    isIndicator c || (['?', ':', '-'].contains c && endsWord rest.head?) ||
    (c :: rest).take 3 == ['-', '-', '-'] || (c :: rest).take 3 == ['.', '.', '.']

/-- Whether a plain text would mean something else because of a colon at the end
    of a word or a number sign at the beginning of one; `before` is the character
    in front. -/
def misleadsWithin (before : Char) : List Char → Bool
  | [] => false
  | c :: rest =>
    (c == ':' && endsWord rest.head?) || (c == '#' && isGap before) || misleadsWithin c rest

/-- Whether two neighbouring characters are of two given kinds. -/
def hasNeighbours (p q : Char → Bool) : List Char → Bool
  | a :: b :: rest => (p a && q b) || hasNeighbours p q (b :: rest)
  | _ => false

/-- The only blank that a text keeps at its ends or beside a line break. -/
def isSpace (c : Char) : Bool := c == ' '

/-- Whether a text can be written plainly outside of brackets. -/
def allowsPlain : List Char → Bool
  | [] => true
  | c :: rest =>
    let cs := c :: rest
    cs.all isPrintable && !cs.any isBreak && !isSpace c && !cs.getLast?.any isSpace &&
    !misleadsAtStart cs && !misleadsWithin c rest

/-- Whether a text can be written between single quotes. -/
def allowsSingle (cs : List Char) : Bool :=
  cs.all isPrintable && !hasNeighbours isBreak isSpace cs && !hasNeighbours isSpace isBreak cs

/-- Whether a text can be written as a block. -/
def allowsBlock (cs : List Char) : Bool :=
  !cs.isEmpty && cs.all isPrintable && !cs.getLast?.any isSpace &&
  !hasNeighbours isSpace isBreak cs

/-- The ways to write a text. -/
inductive Style where
  | plain
  | single
  | double
  | literal
  deriving DecidableEq, Repr

/-- Whether a text has to be quoted so as not to be read as something else. -/
def needsQuotes (cs : List Char) : Bool :=
  meaning cs != .text || hasNeedlessZero cs

/-- The way to write a text. -/
def styleOf (cs : List Char) : Style :=
  if cs.contains '\n' then if allowsBlock cs then .literal else .double
  else if !needsQuotes cs && allowsPlain cs then .plain
  else if allowsSingle cs then .single
  else .double

/-! ## The page -/

/-- The page as it is being written: the characters, the last one first, the
    column, whether the last thing written was blank, and whether only
    indentation and marks have been written on this line. -/
structure Page where
  written : List Char
  column : Nat
  blank : Bool
  indenting : Bool
  deriving DecidableEq, Repr

namespace Page

/-- The empty page. -/
def start : Page := ⟨[], 0, true, true⟩

/-- Writes a character. -/
def put (p : Page) (c : Char) : Page :=
  { p with written := c :: p.written, column := p.column + 1 }

/-- Writes characters without a line break among them. -/
def puts (p : Page) (cs : List Char) : Page :=
  { p with written := cs.reverse ++ p.written, column := p.column + cs.length }

/-- Writes a line break. -/
def putBreak (p : Page) (c : Char) : Page :=
  { p with written := c :: p.written, column := 0 }

/-- Begins a line at an indentation, unless the page is there already. -/
def indentTo (p : Page) (indent : Nat) : Page :=
  let fresh := p.indenting && (p.column < indent || (p.column == indent && p.blank))
  let p := if fresh then p else p.putBreak '\n'
  { p.puts (List.replicate (indent - p.column) ' ') with blank := true, indenting := true }

/-- Writes a mark. `spaced` asks for a blank before it; `blank` says whether it
    counts as a blank itself, and `indenting` whether as indentation. -/
def mark (p : Page) (cs : List Char) (spaced blank indenting : Bool) : Page :=
  let p := if spaced && !p.blank then p.put ' ' else p
  { p.puts cs with blank, indenting := p.indenting && indenting }

/-- Ends a scalar. -/
def endScalar (p : Page) : Page := { p with blank := false, indenting := false }

/-! ## Scalars -/

/-- Writes a plain text. -/
def plain (p : Page) (cs : List Char) : Page :=
  let p := if p.blank || cs.isEmpty then p else p.put ' '
  (p.puts cs).endScalar

/-- Writes the characters of a text between single quotes. `afterBreak` says that
    a line break comes before. -/
def singleBody (indent : Nat) (p : Page) (afterBreak : Bool) : List Char → Page
  | [] => if afterBreak then p.indentTo indent else p
  | c :: rest =>
    if isSpace c then singleBody indent (p.put c) afterBreak rest
    else if isBreak c then
      -- Of several breaks the first is dropped in reading, so it is written twice.
      let p := if !afterBreak && c == '\n' then p.putBreak '\n' else p
      singleBody indent { p.putBreak c with indenting := true } true rest
    else
      let p := if afterBreak then p.indentTo indent else p
      let p := if c = '\'' then p.put '\'' else p
      singleBody indent { p.put c with indenting := false } false rest

/-- Writes a text between single quotes. -/
def single (indent : Nat) (p : Page) (cs : List Char) : Page :=
  let p := singleBody indent (p.mark ['\''] true false false) false cs
  (p.mark ['\''] false false false).endScalar

/-- A hexadecimal digit, in upper case. -/
def hexDigit (n : Nat) : Char :=
  if n < 10 then Char.ofNat ('0'.toNat + n) else Char.ofNat ('A'.toNat + n - 10)

/-- A number in hexadecimal with a fixed count of digits. -/
def hexDigits (n : Nat) : Nat → List Char
  | 0 => []
  | count + 1 => hexDigits (n / 16) count ++ [hexDigit (n % 16)]

/-- The escape of a character. -/
def escapeOf (c : Char) : List Char :=
  let letter : Option Char :=
    match c.toNat with
    | 0x00 => some '0'
    | 0x07 => some 'a'
    | 0x08 => some 'b'
    | 0x09 => some 't'
    | 0x0A => some 'n'
    | 0x0B => some 'v'
    | 0x0C => some 'f'
    | 0x0D => some 'r'
    | 0x1B => some 'e'
    | 0x22 => some '"'
    | 0x5C => some '\\'
    | 0x85 => some 'N'
    | 0xA0 => some '_'
    | 0x2028 => some 'L'
    | 0x2029 => some 'P'
    | _ => none
  match letter with
  | some l => ['\\', l]
  | none =>
    if c.toNat ≤ 0xFF then '\\' :: 'x' :: hexDigits c.toNat 2
    else if c.toNat ≤ 0xFFFF then '\\' :: 'u' :: hexDigits c.toNat 4
    else '\\' :: 'U' :: hexDigits c.toNat 8

/-- Writes a text between double quotes. -/
def double (p : Page) (cs : List Char) : Page :=
  let body := cs.flatMap fun c =>
    if !isPrintable c || isBreak c || c == '"' || c == '\\' then escapeOf c else [c]
  let p := (p.mark ['"'] true false false).puts body
  (p.mark ['"'] false false false).endScalar

/-- The marks behind the bar of a block: the indentation where the text begins
    with a space or a line break, and what becomes of the breaks at its end. -/
def blockHints (cs : List Char) : List Char :=
  let opening := if cs.head?.any fun c => isSpace c || isBreak c then ['2'] else []
  let closing :=
    match cs.reverse with
    | [] => ['-']
    | last :: rest =>
      if !isBreak last then ['-']
      else if rest.head?.all isBreak then ['+']
      else []
  opening ++ closing

/-- Writes the lines of a block. -/
def blockBody (indent : Nat) (p : Page) (afterBreak : Bool) : List Char → Page
  | [] => p
  | c :: rest =>
    if isBreak c then blockBody indent { p.putBreak c with indenting := true } true rest
    else
      let p := if afterBreak then p.indentTo indent else p
      blockBody indent { p.put c with indenting := false } false rest

/-- Writes a text as a block. -/
def literal (indent : Nat) (p : Page) (cs : List Char) : Page :=
  let p := (p.mark ['|'] true false false).mark (blockHints cs) false false false
  blockBody indent { p.putBreak '\n' with blank := true, indenting := true } true cs

/-- Writes a text in a style. -/
def scalar (indent : Nat) (p : Page) (style : Style) (cs : List Char) : Page :=
  match style with
  | .plain => p.plain cs
  | .single => p.single indent cs
  | .double => p.double cs
  | .literal => p.literal indent cs

end Page

/-! ## Values -/

/-- Floating-point numbers are written as in other texts, but without a plus sign
    in the exponent. -/
def layout : Decimal.Layout := { Number.layout with signed := false }

/-- Whether a key is written without a mark: it has no line break and at most 128
    bytes. -/
def isSimpleKey (key : String) : Bool :=
  !key.toList.any isBreak && key.utf8ByteSize ≤ 128

/-- The column of what belongs to a column; -1 is outside of everything. -/
def inner (indent : Int) : Nat := if indent < 0 then 2 else indent.toNat + 2

/-- The column of a list or mapping of lines inside of a column. -/
def nested (indent : Int) : Int := if indent < 0 then 0 else indent + 2

mutual

/-- Writes a value that belongs to the column `indent`. `ofKey` says that it is the
    value of a mapping entry. -/
def writeValue (indent : Int) (ofKey : Bool) (p : Page) : Value → Page
  | .null => p.plain ['n', 'u', 'l', 'l']
  | .bool b => p.plain (if b then ['t', 'r', 'u', 'e'] else ['f', 'a', 'l', 's', 'e'])
  | .number n => p.plain (n.textIn layout)
  | .string s => p.scalar (inner indent) (styleOf s.toList) s.toList
  | .array [] => (p.mark ['['] true true false).mark [']'] false false false
  | .array items =>
    -- The list of a key stands at the column of the key.
    writeItems (if ofKey && !p.indenting && 0 ≤ indent then indent else nested indent) p items
  | .object [] => (p.mark ['{'] true true false).mark ['}'] false false false
  | .object fields => writeFields (nested indent) p fields

/-- Writes the items of a list, each on a line at the column `indent`. -/
def writeItems (indent : Int) (p : Page) : List Value → Page
  | [] => p
  | item :: rest =>
    let p := (p.indentTo indent.toNat).mark ['-'] true false true
    writeItems indent (writeValue indent false p item) rest

/-- Writes the members of an object, each on a line at the column `indent`. -/
def writeFields (indent : Int) (p : Page) : List (String × Value) → Page
  | [] => p
  | (key, value) :: rest =>
    let p := p.indentTo indent.toNat
    let text := key.toList
    let p :=
      if isSimpleKey key then
        (p.scalar (inner indent) (styleOf text) text).mark [':'] false false false
      else
        let p := p.mark ['?'] true false true
        let p := (p.scalar (inner indent) (styleOf text) text).indentTo indent.toNat
        p.mark [':'] true false true
    writeFields indent (writeValue indent true p value) rest

end

/-- The YAML text of a value. -/
def render (v : Value) : List Char :=
  ((writeValue (-1) false .start v).indentTo 0).written.reverse

end LayeredConfig.Yaml
