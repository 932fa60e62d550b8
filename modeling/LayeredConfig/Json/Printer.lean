import LayeredConfig.Value

/-! # Writing JSON

    Values are written as JSON in two forms: `compact` without any blanks, and
    `pretty` with one item to a line, indented by two spaces a level. Only what
    must be escaped is escaped: the quote, the backslash and the control
    characters below the space, the latter in the short form where there is one.
-/

namespace LayeredConfig.Json

/-! ## Texts -/

/-- A hexadecimal digit, in lower case. -/
def hexDigit (n : Nat) : Char :=
  if n < 10 then Char.ofNat ('0'.toNat + n) else Char.ofNat ('a'.toNat + n - 10)

/-- A character as it stands between quotes. -/
def escape (c : Char) : List Char :=
  match c with
  | '"' => ['\\', '"']
  | '\\' => ['\\', '\\']
  | '\x08' => ['\\', 'b']
  | '\x0c' => ['\\', 'f']
  | '\n' => ['\\', 'n']
  | '\r' => ['\\', 'r']
  | '\t' => ['\\', 't']
  | c =>
    if c.toNat < 0x20 then ['\\', 'u', '0', '0', hexDigit (c.toNat / 16), hexDigit (c.toNat % 16)]
    else [c]

/-- A text between quotes. -/
def quoted (s : String) : List Char :=
  '"' :: s.toList.flatMap escape ++ ['"']

/-- Joins written items with a comma and `gap` between each two. -/
def commaJoin (gap : List Char) : List (List Char) → List Char
  | [] => []
  | [item] => item
  | item :: rest => item ++ ',' :: gap ++ commaJoin gap rest

/-! ## The compact form -/

/-- The text of a truth value. -/
def boolText (b : Bool) : List Char :=
  if b then ['t', 'r', 'u', 'e'] else ['f', 'a', 'l', 's', 'e']

/-- The text of null. -/
def nullText : List Char := ['n', 'u', 'l', 'l']

mutual

/-- A value on one line without blanks. -/
def compact : Value → List Char
  | .null => nullText
  | .bool b => boolText b
  | .number n => n.text
  | .string s => quoted s
  | .array items => '[' :: commaJoin [] (compactItems items) ++ [']']
  | .object fields => '{' :: commaJoin [] (compactFields fields) ++ ['}']

/-- The items of a list, each in compact form. -/
def compactItems : List Value → List (List Char)
  | [] => []
  | item :: rest => compact item :: compactItems rest

/-- The members of an object, each in compact form. -/
def compactFields : List (String × Value) → List (List Char)
  | [] => []
  | (key, value) :: rest => (quoted key ++ ':' :: compact value) :: compactFields rest

end

/-! ## The pretty form -/

/-- A line break and the indentation of a level. -/
def lineAt (level : Nat) : List Char :=
  '\n' :: List.replicate (2 * level) ' '

/-- Written items between brackets, one to a line. -/
def block (opening closing : Char) (level : Nat) (items : List (List Char)) : List Char :=
  if items.isEmpty then [opening, closing]
  else opening :: lineAt (level + 1) ++ commaJoin (lineAt (level + 1)) items ++
    lineAt level ++ [closing]

mutual

/-- A value with its items on lines of their own, at an indentation level. -/
def prettyAt (level : Nat) : Value → List Char
  | .null => nullText
  | .bool b => boolText b
  | .number n => n.text
  | .string s => quoted s
  | .array items => block '[' ']' level (prettyItems (level + 1) items)
  | .object fields => block '{' '}' level (prettyFields (level + 1) fields)

/-- The items of a list, each in pretty form. -/
def prettyItems (level : Nat) : List Value → List (List Char)
  | [] => []
  | item :: rest => prettyAt level item :: prettyItems level rest

/-- The members of an object, each in pretty form. -/
def prettyFields (level : Nat) : List (String × Value) → List (List Char)
  | [] => []
  | (key, value) :: rest =>
    (quoted key ++ ':' :: ' ' :: prettyAt level value) :: prettyFields level rest

end

/-- A value with its items on lines of their own. -/
def pretty (v : Value) : List Char := prettyAt 0 v

end LayeredConfig.Json
