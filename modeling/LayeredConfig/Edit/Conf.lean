import LayeredConfig.Conf.Line
import LayeredConfig.Json.Printer
import LayeredConfig.Scalar.Typing
import LayeredConfig.Text.LowerCase

/-! # Editing assignment files

    Edits are values by key, where the case of a key does not count and a null edits
    nothing. The first line that assigns an edited key is replaced by lines that
    assign the new value, every later one is dropped, and keys that no line assigns
    are added at the end. All other lines stay as they are. Here a line is a line of
    the file, whether or not it continues the one before it.

    A list is written as one append line for each item. A text is written so that it
    is read back as the same text: bare where it would not be taken for anything
    else, and otherwise in quotes.
-/

namespace LayeredConfig.Edit.Conf

open LayeredConfig.Conf

/-! ## Writing values -/

/-- Whether a character may stand in a bare text. -/
def isBareChar (c : Char) : Bool :=
  c.isAlphanum || ['_', '-', '.', '/', ':', '@', '+', ','].contains c

/-- Whether a text can be written without quotes. -/
def isBare (cs : List Char) : Bool :=
  !cs.isEmpty && cs.all isBareChar && (Scalar.typed cs).isString

/-- A text as it is written: in single quotes where it holds what double quotes would
    not keep, unless it holds a single quote itself. -/
def quoted (cs : List Char) : List Char :=
  if isBare cs then cs
  else if (cs.contains '$' || cs.contains '"') && !cs.contains '\'' then '\'' :: cs ++ ['\'']
  else '"' :: cs ++ ['"']

/-- A value as it is written on one line. -/
def scalarText : Value → List Char
  | .string s => quoted s.toList
  | .array items => '\'' :: Json.compact (.array items) ++ ['\'']
  | .object fields => '\'' :: Json.compact (.object fields) ++ ['\'']
  | v => Json.compact v

/-- The lines that assign a value to a key. -/
def assignmentLines (separator : Char) (exported : Bool) (key : List Char) (v : Value) :
    List (List Char) :=
  let start := if exported then exportWord ++ ' ' :: key else key
  match v with
  | .array items => items.map fun item => start ++ appendMark ++ separator :: scalarText item
  | v => [start ++ separator :: scalarText v]

/-! ## Editing -/

/-- An edit: the key as it was given and in lower case, and the new value. -/
structure Change where
  folded : String
  key : String
  value : Value
  deriving DecidableEq, Repr

/-- The edits of an object. -/
def changes (edits : Entries Value) : List Change :=
  (edits.filter fun (_, v) => !v.isNull).map fun (key, v) => ⟨Text.lower key, key, v⟩

/-- The key that a line assigns, without its append mark, and whether the line is
    exported. -/
def assigned? (separator : Char) (line : List Char) : Option (Bool × List Char) :=
  (parts? separator line).map fun parts =>
    (parts.exported, (takeAppendMark (Text.trim parts.key)).1)

/-- The edit that concerns a line, with the key as the line has it. -/
def changeFor? (separator : Char) (all : List Change) (line : List Char) :
    Option (Bool × List Char × Change) := do
  let (exported, key) ← assigned? separator line
  let change ← all.find? fun change => change.folded == Text.lower (String.ofList key)
  return (exported, key, change)

/-- The edited lines, where the keys in `written` have been dealt with, and all keys
    that have been dealt with at the end. -/
def editLines (separator : Char) (all : List Change) (written : List String) :
    List (List Char) → List (List Char) × List String
  | [] => ([], written)
  | line :: rest =>
    match changeFor? separator all line with
    | none =>
      let (lines, written) := editLines separator all written rest
      (line :: lines, written)
    | some (exported, key, change) =>
      if written.contains change.folded then editLines separator all written rest
      else
        -- The key stays as this line spells it.
        let (lines, written) := editLines separator all (change.folded :: written) rest
        (assignmentLines separator exported key change.value ++ lines, written)

/-- Lines as a text; every line ends in a line feed, but no lines and a single empty
    one are the empty text. -/
def unlines (lines : List (List Char)) : List Char :=
  let joined := Text.join ['\n'] lines
  if joined.isEmpty then [] else joined ++ ['\n']

/-- The text with the edits carried out. -/
def edit (separator : Char) (content : List Char) (edits : Entries Value) : List Char :=
  let all := changes edits
  let (lines, written) := editLines separator all [] (Text.lines content)
  let added := (all.filter fun change => !written.contains change.folded).flatMap fun change =>
    assignmentLines separator false change.key.toList change.value
  unlines (lines ++ added)

end LayeredConfig.Edit.Conf
