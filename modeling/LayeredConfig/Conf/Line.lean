import LayeredConfig.Text.Blank
import LayeredConfig.Text.Lines

/-! # Lines of assignment files

    An assignment file has one assignment to a line. Blank lines and lines that begin
    with a hash sign say nothing. A line may begin with the word `export`, which does
    not change what it says. With continuations, a line that begins with a space or a
    tab belongs to the line before it: the two are one logical line, with a line feed
    between them in place of the indentation.
-/

namespace LayeredConfig.Conf

/-! ## Logical lines -/

/-- Whether a line continues the one before it. -/
def isContinuation : List Char → Bool
  | c :: _ => c == ' ' || c == '\t'
  | [] => false

/-- The logical lines of `current` and the lines behind it. -/
def foldFrom (current : List Char) : List (List Char) → List (List Char)
  | [] => [current]
  | line :: rest =>
    if isContinuation line then foldFrom (current ++ '\n' :: Text.trimStart line) rest
    else current :: foldFrom line rest

/-- Joins continuations to the lines they continue. The first line continues none. -/
def foldLines : List (List Char) → List (List Char)
  | [] => []
  | line :: rest => foldFrom line rest

/-- The logical lines of a text. -/
def logicalLines (continuations : Bool) (cs : List Char) : List (List Char) :=
  if continuations then foldLines (Text.lines cs) else Text.lines cs

/-! ## Parts of a line -/

/-- Whether a line without blanks around it says nothing. -/
def isSilent : List Char → Bool
  | [] => true
  | c :: _ => c == '#'

/-- The word that may stand before an assignment. -/
def exportWord : List Char := ['e', 'x', 'p', 'o', 'r', 't']

/-- Takes the export word off a line, and tells whether it was there. A space or a
    tab has to follow it. -/
def takeExport (line : List Char) : Bool × List Char :=
  match exportWord.isPrefixOf? line with
  | some rest => if isContinuation rest then (true, Text.trimStart rest) else (false, line)
  | none => (false, line)

/-- The parts of an assignment line as they are written: whether it is exported, the
    key, and the value. -/
structure Parts where
  exported : Bool
  key : List Char
  value : List Char
  deriving DecidableEq, Repr

/-- The parts of a line, if it is an assignment. -/
def parts? (separator : Char) (line : List Char) : Option Parts :=
  let line := Text.trim line
  if isSilent line then none
  else
    let (exported, rest) := takeExport line
    (Text.cutAt separator rest).map fun (key, value) => ⟨exported, key, value⟩

/-! ## The append mark -/

/-- The mark behind a key that appends to a list. -/
def appendMark : List Char := ['[', ']']

/-- Takes the append mark off a key, and tells whether it was there. -/
def takeAppendMark (key : List Char) : List Char × Bool :=
  match Text.dropSuffix? appendMark key with
  | some stripped => (stripped, true)
  | none => (key, false)

end LayeredConfig.Conf
