import LayeredConfig.Conf.Line
import LayeredConfig.Key.Namespace
import LayeredConfig.Options
import LayeredConfig.Reference.Expansion
import LayeredConfig.Scalar.Quotes
import LayeredConfig.Scalar.Typing
import LayeredConfig.Text.LowerCase

/-! # Assignments

    What a line of an assignment file says: a key, the text of its value, the quote
    character around it, and whether the value is appended to a list. The value
    itself depends on the store, through the references in the text. Single quotes
    keep references from being expanded; quotes of any kind keep the text from being
    typed.
-/

namespace LayeredConfig.Conf

/-- An assignment. -/
structure Assignment where
  key : String
  append : Bool
  text : List Char
  quote : Option Char
  deriving DecidableEq, Repr

namespace Assignment

/-- The quote character that keeps references from being expanded. -/
def literalQuote : Char := '\''

/-- The key that stands for an include. -/
def includeKey : String := "include"

/-- The assignment of a line, if it is one. -/
def ofLine? (o : Options) (line : List Char) : Option Assignment := do
  let parts ← parts? o.separator line
  let key := if o.trimKey then Text.trim parts.key else parts.key
  let value := if o.trimValue then Text.trim parts.value else parts.value
  let key := if o.lower then (Text.lower (String.ofList key)).toList else key
  let (key, append) := takeAppendMark key
  let (text, quote) := Scalar.unquote o.quotes value
  return ⟨String.ofList (rewriteNamespace key), append, text, quote⟩

/-- The text of the value, with its references expanded. -/
def expansion (o : Options) (store : Store) (a : Assignment) : Reference.Expansion :=
  if a.quote = some literalQuote then ⟨a.text, []⟩
  else Reference.expandShell store o.lower a.text

/-- The value, by the expanded text. -/
def valueOf (o : Options) (a : Assignment) (text : List Char) : Value :=
  if a.quote.isNone && o.autotype then Scalar.typed text else .string (String.ofList text)

/-- Whether the key stands for an include. -/
def isInclude (a : Assignment) : Bool :=
  a.key.toList.map Char.toLower == includeKey.toList

end Assignment

end LayeredConfig.Conf
