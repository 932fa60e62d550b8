import LayeredConfig.Value
import LayeredConfig.Yaml.Node
import LayeredConfig.Yaml.Schema

/-! # Reading YAML

    The value of a YAML text with at most one document. A text without a document
    denotes null. A key is the text of a scalar, however it is written; of two
    entries with one key the later one counts.

    Refused are tags of a document's own, integers beyond 64 bits, and texts that
    would grow without bound: more than 128 lists and mappings one inside the
    other, or more than a hundred uses of aliases for each event of the document.
-/

namespace LayeredConfig.Yaml

/-- The largest number of lists and mappings one inside the other. -/
def maxDepth : Nat := 128

/-! ## Scalars -/

/-- A tag of the standard types. -/
def standardTag (name : String) : Tag :=
  asciiBytes ("tag:yaml.org,2002:" ++ name).toList

/-- Whether a tag is one of the document's own: it begins with an exclamation mark. -/
def isLocal (tag : Option Tag) : Bool :=
  tag.any fun bytes => bytes.head? == some 0x21 && Text.isUtf8 bytes

/-- The value of an integer that fits 64 bits. -/
def intValue? (i : Int) : Option Value :=
  (Number.ofInt? i).map .number

/-- The value of a floating-point scalar; one that is not finite is null. -/
def floatValue : FloatScalar → Value
  | .finite x => .number (.float x)
  | .notFinite => .null

/-- The value of a scalar with a meaning. -/
def meaningValue? (text : List Char) : Meaning → Option Value
  | .null => some .null
  | .bool b => some (.bool b)
  | .int i => intValue? i
  | .float x => some (floatValue x)
  | .text => some (.string (String.ofList text))

/-- The value of a scalar. A standard tag asks for its type, and any other leaves
    a text as it is. -/
def scalarValue? (p : Properties) (text : List Char) (plain : Bool) : Option Value :=
  let asText : Value := .string (String.ofList text)
  match p.tag with
  | none => if plain then meaningValue? text (meaning text) else some asText
  | some tag =>
    if isLocal p.tag then none
    else if tag = standardTag "bool" then (bool? text).map .bool
    else if tag = standardTag "int" then (intScalar? text).bind intValue?
    else if tag = standardTag "float" then (float? text).map floatValue
    else if tag = standardTag "null" then if isNull text then some .null else none
    else if tag.head? = some 0x21 ∧ plain then meaningValue? text (meaning text)
    else some asText

/-! ## Nodes -/

/-- Counts one use of an alias, up to the limit of the document. -/
def useAlias? (numbering : Numbering) (uses : Nat) : Option Nat :=
  if uses < numbering.position * 100 then some (uses + 1) else none

/-- The text of a key. -/
def keyText? (numbering : Numbering) (uses : Nat) : Node Nat → Option (String × Nat)
  | .scalar _ text _ => some (String.ofList text, uses)
  | .alias number => do
    let uses ← useAlias? numbering uses
    match ← numbering.find? number with
    | .scalar _ text _ => return (String.ofList text, uses)
    | _ => none
  | _ => none

/-- Follows an alias. -/
def follow? (numbering : Numbering) (uses : Nat) : Node Nat → Option (Node Nat × Nat)
  | .alias number => do
    let uses ← useAlias? numbering uses
    return (← numbering.find? number, uses)
  | node => some (node, uses)

/-- The value of a node, where at most `depth` lists and mappings may be one inside
    the other and `uses` aliases have been used. -/
def nodeValue? (numbering : Numbering) : Nat → Node Nat → Nat → Option (Value × Nat)
  | depth, node, uses => do
    match ← follow? numbering uses node with
    | (.scalar p text plain, uses) => return (← scalarValue? p text plain, uses)
    | (.alias _, _) => none
    | (.sequence p items, uses) =>
      if isLocal p.tag then none
      else
        match depth with
        | 0 => none
        | depth + 1 =>
          let (items, uses) ← items.foldlM (fun (done, uses) item => do
            let (v, uses) ← nodeValue? numbering depth item uses
            return (v :: done, uses)) ([], uses)
          return (.array items.reverse, uses)
    | (.mapping p entries, uses) =>
      if isLocal p.tag then none
      else
        match depth with
        | 0 => none
        | depth + 1 =>
          let (fields, uses) ← entries.foldlM (fun (done, uses) (key, value) => do
            let (k, uses) ← keyText? numbering uses key
            let (v, uses) ← nodeValue? numbering depth value uses
            return (Entries.insert done k v, uses)) ([], uses)
          return (.object fields, uses)

/-- The value that a YAML text denotes, or `none` if the text is not YAML or cannot
    be a configuration value. -/
def read? (cs : List Char) : Option Value := do
  match ← document? (← tokens? cs) with
  | none => return .null
  | some node =>
    let (node, numbering) ← numberNode? node .start
    return (← nodeValue? numbering maxDepth node 0).1

end LayeredConfig.Yaml
