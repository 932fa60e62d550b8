import LayeredConfig.Key.Separator
import LayeredConfig.Path
import LayeredConfig.Value

/-! # Options

    What can be chosen about how a source is read. Each kind of source uses the
    options that concern it. Options can themselves be given as a value: an object
    with the options that differ from the standard, or a list of the options in
    their order, where those missing at its end are the standard ones.
-/

namespace LayeredConfig

/-- The options of a source. -/
structure Options where
  /-- The name of the source in the record of definitions. -/
  name : Option String
  /-- Replace settings that are there already. -/
  overwrite : Bool
  /-- Lower-case the keys; in documents, the outermost ones. -/
  lower : Bool
  trimKey : Bool
  trimValue : Bool
  /-- What stands between the key and the value of an assignment. -/
  separator : Char
  /-- Give unquoted values the type they look like. -/
  autotype : Bool
  /-- Take indented lines as continuations. -/
  multiline : Bool
  /-- The quote pairs. -/
  quotes : List String
  /-- Expand references in the texts of documents. -/
  interpolate : Bool
  /-- The directory that includes are seen from. -/
  context : Option Path
  /-- What joins the path to a leaf of a document into a key. -/
  keySeparator : Separator
  deriving DecidableEq, Repr

namespace Options

/-- The options that are used where none are chosen. -/
def standard : Options where
  name := none
  overwrite := true
  lower := true
  trimKey := true
  trimValue := true
  separator := '='
  autotype := true
  multiline := true
  quotes := ["''", "\"\""]
  interpolate := true
  context := none
  keySeparator := .standard

/-- The name of a source, or a name made from its format. -/
def contextName (o : Options) (format : String) : String :=
  o.name.getD ("<" ++ format ++ ">")

/-! ## Options as values -/

/-- A truth value. -/
def bool? : Value → Option Bool
  | .bool b => some b
  | _ => none

/-- A text. -/
def text? : Value → Option String
  | .string s => some s
  | _ => none

/-- A text, or null for none. -/
def optionalText? : Value → Option (Option String)
  | .null => some none
  | .string s => some (some s)
  | _ => none

/-- A text of one character. -/
def char? : Value → Option Char
  | .string s =>
    match s.toList with
    | [c] => some c
    | _ => none
  | _ => none

/-- A list of texts. -/
def texts? : Value → Option (List String)
  | .array items => items.mapM text?
  | _ => none

/-- The names of the options, in their order. -/
def fieldNames : List String :=
  ["name", "overwrite", "lower", "trim_key", "trim_value", "separator", "autotype", "multiline",
    "unquote", "interpolate", "context", "key_separator"]

/-- Sets an option. Other names are passed over; a value that the option cannot have
    is refused. -/
def setField? (o : Options) (field : String) (v : Value) : Option Options :=
  match field with
  | "name" => (optionalText? v).map fun name => { o with name }
  | "overwrite" => (bool? v).map fun overwrite => { o with overwrite }
  | "lower" => (bool? v).map fun lower => { o with lower }
  | "trim_key" => (bool? v).map fun trimKey => { o with trimKey }
  | "trim_value" => (bool? v).map fun trimValue => { o with trimValue }
  | "separator" => (char? v).map fun separator => { o with separator }
  | "autotype" => (bool? v).map fun autotype => { o with autotype }
  | "multiline" => (bool? v).map fun multiline => { o with multiline }
  | "unquote" => (texts? v).map fun quotes => { o with quotes }
  | "interpolate" => (bool? v).map fun interpolate => { o with interpolate }
  | "context" => (optionalText? v).map fun s => { o with context := s.map fun s => ⟨s.toList⟩ }
  | "key_separator" => (text? v).map fun s => { o with keySeparator := ⟨s⟩ }
  | _ => some o

/-- The options that a value gives. -/
def ofValue? : Value → Option Options
  | .object fields => fields.foldlM (fun o (field, v) => o.setField? field v) standard
  | .array items =>
    if fieldNames.length < items.length then none
    else (fieldNames.zip items).foldlM (fun o (field, v) => o.setField? field v) standard
  | _ => none

/-- A text as a value, or null for none. -/
def optionalValue : Option String → Value
  | some s => .string s
  | none => .null

/-- The options as a value. -/
def toValue (o : Options) : Value :=
  .object (Entries.ofList
    [("name", optionalValue o.name),
     ("overwrite", .bool o.overwrite),
     ("lower", .bool o.lower),
     ("trim_key", .bool o.trimKey),
     ("trim_value", .bool o.trimValue),
     ("separator", .string (String.singleton o.separator)),
     ("autotype", .bool o.autotype),
     ("multiline", .bool o.multiline),
     ("unquote", .array (o.quotes.map .string)),
     ("interpolate", .bool o.interpolate),
     ("context", optionalValue (o.context.map fun p => String.ofList p.text)),
     ("key_separator", .string o.keySeparator.text)])

end Options

end LayeredConfig
