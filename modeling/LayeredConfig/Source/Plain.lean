import LayeredConfig.Codec
import LayeredConfig.Key.Namespace
import LayeredConfig.Session

/-! # Plain values as sources

    A value that the program holds already, such as the variables of its environment,
    is taken over as it is: nothing is expanded, typed or kept, and nothing is
    recorded. Only the underscores in its keys are rewritten.
-/

namespace LayeredConfig.Source.Plain

/-- The members of a value: those of an object, the items of a list by their numbers,
    nothing for null, and any other value under the number zero. -/
def members : Value → Entries Value
  | .object fields => fields
  | .array items =>
    Entries.ofList (items.zipIdx.map fun (v, i) => (String.ofList (Decimal.natText i), v))
  | .null => []
  | v => [("0", v)]

/-- The value of a text: what it denotes as JSON, and otherwise the text itself. -/
def ofText (cs : List Char) : Value :=
  (Json.read? cs).getD (.string (String.ofList cs))

/-- The value of pairs of names and texts. -/
def ofPairs (pairs : List (String × String)) : Value :=
  .object (Entries.ofList (pairs.map fun (name, text) => (name, .string text)))

/-- Writes the members of a value. -/
def process (data : Value) (s : Session) : Session :=
  { s with
    store := (members data).foldl (fun store (key, v) =>
      store.set (String.ofList (rewriteNamespace key.toList)) v) s.store }

end LayeredConfig.Source.Plain
