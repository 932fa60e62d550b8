import LayeredConfig.Failure
import LayeredConfig.Json.Printer
import LayeredConfig.Json.Reader
import LayeredConfig.Yaml.Printer
import LayeredConfig.Yaml.Reader

/-! # Document codecs

    A document is the text of a value, in JSON or in YAML. Decoding reads a
    document; encoding writes one, laid out over several lines and with a line feed
    at its end.
-/

namespace LayeredConfig

/-- A notation for documents. -/
inductive Codec where
  | json
  | yaml
  deriving DecidableEq, Repr

namespace Codec

/-- The name of a notation. -/
def name : Codec → String
  | .json => "json"
  | .yaml => "yaml"

/-- The value of a text, if it is a document at all. -/
def read? : Codec → List Char → Option Value
  | .json, cs => Json.read? cs
  | .yaml, cs => Yaml.read? cs

/-- The value of a document. -/
def decode (codec : Codec) (cs : List Char) : Except Failure Value :=
  match codec.read? cs with
  | some v => .ok v
  | none => .error (.malformed codec.name)

/-- The document of a value. -/
def encode : Codec → Value → List Char
  | .json, v => Json.pretty v ++ ['\n']
  | .yaml, v => Yaml.render v

end Codec

end LayeredConfig
