/-! # Formats

    The formats that configuration comes in. A format has several names; in a name
    only ASCII letters and digits count, and their case does not, so that a file
    extension with its dot is a name too.
-/

namespace LayeredConfig

/-- A format of configuration. -/
inductive Format where
  /-- Assignments, one to a line. -/
  | conf
  | json
  | yaml
  /-- Values that are taken over as they are. -/
  | plain
  deriving DecidableEq, Repr

namespace Format

/-- The first name of a format. -/
def name : Format → String
  | .conf => "conf"
  | .json => "json"
  | .yaml => "yaml"
  | .plain => "plain"

/-- The format with a name. -/
def ofName? (name : String) : Option Format :=
  match String.ofList ((name.toList.filter Char.isAlphanum).map Char.toLower) with
  | "conf" | "env" | "sh" | "cfg" => some .conf
  | "json" => some .json
  | "yaml" | "yml" => some .yaml
  | "plain" | "array" => some .plain
  | _ => none

end Format

end LayeredConfig
