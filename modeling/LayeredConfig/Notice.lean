import LayeredConfig.Failure
import LayeredConfig.Path

/-! # Notices

    What is reported while configuration is loaded and does not stop the load: a
    warning where something small is passed over, an error where a whole source is.
    A notice has a message and may have further fields.
-/

namespace LayeredConfig

/-- How serious a notice is. -/
inductive Level where
  | warn
  | error
  deriving DecidableEq, Repr

/-- A notice. -/
inductive Notice where
  /-- A file is not applied. -/
  | fileSkipped (failure : Failure)
  /-- The bytes of a file are not a text; what is wrong has been replaced. -/
  | invalidText (path : Path)
  /-- An include is passed over. -/
  | includeIgnored (failure : Failure)
  /-- Includes are given as a value that cannot name files. -/
  | includeOfKind (kind : String)
  /-- Nothing of a source is applied. -/
  | nothingApplied (context : String) (failure : Failure)
  deriving DecidableEq, Repr

namespace Notice

/-- How serious a notice is. -/
def level : Notice → Level
  | .nothingApplied _ _ => .error
  | _ => .warn

/-- The notice in words. -/
def message : Notice → String
  | .fileSkipped failure => "Skipping config file: " ++ failure.message
  | .invalidText _ => "Config file is not valid UTF-8, bad bytes replaced"
  | .includeIgnored failure => "Ignoring include: " ++ failure.message
  | .includeOfKind kind => "Ignoring include of type " ++ kind
  | .nothingApplied _ failure => "Nothing applied: " ++ failure.message

/-- The fields of a notice by name. -/
def fields : Notice → List (String × String)
  | .invalidText path => [("path", String.ofList path.text)]
  | .nothingApplied context _ => [("context", context)]
  | _ => []

end Notice

end LayeredConfig
