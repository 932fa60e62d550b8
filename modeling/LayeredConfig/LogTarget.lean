import LayeredConfig.Path

/-! # Log targets

    Where notices are written to. A target is named by a number or a word; any other
    name is that of a file to append to.
-/

namespace LayeredConfig

/-- Where notices are written to. -/
inductive LogTarget where
  | off
  | stdout
  | stderr
  | file (path : Path)
  deriving DecidableEq, Repr

namespace LogTarget

/-- The target with a name. -/
def ofName (name : String) : LogTarget :=
  match name with
  | "0" | "off" => .off
  | "1" | "stdout" => .stdout
  | "2" | "stderr" => .stderr
  | other => .file ⟨other.toList⟩

/-- What is wrong with a target, in words; `canAppend` tells which files can be
    appended to. -/
def fault? (canAppend : Path → Bool) : LogTarget → Option String
  | .file path =>
    if canAppend path then none
    else some ("failed to open log file " ++ String.ofList path.text)
  | _ => none

end LogTarget

end LayeredConfig
