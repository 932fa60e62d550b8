/-! # Failures

    What can go wrong while configuration is loaded, read or edited. A failure is
    a cause; its wording is `message`. Only one cause is a defect of the program
    that uses the library rather than of its input, and only that one ends a load.
-/

namespace LayeredConfig

/-- Why an include is refused. -/
inductive IncludeFault where
  | empty
  | nul
  | noBase
  deriving DecidableEq, Repr

/-- The reason in words. -/
def IncludeFault.message : IncludeFault → String
  | .empty => "empty include path"
  | .nul => "path contains NUL byte"
  | .noBase => "relative include without a context directory"

/-- The cause of a failure. -/
inductive Failure where
  /-- A context was left that had not been entered. -/
  | unbalancedContext
  /-- No format has this name; `path` is the file concerned. -/
  | unknownFormat (format path : String)
  /-- A regular file cannot be read. -/
  | unreadable (path reason : String)
  /-- A document is not of its format at all. -/
  | malformed (format : String)
  /-- A document is of its format but not what is asked for. -/
  | unsuitable (format detail : String)
  /-- An include names no file. -/
  | invalidInclude (target reason : String)
  deriving DecidableEq, Repr

namespace Failure

/-- The failure in words. -/
def message : Failure → String
  | .unbalancedContext => "unbalanced push/pop on dependency context stack"
  | .unknownFormat format path => "no parser for format '" ++ format ++ "' (" ++ path ++ ")"
  | .unreadable path reason => "failed to read " ++ path ++ ": " ++ reason
  | .malformed format => "failed to decode " ++ format ++ " document"
  | .unsuitable format detail => "failed to decode " ++ format ++ " document: " ++ detail
  | .invalidInclude target reason => "invalid include '" ++ target ++ "': " ++ reason

/-- Whether a failure is a defect of the program that uses the library. -/
def isFatal : Failure → Bool
  | .unbalancedContext => true
  | _ => false

end Failure

end LayeredConfig
