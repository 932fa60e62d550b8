import LayeredConfig.Text.Split

/-! # Keys and paths

    A key names a setting; where settings are nested, its parts between the
    separators are the path to the setting. The empty separator does not occur in
    any key: with it every key is a path of one step.
-/

namespace LayeredConfig

/-- What stands between the steps of a path in a key. -/
structure Separator where
  text : String
  deriving DecidableEq, Repr

namespace Separator

/-- The separator that is used where none is chosen. -/
def standard : Separator := ⟨"::"⟩

/-- The path that a key denotes. -/
def split (s : Separator) (key : String) : List String :=
  if s.text = "" then [key]
  else (Text.split s.text.toList key.toList).map String.ofList

/-- The key of a path. -/
def join (s : Separator) (path : List String) : String :=
  String.ofList (Text.join s.text.toList (path.map String.toList))

end Separator

end LayeredConfig
