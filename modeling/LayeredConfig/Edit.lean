import LayeredConfig.Edit.Conf
import LayeredConfig.Edit.Document
import LayeredConfig.Format

/-! # Editors

    An editor changes settings in the text of a configuration file and leaves the rest
    of the text as it is, as far as its format allows. Plain values have no text, and
    so no editor.
-/

namespace LayeredConfig

/-- A way to edit a text. -/
inductive Editor where
  /-- Assignment lines with a character between key and value. -/
  | conf (separator : Char)
  /-- A document whose keys are paths. -/
  | document (codec : Codec) (separator : Separator)
  deriving DecidableEq, Repr

namespace Editor

/-- The editor for the format with a name. -/
def ofFormatName? (name : String) (separator : Separator) : Option Editor :=
  match Format.ofName? name with
  | some .conf => some (.conf '=')
  | some .json => some (.document .json separator)
  | some .yaml => some (.document .yaml separator)
  | some .plain | none => none

/-- The text with the edits carried out. -/
def edit (editor : Editor) (content : List Char) (edits : Entries Value) :
    Except Failure (List Char) :=
  match editor with
  | .conf separator => .ok (Edit.Conf.edit separator content edits)
  | .document codec separator => Edit.Document.edit codec separator content edits

end Editor

end LayeredConfig
