import LayeredConfig.Codec
import LayeredConfig.Key.Separator
import LayeredConfig.Text.Blank
import LayeredConfig.Value.Overlay
import LayeredConfig.Value.Path

/-! # Editing documents

    Edits are values by key, where a key is the path to a member of the document. The
    edits are gathered into one object, which is laid over the document; the result
    is written anew. A blank text is edited as the document of an empty object.
-/

namespace LayeredConfig.Edit.Document

/-- The object that a text is to be edited as. -/
def root (codec : Codec) (content : List Char) : Except Failure Value := do
  let v ← if Text.trim content = [] then .ok (.object []) else codec.decode content
  match v with
  | .object fields => return .object fields
  | _ => throw (.unsuitable codec.name "root is not an object")

/-- The edits gathered into one object. -/
def gather (separator : Separator) (edits : Entries Value) : Entries Value :=
  edits.foldl (fun tree (key, v) => tree.setAt (separator.split key) v) []

/-- The text with the edits carried out. -/
def edit (codec : Codec) (separator : Separator) (content : List Char) (edits : Entries Value) :
    Except Failure (List Char) := do
  let document ← root codec content
  return codec.encode (document.overlay (.object (gather separator edits)))

end LayeredConfig.Edit.Document
