import LayeredConfig.Value

/-! # Laying edits over a value

    Edits have the shape of the value they change. An object of edits changes the
    members that it names and leaves the others; any other edit replaces what it
    meets, lists included. A null edit changes nothing, neither here nor where it
    would have to add a member.
-/

namespace LayeredConfig.Value

mutual

/-- The value after the edits. -/
def overlay (v : Value) : Value → Value
  | .null => v
  | .object edits =>
    match v with
    | .object fields => .object (overlayFields fields edits)
    | _ => .object edits
  | edit => edit

/-- The members after the edits. A member that is added is taken over as it is. -/
def overlayFields (fields : List (String × Value)) : List (String × Value) → List (String × Value)
  | [] => fields
  | (key, edit) :: rest =>
    let changed :=
      match Entries.get? fields key with
      | some v => Entries.insert fields key (overlay v edit)
      | none => if edit.isNull then fields else Entries.insert fields key edit
    overlayFields changed rest

end

@[simp] theorem overlay_null (v : Value) : v.overlay .null = v := by
  simp [overlay]

end LayeredConfig.Value
