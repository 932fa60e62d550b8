import LayeredConfig.Value

/-! # Paths into objects

    A path is a list of keys, followed from object to object. `at?` is the view
    of a tree of objects; `setAt` writes at a path, turning whatever is in the
    way into an object; `leaves` lists the paths that end at a value to be kept.
-/

namespace LayeredConfig

/-! ## Reading and writing -/

/-- The value at a path. There is none at the empty path, and none beyond a value
    that is not an object. -/
def Entries.at? : Entries Value → List String → Option Value
  | _, [] => none
  | m, [key] => m.get? key
  | m, key :: rest =>
    match m.get? key with
    | some (.object inner) => Entries.at? inner rest
    | _ => none

/-- Writes a value at a path. A step of the path that does not lead to an object
    is made to lead to a new one. Writing at the empty path changes nothing. -/
def Entries.setAt : Entries Value → List String → Value → Entries Value
  | m, [], _ => m
  | m, [key], value => m.insert key value
  | m, key :: rest, value =>
    let inner : Entries Value := ((m.get? key).getD .null).fields
    m.insert key (.object (Entries.setAt inner rest value))

/-! ## Leaves

    The leaves of a value are what is left when objects are followed as far as
    they go. An object without members is a leaf or nothing at all, depending on
    what the leaves are for. -/

namespace Value

mutual

/-- The leaves of a value, each with the path to it. An empty object is a leaf
    where `keepEmpty` is set, and is passed over otherwise. -/
def leaves (keepEmpty : Bool) : Value → List (List String × Value)
  | .object [] => if keepEmpty then [([], .object [])] else []
  | .object fields => fieldLeaves keepEmpty fields
  | leaf => [([], leaf)]

/-- The leaves below the members of an object. -/
def fieldLeaves (keepEmpty : Bool) : List (String × Value) → List (List String × Value)
  | [] => []
  | (key, value) :: rest =>
    (leaves keepEmpty value).map (fun (path, leaf) => (key :: path, leaf)) ++
      fieldLeaves keepEmpty rest

end

end Value

end LayeredConfig
