import LayeredConfig.Text.Split

/-! # File paths

    A path is kept as the text it was given as; what it means are its components.
    Slashes separate components and repeated ones count once; a dot is a component
    only at the very beginning of a relative path. Two paths are the same path when
    they have the same components, however they are written.

    Nothing here looks at a file system. `normalize` resolves dots by the text
    alone.
-/

namespace LayeredConfig

/-- A path, as it is written. -/
structure Path where
  text : List Char
  deriving DecidableEq, Repr

namespace Path

/-! ## Components -/

/-- A component of a path. -/
inductive Component where
  | root
  /-- The directory one is in: a dot at the beginning. -/
  | here
  /-- The directory above: two dots. -/
  | above
  | name (text : List Char)
  deriving DecidableEq, Repr

/-- What a path begins with, apart from its segments: the root, the dot for the
    directory one is in, or nothing. -/
def head (p : Path) : List Component :=
  match p.text with
  | '/' :: _ => [.root]
  | ['.'] => [.here]
  | '.' :: '/' :: _ => [.here]
  | _ => []

/-- The text of what a path begins with. -/
def headText (p : Path) : List Char := p.text.take p.head.length

/-- The texts between the slashes behind what the path begins with. -/
def segments (p : Path) : List (List Char) :=
  Text.split ['/'] (p.text.drop p.head.length)

/-- The component of a segment; empty segments and dots are none. -/
def component? (segment : List Char) : Option Component :=
  if segment = [] ∨ segment = ['.'] then none
  else if segment = ['.', '.'] then some .above
  else some (.name segment)

/-- The components of a path. -/
def components (p : Path) : List Component :=
  p.head ++ p.segments.filterMap component?

/-- Whether two texts are the same path. -/
def same (p q : Path) : Bool := p.components == q.components

/-- Whether a path is among others, however it is written. -/
def isIn (p : Path) (ps : List Path) : Bool := ps.any p.same

/-- Whether a path starts at the root. -/
def isAbsolute (p : Path) : Bool := p.head == [.root]

/-! ## Building paths -/

/-- A path seen from another one. An absolute path stays as it is. -/
def join (base p : Path) : Path :=
  if p.isAbsolute || base.text.isEmpty then p
  else if base.text.getLast? == some '/' then ⟨base.text ++ p.text⟩
  else ⟨base.text ++ '/' :: p.text⟩

/-- The text of a component. -/
def Component.text : Component → List Char
  | .root => []
  | .here => ['.']
  | .above => ['.', '.']
  | .name text => text

/-- The path with the given components. -/
def ofComponents : List Component → Path
  | [.root] => ⟨['/']⟩
  | components => ⟨Text.join ['/'] (components.map Component.text)⟩

/-- Adds a component to a normal path, whose components are given last first. Going
    up takes a name away and stays at the root; without either it is kept. -/
def climb : List Component → Component → List Component
  | done, .here => done
  | .name _ :: done, .above => done
  | .root :: done, .above => .root :: done
  | done, c => c :: done

/-- The path with all dots resolved. What is left of `..` stands at the beginning of
    a relative path. -/
def normalize (p : Path) : Path :=
  ofComponents (p.components.foldl climb []).reverse

/-! ## Parts -/

/-- Drops the segments at the end that are no components. -/
def trimSegments (segments : List (List Char)) : List (List Char) :=
  (segments.reverse.dropWhile fun s => (component? s).isNone).reverse

/-- The path without its last component, as it is written. The root and the empty
    path have none. -/
def parent? (p : Path) : Option Path :=
  match (trimSegments p.segments).reverse with
  | _ :: before => some ⟨p.headText ++ Text.join ['/'] (trimSegments before.reverse)⟩
  | [] => if p.head = [.here] then some ⟨[]⟩ else none

/-- The directory that a file is in. A bare name is in the directory one is in. -/
def directory? (p : Path) : Option Path :=
  p.parent?.map fun dir => if dir.text = [] then ⟨['.']⟩ else dir

/-- The last component, if it is a name. -/
def fileName? (p : Path) : Option (List Char) :=
  match p.components.getLast? with
  | some (.name text) => some text
  | _ => none

/-- The extension of a file name: what follows its last dot, if something stands
    before it. -/
def extensionOf? (name : List Char) : Option (List Char) :=
  match Text.cutAt '.' name.reverse with
  | some (after, before) => if before = [] then none else some after.reverse
  | none => none

/-- The extension of a path. -/
def extension? (p : Path) : Option (List Char) :=
  p.fileName?.bind extensionOf?

end Path

end LayeredConfig
