import LayeredConfig.Snapshot

/-! # A file system of directories and files

    Directories and regular files by their place below the root, and the directory
    that relative paths are seen from. There are no links.

    A path is followed step by step. Every step, also an empty one behind a slash
    and one to where one already is, has to start from a directory. The directory
    above the root is the root. The empty path leads nowhere.
-/

namespace LayeredConfig

/-- A place below the root: the names of the directories that lead to it, and its
    own. -/
abbrev Place := List (List Char)

/-- A file system, and the directory one is in. -/
structure Disk where
  directories : List Place
  files : List (Place × List UInt8)
  here : Place

namespace Disk

/-! ## Following paths -/

/-- The file system with nothing in it. -/
def empty : Disk := ⟨[], [], []⟩

/-- Whether there is a directory at a place. -/
def isDirectory (d : Disk) (place : Place) : Bool :=
  place.isEmpty || d.directories.contains place

/-- The content of the regular file at a place. -/
def contentAt? (d : Disk) (place : Place) : Option (List UInt8) :=
  (d.files.find? fun file => file.1 == place).map (·.2)

/-- Whether anything is at a place. -/
def isTaken (d : Disk) (place : Place) : Bool :=
  d.isDirectory place || (d.contentAt? place).isSome

/-- The place that a step leads to, whether or not anything is there. -/
def step (place : Place) (segment : List Char) : Place :=
  match Path.component? segment with
  | some (.name name) => place ++ [name]
  | some .above => place.dropLast
  | _ => place

/-- Follows the steps of a path up to a place where something is. -/
def follow? (d : Disk) (place : Place) : List (List Char) → Option Place
  | [] => if d.isTaken place then some place else none
  | segment :: rest =>
    if d.isDirectory place then follow? d (step place segment) rest else none

/-- The place that a path starts from, and its steps. -/
def route (d : Disk) (p : Path) : Place × List (List Char) :=
  (if p.isAbsolute then [] else d.here, Text.split ['/'] p.text)

/-- The place that a path leads to. -/
def find? (d : Disk) (p : Path) : Option Place :=
  if p.text = [] then none
  else
    let (start, steps) := d.route p
    d.follow? start steps

/-- The regular files of the file system. All of them can be read. -/
def snapshot (d : Disk) : Snapshot := .ofContents fun p => (d.find? p).bind d.contentAt?

/-- The longest name of a file or directory, in bytes. -/
def maxNameBytes : Nat := 255

/-- Whether a file can have a name. -/
def isName (name : List Char) : Bool :=
  (Path.component? name == some (.name name)) && !name.contains '\x00' &&
    (String.ofList name).utf8ByteSize ≤ maxNameBytes

/-- Whether a regular file can be appended to, or made to be. -/
def canAppend (d : Disk) (p : Path) : Bool :=
  match d.find? p with
  | some place => (d.contentAt? place).isSome
  | none =>
    let (start, steps) := d.route p
    match steps.reverse with
    | [] => false
    | last :: before =>
      isName last &&
        match d.follow? start before.reverse with
        | some place => d.isDirectory place
        | none => false

/-! ## Changes -/

/-- Makes a directory and those above it. -/
def makeDirectory (d : Disk) (place : Place) : Disk :=
  let all := (List.range place.length).map fun n => place.take (n + 1)
  { d with directories := d.directories ++ all.filter fun p => !d.directories.contains p }

/-- Writes a file, with the directories above it. -/
def write (d : Disk) (place : Place) (content : List UInt8) : Disk :=
  let d := d.makeDirectory place.dropLast
  { d with files := (place, content) :: d.files.filter fun file => file.1 != place }

/-- Removes a file. -/
def remove (d : Disk) (place : Place) : Disk :=
  { d with files := d.files.filter fun file => file.1 != place }

end Disk

end LayeredConfig
