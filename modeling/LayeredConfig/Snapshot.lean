import LayeredConfig.Path

/-! # Snapshots of a file system

    A load sees a file system as a function: a path leads to a regular file or to none, and
    a regular file has some content or cannot be read. As long as the function stays the
    same, so does the outcome of the load.
-/

namespace LayeredConfig

/-- The regular files, by the paths that lead to them: what they hold, or the reason why
    they cannot be read. -/
structure Snapshot where
  file? : Path → Option (Except String (List UInt8))

namespace Snapshot

/-- The snapshot in which all regular files can be read. -/
def ofContents (content? : Path → Option (List UInt8)) : Snapshot where
  file? p := (content? p).map .ok

/-- The content of the regular file that a path leads to, if it can be read. -/
def read? (files : Snapshot) (p : Path) : Option (List UInt8) :=
  (files.file? p).bind Except.toOption

/-- Whether a path leads to a regular file that can be read. -/
def isReadable (files : Snapshot) (p : Path) : Bool := (files.read? p).isSome

/-- Two texts of one path lead to the same file. -/
def Consistent (files : Snapshot) : Prop :=
  ∀ p q : Path, p.same q = true → files.read? p = files.read? q

@[simp] theorem read?_ofContents (content? : Path → Option (List UInt8)) (p : Path) :
    (ofContents content?).read? p = content? p := by
  unfold read? ofContents
  dsimp only
  cases content? p <;> rfl

/-- What is read is what the file holds. -/
theorem read?_eq_some_iff {files : Snapshot} {p : Path} {bytes : List UInt8} :
    files.read? p = some bytes ↔ files.file? p = some (.ok bytes) := by
  unfold read?
  cases files.file? p with
  | none => simp
  | some content => cases content <;> simp [Except.toOption]

theorem isReadable_of_some {files : Snapshot} {p : Path} {bytes : List UInt8}
    (h : files.read? p = some bytes) : files.isReadable p = true :=
  Option.isSome_of_eq_some h

theorem isReadable_eq_false_iff (files : Snapshot) (p : Path) :
    files.isReadable p = false ↔ files.read? p = none := by
  unfold isReadable
  rw [Option.isSome_eq_false_iff, Option.isNone_iff_eq_none]

end Snapshot

end LayeredConfig
