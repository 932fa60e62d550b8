import LayeredConfig.Snapshot

/-! # The queue of files

    Which files are still to be loaded, and what became of the others. A file is
    looked for when it is queued: if it can be read it goes to the end of the queue,
    and otherwise it is noted as missing, once.

    A file that is listed again is queued again, and is applied again over what
    came in between. A file that is included is not queued again while it is waiting,
    being loaded or loaded; so files that include each other come to an end.
-/

namespace LayeredConfig

/-- The files of a load. -/
structure FileQueue where
  /-- The files still to be loaded, the next one first. -/
  queued : List Path
  /-- The files that could not be read when they should have been queued. -/
  missing : List Path
  /-- The files that have been loaded. -/
  processed : List Path
  /-- The files that were taken from the queue and could not be loaded. -/
  skipped : List Path
  /-- The file that is being loaded. -/
  current : Option Path
  deriving DecidableEq, Repr

namespace FileQueue

/-- The queue before anything has happened. -/
def empty : FileQueue := ⟨[], [], [], [], none⟩

/-- Queues a file, or notes that it is missing. -/
def classify (files : Snapshot) (q : FileQueue) (p : Path) : FileQueue :=
  if files.isReadable p then { q with queued := q.queued ++ [p] }
  else if p.isIn q.missing then q
  else { q with missing := q.missing ++ [p] }

/-- Queues listed files. -/
def addListed (files : Snapshot) (q : FileQueue) (ps : List Path) : FileQueue :=
  ps.foldl (classify files) q

/-- Whether a file is waiting, being loaded or loaded. -/
def knows (q : FileQueue) (p : Path) : Bool :=
  q.current.any p.same || p.isIn q.queued || p.isIn q.processed

/-- Queues an included file, unless it is known already. -/
def addIncluded (files : Snapshot) (q : FileQueue) (p : Path) : FileQueue :=
  if q.knows p then q else classify files q p

end FileQueue

end LayeredConfig
