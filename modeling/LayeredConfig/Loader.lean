import LayeredConfig.Source
import LayeredConfig.Text.Utf8

/-! # Loading files

    A loader takes files from the front of its queue and applies them, one after the
    other, until the queue is empty. Includes go to the end of the queue, so they are
    applied after every file that was queued before them.

    What is wrong with a file ends neither the load nor the file: a file that has
    vanished, that cannot be read any more or that no format reads is skipped, and bytes
    that are not UTF-8 are replaced. Only a failure that is a defect of the program ends
    a load.

    A load ends whenever there are finitely many files to include. `loadWithin?` is
    a load of a bounded number of files, without an answer where it takes more.
-/

namespace LayeredConfig

/-- A load: its files, what they are applied to, and the options they are read by. -/
structure Loader where
  files : FileQueue
  store : Store
  tracker : Tracker
  options : Options
  notices : List Notice
  deriving DecidableEq, Repr

namespace Loader

/-- A load of listed files into a store. -/
def new (snapshot : Snapshot) (listed : List Path) (store : Store) (options : Options) :
    Loader where
  files := FileQueue.empty.addListed snapshot listed
  store := store
  tracker := .empty
  options := options
  notices := []

/-! ## State -/

/-- Changes what is known of the files. -/
def withFiles (l : Loader) (change : FileQueue → FileQueue) : Loader :=
  { l with files := change l.files }

/-- Gives a notice. -/
def note (l : Loader) (n : Notice) : Loader :=
  { l with notices := l.notices ++ [n] }

/-- The session of the file that is being loaded. -/
def session (l : Loader) : Session :=
  ⟨l.store, l.tracker, some l.files, l.notices⟩

/-- Goes on after a session. -/
def resume (l : Loader) (s : Session) : Loader :=
  { l with
    store := s.store
    tracker := s.tracker
    files := s.queue.getD l.files
    notices := s.notices }

/-! ## One file -/

/-- The name of the format that a path suggests: its extension in lower case, or the
    empty text. -/
def formatNameOf (p : Path) : String :=
  match p.extension? with
  | some extension => Text.lower (String.ofList extension)
  | none => ""

/-- The options that a file is read by: its settings are recorded under its path, and
    its includes are seen from its directory. -/
def optionsFor (l : Loader) (p : Path) : Options :=
  { l.options with
    name := some (String.ofList p.text)
    context := p.directory?.or l.options.context }

/-- Notes that a file is skipped. -/
def skip (l : Loader) (p : Path) : Loader :=
  l.withFiles fun q => { q with skipped := q.skipped ++ [p] }

/-- Applies a source as the file of a path. -/
def apply (snapshot : Snapshot) (l : Loader) (p : Path) (source : Source) :
    Loader × Option Failure :=
  let previous := l.files.current
  let begun := l.withFiles fun q => { q with current := some p }
  match source.process snapshot begun.session with
  | .ok s =>
    ((begun.resume s).withFiles fun q =>
      { q with current := previous, processed := q.processed ++ [p] }, none)
  | .error failure => (l, some failure)

/-- Loads a file, in the format with the name `hint` or the one its path suggests. -/
def loadOne (snapshot : Snapshot) (l : Loader) (p : Path) (hint : Option String) :
    Loader × Option Failure :=
  match snapshot.file? p with
  | none => (l.skip p, none)
  | some (.error reason) => (l.skip p, some (.unreadable (String.ofList p.text) reason))
  | some (.ok bytes) =>
    let l := if Text.isUtf8 bytes then l else l.note (.invalidText p)
    let format := hint.getD (formatNameOf p)
    match Source.ofFormatName? format (Text.decodeLossy bytes) (l.optionsFor p) with
    | some source => l.apply snapshot p source
    | none => (l.skip p, some (.unknownFormat format (String.ofList p.text)))

/-! ## All files -/

/-- Loads the queued files, and the files they include, if there are at most `limit`
    of them. -/
def loadWithin? (snapshot : Snapshot) : Nat → Loader → Option (Loader × Option Failure)
  | limit, l =>
    match l.files.queued with
    | [] => some (l, none)
    | p :: rest =>
      match limit with
      | 0 => none
      | limit + 1 =>
        match (l.withFiles fun q => { q with queued := rest }).loadOne snapshot p none with
        | (l, none) => loadWithin? snapshot limit l
        | (l, some failure) =>
          if failure.isFatal then some (l, some failure)
          else loadWithin? snapshot limit (l.note (.fileSkipped failure))

/-- More files than a load ever takes that comes to an end in practice. -/
def patience : Nat := 4294967296

/-- Loads the queued files and the files they include. -/
def load? (snapshot : Snapshot) (l : Loader) : Option (Loader × Option Failure) :=
  l.loadWithin? snapshot patience

end Loader

end LayeredConfig
