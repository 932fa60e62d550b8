import LayeredConfig.FileQueue
import LayeredConfig.Include
import LayeredConfig.Notice
import LayeredConfig.Store
import LayeredConfig.Tracker

/-! # Sessions

    What sources work on, one after the other: the store they write to, the record
    of what they define, the queue for the files they include, and the notices they
    give. Without a queue an include is a setting like any other.
-/

namespace LayeredConfig

/-- The state that sources work on. -/
structure Session where
  store : Store
  tracker : Tracker
  queue : Option FileQueue
  /-- The notices, in the order in which they were given. -/
  notices : List Notice
  deriving DecidableEq, Repr

namespace Session

/-- Gives a notice. -/
def note (s : Session) (n : Notice) : Session :=
  { s with notices := s.notices ++ [n] }

/-- Writes a setting, and records the names that its value was made from. -/
def define (s : Session) (key : String) (v : Value) (names : List String) : Session :=
  { s with store := s.store.set key v, tracker := s.tracker.define key names }

/-- Writes a setting, unless it has a value that is to be kept. -/
def defineUnless (s : Session) (overwrite : Bool) (key : String) (v : Value) (names : List String) :
    Session :=
  if overwrite || !s.store.has key then s.define key v names else s

/-- Queues an include, or gives notice that it is ignored. -/
def queueInclude (files : Snapshot) (s : Session) (queue : FileQueue) (target : List Char)
    (base : Option Path) : Session :=
  match resolveInclude target base with
  | .ok p => { s with queue := some (queue.addIncluded files p) }
  | .error failure => s.note (.includeIgnored failure)

/-- Does something within a context of the record. -/
def within (s : Session) (context : String) (body : Session → Session) :
    Except Failure Session := do
  let inside := body { s with tracker := s.tracker.push context }
  let (_, tracker) ← inside.tracker.pop
  return { inside with tracker }

end Session

end LayeredConfig
