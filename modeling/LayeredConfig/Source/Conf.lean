import LayeredConfig.Conf.Assignment
import LayeredConfig.Session

/-! # Assignment files as sources

    The assignments of a file are carried out one after the other, so that each of
    them sees what those before it have written. An append line adds an item to the
    list under its key, and begins a new list where there is none; it is carried out
    even where settings are to be kept.
-/

namespace LayeredConfig.Source.Conf

open LayeredConfig.Conf

/-- The items of a list; anything else has none. -/
def itemsOf : Option Value → List Value
  | some (.array items) => items
  | _ => []

/-- Carries out an include: its target is seen from the directory that the options
    give, and otherwise from that of the file being loaded. -/
def applyInclude (files : Snapshot) (o : Options) (s : Session) (queue : FileQueue) (v : Value) :
    Session :=
  s.queueInclude files queue v.text (o.context.or (queue.current.bind Path.directory?))

/-- Carries out an assignment. -/
def apply (files : Snapshot) (o : Options) (s : Session) (a : Assignment) : Session :=
  let expansion := a.expansion o s.store
  let v := a.valueOf o expansion.text
  -- Without a queue an include is an assignment like any other.
  match (if a.isInclude then s.queue else none) with
  | some queue => applyInclude files o s queue v
  | none =>
    if a.append then
      s.define a.key (.array (itemsOf (s.store.get? a.key) ++ [v])) expansion.names
    else s.defineUnless o.overwrite a.key v expansion.names

/-- Whether every line that says something is an assignment. -/
def isValid (o : Options) (content : List Char) : Bool :=
  (logicalLines o.multiline content).all fun line =>
    isSilent (Text.trim line) || (parts? o.separator line).isSome

/-- The assignments of a text. -/
def assignments (o : Options) (content : List Char) : List Assignment :=
  (logicalLines o.multiline content).filterMap (Assignment.ofLine? o)

/-- Carries out the assignments of a text. -/
def process (files : Snapshot) (o : Options) (content : List Char) (s : Session) :
    Except Failure Session :=
  s.within (o.contextName "conf") fun s => (assignments o content).foldl (apply files o) s

end LayeredConfig.Source.Conf
