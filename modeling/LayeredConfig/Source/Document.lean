import LayeredConfig.Codec
import LayeredConfig.Options
import LayeredConfig.Reference.Expansion
import LayeredConfig.Session

/-! # Documents as sources

    A document is applied leaf by leaf: the path to a leaf, joined, is the key of a
    setting. Its root has to be an object; any other document is not applied at all.
    Where keys are lower-cased this concerns the outermost ones only, and of two that
    become equal the one that comes later in the order of the keys as given counts.

    The member `include` names files where there is a queue to put them in.
-/

namespace LayeredConfig.Source.Document

/-! ## The root -/

/-- The members of a document, whose root has to be an object. -/
def root (codec : Codec) (content : List Char) : Except Failure (Entries Value) := do
  match ← codec.decode content with
  | .object fields => return fields
  | other => throw (.unsuitable codec.name ("root is " ++ other.kind ++ ", expected an object"))

/-- Whether a document can be applied. -/
def isValid (codec : Codec) (content : List Char) : Bool :=
  match root codec content with
  | .ok _ => true
  | .error _ => false

/-- The members with their keys in lower case. -/
def lowerOutermost (fields : Entries Value) : Entries Value :=
  Entries.ofList (fields.map fun (key, v) => (Text.lower key, v))

/-! ## Includes -/

/-- The key of the member that names files to include. -/
def includeKey : String := "include"

/-- The targets that the value of the include member names, if it can name any. -/
def targets? : Value → Option (List String)
  | .string s => some [s]
  | .array items => some (items.filterMap Options.text?)
  | _ => none

/-- Queues an include, where there is a queue. -/
def queueTarget (files : Snapshot) (o : Options) (s : Session) (target : String) : Session :=
  match s.queue with
  | some queue => s.queueInclude files queue target.toList o.context
  | none => s

/-- Queues the includes that a value names. -/
def queueIncludes (files : Snapshot) (o : Options) (s : Session) (v : Value) : Session :=
  match targets? v with
  | some targets => targets.foldl (queueTarget files o) s
  | none => s.note (.includeOfKind v.kind)

/-- Takes the include member away and queues what it names, where there is a queue. -/
def takeIncludes (files : Snapshot) (o : Options) (s : Session) (fields : Entries Value) :
    Session × Entries Value :=
  match s.queue, fields.get? includeKey with
  | some _, some v => (queueIncludes files o s v, fields.erase includeKey)
  | _, _ => (s, fields)

/-! ## Leaves -/

/-- The value to be written for a leaf, and the names it was made from. -/
def resolve (o : Options) (store : Store) : Value → Value × List String
  | .string text =>
    if o.interpolate && Reference.hasBraceToken text.toList then
      let expansion := Reference.expandBraces store text.toList
      (.string (String.ofList expansion.text), expansion.names)
    else (.string text, [])
  | leaf => (leaf, [])

/-- Writes a leaf under the key of its path. -/
def writeLeaf (o : Options) (s : Session) (leaf : List String × Value) : Session :=
  let (v, names) := resolve o s.store leaf.2
  s.defineUnless o.overwrite (o.keySeparator.join leaf.1) v names

/-- Applies the members of a document. -/
def applyRoot (files : Snapshot) (o : Options) (name : String) (fields : Entries Value)
    (s : Session) : Except Failure Session :=
  let fields := if o.lower then lowerOutermost fields else fields
  let (s, fields) := takeIncludes files o s fields
  s.within (o.contextName name) fun s => (Value.fieldLeaves false fields).foldl (writeLeaf o) s

/-- Applies a document. -/
def process (files : Snapshot) (codec : Codec) (o : Options) (content : List Char) (s : Session) :
    Except Failure Session :=
  match root codec content with
  | .ok fields => applyRoot files o codec.name fields s
  | .error failure => .ok (s.note (.nothingApplied (o.contextName codec.name) failure))

end LayeredConfig.Source.Document
