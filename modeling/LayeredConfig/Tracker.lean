import LayeredConfig.Entries
import LayeredConfig.Failure

/-! # Tracking dependencies

    A tracker records, for each key that has been written, where that was and
    which names its value was made from. A name that is used before it has been
    defined is external: the configuration expects it from outside. It stays
    external until it is defined without any dependencies; a definition from
    other names leaves it as it is, since the value still holds what came from
    outside.

    Contexts say where: they are entered and left like brackets, and the
    innermost one counts.
-/

namespace LayeredConfig

/-- A recorded write: the context it was made in, and the names that the value was
    made from. -/
structure Definition where
  context : String
  dependencies : List String
  deriving DecidableEq, Repr

/-- The record of definitions and externals. -/
structure Tracker where
  definitions : Entries Definition
  /-- The external names, each with the context that used it first. -/
  externals : Entries String
  /-- The contexts entered and not left, the innermost first. -/
  contexts : List String
  deriving DecidableEq, Repr

namespace Tracker

/-- The record before anything has happened. -/
def empty : Tracker := ⟨[], [], []⟩

/-- Enters a context. -/
def push (t : Tracker) (context : String) : Tracker :=
  { t with contexts := context :: t.contexts }

/-- Leaves the innermost context. -/
def pop (t : Tracker) : Except Failure (String × Tracker) :=
  match t.contexts with
  | [] => .error .unbalancedContext
  | context :: rest => .ok (context, { t with contexts := rest })

/-- The innermost context. -/
def context? (t : Tracker) : Option String := t.contexts.head?

/-- The innermost context, or the empty text outside of all. -/
def context (t : Tracker) : String := t.context?.getD ""

/-- Records the use of a name: it becomes external unless it is defined or external
    already. -/
def use (t : Tracker) (name : String) : Tracker :=
  if t.definitions.contains name || t.externals.contains name then t
  else { t with externals := t.externals.insert name t.context }

/-- Records that a key has been written with a value made from `dependencies`. -/
def define (t : Tracker) (key : String) (dependencies : List String) : Tracker :=
  let used := dependencies.foldl use t
  { used with
    definitions := used.definitions.insert key ⟨t.context, dependencies⟩
    externals := if dependencies.isEmpty then used.externals.erase key else used.externals }

/-! ## Contexts -/

@[simp] theorem context_push (t : Tracker) (context : String) :
    (t.push context).context = context := rfl

@[simp] theorem pop_push (t : Tracker) (context : String) :
    (t.push context).pop = .ok (context, t) := rfl

@[simp] theorem contexts_use (t : Tracker) (name : String) :
    (t.use name).contexts = t.contexts := by
  unfold use
  split <;> rfl

@[simp] theorem contexts_foldl_use (names : List String) (t : Tracker) :
    (names.foldl use t).contexts = t.contexts := by
  induction names generalizing t with
  | nil => rfl
  | cons name rest ih => simp [ih]

@[simp] theorem contexts_define (t : Tracker) (key : String) (dependencies : List String) :
    (t.define key dependencies).contexts = t.contexts := by
  simp [define]

end Tracker

end LayeredConfig
