import LayeredConfig.Value
import LayeredConfig.Json.Numeral

/-! # Reading JSON

    A JSON text is read in two passes, each of them a machine that goes once over
    its input. The first turns characters into tokens; a number, `true`, `false`
    and `null` are maximal runs of characters between blanks, punctuation and
    quotes. The second turns tokens into one value with a stack of open lists and
    objects.

    Of two members with the same key the later one counts. At most `maxDepth`
    lists and objects may be open at a time.
-/

namespace LayeredConfig.Json

/-- The largest number of lists and objects open at a time. -/
def maxDepth : Nat := 127

/-! ## Tokens -/

/-- A token: punctuation, or a value that is neither a list nor an object. -/
inductive Token where
  | openArray
  | closeArray
  | openObject
  | closeObject
  | colon
  | comma
  | atom (v : Value)
  deriving DecidableEq, Repr

/-- Where the first machine stands. What has been read of an unfinished token is
    kept with its last character first. -/
inductive LexState where
  /-- Outside texts, with the run of characters before. -/
  | run (before : List Char)
  /-- Inside a text. -/
  | text (before : List Char)
  /-- Behind a backslash. -/
  | escape (before : List Char)
  /-- Inside a numeric escape, `missing` digits before its end; `high` is the
      first half of a surrogate pair. -/
  | code (before : List Char) (high : Option Nat) (missing value : Nat)
  /-- Behind the first half of a surrogate pair. -/
  | pair (before : List Char) (high : Nat)
  /-- Behind the first half of a surrogate pair and a backslash. -/
  | pairEscape (before : List Char) (high : Nat)
  deriving DecidableEq, Repr

/-- The blanks of JSON. -/
def isBlank (c : Char) : Bool :=
  c == ' ' || c == '\n' || c == '\r' || c == '\t'

/-- The token of a punctuation character. -/
def punctuation? : Char → Option Token
  | '[' => some .openArray
  | ']' => some .closeArray
  | '{' => some .openObject
  | '}' => some .closeObject
  | ':' => some .colon
  | ',' => some .comma
  | _ => none

/-- The value of a run of characters. -/
def atom? (run : List Char) : Option Value :=
  if run = ['n', 'u', 'l', 'l'] then some .null
  else if run = ['t', 'r', 'u', 'e'] then some (.bool true)
  else if run = ['f', 'a', 'l', 's', 'e'] then some (.bool false)
  else (numeral? run).map .number

/-- The tokens of a run that has ended; its last character comes first. -/
def endRun? : List Char → Option (List Token)
  | [] => some []
  | before => (atom? before.reverse).map fun v => [.atom v]

/-- The character of an escape of one letter. -/
def escaped? : Char → Option Char
  | '"' => some '"'
  | '\\' => some '\\'
  | '/' => some '/'
  | 'b' => some '\x08'
  | 'f' => some '\x0c'
  | 'n' => some '\n'
  | 'r' => some '\r'
  | 't' => some '\t'
  | _ => none

/-- The value of a hexadecimal digit. -/
def hexValue? (c : Char) : Option Nat :=
  if c.isDigit then some (c.toNat - '0'.toNat)
  else if 'a' ≤ c && c ≤ 'f' then some (c.toNat - 'a'.toNat + 10)
  else if 'A' ≤ c && c ≤ 'F' then some (c.toNat - 'A'.toNat + 10)
  else none

/-- Goes on behind a finished numeric escape. A first half of a surrogate pair
    has to be followed by a second half, and a second half alone is refused. -/
def endCode? (before : List Char) (high : Option Nat) (value : Nat) : Option LexState :=
  match high with
  | some h =>
    if 0xDC00 ≤ value && value ≤ 0xDFFF then
      -- Each half holds ten bits of what the character is above 0x10000.
      some (.text (Char.ofNat (0x10000 + (h - 0xD800) * 0x400 + (value - 0xDC00)) :: before))
    else none
  | none =>
    if 0xD800 ≤ value && value ≤ 0xDBFF then some (.pair before value)
    else if 0xDC00 ≤ value && value ≤ 0xDFFF then none
    else some (.text (Char.ofNat value :: before))

/-- One character inside a text, with the token it finishes. -/
def stepText? : LexState → Char → Option (Option Token × LexState)
  | .run _, _ => none
  | .text before, c =>
    if c = '"' then some (some (.atom (.string (String.ofList before.reverse))), .run [])
    else if c = '\\' then some (none, .escape before)
    else if c.toNat < 0x20 then none
    else some (none, .text (c :: before))
  | .escape before, c =>
    if c = 'u' then some (none, .code before none 4 0)
    else (escaped? c).map fun d => (none, .text (d :: before))
  | .code before high missing value, c => do
    let value := value * 16 + (← hexValue? c)
    if missing = 1 then return (none, ← endCode? before high value)
    else return (none, .code before high (missing - 1) value)
  | .pair before high, c => if c = '\\' then some (none, .pairEscape before high) else none
  | .pairEscape before high, c =>
    if c = 'u' then some (none, .code before (some high) 4 0) else none

/-- One character, with the tokens it finishes. -/
def lexStep? (state : LexState) (c : Char) : Option (List Token × LexState) :=
  match state with
  | .run before =>
    if c = '"' then if before.isEmpty then some ([], .text []) else none
    else if isBlank c then (endRun? before).map fun done => (done, .run [])
    else
      match punctuation? c with
      | some token => (endRun? before).map fun done => (done ++ [token], .run [])
      | none => some ([], .run (c :: before))
  | state => (stepText? state c).map fun (token, next) => (token.toList, next)

/-- The tokens of a text, from a state on. -/
def lexFrom (state : LexState) : List Char → Option (List Token)
  | [] =>
    match state with
    | .run before => endRun? before
    | _ => none
  | c :: rest => do
    let (tokens, next) ← lexStep? state c
    return tokens ++ (← lexFrom next rest)

/-! ## Values -/

/-- A place for a value: the whole text, the next item of a list, whose items so
    far come last first, or a member of an object under a key. -/
inductive Slot where
  | whole
  | item (before : List Value)
  | member (before : Entries Value) (key : String)
  deriving DecidableEq, Repr

/-- What the second machine expects next. -/
inductive ReadState where
  /-- A value in a slot; in an empty list also its end. -/
  | value (slot : Slot)
  /-- A key; in an empty object also its end. -/
  | key (before : Entries Value)
  /-- The colon behind a key. -/
  | colon (before : Entries Value) (key : String)
  /-- A comma or the end of a list. -/
  | afterItem (items : List Value)
  /-- A comma or the end of an object. -/
  | afterMember (fields : Entries Value)
  /-- Nothing more. -/
  | done (v : Value)
  deriving DecidableEq, Repr

/-- Puts a value into a slot. -/
def Slot.fill : Slot → Value → ReadState
  | .whole, v => .done v
  | .item before, v => .afterItem (v :: before)
  | .member before key, v => .afterMember (before.insert key v)

/-- One token. The stack holds the slots of the lists and objects that are open. -/
def readStep? : ReadState → List Slot → Token → Option (ReadState × List Slot)
  | .value slot, stack, .atom v => some (slot.fill v, stack)
  | .value slot, stack, .openArray =>
    if stack.length < maxDepth then some (.value (.item []), slot :: stack) else none
  | .value slot, stack, .openObject =>
    if stack.length < maxDepth then some (.key [], slot :: stack) else none
  | .value (.item []), slot :: stack, .closeArray => some (slot.fill (.array []), stack)
  | .key before, stack, .atom (.string key) => some (.colon before key, stack)
  | .key [], slot :: stack, .closeObject => some (slot.fill (.object []), stack)
  | .colon before key, stack, .colon => some (.value (.member before key), stack)
  | .afterItem items, stack, .comma => some (.value (.item items), stack)
  | .afterItem items, slot :: stack, .closeArray => some (slot.fill (.array items.reverse), stack)
  | .afterMember fields, stack, .comma => some (.key fields, stack)
  | .afterMember fields, slot :: stack, .closeObject => some (slot.fill (.object fields), stack)
  | _, _, _ => none

/-- The value of the tokens, from a state on. -/
def readFrom (state : ReadState) (stack : List Slot) : List Token → Option Value
  | [] =>
    match state with
    | .done v => some v
    | _ => none
  | token :: rest => do
    let (next, stack) ← readStep? state stack token
    readFrom next stack rest

/-- The value that a JSON text denotes, or `none` if the text is not JSON. -/
def read? (cs : List Char) : Option Value := do
  readFrom (.value .whole) [] (← lexFrom (.run []) cs)

end LayeredConfig.Json
