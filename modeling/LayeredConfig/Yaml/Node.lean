import LayeredConfig.Yaml.Token

/-! # Nodes of a YAML document

    A document is one node: a scalar, a list, a mapping, or an alias of a node
    that has been given an anchor. This module builds the node of a token
    sequence. Where a node is missing, the empty plain scalar stands in for it.

    Anchors are numbered in the order in which they are met. The number of an
    anchor is the number of different anchor names before it, so a name used a
    second time shares its new number with the next new name, and the later of
    the two nodes is then found under both.
-/

namespace LayeredConfig.Yaml

/-! ## Nodes -/

/-- A tag in full, as bytes. -/
abbrev Tag := List UInt8

/-- The properties of a node. -/
structure Properties where
  anchor : Option (List Char)
  tag : Option Tag
  deriving DecidableEq, Repr

/-- No properties. -/
def Properties.none : Properties := ⟨Option.none, Option.none⟩

/-- A node, in which an alias refers to its target by a value of type `ref`. -/
inductive Node (ref : Type) where
  | scalar (properties : Properties) (text : List Char) (plain : Bool)
  | sequence (properties : Properties) (items : List (Node ref))
  | mapping (properties : Properties) (entries : List (Node ref × Node ref))
  | alias (target : ref)
  deriving Repr

/-- A node whose aliases are names. -/
abbrev NamedNode := Node (List Char)

/-- The node that stands where none is written. -/
def Node.empty (properties : Properties) : NamedNode := .scalar properties [] true

/-! ## From tokens to nodes -/

/-- The tag handles that a document may use, each with what it abbreviates. -/
abbrev Handles := List (List Char × List UInt8)

/-- The handles of every document. -/
def defaultHandles : Handles :=
  [(['!'], asciiBytes ['!']), (['!', '!'], asciiBytes "tag:yaml.org,2002:".toList)]

/-- The tag that a tag text stands for. -/
def resolveTag? (handles : Handles) (t : TagText) : Option Tag :=
  if t.handle.isEmpty then some t.suffix
  else (handles.find? (·.1 == t.handle)).map (·.2 ++ t.suffix)

/-- Takes the properties of a node: an anchor and a tag, in any order. -/
def takeProperties? (handles : Handles) : List Token → Option (Properties × List Token)
  | .anchor a :: .tag t :: rest | .tag t :: .anchor a :: rest =>
    (resolveTag? handles t).map fun tag => (⟨some a, some tag⟩, rest)
  | .anchor a :: rest => some (⟨some a, none⟩, rest)
  | .tag t :: rest => (resolveTag? handles t).map fun tag => (⟨none, some tag⟩, rest)
  | ts => some (.none, ts)

/-- Whether one of the given tokens comes next. -/
def meets (stops : List Token) (ts : List Token) : Bool :=
  ts.head?.any stops.contains

mutual

/-- Takes a node. `block` says that it may be a list or mapping of lines, and
    `indentless` that it may be a list of lines at the column of its mapping. -/
def takeNode? (handles : Handles) (block indentless : Bool) :
    Nat → List Token → Option (NamedNode × List Token)
  | 0, _ => none
  | _ + 1, .alias name :: rest => some (.alias name, rest)
  | fuel + 1, ts => do
    let (p, ts) ← takeProperties? handles ts
    match ts with
    | .scalar text plain :: rest => return (.scalar p text plain, rest)
    | .flowSequence :: rest =>
      let (items, rest) ← takeFlowItems? handles fuel true rest
      return (.sequence p items, rest)
    | .flowMapping :: rest =>
      let (entries, rest) ← takeFlowEntries? handles fuel true rest
      return (.mapping p entries, rest)
    | .entry :: rest =>
      if indentless then
        -- The mark is already the one of the first item.
        let (items, rest) ← takeIndentless? handles fuel (.entry :: rest)
        return (.sequence p items, rest)
      else if p = .none then none
      else return (.empty p, .entry :: rest)
    | .blockSequence :: rest =>
      if block then
        let (items, rest) ← takeItems? handles fuel rest
        return (.sequence p items, rest)
      else if p = .none then none
      else return (.empty p, .blockSequence :: rest)
    | .blockMapping :: rest =>
      if block then
        let (entries, rest) ← takeEntries? handles fuel rest
        return (.mapping p entries, rest)
      else if p = .none then none
      else return (.empty p, .blockMapping :: rest)
    -- Properties without a node are those of the empty one.
    | ts => if p = .none then none else return (.empty p, ts)

/-- Takes a node, or the empty one before one of the given tokens. -/
def takeUnless? (handles : Handles) (block indentless : Bool) (stops : List Token) :
    Nat → List Token → Option (NamedNode × List Token)
  | 0, _ => none
  | fuel + 1, ts =>
    if meets stops ts then some (.empty .none, ts)
    else takeNode? handles block indentless fuel ts

/-- Takes the items of a list of lines, and its end. -/
def takeItems? (handles : Handles) : Nat → List Token → Option (List NamedNode × List Token)
  | 0, _ => none
  | fuel + 1, .entry :: rest => do
    let (item, rest) ← takeUnless? handles true false [.entry, .blockEnd] fuel rest
    let (items, rest) ← takeItems? handles fuel rest
    return (item :: items, rest)
  | _ + 1, .blockEnd :: rest => some ([], rest)
  | _, _ => none

/-- Takes the items of a list of lines that has no end of its own. -/
def takeIndentless? (handles : Handles) : Nat → List Token → Option (List NamedNode × List Token)
  | 0, _ => none
  | fuel + 1, .entry :: rest => do
    let (item, rest) ← takeUnless? handles true false [.entry, .key, .value, .blockEnd] fuel rest
    let (items, rest) ← takeIndentless? handles fuel rest
    return (item :: items, rest)
  | _, ts => some ([], ts)

/-- Takes the entries of a mapping of lines, and its end. -/
def takeEntries? (handles : Handles) :
    Nat → List Token → Option (List (NamedNode × NamedNode) × List Token)
  | 0, _ => none
  | fuel + 1, .key :: rest => do
    let stops := [Token.key, .value, .blockEnd]
    let (key, rest) ← takeUnless? handles true true stops fuel rest
    let (value, rest) ←
      match rest with
      | .value :: rest => takeUnless? handles true true stops fuel rest
      | rest => some (.empty .none, rest)
    let (entries, rest) ← takeEntries? handles fuel rest
    return ((key, value) :: entries, rest)
  | _ + 1, .blockEnd :: rest => some ([], rest)
  | _, _ => none

/-- Takes the items of a list in brackets, and its end. A key makes an item a
    mapping with one entry; where that key is empty, the token behind it is lost. -/
def takeFlowItems? (handles : Handles) :
    Nat → Bool → List Token → Option (List NamedNode × List Token)
  | 0, _, _ => none
  | _ + 1, _, .flowSequenceEnd :: rest => some ([], rest)
  | fuel + 1, first, ts => do
    let ts ←
      if first then some ts
      else
        match ts with
        | .comma :: rest => some rest
        | _ => none
    match ts with
    | .flowSequenceEnd :: rest => return ([], rest)
    | .key :: rest =>
      let (key, rest) ←
        if meets [.value, .comma, .flowSequenceEnd] rest then some (.empty .none, rest.tail)
        else takeNode? handles false false fuel rest
      let (value, rest) ←
        match rest with
        | .value :: rest => takeUnless? handles false false [.comma, .flowSequenceEnd] fuel rest
        | rest => some (.empty .none, rest)
      let (items, rest) ← takeFlowItems? handles fuel false rest
      return (.mapping .none [(key, value)] :: items, rest)
    | ts =>
      let (item, rest) ← takeNode? handles false false fuel ts
      let (items, rest) ← takeFlowItems? handles fuel false rest
      return (item :: items, rest)

/-- Takes the entries of a mapping in brackets, and its end. An entry without a
    mark for its key has the empty value. -/
def takeFlowEntries? (handles : Handles) :
    Nat → Bool → List Token → Option (List (NamedNode × NamedNode) × List Token)
  | 0, _, _ => none
  | _ + 1, _, .flowMappingEnd :: rest => some ([], rest)
  | fuel + 1, first, ts => do
    let ts ←
      if first then some ts
      else
        match ts with
        | .comma :: rest => some rest
        | _ => none
    match ts with
    | .flowMappingEnd :: rest => return ([], rest)
    | .key :: rest =>
      let (key, rest) ←
        takeUnless? handles false false [.value, .comma, .flowMappingEnd] fuel rest
      let (value, rest) ←
        match rest with
        | .value :: rest => takeUnless? handles false false [.comma, .flowMappingEnd] fuel rest
        | rest => some (.empty .none, rest)
      let (entries, rest) ← takeFlowEntries? handles fuel false rest
      return ((key, value) :: entries, rest)
    | ts =>
      let (key, rest) ← takeNode? handles false false fuel ts
      let (entries, rest) ← takeFlowEntries? handles fuel false rest
      return ((key, .empty .none) :: entries, rest)

end

/-! ## Documents -/

/-- Takes the directives of a document, with the handles that they add. A version
    may be named once, and a handle be given a meaning once. -/
def takeDirectives? (versioned : Bool) (handles : Handles) :
    List Token → Option (Handles × List Token)
  | .version major minor :: rest =>
    if versioned || major != 1 || !(minor == 1 || minor == 2) then none
    else takeDirectives? true handles rest
  | .tagDirective handle beginning :: rest =>
    if handles.any (·.1 == handle) then none
    else takeDirectives? versioned (handles ++ [(handle, beginning)]) rest
  | ts => some (handles, ts)

/-- Whether a token opens a document by itself. -/
def opensDocument : Token → Bool
  | .version _ _ | .tagDirective _ _ | .documentStart => true
  | _ => false

/-- Whether no token is left, the marks behind a document apart. -/
def endsDocument (ts : List Token) : Bool :=
  ts.all (· == .documentEnd)

/-- The node of a text with at most one document. A text without tokens has no
    node at all, which is different from an empty one. -/
def document? (ts : List Token) : Option (Option NamedNode) :=
  let fuel := 2 * ts.length + 4
  match ts with
  | [] => some none
  | t :: _ => do
    let (node, rest) ←
      if opensDocument t then do
        let (handles, rest) ← takeDirectives? false [] ts
        match rest with
        | .documentStart :: rest =>
          -- Nothing may follow the mark, and the document is then empty.
          if rest.isEmpty || rest.head?.any (fun t => opensDocument t || t == .documentEnd) then
            some (.empty .none, rest)
          else takeNode? (handles ++ defaultHandles) true false fuel rest
        | _ => none
      else takeNode? defaultHandles true false fuel ts
    if endsDocument rest then return some node else none

/-! ## Aliases -/

/-- The state of numbering the anchors: the position reached, the numbers of the
    names and the positions of the numbers, the newest first, and the anchored
    nodes by position. -/
structure Numbering where
  position : Nat
  names : List (List Char × Nat)
  places : List (Nat × Nat)
  nodes : List (Nat × Node Nat)

namespace Numbering

/-- The state before a document. -/
def start : Numbering := ⟨0, [], [], []⟩

/-- Moves over `n` positions. -/
def advance (s : Numbering) (n : Nat) : Numbering := { s with position := s.position + n }

/-- Gives a number to an anchor at the present position. -/
def note (s : Numbering) : Option (List Char) → Numbering
  | none => s
  | some name =>
    let number := (s.names.map (·.1)).eraseDups.length
    { s with names := (name, number) :: s.names, places := (number, s.position) :: s.places }

/-- Keeps a node under the position where it began, if it has an anchor. -/
def keep (s : Numbering) (p : Properties) (position : Nat) (node : Node Nat) : Numbering :=
  if p.anchor.isSome then { s with nodes := (position, node) :: s.nodes } else s

/-- The node under a number. -/
def find? (s : Numbering) (number : Nat) : Option (Node Nat) := do
  s.nodes.lookup (← s.places.lookup number)

end Numbering

mutual

/-- Numbers the anchors of a node and replaces the names of aliases by the numbers
    of their anchors. An alias must come behind its anchor. -/
def numberNode? : NamedNode → Numbering → Option (Node Nat × Numbering)
  | .alias name, s => (s.names.lookup name).map fun number => (.alias number, s.advance 1)
  | .scalar p text plain, s =>
    let node := .scalar p text plain
    some (node, ((s.note p.anchor).keep p s.position node).advance 1)
  | .sequence p items, s => do
    let (items, t) ← numberNodes? items ((s.note p.anchor).advance 1)
    let node := .sequence p items
    return (node, (t.keep p s.position node).advance 1)
  | .mapping p entries, s => do
    let (entries, t) ← numberEntries? entries ((s.note p.anchor).advance 1)
    let node := .mapping p entries
    return (node, (t.keep p s.position node).advance 1)

/-- Numbers the anchors of the items of a list. -/
def numberNodes? : List NamedNode → Numbering → Option (List (Node Nat) × Numbering)
  | [], s => some ([], s)
  | node :: rest, s => do
    let (node, s) ← numberNode? node s
    let (rest, s) ← numberNodes? rest s
    return (node :: rest, s)

/-- Numbers the anchors of the entries of a mapping. -/
def numberEntries? :
    List (NamedNode × NamedNode) → Numbering → Option (List (Node Nat × Node Nat) × Numbering)
  | [], s => some ([], s)
  | (key, value) :: rest, s => do
    let (key, s) ← numberNode? key s
    let (value, s) ← numberNode? value s
    let (rest, s) ← numberEntries? rest s
    return ((key, value) :: rest, s)

end

end LayeredConfig.Yaml
