import LayeredConfig.Yaml.Cursor
import LayeredConfig.Json.Reader

/-! # Scalars in a YAML text

    A scalar is written plainly, between quotes, or as a block of lines. In the
    first two forms it may run over several lines: the blanks around a line break
    are dropped, one break is read as a space, and of several breaks the first is
    dropped. A block keeps its lines, or folds them by the same rule where
    neither line begins with a blank.
-/

namespace LayeredConfig.Yaml

/-! ## Gaps between words -/

/-- What stands between two words of a scalar: blanks before the first line
    break, and the breaks. -/
structure Gap where
  blanks : List Char
  breaks : List (List Char)
  deriving DecidableEq, Repr

namespace Gap

/-- No gap. -/
def none : Gap := ⟨[], []⟩

/-- The text that a gap is read as. -/
def text (g : Gap) : List Char :=
  match g.breaks with
  | [] => g.blanks
  | first :: more =>
    -- Only a line feed is dropped or becomes a space; other breaks stay.
    if first = ['\n'] then if more.isEmpty then [' '] else more.flatten
    else first ++ more.flatten

/-- Takes a gap, continuing `g`. A tab to the left of `indent` is refused. -/
def takeFrom? (indent : Nat) : Nat → Gap → Cursor → Option (Gap × Cursor)
  | 0, g, c => some (g, c)
  | fuel + 1, g, c =>
    match c.peek with
    | Option.none => some (g, c)
    | some x =>
      if isBlank x then
        if g.breaks.isEmpty then
          takeFrom? indent fuel { g with blanks := g.blanks ++ [x] } (c.skip 1)
        else if x = '\t' ∧ c.column < indent then Option.none
        else takeFrom? indent fuel g (c.skip 1)
      else if isBreak x then
        let (text, next) := c.takeBreak
        takeFrom? indent fuel ⟨[], g.breaks ++ [text]⟩ next
      else some (g, c)

/-- Takes a gap, continuing `g`. -/
def take? (indent : Nat) (g : Gap) (c : Cursor) : Option (Gap × Cursor) :=
  takeFrom? indent c.rest.length g c

end Gap

/-! ## Plain scalars -/

/-- Takes the characters of a plain scalar up to a gap or to what ends the scalar:
    a colon at the end of a word and, in brackets, a structuring character. In
    brackets a colon directly before such a character is refused. -/
def plainWord? (inFlow : Bool) : List Char → Option (List Char × List Char)
  | [] => some ([], [])
  | c :: rest =>
    let next := rest.head?
    if isGap c then some ([], c :: rest)
    else if inFlow && c == ':' && next.any (fun x => isFlowIndicator x || x == '?') then none
    else if (c == ':' && endsWord next) || (inFlow && isFlowIndicator c) then some ([], c :: rest)
    else (plainWord? inFlow rest).map fun (word, rest) => (c :: word, rest)

/-- Takes a plain scalar, where `text` has been read and `gap` comes before the
    next word. Answers also the gap behind the last word. -/
def plainFrom? (inFlow : Bool) (indent : Nat) :
    Nat → List Char → Gap → Cursor → Option (List Char × Gap × Cursor)
  | 0, text, gap, c => some (text, gap, c)
  | fuel + 1, text, gap, c =>
    if c.atDocumentBoundary || c.sees '#' then some (text, gap, c)
    else do
      let (word, rest) ← plainWord? inFlow c.rest
      let c := c.moveTo rest
      -- The gap counts only if a word follows it.
      let (text, gap) := if word.isEmpty then (text, gap) else (text ++ gap.text ++ word, Gap.none)
      if c.peek.any isGap then
        let (gap, c) ← Gap.none.take? indent c
        if !inFlow && c.column < indent then return (text, gap, c)
        else plainFrom? inFlow indent fuel text gap c
      else return (text, gap, c)

/-- Takes a plain scalar. The answer says whether a line break has been passed
    behind it. -/
def plain? (inFlow : Bool) (indent : Nat) (c : Cursor) : Option (List Char × Bool × Cursor) := do
  let (text, gap, c) ← plainFrom? inFlow indent (c.rest.length + 1) [] Gap.none c
  return (text, !gap.breaks.isEmpty, c)

/-! ## Quoted scalars -/

/-- The character of an escape of one letter. -/
def escaped? : Char → Option Char
  | '0' => some '\x00'
  | 'a' => some '\x07'
  | 'b' => some '\x08'
  | 't' => some '\t'
  | '\t' => some '\t'
  | 'n' => some '\n'
  | 'v' => some '\x0b'
  | 'f' => some '\x0c'
  | 'r' => some '\r'
  | 'e' => some '\x1b'
  | ' ' => some ' '
  | '"' => some '"'
  | '/' => some '/'
  | '\\' => some '\\'
  | 'N' => some '\u0085'
  | '_' => some '\u00a0'
  | 'L' => some '\u2028'
  | 'P' => some '\u2029'
  | _ => none

/-- The number of hexadecimal digits behind the letter of a numeric escape. -/
def codeLength? : Char → Option Nat
  | 'x' => some 2
  | 'u' => some 4
  | 'U' => some 8
  | _ => none

/-- The number that hexadecimal digits denote. -/
def hexNumber? (digits : List Char) : Option Nat :=
  digits.foldlM (fun n d => (Json.hexValue? d).map (n * 16 + ·)) 0

/-- Takes the characters between quotes up to a gap, an escaped line break or the
    closing quote, at which it stops. -/
def quotedWord? (quote : Char) : List Char → Option (List Char × List Char)
  | [] => some ([], [])
  | c :: rest =>
    if isGap c then some ([], c :: rest)
    else if quote = '\'' then
      if c = '\'' then
        -- Two single quotes stand for one of them.
        match rest with
        | '\'' :: more => (quotedWord? quote more).map fun (word, rest) => ('\'' :: word, rest)
        | _ => some ([], c :: rest)
      else (quotedWord? quote rest).map fun (word, rest) => (c :: word, rest)
    else if c = '"' then some ([], c :: rest)
    else if c = '\\' then
      match rest with
      | [] => none
      | letter :: more =>
        if isBreak letter then some ([], c :: rest)
        else
          match escaped? letter, codeLength? letter with
          | some d, _ => (quotedWord? quote more).map fun (word, rest) => (d :: word, rest)
          | none, some n =>
            if more.length < n then none
            else do
              let code ← hexNumber? (more.take n)
              if code.isValidChar then
                let (word, rest) ← quotedWord? quote (more.drop n)
                return (Char.ofNat code :: word, rest)
              else none
          | none, none => none
    else (quotedWord? quote rest).map fun (word, rest) => (c :: word, rest)
termination_by cs => cs.length
decreasing_by all_goals (simp only [List.length_cons, List.length_drop]; omega)

/-- Takes a quoted scalar behind its opening quote, where `text` has been read. -/
def quotedFrom? (quote : Char) : Nat → List Char → Cursor → Option (List Char × Cursor)
  | 0, _, _ => none
  | fuel + 1, text, c =>
    if c.atDocumentBoundary || c.rest.isEmpty then none
    else do
      let (word, rest) ← quotedWord? quote c.rest
      let c := c.moveTo rest
      let text := text ++ word
      let (gap, c) : Gap × Cursor :=
        -- An escaped line break counts as a break, but one without a text.
        if c.sees '\\' && quote == '"' then (⟨[], [[]]⟩, (c.skip 1).takeBreak.2) else (Gap.none, c)
      if c.sees quote then return (text, c.skip 1)
      else
        let (gap, c) ← gap.take? 0 c
        quotedFrom? quote fuel (text ++ gap.text) c

/-- Takes a quoted scalar, beginning at its opening quote. -/
def quoted? (quote : Char) (c : Cursor) : Option (List Char × Cursor) :=
  quotedFrom? quote (c.rest.length + 1) [] (c.skip 1)

/-! ## Block scalars -/

/-- What becomes of the line breaks at the end of a block. -/
inductive Chomp where
  /-- All are dropped. -/
  | strip
  /-- The first is kept. -/
  | clip
  /-- All are kept. -/
  | keep
  deriving DecidableEq, Repr

/-- Takes a chomping mark. -/
def takeChomp (c : Cursor) : Option Chomp × Cursor :=
  if c.sees '+' then (some .keep, c.skip 1)
  else if c.sees '-' then (some .strip, c.skip 1)
  else (none, c)

/-- Takes an indentation mark, a digit that is not zero. -/
def takeIncrement? (c : Cursor) : Option (Option Nat × Cursor) :=
  match c.peek with
  | some d =>
    if d.isDigit then
      if d = '0' then none else some (some (d.toNat - '0'.toNat), c.skip 1)
    else some (none, c)
  | none => some (none, c)

/-- Takes the header of a block behind its first character. -/
def blockHeader? (c : Cursor) : Option (Chomp × Option Nat × Cursor) := do
  let (early, c) := takeChomp c
  let (increment, c) ← takeIncrement? c
  let (late, c) :=
    if early.isNone && increment.isSome then takeChomp c else (none, c)
  let c ← c.skipRestOfLine?
  return ((early.or late).getD .clip, increment, c)

/-- Takes empty lines and the indentation of the line behind them. `indent` is the
    indentation of the block, if known; `widest` the widest one met so far. A tab
    within the indentation is refused. -/
def blockBreaks? (indent : Option Nat) :
    Nat → Nat → List (List Char) → Cursor → Option (List (List Char) × Nat × Cursor)
  | 0, widest, breaks, c => some (breaks, widest, c)
  | fuel + 1, widest, breaks, c =>
    let spaces := (c.rest.takeWhile (· == ' ')).length
    let c := c.skip (match indent with
      | some n => min spaces (n - c.column)
      | none => spaces)
    let widest := max widest c.column
    if c.sees '\t' && indent.all (c.column < ·) then none
    else if c.peek.any isBreak then
      let (text, c) := c.takeBreak
      blockBreaks? indent fuel widest (breaks ++ [text]) c
    else some (breaks, widest, c)

/-- The lines of a block: the text read, the break behind its last line, whether
    that line begins with a blank, and the breaks of the empty lines behind it. -/
structure BlockLines where
  text : List Char
  lineBreak : List Char
  blankBefore : Bool
  emptyBreaks : List (List Char)
  deriving DecidableEq, Repr

/-- Takes the lines of a block. -/
def blockLines? (literal : Bool) (indent : Nat) :
    Nat → BlockLines → Cursor → Option (BlockLines × Cursor)
  | 0, b, c => some (b, c)
  | fuel + 1, b, c =>
    if c.column = indent ∧ ¬c.rest.isEmpty then do
      let blank := c.peek.any isBlank
      let folds := !literal && b.lineBreak == ['\n'] && !b.blankBefore && !blank
      let between :=
        if folds then if b.emptyBreaks.isEmpty then [' '] else [] else b.lineBreak
      let (line, c) := c.takeWhile fun x => !isBreak x
      -- What this line ends in is written when it is known what comes next.
      let (lineBreak, c) := c.takeBreak
      let (breaks, _, next) ← blockBreaks? (some indent) (c.rest.length + 1) 0 [] c
      blockLines? literal indent fuel
        ⟨b.text ++ between ++ b.emptyBreaks.flatten ++ line, lineBreak, blank, breaks⟩ next
    else some (b, c)

/-- Takes a block, beginning at its first character. `parent` is the indentation
    of what the block belongs to. -/
def block? (literal : Bool) (parent : Int) (c : Cursor) : Option (List Char × Cursor) := do
  let (chomp, increment, c) ← blockHeader? (c.skip 1)
  -- A mark counts from the column of the parent; without one the first line decides.
  let known := increment.map fun n => if 0 ≤ parent then parent.toNat + n else n
  let (breaks, widest, c) ← blockBreaks? known (c.rest.length + 1) 0 [] c
  let indent := known.getD (max (max widest (parent + 1).toNat) 1)
  let (b, c) ← blockLines? literal indent (c.rest.length + 1) ⟨[], [], false, breaks⟩ c
  let tail :=
    match chomp with
    | .strip => []
    | .clip => b.lineBreak
    | .keep => b.lineBreak ++ b.emptyBreaks.flatten
  return (b.text ++ tail, c)

end LayeredConfig.Yaml
