import LayeredConfig.Number

/-! # What plain scalars mean

    A plain scalar is null, a truth value, an integer, a floating-point number,
    or a text, by the first of these whose form it has. Digits with needless
    zeros in front are a text, whatever they look like.
-/

namespace LayeredConfig.Yaml

/-! ## Numbers -/

/-- The value of a digit in a radix of at most sixteen. -/
def radixDigit? (radix : Nat) (c : Char) : Option Nat :=
  let value :=
    if c.isDigit then c.toNat - '0'.toNat
    else if 'a' ≤ c && c ≤ 'f' then c.toNat - 'a'.toNat + 10
    else if 'A' ≤ c && c ≤ 'F' then c.toNat - 'A'.toNat + 10
    else radix
  if value < radix then some value else none

/-- The number that digits denote in a radix; there must be one digit at least. -/
def radixNumber? (radix : Nat) (cs : List Char) : Option Nat :=
  if cs.isEmpty then none
  else cs.foldlM (fun n c => (radixDigit? radix c).map (n * radix + ·)) 0

/-- Whether a text is made of digits with a needless zero in front, behind an
    optional sign. -/
def hasNeedlessZero (cs : List Char) : Bool :=
  match (Decimal.takeSign cs).2 with
  | '0' :: rest => !rest.isEmpty && rest.all Char.isDigit
  | _ => false

/-- The natural number of a text without a sign: in hexadecimal, octal or binary
    with the radix in front, or in decimal. -/
def natural? (cs : List Char) : Option Nat :=
  let inRadix :=
    match cs with
    | '0' :: 'x' :: digits => radixNumber? 16 digits
    | '0' :: 'o' :: digits => radixNumber? 8 digits
    | '0' :: 'b' :: digits => radixNumber? 2 digits
    | _ => none
  inRadix.or (if hasNeedlessZero cs then none else radixNumber? 10 cs)

/-- The integer of a text with an optional sign. -/
def integer? : List Char → Option Int
  | '-' :: rest => (natural? rest).map fun n => -(n : Int)
  | '+' :: rest => (natural? rest).map fun n => (n : Int)
  | cs => (natural? cs).map fun n => (n : Int)

/-- A floating-point scalar: a finite number, or one of the three that are not. -/
inductive FloatScalar where
  | finite (x : Binary64)
  | notFinite
  deriving DecidableEq, Repr

/-- The floating-point number of a text. Digits whose number is beyond the finite
    ones are no floating-point number. -/
def float? (cs : List Char) : Option FloatScalar :=
  let infinities := [".inf", ".Inf", ".INF", "+.inf", "+.Inf", "+.INF", "-.inf", "-.Inf", "-.INF"]
  let notNumbers := [".nan", ".NaN", ".NAN"]
  if (infinities ++ notNumbers).any (·.toList == cs) then some .notFinite
  else do return .finite (← (← Decimal.ofLiteral? cs).toBinary64?)

/-! ## Scalars -/

/-- What a scalar means. -/
inductive Meaning where
  | null
  | bool (b : Bool)
  | int (i : Int)
  | float (x : FloatScalar)
  | text
  deriving DecidableEq, Repr

/-- Whether a text is a spelling of null. -/
def isNull (cs : List Char) : Bool :=
  ["null", "Null", "NULL", "~"].any (·.toList == cs)

/-- The truth value that a text spells. -/
def bool? (cs : List Char) : Option Bool :=
  if ["true", "True", "TRUE"].any (·.toList == cs) then some true
  else if ["false", "False", "FALSE"].any (·.toList == cs) then some false
  else none

/-- Whether an integer fits 128 bits, with or without a sign. A larger one is not
    read as an integer. -/
def fits128 (i : Int) : Bool :=
  -(Nat.pow 2 127 : Nat) ≤ i && i < (Nat.pow 2 128 : Nat)

/-- The integer that a scalar means. -/
def intScalar? (cs : List Char) : Option Int :=
  (integer? cs).filter fits128

/-- The meaning of a plain scalar. -/
def meaning (cs : List Char) : Meaning :=
  if cs.isEmpty || isNull cs then .null
  else
    match bool? cs, intScalar? cs with
    | some b, _ => .bool b
    | none, some i => .int i
    | none, none =>
      if hasNeedlessZero cs then .text
      else
        match float? cs with
        | some x => .float x
        | none => .text

end LayeredConfig.Yaml
