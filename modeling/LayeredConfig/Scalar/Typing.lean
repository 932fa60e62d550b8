import LayeredConfig.Value

/-! # Typing of plain text

    A text that was written without quotes stands for the most specific value it
    looks like: one of three words, an integer, a floating-point number, and
    otherwise itself. An integer is one that fits 64 bits with a sign; beyond that
    its digits are read as a floating-point number, and beyond the largest finite
    one the text stays a text.
-/

namespace LayeredConfig.Scalar

/-- The value of one of the three words, in any case. -/
def word? (cs : List Char) : Option Value :=
  match String.ofList (cs.map Char.toLower) with
  | "true" => some (.bool true)
  | "false" => some (.bool false)
  | "null" => some .null
  | _ => none

/-- The integer that an optional sign and decimal digits denote. -/
def decimalInt? (cs : List Char) : Option Int :=
  let (negative, digits) := Decimal.takeSign cs
  if digits.isEmpty || !digits.all Char.isDigit then none
  else some (if negative then -(Decimal.natOfDigits digits : Int) else Decimal.natOfDigits digits)

/-- The number of an integer literal that fits 64 bits with a sign. -/
def integer? (cs : List Char) : Option Number := do
  let i ← decimalInt? cs
  if -9223372036854775808 ≤ i ∧ i < 9223372036854775808 then Number.ofInt? i else none

/-- The number nearest to a decimal literal, if there is a finite one. -/
def float? (cs : List Char) : Option Number := do
  return .float (← (← Decimal.ofLiteral? cs).toBinary64?)

/-- The value that a text stands for. -/
def typed (cs : List Char) : Value :=
  match word? cs with
  | some v => v
  | none =>
    match (integer? cs).or (float? cs) with
    | some n => .number n
    | none => .string (String.ofList cs)

end LayeredConfig.Scalar
