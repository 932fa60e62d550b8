import LayeredConfig.Number

/-! # JSON numerals

    A numeral is an integer without leading zeros, an optional fraction and an
    optional exponent. An integer that fits 64 bits is kept as it is. Any other
    numeral is a floating-point number computed in two rounded steps: the digits
    are gathered in a 64-bit significand, and the significand is multiplied or
    divided once by a power of ten. The result is not always the number nearest
    to the numeral, but it is the same on every machine.

    Gathering drops digits that no longer fit. A dropped digit of the integer
    part counts towards the scale; a dropped digit of the fraction does not, and
    neither does any digit behind it.
-/

namespace LayeredConfig.Json

/-- The significand gathered so far, and the scale of its last digit. -/
structure Gathered where
  significand : Nat
  scale : Int
  deriving DecidableEq, Repr

/-- Whether a significand fits 64 bits. -/
def fits64 (n : Nat) : Bool := n < 18446744073709551616

/-- Gathers the digits of the integer part. -/
def gatherWhole (g : Gathered) : List Char → Gathered
  | [] => g
  | d :: rest =>
    let next := g.significand * 10 + Decimal.digitValue d
    if fits64 next then gatherWhole { g with significand := next } rest
    -- This digit and those behind it only count.
    else { g with scale := g.scale + (rest.length + 1) }

/-- Gathers the digits of the fraction. -/
def gatherFraction (g : Gathered) : List Char → Gathered
  | [] => g
  | d :: rest =>
    let next := g.significand * 10 + Decimal.digitValue d
    if fits64 next then gatherFraction ⟨next, g.scale - 1⟩ rest else g

/-- A power of ten as a floating-point number. -/
def powerOfTen? (n : Nat) : Option Binary64 :=
  Binary64.ofScaled? false 1 n

/-- Multiplies or divides by a power of ten. A quotient by more than `10^308` is
    taken in two steps, and by more than `10^616` it is zero. -/
def scaleBy? (x : Binary64) (scale : Int) : Option Binary64 :=
  if x.isZero then some x
  else if 308 < scale then none
  else if 0 ≤ scale then do x.mul? (← powerOfTen? scale.toNat)
  else if -308 ≤ scale then do x.div? (← powerOfTen? (-scale).toNat)
  else if -616 ≤ scale then do
    let y ← x.div? (← powerOfTen? 308)
    y.div? (← powerOfTen? (-scale - 308).toNat)
  else some (Binary64.zero false)

/-- The floating-point number of a gathered significand. -/
def Gathered.float? (negative : Bool) (g : Gathered) : Option Number := do
  let x ← scaleBy? (← Binary64.round? false g.significand 1) g.scale
  return .float (if negative then x.neg else x)

/-- The number of a numeral without fraction and exponent. Minus zero and the
    integers that do not fit are floating-point numbers. -/
def integer? (negative : Bool) (digits : List Char) : Option Number :=
  let g := gatherWhole ⟨0, 0⟩ digits
  let i : Int := if negative then -(g.significand : Int) else g.significand
  if g.scale = 0 ∧ ¬(negative ∧ g.significand = 0) ∧ -9223372036854775808 ≤ i then Number.ofInt? i
  else g.float? negative

/-- Splits off an optional fraction; a point needs a digit behind it. -/
def takeFraction? : List Char → Option (Option (List Char) × List Char)
  | '.' :: rest =>
    let digits := rest.takeWhile Char.isDigit
    if digits.isEmpty then none else some (some digits, rest.dropWhile Char.isDigit)
  | cs => some (none, cs)

/-- Reads an unsigned numeral. -/
def unsigned? (negative : Bool) (cs : List Char) : Option Number := do
  let whole := cs.takeWhile Char.isDigit
  if whole.isEmpty || (whole.head? == some '0' && 1 < whole.length) then none
  let (fraction, tail) ← takeFraction? (cs.dropWhile Char.isDigit)
  if fraction.isNone && tail.isEmpty then integer? negative whole
  else
    let exponent ← Decimal.ofExponent? tail
    let g := gatherFraction (gatherWhole ⟨0, 0⟩ whole) (fraction.getD [])
    { g with scale := g.scale + exponent }.float? negative

/-- The number that a JSON numeral denotes, or `none` for a text that is no
    numeral or denotes no finite number. -/
def numeral? : List Char → Option Number
  | '-' :: rest => unsigned? true rest
  | cs => unsigned? false cs

end LayeredConfig.Json
