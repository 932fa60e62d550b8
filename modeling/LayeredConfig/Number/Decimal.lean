import LayeredConfig.Number.Binary64

/-! # Decimal numbers and their texts

    A decimal number is `± digits · 10^scale`. This module reads decimal literals,
    finds the shortest decimal that rounds to a given floating-point number, and
    writes it in a layout.

    A decimal rounds to `x` when it lies between the midpoints to the neighbours
    of `x`; a midpoint itself rounds to `x` when the mantissa of `x` is even.
    Among the multiples of `10^scale` only the two around `x` can be nearest to
    it, so the shortest decimal is found by trying scales from above: the first
    scale with one of these two between the midpoints gives the fewest digits.
-/

namespace LayeredConfig

/-- The number `± digits · 10^scale`. -/
structure Decimal where
  negative : Bool
  digits : Nat
  scale : Int
  deriving DecidableEq, Repr

namespace Decimal

/-! ## Literals -/

/-- The value of a digit character. -/
def digitValue (c : Char) : Nat := c.toNat - '0'.toNat

/-- The number that a run of decimal digits denotes. -/
def natOfDigits (cs : List Char) : Nat :=
  cs.foldl (fun n c => n * 10 + digitValue c) 0

/-- Takes a sign off the front of a text; no sign means plus. -/
def takeSign : List Char → Bool × List Char
  | '-' :: rest => (true, rest)
  | '+' :: rest => (false, rest)
  | cs => (false, cs)

/-- Reads the part of a literal behind its digits: nothing, or an exponent. -/
def ofExponent? : List Char → Option Int
  | [] => some 0
  | e :: rest =>
    if e = 'e' ∨ e = 'E' then
      let (negative, digits) := takeSign rest
      if digits.isEmpty || !digits.all Char.isDigit then none
      else some (if negative then -(natOfDigits digits : Int) else natOfDigits digits)
    else none

/-- Reads a decimal literal: an optional sign, digits with an optional point (at
    least one digit, before or after it), and an optional exponent. -/
def ofLiteral? (cs : List Char) : Option Decimal :=
  let (negative, unsigned) := takeSign cs
  let whole := unsigned.takeWhile Char.isDigit
  let (fraction, tail) :=
    match unsigned.dropWhile Char.isDigit with
    | '.' :: rest => (rest.takeWhile Char.isDigit, rest.dropWhile Char.isDigit)
    | rest => ([], rest)
  if whole.isEmpty && fraction.isEmpty then none
  else (ofExponent? tail).map fun exponent =>
    ⟨negative, natOfDigits (whole ++ fraction), exponent - fraction.length⟩

/-- The floating-point number nearest to a decimal. -/
def toBinary64? (d : Decimal) : Option Binary64 :=
  Binary64.ofScaled? d.negative d.digits d.scale

/-! ## The shortest decimal -/

/-- Whether the quotient `a / b` is at most `c / d`, or below it where `strict`. -/
def ratioLE (strict : Bool) (a b c d : Nat) : Bool :=
  if strict then a * d < c * b else a * d ≤ c * b

/-- A multiple of `10^scale` as a quotient. -/
def scaledRatio (digits : Nat) (scale : Int) : Nat × Nat :=
  if scale < 0 then (digits, Nat.pow 10 (-scale).toNat) else (digits * Nat.pow 10 scale.toNat, 1)

/-- Whether `digits · 10^scale` rounds to the magnitude of `x`. The distance to
    the lower neighbour is half as long where `x` is a power of two. -/
def roundsTo (x : Binary64) (digits : Nat) (scale : Int) : Bool :=
  let m := x.mantissa
  let q := x.exponent
  let lowerQuarters := if m = Binary64.hiddenBit ∧ -1074 < q then 4 * m - 1 else 4 * m - 2
  let quarters (n : Nat) : Nat × Nat :=
    if q < 2 then (n, Nat.pow 2 (2 - q).toNat) else (n * Nat.pow 2 (q - 2).toNat, 1)
  let (a, b) := scaledRatio digits scale
  let (lo, loDen) := quarters lowerQuarters
  let (hi, hiDen) := quarters (4 * m + 2)
  ratioLE (m % 2 = 1) lo loDen a b && ratioLE (m % 2 = 1) a b hi hiDen

/-- The multiple of `10^scale` nearest to the magnitude of `x` among those that
    round to it; of two at one distance the even one. -/
def candidate? (x : Binary64) (scale : Int) : Option Nat :=
  let (num, den) := x.ratio
  let (num, den) :=
    if scale < 0 then (num * Nat.pow 10 (-scale).toNat, den)
    else (num, den * Nat.pow 10 scale.toNat)
  let below := num / den
  match roundsTo x below scale, roundsTo x (below + 1) scale with
  | true, true => some (Binary64.nearest num den)
  | true, false => some below
  | false, true => some (below + 1)
  | false, false => none

/-- Tries `tries` scales, from `scale` downwards. -/
def searchFrom (x : Binary64) (scale : Int) : Nat → Decimal
  | 0 => ⟨x.negative, 0, 0⟩
  | tries + 1 =>
    match candidate? x scale with
    | some digits => ⟨x.negative, digits, scale⟩
    | none => searchFrom x (scale - 1) tries

/-- The shortest decimal that rounds to `x`. The search begins above the first
    digit of `x`, and 17 digits are always enough. -/
def shortest (x : Binary64) : Decimal :=
  if x.isZero then ⟨x.negative, 0, 0⟩
  else
    -- 30103 / 100000 is a little more than the decimal logarithm of two.
    let order : Int := x.mantissa.log2 + x.exponent
    searchFrom x ((order + 1) * 30103 / 100000 + 1) 24

/-! ## Layout -/

/-- How a decimal is written: the range of exponents of the first digit that is
    written without an exponent, and whether a positive exponent has a sign. -/
structure Layout where
  lowest : Int
  highest : Int
  signed : Bool
  deriving DecidableEq, Repr

/-- The digits of a natural number. -/
def natText (n : Nat) : List Char := (Nat.toDigits 10 n)

/-- The text of an exponent. -/
def exponentText (layout : Layout) (e : Int) : List Char :=
  if e < 0 then '-' :: natText e.natAbs
  else if layout.signed then '+' :: natText e.natAbs
  else natText e.natAbs

/-- Digits with a point behind the first `whole` of them, zeros filling up either
    side, and at least one digit on both. -/
def pointed (digits : List Char) (whole : Int) : List Char :=
  if whole ≤ 0 then '0' :: '.' :: (List.replicate (-whole).toNat '0' ++ digits)
  else
    let n := whole.toNat
    if digits.length ≤ n then digits ++ List.replicate (n - digits.length) '0' ++ ['.', '0']
    else digits.take n ++ '.' :: digits.drop n

/-- The text of a decimal number in a layout. -/
def text (layout : Layout) (d : Decimal) : List Char :=
  let digits := natText d.digits
  let first : Int := d.scale + digits.length - 1
  let magnitude :=
    if d.digits = 0 then ['0', '.', '0']
    else if layout.lowest ≤ first && first ≤ layout.highest then pointed digits (first + 1)
    else
      let leading := digits.take 1
      let more := digits.drop 1
      leading ++ (if more.isEmpty then [] else '.' :: more) ++ 'e' :: exponentText layout first
  if d.negative then '-' :: magnitude else magnitude

end Decimal

end LayeredConfig
