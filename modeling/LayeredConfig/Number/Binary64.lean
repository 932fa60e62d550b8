/-! # Finite binary floating-point numbers

    The finite numbers of the 64-bit binary format, in a form without bit
    patterns: a sign and a rank. The rank counts the representable magnitudes
    from zero upwards, so that the neighbours of a number are the ranks next to
    its own. A magnitude is `m · 2^q`, where `q` is at least -1074 and `m` is
    below `2^53`; below the rank `2^52` the exponent stays at -1074 and the
    rank is `m` itself.

    Arithmetic is exact arithmetic on natural numbers followed by one rounding,
    `round?`: to the nearest magnitude, ties to the even rank, and no answer
    when the nearest magnitude is beyond the largest finite one.
-/

namespace LayeredConfig

/-- The mantissa bit that is not stored: two to the 52nd power, the smallest mantissa
    of a magnitude with full precision. -/
def Binary64.hiddenBit : Nat := 4503599627370496

/-- The number of finite magnitudes. -/
def Binary64.rankBound : Nat := 2047 * Binary64.hiddenBit

/-- A finite binary floating-point number; zero has both signs. -/
structure Binary64 where
  negative : Bool
  rank : Nat
  rank_lt : rank < Binary64.rankBound
  deriving DecidableEq, Repr

namespace Binary64

/-! ## Parts -/

/-- Zero with a sign. -/
def zero (negative : Bool) : Binary64 :=
  ⟨negative, 0, by decide⟩

/-- The integer `m` of the magnitude `m · 2^q`. -/
def mantissa (x : Binary64) : Nat :=
  if x.rank < hiddenBit then x.rank else hiddenBit + x.rank % hiddenBit

/-- The exponent `q` of the magnitude `m · 2^q`. -/
def exponent (x : Binary64) : Int :=
  if x.rank < hiddenBit then -1074 else (x.rank / hiddenBit : Nat) - 1075

/-- The number with the other sign. -/
def neg (x : Binary64) : Binary64 :=
  { x with negative := !x.negative }

/-- Whether the magnitude is zero. -/
def isZero (x : Binary64) : Bool :=
  x.rank == 0

/-! ## Rounding -/

/-- The natural number nearest to `num / den`, a tie going to the even one. -/
def nearest (num den : Nat) : Nat :=
  let floor := num / den
  let twice := 2 * (num % den)
  if twice < den ∨ (twice = den ∧ floor % 2 = 0) then floor else floor + 1

/-- The largest `e` with `2^e ≤ num / den`, for a positive quotient. -/
def binaryOrder (num den : Nat) : Int :=
  let guess : Int := (num.log2 : Int) - den.log2
  let fits : Bool :=
    if guess < 0 then den ≤ num * Nat.pow 2 (-guess).toNat else den * Nat.pow 2 guess.toNat ≤ num
  if fits then guess else guess - 1

/-- The finite number nearest to `num / den`, or `none` if there is no finite one
    near it. -/
def round? (negative : Bool) (num den : Nat) : Option Binary64 :=
  if num = 0 ∨ den = 0 then some (zero negative)
  else
    let q : Int := max (binaryOrder num den - 52) (-1074)
    let units :=
      if q < 0 then nearest (num * Nat.pow 2 (-q).toNat) den
      else nearest num (den * Nat.pow 2 q.toNat)
    -- With `2^53` units, after rounding up, this is the rank of the next power of two.
    let rank := (q + 1074).toNat * hiddenBit + units
    if h : rank < rankBound then some ⟨negative, rank, h⟩ else none

/-! ## Arithmetic -/

/-- The magnitude as a quotient of natural numbers. -/
def ratio (x : Binary64) : Nat × Nat :=
  if x.exponent < 0 then (x.mantissa, Nat.pow 2 (-x.exponent).toNat)
  else (x.mantissa * Nat.pow 2 x.exponent.toNat, 1)

/-- The rounded product. -/
def mul? (x y : Binary64) : Option Binary64 :=
  let (a, b) := x.ratio
  let (c, d) := y.ratio
  round? (x.negative != y.negative) (a * c) (b * d)

/-- The rounded quotient by a number that is not zero. -/
def div? (x y : Binary64) : Option Binary64 :=
  let (a, b) := x.ratio
  let (c, d) := y.ratio
  round? (x.negative != y.negative) (a * d) (b * c)

/-- The finite number nearest to `digits · 10^scale`. A scale so large or so small
    that the answer is beyond doubt is not carried out. -/
def ofScaled? (negative : Bool) (digits : Nat) (scale : Int) : Option Binary64 :=
  if digits = 0 then some (zero negative)
  -- The number is at least `10^401`.
  else if 400 < scale then none
  -- The number is below `2^(-1200)`, since `10^scale` is at most `2^(3 · scale)`.
  else if scale * 3 + digits.log2 < -1200 then some (zero negative)
  else if scale < 0 then round? negative digits (Nat.pow 10 (-scale).toNat)
  else round? negative (digits * Nat.pow 10 scale.toNat) 1

end Binary64

end LayeredConfig
