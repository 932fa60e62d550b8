import LayeredConfig.Number.Decimal

/-! # Numbers of a configuration

    A number is an integer that fits 64 bits, with or without a sign, or a finite
    floating-point number. An integer and a floating-point number are different
    values even where they are equal as numbers: `1` and `1.0` are written
    differently.
-/

namespace LayeredConfig

/-- The integers that fit 64 bits, with or without a sign. -/
def Number.Fits (i : Int) : Prop :=
  -9223372036854775808 ≤ i ∧ i < 18446744073709551616

instance (i : Int) : Decidable (Number.Fits i) := by
  unfold Number.Fits; infer_instance

/-- A number of a configuration. -/
inductive Number where
  | int (value : Int) (fits : Number.Fits value)
  | float (value : Binary64)
  deriving DecidableEq, Repr

namespace Number

/-- The number with an integer value, if there is one. -/
def ofInt? (i : Int) : Option Number :=
  if h : Fits i then some (.int i h) else none

/-- Numbers are written without an exponent from `0.00001` up to sixteen digits
    before the point, and beyond that with a signed exponent. -/
def layout : Decimal.Layout := ⟨-5, 15, true⟩

/-- The text of an integer. -/
def intText (i : Int) : List Char :=
  if i < 0 then '-' :: Decimal.natText i.natAbs else Decimal.natText i.natAbs

/-- The text of a number, where floating-point numbers follow `layout`. -/
def textIn (layout : Decimal.Layout) : Number → List Char
  | .int i _ => intText i
  | .float x => (Decimal.shortest x).text layout

/-- The text of a number. -/
def text (n : Number) : List Char := n.textIn layout

end Number

end LayeredConfig
