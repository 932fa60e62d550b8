/-! # Blank characters and trimming

    The blank characters are those with the Unicode property `White_Space`.
    Trimming removes them from the ends of a text and nowhere else; it is used
    for lines, keys, values and include targets.
-/

namespace LayeredConfig.Text

/-! ## The class -/

/-- The characters with the property `White_Space`: 25 of them, in ten ranges. -/
def isBlank (c : Char) : Bool :=
  ('\t' ≤ c && c ≤ '\r') || c == ' ' || c == '\u0085' || c == '\u00a0' || c == '\u1680' ||
  ('\u2000' ≤ c && c ≤ '\u200a') || c == '\u2028' || c == '\u2029' || c == '\u202f' ||
  c == '\u205f' || c == '\u3000'

/-! ## Trimming -/

/-- Removes the blanks that a text begins with. -/
def trimStart (cs : List Char) : List Char :=
  cs.dropWhile isBlank

/-- Removes the blanks that a text ends with. -/
def trimEnd (cs : List Char) : List Char :=
  (cs.reverse.dropWhile isBlank).reverse

/-- Removes the blanks at both ends of a text. -/
def trim (cs : List Char) : List Char :=
  trimEnd (trimStart cs)

@[simp] theorem trimStart_nil : trimStart [] = [] := rfl

@[simp] theorem trim_nil : trim [] = [] := rfl

end LayeredConfig.Text
