/-! # Quotes around a text

    A quote pair is given as a text: its first character opens, its second one
    closes, and a text of one character does both; further characters do not
    count, and the empty text is no pair. A text is quoted by a pair when it begins
    with the opening character and ends with the closing one, and the two are not
    the same place.
-/

namespace LayeredConfig.Scalar

/-- The opening and the closing character of a quote pair. -/
def quotePair? : List Char → Option (Char × Char)
  | [] => none
  | [both] => some (both, both)
  | opening :: closing :: _ => some (opening, closing)

/-- What stands between two quote characters at the ends of a text. -/
def between? (opening closing : Char) : List Char → Option (List Char)
  | [] => none
  | first :: rest =>
    match rest.reverse with
    | [] => none
    | last :: inner => if first = opening ∧ last = closing then some inner.reverse else none

/-- Takes the quotes off a text: the first pair that quotes it counts, and is
    answered by its opening character. -/
def unquote : List String → List Char → List Char × Option Char
  | [], cs => (cs, none)
  | pair :: pairs, cs =>
    match quotePair? pair.toList with
    | none => unquote pairs cs
    | some (opening, closing) =>
      match between? opening closing cs with
      | some inner => (inner, some opening)
      | none => unquote pairs cs

end LayeredConfig.Scalar
