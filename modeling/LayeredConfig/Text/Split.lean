/-! # Splitting at a delimiter

    A delimiter is a non-empty text. Its occurrences are found from left to
    right and do not overlap: after one is found, the search goes on behind it.
    Replacing every occurrence is splitting at the delimiter and joining with
    the replacement.
-/

namespace LayeredConfig.Text

/-! ## Splitting and joining -/

/-- Puts a character in front of the first part. -/
def consFirst (c : Char) : List (List Char) → List (List Char)
  | [] => [[c]]
  | part :: rest => (c :: part) :: rest

/-- Splits at `delimiter`, where the next `skip` characters still belong to the
    occurrence found last. -/
def splitFrom (delimiter : List Char) : Nat → List Char → List (List Char)
  | _, [] => [[]]
  | skip + 1, _ :: rest => splitFrom delimiter skip rest
  | 0, c :: rest =>
    if delimiter.isPrefixOf (c :: rest) then
      [] :: splitFrom delimiter (delimiter.length - 1) rest
    else
      consFirst c (splitFrom delimiter 0 rest)

/-- The parts of a text between the occurrences of `delimiter`. There is always
    one part more than there are occurrences. -/
def split (delimiter cs : List Char) : List (List Char) :=
  splitFrom delimiter 0 cs

/-- The parts with `delimiter` between each two of them. -/
def join (delimiter : List Char) : List (List Char) → List Char
  | [] => []
  | [part] => part
  | part :: rest => part ++ delimiter ++ join delimiter rest

/-- Replaces every occurrence of `old` by `new`. -/
def replace (old new cs : List Char) : List Char :=
  join new (split old cs)

/-! ## Cutting once -/

/-- Cuts a text at the first occurrence of a character, which is dropped. -/
def cutAt (c : Char) : List Char → Option (List Char × List Char)
  | [] => none
  | d :: rest =>
    if d = c then some ([], rest)
    else (cutAt c rest).map fun (before, after) => (d :: before, after)

/-- Removes a suffix that the text ends with, or answers `none`. -/
def dropSuffix? (suffix cs : List Char) : Option (List Char) :=
  (suffix.reverse.isPrefixOf? cs.reverse).map List.reverse

end LayeredConfig.Text
