import LayeredConfig.Text.Split

/-! # Lines of a text

    A line ends at a line feed, which does not belong to it; a carriage return
    directly before that line feed belongs to the ending as well. A carriage
    return anywhere else is an ordinary character, also at the very end of the
    text. What follows the last line feed is a line only if it is not empty.
-/

namespace LayeredConfig.Text

/-- The lines of a text, without their endings. -/
def lines : List Char → List (List Char)
  | [] => []
  | '\n' :: rest => [] :: lines rest
  | '\r' :: '\n' :: rest => [] :: lines rest
  | c :: rest => consFirst c (lines rest)

@[simp] theorem lines_nil : lines [] = [] := rfl

@[simp] theorem lines_newline (rest : List Char) : lines ('\n' :: rest) = [] :: lines rest := rfl

end LayeredConfig.Text
