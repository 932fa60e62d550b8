import LayeredConfig.Json.Printer

/-! # The text of a value

    What a value becomes where it is put into another text: null becomes nothing,
    a text stays as it is, and everything else is written as compact JSON.
-/

namespace LayeredConfig.Value

/-- The text that stands for a value within another text. -/
def text : Value → List Char
  | .null => []
  | .string s => s.toList
  | v => Json.compact v

@[simp] theorem text_null : text .null = [] := rfl

@[simp] theorem text_string (s : String) : text (.string s) = s.toList := rfl

end LayeredConfig.Value
