import LayeredConfig.Text.Split

/-! # Namespaces in flat keys

    Where a key may hold letters, digits and underscores only, underscores stand
    for the marks of nesting: three in a row for the namespace mark, a backslash,
    and two in a row for the scope mark, two colons. Threes are taken first, from
    the left.
-/

namespace LayeredConfig

/-- The mark for three underscores in a row. -/
def namespaceMark : List Char := ['\\']

/-- The mark for two underscores in a row. -/
def scopeMark : List Char := [':', ':']

/-- Replaces rows of underscores in a key by the marks they stand for. -/
def rewriteNamespace (key : List Char) : List Char :=
  Text.replace ['_', '_'] scopeMark (Text.replace ['_', '_', '_'] namespaceMark key)

end LayeredConfig
