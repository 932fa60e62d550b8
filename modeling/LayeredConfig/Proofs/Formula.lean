import LayeredConfig.Source.Conf
import LayeredConfig.Source.Document

/-! # Values made from settings

    The value of an assignment or of a leaf is made from a store through the
    references in its text. Which names it refers to is a matter of the text alone,
    and the value depends on the store only through what these names read. Both is
    what a formula is: names, and a function of the store that reads no others.

    **Main definitions.** `Conf.Assignment.formula` for the value of an assignment
    and `Source.Document.leafFormula` for that of a leaf of a document.
-/

namespace LayeredConfig

/-! ## Expansions -/

namespace Reference

/-- The names that pieces refer to, each of them once. -/
def namesOf (nameOf : Reference → String) (pieces : List Piece) : List String :=
  ((pieces.filterMap Piece.reference?).map nameOf).eraseDups

theorem mem_namesOf (nameOf : Reference → String) {pieces : List Piece} {r : Reference}
    (h : Piece.token r ∈ pieces) : nameOf r ∈ namesOf nameOf pieces := by
  unfold namesOf
  rw [List.mem_eraseDups]
  apply List.mem_map_of_mem
  rw [List.mem_filterMap]
  exact ⟨.token r, h, rfl⟩

/-- What a piece becomes. -/
def Piece.expanded (textOf : Reference → List Char) : Piece → List Char
  | .verbatim c => [c]
  | .token r => textOf r

theorem expand_eq (nameOf : Reference → String) (textOf : Reference → List Char)
    (pieces : List Piece) :
    expand nameOf textOf pieces =
      ⟨pieces.flatMap (Piece.expanded textOf), namesOf nameOf pieces⟩ := rfl

/-- An expansion depends only on the texts of the tokens that occur. -/
theorem expand_congr (nameOf : Reference → String) {textOf textOf' : Reference → List Char}
    {pieces : List Piece} (h : ∀ r, Piece.token r ∈ pieces → textOf r = textOf' r) :
    expand nameOf textOf pieces = expand nameOf textOf' pieces := by
  have htext : ∀ piece ∈ pieces, Piece.expanded textOf piece = Piece.expanded textOf' piece := by
    intro piece hpiece
    cases piece with
    | verbatim c => rfl
    | token r => exact h r hpiece
  rw [expand_eq, expand_eq, List.flatMap_def, List.flatMap_def, List.map_congr_left htext]

/-- The text of a shell token depends only on what its name reads. -/
theorem shellText_congr {s t : Store} {lower : Bool} {r : Reference}
    (h : s.get? (shellName lower r) = t.get? (shellName lower r)) :
    shellText s lower r = shellText t lower r := by
  unfold shellText
  rw [h]

/-- The text of a brace token depends only on what its name reads. -/
theorem braceText_congr {s t : Store} {r : Reference}
    (h : s.get? (String.ofList r.name) = t.get? (String.ofList r.name)) :
    braceText s r = braceText t r := by
  unfold braceText
  rw [h]

theorem expandShell_congr {s t : Store} {lower : Bool} {cs : List Char}
    (h : ∀ n ∈ namesOf (shellName lower) (shellPieces cs), s.get? n = t.get? n) :
    expandShell s lower cs = expandShell t lower cs := by
  apply expand_congr
  intro r hr
  exact shellText_congr (h _ (mem_namesOf _ hr))

theorem expandBraces_congr {s t : Store} {cs : List Char}
    (h : ∀ n ∈ namesOf (fun r => String.ofList r.name) (bracePieces cs), s.get? n = t.get? n) :
    expandBraces s cs = expandBraces t cs := by
  apply expand_congr
  intro r hr
  exact braceText_congr (h _ (mem_namesOf (fun r => String.ofList r.name) hr))

end Reference

/-! ## Formulas -/

/-- How a value is made from the settings of a store. -/
structure Formula where
  /-- The names that the value refers to. -/
  names : List String
  /-- The value for a store. -/
  value : Store → Value
  /-- Nothing but the names is read. -/
  value_congr : ∀ {s t : Store}, (∀ n ∈ names, s.get? n = t.get? n) → value s = value t

namespace Formula

/-- The formula of a value that refers to nothing. -/
def const (v : Value) : Formula where
  names := []
  value _ := v
  value_congr _ := rfl

end Formula

/-! ## Assignments -/

namespace Conf.Assignment

/-- The names that the text of an assignment refers to. -/
def names (o : Options) (a : Assignment) : List String :=
  -- Single quotes keep references from being expanded.
  if a.quote = some literalQuote then []
  else Reference.namesOf (Reference.shellName o.lower) (Reference.shellPieces a.text)

/-- The names do not depend on the store. -/
theorem names_expansion (o : Options) (s : Store) (a : Assignment) :
    (a.expansion o s).names = a.names o := by
  unfold expansion names
  split <;> rfl

/-- The expansion depends only on what the names read. -/
theorem expansion_congr {o : Options} {a : Assignment} {s t : Store}
    (h : ∀ n ∈ a.names o, s.get? n = t.get? n) : a.expansion o s = a.expansion o t := by
  unfold expansion
  unfold names at h
  split
  · rfl
  · next hquote =>
    rw [if_neg hquote] at h
    exact Reference.expandShell_congr h

/-- How the value of an assignment is made. -/
def formula (o : Options) (a : Assignment) : Formula where
  names := a.names o
  value s := a.valueOf o (a.expansion o s).text
  value_congr h := by rw [expansion_congr h]

end Conf.Assignment

/-! ## Leaves of documents -/

namespace Source.Document

/-- How the value of a leaf is made. -/
def leafFormula (o : Options) : Value → Formula
  | .string text =>
    if o.interpolate && Reference.hasBraceToken text.toList then
      { names := Reference.namesOf (fun r => String.ofList r.name)
          (Reference.bracePieces text.toList)
        value := fun s => .string (String.ofList (Reference.expandBraces s text.toList).text)
        value_congr := fun h => by rw [Reference.expandBraces_congr h] }
    else .const (.string text)
  | leaf => .const leaf

/-- A leaf is written with the value and the names of its formula. -/
theorem resolve_eq (o : Options) (s : Store) (leaf : Value) :
    resolve o s leaf = ((leafFormula o leaf).value s, (leafFormula o leaf).names) := by
  -- Only a text can hold references; everything else is written as it is.
  cases leaf with
  | string text =>
    unfold resolve leafFormula
    dsimp only
    split <;> rfl
  | _ => rfl

end Source.Document

end LayeredConfig
