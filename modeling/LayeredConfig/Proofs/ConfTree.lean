import LayeredConfig.Proofs.KeyPaths
import LayeredConfig.Proofs.OrderedEntries
import LayeredConfig.Proofs.ScalarText
import LayeredConfig.Proofs.Steps

/-! # The tree that an assignment file makes

    Without a queue an assignment file does nothing to an empty nested store but make a
    tree, one assignment after the other. An assignment changes what is read under the
    first key of its path, and there it depends only on what is read under that key, as
    long as its text refers to nothing.

    **Main results.** `process_standard`: the tree of a text; `get?_assignTo_of_apart` and
    `get?_assignTo_congr`: what an assignment keeps.
-/

namespace LayeredConfig

/-! ## Lines without references -/

namespace Text

theorem mem_of_mem_trim {cs : List Char} {c : Char} (h : c ∈ trim cs) : c ∈ cs := by
  unfold trim trimEnd trimStart at h
  rw [List.mem_reverse] at h
  have hend := (List.dropWhile_sublist isBlank).subset h
  rw [List.mem_reverse] at hend
  exact (List.dropWhile_sublist isBlank).subset hend

end Text

namespace Conf

theorem mem_of_takeExport (line : List Char) : ∀ c ∈ (takeExport line).2, c ∈ line := by
  intro c hc
  unfold takeExport at hc
  split at hc
  · next rest hrest =>
    split at hc
    · have hsuffix := List.isPrefixOf?_eq_some_iff_append_eq.mp hrest
      rw [← hsuffix]
      exact List.mem_append_right _ ((List.dropWhile_sublist Text.isBlank).subset hc)
    · exact hc
  · exact hc

theorem mem_of_parts? {separator : Char} {line : List Char} {parts : Parts}
    (h : parts? separator line = some parts) : ∀ c ∈ parts.value, c ∈ line := by
  unfold parts? at h
  dsimp only at h
  split at h
  · exact nomatch h
  · obtain ⟨⟨front, back⟩, hcut, rfl⟩ := Option.map_eq_some_iff.mp h
    obtain ⟨hline, _⟩ := Text.cutAt_eq_some_iff.mp hcut
    intro c hc
    have hmem : c ∈ front ++ separator :: back :=
      List.mem_append_right _ (List.mem_cons_of_mem _ hc)
    exact Text.mem_of_mem_trim (mem_of_takeExport _ c (hline ▸ hmem))

/-- The text of an assignment stands in its line. -/
theorem mem_of_ofLine? {line : List Char} {a : Assignment}
    (h : Assignment.ofLine? .standard line = some a) : ∀ c ∈ a.text, c ∈ line := by
  unfold Assignment.ofLine? at h
  cases hparts : parts? Options.standard.separator line with
  | none =>
    rw [hparts] at h
    exact nomatch h
  | some parts =>
    rw [hparts] at h
    obtain rfl := Option.some.inj h
    intro c hc
    apply mem_of_parts? hparts
    apply Text.mem_of_mem_trim
    change c ∈ (Scalar.unquote Options.standard.quotes (Text.trim parts.value)).1 at hc
    rcases Scalar.unquote_cases (Text.trim parts.value) with hnone | ⟨q, inner, _, htext, hsome⟩
    · rwa [hnone] at hc
    · rw [hsome] at hc
      rw [htext]
      simp [show c ∈ inner from hc]

/-- What is assigned in a line without a dollar sign refers to nothing. -/
theorem names_of_ofLine? {line : List Char} {a : Assignment}
    (h : Assignment.ofLine? .standard line = some a) (hdollar : '$' ∉ line) :
    a.names .standard = [] := by
  have htext : '$' ∉ a.text := fun hmem => hdollar (mem_of_ofLine? h '$' hmem)
  have hpieces := Reference.shellPieces_append htext []
  rw [List.append_nil] at hpieces
  unfold Assignment.names
  split
  · rfl
  · have hnone : (Reference.shellPieces a.text).filterMap Reference.Piece.reference? = [] := by
      rw [hpieces, List.filterMap_append, List.filterMap_map]
      exact List.append_eq_nil_iff.mpr ⟨List.filterMap_eq_nil_iff.mpr fun _ _ => rfl, rfl⟩
    unfold Reference.namesOf
    rw [hnone]
    rfl

end Conf

/-! ## Texts without continuations -/

namespace Source.Conf

open LayeredConfig.Conf

/-- Without continuations every line of a text stands for itself. -/
theorem assignments_of_none {content : List Char}
    (h : ∀ line ∈ Text.lines content, isContinuation line = false) :
    assignments .standard content =
      (Text.lines content).filterMap (Assignment.ofLine? .standard) := by
  show (foldLines (Text.lines content)).filterMap _ = _
  rw [foldLines_eq_self h]

/-- The assignments of a text that was put together from lines. -/
theorem assignments_unlines {lines : List (List Char)} (h : ∀ line ∈ lines, '\n' ∉ line) :
    assignments .standard (Edit.Conf.unlines lines) =
      (foldLines (lines.map Text.dropReturn)).filterMap (Assignment.ofLine? .standard) := by
  unfold assignments logicalLines
  by_cases hempty : lines = [[]]
  · -- A single empty line is lost, and nothing is assigned in it.
    subst hempty
    rfl
  · rw [Edit.Conf.lines_unlines h hempty]
    rfl

/-- So it is where the text was put together from lines. -/
theorem assignments_unlines_of_none {lines : List (List Char)}
    (h : ∀ line ∈ lines, '\n' ∉ line ∧ isContinuation line = false) :
    assignments .standard (Edit.Conf.unlines lines) =
      lines.filterMap (Assignment.ofLine? .standard) := by
  have hcontinuation : ∀ line ∈ lines.map Text.dropReturn, isContinuation line = false := by
    intro line hline
    obtain ⟨original, hmem, rfl⟩ := List.mem_map.mp hline
    rw [isContinuation_dropReturn]
    exact (h original hmem).2
  rw [assignments_unlines fun line hline => (h line hline).1, foldLines_eq_self hcontinuation,
    List.filterMap_map]
  congr 1
  funext line
  exact ofLine?_dropReturn .standard line

/-! ## Trees -/

/-- The path that an assignment writes at. -/
def pathOf (a : Assignment) : List String := Separator.standard.split a.key

/-- The tree after an assignment. -/
def assignTo (m : Entries Value) (a : Assignment) : Entries Value :=
  let v := (a.formula .standard).value (.nested m .standard)
  if a.append then m.setAt (pathOf a) (.array (itemsOf (m.at? (pathOf a)) ++ [v]))
  else m.setAt (pathOf a) v

/-- The tree after the assignments that stand in logical lines. -/
def assignLines (m : Entries Value) (lines : List (List Char)) : Entries Value :=
  (lines.filterMap (Assignment.ofLine? .standard)).foldl assignTo m

/-- The tree of a text. -/
def treeOf (content : List Char) : Entries Value :=
  (assignments .standard content).foldl assignTo []

/-- The tree of a text that was put together from lines without continuations. -/
theorem treeOf_unlines {lines : List (List Char)}
    (h : ∀ line ∈ lines, '\n' ∉ line ∧ isContinuation line = false) :
    treeOf (Edit.Conf.unlines lines) = assignLines [] lines := by
  unfold treeOf assignLines
  rw [assignments_unlines_of_none h]

/-- Carrying out an assignment in a nested store changes its tree. -/
theorem store_stepOf (files : Snapshot) (a : Assignment) {s : Session} {m : Entries Value}
    (hstore : s.store = .nested m .standard) :
    ((stepOf .standard false a).run files s).store = .nested (assignTo m a) .standard := by
  unfold stepOf assignTo
  rw [Bool.false_and, if_neg Bool.false_ne_true]
  split
  · show (s.store.set a.key _) = _
    rw [hstore]
    rfl
  · show (s.store.set a.key _) = _
    rw [hstore]
    rfl

theorem store_runAll (files : Snapshot) (as : List Assignment) {s : Session} {m : Entries Value}
    (hstore : s.store = .nested m .standard) :
    (s.runAll files (as.map (stepOf .standard false))).store =
      .nested (as.foldl assignTo m) .standard := by
  induction as generalizing s m with
  | nil => exact hstore
  | cons a rest ih =>
    rw [List.map_cons, Session.runAll_cons, List.foldl_cons]
    exact ih (store_stepOf files a hstore)

/-- **The tree of a text** is what an empty nested store holds after the text has been
    applied to it. -/
theorem process_standard (files : Snapshot) (content : List Char) :
    ∃ s, (Source.conf content .standard).process files
        (Session.fresh (.nested [] .standard)) = .ok s ∧
      s.store = .nested (treeOf content) .standard := by
  refine ⟨_, Source.process_eq files _ _, ?_⟩
  show (Session.runAll files _ (Step.within _ _)).store = _
  rw [Session.runAll_within]
  exact store_runAll files _ rfl

/-- An assignment is read under its key. -/
theorem at?_assignTo_self (m : Entries Value) (a : Assignment) :
    (assignTo m a).at? (pathOf a) =
      some (if a.append then
        .array (itemsOf (m.at? (pathOf a)) ++ [(a.formula .standard).value (.nested m .standard)])
      else (a.formula .standard).value (.nested m .standard)) := by
  have hpath : pathOf a ≠ [] := Separator.split_ne_nil .standard a.key
  unfold assignTo
  dsimp only
  split
  · exact Entries.at?_setAt_self m hpath _
  · exact Entries.at?_setAt_self m hpath _

/-- **What parts from an assignment** is kept. -/
theorem at?_assignTo_of_apart (m : Entries Value) {a : Assignment} (path : List String)
    (hbeneath : ¬ path <+: pathOf a) (habove : ¬ pathOf a <+: path) :
    (assignTo m a).at? path = m.at? path := by
  unfold assignTo
  dsimp only
  split
  · exact Entries.at?_setAt_apart m habove hbeneath _
  · exact Entries.at?_setAt_apart m habove hbeneath _

/-- So is a first key that the assignment does not begin with. -/
theorem get?_assignTo_of_apart {a : Assignment} {key : String} (h : ¬ [key] <+: pathOf a)
    (m : Entries Value) : (assignTo m a).get? key = m.get? key := by
  apply at?_assignTo_of_apart m [key] h
  intro hends
  rcases List.prefix_cons_iff.mp hends with hnil | ⟨rest, hpath, hrest⟩
  · exact Separator.split_ne_nil .standard a.key hnil
  · rw [List.prefix_nil] at hrest
    rw [hpath, hrest] at h
    exact h List.prefix_rfl

/-- **What trees read the same under a key**, they do after the same assignment, if it
    refers to nothing. -/
theorem get?_assignTo_congr {m n : Entries Value} {a : Assignment} {key : String}
    (hnames : a.names .standard = []) (h : m.get? key = n.get? key) :
    (assignTo m a).get? key = (assignTo n a).get? key := by
  by_cases hpath : [key] <+: pathOf a
  · obtain ⟨rest, hrest⟩ := hpath
    have hsame : m.at? (pathOf a) = n.at? (pathOf a) := by
      rw [← hrest]
      exact Entries.at?_congr h rest
    have hvalue : (a.formula .standard).value (.nested m .standard) =
        (a.formula .standard).value (.nested n .standard) := by
      apply (a.formula .standard).value_congr
      intro name hname
      change name ∈ a.names .standard at hname
      rw [hnames] at hname
      exact nomatch hname
    have hread : m.at? [key] = n.at? [key] := h
    rw [← Entries.at?_singleton, ← Entries.at?_singleton]
    unfold assignTo
    dsimp only
    rw [hsame, hvalue]
    split
    · exact Entries.at?_setAt_congr hread _ _
    · exact Entries.at?_setAt_congr hread _ _
  · rw [get?_assignTo_of_apart hpath, get?_assignTo_of_apart hpath, h]

theorem ordered_assignTo {m : Entries Value} (h : m.Ordered) (a : Assignment) :
    (assignTo m a).Ordered := by
  unfold assignTo
  dsimp only
  split
  · exact h.setAt _ _
  · exact h.setAt _ _

end Source.Conf

end LayeredConfig
