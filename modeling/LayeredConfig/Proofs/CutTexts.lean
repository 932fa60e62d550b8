import LayeredConfig.Proofs.Externals
import LayeredConfig.Proofs.LineReading

/-! # Texts that are cut between their lines

    An assignment file says what its lines say, one after the other, so it does not matter
    whether they stand in one text or in two. A text can be cut at a line feed, unless the
    line behind it continues the one before: continuations belong to the text of the line
    that they continue.

    The two texts are not quite what the one was. Where the first of them ends there is no
    line feed any more, so a carriage return in front of it stays in the last line, and an
    empty line is lost. Neither says anything, since a line is trimmed before it is read.

    **Main results.** `assignments_append`: the assignments of the two texts;
    `processAll_cut`: what they leave behind is what the one text leaves behind.
-/

namespace LayeredConfig

/-! ## Lines -/

namespace Text

theorem lines_ne_nil {cs : List Char} (h : cs ≠ []) : lines cs ≠ [] := by
  cases cs using lines.fun_cases_unfolding with
  | case1 => exact absurd rfl h
  | case2 rest => simp
  | case3 rest => simp
  | case4 c rest => exact consFirst_ne_nil c _

/-- Lines end at line feeds, so those behind one are the lines of a text of their own. -/
theorem lines_append (cs rest : List Char) :
    lines (cs ++ '\n' :: rest) = lines (cs ++ ['\n']) ++ lines rest := by
  induction cs using lines.induct with
  | case1 => rfl
  | case2 more ih =>
    rw [List.cons_append, List.cons_append, lines_newline, lines_newline, ih, List.cons_append]
  | case3 more ih =>
    simp only [List.cons_append, lines.eq_3, ih]
  | case4 c more hc hreturn ih =>
    by_cases hlast : c = '\r' ∧ more = []
    · obtain ⟨rfl, rfl⟩ := hlast
      rfl
    · -- A carriage return in front of another character is one like any other.
      have hnext : ∀ tail, c = '\r' → (more ++ '\n' :: tail).head? ≠ some '\n' := by
        intro tail heq hhead
        cases more with
        | nil => exact hlast ⟨heq, rfl⟩
        | cons d after =>
          obtain rfl := Option.some.inj hhead
          exact hreturn after heq rfl
      rw [List.cons_append, List.cons_append, lines_cons hc (hnext rest),
        lines_cons hc (hnext []), ih, consFirst_append c (lines_ne_nil (by simp))]

/-- A line feed at the end of a text ends its last line, or else adds an empty one. -/
theorem lines_append_singleton (cs : List Char) :
    lines (cs ++ ['\n']) = lines cs ++ [[]] ∨
      ∃ front last, lines cs = front ++ [last] ∧
        lines (cs ++ ['\n']) = front ++ [dropReturn last] := by
  have hline : ∀ line : List Char, '\n' ∉ line →
      lines (line ++ ['\n']) = lines line ++ [[]] ∨
        lines line = [line] ∧ lines (line ++ ['\n']) = [dropReturn line] := by
    intro line hnewline
    by_cases hnil : line = []
    · subst hnil
      exact .inl rfl
    · exact .inr ⟨lines_of_not_mem hnil hnewline, lines_append_newline hnewline []⟩
  by_cases hmem : '\n' ∈ cs
  · -- What stands behind the last line feed is the line that is still open.
    obtain ⟨back, front, hreverse, hback⟩ := List.eq_append_cons_of_mem (List.mem_reverse.mpr hmem)
    have hcs : cs = front.reverse ++ '\n' :: back.reverse := by
      rw [← List.reverse_reverse cs, hreverse]
      simp
    rw [hcs, List.append_assoc, List.cons_append, lines_append _ back.reverse,
      lines_append _ (back.reverse ++ ['\n'])]
    rcases hline back.reverse (by simpa using hback) with hempty | ⟨hopen, hclosed⟩
    · rw [hempty]
      exact .inl (List.append_assoc _ _ _).symm
    · exact .inr ⟨_, back.reverse, by rw [hopen], by rw [hclosed]⟩
  · rcases hline cs hmem with hempty | ⟨hopen, hclosed⟩
    · exact .inl hempty
    · exact .inr ⟨[], cs, hopen, hclosed⟩

end Text

namespace Conf

/-- The first line of a text begins as the text does. -/
theorem isContinuation_of_mem_head?_lines {cs : List Char} (h : isContinuation cs = false) :
    ∀ line ∈ (Text.lines cs).head?, isContinuation line = false := by
  intro line hline
  cases cs using Text.lines.fun_cases_unfolding with
  | case1 => exact nomatch hline
  | case2 rest =>
    obtain rfl := Option.some.inj hline
    rfl
  | case3 rest =>
    obtain rfl := Option.some.inj hline
    rfl
  | case4 c rest hc hreturn =>
    rw [Text.lines.eq_4 _ _ hc hreturn] at hline
    cases hrest : Text.lines rest with
    | nil =>
      rw [hrest] at hline
      obtain rfl := Option.some.inj hline
      exact h
    | cons first more =>
      rw [hrest] at hline
      obtain rfl := Option.some.inj hline
      exact h

/-- Lines are folded in two parts where the second one does not begin with a continuation. -/
theorem foldLines_append (front : List (List Char)) {back : List (List Char)}
    (h : ∀ line ∈ back.head?, isContinuation line = false) :
    foldLines (front ++ back) = foldLines front ++ foldLines back := by
  cases back with
  | nil => simp [foldLines]
  | cons line rest => exact foldLines_append_cons (h line rfl) front rest

/-- What a line assigns depends on what is left when it is trimmed. -/
theorem ofLine?_congr (o : Options) {line other : List Char}
    (h : Text.trim line = Text.trim other) :
    Assignment.ofLine? o line = Assignment.ofLine? o other := by
  unfold Assignment.ofLine? parts?
  rw [h]

/-- A carriage return at the end of a continuation does not count in the logical line. -/
theorem trim_append_dropReturn (current line : List Char) :
    Text.trim (current ++ '\n' :: Text.trimStart (Text.dropReturn line)) =
      Text.trim (current ++ '\n' :: Text.trimStart line) := by
  obtain ⟨blanks, hblanks, hline⟩ := Text.exists_dropReturn_append line
  obtain ⟨left, hleft, hstart⟩ := Text.exists_trimStart_append hblanks (Text.dropReturn line)
  conv_rhs => rw [hline, hstart, ← List.cons_append, ← List.append_assoc]
  rw [Text.trim_append_of_blank hleft]

/-- A carriage return at the end of the last line changes no assignment. -/
theorem filterMap_foldFrom_dropReturn (o : Options) (current : List Char)
    (front : List (List Char)) (last : List Char) :
    (foldFrom current (front ++ [Text.dropReturn last])).filterMap (Assignment.ofLine? o) =
      (foldFrom current (front ++ [last])).filterMap (Assignment.ofLine? o) := by
  induction front generalizing current with
  | nil =>
    rw [List.nil_append, List.nil_append, foldFrom.eq_2, foldFrom.eq_2, isContinuation_dropReturn]
    split
    · simp only [foldFrom, List.filterMap_cons, List.filterMap_nil]
      rw [ofLine?_congr o (trim_append_dropReturn current last)]
    · simp only [foldFrom, List.filterMap_cons, List.filterMap_nil, ofLine?_dropReturn]
  | cons line more ih =>
    rw [List.cons_append, List.cons_append, foldFrom.eq_2, foldFrom.eq_2]
    split
    · exact ih _
    · rw [List.filterMap_cons, List.filterMap_cons, ih]

/-- A line feed at the end of a text changes no assignment. -/
theorem filterMap_logicalLines_newline (o : Options) (cs : List Char) :
    (logicalLines o.multiline (cs ++ ['\n'])).filterMap (Assignment.ofLine? o) =
      (logicalLines o.multiline cs).filterMap (Assignment.ofLine? o) := by
  have hlast : ∀ last, [Text.dropReturn last].filterMap (Assignment.ofLine? o) =
      [last].filterMap (Assignment.ofLine? o) := by
    intro last
    rw [List.filterMap_cons, List.filterMap_cons, ofLine?_dropReturn]
  unfold logicalLines
  rcases Text.lines_append_singleton cs with hadded | ⟨front, last, hopen, hclosed⟩
  · -- An empty line assigns nothing.
    have hempty : [([] : List Char)].filterMap (Assignment.ofLine? o) = [] := rfl
    rw [hadded]
    split
    · rw [foldLines_append _ (by simp [isContinuation]), List.filterMap_append]
      exact (congrArg _ hempty).trans (List.append_nil _)
    · rw [List.filterMap_append, hempty, List.append_nil]
  · rw [hopen, hclosed]
    split
    · cases front with
      | nil => exact hlast last
      | cons first more => exact filterMap_foldFrom_dropReturn o first more last
    · rw [List.filterMap_append, List.filterMap_append, hlast]

end Conf

/-! ## Assignments -/

namespace Source.Conf

open LayeredConfig.Conf

variable (o : Options) (first : List Char) {second : List Char}

/-- **The assignments of a text** are those before a line feed and those behind it. -/
theorem assignments_append (h : o.multiline = true → isContinuation second = false) :
    assignments o (first ++ '\n' :: second) = assignments o first ++ assignments o second := by
  have hlines : logicalLines o.multiline (first ++ '\n' :: second) =
      logicalLines o.multiline (first ++ ['\n']) ++ logicalLines o.multiline second := by
    unfold logicalLines
    split
    · next hfold =>
      rw [Text.lines_append, foldLines_append _ (isContinuation_of_mem_head?_lines (h hfold))]
    · exact Text.lines_append first second
  unfold assignments
  rw [hlines, List.filterMap_append, filterMap_logicalLines_newline]

end Source.Conf

/-! ## Contexts -/

/-- **Run.** Steps can be taken within one context or within two of the same name, one after
    the other. -/
theorem Session.runAll_within_append (files : Snapshot) (s : Session) (context : String)
    {front : List Step} (h : ∀ step ∈ front, step.isScope = false) (back : List Step) :
    s.runAll files (Step.within context (front ++ back)) =
      (s.runAll files (Step.within context front)).runAll files (Step.within context back) := by
  have hcontexts := contexts_runAll files { s with tracker := s.tracker.push context } h
  rw [runAll_within, runAll_within, runAll_within, runAll_append]
  generalize runAll files { s with tracker := s.tracker.push context } front = met at hcontexts ⊢
  -- The context that is left is the one that is entered again.
  have hentered : met.tracker.leave.push context = met.tracker := by
    rw [Tracker.leave_eq, hcontexts]
    show { met.tracker with contexts := context :: s.tracker.contexts } = met.tracker
    rw [← show met.tracker.contexts = context :: s.tracker.contexts from hcontexts]
  show _ = Step.run files (runAll files { met with tracker := met.tracker.leave.push context } back)
    .leave
  rw [hentered]

namespace Source.Conf

/-- **A text can be cut at any logical line**: where its lines are not folded, or where the
    second part does not begin with a space or a tab, the two parts leave behind, as two
    sources, what the text leaves behind as one. -/
theorem processAll_cut (files : Snapshot) (o : Options) (first second : List Char) (s : Session)
    (h : o.multiline = false ∨ (second.head? ≠ some ' ' ∧ second.head? ≠ some '\t')) :
    ∃ done, s.processAll files [.conf (first ++ '\n' :: second) o] = .ok done ∧
      s.processAll files [.conf first o, .conf second o] = .ok done := by
  have hcontinues : o.multiline = true → LayeredConfig.Conf.isContinuation second = false := by
    intro hfold
    obtain ⟨hspace, htab⟩ := h.resolve_left (by simp [hfold])
    rw [Bool.eq_false_iff]
    intro hsecond
    obtain ⟨c, rest, rfl, rfl | rfl⟩ := LayeredConfig.Conf.isContinuation_iff.mp hsecond
    · exact hspace rfl
    · exact htab rfl
  have hscope : ∀ step ∈ (assignments o first).map (stepOf o s.queue.isSome),
      step.isScope = false := by
    intro step hstep
    obtain ⟨a, _, rfl⟩ := List.mem_map.mp hstep
    exact isScope_stepOf o _ a
  rw [Session.processAll_eq_runAll, Session.processAll_eq_runAll]
  refine ⟨_, rfl, congrArg Except.ok ?_⟩
  simp only [List.flatMap_cons, List.flatMap_nil, List.append_nil, Source.steps, Conf.steps]
  rw [assignments_append o first hcontinues, List.map_append,
    Session.runAll_within_append files s _ hscope, Session.runAll_append]

/-- A text whose last line is a continuation and ends with a carriage return. -/
def returnAtEnd : List Char := "x[]=1\r\nname='a\n  b'\r".toList

/-- A text with an include and an item that refers to a setting. -/
def includeAndReference : List Char := "\ninclude=b.conf\nx[]=$name".toList

theorem processAll_cut_at_return :
    (includeAndReference.head? ≠ some ' ' ∧ includeAndReference.head? ≠ some '\t') ∧
    ∃ done,
      Session.processAll ⟨fun _ => none⟩ ⟨.flat [], .empty, some .empty, []⟩
        [.conf (returnAtEnd ++ '\n' :: includeAndReference) .standard] = .ok done ∧
      Session.processAll ⟨fun _ => none⟩ ⟨.flat [], .empty, some .empty, []⟩
        [.conf returnAtEnd .standard, .conf includeAndReference .standard] = .ok done := by
  have hapart : includeAndReference.head? ≠ some ' ' ∧ includeAndReference.head? ≠ some '\t' := by
    decide
  exact ⟨hapart, processAll_cut _ _ _ _ _ (.inr hapart)⟩

end Source.Conf

end LayeredConfig
