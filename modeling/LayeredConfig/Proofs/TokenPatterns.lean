import LayeredConfig.Proofs.TokenLexemes

/-! # Patterns of tokens

    The tokens of both grammars are given by patterns. A pattern may match the beginning of a
    text in several ways, and prefers some of them: repeating once more is better than going
    on, and the first of two alternatives is better than the second. What is found is the way
    that is preferred most.

    The patterns of the tokens hardly leave a choice. Where a name, a scope or a default could
    have ended earlier, it is followed by a character with which nothing else can go on, so
    that all but the longest way are dead.

    **Main results.** `ways_star` unfolds a repetition; `token?_shellPattern` and
    `token?_bracePattern`: what the patterns find is what is recognised as a token.
-/

namespace LayeredConfig

open Reference

/-- A pattern of texts, some parts of which have a number. -/
inductive Pattern where
  /-- One character of a class. -/
  | char (holds : Char → Bool)
  /-- The empty text. -/
  | empty
  /-- One pattern behind another. -/
  | seq (first next : Pattern)
  /-- One of two patterns, rather the first. -/
  | either (first second : Pattern)
  /-- A pattern as often as it goes, at best often. -/
  | star (inner : Pattern)
  /-- A pattern whose text is kept under a number. -/
  | group (n : Nat) (inner : Pattern)

namespace Pattern

/-- A way to match the beginning of a text. -/
structure Way where
  /-- The beginning that is matched. -/
  taken : List Char
  /-- The texts that are kept, the last one first. -/
  groups : List (Nat × List Char)
  /-- What follows the beginning. -/
  rest : List Char
  deriving DecidableEq

namespace Way

/-- The way that takes nothing. -/
def nothing (cs : List Char) : Way := ⟨[], [], cs⟩

/-- One way and then another one. -/
def before (w v : Way) : Way := ⟨w.taken ++ v.taken, v.groups ++ w.groups, v.rest⟩

/-- A way whose text is kept under a number. -/
def keep (n : Nat) (w : Way) : Way := { w with groups := (n, w.taken) :: w.groups }

@[simp] theorem taken_before (w v : Way) : (w.before v).taken = w.taken ++ v.taken := rfl
@[simp] theorem rest_before (w v : Way) : (w.before v).rest = v.rest := rfl
@[simp] theorem taken_keep (n : Nat) (w : Way) : (w.keep n).taken = w.taken := rfl
@[simp] theorem rest_keep (n : Nat) (w : Way) : (w.keep n).rest = w.rest := rfl

end Way

open Way

/-- The ways to match something again and again, at most `n` times. What takes nothing is not
    repeated. -/
def repeated (once : List Char → List Way) : Nat → List Char → List Way
  | 0, cs => [nothing cs]
  | n + 1, cs =>
    ((once cs).filter (!·.taken.isEmpty)).flatMap
      (fun w => (repeated once n w.rest).map w.before) ++ [nothing cs]

/-- The ways to match the beginning of a text, those that are preferred first. -/
def ways : Pattern → List Char → List Way
  | .char _, [] => []
  | .char holds, c :: rest => if holds c then [⟨[c], [], rest⟩] else []
  | .empty, cs => [nothing cs]
  | .seq first next, cs => (first.ways cs).flatMap fun w => (next.ways w.rest).map w.before
  | .either first second, cs => first.ways cs ++ second.ways cs
  | .star inner, cs => repeated inner.ways cs.length cs
  | .group n inner, cs => (inner.ways cs).map (Way.keep n)

/-! ## Repetitions

    What is repeated takes a beginning of the text and leaves the rest. -/

section repeated

variable {once : List Char → List Way} (honce : ∀ cs, ∀ w ∈ once cs, w.taken ++ w.rest = cs)
include honce

theorem taken_append_rest_repeated {n : Nat} {cs : List Char} {w : Way}
    (hw : w ∈ repeated once n cs) : w.taken ++ w.rest = cs := by
  induction n generalizing cs w with
  | zero =>
    obtain rfl := List.mem_singleton.mp hw
    rfl
  | succ n ih =>
    simp only [repeated, List.mem_append, List.mem_flatMap, List.mem_filter, List.mem_map,
      List.mem_singleton] at hw
    rcases hw with ⟨first, ⟨hfirst, _⟩, later, hlater, rfl⟩ | rfl
    · rw [taken_before, rest_before, List.append_assoc, ih hlater, honce cs first hfirst]
    · rfl

theorem repeated_nil (n : Nat) : repeated once n [] = [nothing []] := by
  cases n with
  | zero => rfl
  | succ n =>
    have hempty : (once []).filter (!·.taken.isEmpty) = [] := by
      apply List.filter_eq_nil_iff.mpr
      intro w hw
      have htaken := (List.append_eq_nil_iff.mp (honce [] w hw)).1
      simp [htaken]
    rw [repeated, hempty, List.flatMap_nil, List.nil_append]

/-- Once for every character is often enough. -/
theorem repeated_eq {n m : Nat} {cs : List Char} (hn : cs.length ≤ n) (hm : cs.length ≤ m) :
    repeated once n cs = repeated once m cs := by
  induction n generalizing m cs with
  | zero =>
    obtain rfl := List.length_eq_zero_iff.mp (Nat.le_zero.mp hn)
    rw [repeated_nil honce, repeated_nil honce]
  | succ n ih =>
    cases m with
    | zero =>
      obtain rfl := List.length_eq_zero_iff.mp (Nat.le_zero.mp hm)
      rw [repeated_nil honce, repeated_nil honce]
    | succ m =>
      unfold repeated
      congr 1
      apply List.flatMap_congr
      intro w hw
      obtain ⟨hw, htaken⟩ := List.mem_filter.mp hw
      -- What is taken is not empty, so less is left.
      have hlength := congrArg List.length (honce cs w hw)
      rw [List.length_append] at hlength
      have hpos : w.taken.length ≠ 0 := by simpa using htaken
      rw [ih (m := m) (by omega) (by omega)]

end repeated

/-- Every way takes a beginning of the text and leaves the rest. -/
theorem taken_append_rest {p : Pattern} {cs : List Char} {w : Way} (hw : w ∈ p.ways cs) :
    w.taken ++ w.rest = cs := by
  induction p generalizing cs w with
  | char holds =>
    cases cs with
    | nil => exact nomatch hw
    | cons c rest =>
      unfold ways at hw
      split at hw
      · obtain rfl := List.mem_singleton.mp hw
        rfl
      · exact nomatch hw
  | empty =>
    obtain rfl := List.mem_singleton.mp hw
    rfl
  | seq first next ihFirst ihNext =>
    simp only [ways, List.mem_flatMap, List.mem_map] at hw
    obtain ⟨w, hw, v, hv, rfl⟩ := hw
    rw [taken_before, rest_before, List.append_assoc, ihNext hv, ihFirst hw]
  | either first second ihFirst ihSecond =>
    rcases List.mem_append.mp hw with hw | hw
    · exact ihFirst hw
    · exact ihSecond hw
  | star inner ih => exact taken_append_rest_repeated (fun _ _ => ih) hw
  | group n inner ih =>
    obtain ⟨v, hv, rfl⟩ := List.mem_map.mp hw
    rw [taken_keep, rest_keep, ih hv]

/-- A repetition is the pattern once and then the repetition, or else nothing. -/
theorem ways_star (inner : Pattern) (cs : List Char) :
    (star inner).ways cs =
      ((inner.ways cs).filter (!·.taken.isEmpty)).flatMap
        (fun w => ((star inner).ways w.rest).map w.before) ++ [nothing cs] := by
  have honce : ∀ cs, ∀ w ∈ inner.ways cs, w.taken ++ w.rest = cs :=
    fun _ _ => taken_append_rest
  show repeated inner.ways cs.length cs = _
  rw [repeated_eq honce (Nat.le_refl _) (Nat.le_succ _)]
  unfold repeated
  congr 1
  apply List.flatMap_congr
  intro w hw
  have hlength := congrArg List.length (honce cs w (List.mem_of_mem_filter hw))
  rw [List.length_append] at hlength
  show _ = (repeated inner.ways w.rest.length w.rest).map w.before
  rw [repeated_eq honce (by omega) (Nat.le_refl _)]

/-! ## The way that is preferred

    What follows decides between the ways. All but the first of them are dead where nothing
    that follows can begin with what they leave. -/

/-- The first way, where all others leave a text with a property. -/
def LedBy (w : Way) (P : List Char → Prop) (found : List Way) : Prop :=
  ∃ others, found = w :: others ∧ ∀ o ∈ others, P o.rest

section ledBy

variable {w v : Way} {P Q : List Char → Prop} {found : List Way}

theorem ledBy_nothing (P : List Char → Prop) (cs : List Char) :
    LedBy (nothing cs) P [nothing cs] :=
  ⟨[], rfl, nofun⟩

theorem LedBy.map_before (h : LedBy v P found) (w : Way) :
    LedBy (w.before v) P (found.map w.before) := by
  obtain ⟨others, rfl, hothers⟩ := h
  refine ⟨others.map w.before, rfl, ?_⟩
  intro u hu
  obtain ⟨o, ho, rfl⟩ := List.mem_map.mp hu
  exact hothers o ho

theorem LedBy.append_nothing (h : LedBy w P found) {cs : List Char} (hcs : P cs) :
    LedBy w P (found ++ [nothing cs]) := by
  obtain ⟨others, rfl, hothers⟩ := h
  refine ⟨others ++ [nothing cs], rfl, ?_⟩
  intro o ho
  rcases List.mem_append.mp ho with ho | ho
  · exact hothers o ho
  · obtain rfl := List.mem_singleton.mp ho
    exact hcs

/-- The first way goes on with the first way to go on. -/
theorem LedBy.flatMap {next : Way → List Way} (h : LedBy w P found) (hnext : LedBy v Q (next w))
    (hothers : ∀ o, P o.rest → ∀ u ∈ next o, Q u.rest) : LedBy v Q (found.flatMap next) := by
  obtain ⟨others, rfl, hrests⟩ := h
  obtain ⟨later, hlater, hlaterRests⟩ := hnext
  refine ⟨later ++ others.flatMap next, by rw [List.flatMap_cons, hlater, List.cons_append], ?_⟩
  intro u hu
  rcases List.mem_append.mp hu with hu | hu
  · exact hlaterRests u hu
  · obtain ⟨o, ho, hu⟩ := List.mem_flatMap.mp hu
    exact hothers o (hrests o ho) u hu

/-- Where what follows has no way after any other, only the first way goes on. -/
theorem LedBy.ways_seq {first next : Pattern} {cs : List Char} (h : LedBy w P (first.ways cs))
    (hdead : ∀ after, P after → next.ways after = []) :
    (seq first next).ways cs = (next.ways w.rest).map w.before := by
  obtain ⟨others, hfirst, hothers⟩ := h
  have hnone : others.flatMap (fun o => (next.ways o.rest).map o.before) = [] := by
    apply List.flatMap_eq_nil_iff.mpr
    intro o ho
    rw [hdead _ (hothers o ho), List.map_nil]
  rw [ways, hfirst, List.flatMap_cons, hnone, List.append_nil]

theorem LedBy.ways_group {inner : Pattern} {cs : List Char} (h : LedBy w P (inner.ways cs))
    (n : Nat) : LedBy (w.keep n) P ((group n inner).ways cs) := by
  obtain ⟨others, hinner, hothers⟩ := h
  rw [ways, hinner]
  refine ⟨_, List.map_cons, ?_⟩
  intro u hu
  obtain ⟨o, ho, rfl⟩ := List.mem_map.mp hu
  exact hothers o ho

end ledBy

/-! ## Characters -/

/-- Behind a character. -/
theorem ways_seq_char_cons (holds : Char → Bool) (next : Pattern) (c : Char) (rest : List Char) :
    (seq (char holds) next).ways (c :: rest) =
      if holds c then (next.ways rest).map (Way.before ⟨[c], [], rest⟩) else [] := by
  rw [ways, ways]
  split
  · rw [List.flatMap_cons, List.flatMap_nil, List.append_nil]
  · rfl

theorem ways_seq_char_of_not_startsIn {holds : Char → Bool} (next : Pattern) {cs : List Char}
    (h : ¬ StartsIn holds cs) : (seq (char holds) next).ways cs = [] := by
  cases cs with
  | nil => rfl
  | cons c rest => rw [ways_seq_char_cons, if_neg (mt startsIn_cons.mpr h)]

/-- A single character. -/
def lit (c : Char) : Pattern := char (· == c)

theorem ways_lit (c : Char) (rest : List Char) : (lit c).ways (c :: rest) = [⟨[c], [], rest⟩] :=
  if_pos (beq_self_eq_true c)

theorem ways_lit_eq_nil {c : Char} {cs : List Char} (h : ∀ rest, cs ≠ c :: rest) :
    (lit c).ways cs = [] := by
  cases cs with
  | nil => rfl
  | cons d rest =>
    have hd : d ≠ c := fun heq => h rest (heq ▸ rfl)
    exact if_neg fun heq => hd (eq_of_beq heq)

theorem ways_seq_lit (c : Char) (next : Pattern) (rest : List Char) :
    (seq (lit c) next).ways (c :: rest) = (next.ways rest).map (Way.before ⟨[c], [], rest⟩) := by
  rw [lit, ways_seq_char_cons, if_pos (beq_self_eq_true c)]

/-- Behind a character there has to be a way to go on. -/
theorem ways_seq_lit_eq_nil {c : Char} {next : Pattern} {cs : List Char}
    (h : ∀ rest, cs = c :: rest → next.ways rest = []) : (seq (lit c) next).ways cs = [] := by
  by_cases hstarts : StartsIn (· == c) cs
  · obtain ⟨d, hd, hdc⟩ := hstarts
    obtain ⟨rest, rfl⟩ := List.head?_eq_some_iff.mp hd
    obtain rfl := eq_of_beq hdc
    rw [ways_seq_lit, h rest rfl, List.map_nil]
  · exact ways_seq_char_of_not_startsIn next hstarts

/-- A repeated class is matched as far as it goes. Whatever matches less is followed by
    another character of the class. -/
theorem ledBy_star_char (holds : Char → Bool) (cs : List Char) :
    LedBy ⟨cs.takeWhile holds, [], cs.dropWhile holds⟩ (StartsIn holds)
      ((star (char holds)).ways cs) := by
  induction cs with
  | nil => exact ledBy_nothing _ []
  | cons c rest ih =>
    rw [ways_star]
    by_cases h : holds c = true
    · have hstarts : StartsIn holds (c :: rest) := startsIn_cons.mpr h
      have hmore := (ih.map_before ⟨[c], [], rest⟩).append_nothing hstarts
      simpa [ways, h, Way.before, List.takeWhile_cons, List.dropWhile_cons] using hmore
    · simpa [ways, h, nothing, List.takeWhile_cons, List.dropWhile_cons] using
        ledBy_nothing (StartsIn holds) (c :: rest)

/-- A pattern at least once. -/
def plus (inner : Pattern) : Pattern := seq inner (star inner)

theorem ledBy_plus_char {holds : Char → Bool} {c : Char} (h : holds c = true) (rest : List Char) :
    LedBy ⟨c :: rest.takeWhile holds, [], rest.dropWhile holds⟩ (StartsIn holds)
      ((plus (char holds)).ways (c :: rest)) := by
  rw [plus, ways_seq_char_cons, if_pos h]
  exact (ledBy_star_char holds rest).map_before ⟨[c], [], rest⟩

/-! ## The patterns of the tokens -/

/-- The pattern `::[^}:]+` of a scope. -/
def scope : Pattern := seq (lit ':') (seq (lit ':') (plus (char isPartChar)))

/-- The pattern `[^}:]+(?:::[^}:]+)*` of a name between braces. -/
def bracedName : Pattern := seq (plus (char isPartChar)) (star scope)

/-- The pattern `:([-=])([^}]*)` of a default. -/
def defaulted : Pattern :=
  seq (lit ':') (seq (group 2 (char fun c => c == '-' || c == '='))
    (group 3 (star (char isInside))))

/-- The pattern `(?::([-=])([^}]*))?\}` of what follows the name. -/
def ending : Pattern := seq (either defaulted empty) (lit '}')

/-- The pattern `[A-Za-z_][A-Za-z0-9_]*` of a bare name. -/
def bareName : Pattern := seq (char beginsName) (star (char continuesName))

/-- The pattern of the shell grammar,
    `\$(?:\{([^}:]+(?:::[^}:]+)*)(?::([-=])([^}]*))?\}|([A-Za-z_][A-Za-z0-9_]*))`. -/
def shellPattern : Pattern :=
  seq (lit '$') (either (seq (lit '{') (seq (group 1 bracedName) ending)) (group 4 bareName))

/-- The pattern `\$\{([^}]+)\}` of the brace grammar. -/
def bracePattern : Pattern :=
  seq (lit '$') (seq (lit '{') (seq (group 1 (plus (char isInside))) (lit '}')))

/-- The reference of a way, and what follows it. The name has the number 1 or 4, and the
    default the number 3. -/
def Way.token (w : Way) : Reference × List Char :=
  (⟨((w.groups.lookup 1).or (w.groups.lookup 4)).getD [], w.groups.lookup 3⟩, w.rest)

/-- What a pattern finds at the beginning of a text. -/
def token? (p : Pattern) (cs : List Char) : Option (Reference × List Char) :=
  (p.ways cs).head?.map Way.token

/-! ## Names between braces -/

theorem ledBy_scope {c : Char} (h : isPartChar c = true) (rest : List Char) :
    LedBy ⟨':' :: ':' :: c :: rest.takeWhile isPartChar, [], rest.dropWhile isPartChar⟩
      (StartsIn isPartChar) (scope.ways (':' :: ':' :: c :: rest)) := by
  rw [scope, ways_seq_lit, ways_seq_lit]
  exact ((ledBy_plus_char h rest).map_before _).map_before ⟨[':'], [], ':' :: c :: rest⟩

theorem ways_scope_of_not_startsScope {cs : List Char} (h : ¬ StartsScope cs) :
    scope.ways cs = [] := by
  apply ways_seq_lit_eq_nil
  rintro _ rfl
  apply ways_seq_lit_eq_nil
  rintro rest rfl
  have hpart : ¬ StartsIn isPartChar rest := by
    rintro ⟨c, hc, hholds⟩
    obtain ⟨after, rfl⟩ := List.head?_eq_some_iff.mp hc
    exact h ⟨c, after, rfl, hholds⟩
  exact ways_seq_char_of_not_startsIn _ hpart

/-- A pattern that begins with a character takes something. -/
theorem ways_star_seq_char (holds : Char → Bool) (next : Pattern) (cs : List Char) :
    (star (seq (char holds) next)).ways cs =
      ((seq (char holds) next).ways cs).flatMap
        (fun w => ((star (seq (char holds) next)).ways w.rest).map w.before) ++ [nothing cs] := by
  have hall : ((seq (char holds) next).ways cs).filter (!·.taken.isEmpty) =
      (seq (char holds) next).ways cs := by
    apply List.filter_eq_self.mpr
    intro w hw
    cases cs with
    | nil => exact nomatch hw
    | cons c rest =>
      rw [ways_seq_char_cons] at hw
      split at hw
      · obtain ⟨v, _, rfl⟩ := List.mem_map.mp hw
        rfl
      · exact nomatch hw
  rw [ways_star, hall]

/-- Where a part could go on, no scope begins, and so the name could go on. -/
theorem goesOn_of_mem_scopes {w : Way} (h : StartsIn isPartChar w.rest) :
    ∀ v ∈ ((star scope).ways w.rest).map w.before, GoesOn v.rest := by
  intro v hv
  have hnone : (star scope).ways w.rest = [nothing w.rest] := by
    rw [ways_star, ways_scope_of_not_startsScope (not_startsScope_of_startsIn h)]
    rfl
  rw [hnone] at hv
  obtain rfl := List.mem_singleton.mp hv
  exact .inl h

/-- The scopes of a name are matched as far as they go. -/
theorem ledBy_star_scope {cs : List Char} (h : ¬ StartsIn isPartChar cs) :
    LedBy ⟨(scopedName cs).1, [], (scopedName cs).2⟩ GoesOn ((star scope).ways cs) := by
  -- The induction is on the length, since the part of a scope is passed as a whole.
  induction hlength : cs.length using Nat.strong_induction_on generalizing cs with
  | _ n ih =>
    by_cases hscope : StartsScope cs
    · obtain ⟨c, rest, rfl, hc⟩ := hscope
      have hshorter : (rest.dropWhile isPartChar).length < n := by
        have hdrop := (List.dropWhile_sublist isPartChar (l := rest)).length_le
        simp only [List.length_cons] at hlength
        omega
      have hmore := ih _ hshorter (not_startsIn_dropWhile isPartChar rest) rfl
      have hway : (⟨(scopedName (':' :: ':' :: c :: rest)).1, [],
            (scopedName (':' :: ':' :: c :: rest)).2⟩ : Way) =
          Way.before ⟨':' :: ':' :: c :: rest.takeWhile isPartChar, [], rest.dropWhile isPartChar⟩
            ⟨(scopedName (rest.dropWhile isPartChar)).1, [],
              (scopedName (rest.dropWhile isPartChar)).2⟩ := by
        rw [scopedName_scope hc, scopedName_eq rest]
        rfl
      -- One scope and then more of them come first, and no scope at all comes last.
      rw [hway, scope, lit, ways_star_seq_char]
      apply LedBy.append_nothing
      · exact (ledBy_scope hc rest).flatMap (hmore.map_before _) fun _ => goesOn_of_mem_scopes
      · exact .inr ⟨c, rest, rfl, hc⟩
    · rw [scopedName_of_not_goesOn (not_or.mpr ⟨h, hscope⟩), ways_star,
        ways_scope_of_not_startsScope hscope]
      exact ledBy_nothing _ cs

/-- A name is matched as far as it goes. -/
theorem ledBy_bracedName {c : Char} (h : isPartChar c = true) (rest : List Char) :
    LedBy ⟨c :: (scopedName rest).1, [], (scopedName rest).2⟩ GoesOn
      (bracedName.ways (c :: rest)) := by
  have hmore := ledBy_star_scope (not_startsIn_dropWhile isPartChar rest)
  rw [scopedName_eq rest]
  exact (ledBy_plus_char h rest).flatMap
    (hmore.map_before ⟨c :: rest.takeWhile isPartChar, [], rest.dropWhile isPartChar⟩)
    fun _ => goesOn_of_mem_scopes

/-! ## Up to the closing brace -/

/-- A closing brace is found where it is the next one. -/
theorem ways_lit_brace_of_startsIn {cs : List Char} (h : StartsIn isInside cs) :
    (lit '}').ways cs = [] := by
  apply ways_lit_eq_nil
  rintro rest rfl
  exact absurd (startsIn_cons.mp h) (by decide)

/-- Behind the text up to the closing brace, the brace is matched if there is one. -/
theorem ways_lit_brace_dropWhile (cs : List Char) :
    (lit '}').ways (cs.dropWhile isInside) =
      (untilBrace? cs).toList.map fun found => ⟨['}'], [], found.2⟩ := by
  have hstop := not_startsIn_dropWhile isInside cs
  rw [untilBrace?_eq]
  cases hdrop : cs.dropWhile isInside with
  | nil => rfl
  | cons c after =>
    rw [hdrop, startsIn_cons] at hstop
    obtain rfl : c = '}' := by simpa [isInside] using hstop
    exact ways_lit _ after

/-! ## Defaults -/

theorem ledBy_defaulted {c : Char} (h : c = '-' ∨ c = '=') (rest : List Char) :
    LedBy ⟨':' :: c :: rest.takeWhile isInside,
        [(3, rest.takeWhile isInside), (2, [c])], rest.dropWhile isInside⟩
      (StartsIn isInside) (defaulted.ways (':' :: c :: rest)) := by
  have hsign : (c == '-' || c == '=') = true := by simpa using h
  have hways : (group 2 (char fun c => c == '-' || c == '=')).ways (c :: rest) =
      [⟨[c], [(2, [c])], rest⟩] := by
    rw [ways, ways, if_pos hsign]
    rfl
  rw [defaulted, ways_seq_lit, ways, hways, List.flatMap_cons, List.flatMap_nil, List.append_nil]
  exact (((ledBy_star_char isInside rest).ways_group 3).map_before
    ⟨[c], [(2, [c])], rest⟩).map_before ⟨[':'], [], c :: rest⟩

theorem ways_defaulted_of_not {cs : List Char}
    (h : ∀ c rest, cs = ':' :: c :: rest → ¬(c = '-' ∨ c = '=')) : defaulted.ways cs = [] := by
  apply ways_seq_lit_eq_nil
  rintro rest rfl
  cases rest with
  | nil => rfl
  | cons c rest =>
    have hsign : ¬((c == '-' || c == '=') = true) := by simpa using h c rest rfl
    have hways : (group 2 (char fun c => c == '-' || c == '=')).ways (c :: rest) = [] := by
      rw [ways, ways, if_neg hsign]
      rfl
    rw [ways, hways]
    rfl

/-! ## What follows the name -/

theorem ways_ending (cs : List Char) :
    ending.ways cs = (seq defaulted (lit '}')).ways cs ++ (lit '}').ways cs := by
  have hnothing : (nothing cs).before = id := by
    funext v
    show (⟨[] ++ v.taken, v.groups ++ [], v.rest⟩ : Way) = v
    rw [List.nil_append, List.append_nil]
  have heither : (either defaulted empty).ways cs = defaulted.ways cs ++ [nothing cs] := rfl
  rw [ending, ways, heither, List.flatMap_append, List.flatMap_cons, List.flatMap_nil,
    List.append_nil, hnothing, List.map_id]
  rfl

/-- Nothing that may follow a name begins where the name could go on. -/
theorem ways_ending_of_goesOn {cs : List Char} (h : GoesOn cs) : ending.ways cs = [] := by
  -- A default begins with a single colon, a scope with two.
  have hno : ∀ c rest, cs = ':' :: c :: rest → ¬(c = '-' ∨ c = '=') := by
    rintro c rest rfl hsign
    rcases h with hpart | ⟨d, after, heq, _⟩
    · exact absurd (startsIn_cons.mp hpart) (by decide)
    · obtain rfl := (List.cons.inj (List.cons.inj heq).2).1
      rcases hsign with hsign | hsign <;> exact absurd hsign (by decide)
  have hbrace : StartsIn isInside cs := by
    rcases h with ⟨c, hc, hpart⟩ | ⟨c, rest, rfl, _⟩
    · refine ⟨c, hc, ?_⟩
      unfold isPartChar at hpart
      exact (Bool.and_eq_true _ _ ▸ hpart).1
    · exact startsIn_cons.mpr rfl
  rw [ways_ending, ways, ways_defaulted_of_not hno, ways_lit_brace_of_startsIn hbrace]
  rfl

/-- Behind a name, the pattern finds what is read up to the closing brace. -/
theorem map_token_ending (w : Way) {name : List Char} (hgroups : w.groups = [(1, name)])
    (cs : List Char) :
    (ending.ways cs).map (fun v => (w.before v).token) = (endBraces? name cs).toList := by
  rw [ways_ending]
  unfold endBraces?
  split
  · -- The name alone.
    next rest =>
    rw [ways, ways_defaulted_of_not fun _ _ heq => absurd (List.cons.inj heq).1 (by decide),
      ways_lit]
    simp [Way.before, Way.token, hgroups]
  · -- A colon does not close the braces, so there has to be a default.
    next c rest =>
    rw [ways_lit_eq_nil fun _ heq => absurd (List.cons.inj heq).1 (by decide), List.append_nil]
    split
    · next hsign =>
      rw [(ledBy_defaulted hsign rest).ways_seq fun _ => ways_lit_brace_of_startsIn,
        ways_lit_brace_dropWhile]
      cases hfound : untilBrace? rest with
      | none => rfl
      | some found =>
        rw [takeWhile_of_untilBrace? hfound]
        simp [Way.before, Way.token, hgroups, List.lookup_cons]
    · next hsign =>
      have hno : ∀ d after, ':' :: c :: rest = ':' :: d :: after → ¬(d = '-' ∨ d = '=') := by
        intro d after heq
        obtain ⟨rfl, _⟩ := List.cons.inj (List.cons.inj heq).2
        exact hsign
      rw [ways, ways_defaulted_of_not hno]
      rfl
  · -- Neither a brace nor a default follows.
    next hclose hcolon =>
    have hno : ∀ c rest, cs = ':' :: c :: rest → ¬(c = '-' ∨ c = '=') :=
      fun c rest heq => absurd heq (hcolon c rest)
    rw [ways, ways_defaulted_of_not hno, ways_lit_eq_nil hclose]
    rfl

/-! ## What the patterns find -/

theorem LedBy.token?_eq {w : Way} {P : List Char → Prop} {p : Pattern} {cs : List Char}
    (h : LedBy w P (p.ways cs)) : p.token? cs = some w.token := by
  obtain ⟨others, hways, _⟩ := h
  rw [token?, hways]
  rfl

theorem token?_of_ways {p : Pattern} {cs : List Char} (h : p.ways cs = []) :
    p.token? cs = none := by
  rw [token?, h]
  rfl

/-- A character that is not kept does not count. -/
theorem token?_seq_lit (c : Char) (next : Pattern) (rest : List Char) :
    (seq (lit c) next).token? (c :: rest) = next.token? rest := by
  have htoken : ∀ v, (Way.before ⟨[c], [], rest⟩ v).token = v.token := by
    intro v
    simp [Way.before, Way.token]
  rw [token?, ways_seq_lit, List.head?_map, Option.map_map]
  exact Option.map_congr fun v _ => htoken v

theorem token?_either_of_second {first second : Pattern} {cs : List Char}
    (h : second.ways cs = []) : (either first second).token? cs = first.token? cs := by
  rw [token?, ways, h, List.append_nil]
  rfl

theorem token?_either_of_first {first second : Pattern} {cs : List Char}
    (h : first.ways cs = []) : (either first second).token? cs = second.token? cs := by
  rw [token?, ways, h]
  rfl

/-- A name between braces and what follows it. -/
theorem token?_braced {c : Char} (hc : isPartChar c = true) (rest : List Char) :
    (seq (group 1 bracedName) ending).token? (c :: rest) =
      endBraces? (c :: (scopedName rest).1) (scopedName rest).2 := by
  have hname := (ledBy_bracedName hc rest).ways_group 1
  rw [token?, hname.ways_seq fun _ => ways_ending_of_goesOn, ← List.head?_map, List.map_map]
  exact (congrArg List.head? (map_token_ending _ rfl _)).trans Option.head?_toList

theorem ways_bareName_of_not {c : Char} (hc : ¬ beginsName c = true) (rest : List Char) :
    (group 4 bareName).ways (c :: rest) = [] := by
  rw [ways, bareName, ways_seq_char_of_not_startsIn _ (mt startsIn_cons.mp hc)]
  rfl

/-- A bare name, as far as it goes. -/
theorem token?_bareName {c : Char} (hc : beginsName c = true) (rest : List Char) :
    (group 4 bareName).token? (c :: rest) =
      some (⟨c :: rest.takeWhile continuesName, none⟩, rest.dropWhile continuesName) := by
  have hname : LedBy ⟨c :: rest.takeWhile continuesName, [], rest.dropWhile continuesName⟩
      (StartsIn continuesName) (bareName.ways (c :: rest)) := by
    rw [bareName, ways_seq_char_cons, if_pos hc]
    exact (ledBy_star_char continuesName rest).map_before ⟨[c], [], rest⟩
  exact (hname.ways_group 4).token?_eq

/-- **The shell pattern finds the tokens of the shell grammar.** -/
theorem token?_shellPattern (cs : List Char) : shellPattern.token? cs = shellToken? cs := by
  unfold shellPattern shellToken?
  split
  · -- An opening brace begins no bare name.
    next c rest =>
    rw [token?_seq_lit, token?_either_of_second (ways_bareName_of_not (by decide) _),
      token?_seq_lit]
    by_cases hc : isPartChar c = true
    · rw [if_pos hc, token?_braced hc]
    · rw [if_neg hc]
      apply token?_of_ways
      rw [ways, ways, bracedName, ways, plus,
        ways_seq_char_of_not_startsIn _ (mt startsIn_cons.mp hc)]
      rfl
  · -- A brace at the end of the text opens nothing, and elsewhere there is none.
    next c rest hopening =>
    have hbraced : (seq (lit '{') (seq (group 1 bracedName) ending)).ways (c :: rest) = [] := by
      apply ways_seq_lit_eq_nil
      intro after heq
      obtain ⟨hc, rfl⟩ := List.cons.inj heq
      cases rest with
      | nil => rfl
      | cons d more => exact absurd rfl (hopening d more hc)
    rw [token?_seq_lit, token?_either_of_first hbraced]
    by_cases hc : beginsName c = true
    · rw [if_pos hc, token?_bareName hc]
    · rw [if_neg hc]
      exact token?_of_ways (ways_bareName_of_not hc rest)
  · -- There is no dollar sign, or nothing behind it.
    next _ hbare =>
    apply token?_of_ways
    apply ways_seq_lit_eq_nil
    rintro rest rfl
    cases rest with
    | nil => rfl
    | cons c more => exact absurd rfl (hbare c more)

/-- The scope goes to the name, and the sign of a default behind it is read as such. -/
example : shellPattern.token? "$\x7bdb::host:-a:b\x7d/c".toList =
    some (⟨"db::host".toList, some "a:b".toList⟩, "/c".toList) := by decide +kernel

/-- **The brace pattern finds the tokens of the brace grammar.** -/
theorem token?_bracePattern (cs : List Char) : bracePattern.token? cs = braceToken? cs := by
  unfold bracePattern braceToken?
  split
  · next rest =>
    rw [token?_seq_lit, token?_seq_lit]
    by_cases hinside : StartsIn isInside rest
    · obtain ⟨c, hc, hholds⟩ := hinside
      obtain ⟨more, rfl⟩ := List.head?_eq_some_iff.mp hc
      have hname := (ledBy_plus_char hholds more).ways_group 1
      rw [token?, hname.ways_seq fun _ => ways_lit_brace_of_startsIn, rest_keep,
        ways_lit_brace_dropWhile, untilBrace?_cons hholds]
      cases hfound : untilBrace? more with
      | none => rfl
      | some found =>
        have htaken := takeWhile_of_untilBrace? hfound
        simp [Way.before, Way.keep, Way.token, htaken]
    · -- Nothing is inside the braces.
      have hnone : (seq (group 1 (plus (char isInside))) (lit '}')).token? rest = none := by
        apply token?_of_ways
        rw [ways, ways, plus, ways_seq_char_of_not_startsIn _ hinside]
        rfl
      rw [hnone, untilBrace?_eq, dropWhile_of_not_startsIn hinside,
        takeWhile_of_not_startsIn hinside]
      cases rest <;> rfl
  · next hopening =>
    apply token?_of_ways
    apply ways_seq_lit_eq_nil
    rintro _ rfl
    apply ways_seq_lit_eq_nil
    rintro rest rfl
    exact absurd rfl (hopening rest)

end Pattern

end LayeredConfig
