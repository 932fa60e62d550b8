import LayeredConfig.Key.Namespace
import LayeredConfig.Proofs.Splitting
import LayeredConfig.Reference
import Mathlib.Data.List.TakeWhile

/-! # Lexemes of references

    The texts of references are given by a grammar: a dollar sign with a bare name, or with
    braces around a name and, if there is one, a default. Where several of them stand at the
    beginning of a text, the longest is the token. This happens only to bare names, which can
    be cut short everywhere; a text between braces ends with the first closing brace, and can
    be read in one way.

    **Main results.** `shellToken?_eq_some_iff` and `braceToken?_eq_some_iff`;
    `piecesFrom_of_some`: behind a token the search for tokens goes on.
-/

namespace LayeredConfig.Reference

/-! ## The grammars -/

/-- A name between braces: parts without `:` and `}`, none of them empty, with `::` between
    each two of them. -/
def IsScopedName (name : List Char) : Prop :=
  ∃ parts : List (List Char), parts ≠ [] ∧
    (∀ part ∈ parts, part ≠ [] ∧ ∀ c ∈ part, isPartChar c = true) ∧
    name = Text.join scopeMark parts

/-- What stands behind a name between braces: the closing brace, and before it a default if
    there is one. -/
inductive Closing : List Char → Option (List Char) → Prop where
  | plain : Closing ['}'] none
  | defaulted {sign : Char} {text : List Char} (hsign : sign = '-' ∨ sign = '=')
    (htext : '}' ∉ text) : Closing (':' :: sign :: (text ++ ['}'])) (some text)

/-- The texts of references in the shell grammar. -/
inductive ShellLexeme : List Char → Reference → Prop where
  | bare {c : Char} {rest : List Char} (hfirst : beginsName c = true)
    (hrest : ∀ d ∈ rest, continuesName d = true) : ShellLexeme ('$' :: c :: rest) ⟨c :: rest, none⟩
  | braced {name closing : List Char} {fallback : Option (List Char)} (hname : IsScopedName name)
    (hclosing : Closing closing fallback) :
    ShellLexeme ('$' :: '{' :: (name ++ closing)) ⟨name, fallback⟩

/-- The texts of references in the brace grammar. -/
inductive BraceLexeme : List Char → Reference → Prop where
  | braced {name : List Char} (hname : name ≠ []) (hbrace : '}' ∉ name) :
    BraceLexeme ('$' :: '{' :: (name ++ ['}'])) ⟨name, none⟩

/-- Whether a text begins with the text of a reference, no longer text of a reference stands
    there, and something else follows. -/
def BeginsWithLongest (Lexeme : List Char → Reference → Prop) (cs : List Char) (r : Reference)
    (after : List Char) : Prop :=
  ∃ lexeme, cs = lexeme ++ after ∧ Lexeme lexeme r ∧
    ∀ longer s, Lexeme longer s → longer <+: cs → longer.length ≤ lexeme.length

/-! ## Characters -/

/-- Whether a text begins with a character of a class. -/
def StartsIn (holds : Char → Bool) (cs : List Char) : Prop := ∃ c ∈ cs.head?, holds c = true

theorem startsIn_cons {holds : Char → Bool} {c : Char} {rest : List Char} :
    StartsIn holds (c :: rest) ↔ holds c = true := by
  simp [StartsIn]

theorem takeWhile_of_not_startsIn {holds : Char → Bool} {cs : List Char}
    (h : ¬ StartsIn holds cs) : cs.takeWhile holds = [] := by
  cases cs with
  | nil => rfl
  | cons c rest => exact List.takeWhile_cons_of_neg (mt startsIn_cons.mpr h)

theorem dropWhile_of_not_startsIn {holds : Char → Bool} {cs : List Char}
    (h : ¬ StartsIn holds cs) : cs.dropWhile holds = cs := by
  cases cs with
  | nil => rfl
  | cons c rest => exact List.dropWhile_cons_of_neg (mt startsIn_cons.mpr h)

theorem not_startsIn_dropWhile (holds : Char → Bool) (cs : List Char) :
    ¬ StartsIn holds (cs.dropWhile holds) := by
  rintro ⟨c, hc, hholds⟩
  cases hdrop : cs.dropWhile holds with
  | nil => exact nomatch hdrop ▸ hc
  | cons d rest =>
    rw [hdrop] at hc
    obtain rfl : d = c := by simpa using hc
    have hne : cs.dropWhile holds ≠ [] := hdrop ▸ List.cons_ne_nil d rest
    have hstop := List.head_dropWhile_not holds hne
    simp [hdrop, hholds] at hstop

/-! ## Names between braces

    A name is read as far as it goes. It could go on where a character of a part follows, or a
    whole scope. -/

/-- Whether a text begins with a scope. -/
def StartsScope (cs : List Char) : Prop :=
  ∃ c rest, cs = ':' :: ':' :: c :: rest ∧ isPartChar c = true

/-- Whether a name that is followed by a text could go on. -/
def GoesOn (cs : List Char) : Prop := StartsIn isPartChar cs ∨ StartsScope cs

theorem not_startsScope_of_startsIn {cs : List Char} (h : StartsIn isPartChar cs) :
    ¬ StartsScope cs := by
  rintro ⟨c, rest, rfl, _⟩
  exact absurd (startsIn_cons.mp h) (by decide)

theorem scopedName_cons {c : Char} (h : isPartChar c = true) (rest : List Char) :
    scopedName (c :: rest) = (c :: (scopedName rest).1, (scopedName rest).2) := by
  have hcolon : c ≠ ':' := by
    rintro rfl
    exact absurd h (by decide)
  rw [scopedName]
  · rw [if_pos h]
  · intro _ _ heq
    exact absurd heq hcolon

theorem scopedName_scope {c : Char} (h : isPartChar c = true) (rest : List Char) :
    scopedName (':' :: ':' :: c :: rest) =
      (':' :: ':' :: c :: (scopedName rest).1, (scopedName rest).2) := by
  rw [scopedName, if_pos h]

theorem scopedName_of_not_goesOn {cs : List Char} (h : ¬ GoesOn cs) : scopedName cs = ([], cs) := by
  unfold scopedName
  split
  · next c rest =>
    rw [if_neg fun hc => h (.inr ⟨c, rest, rfl, hc⟩)]
  · next c rest _ =>
    rw [if_neg fun hc => h (.inl (startsIn_cons.mpr hc))]
  · rfl

/-- The name goes on with what is left of a part. -/
theorem scopedName_append {part : List Char} (h : ∀ c ∈ part, isPartChar c = true)
    (rest : List Char) :
    scopedName (part ++ rest) = (part ++ (scopedName rest).1, (scopedName rest).2) := by
  induction part with
  | nil => rfl
  | cons c more ih =>
    obtain ⟨hc, hmore⟩ := List.forall_mem_cons.mp h
    rw [List.cons_append, scopedName_cons hc, ih hmore]
    rfl

theorem scopedName_eq (cs : List Char) :
    scopedName cs = (cs.takeWhile isPartChar ++ (scopedName (cs.dropWhile isPartChar)).1,
      (scopedName (cs.dropWhile isPartChar)).2) := by
  have hpart : ∀ c ∈ cs.takeWhile isPartChar, isPartChar c = true :=
    fun _ hc => List.mem_takeWhile_imp hc
  rw [← scopedName_append hpart, List.takeWhile_append_dropWhile]

theorem isScopedName_singleton {c : Char} (h : isPartChar c = true) : IsScopedName [c] :=
  ⟨[[c]], by simp, by simp [h], rfl⟩

/-- The first part may begin earlier. -/
theorem IsScopedName.cons {name : List Char} (hname : IsScopedName name) {c : Char}
    (h : isPartChar c = true) : IsScopedName (c :: name) := by
  obtain ⟨parts, hne, hparts, rfl⟩ := hname
  obtain ⟨part, more, rfl⟩ := List.exists_cons_of_ne_nil hne
  obtain ⟨⟨_, hpart⟩, hmore⟩ := List.forall_mem_cons.mp hparts
  refine ⟨(c :: part) :: more, List.cons_ne_nil _ _, ?_, ?_⟩
  · have hfirst : ∀ d ∈ c :: part, isPartChar d = true := List.forall_mem_cons.mpr ⟨h, hpart⟩
    exact List.forall_mem_cons.mpr ⟨⟨List.cons_ne_nil _ _, hfirst⟩, hmore⟩
  · exact (Text.join_consFirst scopeMark c (List.cons_ne_nil part more)).symm

/-- There may be a part before the first one. -/
theorem IsScopedName.scope {name : List Char} (hname : IsScopedName name) {c : Char}
    (h : isPartChar c = true) : IsScopedName (c :: ':' :: ':' :: name) := by
  obtain ⟨parts, hne, hparts, rfl⟩ := hname
  refine ⟨[c] :: parts, List.cons_ne_nil _ _, ?_, ?_⟩
  · exact List.forall_mem_cons.mpr ⟨⟨List.cons_ne_nil _ _, by simpa using h⟩, hparts⟩
  · rw [Text.join_cons scopeMark [c] hne]
    rfl

/-- What is read as a name is one, and the text is divided behind it. -/
theorem isScopedName_scopedName {c : Char} (h : isPartChar c = true) (rest : List Char) :
    IsScopedName (c :: (scopedName rest).1) ∧
      (scopedName rest).1 ++ (scopedName rest).2 = rest := by
  induction rest using scopedName.induct generalizing c with
  | case1 d rest hd name after hmore ih =>
    obtain ⟨hname, hsplit⟩ := ih hd
    rw [scopedName_scope hd]
    exact ⟨hname.scope h, congrArg (fun cs => ':' :: ':' :: d :: cs) hsplit⟩
  | case2 d rest hd =>
    rw [scopedName, if_neg hd]
    exact ⟨isScopedName_singleton h, rfl⟩
  | case3 d rest _ hd name after hmore ih =>
    obtain ⟨hname, hsplit⟩ := ih hd
    rw [scopedName_cons hd]
    exact ⟨hname.cons h, congrArg (d :: ·) hsplit⟩
  | case4 d rest hscope hd =>
    rw [scopedName.eq_2 d rest hscope, if_neg hd]
    exact ⟨isScopedName_singleton h, rfl⟩
  | case5 => exact ⟨isScopedName_singleton h, rfl⟩

/-- A name is read to its end where it cannot go on. -/
theorem IsScopedName.scopedName_eq {name : List Char} (hname : IsScopedName name)
    {rest : List Char} (hrest : ¬ GoesOn rest) :
    ∃ c more, name = c :: more ∧ isPartChar c = true ∧
      scopedName (more ++ rest) = (more, rest) := by
  obtain ⟨parts, hne, hparts, rfl⟩ := hname
  -- Each part is read to its end, and the mark behind it begins the next scope.
  induction parts with
  | nil => exact absurd rfl hne
  | cons part parts ih =>
    obtain ⟨⟨hpartNe, hpart⟩, hmore⟩ := List.forall_mem_cons.mp hparts
    obtain ⟨c, more, rfl⟩ := List.exists_cons_of_ne_nil hpartNe
    obtain ⟨hc, hpartMore⟩ := List.forall_mem_cons.mp hpart
    by_cases hlast : parts = []
    · subst hlast
      refine ⟨c, more, rfl, hc, ?_⟩
      rw [scopedName_append hpartMore, scopedName_of_not_goesOn hrest, List.append_nil]
    · obtain ⟨d, later, hname, hd, hread⟩ := ih hlast hmore
      refine ⟨c, more ++ ':' :: ':' :: d :: later, ?_, hc, ?_⟩
      · rw [Text.join_cons scopeMark _ hlast, hname]
        simp [scopeMark]
      · rw [List.append_assoc, scopedName_append hpartMore]
        show (more ++ (scopedName (':' :: ':' :: d :: (later ++ rest))).1,
          (scopedName (':' :: ':' :: d :: (later ++ rest))).2) = _
        rw [scopedName_scope hd, hread]

/-! ## Up to the closing brace -/

/-- Whether a character may stand between braces. -/
def isInside (c : Char) : Bool := c != '}'

theorem untilBrace?_cons {c : Char} (h : isInside c = true) (rest : List Char) :
    untilBrace? (c :: rest) = (untilBrace? rest).map fun found => (c :: found.1, found.2) :=
  untilBrace?.eq_3 c rest (bne_iff_ne.mp h)

theorem untilBrace?_eq (cs : List Char) :
    untilBrace? cs = match cs.dropWhile isInside with
      | [] => none
      | _ :: after => some (cs.takeWhile isInside, after) := by
  induction cs with
  | nil => rfl
  | cons c rest ih =>
    by_cases h : c = '}'
    · subst h
      rfl
    · have hc : isInside c = true := bne_iff_ne.mpr h
      rw [untilBrace?_cons hc, ih, List.dropWhile_cons_of_pos hc, List.takeWhile_cons_of_pos hc]
      cases rest.dropWhile isInside with
      | nil => rfl
      | cons d after => rfl

theorem takeWhile_of_untilBrace? {cs : List Char} {found : List Char × List Char}
    (h : untilBrace? cs = some found) : cs.takeWhile isInside = found.1 := by
  rw [untilBrace?_eq] at h
  split at h
  · exact nomatch h
  · obtain rfl := Option.some.inj h
    rfl

theorem untilBrace?_eq_cutAt (cs : List Char) : untilBrace? cs = Text.cutAt '}' cs := by
  induction cs using untilBrace?.induct with
  | case1 => rfl
  | case2 rest => rfl
  | case3 c rest hc ih => rw [untilBrace?.eq_3 c rest hc, Text.cutAt, if_neg hc, ih]

/-- The text ends at the first closing brace. -/
theorem untilBrace?_eq_some_iff {cs text after : List Char} :
    untilBrace? cs = some (text, after) ↔ cs = text ++ '}' :: after ∧ '}' ∉ text := by
  rw [untilBrace?_eq_cutAt, Text.cutAt_eq_some_iff]

/-! ## What follows a name -/

theorem not_goesOn_of_closing {closing : List Char} {fallback : Option (List Char)}
    (h : Closing closing fallback) (after : List Char) : ¬ GoesOn (closing ++ after) := by
  rintro (hpart | ⟨c, rest, heq, hc⟩)
  · cases h with
    | plain => exact absurd (startsIn_cons.mp hpart) (by decide)
    | defaulted => exact absurd (startsIn_cons.mp hpart) (by decide)
  · cases h with
    | plain => exact absurd (List.cons.inj heq).1 (by decide)
    | defaulted hsign =>
      obtain rfl := (List.cons.inj (List.cons.inj heq).2).1
      rcases hsign with hsign | hsign <;> exact absurd hsign (by decide)

theorem endBraces?_eq_some_iff {name cs after : List Char} {r : Reference} :
    endBraces? name cs = some (r, after) ↔
      ∃ closing fallback, Closing closing fallback ∧ cs = closing ++ after ∧
        r = ⟨name, fallback⟩ := by
  constructor
  · intro h
    unfold endBraces? at h
    split at h
    · next rest =>
      obtain ⟨rfl, rfl⟩ := Prod.mk.inj (Option.some.inj h)
      exact ⟨_, none, .plain, rfl, rfl⟩
    · next sign rest =>
      split at h
      · next hsign =>
        obtain ⟨⟨text, after⟩, huntil, heq⟩ := Option.map_eq_some_iff.mp h
        obtain ⟨rfl, rfl⟩ := Prod.mk.inj heq
        obtain ⟨rfl, htext⟩ := untilBrace?_eq_some_iff.mp huntil
        exact ⟨_, some text, .defaulted hsign htext, by simp, rfl⟩
      · exact nomatch h
    · exact nomatch h
  · rintro ⟨closing, fallback, hclosing, rfl, rfl⟩
    cases hclosing with
    | plain => rfl
    | @defaulted sign text hsign htext =>
      have huntil : untilBrace? (text ++ '}' :: after) = some (text, after) :=
        untilBrace?_eq_some_iff.mpr ⟨rfl, htext⟩
      show endBraces? name (':' :: sign :: ((text ++ ['}']) ++ after)) = _
      rw [List.append_assoc, endBraces?, if_pos hsign]
      exact congrArg (Option.map _) huntil

/-! ## Tokens -/

/-- A bare name is a token as far as it goes. -/
theorem shellToken?_bare {c : Char} (h : beginsName c = true) (rest : List Char) :
    shellToken? ('$' :: c :: rest) =
      some (⟨c :: rest.takeWhile continuesName, none⟩, rest.dropWhile continuesName) := by
  have hbrace : c ≠ '{' := by
    rintro rfl
    exact absurd h (by decide)
  unfold shellToken?
  split
  · next heq => exact absurd (List.cons.inj (List.cons.inj heq).2).1 hbrace
  · next heq =>
    obtain ⟨rfl, rfl⟩ := List.cons.inj (List.cons.inj heq).2
    rw [if_pos h]
  · next hother => exact absurd rfl (hother c rest)

/-- A name between braces is a token as what follows it says. -/
theorem shellToken?_braced {name rest : List Char} (hname : IsScopedName name)
    (hrest : ¬ GoesOn rest) :
    shellToken? ('$' :: '{' :: (name ++ rest)) = endBraces? name rest := by
  obtain ⟨c, more, rfl, hc, hread⟩ := hname.scopedName_eq hrest
  rw [List.cons_append, shellToken?, if_pos hc, hread]

theorem shellToken?_of_braced {name closing : List Char} {fallback : Option (List Char)}
    (hname : IsScopedName name) (hclosing : Closing closing fallback) (after : List Char) :
    shellToken? ('$' :: '{' :: (name ++ closing) ++ after) =
      some (⟨name, fallback⟩, after) := by
  show shellToken? ('$' :: '{' :: ((name ++ closing) ++ after)) = _
  rw [List.append_assoc, shellToken?_braced hname (not_goesOn_of_closing hclosing after)]
  exact endBraces?_eq_some_iff.mpr ⟨closing, fallback, hclosing, rfl, rfl⟩

/-- What is recognised in the shell grammar is the text of a reference. -/
theorem exists_shellLexeme {cs after : List Char} {r : Reference}
    (h : shellToken? cs = some (r, after)) :
    ∃ lexeme, cs = lexeme ++ after ∧ ShellLexeme lexeme r := by
  unfold shellToken? at h
  split at h
  · next c rest =>
    split at h
    · next hc =>
      obtain ⟨hname, hsplit⟩ := isScopedName_scopedName hc rest
      obtain ⟨closing, fallback, hclosing, hafter, rfl⟩ := endBraces?_eq_some_iff.mp h
      have hrest : rest = (scopedName rest).1 ++ (closing ++ after) := by rw [← hafter, hsplit]
      exact ⟨_, by simpa using hrest, .braced hname hclosing⟩
    · exact nomatch h
  · next c rest _ =>
    split at h
    · next hc =>
      obtain ⟨rfl, rfl⟩ := Prod.mk.inj (Option.some.inj h)
      refine ⟨_, ?_, .bare hc fun _ hd => List.mem_takeWhile_imp hd⟩
      rw [List.cons_append, List.cons_append, List.takeWhile_append_dropWhile]
    · exact nomatch h
  · exact nomatch h

/-- No longer text of a reference stands where a token was recognised. -/
theorem length_le_of_shellLexeme {cs after longer : List Char} {r s : Reference}
    (h : shellToken? cs = some (r, after)) (hlonger : ShellLexeme longer s)
    (hbegins : longer <+: cs) : longer.length + after.length ≤ cs.length := by
  obtain ⟨more, rfl⟩ := hbegins
  rw [List.length_append]
  apply Nat.add_le_add_left
  cases hlonger with
  | braced hname hclosing =>
    rw [shellToken?_of_braced hname hclosing] at h
    obtain ⟨_, rfl⟩ := Prod.mk.inj (Option.some.inj h)
    exact Nat.le_refl _
  | @bare c rest hfirst hrest =>
    -- The token goes on behind this text, if it can.
    have htoken := shellToken?_bare hfirst (rest ++ more)
    obtain ⟨_, rfl⟩ := Prod.mk.inj (Option.some.inj (htoken.symm.trans h))
    rw [List.dropWhile_append_of_pos hrest]
    exact (List.dropWhile_sublist continuesName).length_le

/-- **A token of the shell grammar** is the longest text of a reference that a text begins
    with. -/
theorem shellToken?_eq_some_iff {cs after : List Char} {r : Reference} :
    shellToken? cs = some (r, after) ↔ BeginsWithLongest ShellLexeme cs r after := by
  constructor
  · intro h
    -- What is recognised leaves no more than any text of a reference does.
    obtain ⟨lexeme, rfl, hlexeme⟩ := exists_shellLexeme h
    refine ⟨lexeme, rfl, hlexeme, fun longer s hlonger hbegins => ?_⟩
    have hlength := length_le_of_shellLexeme h hlonger hbegins
    rw [List.length_append] at hlength
    exact Nat.le_of_add_le_add_right hlength
  · rintro ⟨lexeme, rfl, hlexeme, hlongest⟩
    cases hlexeme with
    | braced hname hclosing => exact shellToken?_of_braced hname hclosing after
    | @bare c rest hfirst hrest =>
      -- If the name went on, a longer one would stand there.
      have hstop : ¬ StartsIn continuesName after := by
        rintro ⟨d, hd, hcontinues⟩
        obtain ⟨later, rfl⟩ := List.head?_eq_some_iff.mp hd
        have hlonger : ShellLexeme ('$' :: c :: (rest ++ [d])) ⟨c :: (rest ++ [d]), none⟩ :=
          .bare hfirst (List.forall_mem_append.mpr ⟨hrest, by simpa using hcontinues⟩)
        have hlength := hlongest _ _ hlonger ⟨later, by simp⟩
        simp only [List.length_cons, List.length_append, List.length_nil] at hlength
        omega
      rw [List.cons_append, List.cons_append, shellToken?_bare hfirst,
        List.takeWhile_append_of_pos hrest, List.dropWhile_append_of_pos hrest,
        takeWhile_of_not_startsIn hstop, dropWhile_of_not_startsIn hstop, List.append_nil]

/-- **A token of the brace grammar** is the text of a reference that a text begins with. -/
theorem braceToken?_eq_some_iff {cs after : List Char} {r : Reference} :
    braceToken? cs = some (r, after) ↔ ∃ lexeme, cs = lexeme ++ after ∧ BraceLexeme lexeme r := by
  constructor
  · intro h
    unfold braceToken? at h
    split at h
    · next rest =>
      split at h
      · next c name after' huntil =>
        obtain ⟨rfl, rfl⟩ := Prod.mk.inj (Option.some.inj h)
        obtain ⟨rfl, hbrace⟩ := untilBrace?_eq_some_iff.mp huntil
        exact ⟨_, by simp, .braced (List.cons_ne_nil c name) hbrace⟩
      · exact nomatch h
    · exact nomatch h
  · rintro ⟨_, rfl, @⟨name, hname, hbrace⟩⟩
    obtain ⟨c, more, rfl⟩ := List.exists_cons_of_ne_nil hname
    have huntil : untilBrace? ((c :: more) ++ '}' :: after) = some (c :: more, after) :=
      untilBrace?_eq_some_iff.mpr ⟨rfl, hbrace⟩
    show braceToken? ('$' :: '{' :: (((c :: more) ++ ['}']) ++ after)) = _
    rw [List.append_assoc, List.singleton_append, braceToken?, huntil]

/-! ## Pieces -/

section pieces

variable {token? : List Char → Option (Reference × List Char)}

/-- What belongs to a token is passed. -/
theorem piecesFrom_skip (front rest : List Char) :
    piecesFrom token? front.length (front ++ rest) = piecesFrom token? 0 rest := by
  induction front with
  | nil => rfl
  | cons c more ih => exact ih

/-- Behind a token the search goes on. -/
theorem piecesFrom_of_some {lexeme after : List Char} {r : Reference} (hne : lexeme ≠ [])
    (h : token? (lexeme ++ after) = some (r, after)) :
    piecesFrom token? 0 (lexeme ++ after) = .token r :: piecesFrom token? 0 after := by
  obtain ⟨c, more, rfl⟩ := List.exists_cons_of_ne_nil hne
  have hskip : (more ++ after).length - after.length = more.length := by simp
  rw [List.cons_append] at h ⊢
  rw [piecesFrom, h]
  dsimp only
  rw [hskip, piecesFrom_skip]

theorem piecesFrom_of_none {c : Char} {rest : List Char} (h : token? (c :: rest) = none) :
    piecesFrom token? 0 (c :: rest) = .verbatim c :: piecesFrom token? 0 rest := by
  rw [piecesFrom, h]

end pieces

end LayeredConfig.Reference
