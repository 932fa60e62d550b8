import LayeredConfig.Proofs.Formula
import LayeredConfig.Proofs.TokenPatterns
import Mathlib.Data.List.Forall2
import Mathlib.Data.List.Induction

/-! # Expansion in a single pass

    A text is split into tokens and verbatim characters by a pattern alone: where the pattern
    finds something at the beginning, this is a token, and the split goes on behind it;
    elsewhere the first character is verbatim. There is one such split. An expansion goes
    through it once. It replaces each token by a text that depends on the store, which is not
    looked at again, and notes the names of the tokens in the order in which they are first
    seen. So the names do not depend on the store at all.

    A document is interpolated leaf by leaf, and a leaf without a token is written as it is.
    This makes no difference: the pass would leave its text alone and note no name.

    **Main results.** `splits_iff`: the split; `expandShell_is_single_pass` for the
    shell grammar; `interpolation_may_be_skipped` for the brace grammar and for leaves.
-/

namespace LayeredConfig

namespace Reference

/-! ## The split of a text -/

/-- How a text is split: into a token where one is found at the beginning, and else into a
    verbatim character, and what follows. -/
inductive Splits (token? : List Char → Option (Reference × List Char)) :
    List Char → List Piece → Prop where
  | done : Splits token? [] []
  | token {cs after : List Char} {r : Reference} {pieces : List Piece}
    (hfound : token? cs = some (r, after)) (hafter : Splits token? after pieces) :
    Splits token? cs (.token r :: pieces)
  | verbatim {c : Char} {rest : List Char} {pieces : List Piece}
    (hnone : token? (c :: rest) = none) (hrest : Splits token? rest pieces) :
    Splits token? (c :: rest) (.verbatim c :: pieces)

/-- What is found is always a beginning that is not empty. -/
def Consumes (token? : List Char → Option (Reference × List Char)) : Prop :=
  ∀ cs r after, token? cs = some (r, after) → ∃ lexeme, lexeme ≠ [] ∧ cs = lexeme ++ after

section splits

variable {token? : List Char → Option (Reference × List Char)}

theorem Splits.eq_piecesFrom (htoken : Consumes token?) {cs : List Char} {pieces : List Piece}
    (h : Splits token? cs pieces) : pieces = piecesFrom token? 0 cs := by
  induction h with
  | done => rfl
  | @token cs after r pieces hfound _ ih =>
    obtain ⟨lexeme, hne, rfl⟩ := htoken _ _ _ hfound
    rw [piecesFrom_of_some hne hfound, ih]
  | verbatim hnone _ ih => rw [piecesFrom_of_none hnone, ih]

theorem splits_piecesFrom (htoken : Consumes token?) (cs : List Char) :
    Splits token? cs (piecesFrom token? 0 cs) := by
  -- The induction is on the length, since a whole token is passed at a time.
  induction hlength : cs.length using Nat.strong_induction_on generalizing cs with
  | _ n ih =>
    cases cs with
    | nil => exact .done
    | cons c rest =>
      cases hfound : token? (c :: rest) with
      | none =>
        rw [piecesFrom_of_none hfound]
        exact .verbatim hfound (ih rest.length (by rw [← hlength]; simp) rest rfl)
      | some found =>
        obtain ⟨r, after⟩ := found
        obtain ⟨lexeme, hne, heq⟩ := htoken _ _ _ hfound
        have hshorter : after.length < n := by
          have hpos := List.length_pos_of_ne_nil hne
          rw [← hlength, heq, List.length_append]
          omega
        rw [heq] at hfound ⊢
        rw [piecesFrom_of_some hne hfound]
        exact .token hfound (ih after.length hshorter after rfl)

/-- **There is one split**, and this is how a text is taken apart. -/
theorem splits_iff (htoken : Consumes token?) {cs : List Char} {pieces : List Piece} :
    Splits token? cs pieces ↔ pieces = piecesFrom token? 0 cs := by
  constructor
  · exact Splits.eq_piecesFrom htoken
  · rintro rfl
    exact splits_piecesFrom htoken cs

/-- Without a token the whole text is verbatim. -/
theorem Splits.eq_verbatim {cs : List Char} {pieces : List Piece} (h : Splits token? cs pieces)
    (hnone : ∀ r, Piece.token r ∉ pieces) : pieces = cs.map .verbatim := by
  induction h with
  | done => rfl
  | token => exact absurd List.mem_cons_self (hnone _)
  | @verbatim c _ _ _ _ ih =>
    rw [List.map_cons, ih fun r hr => hnone r (List.mem_cons_of_mem _ hr)]

/-- There is a token among the pieces exactly if one is found somewhere in the text. -/
theorem Splits.exists_token_iff (htoken : Consumes token?) {cs : List Char} {pieces : List Piece}
    (h : Splits token? cs pieces) :
    (∃ r, Piece.token r ∈ pieces) ↔ ∃ back, back <:+ cs ∧ (token? back).isSome := by
  constructor
  · -- The token was found where it stands.
    rintro ⟨r, hr⟩
    induction h with
    | done => exact nomatch hr
    | @token cs _ _ _ hfound _ _ => exact ⟨cs, List.suffix_refl cs, by rw [hfound]; rfl⟩
    | @verbatim c _ _ _ _ ih =>
      have hmem := (List.mem_cons.mp hr).resolve_left nofun
      obtain ⟨back, hback, hsome⟩ := ih hmem
      exact ⟨back, hback.trans (List.suffix_cons c _), hsome⟩
  · -- Up to the place where something is found, all is verbatim, or else there is a token.
    rintro ⟨back, hback, hsome⟩
    obtain ⟨⟨r, after⟩, hfound⟩ := Option.isSome_iff_exists.mp hsome
    induction h with
    | done =>
      obtain ⟨lexeme, hne, heq⟩ := htoken _ _ _ hfound
      rw [List.suffix_nil.mp hback] at heq
      exact absurd (List.append_eq_nil_iff.mp heq.symm).1 hne
    | token => exact ⟨_, List.mem_cons_self⟩
    | @verbatim c rest _ hnone _ ih =>
      rcases List.suffix_cons_iff.mp hback with rfl | hrest
      · exact nomatch hnone.symm.trans hfound
      · obtain ⟨r, hr⟩ := ih hrest
        exact ⟨r, List.mem_cons_of_mem _ hr⟩

end splits

theorem consumes_shellPattern : Consumes Pattern.shellPattern.token? := by
  intro cs r after hfound
  rw [Pattern.token?_shellPattern] at hfound
  obtain ⟨lexeme, hcs, hlexeme⟩ := exists_shellLexeme hfound
  refine ⟨lexeme, ?_, hcs⟩
  cases hlexeme with
  | bare => exact List.cons_ne_nil _ _
  | braced => exact List.cons_ne_nil _ _

theorem consumes_bracePattern : Consumes Pattern.bracePattern.token? := by
  intro cs r after hfound
  rw [Pattern.token?_bracePattern] at hfound
  obtain ⟨lexeme, hcs, @⟨name, _, _⟩⟩ := braceToken?_eq_some_iff.mp hfound
  exact ⟨_, List.cons_ne_nil _ _, hcs⟩

/-! ## The pass -/

/-- Names in the order in which they are first seen. -/
def firstSeen (names : List String) : List String :=
  names.foldl (fun seen name => if name ∈ seen then seen else seen ++ [name]) []

theorem firstSeen_append_singleton (names : List String) (name : String) :
    firstSeen (names ++ [name]) =
      if name ∈ firstSeen names then firstSeen names else firstSeen names ++ [name] := by
  unfold firstSeen
  rw [List.foldl_append]
  rfl

theorem eraseDups_eq_firstSeen (names : List String) : names.eraseDups = firstSeen names := by
  induction names using List.reverseRecOn with
  | nil => rfl
  | append_singleton names name ih =>
    rw [List.eraseDups_append, firstSeen_append_singleton, ← ih]
    by_cases h : name ∈ names
    · rw [if_pos (List.mem_eraseDups.mpr h)]
      simp [List.removeAll, h]
    · rw [if_neg (mt List.mem_eraseDups.mp h)]
      simp [List.removeAll, h, List.eraseDups_cons]

/-- What a piece may become. A token becomes the text of the value at its name, if there is one
    that counts, and something else otherwise. -/
inductive Replaces (nameOf : Reference → String) (counts : Value → Prop)
    (otherwise : Reference → List Char) (store : Store) : Piece → List Char → Prop where
  | verbatim (c : Char) : Replaces nameOf counts otherwise store (.verbatim c) [c]
  | value {r : Reference} {v : Value} (hread : store.get? (nameOf r) = some v) (hv : counts v) :
    Replaces nameOf counts otherwise store (.token r) v.text
  | absent {r : Reference} (hnone : ∀ v, store.get? (nameOf r) = some v → ¬ counts v) :
    Replaces nameOf counts otherwise store (.token r) (otherwise r)

/-- A token of the shell grammar becomes the text of a value that is not empty, or its default,
    or nothing. -/
def ReplacesShell (lower : Bool) : Store → Piece → List Char → Prop :=
  Replaces (shellName lower) (fun v => v.isEmpty = false) (fun r => r.fallback.getD [])

/-- The name of a token of the brace grammar. -/
def braceName (r : Reference) : String := String.ofList r.name

/-- A token of the brace grammar becomes the text of a value, or nothing. -/
def ReplacesBrace : Store → Piece → List Char → Prop :=
  Replaces braceName (fun _ => True) (fun _ => [])

/-- Whether an expansion goes through pieces once: each of them is replaced, and the names of
    the tokens are noted as they are first seen. -/
def IsSinglePass (nameOf : Reference → String) (Becomes : Piece → List Char → Prop)
    (pieces : List Piece) (e : Expansion) : Prop :=
  (∃ texts, List.Forall₂ Becomes pieces texts ∧ e.text = texts.flatten) ∧
    e.names = firstSeen ((pieces.filterMap Piece.reference?).map nameOf)

theorem isSinglePass_expand {nameOf : Reference → String} {textOf : Reference → List Char}
    {Becomes : Piece → List Char → Prop} {pieces : List Piece}
    (hpiece : ∀ piece, Becomes piece (piece.expanded textOf)) :
    IsSinglePass nameOf Becomes pieces (expand nameOf textOf pieces) := by
  rw [expand_eq]
  refine ⟨⟨pieces.map (Piece.expanded textOf), ?_, List.flatMap_def⟩, eraseDups_eq_firstSeen _⟩
  rw [List.forall₂_map_right_iff, List.forall₂_same]
  exact fun piece _ => hpiece piece

theorem replacesShell_expanded (store : Store) (lower : Bool) (piece : Piece) :
    ReplacesShell lower store piece (piece.expanded (shellText store lower)) := by
  cases piece with
  | verbatim c => exact .verbatim c
  | token r =>
    show ReplacesShell lower store (.token r) (shellText store lower r)
    unfold shellText
    cases hread : store.get? (shellName lower r) with
    | none => exact .absent fun v hv => nomatch hread.symm.trans hv
    | some v =>
      cases hempty : v.isEmpty with
      | false =>
        rw [Option.filter_some, hempty]
        exact .value hread hempty
      | true =>
        rw [Option.filter_some, hempty]
        refine .absent fun w hw => ?_
        obtain rfl := Option.some.inj (hread.symm.trans hw)
        exact ne_false_of_eq_true hempty

theorem replacesBrace_expanded (store : Store) (piece : Piece) :
    ReplacesBrace store piece (piece.expanded (braceText store)) := by
  cases piece with
  | verbatim c => exact .verbatim c
  | token r =>
    show ReplacesBrace store (.token r) (braceText store r)
    unfold braceText
    cases hread : store.get? (String.ofList r.name) with
    | none => exact .absent fun v hv => nomatch hread.symm.trans hv
    | some v => exact .value hread trivial

/-! ## The shell grammar -/

theorem splits_bracePieces {cs : List Char} {pieces : List Piece} :
    Splits Pattern.bracePattern.token? cs pieces ↔ pieces = bracePieces cs := by
  rw [splits_iff consumes_bracePattern, funext Pattern.token?_bracePattern]
  rfl

theorem hasBraceToken_iff_exists_token {cs : List Char} :
    hasBraceToken cs = true ↔ ∃ r, Piece.token r ∈ bracePieces cs := by
  unfold hasBraceToken
  rw [List.any_eq_true]
  constructor
  · rintro ⟨piece, hpiece, hsome⟩
    cases piece with
    | verbatim c => exact nomatch hsome
    | token r => exact ⟨r, hpiece⟩
  · rintro ⟨r, hr⟩
    exact ⟨.token r, hr, rfl⟩

/-- A text has a token exactly if the text of a reference stands somewhere in it. -/
theorem hasBraceToken_iff {cs : List Char} :
    hasBraceToken cs = true ↔ ∃ lexeme r, BraceLexeme lexeme r ∧ lexeme <:+: cs := by
  have hsplits := splits_bracePieces.mpr (rfl : bracePieces cs = bracePieces cs)
  rw [hasBraceToken_iff_exists_token, hsplits.exists_token_iff consumes_bracePattern]
  constructor
  · rintro ⟨back, hback, hsome⟩
    obtain ⟨⟨r, after⟩, hfound⟩ := Option.isSome_iff_exists.mp hsome
    rw [Pattern.token?_bracePattern] at hfound
    obtain ⟨lexeme, rfl, hlexeme⟩ := braceToken?_eq_some_iff.mp hfound
    exact ⟨lexeme, r, hlexeme, (List.prefix_append lexeme after).isInfix.trans hback.isInfix⟩
  · rintro ⟨lexeme, r, hlexeme, front, after, rfl⟩
    refine ⟨lexeme ++ after, by rw [List.append_assoc]; exact List.suffix_append front _, ?_⟩
    rw [Pattern.token?_bracePattern, braceToken?_eq_some_iff.mpr ⟨lexeme, rfl, hlexeme⟩]
    rfl

theorem names_expandBraces_eq_nil_iff (store : Store) (cs : List Char) :
    (expandBraces store cs).names = [] ↔ hasBraceToken cs = false := by
  rw [← Bool.not_eq_true, hasBraceToken_iff_exists_token]
  constructor
  · rintro hnames ⟨r, hr⟩
    have hname : braceName r ∈ (expandBraces store cs).names := mem_namesOf braceName hr
    rw [hnames] at hname
    exact nomatch hname
  · intro hnone
    have hreferences : (bracePieces cs).filterMap Piece.reference? = [] := by
      apply List.filterMap_eq_nil_iff.mpr
      intro piece hpiece
      cases piece with
      | verbatim c => rfl
      | token r => exact absurd ⟨r, hpiece⟩ hnone
    show (((bracePieces cs).filterMap Piece.reference?).map braceName).eraseDups = []
    rw [hreferences]
    rfl

/-- Without a token nothing is replaced. -/
theorem text_expandBraces_of_not_hasBraceToken {cs : List Char} (h : hasBraceToken cs = false)
    (store : Store) : (expandBraces store cs).text = cs := by
  have hnone : ∀ r, Piece.token r ∉ bracePieces cs := by
    intro r hr
    exact absurd (hasBraceToken_iff_exists_token.mpr ⟨r, hr⟩) (Bool.not_eq_true _ ▸ h)
  have hsplits := splits_bracePieces.mpr (rfl : bracePieces cs = bracePieces cs)
  rw [expandBraces, expand_eq]
  dsimp only
  rw [hsplits.eq_verbatim hnone, List.flatMap_map]
  exact List.flatMap_singleton' cs

end Reference

/-! ## Leaves of documents -/

namespace Source.Document

/-- The value and the names of a leaf, where every text is expanded if the options say so. -/
def resolveExpanding (o : Options) (store : Store) : Value → Value × List String
  | .string text =>
    if o.interpolate then
      let expansion := Reference.expandBraces store text.toList
      (.string (String.ofList expansion.text), expansion.names)
    else (.string text, [])
  | leaf => (leaf, [])

/-- Writes a leaf whose text is expanded if the options say so. -/
def writeLeafExpanding (o : Options) (s : Session) (leaf : List String × Value) : Session :=
  let (v, names) := resolveExpanding o s.store leaf.2
  s.defineUnless o.overwrite (o.keySeparator.join leaf.1) v names

/-- A text without a token resolves to itself in either way. -/
theorem resolve_eq_resolveExpanding (o : Options) (store : Store) (leaf : Value) :
    resolve o store leaf = resolveExpanding o store leaf := by
  cases leaf with
  | string text =>
    unfold resolve resolveExpanding
    dsimp only
    cases htoken : Reference.hasBraceToken text.toList with
    | true => rw [Bool.and_true]
    | false =>
      have htext := Reference.text_expandBraces_of_not_hasBraceToken htoken store
      have hnames := (Reference.names_expandBraces_eq_nil_iff store text.toList).mpr htoken
      rw [Bool.and_false, if_neg Bool.false_ne_true, htext, hnames, String.ofList_toList]
      split <;> rfl
  | _ => rfl

end Source.Document

namespace Reference

/-- **A text without a token need not be interpolated.** What the brace pattern finds is the
    text of a reference. A text holds a token exactly if the text of a reference stands
    somewhere in it, and exactly if its expansion notes a name; if not, the expansion is the
    text. In any case the expansion goes once through the one split of the text, and replaces
    each token by the text of the value at its name or by nothing. So every leaf is written as
    if each text were expanded wherever the options ask for it. -/
theorem interpolation_may_be_skipped :
    (∀ (cs : List Char) (r : Reference) (after : List Char),
      Pattern.bracePattern.token? cs = some (r, after) ↔
        ∃ lexeme, cs = lexeme ++ after ∧ BraceLexeme lexeme r) ∧
    (∀ cs : List Char,
      hasBraceToken cs = true ↔ ∃ lexeme r, BraceLexeme lexeme r ∧ lexeme <:+: cs) ∧
    (∀ (cs : List Char) (store : Store),
      (hasBraceToken cs = false ↔ (expandBraces store cs).names = []) ∧
        (hasBraceToken cs = false → (expandBraces store cs).text = cs)) ∧
    (∀ cs : List Char, ∃ pieces : List Piece,
      (∀ others, Splits Pattern.bracePattern.token? cs others ↔ others = pieces) ∧
      ∀ store : Store,
        IsSinglePass braceName (ReplacesBrace store) pieces (expandBraces store cs)) ∧
    ∀ (o : Options) (s : Session) (leaf : List String × Value),
      Source.Document.writeLeaf o s leaf = Source.Document.writeLeafExpanding o s leaf := by
  refine ⟨fun cs r after => ?_, fun cs => hasBraceToken_iff, fun cs store => ⟨?_, ?_⟩,
    fun cs => ⟨bracePieces cs, fun others => splits_bracePieces, fun store => ?_⟩,
    fun o s leaf => ?_⟩
  · rw [Pattern.token?_bracePattern]
    exact braceToken?_eq_some_iff
  · exact (names_expandBraces_eq_nil_iff store cs).symm
  · exact fun hnone => text_expandBraces_of_not_hasBraceToken hnone store
  · exact isSinglePass_expand (replacesBrace_expanded store)
  · rw [Source.Document.writeLeaf, Source.Document.resolve_eq_resolveExpanding]
    rfl

end Reference

end LayeredConfig
