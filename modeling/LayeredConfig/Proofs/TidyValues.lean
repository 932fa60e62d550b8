import LayeredConfig.Codec
import LayeredConfig.Proofs.LineReading
import LayeredConfig.Proofs.OrderedEntries

/-! # What the JSON reader reads

    Of two members with the same key the reader keeps the later one, and it keeps members
    in the order of their keys. So in a value that was read from a JSON text all objects
    that are reached through objects are in order. This is an invariant of both machines:
    tokens carry no objects at all, and what is open on the stack is in order.

    A text of blanks is no JSON text, whatever the blanks are: those that JSON knows
    finish nothing, and of the others there is no numeral.

    **Main results.** `Json.tidy_of_read?`, `Json.read?_eq_none_of_blank`.
-/

namespace LayeredConfig

/-! ## Tidy values -/

namespace Value

/-- Whether a value ends the path to it: anything but an object. -/
def IsLeaf : Value → Prop
  | .object _ => False
  | _ => True

/-- A value in which every object that is reached through objects has its members in the
    order of their keys, and no two members of one key. -/
inductive Tidy : Value → Prop where
  | leaf {v : Value} (h : v.IsLeaf) : Tidy v
  | object {fields : Entries Value} (hordered : fields.Ordered)
      (hfields : ∀ entry ∈ fields, Tidy entry.2) : Tidy (.object fields)

theorem Tidy.ordered {fields : Entries Value} (h : Tidy (.object fields)) : fields.Ordered := by
  cases h with
  | leaf hleaf => exact hleaf.elim
  | object hordered _ => exact hordered

theorem Tidy.of_mem {fields : Entries Value} (h : Tidy (.object fields)) {entry : String × Value}
    (hentry : entry ∈ fields) : Tidy entry.2 := by
  cases h with
  | leaf hleaf => exact hleaf.elim
  | object _ hfields => exact hfields entry hentry

theorem tidy_empty : Tidy (.object []) :=
  .object Entries.ordered_nil fun _ hentry => (nomatch hentry)

end Value

theorem Value.Tidy.insert {fields : Entries Value} (h : Tidy (.object fields)) (key : String)
    {v : Value} (hv : v.Tidy) : Tidy (.object (fields.insert key v)) := by
  refine .object (h.ordered.insert key v) ?_
  intro entry hentry
  rcases Entries.mem_insert hentry with rfl | hmem
  · exact hv
  · exact h.of_mem hmem

theorem Value.Tidy.members {fields : Entries Value} (h : Tidy (.object fields)) (key : String) :
    Tidy (.object (fields.below key)) := by
  unfold Entries.below
  cases hread : fields.get? key with
  | none => exact tidy_empty
  | some v =>
    cases v with
    | object inner => exact h.of_mem (Entries.mem_of_get? hread)
    | _ => exact tidy_empty

/-- A write of a tidy value keeps an object tidy. -/
theorem Value.Tidy.setAt {fields : Entries Value} (h : Tidy (.object fields)) (p : List String)
    {v : Value} (hv : v.Tidy) : Tidy (.object (fields.setAt p v)) := by
  induction p generalizing fields with
  | nil => rwa [Entries.setAt_nil]
  | cons key rest ih =>
    by_cases hrest : rest = []
    · subst hrest
      exact h.insert key hv
    · rw [Entries.setAt_cons fields key hrest]
      exact h.insert key (ih (h.members key))

namespace Json

/-! ## Tokens -/

/-- A token that carries no object. -/
def Token.Flat : Token → Prop
  | .atom v => v.IsLeaf
  | _ => True

theorem isLeaf_of_atom? {run : List Char} {v : Value} (h : atom? run = some v) : v.IsLeaf := by
  unfold atom? at h
  split at h
  · exact Option.some.inj h ▸ trivial
  · split at h
    · exact Option.some.inj h ▸ trivial
    · split at h
      · exact Option.some.inj h ▸ trivial
      · obtain ⟨n, _, rfl⟩ := Option.map_eq_some_iff.mp h
        trivial

theorem flat_of_endRun? {before : List Char} {tokens : List Token}
    (h : endRun? before = some tokens) : ∀ token ∈ tokens, token.Flat := by
  intro token htoken
  unfold endRun? at h
  split at h
  · rw [← Option.some.inj h] at htoken
    exact nomatch htoken
  · obtain ⟨v, hv, rfl⟩ := Option.map_eq_some_iff.mp h
    obtain rfl := List.mem_singleton.mp htoken
    exact isLeaf_of_atom? hv

theorem flat_of_punctuation? {c : Char} {token : Token} (h : punctuation? c = some token) :
    token.Flat := by
  unfold punctuation? at h
  split at h
  all_goals first
    | exact (Option.some_ne_none token h.symm).elim
    | exact Option.some.inj h ▸ trivial

/-- Inside of a text only the closing quote finishes a token, and that is a text. -/
theorem flat_of_stepText? {state next : LexState} {c : Char} {token : Token}
    (h : stepText? state c = some (some token, next)) : token.Flat := by
  unfold stepText? at h
  split at h
  · exact nomatch h
  · split at h
    · -- The quote that ends the text.
      cases h
      trivial
    · split at h
      · exact nomatch h
      · split at h <;> simp at h
  · split at h <;> simp at h
  · -- No digit of an escape finishes a token.
    obtain ⟨digit, _, h⟩ := Option.bind_eq_some_iff.mp h
    split at h
    · obtain ⟨after, _, h⟩ := Option.bind_eq_some_iff.mp h
      simp at h
    · simp at h
  · split at h <;> simp at h
  · split at h <;> simp at h

/-- **Step.** A character finishes tokens without objects. -/
theorem flat_of_lexStep? {state next : LexState} {c : Char} {tokens : List Token}
    (h : lexStep? state c = some (tokens, next)) : ∀ token ∈ tokens, token.Flat := by
  unfold lexStep? at h
  split at h
  · split at h
    · split at h
      · obtain ⟨rfl, _⟩ := Prod.mk.inj (Option.some.inj h)
        exact fun _ htoken => (nomatch htoken)
      · exact nomatch h
    · split at h
      · obtain ⟨done, hdone, heq⟩ := Option.map_eq_some_iff.mp h
        obtain ⟨rfl, _⟩ := Prod.mk.inj heq
        exact flat_of_endRun? hdone
      · split at h
        · next punctuation hpunctuation =>
          obtain ⟨done, hdone, heq⟩ := Option.map_eq_some_iff.mp h
          obtain ⟨rfl, _⟩ := Prod.mk.inj heq
          intro token htoken
          rcases List.mem_append.mp htoken with hmem | hmem
          · exact flat_of_endRun? hdone token hmem
          · obtain rfl := List.mem_singleton.mp hmem
            exact flat_of_punctuation? hpunctuation
        · obtain ⟨rfl, _⟩ := Prod.mk.inj (Option.some.inj h)
          exact fun _ htoken => (nomatch htoken)
  · obtain ⟨⟨finished, after⟩, hstep, heq⟩ := Option.map_eq_some_iff.mp h
    obtain ⟨rfl, _⟩ := Prod.mk.inj heq
    intro token htoken
    obtain rfl := Option.mem_toList.mp htoken
    exact flat_of_stepText? hstep

/-- **Run.** So does a text. -/
theorem flat_of_lexFrom {state : LexState} {cs : List Char} {tokens : List Token}
    (h : lexFrom state cs = some tokens) : ∀ token ∈ tokens, token.Flat := by
  induction cs generalizing state tokens with
  | nil =>
    unfold lexFrom at h
    split at h
    · exact flat_of_endRun? h
    · exact nomatch h
  | cons c rest ih =>
    obtain ⟨⟨first, next⟩, hstep, h⟩ := Option.bind_eq_some_iff.mp h
    obtain ⟨more, hmore, h⟩ := Option.bind_eq_some_iff.mp h
    obtain rfl := Option.some.inj h
    intro token htoken
    rcases List.mem_append.mp htoken with hmem | hmem
    · exact flat_of_lexStep? hstep token hmem
    · exact ih hmore token hmem

/-! ## Values -/

/-- A slot whose members so far are in order. -/
def Slot.Tidy : Slot → Prop
  | .member before _ => (Value.object before).Tidy
  | _ => True

/-- A state in which the members read so far are in order. -/
def ReadState.Tidy : ReadState → Prop
  | .value slot => slot.Tidy
  | .key before => (Value.object before).Tidy
  | .colon before _ => (Value.object before).Tidy
  | .afterItem _ => True
  | .afterMember fields => (Value.object fields).Tidy
  | .done v => v.Tidy

theorem Slot.Tidy.fill {slot : Slot} (h : slot.Tidy) {v : Value} (hv : v.Tidy) :
    (slot.fill v).Tidy := by
  cases slot with
  | whole => exact hv
  | item before => trivial
  | member before key => exact Value.Tidy.insert h key hv

/-- **Step.** A token keeps the order, in the state and on the stack. -/
theorem tidy_of_readStep? {state next : ReadState} {stack stack' : List Slot} {token : Token}
    (h : readStep? state stack token = some (next, stack')) (hstate : state.Tidy)
    (hstack : ∀ slot ∈ stack, slot.Tidy) (htoken : token.Flat) :
    next.Tidy ∧ ∀ slot ∈ stack', slot.Tidy := by
  unfold readStep? at h
  split at h
  · -- A value that is neither a list nor an object.
    cases h
    exact ⟨hstate.fill (.leaf htoken), hstack⟩
  · -- A list is opened.
    split at h
    · cases h
      exact ⟨trivial, List.forall_mem_cons.mpr ⟨hstate, hstack⟩⟩
    · exact nomatch h
  · -- An object is opened.
    split at h
    · cases h
      exact ⟨Value.tidy_empty, List.forall_mem_cons.mpr ⟨hstate, hstack⟩⟩
    · exact nomatch h
  · -- An empty list.
    cases h
    obtain ⟨hslot, hrest⟩ := List.forall_mem_cons.mp hstack
    exact ⟨hslot.fill (.leaf trivial), hrest⟩
  · -- A key.
    cases h
    exact ⟨hstate, hstack⟩
  · -- An empty object.
    cases h
    obtain ⟨hslot, hrest⟩ := List.forall_mem_cons.mp hstack
    exact ⟨hslot.fill Value.tidy_empty, hrest⟩
  · -- The colon behind a key.
    cases h
    exact ⟨hstate, hstack⟩
  · -- A comma in a list.
    cases h
    exact ⟨trivial, hstack⟩
  · -- The end of a list.
    cases h
    obtain ⟨hslot, hrest⟩ := List.forall_mem_cons.mp hstack
    exact ⟨hslot.fill (.leaf trivial), hrest⟩
  · -- A comma in an object.
    cases h
    exact ⟨hstate, hstack⟩
  · -- The end of an object.
    cases h
    obtain ⟨hslot, hrest⟩ := List.forall_mem_cons.mp hstack
    exact ⟨hslot.fill hstate, hrest⟩
  · exact nomatch h

/-- **Run.** So do the tokens of a text. -/
theorem tidy_of_readFrom {state : ReadState} {stack : List Slot} {tokens : List Token} {v : Value}
    (h : readFrom state stack tokens = some v) (hstate : state.Tidy)
    (hstack : ∀ slot ∈ stack, slot.Tidy) (htokens : ∀ token ∈ tokens, token.Flat) : v.Tidy := by
  induction tokens generalizing state stack with
  | nil =>
    unfold readFrom at h
    split at h
    · cases h
      exact hstate
    · exact nomatch h
  | cons token rest ih =>
    obtain ⟨⟨next, stack'⟩, hstep, h⟩ := Option.bind_eq_some_iff.mp h
    obtain ⟨htoken, hrest⟩ := List.forall_mem_cons.mp htokens
    obtain ⟨hnext, hstack'⟩ := tidy_of_readStep? hstep hstate hstack htoken
    exact ih h hnext hstack' hrest

/-- **What is read is tidy.** -/
theorem tidy_of_read? {cs : List Char} {v : Value} (h : read? cs = some v) : v.Tidy := by
  obtain ⟨tokens, htokens, h⟩ := Option.bind_eq_some_iff.mp h
  exact tidy_of_readFrom h trivial (fun _ hslot => (nomatch hslot)) (flat_of_lexFrom htokens)

/-! ## Blank texts -/

/-- A blank begins no numeral. -/
theorem not_isDigit_of_isBlank {c : Char} (h : Text.isBlank c = true) : c.isDigit = false := by
  by_contra hdigit
  have hdigit : c.isDigit = true := by simpa using hdigit
  have hword : isWordChar c = true := by simp [isWordChar, Char.isAlphanum, hdigit]
  have hnone := Text.forall_ascii (P := fun c => c.isDigit = true → Text.isBlank c = false)
    (by decide +kernel) (isAscii_of_isWordChar hword) hdigit
  exact Bool.false_ne_true (hnone.symm.trans h)

/-- A run of blanks is no token, unless it is empty. -/
theorem endRun?_of_blank {before : List Char} (h : ∀ c ∈ before, Text.isBlank c = true) :
    endRun? before = if before = [] then some [] else none := by
  cases before with
  | nil => rfl
  | cons last front =>
    obtain ⟨first, rest, hrun⟩ :=
      List.exists_cons_of_ne_nil (List.reverse_ne_nil_iff.mpr (List.cons_ne_nil last front))
    have hfirst : Text.isBlank first = true := by
      apply h
      rw [← List.mem_reverse, hrun]
      exact List.mem_cons_self
    have hne : ∀ c, Text.isBlank c = false → first ≠ c := by
      intro c hc heq
      subst heq
      exact Bool.false_ne_true (hc.symm.trans hfirst)
    have hnumeral : numeral? (first :: rest) = none := by
      unfold numeral?
      split
      · next heq => exact absurd (List.cons.inj heq).1 (hne '-' (by decide))
      · unfold unsigned?
        rw [List.takeWhile_cons_of_neg (by simp [not_isDigit_of_isBlank hfirst])]
        rfl
    unfold endRun? atom?
    dsimp only
    rw [hrun, hnumeral]
    simp [hne 'n' (by decide), hne 't' (by decide), hne 'f' (by decide)]

theorem punctuation?_of_blank {c : Char} (h : Text.isBlank c = true) : punctuation? c = none := by
  unfold punctuation?
  split
  all_goals first | rfl | exact absurd h (by decide)

/-- A text of blanks has no tokens, if it has any meaning at all. -/
theorem lexFrom_of_blank {before cs : List Char} (hbefore : ∀ c ∈ before, Text.isBlank c = true)
    (h : ∀ c ∈ cs, Text.isBlank c = true) :
    lexFrom (.run before) cs = none ∨ lexFrom (.run before) cs = some [] := by
  induction cs generalizing before with
  | nil =>
    unfold lexFrom
    dsimp only
    rw [endRun?_of_blank hbefore]
    split
    · exact .inr rfl
    · exact .inl rfl
  | cons c rest ih =>
    obtain ⟨hc, hrest⟩ := List.forall_mem_cons.mp h
    have hquote : c ≠ '"' := by
      intro heq
      subst heq
      exact absurd hc (by decide)
    unfold lexFrom lexStep?
    dsimp only
    rw [if_neg hquote, punctuation?_of_blank hc]
    split
    · -- A blank that JSON knows ends the run.
      rw [endRun?_of_blank hbefore]
      split
      · have hempty : ∀ c ∈ ([] : List Char), Text.isBlank c = true :=
          fun _ hmem => (nomatch hmem)
        rcases ih hempty hrest with hnone | hnil
        · left
          simp [hnone]
        · right
          simp [hnil]
      · left
        rfl
    · -- Any other blank goes on with it.
      rcases ih (List.forall_mem_cons.mpr ⟨hc, hbefore⟩) hrest with hnone | hnil
      · left
        simp [hnone]
      · right
        simp [hnil]

/-- **A text of blanks is no JSON text.** -/
theorem read?_eq_none_of_blank {cs : List Char} (h : Text.trim cs = []) : read? cs = none := by
  have hblank := Text.trim_eq_nil_iff.mp h
  unfold read?
  have hempty : ∀ c ∈ ([] : List Char), Text.isBlank c = true := fun _ hmem => (nomatch hmem)
  rcases lexFrom_of_blank hempty hblank with hnone | hnil
  · rw [hnone]
    rfl
  · rw [hnil]
    rfl

end Json

end LayeredConfig
