import LayeredConfig.Proofs.KeyPaths
import LayeredConfig.Proofs.Leaves
import LayeredConfig.Proofs.Steps

/-! # The tree that a document makes

    A document is applied leaf by leaf. The path to a leaf is joined to a key, and the key
    is split again, so a leaf is written at its path unless a key on the path has the
    separator in it. Such a leaf is spelled flat: it is written somewhere else, where other
    leaves may be written as well.

    A flat leaf that is written beneath the path to another one comes later than that one.
    For where the two spellings part, the flat one has the longer key. So flat leaves are
    never lost to leaves above them.

    **Main results.** `process_verbatim`: the tree of a document; `before_of_address`: flat
    leaves come later; `at?_treeOf_setAt_self` and `at?_treeOf_setAt_of_not_meets`: what is
    read after a change of the document.
-/

namespace LayeredConfig

/-! ## Paths -/

/-- Where two paths part, and both meet a third, this is above the first. -/
theorem exists_of_meets {p q r : List String} (hpq : Meets p q) (hqr : Meets q r)
    (hpr : ¬ Meets p r) : q <+: p ∧ ∃ rest, rest ≠ [] ∧ r = q ++ rest := by
  rcases hpq with hdown | hup
  · -- What goes on from the first path and meets the other one makes them meet.
    exfalso
    rcases hqr with hqr | hrq
    · exact hpr (.inl (hdown.trans hqr))
    · exact hpr (List.prefix_or_prefix_of_prefix hdown hrq)
  · rcases hqr with hqr | hrq
    · obtain ⟨rest, rfl⟩ := hqr
      refine ⟨hup, rest, ?_, rfl⟩
      intro hrest
      subst hrest
      rw [List.append_nil] at hpr
      exact hpr (.inr hup)
    · exact absurd (.inr (hrq.trans hup)) hpr

/-- A text is smaller than the texts that go on from it. -/
theorem lt_of_begins {key other : String} (h : key.toList <+: other.toList) (hne : key ≠ other) :
    key < other := by
  apply lt_of_le_of_ne _ hne
  rw [String.le_iff_toList_le]
  exact not_lt.mp (List.not_lt.mpr h.le)

/-- A path that goes on from one before another is before it too, if they part at all. -/
theorem Before.of_append {p q rest : List String} (h : Before (p ++ rest) q) (hpq : ¬ p <+: q) :
    Before p q := by
  induction p generalizing q with
  | nil => exact absurd List.nil_prefix hpq
  | cons first more ih =>
    cases h with
    | here hlt _ q => exact .here hlt more q
    | further _ h =>
      rw [List.prefix_cons_inj] at hpq
      exact .further first (ih h hpq)

/-- **Of two spellings of a text** the one that it is split into comes first: where they part
    the other one has the longer key. -/
theorem eq_or_before_of_split {delimiter : List Char} (hdelimiter : delimiter ≠ [])
    {p q : List String} (hp : p ≠ [])
    (hsplit : Text.split delimiter (Text.join delimiter (p.map String.toList)) =
      q.map String.toList) : q = p ∨ Before q p := by
  induction p generalizing q with
  | nil => exact absurd rfl hp
  | cons key more ih =>
    obtain ⟨first, others, rfl⟩ : ∃ first others, q = first :: others := by
      apply List.exists_cons_of_ne_nil
      rintro rfl
      exact Text.split_ne_nil _ _ hsplit
    have hlonger : 0 < delimiter.length := List.length_pos_iff.mpr hdelimiter
    rw [List.map_cons, List.map_cons] at hsplit
    by_cases hmore : more = []
    · subst hmore
      rw [List.map_nil, Text.join] at hsplit
      by_cases hothers : others = []
      · subst hothers
        have hkey := Text.eq_of_split_eq_singleton hdelimiter hsplit
        rw [String.toList_inj.mp hkey]
        exact .inl rfl
      · -- A single key is the whole text, so it goes on from the first step.
        obtain ⟨after, htext, _⟩ :=
          Text.exists_of_split_eq_cons hsplit (by simpa using hothers) hdelimiter
        right
        apply Before.here
        apply lt_of_begins ⟨delimiter ++ after, htext.symm⟩
        rintro rfl
        have hlength := congrArg List.length htext
        rw [List.length_append, List.length_append] at hlength
        omega
    · rw [Text.join_cons _ _ (by simpa using hmore), List.append_assoc] at hsplit
      have hothers : others ≠ [] := by
        rintro rfl
        apply Text.split_ne_singleton hdelimiter _ _ hsplit
        exact ⟨key.toList, _, List.append_assoc _ _ _⟩
      obtain ⟨after, htext, hafter⟩ :=
        Text.exists_of_split_eq_cons hsplit (by simpa using hothers) hdelimiter
      by_cases hkey : first = key
      · subst hkey
        have hjoin := List.append_cancel_left (List.append_cancel_left htext)
        rw [← hjoin] at hafter
        rcases ih hmore hafter with rfl | hbefore
        · exact .inl rfl
        · exact .inr (.further first hbefore)
      · -- The first step ends at the first delimiter, so the other key is the longer one.
        have hlength := Text.length_le_of_split_eq_cons hsplit hdelimiter
        have hbegins : first.toList <+: key.toList :=
          List.prefix_of_prefix_length_le ⟨_, htext.symm⟩ ⟨_, rfl⟩ hlength
        exact .inr (.here (lt_of_begins hbegins hkey) _ _)

/-- A path that is not found again in its key has one there that comes before it. -/
theorem Separator.split_join_eq_or_before {separator : Separator} (htext : separator.text ≠ "")
    {p : List String} (hp : p ≠ []) :
    separator.split (separator.join p) = p ∨ Before (separator.split (separator.join p)) p := by
  have hdelimiter : separator.text.toList ≠ [] := by simpa using htext
  apply eq_or_before_of_split hdelimiter hp
  unfold split join
  rw [if_neg htext, String.toList_ofList, List.map_map]
  simp

namespace Source.Document

open Value

/-! ## Addresses -/

/-- The path that is written at for the path to a leaf. -/
def address (separator : Separator) (path : List String) : List String :=
  separator.split (separator.join path)

/-- The tree of the leaves of members. -/
def treeOf (separator : Separator) (members : Entries Value) : Entries Value :=
  Entries.writeAll (address separator) [] (fieldLeaves false members)

/-- **Flat leaves come later** than the leaves above the places where they are written. -/
theorem before_of_address {separator : Separator} {p q rest : List String} (hrest : rest ≠ [])
    (hq : q ≠ []) (haddress : address separator q = p ++ rest) (habove : ¬ p <+: q) :
    Before p q := by
  by_cases htext : separator.text = ""
  · -- The empty separator makes no paths that go on.
    unfold address Separator.split at haddress
    rw [if_pos htext] at haddress
    exfalso
    cases p with
    | nil => exact habove List.nil_prefix
    | cons first more =>
      rw [List.cons_append, List.cons.injEq] at haddress
      exact hrest (List.append_eq_nil_iff.mp haddress.2.symm).2
  · unfold address at haddress
    rcases Separator.split_join_eq_or_before htext hq with hsame | hbefore
    · exact absurd ⟨rest, haddress.symm.trans hsame⟩ habove
    · rw [haddress] at hbefore
      exact hbefore.of_append habove

/-- Whether the leaves around a path are nested: a leaf whose path meets it, or which is
    written at a place that meets it, is written at its path. -/
def NestedAt (separator : Separator) (members : Entries Value) (p : List String) : Prop :=
  ∀ leaf ∈ fieldLeaves false members,
    Meets p leaf.1 ∨ Meets p (address separator leaf.1) → address separator leaf.1 = leaf.1

instance (separator : Separator) (members : Entries Value) (p : List String) :
    Decidable (NestedAt separator members p) :=
  inferInstanceAs (Decidable (∀ leaf ∈ fieldLeaves false members,
    Meets p leaf.1 ∨ Meets p (address separator leaf.1) → address separator leaf.1 = leaf.1))

/-! ## Leaves around a path -/

section around

variable {separator : Separator} {members : Entries Value} {p q : List String}
  (hnested : NestedAt separator members p) (hparts : ¬ Meets p q)
include hnested hparts

/-- Where one path parts from another, a leaf whose path meets the one can be written at a
    place that meets the other only if it is above both. -/
theorem above_of_meets {leaf : List String × Value} (hleaf : leaf ∈ fieldLeaves false members)
    (hmeets : Meets p leaf.1) (hreads : Meets (address separator leaf.1) q) :
    address separator leaf.1 = leaf.1 ∧ leaf.1 <+: p ∧
      ∃ rest, rest ≠ [] ∧ q = leaf.1 ++ rest := by
  have hplain := hnested leaf hleaf (.inl hmeets)
  rw [hplain] at hreads
  exact ⟨hplain, exists_of_meets hmeets hreads hparts⟩

/-- No leaf before such a leaf is written at a place that meets the other path. -/
theorem not_meets_of_before {leaf other : List String × Value}
    (hleaf : leaf ∈ fieldLeaves false members) (hother : other ∈ fieldLeaves false members)
    (hbefore : Before leaf.1 other.1) (hmeets : Meets p other.1)
    (hreads : Meets (address separator other.1) q) : ¬ Meets (address separator leaf.1) q := by
  intro hearlier
  obtain ⟨_, habove, rest, _, hq⟩ := above_of_meets hnested hparts hother hmeets hreads
  -- The earlier leaf would be written above the later one or beneath it.
  have hnot : ¬ address separator leaf.1 <+: other.1 := by
    intro hends
    have hplain := hnested leaf hleaf (.inr (.inr (hends.trans habove)))
    rw [hplain] at hends
    exact hbefore.not_meets (.inl hends)
  have hbeneath : other.1 <+: address separator leaf.1 := by
    have hpath : other.1 <+: q := ⟨rest, hq.symm⟩
    rcases hearlier with hends | hgoes
    · exact (List.prefix_or_prefix_of_prefix hends hpath).resolve_left hnot
    · exact hpath.trans hgoes
  obtain ⟨further, hfurther⟩ := hbeneath
  have hne : further ≠ [] := by
    intro hnil
    rw [hnil, List.append_nil] at hfurther
    exact hnot (hfurther ▸ List.prefix_rfl)
  have hlater := before_of_address hne (ne_nil_of_mem_fieldLeaves hleaf) hfurther.symm
    fun habove => hbefore.not_meets (.inr habove)
  exact hbefore.asymm hlater

/-- **The leaves that meet a path** do not count for one that parts from it. -/
theorem at?_treeOf_of_not_meets (htidy : (Value.object members).Tidy) :
    (treeOf separator members).at? q =
      (Entries.writeAll (address separator) [] ((fieldLeaves false members).filter
        fun leaf => !decide (Meets p leaf.1))).at? q := by
  apply Entries.at?_writeAll_drop (address separator) (fun leaf => decide (Meets p leaf.1)) _ _
    rfl (.inl (Entries.at?_empty q))
  · intro leaf hleaf hdropped hreads
    obtain ⟨hplain, _, rest, hrest, hq⟩ :=
      above_of_meets hnested hparts hleaf (by simpa using hdropped) hreads
    rw [hplain]
    have hvalue := htidy.isLeaf_of_mem_leaves (leaves_object members ▸ hleaf)
    exact ⟨hvalue, rest, hrest, hq, ne_nil_of_mem_fieldLeaves hleaf⟩
  · have horder := htidy.pairwise_before false
    rw [leaves_object] at horder
    apply List.Pairwise.imp_of_mem _ horder
    intro leaf other hleaf hother hbefore hdropped hreads
    exact not_meets_of_before hnested hparts hleaf hother hbefore (by simpa using hdropped)
      hreads

end around

/-! ## Changes of a document -/

section changing

variable {separator : Separator} {members : Entries Value} {p : List String} {v : Value}
  (htidy : (Value.object members).Tidy) (hp : p ≠ []) (hv : v.IsLeaf)
include htidy hp hv

/-- The leaf that is changed is the only one that meets its path. -/
theorem eq_or_mem_of_mem_fieldLeaves_setAt {leaf : List String × Value}
    (hleaf : leaf ∈ fieldLeaves false (members.setAt p v)) :
    leaf = (p, v) ∨ ¬ Meets p leaf.1 ∧ leaf ∈ fieldLeaves false members := by
  by_cases hmeets : Meets p leaf.1
  · left
    exact ((htidy.setAt p (.leaf hv)).eq_of_meets (mem_fieldLeaves_setAt members hp hv) hleaf
      hmeets).symm
  · right
    have hmem : leaf ∈ (fieldLeaves false (members.setAt p v)).filter
        (fun leaf => ¬ Meets p leaf.1) := List.mem_filter.mpr ⟨hleaf, by simpa using hmeets⟩
    rw [filter_fieldLeaves_setAt htidy] at hmem
    exact ⟨hmeets, (List.mem_filter.mp hmem).1⟩

variable (haddress : address separator p = p) (hnested : NestedAt separator members p)
include haddress hnested

/-- The leaves around the path are still nested. -/
theorem nestedAt_setAt : NestedAt separator (members.setAt p v) p := by
  intro leaf hleaf hmeets
  rcases eq_or_mem_of_mem_fieldLeaves_setAt htidy hp hv hleaf with rfl | ⟨_, hold⟩
  · exact haddress
  · exact hnested leaf hold hmeets

/-- **What is changed is read.** -/
theorem at?_treeOf_setAt_self : (treeOf separator (members.setAt p v)).at? p = some v := by
  have hlast : address separator (p, v).1 ≠ [] := by rwa [haddress]
  have hread := Entries.at?_writeAll_of_last (address separator) [] hlast
    (mem_fieldLeaves_setAt members hp hv) ?_
  · rwa [haddress] at hread
  · intro leaf hleaf
    rcases eq_or_mem_of_mem_fieldLeaves_setAt htidy hp hv hleaf with heq | ⟨hparts, hmem⟩
    · exact .inl heq
    · right
      rw [haddress]
      intro hmeets
      have hplain := hnested leaf hmem (.inr hmeets.symm)
      rw [hplain] at hmeets
      exact hparts hmeets.symm

/-- **What parts from the change is read as before.** -/
theorem at?_treeOf_setAt_of_not_meets {q : List String} (hparts : ¬ Meets p q) :
    (treeOf separator (members.setAt p v)).at? q = (treeOf separator members).at? q := by
  have hsame := filter_fieldLeaves_setAt htidy p v
  simp only [decide_not] at hsame
  rw [at?_treeOf_of_not_meets hnested hparts htidy,
    at?_treeOf_of_not_meets (nestedAt_setAt htidy hp hv haddress hnested) hparts
      (htidy.setAt p (.leaf hv)), hsame]

end changing

/-! ## Processing -/

/-- Whether the text of a value, if it has one, holds no token. -/
def IsVerbatim : Value → Prop
  | .string text => Reference.hasBraceToken text.toList = false
  | _ => True

instance : DecidablePred IsVerbatim
  | .string text => inferInstanceAs (Decidable (Reference.hasBraceToken text.toList = false))
  | .null | .bool _ | .number _ | .array _ | .object _ => isTrue trivial

theorem leafFormula_of_isVerbatim (o : Options) {v : Value} (h : IsVerbatim v) :
    leafFormula o v = .const v := by
  cases v with
  | string text =>
    have htokens : Reference.hasBraceToken text.toList = false := h
    unfold leafFormula
    dsimp only
    rw [htokens, Bool.and_false, if_neg Bool.false_ne_true]
  | _ => rfl

/-- The standard options, with a separator. -/
def standardWith (separator : Separator) : Options :=
  { Options.standard with keySeparator := separator }

/-- The steps of a document without a queue, leaf by leaf. -/
theorem steps_of_decode {codec : Codec} {content : List Char} {fields : Entries Value}
    (hdecode : codec.decode content = .ok (.object fields)) (o : Options) :
    Document.steps codec o content false = Step.within (o.contextName codec.name)
      ((fieldLeaves false (members o fields)).map (stepOf o)) := by
  have hroot : root codec content = .ok fields := by
    unfold root
    rw [hdecode]
    rfl
  unfold Document.steps
  rw [hroot]
  rfl

section constants

variable (files : Snapshot) {o : Options} (hoverwrite : o.overwrite = true)
  {leaves : List (List String × Value)}
  (h : ∀ leaf ∈ leaves, leafFormula o leaf.2 = .const leaf.2)
include hoverwrite h

/-- Leaves that refer to nothing are written as they are. -/
theorem store_runAll {s : Session} {m : Entries Value}
    (hstore : s.store = .nested m o.keySeparator) :
    (s.runAll files (leaves.map (stepOf o))).store =
      .nested (m.writeAll (address o.keySeparator) leaves) o.keySeparator := by
  induction leaves generalizing s m with
  | nil => exact hstore
  | cons leaf rest ih =>
    obtain ⟨hleaf, hrest⟩ := List.forall_mem_cons.mp h
    rw [List.map_cons, Session.runAll_cons, Entries.writeAll_cons]
    apply ih hrest
    unfold stepOf
    rw [hleaf, hoverwrite]
    show s.store.set _ _ = _
    rw [hstore]
    rfl

end constants

/-- **The tree of a document** without tokens is what an empty nested store holds after the
    document has been applied to it. -/
theorem process_verbatim (files : Snapshot) {codec : Codec} (separator : Separator)
    {content : List Char} {fields : Entries Value}
    (hdecode : codec.decode content = .ok (.object fields))
    (hverbatim : ∀ leaf ∈ fieldLeaves false (lowerOutermost fields), IsVerbatim leaf.2) :
    ∃ s, (Source.document codec content (standardWith separator)).process files
        (Session.fresh (.nested [] separator)) = .ok s ∧
      s.store = .nested (treeOf separator (lowerOutermost fields)) separator := by
  refine ⟨_, Source.process_eq files _ _, ?_⟩
  show (Session.runAll files _ (Document.steps codec (standardWith separator) content
    false)).store = _
  rw [steps_of_decode hdecode, Session.runAll_within]
  apply store_runAll files (o := standardWith separator) rfl _ rfl
  intro leaf hleaf
  exact leafFormula_of_isVerbatim _ (hverbatim leaf hleaf)

end Source.Document

end LayeredConfig
