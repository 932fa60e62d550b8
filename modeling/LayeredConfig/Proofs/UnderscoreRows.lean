import LayeredConfig.Key.Namespace
import LayeredConfig.Proofs.Splitting
import Mathlib.Data.List.SplitBy

/-! # Rows of underscores

    Rewriting a key replaces threes of underscores first and then twos of what is left. Both
    times this is done from the left and over the whole key. All the same each row of
    underscores, taken as long as it goes, is rewritten for itself: it gives a backslash for
    every three of them, and what is left of the row, none, one or two, stays away, stays, or
    gives two colons. Everything else stays where it is, marks that were there before included.

    So no two underscores are left next to each other, and there is nothing to rewrite a
    second time.

    **Main result.** `rewriteNamespace_by_rows`.
-/

namespace LayeredConfig

namespace Text

/-! ## Rows of equal characters -/

/-- The rows of equal characters in a text, each as long as it goes. -/
def rows (cs : List Char) : List (List Char) := cs.splitBy (· == ·)

/-- A text begins with a row, if it is not empty. -/
theorem exists_row (c : Char) (rest : List Char) :
    ∃ n after, c :: rest = List.replicate (n + 1) c ++ after ∧ c ∉ after.head? := by
  refine ⟨(rest.takeWhile (· == c)).length, rest.dropWhile (· == c), ?_, ?_⟩
  · have hrow : rest.takeWhile (· == c) = List.replicate (rest.takeWhile (· == c)).length c := by
      rw [List.eq_replicate_iff]
      exact ⟨rfl, fun d hd => eq_of_beq (List.all_eq_true.mp List.all_takeWhile d hd)⟩
    rw [List.replicate_succ, List.cons_append, ← hrow, List.takeWhile_append_dropWhile]
  · intro hhead
    have hends := List.head?_dropWhile_not (· == c) rest
    rw [Option.mem_def.mp hhead] at hends
    simp at hends

/-- What holds of the empty text, and of a text with a row in front if it holds of the text,
    holds of all texts. -/
theorem rowInduction {P : List Char → Prop} (nil : P [])
    (row : ∀ c n after, c ∉ after.head? → P after → P (List.replicate (n + 1) c ++ after))
    (cs : List Char) : P cs := by
  induction hn : cs.length using Nat.strongRecOn generalizing cs with
  | ind length ih =>
    cases cs with
    | nil => exact nil
    | cons c rest =>
      obtain ⟨n, after, hcs, hafter⟩ := exists_row c rest
      have hshorter : after.length < length := by
        rw [← hn, hcs, List.length_append, List.length_replicate]
        omega
      rw [hcs]
      exact row c n after hafter (ih _ hshorter after rfl)

section row

variable {c : Char} {after : List Char} (hafter : c ∉ after.head?)
include hafter

theorem rows_row_append (n : Nat) :
    rows (List.replicate (n + 1) c ++ after) = List.replicate (n + 1) c :: rows after := by
  have hrow : rows (List.replicate (n + 1) c) = [List.replicate (n + 1) c] :=
    List.splitBy_of_isChain (by simp) (List.isChain_replicate_of_rel (n + 1) (beq_self_eq_true c))
  have happend : rows (List.replicate (n + 1) c ++ after) =
      rows (List.replicate (n + 1) c) ++ rows after := by
    apply List.splitBy_append
    intro d hd e he
    obtain rfl : d = c := List.eq_of_mem_replicate (List.mem_of_mem_getLast? hd)
    rw [beq_eq_false_iff_ne]
    rintro rfl
    exact hafter he
  rw [happend, hrow, List.singleton_append]

/-! ## Replacing rows -/

/-- The rows that a row begins with are those that are not longer. -/
theorem row_prefix_iff (k n : Nat) :
    List.replicate k c <+: List.replicate n c ++ after ↔ k ≤ n := by
  constructor
  · intro hbegins
    by_contra hlonger
    obtain ⟨more, hk⟩ : ∃ more, k = n + (more + 1) := ⟨k - n - 1, by omega⟩
    rw [hk, ← List.replicate_append_replicate, List.prefix_append_right_inj,
      List.replicate_succ] at hbegins
    cases after with
    | nil => exact nomatch List.prefix_nil.mp hbegins
    | cons d rest => exact hafter (by simp [(List.cons_prefix_cons.mp hbegins).1])
  · intro hle
    obtain ⟨more, rfl⟩ := Nat.exists_eq_add_of_le hle
    rw [← List.replicate_append_replicate, List.append_assoc]
    exact List.prefix_append _ _

/-- A row that is too short to be replaced stays. -/
theorem replace_short_row {k r : Nat} (hr : r < k) (new : List Char) :
    replace (List.replicate k c) new (List.replicate r c ++ after) =
      List.replicate r c ++ replace (List.replicate k c) new after := by
  induction r with
  | zero => rfl
  | succ r ih =>
    have hstarts :
        ¬ (List.replicate k c).isPrefixOf (c :: (List.replicate r c ++ after)) = true := by
      rw [List.isPrefixOf_iff_prefix, ← List.cons_append, ← List.replicate_succ,
        row_prefix_iff hafter]
      omega
    rw [List.replicate_succ, List.cons_append, replace_cons, if_neg hstarts, ih (by omega),
      List.cons_append]

/-- **Rows are replaced from their beginning.** As often as `k` goes into the length of a row,
    `k` of its characters are replaced, and the rest of the row stays behind. -/
theorem replace_row {k : Nat} (hk : 0 < k) (new : List Char) (n : Nat) :
    replace (List.replicate k c) new (List.replicate n c ++ after) =
      (List.replicate (n / k) new).flatten ++
        (List.replicate (n % k) c ++ replace (List.replicate k c) new after) := by
  induction n using Nat.strongRecOn with
  | ind n ih =>
    by_cases hn : n < k
    · rw [Nat.div_eq_of_lt hn, Nat.mod_eq_of_lt hn]
      exact replace_short_row hafter hn new
    · obtain ⟨m, rfl⟩ := Nat.exists_eq_add_of_le (Nat.le_of_not_lt hn)
      have hne : List.replicate k c ≠ [] := by
        rw [Ne, List.replicate_eq_nil_iff]
        omega
      rw [← List.replicate_append_replicate, List.append_assoc, replace_old_append hne,
        ih m (by omega), Nat.add_div_left m hk, Nat.add_mod_left, List.replicate_succ,
        List.flatten_cons, List.append_assoc]

/-- Replacing does not touch the beginning of a text that begins with another character. -/
theorem head?_replace (more new : List Char) :
    (replace (c :: more) new after).head? = after.head? := by
  cases after with
  | nil => rfl
  | cons d rest =>
    have hd : c ∉ [d] := by
      intro hmem
      exact hafter (by simp [List.mem_singleton.mp hmem])
    have hkept : replace (c :: more) new ([d] ++ rest) = [d] ++ replace (c :: more) new rest :=
      replace_append_of_not_mem hd new rest
    rw [List.singleton_append] at hkept
    rw [hkept]
    rfl

end row

end Text

/-! ## Keys -/

/-- What a row of underscores becomes. -/
def rowMarks (n : Nat) : List Char :=
  List.replicate (n / 3) '\\' ++
    match n % 3 with
    | 0 => []
    | 1 => ['_']
    | _ => [':', ':']

/-- What a row of equal characters becomes. -/
def rewrittenRow (row : List Char) : List Char :=
  if row.head? = some '_' then rowMarks row.length else row

/-- A key without two underscores in a row stands for itself. -/
theorem rewriteNamespace_of_single {key : List Char} (h : ¬ ['_', '_'] <:+: key) :
    rewriteNamespace key = key := by
  have hthree : ¬ ['_', '_', '_'] <:+: key := fun hwithin =>
    h (List.IsInfix.trans ⟨[], ['_'], rfl⟩ hwithin)
  unfold rewriteNamespace
  rw [Text.replace_of_absent hthree, Text.replace_of_absent h]

/-- Rewriting brings in only the marks. -/
theorem mem_of_mem_rewriteNamespace {key : List Char} {c : Char}
    (h : c ∈ rewriteNamespace key) : c = ':' ∨ c = '\\' ∨ c ∈ key := by
  rcases Text.mem_of_mem_replace (List.cons_ne_nil _ _) h with hscope | hmem
  · exact .inl (by simpa [scopeMark] using hscope)
  · rcases Text.mem_of_mem_replace (List.cons_ne_nil _ _) hmem with hnamespace | hmem
    · exact .inr (.inl (by simpa [namespaceMark] using hnamespace))
    · exact .inr (.inr hmem)

theorem length_rewriteNamespace_le (key : List Char) :
    (rewriteNamespace key).length ≤ key.length :=
  (Text.length_replace_le (List.cons_ne_nil _ _) (by decide) _).trans
    (Text.length_replace_le (List.cons_ne_nil _ _) (by decide) key)

/-- Two underscores in a row leave a mark. -/
theorem mark_mem_rewriteNamespace {key : List Char} (h : ['_', '_'] <:+: key) :
    ':' ∈ rewriteNamespace key ∨ '\\' ∈ rewriteNamespace key := by
  by_cases hthree : ['_', '_', '_'] <:+: key
  · -- The mark of three is kept, unless all of it goes into marks of two.
    have hslash : '\\' ∈ Text.replace ['_', '_', '_'] namespaceMark key :=
      Text.mem_replace_of_within (List.cons_ne_nil _ _) hthree (List.mem_singleton_self _)
    rcases Text.replace_eq_or (List.cons_ne_nil '_' ['_']) scopeMark
      (Text.replace ['_', '_', '_'] namespaceMark key) with hsame | hcolons
    · right
      unfold rewriteNamespace
      rwa [hsame]
    · exact .inl (hcolons ':' List.mem_cons_self)
  · left
    unfold rewriteNamespace
    rw [Text.replace_of_absent hthree]
    exact Text.mem_replace_of_within (List.cons_ne_nil _ _) h List.mem_cons_self

/-- What has no underscore in it stays. -/
theorem rewriteNamespace_word_append {word : List Char} (h : '_' ∉ word) (after : List Char) :
    rewriteNamespace (word ++ after) = word ++ rewriteNamespace after := by
  unfold rewriteNamespace
  rw [Text.replace_append_of_not_mem h, Text.replace_append_of_not_mem h]

/-- **A row of underscores is rewritten for itself.** -/
theorem rewriteNamespace_row_append {after : List Char} (h : '_' ∉ after.head?) (n : Nat) :
    rewriteNamespace (List.replicate n '_' ++ after) = rowMarks n ++ rewriteNamespace after := by
  have hthree := Text.replace_row h (k := 3) (by decide) namespaceMark n
  have hslashes : (List.replicate (n / 3) namespaceMark).flatten = List.replicate (n / 3) '\\' :=
    List.flatten_replicate_singleton
  have habsent : '_' ∉ List.replicate (n / 3) '\\' := fun hmem =>
    absurd (List.eq_of_mem_replicate hmem) (by decide)
  -- What is left of the row is a row again, and now twos of it are replaced.
  have hleft : '_' ∉ (Text.replace ['_', '_', '_'] namespaceMark after).head? := by
    rwa [Text.head?_replace h]
  have htwo := Text.replace_row hleft (k := 2) (by decide) scopeMark (n % 3)
  have hmarks : ∀ r < 3, (List.replicate (r / 2) scopeMark).flatten ++ List.replicate (r % 2) '_' =
      (match r with
        | 0 => []
        | 1 => ['_']
        | _ => [':', ':']) := by
    decide
  calc rewriteNamespace (List.replicate n '_' ++ after)
      = Text.replace ['_', '_'] scopeMark (List.replicate (n / 3) '\\' ++
          (List.replicate (n % 3) '_' ++
            Text.replace ['_', '_', '_'] namespaceMark after)) := by
        rw [← hslashes]
        exact congrArg (Text.replace ['_', '_'] scopeMark) hthree
    _ = List.replicate (n / 3) '\\' ++ Text.replace ['_', '_'] scopeMark
          (List.replicate (n % 3) '_' ++ Text.replace ['_', '_', '_'] namespaceMark after) :=
        Text.replace_append_of_not_mem habsent _ _
    _ = List.replicate (n / 3) '\\' ++ ((List.replicate (n % 3 / 2) scopeMark).flatten ++
          (List.replicate (n % 3 % 2) '_' ++ rewriteNamespace after)) :=
        congrArg (List.replicate (n / 3) '\\' ++ ·) htwo
    _ = rowMarks n ++ rewriteNamespace after := by
        rw [← List.append_assoc (List.flatten _), hmarks _ (Nat.mod_lt n (by decide)),
          ← List.append_assoc]
        rfl

/-- A key is rewritten row by row. -/
theorem rewriteNamespace_eq_flatMap (key : List Char) :
    rewriteNamespace key = (Text.rows key).flatMap rewrittenRow := by
  induction key using Text.rowInduction with
  | nil => rfl
  | row c n after hafter ih =>
    rw [Text.rows_row_append hafter, List.flatMap_cons]
    by_cases hc : c = '_'
    · subst hc
      rw [rewriteNamespace_row_append hafter, ih]
      simp [rewrittenRow, List.replicate_succ]
    · have habsent : '_' ∉ List.replicate (n + 1) c := fun hmem =>
        hc (List.eq_of_mem_replicate hmem).symm
      rw [rewriteNamespace_word_append habsent, ih]
      simp [rewrittenRow, List.replicate_succ, hc]

/-- **Underscores are rewritten row by row.** In a key each row of underscores, as long as it
    goes, is replaced by its marks, and no other character is changed. What comes out has no
    two underscores in a row, and rewriting it again changes nothing. -/
theorem rewriteNamespace_by_rows (key : List Char) :
    rewriteNamespace key = (Text.rows key).flatMap rewrittenRow ∧
      ¬ ['_', '_'] <:+: rewriteNamespace key ∧
      rewriteNamespace (rewriteNamespace key) = rewriteNamespace key := by
  have hapart : ['_', '_'].Disjoint scopeMark := by
    intro c hc
    simp only [List.mem_cons, List.not_mem_nil, or_false, or_self] at hc
    subst hc
    decide
  have hsingle : ¬ ['_', '_'] <:+: rewriteNamespace key :=
    Text.not_within_replace (by decide) (by decide) hapart _
  exact ⟨rewriteNamespace_eq_flatMap key, hsingle, rewriteNamespace_of_single hsingle⟩

example : rewriteNamespace "a___b__c_____d\\_".toList = "a\\b::c\\::d\\_".toList := by decide

end LayeredConfig
