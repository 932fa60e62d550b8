import LayeredConfig.Value.Path

/-! # Laws of reading and writing at paths

    What a write at one path does to a read at another. Two paths lie in one of
    four ways to each other: they are the same, one goes beyond the other, or
    they part somewhere. Each way has its law:

    * the same path reads what was written;
    * a path beyond the written one is followed inside of what was written;
    * a path above the written one reads an object, changed only at the next step;
    * a path that parts from the written one reads what it read before.

    **Main results.** The four laws, and `at?_setAt_congr`: where two trees read the
    same at a path, they still do after the same write, wherever that is.
-/

namespace LayeredConfig

/-! ## How two paths lie -/

/-- How the path `q` lies to the path `p`. -/
inductive Lies : (p q : List String) → Prop where
  /-- They are the same path. -/
  | same (p : List String) : Lies p p
  /-- `q` goes on where `p` ends. -/
  | beyond (p r : List String) (hr : r ≠ []) : Lies p (p ++ r)
  /-- `q` ends where `p` goes on. -/
  | above (q r : List String) (hr : r ≠ []) : Lies (q ++ r) q
  /-- The paths part. -/
  | apart (p q : List String) (hpq : ¬ p <+: q) (hqp : ¬ q <+: p) : Lies p q

/-- Any two paths lie in one of the four ways. -/
theorem lies (p q : List String) : Lies p q := by
  by_cases hpq : p <+: q
  · obtain ⟨r, rfl⟩ := hpq
    by_cases hr : r = []
    · subst hr
      rw [List.append_nil]
      exact .same p
    · exact .beyond p r hr
  · by_cases hqp : q <+: p
    · obtain ⟨r, rfl⟩ := hqp
      have hr : r ≠ [] := by
        intro h
        exact hpq (by simp [h])
      exact .above q r hr
    · exact .apart p q hpq hqp

namespace Entries

/-! ## One step -/

/-- The members of what is under a key; anything but an object has none. -/
def below (m : Entries Value) (key : String) : Entries Value :=
  ((m.get? key).getD .null).fields

theorem below_of_get? {m : Entries Value} {key : String} {v : Value} (h : m.get? key = some v) :
    m.below key = v.fields := by
  unfold below
  rw [h]
  rfl

theorem below_of_get?_none {m : Entries Value} {key : String} (h : m.get? key = none) :
    m.below key = [] := by
  unfold below
  rw [h]
  rfl

theorem below_insert (m : Entries Value) (key other : String) (v : Value) :
    (m.insert key v).below other = if key = other then v.fields else m.below other := by
  unfold below
  rw [get?_insert]
  split <;> rfl

@[simp] theorem at?_nil (m : Entries Value) : m.at? [] = none := by
  cases m <;> rfl

@[simp] theorem at?_singleton (m : Entries Value) (key : String) : m.at? [key] = m.get? key := rfl

/-- There is nothing in the empty tree. -/
@[simp] theorem at?_empty (p : List String) : Entries.at? [] p = none := by
  match p with
  | [] => rfl
  | [_] => rfl
  | _ :: _ :: _ => rfl

/-- Reading goes below the first key of a path, unless the path ends there. -/
theorem at?_cons (m : Entries Value) (key : String) {rest : List String} (h : rest ≠ []) :
    m.at? (key :: rest) = (m.below key).at? rest := by
  obtain ⟨next, rest, rfl⟩ := List.exists_cons_of_ne_nil h
  unfold below
  rw [at?.eq_3 _ _ _ (by simp)]
  split
  · next inner hinner => rw [hinner]; rfl
  · next hnone =>
    cases hv : m.get? key with
    | none => simp [Value.fields]
    | some v =>
      cases v with
      | object inner => exact absurd hv (hnone inner)
      | _ => simp [Value.fields]

/-- What is read beyond a key is read in the members of what is under the key. -/
theorem exists_of_at?_cons {m : Entries Value} {key : String} {rest : List String}
    (hrest : rest ≠ []) {v : Value} (h : m.at? (key :: rest) = some v) :
    ∃ w, m.get? key = some w ∧ w.fields.at? rest = some v := by
  rw [at?_cons m key hrest] at h
  cases hread : m.get? key with
  | none =>
    rw [below_of_get?_none hread, at?_empty] at h
    exact nomatch h
  | some w =>
    rw [below_of_get? hread] at h
    exact ⟨w, rfl, h⟩

/-- Reading at a path depends only on what is read under its first key. -/
theorem at?_congr {m n : Entries Value} {key : String} (h : m.get? key = n.get? key)
    (rest : List String) : m.at? (key :: rest) = n.at? (key :: rest) := by
  by_cases hrest : rest = []
  · subst hrest
    exact h
  · rw [at?_cons m key hrest, at?_cons n key hrest]
    unfold below
    rw [h]

@[simp] theorem setAt_nil (m : Entries Value) (v : Value) : m.setAt [] v = m := by
  cases m <;> rfl

@[simp] theorem setAt_singleton (m : Entries Value) (key : String) (v : Value) :
    m.setAt [key] v = m.insert key v := rfl

/-- Writing goes below the first key of a path, unless the path ends there. -/
theorem setAt_cons (m : Entries Value) (key : String) {rest : List String} (h : rest ≠ [])
    (v : Value) :
    m.setAt (key :: rest) v = m.insert key (.object ((m.below key).setAt rest v)) := by
  obtain ⟨next, rest, rfl⟩ := List.exists_cons_of_ne_nil h
  rfl

/-! ## Reading along a path in two parts -/

/-- The members of what is at a path; anything but an object has none. -/
def inside (m : Entries Value) (p : List String) : Entries Value :=
  ((m.at? p).getD .null).fields

/-- A path in two parts is followed one part after the other. -/
theorem at?_append (m : Entries Value) {p q : List String} (hp : p ≠ []) (hq : q ≠ []) :
    m.at? (p ++ q) = (m.inside p).at? q := by
  induction p generalizing m with
  | nil => exact absurd rfl hp
  | cons key rest ih =>
    rw [List.cons_append, at?_cons m key (by simp [hq])]
    by_cases hrest : rest = []
    · subst hrest
      rfl
    · rw [ih (m.below key) hrest]
      unfold inside
      rw [at?_cons m key hrest]

/-- What is beyond a path is reached only through an object at the path. -/
theorem at?_isSome_of_append {m : Entries Value} {p q : List String} (hp : p ≠ [])
    (h : (m.at? (p ++ q)).isSome = true) : (m.at? p).isSome = true := by
  by_cases hq : q = []
  · simpa [hq] using h
  · rw [at?_append m hp hq] at h
    unfold inside at h
    cases hv : m.at? p with
    | none => simp [hv, Value.fields] at h
    | some v => rfl

/-! ## Writing and reading -/

/-- The written path reads what was written. -/
theorem at?_setAt_self (m : Entries Value) {p : List String} (hp : p ≠ []) (v : Value) :
    (m.setAt p v).at? p = some v := by
  induction p generalizing m with
  | nil => exact absurd rfl hp
  | cons key rest ih =>
    by_cases hrest : rest = []
    · subst hrest
      rw [setAt_singleton, at?_singleton, get?_insert_self]
    · rw [setAt_cons m key hrest, at?_cons _ key hrest, below_insert, if_pos rfl]
      exact ih (m.below key) hrest

/-- A path beyond the written one is followed inside of what was written. -/
theorem at?_setAt_beyond (m : Entries Value) {p q : List String} (hp : p ≠ []) (hq : q ≠ [])
    (v : Value) : (m.setAt p v).at? (p ++ q) = v.fields.at? q := by
  rw [at?_append _ hp hq]
  unfold inside
  rw [at?_setAt_self m hp]
  rfl

/-- A path above the written one reads an object: the one that was there, or a new
    one, written to along the rest of the path. -/
theorem at?_setAt_above (m : Entries Value) {p q : List String} (hp : p ≠ []) (hq : q ≠ [])
    (v : Value) : (m.setAt (p ++ q) v).at? p = some (.object ((m.inside p).setAt q v)) := by
  induction p generalizing m with
  | nil => exact absurd rfl hp
  | cons key rest ih =>
    rw [List.cons_append, setAt_cons m key (by simp [hq])]
    by_cases hrest : rest = []
    · subst hrest
      rw [at?_singleton, get?_insert_self]
      rfl
    · rw [at?_cons _ key hrest, below_insert, if_pos rfl]
      have h := ih (m.below key) hrest
      unfold inside at h ⊢
      rw [at?_cons m key hrest]
      exact h

/-- A path that parts from the written one reads what it read before. -/
theorem at?_setAt_apart (m : Entries Value) {p q : List String} (hpq : ¬ p <+: q)
    (hqp : ¬ q <+: p) (v : Value) : (m.setAt p v).at? q = m.at? q := by
  induction p generalizing m q with
  | nil => exact absurd (List.nil_prefix) hpq
  | cons key rest ih =>
    cases q with
    | nil => exact absurd (List.nil_prefix) hqp
    | cons other after =>
      by_cases hkey : key = other
      · -- The paths share their first key, so both go on and part further down.
        subst hkey
        have hrest : rest ≠ [] := by
          intro h
          exact hpq (by simp [h])
        have hafter : after ≠ [] := by
          intro h
          exact hqp (by simp [h])
        rw [setAt_cons m key hrest, at?_cons _ key hafter, below_insert, if_pos rfl,
          at?_cons m key hafter]
        apply ih (m.below key)
        · intro h
          exact hpq ((List.prefix_cons_inj key).mpr h)
        · intro h
          exact hqp ((List.prefix_cons_inj key).mpr h)
      · have hinsert : ∀ w, (m.insert key w).at? (other :: after) = m.at? (other :: after) := by
          intro w
          by_cases hafter : after = []
          · subst hafter
            rw [at?_singleton, at?_singleton, get?_insert_of_ne hkey]
          · rw [at?_cons _ other hafter, below_insert, if_neg hkey, at?_cons m other hafter]
        by_cases hrest : rest = []
        · subst hrest
          exact hinsert v
        · rw [setAt_cons m key hrest]
          exact hinsert _

/-- **Agreement is stable.** Two trees that read the same at a path read the same at it
    after the same write, at whatever path that is. -/
theorem at?_setAt_congr {m n : Entries Value} {q : List String} (h : m.at? q = n.at? q)
    (p : List String) (v : Value) : (m.setAt p v).at? q = (n.setAt p v).at? q := by
  by_cases hp : p = []
  · simpa [hp] using h
  by_cases hq : q = []
  · simp [hq]
  cases lies p q with
  | same => rw [at?_setAt_self m hp, at?_setAt_self n hp]
  | beyond _ r hr => rw [at?_setAt_beyond m hp hr, at?_setAt_beyond n hp hr]
  | above _ r hr =>
    rw [at?_setAt_above m hq hr, at?_setAt_above n hq hr]
    unfold inside
    rw [h]
  | apart _ _ hpq hqp =>
    rw [at?_setAt_apart m hpq hqp, at?_setAt_apart n hpq hqp]
    exact h

end Entries

end LayeredConfig
