import LayeredConfig.Proofs.Addressing
import LayeredConfig.Proofs.Leaves

/-! # The order of writes

    Writes at paths that part can be made in any order: where the paths share a beginning,
    both go into the same object, whichever of them makes it. A write beneath a path does not
    ask what was written there, as long as that has the members that were there before.

    Keys are related where their paths meet. So writes under keys that are not related can
    be made in any order, in stores of every kind, and neither is read under the other key.

    **Main results.** `Entries.setAt_comm`, `Entries.setAt_setAt_append`, `Store.set_comm`.
-/

namespace LayeredConfig

/-! ## Entries -/

namespace Entries

variable {α : Type}

/-- Of two values under one key the second is left. -/
theorem insert_insert_self (m : Entries α) (key : String) (v w : α) :
    (m.insert key v).insert key w = m.insert key w := by
  induction m with
  | nil => simp [insert]
  | cons entry rest ih =>
    obtain ⟨k, u⟩ := entry
    by_cases hk : k = key
    · simp [insert, hk]
    · by_cases hlt : key < k
      · simp [insert, hk, hlt]
      · simp [insert, hk, hlt, ih]

/-- A value with a smaller key can be put before or after another one. -/
theorem insert_comm_of_lt (m : Entries α) {key other : String} (h : key < other) (v w : α) :
    (m.insert key v).insert other w = (m.insert other w).insert key v := by
  have hne : key ≠ other := h.ne
  have hle : ¬ other < key := h.asymm
  induction m with
  | nil => simp [insert, hne, hne.symm, h, hle]
  | cons entry rest ih =>
    obtain ⟨k, u⟩ := entry
    -- The first key is one of the two, or it lies before, between or behind them.
    by_cases hk : k = key
    · subst hk
      simp [insert, hne, hle]
    · by_cases hother : k = other
      · subst hother
        simp [insert, hk, hne, h, hle]
      · by_cases hlt : key < k
        · by_cases hlt' : other < k
          · simp [insert, hk, hother, hlt, hlt', hne, hne.symm, h, hle]
          · simp [insert, hk, hother, hlt, hlt', hne, hle]
        · have hlt' : ¬ other < k := fun hbehind => hlt (h.trans hbehind)
          simp [insert, hk, hother, hlt, hlt', ih]

/-- Values under different keys can be put in any order. -/
theorem insert_comm (m : Entries α) {key other : String} (h : key ≠ other) (v w : α) :
    (m.insert key v).insert other w = (m.insert other w).insert key v := by
  rcases lt_or_gt_of_ne h with hlt | hgt
  · exact m.insert_comm_of_lt hlt v w
  · exact (m.insert_comm_of_lt hgt w v).symm

end Entries

/-! ## Paths -/

namespace Entries

/-- What a write at a path puts under the first key of the path. -/
def grown (m : Entries Value) (key : String) (rest : List String) (v : Value) : Value :=
  if rest = [] then v else .object ((m.below key).setAt rest v)

theorem setAt_eq_insert (m : Entries Value) (key : String) (rest : List String) (v : Value) :
    m.setAt (key :: rest) v = m.insert key (m.grown key rest v) := by
  unfold grown
  split
  · next hrest =>
    subst hrest
    rfl
  · next hrest => exact setAt_cons m key hrest v

/-- What is put under a key does not depend on what is under other keys. -/
theorem grown_insert_of_ne {key other : String} (h : other ≠ key) (m : Entries Value)
    (rest : List String) (v w : Value) : (m.insert other w).grown key rest v =
      m.grown key rest v := by
  unfold grown
  rw [below_insert, if_neg h]

/-- **Writes at paths that part can be made in any order.** -/
theorem setAt_comm {p q : List String} (h : ¬ Meets p q) (m : Entries Value) (v w : Value) :
    (m.setAt p v).setAt q w = (m.setAt q w).setAt p v := by
  induction p generalizing m q with
  | nil => exact absurd (.inl List.nil_prefix) h
  | cons key rest ih =>
    cases q with
    | nil => exact absurd (.inr List.nil_prefix) h
    | cons other after =>
      by_cases hkey : key = other
      · -- Both paths go on below the key, where they part.
        subst hkey
        rw [meets_cons] at h
        have hrest : rest ≠ [] := by
          rintro rfl
          exact h (.inl List.nil_prefix)
        have hafter : after ≠ [] := by
          rintro rfl
          exact h (.inr List.nil_prefix)
        rw [setAt_cons m key hrest, setAt_cons _ key hafter, setAt_cons m key hafter,
          setAt_cons _ key hrest, below_insert, below_insert, if_pos rfl, if_pos rfl,
          insert_insert_self, insert_insert_self]
        have hbelow := ih h (m.below key)
        exact congrArg (fun fields => m.insert key (.object fields)) hbelow
      · rw [setAt_eq_insert m key, setAt_eq_insert m other, setAt_eq_insert _ other,
          setAt_eq_insert _ key, grown_insert_of_ne hkey, grown_insert_of_ne (Ne.symm hkey),
          insert_comm m hkey]

/-- **A write beneath a path** replaces what was written at the path, if that has the
    members that were there before. -/
theorem setAt_setAt_append (m : Entries Value) {p : List String} (hp : p ≠ []) {r : List String}
    (hr : r ≠ []) {u : Value} (hu : u.fields = m.inside p) (v : Value) :
    (m.setAt p u).setAt (p ++ r) v = m.setAt (p ++ r) v := by
  induction p generalizing m with
  | nil => exact absurd rfl hp
  | cons key rest ih =>
    have hbeyond : rest ++ r ≠ [] := by simp [hr]
    rw [List.cons_append, setAt_cons m key hbeyond, setAt_cons _ key hbeyond]
    by_cases hrest : rest = []
    · subst hrest
      rw [setAt_singleton, below_insert, if_pos rfl, insert_insert_self, hu]
      rfl
    · rw [setAt_cons m key hrest, below_insert, if_pos rfl, insert_insert_self]
      have hinside : u.fields = (m.below key).inside rest := by
        rw [hu]
        unfold inside
        rw [at?_cons m key hrest]
      rw [show (Value.object ((m.below key).setAt rest u)).fields = (m.below key).setAt rest u
        from rfl, ih (m.below key) hrest hinside]

end Entries

/-! ## Keys of a store -/

/-- Two keys are related where the path of one goes on from that of the other, or is the
    same. -/
def Addressing.Related (a : Addressing) (key other : String) : Prop :=
  Meets (a.path key) (a.path other)

namespace Addressing

instance (a : Addressing) (key other : String) : Decidable (a.Related key other) :=
  inferInstanceAs (Decidable (Meets (a.path key) (a.path other)))

theorem related_refl (a : Addressing) (key : String) : a.Related key key :=
  .inl List.prefix_rfl

/-- Keys that are not related are different. -/
theorem ne_of_not_related {a : Addressing} {key other : String} (h : ¬ a.Related key other) :
    key ≠ other := by
  rintro rfl
  exact h (a.related_refl key)

end Addressing

namespace Store

/-- Stores are the same where their addressings and trees are. -/
theorem ext_root {s t : Store} (haddr : s.addressing = t.addressing) (hroot : s.root = t.root) :
    s = t := by
  cases s with
  | nested tree separator =>
    cases t with
    | nested tree' separator' =>
      obtain rfl := Addressing.paths.inj haddr
      obtain rfl : tree = tree' := hroot
      rfl
    | _ => exact nomatch haddr
  | flat entries =>
    cases t with
    | flat entries' =>
      obtain rfl : entries = entries' := hroot
      rfl
    | _ => exact nomatch haddr
  | caseless tree =>
    cases t with
    | caseless tree' =>
      obtain ⟨root, separator⟩ := tree
      obtain ⟨root', separator'⟩ := tree'
      obtain rfl : separator = separator' := Addressing.caselessPaths.inj haddr
      obtain rfl : root = root' := hroot
      rfl
    | _ => exact nomatch haddr

/-- **Writes under unrelated keys can be made in any order.** -/
theorem set_comm {s : Store} {key other : String} (h : ¬ s.addressing.Related key other)
    (v w : Value) : (s.set key v).set other w = (s.set other w).set key v := by
  apply ext_root
  · simp only [addressing_set]
  · simp only [root_set, path_set, addressing_set]
    exact Entries.setAt_comm h _ _ _

/-- A write is not read under an unrelated key. -/
theorem get?_set_of_not_related {s : Store} {key name : String}
    (h : ¬ s.addressing.Related key name) (v : Value) :
    (s.set key v).get? name = s.get? name := by
  rw [get?_set, get?_eq_at?]
  exact Entries.at?_setAt_of_not_meets h _ _

end Store

end LayeredConfig
