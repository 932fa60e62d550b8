/-! # Entries in key order

    A map from text keys is the list of its entries in increasing order of their
    keys, without two entries of one key. Keys are compared character by
    character, which for code points is also the order of their UTF-8 bytes.

    The view of a map is `get?`. Each operation is characterised by what it does
    to that view, and the lemmas need no assumption on the order of the list:
    `insert` replaces the first entry of its key or adds one, so what it adds is
    found before anything else. That the order is kept is shown behind them.
-/

namespace LayeredConfig

/-- Entries by key, in increasing order of the keys. -/
abbrev Entries (α : Type) := List (String × α)

namespace Entries

variable {α : Type}

/-! ## Operations -/

/-- The value under a key. -/
def get? : Entries α → String → Option α
  | [], _ => none
  | (k, v) :: rest, key => if k = key then some v else get? rest key

/-- Whether a key has an entry. -/
def contains (m : Entries α) (key : String) : Bool :=
  (m.get? key).isSome

/-- Puts a value under a key, in place of the value that was there. -/
def insert : Entries α → String → α → Entries α
  | [], key, value => [(key, value)]
  | (k, v) :: rest, key, value =>
    if k = key then (key, value) :: rest
    else if key < k then (key, value) :: (k, v) :: rest
    else (k, v) :: insert rest key value

/-- Removes the entries of a key. -/
def erase (m : Entries α) (key : String) : Entries α :=
  m.filter fun entry => entry.1 ≠ key

/-- The map of a list of entries, where a later entry of a key wins. -/
def ofList (entries : List (String × α)) : Entries α :=
  entries.foldl (fun m (key, value) => m.insert key value) []

/-- The keys, in increasing order. -/
def keys (m : Entries α) : List String :=
  m.map (·.1)

/-- Whether the keys increase from entry to entry. -/
def Ordered (m : Entries α) : Prop :=
  m.keys.Pairwise (· < ·)

/-! ## The view of each operation -/

/-- The keys are the texts with an entry. -/
theorem mem_keys_iff (m : Entries α) (key : String) : key ∈ m.keys ↔ m.contains key = true := by
  induction m with
  | nil => simp [keys, contains, get?]
  | cons entry rest ih =>
    obtain ⟨k, v⟩ := entry
    unfold keys contains at *
    by_cases h : k = key
    · simp [get?, h]
    · simp [get?, h, Ne.symm h, ← ih]

theorem get?_eq_none_iff {m : Entries α} {key : String} : m.get? key = none ↔ key ∉ m.keys := by
  rw [mem_keys_iff]
  unfold contains
  cases m.get? key <;> simp

@[simp] theorem get?_nil (key : String) : get? ([] : Entries α) key = none := rfl

@[simp] theorem get?_insert_self (m : Entries α) (key : String) (value : α) :
    (m.insert key value).get? key = some value := by
  induction m with
  | nil => simp [insert, get?]
  | cons entry rest ih =>
    obtain ⟨k, v⟩ := entry
    by_cases h : k = key
    · simp [insert, get?, h]
    · by_cases hlt : key < k
      · simp [insert, get?, h, hlt]
      · simp [insert, get?, h, hlt, ih]

theorem get?_insert_of_ne {m : Entries α} {key other : String} (h : key ≠ other) (value : α) :
    (m.insert key value).get? other = m.get? other := by
  induction m with
  | nil => simp [insert, get?, h]
  | cons entry rest ih =>
    obtain ⟨k, v⟩ := entry
    by_cases hk : k = key
    · have : k ≠ other := hk ▸ h
      simp [insert, get?, hk, h]
    · by_cases hlt : key < k
      · simp [insert, get?, hk, hlt, h]
      · simp [insert, get?, hk, hlt, ih]

theorem get?_insert (m : Entries α) (key other : String) (value : α) :
    (m.insert key value).get? other = if key = other then some value else m.get? other := by
  by_cases h : key = other
  · subst h; simp
  · simp [h, get?_insert_of_ne h]

@[simp] theorem get?_erase_self (m : Entries α) (key : String) : (m.erase key).get? key = none := by
  induction m with
  | nil => rfl
  | cons entry rest ih =>
    obtain ⟨k, v⟩ := entry
    by_cases h : k = key
    · simpa [erase, h] using ih
    · simpa [erase, h, get?] using ih

theorem get?_erase_of_ne {m : Entries α} {key other : String} (h : key ≠ other) :
    (m.erase key).get? other = m.get? other := by
  induction m with
  | nil => rfl
  | cons entry rest ih =>
    obtain ⟨k, v⟩ := entry
    by_cases hk : k = key
    · have hne : k ≠ other := hk ▸ h
      simpa [erase, hk, get?, h] using ih
    · by_cases ho : k = other
      · simp [erase, get?, ho, Ne.symm h]
      · simpa [erase, hk, get?, ho] using ih

/-! ## The entries after an operation -/

/-- The keys after a value has been put under one of them. -/
theorem mem_keys_insert {m : Entries α} {key other : String} {v : α} :
    other ∈ (m.insert key v).keys ↔ other = key ∨ other ∈ m.keys := by
  rw [mem_keys_iff, mem_keys_iff]
  unfold contains
  rw [get?_insert]
  by_cases h : key = other
  · simp [h]
  · simp [h, Ne.symm h]

theorem mem_of_get? {m : Entries α} {key : String} {v : α} (h : m.get? key = some v) :
    (key, v) ∈ m := by
  induction m with
  | nil => exact nomatch h
  | cons entry rest ih =>
    obtain ⟨k, w⟩ := entry
    unfold get? at h
    split at h
    · next hk =>
      subst hk
      exact Option.some.inj h ▸ List.mem_cons_self
    · exact List.mem_cons_of_mem _ (ih h)

/-- The entries after a value has been put under a key are this one and older ones. -/
theorem mem_insert {m : Entries α} {key : String} {v : α} {entry : String × α}
    (h : entry ∈ m.insert key v) : entry = (key, v) ∨ entry ∈ m := by
  induction m with
  | nil => exact .inl (List.mem_singleton.mp h)
  | cons first rest ih =>
    obtain ⟨k, w⟩ := first
    unfold insert at h
    split at h
    · rcases List.mem_cons.mp h with heq | hmem
      · exact .inl heq
      · exact .inr (List.mem_cons_of_mem _ hmem)
    · split at h
      · exact List.mem_cons.mp h
      · rcases List.mem_cons.mp h with rfl | hmem
        · exact .inr List.mem_cons_self
        · rcases ih hmem with heq | hmem
          · exact .inl heq
          · exact .inr (List.mem_cons_of_mem _ hmem)

/-- The entries after values have been put one after the other are these and older ones. -/
theorem mem_foldl_insert {m : Entries α} {entries : List (String × α)} {entry : String × α}
    (h : entry ∈ entries.foldl (fun m (key, value) => m.insert key value) m) :
    entry ∈ entries ∨ entry ∈ m := by
  induction entries generalizing m with
  | nil => exact .inr h
  | cons first rest ih =>
    rcases ih h with hrest | hmem
    · exact .inl (List.mem_cons_of_mem _ hrest)
    · rcases mem_insert hmem with rfl | hold
      · exact .inl List.mem_cons_self
      · exact .inr hold

theorem mem_of_mem_ofList {entries : List (String × α)} {entry : String × α}
    (h : entry ∈ ofList entries) : entry ∈ entries :=
  (mem_foldl_insert h).resolve_right List.not_mem_nil

/-! ## Order

    All operations keep the order: a value is put in front of the first larger key. -/

theorem ordered_nil : Ordered ([] : Entries α) := List.Pairwise.nil

theorem ordered_cons_iff {k : String} {v : α} {rest : Entries α} :
    Ordered ((k, v) :: rest) ↔ (∀ key ∈ rest.keys, k < key) ∧ Ordered rest := by
  unfold Ordered keys
  rw [List.map_cons, List.pairwise_cons]

/-- Putting a value keeps the order. -/
theorem Ordered.insert {m : Entries α} (h : m.Ordered) (key : String) (v : α) :
    (m.insert key v).Ordered := by
  induction m with
  | nil => simp [Entries.insert, Ordered, keys]
  | cons entry rest ih =>
    obtain ⟨k, w⟩ := entry
    rw [ordered_cons_iff] at h
    obtain ⟨hfirst, hrest⟩ := h
    unfold Entries.insert
    split
    · next hk =>
      rw [ordered_cons_iff]
      exact ⟨hk ▸ hfirst, hrest⟩
    · next hk =>
      split
      · next hlt =>
        rw [ordered_cons_iff, ordered_cons_iff]
        refine ⟨?_, hfirst, hrest⟩
        intro other hother
        rcases List.mem_cons.mp hother with rfl | hother
        · exact hlt
        · exact String.lt_trans hlt (hfirst other hother)
      · next hlt =>
        have hkey : k < key := Std.lt_of_le_of_ne (String.not_lt.mp hlt) hk
        rw [ordered_cons_iff]
        refine ⟨?_, ih hrest⟩
        intro other hother
        rcases mem_keys_insert.mp hother with rfl | hother
        · exact hkey
        · exact hfirst other hother

/-- Putting values one after the other keeps the order. -/
theorem Ordered.foldl_insert {β : Type} {m : Entries α} (h : m.Ordered) (keyOf : β → String)
    (valueOf : β → α) (entries : List β) :
    (entries.foldl (fun m entry => m.insert (keyOf entry) (valueOf entry)) m).Ordered := by
  induction entries generalizing m with
  | nil => exact h
  | cons entry rest ih => exact ih (h.insert (keyOf entry) (valueOf entry))

theorem ordered_ofList (entries : List (String × α)) : (ofList entries).Ordered :=
  ordered_nil.foldl_insert Prod.fst Prod.snd entries

end Entries

end LayeredConfig
