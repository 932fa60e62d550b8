import LayeredConfig.Proofs.Tree
import Mathlib.Data.List.Induction
import Mathlib.Data.String.Basic

/-! # Entries in order

    Ordered entries are determined by what their keys read, and all operations keep the
    order. So two ways to build entries give the same entries as soon as every key reads
    the same.

    **Main results.** `Ordered.ext`; `Ordered.setAt`; `get?_ofList`: where several entries
    have a key, the last of them is read; `perm_ofList`: where none have the same key, all
    are kept.
-/

namespace LayeredConfig.Entries

variable {α : Type}

/-! ## Order -/

/-- Leaving entries out keeps the order. -/
theorem Ordered.filter {m : Entries α} (h : m.Ordered) (kind : String × α → Bool) :
    Entries.Ordered (List.filter kind m) := by
  unfold Ordered keys at h ⊢
  rw [List.pairwise_map] at h ⊢
  exact h.filter _

/-- **Ordered entries are the same** where every key reads the same. -/
theorem Ordered.ext {m n : Entries α} (hm : m.Ordered) (hn : n.Ordered)
    (h : ∀ key, m.get? key = n.get? key) : m = n := by
  induction m generalizing n with
  | nil =>
    cases n with
    | nil => rfl
    | cons entry rest =>
      have hkey := h entry.1
      rw [get?_nil, get?, if_pos rfl] at hkey
      cases hkey
  | cons entry rest ih =>
    obtain ⟨k, v⟩ := entry
    cases n with
    | nil =>
      have hkey := h k
      rw [get?_nil, get?, if_pos rfl] at hkey
      cases hkey
    | cons other more =>
      obtain ⟨l, w⟩ := other
      rw [ordered_cons_iff] at hm hn
      have hk := h k
      have hl := h l
      rw [get?, if_pos rfl] at hk
      rw [get?, get?, if_pos rfl] at hl
      -- A first key that the other entries do not begin with would be missing there.
      have hkl : k = l := by
        rcases lt_trichotomy k l with hlt | heq | hgt
        · have hmem : k ∈ Entries.keys ((l, w) :: more) := by
            rw [mem_keys_iff]
            unfold contains
            rw [← hk]
            rfl
          rcases List.mem_cons.mp hmem with heq | hmem
          · exact heq
          · exact absurd (hlt.trans (hn.1 k hmem)) (lt_irrefl k)
        · exact heq
        · rw [if_neg hgt.ne'] at hl
          have hmem : l ∈ Entries.keys rest := by
            rw [mem_keys_iff]
            unfold contains
            rw [hl]
            rfl
          exact absurd (hgt.trans (hm.1 l hmem)) (lt_irrefl l)
      subst hkl
      rw [get?, if_pos rfl] at hk
      obtain rfl := Option.some.inj hk
      congr 1
      apply ih hm.2 hn.2
      intro key
      by_cases hkey : k = key
      · subst hkey
        rw [get?_eq_none_iff.mpr fun hmem => lt_irrefl k (hm.1 k hmem),
          get?_eq_none_iff.mpr fun hmem => lt_irrefl k (hn.1 k hmem)]
      · have hother := h key
        rwa [get?, get?, if_neg hkey, if_neg hkey] at hother

/-- Writing at a path keeps the order of the outermost keys. -/
theorem Ordered.setAt {m : Entries Value} (h : m.Ordered) (p : List String) (v : Value) :
    (m.setAt p v).Ordered := by
  cases p with
  | nil => rwa [setAt_nil]
  | cons key rest =>
    by_cases hrest : rest = []
    · subst hrest
      rw [setAt_singleton]
      exact h.insert key v
    · rw [setAt_cons m key hrest]
      exact h.insert key _

/-! ## Maps of lists of entries -/

/-- **The last entry of a key is read.** -/
theorem get?_ofList (entries : List (String × α)) (key : String) :
    (ofList entries).get? key =
      ((entries.filter fun entry => entry.1 = key).getLast?).map (·.2) := by
  induction entries using List.reverseRecOn with
  | nil => rfl
  | append_singleton front entry ih =>
    unfold ofList at ih ⊢
    rw [List.foldl_append, List.foldl_cons, List.foldl_nil, get?_insert, List.filter_append]
    by_cases h : entry.1 = key
    · rw [if_pos h, List.filter_cons_of_pos (by simpa using h), List.filter_nil,
        List.getLast?_concat]
      rfl
    · rw [if_neg h, ih, List.filter_cons_of_neg (by simpa using h), List.filter_nil,
        List.append_nil]

/-- A value under a new key is one more entry. -/
theorem perm_insert {m : Entries α} {key : String} (h : m.get? key = none) (v : α) :
    (m.insert key v).Perm ((key, v) :: m) := by
  induction m with
  | nil => exact List.Perm.refl _
  | cons entry rest ih =>
    obtain ⟨k, w⟩ := entry
    unfold get? at h
    split at h
    · cases h
    · next hk =>
      rw [insert, if_neg hk]
      split
      · exact List.Perm.refl _
      · exact ((ih h).cons (k, w)).trans (List.Perm.swap (key, v) (k, w) rest)

/-- Entries with different keys are all kept. -/
theorem perm_ofList {entries : List (String × α)} (h : (entries.map (·.1)).Nodup) :
    (ofList entries).Perm entries := by
  induction entries using List.reverseRecOn with
  | nil => exact List.Perm.refl _
  | append_singleton front entry ih =>
    rw [List.map_append, List.nodup_append] at h
    obtain ⟨hfront, _, hnew⟩ := h
    have hnone : (ofList front).get? entry.1 = none := by
      rw [get?_eq_none_iff]
      intro hmem
      obtain ⟨other, hother, heq⟩ := List.mem_map.mp hmem
      have hkept : other.1 ∈ front.map (·.1) := List.mem_map_of_mem (mem_of_mem_ofList hother)
      exact hnew other.1 hkept entry.1 (by simp) heq
    have hlast : ofList (front ++ [entry]) = (ofList front).insert entry.1 entry.2 := by
      unfold ofList
      rw [List.foldl_append, List.foldl_cons, List.foldl_nil]
    rw [hlast]
    exact (perm_insert hnone entry.2).trans
      (((ih hfront).cons entry).trans (List.perm_append_singleton entry front).symm)

/-- Every key has an entry. -/
theorem exists_mem_ofList {entries : List (String × α)} {entry : String × α}
    (h : entry ∈ entries) : ∃ v, (entry.1, v) ∈ ofList entries := by
  have hfilter : entry ∈ entries.filter fun other => other.1 = entry.1 :=
    List.mem_filter.mpr ⟨h, by simp⟩
  obtain ⟨last, hlast⟩ := Option.ne_none_iff_exists'.mp fun hnone =>
    List.ne_nil_of_mem hfilter (List.getLast?_eq_none_iff.mp hnone)
  refine ⟨last.2, mem_of_get? ?_⟩
  rw [get?_ofList, hlast]
  rfl

/-- The entry with the greatest key is the last one. -/
theorem Ordered.getLast?_eq {m : Entries α} (h : m.Ordered) {entry : String × α}
    (hentry : entry ∈ m) (hgreatest : ∀ other ∈ m, other.1 ≤ entry.1) :
    m.getLast? = some entry := by
  induction m with
  | nil => exact nomatch hentry
  | cons first rest ih =>
    rw [ordered_cons_iff] at h
    obtain ⟨_, hrest⟩ := List.forall_mem_cons.mp hgreatest
    cases rest with
    | nil =>
      rw [List.mem_singleton] at hentry
      rw [hentry]
      rfl
    | cons next more =>
      rw [List.getLast?_cons_cons]
      rcases List.mem_cons.mp hentry with rfl | hmem
      · -- The next key is greater than the first.
        have hnext : entry.1 < next.1 := h.1 next.1 List.mem_cons_self
        exact absurd (hnext.trans_le (hrest next List.mem_cons_self)) (lt_irrefl _)
      · exact ih h.2 hmem hrest

/-- The last of some related items is related to all before it. -/
theorem eq_or_of_getLast? {β : Type} {related : β → β → Prop} {items : List β}
    (h : items.Pairwise related) {last : β} (hlast : items.getLast? = some last) {item : β}
    (hitem : item ∈ items) : item = last ∨ related item last := by
  obtain ⟨front, rfl⟩ := List.getLast?_eq_some_iff.mp hlast
  rcases List.mem_append.mp hitem with hfront | hend
  · exact .inr ((List.pairwise_append.mp h).2.2 item hfront last List.mem_cons_self)
  · exact .inl (List.mem_singleton.mp hend)

/-- The last entry has the greatest key. -/
theorem Ordered.le_of_getLast? {m : Entries α} (h : m.Ordered) {last : String × α}
    (hlast : m.getLast? = some last) {other : String × α} (hother : other ∈ m) :
    other.1 ≤ last.1 := by
  rcases eq_or_of_getLast? (List.pairwise_map.mp h) hlast hother with rfl | hlt
  · exact le_refl _
  · exact hlt.le

/-- An entry is read under its key. -/
theorem Ordered.get?_of_mem {m : Entries α} (h : m.Ordered) {entry : String × α}
    (hentry : entry ∈ m) : m.get? entry.1 = some entry.2 := by
  induction m with
  | nil => exact nomatch hentry
  | cons first rest ih =>
    rw [ordered_cons_iff] at h
    unfold get?
    rcases List.mem_cons.mp hentry with rfl | hmem
    · exact if_pos rfl
    · have hne : first.1 ≠ entry.1 := (h.1 entry.1 (List.mem_map_of_mem hmem)).ne
      rw [if_neg hne]
      exact ih h.2 hmem

/-- **What is kept under a key** is made of the last item that has the key. -/
theorem exists_last_of_mem_ofList {β : Type} {related : β → β → Prop} {items : List β}
    (hitems : items.Pairwise related) (entryOf : β → String × α) {entry : String × α}
    (h : entry ∈ ofList (items.map entryOf)) :
    ∃ item ∈ items, entryOf item = entry ∧
      ∀ other ∈ items, (entryOf other).1 = entry.1 → other = item ∨ related other item := by
  have hread := (ordered_ofList _).get?_of_mem h
  rw [get?_ofList, List.filter_map, List.getLast?_map] at hread
  obtain ⟨_, hlast, hvalue⟩ := Option.map_eq_some_iff.mp hread
  obtain ⟨item, hitem, rfl⟩ := Option.map_eq_some_iff.mp hlast
  obtain ⟨hmem, hkey⟩ := List.mem_filter.mp (List.mem_of_getLast? hitem)
  refine ⟨item, hmem, Prod.ext (of_decide_eq_true hkey) hvalue, fun other hother hsame => ?_⟩
  exact eq_or_of_getLast? (hitems.filter _) hitem
    (List.mem_filter.mpr ⟨hother, decide_eq_true hsame⟩)

/-- Ordered entries are what their own list makes. -/
theorem Ordered.ofList_eq {m : Entries α} (h : m.Ordered) : ofList m = m := by
  apply (ordered_ofList m).ext h
  intro key
  rw [get?_ofList]
  cases hread : m.get? key with
  | some v =>
    have hmem : (key, v) ∈ m.filter fun entry => entry.1 = key :=
      List.mem_filter.mpr ⟨mem_of_get? hread, by simp⟩
    rw [(h.filter _).getLast?_eq hmem]
    · rfl
    · intro other hother
      exact (of_decide_eq_true (List.mem_filter.mp hother).2).le
  | none =>
    have hempty : m.filter (fun entry => entry.1 = key) = [] := by
      rw [List.filter_eq_nil_iff]
      intro entry hentry hkey
      apply get?_eq_none_iff.mp hread
      rw [← of_decide_eq_true hkey]
      exact List.mem_map_of_mem hentry
    rw [hempty]
    rfl

end LayeredConfig.Entries
