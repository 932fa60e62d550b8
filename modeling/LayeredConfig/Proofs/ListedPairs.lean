import LayeredConfig.Proofs.CaselessSeparators
import LayeredConfig.Proofs.DocumentTree
import LayeredConfig.Proofs.FlattenedTrees

/-! # Listed pairs

    A store lists what it holds as pairs of a key and a value: the outermost entries of its
    tree or, if it is a caseless one, the leaves. A pair is read if its key is taken for the
    place where the value is.

    A nested or a flat store puts every write under a key that is taken for itself: the first
    step of a path, or a name in lower case. So the pairs that are not read are among those
    that the store began with, where no key is looked at. They can never be written to and
    stay listed for good.

    In a caseless store the key of a leaf is taken for its path or for another one, which comes
    earlier. A write that puts no members in adds a leaf that is found, so again it is the tree
    at the beginning that matters. If it has a leaf that is not found, then a value written
    under its key is put somewhere else, and what is listed under the key is still a leaf of
    before.

    **Main results.** `forall_readsListed_iff` for nested and flat stores,
    `CaselessTree.forall_readsListed_iff` for caseless ones.
-/

namespace LayeredConfig

namespace Store

/-! ## What is listed -/

/-- Writes settings, one after the other. -/
def setAll (s : Store) (writes : List (String × Value)) : Store :=
  writes.foldl (fun s write => s.set write.1 write.2) s

/-- Whether each pair that a store lists is read. -/
def ReadsListed (s : Store) : Prop := ∀ entry ∈ s.entries, s.get? entry.1 = some entry.2

instance (s : Store) : Decidable s.ReadsListed :=
  inferInstanceAs (Decidable (∀ entry ∈ s.entries, s.get? entry.1 = some entry.2))

@[simp] theorem addressing_setAll (s : Store) (writes : List (String × Value)) :
    (s.setAll writes).addressing = s.addressing := by
  induction writes generalizing s with
  | nil => rfl
  | cons write rest ih => exact (ih (s.set write.1 write.2)).trans (s.addressing_set _ _)

end Store

/-! ## The outermost entries -/

namespace Addressing

/-- Whether stores list the outermost entries of their trees. Others list the leaves. -/
def ListsOutermost : Addressing → Prop
  | .caselessPaths _ => False
  | _ => True

/-- Whether a key is taken for itself, as a single step. -/
def Keeps (a : Addressing) (key : String) : Prop := a.path key = [key]

theorem stored_eq {a : Addressing} (h : a.ListsOutermost) (v : Value) : a.stored v = v := by
  cases a with
  | caselessPaths separator => exact h.elim
  | _ => rfl

/-- The first step that a key is taken for is taken for itself. -/
theorem keeps_first {a : Addressing} (h : a.ListsOutermost) {key first : String}
    {rest : List String} (hpath : a.path key = first :: rest) : a.Keeps first := by
  cases a with
  | caselessPaths separator => exact h.elim
  | names =>
    obtain ⟨rfl, _⟩ := List.cons.inj hpath
    exact congrArg ([·]) (Text.lower_lower key)
  | paths separator => exact Separator.split_first hpath

end Addressing

namespace Store

/-- Writes keep the order of the outermost entries. -/
theorem ordered_setAll {s : Store} (hordered : s.root.Ordered) (writes : List (String × Value)) :
    (s.setAll writes).root.Ordered := by
  induction writes generalizing s with
  | nil => exact hordered
  | cons write rest ih =>
    apply ih (s := s.set write.1 write.2)
    rw [root_set]
    exact hordered.setAt _ _

section outermost

variable {s : Store} (h : s.addressing.ListsOutermost)

include h

theorem entries_eq_root : s.entries = s.root := by
  cases s with
  | caseless tree => exact h.elim
  | _ => rfl

/-- **Step.** A write puts an entry under a key that is taken for itself. -/
theorem exists_root_set (key : String) (v : Value) :
    ∃ first w, s.addressing.Keeps first ∧ (s.set key v).root = s.root.insert first w := by
  obtain ⟨first, rest, hpath⟩ := List.exists_cons_of_ne_nil (s.path_ne_nil key)
  refine ⟨first, s.root.grown first rest (s.addressing.stored v), ?_, ?_⟩
  · exact Addressing.keeps_first h hpath
  · rw [root_set, hpath, Entries.setAt_eq_insert]

/-- **Run.** An entry under a key that is not taken for itself is left as it is. -/
theorem get?_root_setAll {key : String} (hkey : ¬ s.addressing.Keeps key)
    (writes : List (String × Value)) : (s.setAll writes).root.get? key = s.root.get? key := by
  induction writes generalizing s with
  | nil => rfl
  | cons write rest ih =>
    obtain ⟨first, w, hkeeps, hroot⟩ := exists_root_set h write.1 write.2
    have hne : first ≠ key := by
      rintro rfl
      exact hkey hkeeps
    have hafter := ih (s := s.set write.1 write.2) (by rwa [addressing_set])
      (by rwa [addressing_set])
    exact hafter.trans (by rw [hroot, Entries.get?_insert_of_ne hne])

/-- **A pair that is not read** has been there from the beginning, under a key that is not
    taken for itself. -/
theorem read_or_stranded (hordered : s.root.Ordered) (writes : List (String × Value))
    {entry : String × Value} (hentry : entry ∈ (s.setAll writes).entries) :
    (s.setAll writes).get? entry.1 = some entry.2 ∨
      (entry ∈ s.entries ∧ ¬ s.addressing.Keeps entry.1) := by
  have hafter : (s.setAll writes).addressing.ListsOutermost := by rwa [addressing_setAll]
  rw [entries_eq_root hafter] at hentry
  have hread := (ordered_setAll hordered writes).get?_of_mem hentry
  by_cases hkeeps : s.addressing.Keeps entry.1
  · left
    rw [get?_eq_at?, path, addressing_setAll, show s.addressing.path entry.1 = [entry.1]
      from hkeeps]
    exact hread
  · right
    rw [get?_root_setAll h hkeeps] at hread
    rw [entries_eq_root h]
    exact ⟨Entries.mem_of_get? hread, hkeeps⟩

/-- Such a pair stays listed for good. -/
theorem stays_listed (hordered : s.root.Ordered) {entry : String × Value}
    (hentry : entry ∈ s.entries) (hkey : ¬ s.addressing.Keeps entry.1)
    (writes : List (String × Value)) : entry ∈ (s.setAll writes).entries := by
  have hafter : (s.setAll writes).addressing.ListsOutermost := by rwa [addressing_setAll]
  rw [entries_eq_root h] at hentry
  rw [entries_eq_root hafter]
  apply Entries.mem_of_get?
  rw [get?_root_setAll h hkey]
  exact hordered.get?_of_mem hentry

/-- **All pairs are read after any writes** exactly if all keys at the beginning are taken for
    themselves. -/
theorem forall_readsListed_iff (hordered : s.root.Ordered) :
    (∀ writes, (s.setAll writes).ReadsListed) ↔ ∀ key ∈ s.root.keys, s.addressing.Keeps key := by
  constructor
  · intro hall key hkey
    by_contra hnot
    obtain ⟨entry, hentry, rfl⟩ := List.mem_map.mp hkey
    obtain ⟨key, v⟩ := entry
    -- Another value is read under the key as soon as it is written.
    obtain ⟨w, hw⟩ : ∃ w : Value, w ≠ v := by
      by_cases hnull : v = .null
      · exact ⟨.bool true, by simp [hnull]⟩
      · exact ⟨.null, Ne.symm hnull⟩
    rw [← entries_eq_root h] at hentry
    have hlisted := hall [(key, w)] _ (stays_listed h hordered hentry hnot [(key, w)])
    have hread : (s.set key w).get? key = some w := by
      rw [get?_set, Entries.at?_setAt_self _ (s.path_ne_nil key), Addressing.stored_eq h]
    exact hw (Option.some.inj (hread.symm.trans hlisted))
  · intro hkeeps writes entry hentry
    rcases read_or_stranded h hordered writes hentry with hread | ⟨hold, hnot⟩
    · exact hread
    · rw [entries_eq_root h] at hold
      exact absurd (hkeeps entry.1 (List.mem_map_of_mem hold)) hnot

end outermost

end Store

/-! ## The leaves of a caseless tree -/

namespace CaselessTree

theorem fields_lowerKeys {v : Value} (h : v.fields = []) : v.lowerKeys.fields = [] := by
  cases v with
  | object fields =>
    obtain rfl : fields = [] := h
    rfl
  | _ => rfl

/-- A key in lower case has the path that it is made from. -/
theorem path_join_path {t : CaselessTree}
    (hcaseless : ∀ d ∈ t.separator.text.toList, Text.IsCaseless d) (key : String) :
    t.path (t.separator.join (t.path key)) = t.path key := by
  have hsplit := Separator.split_join_map_lower hcaseless key
  show (t.separator.split (t.separator.join (t.path key))).map Text.lower = t.path key
  rw [show t.separator.split (t.separator.join (t.path key)) = t.path key from hsplit,
    List.map_congr_left (t.lower_of_mem_path key), List.map_id']

/-- Of the paths that end after a write, one is written, if that puts no members in, and the
    others part from it and ended where they do before. -/
theorem endsAt_set {t : CaselessTree} {key : String} {v : Value} (hv : v.fields = [])
    {q : List String} {u : Value} (h : (t.set key v).root.EndsAt q u) :
    q = t.path key ∨ t.root.EndsAt q u := by
  have hpath : t.path key ≠ [] := Store.path_ne_nil (.caseless t) key
  obtain ⟨hread, hempty⟩ := h
  have hset : (t.root.setAt (t.path key) v.lowerKeys).at? q = some u := hread
  generalize t.path key = p at *
  cases lies p q with
  | same => exact .inl rfl
  | beyond _ r hr =>
    rw [Entries.at?_setAt_beyond t.root hpath hr, fields_lowerKeys hv, Entries.at?_empty] at hset
    exact nomatch hset
  | above _ r hr =>
    have hq : q ≠ [] := by
      rintro rfl
      exact nomatch (Entries.at?_nil _).symm.trans hset
    rw [Entries.at?_setAt_above t.root hq hr] at hset
    obtain rfl := Option.some.inj hset
    -- An object that is written into is not empty.
    have hinside := Entries.at?_setAt_self (t.root.inside q) hr v.lowerKeys
    rw [show (t.root.inside q).setAt r v.lowerKeys = [] from hempty, Entries.at?_empty] at hinside
    exact nomatch hinside
  | apart _ _ hpq hqp =>
    rw [Entries.at?_setAt_apart t.root hpq hqp] at hset
    exact .inr ⟨hset, hempty⟩

/-- **Step.** A write that puts no members in adds a leaf that is found. -/
theorem FindsLeaves.set {t : CaselessTree} (h : t.FindsLeaves)
    (hcaseless : ∀ d ∈ t.separator.text.toList, Text.IsCaseless d) (key : String) {v : Value}
    (hv : v.fields = []) : (t.set key v).FindsLeaves := by
  intro q u hends
  show t.path (t.separator.join q) = q
  rcases endsAt_set hv hends with rfl | hbefore
  · exact path_join_path hcaseless key
  · exact h q u hbefore

/-- **Run.** Leaves are found after any writes that put no members in. -/
theorem FindsLeaves.setAll {t : CaselessTree} (h : t.FindsLeaves)
    (hcaseless : ∀ d ∈ t.separator.text.toList, Text.IsCaseless d)
    {writes : List (String × Value)} (hwrites : ∀ write ∈ writes, write.2.fields = []) :
    (t.setAll writes).FindsLeaves := by
  induction writes generalizing t with
  | nil => exact h
  | cons write rest ih =>
    obtain ⟨hwrite, hrest⟩ := List.forall_mem_cons.mp hwrites
    exact ih (h.set hcaseless write.1 hwrite) hcaseless hrest

theorem setAll_eq (t : CaselessTree) (writes : List (String × Value)) :
    (Store.caseless t).setAll writes = .caseless (t.setAll writes) := by
  induction writes generalizing t with
  | nil => rfl
  | cons write rest ih => exact ih (t.set write.1 write.2)

section notFound

variable {t : CaselessTree}
  (hcaseless : ∀ d ∈ t.separator.text.toList, Text.IsCaseless d)
  {p : List String} {v : Value} (hends : t.root.EndsAt p v)

include hcaseless hends

/-- The key of a leaf is in lower case before it is split. -/
theorem path_join_eq_split :
    t.path (t.separator.join p) = t.separator.split (t.separator.join p) := by
  have hfinal : ∀ c ∈ (t.separator.join p).toList, Text.IsFinal c := by
    unfold Separator.join
    rw [String.toList_ofList]
    intro c hc
    rcases Text.mem_of_mem_join hc with hseparator | ⟨_, htext, hmem⟩
    · exact Text.isFinal_of_isCaseless (hcaseless c hseparator)
    · obtain ⟨step, hstep, rfl⟩ := List.mem_map.mp htext
      have hopen := Value.mem_openFieldKeys_of_at? hends.1 hstep
      exact Text.lower_eq_iff_isFinal.mp (t.lowered.lower_of_mem_openKeys hopen) c hmem
  have hlower : ∀ step ∈ t.separator.split (t.separator.join p), Text.lower step = step := by
    intro step hstep
    rw [Text.lower_eq_iff_isFinal]
    intro c hc
    exact hfinal c (Separator.mem_of_mem_split hstep hc)
  unfold path
  rw [List.map_congr_left hlower, List.map_id']

/-- A leaf that is not found is behind the place that its key is taken for. -/
theorem before_of_not_found (htext : t.separator.text ≠ "")
    (hnot : t.path (t.separator.join p) ≠ p) : Before (t.path (t.separator.join p)) p := by
  have hp : p ≠ [] := by
    rintro rfl
    exact nomatch (Entries.at?_nil t.root).symm.trans hends.1
  rw [path_join_eq_split hcaseless hends] at hnot ⊢
  exact (Separator.split_join_eq_or_before htext hp).resolve_left hnot

/-- **What is not found is not reached.** Under the key of a leaf that is not found a write
    of another value than the leaves have is not listed, though it is read. -/
theorem not_readsListed_of_not_found (htext : t.separator.text ≠ "")
    (hnot : t.path (t.separator.join p) ≠ p) {w : Value} (hw : w.fields = [])
    (hnew : ∀ q, ¬ t.root.EndsAt q w.lowerKeys) :
    ¬ (Store.caseless (t.set (t.separator.join p) w)).ReadsListed := by
  intro hreads
  have hbefore := before_of_not_found hcaseless hends htext hnot
  -- The leaf is still there, so something is listed under its key, and it is what is read.
  have hstill : (t.set (t.separator.join p) w).root.EndsAt p v :=
    ⟨(Entries.at?_setAt_of_not_meets hbefore.not_meets t.root _).trans hends.1, hends.2⟩
  obtain ⟨u, hlisted⟩ := exists_mem_flatten hstill
  have hu : some u = some w.lowerKeys := (hreads _ hlisted).symm.trans (get?_set_self t _ w)
  obtain rfl := Option.some.inj hu
  -- But it is listed for the last leaf with the key, and that is a leaf of before.
  obtain ⟨r, hlast, _, hbehind⟩ := exists_last_of_mem_flatten hlisted
  rcases endsAt_set hw hlast with rfl | hold
  · rcases hbehind p v hstill rfl with heq | hafter
    · exact hnot heq.symm
    · exact hbefore.asymm hafter
  · exact hnew r hold

end notFound

/-- There are always values that are not in a tree yet. -/
theorem exists_new (t : CaselessTree) :
    ∃ w : Value, w.fields = [] ∧ ∀ q, ¬ t.root.EndsAt q w.lowerKeys := by
  -- A list of all values that paths end at is larger than each of them.
  obtain ⟨items, hitems⟩ : ∃ items, items = (Value.fieldLeaves true t.root).map (·.2) := ⟨_, rfl⟩
  have hlisted : ∀ {q u}, t.root.EndsAt q u → u ∈ items := by
    intro q u hends
    rw [hitems]
    exact List.mem_map.mpr ⟨(q, u), t.tidy.mem_fieldLeaves_iff.mpr hends, rfl⟩
  have hself : (Value.array items).Lowered := by
    refine .array fun item hitem => ?_
    rw [hitems] at hitem
    obtain ⟨leaf, hleaf, rfl⟩ := List.mem_map.mp hitem
    exact t.lowered.at? (t.tidy.mem_fieldLeaves_iff.mp hleaf).1
  refine ⟨.array items, rfl, fun q hends => ?_⟩
  rw [hself.lowerKeys_eq] at hends
  have hsmaller := List.sizeOf_lt_of_mem (hlisted hends)
  rw [Value.array.sizeOf_spec] at hsmaller
  omega

/-- **All pairs are read after any writes that put no members in** exactly if all leaves are
    found at the beginning. -/
theorem forall_readsListed_iff {t : CaselessTree}
    (htext : t.separator.text ≠ "")
    (hcaseless : ∀ d ∈ t.separator.text.toList, Text.IsCaseless d) :
    (∀ writes : List (String × Value), (∀ write ∈ writes, write.2.fields = []) →
      ((Store.caseless t).setAll writes).ReadsListed) ↔ t.FindsLeaves := by
  constructor
  · intro hall p v hends
    by_contra hnot
    obtain ⟨w, hw, hnew⟩ := exists_new t
    apply not_readsListed_of_not_found hcaseless hends htext hnot hw hnew
    have hone := hall [(t.separator.join p, w)] (List.forall_mem_singleton.mpr hw)
    rwa [setAll_eq] at hone
  · intro hfinds writes hwrites
    rw [setAll_eq]
    intro entry hentry
    exact get?_of_mem_flatten (hfinds.setAll hcaseless hwrites) hentry

end CaselessTree

/-! ## All kinds of stores -/

namespace Store

/-- **What is listed is read.** Of a nested or a flat store this holds after any writes exactly
    if each of the keys that it began with is taken for itself: the separator is not in it, or
    it is in lower case. Of a caseless store with a separator without case it holds after any
    writes that put no members in exactly if each leaf is found under its key at the
    beginning, and of any other caseless store at least while each leaf is found. -/
theorem listed_is_read_iff {m : Entries Value} (hordered : m.Ordered) (separator : Separator)
    (t : CaselessTree) :
    ((∀ writes, ((nested m separator).setAll writes).ReadsListed) ↔
      ∀ key ∈ m.keys, separator.split key = [key]) ∧
    ((∀ writes, ((flat m).setAll writes).ReadsListed) ↔ ∀ key ∈ m.keys, Text.lower key = key) ∧
    (t.separator.text ≠ "" → (∀ d ∈ t.separator.text.toList, Text.IsCaseless d) →
      ((∀ writes : List (String × Value), (∀ write ∈ writes, write.2.fields = []) →
        ((caseless t).setAll writes).ReadsListed) ↔ t.FindsLeaves)) ∧
    (t.FindsLeaves → (caseless t).ReadsListed) := by
  refine ⟨?nested, ?flat, ?caseless, ?found⟩
  case nested => exact forall_readsListed_iff (s := nested m separator) trivial hordered
  case flat =>
    have hkeeps : ∀ key, Addressing.names.Keeps key ↔ Text.lower key = key := by
      intro key
      unfold Addressing.Keeps Addressing.path
      rw [List.singleton_inj]
    rw [forall_readsListed_iff (s := flat m) trivial hordered]
    exact forall₂_congr fun key _ => hkeeps key
  case caseless =>
    intro htext hcaseless
    exact CaselessTree.forall_readsListed_iff htext hcaseless
  case found =>
    intro hfinds entry hentry
    exact CaselessTree.get?_of_mem_flatten hfinds hentry

/-- Stores of all kinds that read what they list: after a write in capitals, and after all
    writes where none puts members in. -/
theorem listed_is_read_iff_of_settled :
    (∀ writes, ((nested [("Home", .null)] .standard).setAll writes).ReadsListed) ∧
    (∀ writes, ((flat [("home", .null)]).setAll writes).ReadsListed) ∧
    (∀ writes : List (String × Value), (∀ write ∈ writes, write.2.fields = []) →
      ((caseless (.ofValue (.object [("A", .object [("B", .null)])]))).setAll
        writes).ReadsListed) ∧
    (caseless (.set (.ofValue (.object [("A", .object [("B", .null)])])) "A::C"
      (.object [("D", .bool true)]))).ReadsListed := by
  have htext : Separator.standard.text.toList = ':' :: [':'] := by decide +kernel
  have hcapitals := Entries.ordered_nil.insert "Home" Value.null
  obtain ⟨hnested, -, hcaseless, -⟩ := listed_is_read_iff hcapitals .standard
    (.ofValue (.object [("A", .object [("B", .null)])]))
  have hsmall := Entries.ordered_nil.insert "home" Value.null
  obtain ⟨-, hflat, -, hfound⟩ := listed_is_read_iff hsmall .standard
    (.set (.ofValue (.object [("A", .object [("B", .null)])])) "A::C" (.object [("D", .bool true)]))
  refine ⟨?_, ?_, ?_, ?_⟩
  · exact hnested.mpr (by decide +kernel)
  · exact hflat.mpr (by decide +kernel)
  · exact (hcaseless (by decide) Separator.isCaseless_standard).mpr
      (CaselessTree.findsLeaves_of_not_mem htext (by decide +kernel))
  · exact hfound (CaselessTree.findsLeaves_of_not_mem htext (by decide +kernel))

/-- **Pairs that are listed and not read**: a name in capitals, and keys with the separator in
    them, which a caseless store also finds in values that are written, or between a key that
    ends like a separator begins and the members of its value. -/
theorem listed_but_not_read :
    ¬ (flat [("HOME", .string "/root")]).ReadsListed ∧
    ¬ (nested [("a::b", .null)] .standard).ReadsListed ∧
    ¬ (caseless (.ofValue (.object [("a::b", .null)]))).ReadsListed ∧
    ¬ ((caseless .empty).setAll [("x", .object [("a::b", .null)])]).ReadsListed ∧
    ¬ ((caseless .empty).setAll [("x:", .object [("y", .null)])]).ReadsListed := by
  decide +kernel

end Store

end LayeredConfig
