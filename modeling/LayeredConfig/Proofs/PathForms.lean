import LayeredConfig.Proofs.NormalPaths
import LayeredConfig.Proofs.QueueOrder

/-! # Paths and the places they lead to

    Two paths are the same path when they have the same components. That is less than
    leading to the same place: seen from a directory, `a`, `./a` and `../here/a` may all
    lead to one place, and so may an absolute path. What a path leads to by its text is
    the normal form of the path seen from that directory.

    For plain paths the two agree. A plain path is absolute and has no dots in it; all
    paths that an include can name from a plain directory are plain again.

    **Main results.** `placeFrom_eq_of_same`: the same path leads to the same place;
    `Plain.same_of_placeFrom_eq`: plain paths that lead to the same place are the same;
    `plain_of_resolveInclude`: what is included from an absolute directory is plain.
-/

namespace LayeredConfig

namespace Path

/-! ## Places -/

/-- The place that a path leads to by its text, seen from a directory. -/
def placeFrom (here p : Path) : Path := (here.join p).normalize

/-- **The same path leads to the same place.** -/
theorem placeFrom_eq_of_same (here : Path) {p q : Path} (h : p.same q = true) :
    here.placeFrom p = here.placeFrom q := by
  rw [same_iff] at h
  have habs : p.isAbsolute = q.isAbsolute := by
    rw [Bool.eq_iff_iff, isAbsolute_iff_components, isAbsolute_iff_components, h]
  have hjoin : (here.join p).components = (here.join q).components := by
    cases hp : p.isAbsolute with
    | true => rw [join_of_isAbsolute here hp, join_of_isAbsolute here (habs ▸ hp), h]
    | false =>
      by_cases hhere : here.text = []
      · unfold join
        simp [hhere, h]
      · rw [components_join here p hhere hp, components_join here q hhere (habs ▸ hp), h]
  unfold placeFrom normalize
  rw [hjoin]

/-! ## Plain paths -/

/-- A path that starts at the root and goes down from there. -/
def Plain (p : Path) : Prop :=
  ∃ names : List (List Char), p.components = .root :: names.map .name

theorem Plain.isAbsolute {p : Path} (h : p.Plain) : p.isAbsolute = true := by
  obtain ⟨names, hnames⟩ := h
  rw [isAbsolute_iff_components, hnames]
  rfl

theorem Plain.normal {p : Path} (h : p.Plain) : Normal true p.components := by
  obtain ⟨names, hnames⟩ := h
  rw [hnames]
  refine .rooted names fun name hname => isName_of_mem_components (p := p) ?_
  rw [hnames]
  exact List.mem_cons_of_mem _ (List.mem_map_of_mem hname)

theorem plain_normalize {p : Path} (h : p.isAbsolute = true) : p.normalize.Plain := by
  have hnormal := p.normal_components_normalize
  rw [h] at hnormal
  unfold Plain
  generalize p.normalize.components = cs at hnormal
  cases hnormal with
  | rooted names _ => exact ⟨names, rfl⟩

/-- Normalizing leaves the components of a plain path as they are. -/
theorem Plain.components_normalize {p : Path} (h : p.Plain) :
    p.normalize.components = p.components := by
  rw [Path.components_normalize]
  unfold resolved
  rw [h.normal.foldl_climb_nil, List.reverse_reverse]

/-- **Plain paths that lead to the same place are the same.** -/
theorem Plain.same_of_placeFrom_eq {here p q : Path} (hp : p.Plain) (hq : q.Plain)
    (h : here.placeFrom p = here.placeFrom q) : p.same q = true := by
  unfold placeFrom at h
  rw [join_of_isAbsolute here hp.isAbsolute, join_of_isAbsolute here hq.isAbsolute] at h
  rw [same_iff, ← hp.components_normalize, ← hq.components_normalize, h]

/-! ## Directories and includes -/

/-- The directory of an absolute path is absolute. -/
theorem isAbsolute_directory? {p dir : Path} (hp : p.isAbsolute = true)
    (h : p.directory? = some dir) : dir.isAbsolute = true := by
  have hhead := (isAbsolute_iff p).mp hp
  obtain ⟨rest, htext⟩ : ∃ rest, p.text = '/' :: rest := by
    rcases p.head_cases with ⟨_, htext⟩ | ⟨hother, _⟩ | hother
    · exact htext
    · rw [hhead] at hother
      exact nomatch hother
    · rw [hhead] at hother
      exact nomatch hother
  have hheadText : p.headText = ['/'] := by
    unfold headText
    rw [hhead, htext]
    rfl
  unfold directory? parent? at h
  split at h
  · next last before _ =>
    rw [hheadText, Option.map_some, Option.some.injEq] at h
    rw [if_neg (by simp)] at h
    exact isAbsolute_of_text (congrArg Path.text h.symm)
  · rw [hhead, if_neg (by simp)] at h
    exact nomatch h

/-- **What is included is plain**, where relative targets are seen from an absolute
    directory. -/
theorem plain_of_resolveInclude {target : List Char} {base : Option Path} {p : Path}
    (hbase : ∀ dir ∈ base, dir.isAbsolute = true) (h : resolveInclude target base = .ok p) :
    p.Plain := by
  obtain ⟨_, _, ⟨habsolute, rfl⟩ | ⟨_, dir, hdir, _, rfl⟩⟩ := resolveInclude_eq_ok_iff.mp h
  · exact plain_normalize habsolute
  · exact plain_normalize (isAbsolute_join (hbase dir hdir) _)

end Path

end LayeredConfig
