import LayeredConfig.Include
import LayeredConfig.Proofs.Splitting

/-! # Normal forms of paths

    A path in normal form goes up first and then down: a relative one begins with some
    components for the directory above and has names behind them, an absolute one has only
    names behind the root. Resolving the components of a path is a walk that keeps a
    normal form at every step.

    A normal form is read back from its own text, so normalizing it changes nothing. And a
    walk that goes on from a directory needs to know no more of the directory than its
    normal form.

    **Main results.** `normal_resolved`: the walk; `components_normalize`: its outcome is
    read back; `normalize_join_normalize`: normal forms of directories are enough;
    `included_paths_are_normal`: what this says of includes.
-/

namespace LayeredConfig

namespace Path

/-! ## Components -/

theorem component?_ne_root (segment : List Char) : component? segment ≠ some .root := by
  unfold component?
  split
  · simp
  · split <;> simp

theorem component?_ne_here (segment : List Char) : component? segment ≠ some .here := by
  unfold component?
  split
  · simp
  · split <;> simp

/-- The names of the segments that are components are the segments. -/
theorem component?_eq_name {segment text : List Char} (h : component? segment = some (.name text)) :
    segment = text := by
  unfold component? at h
  split at h
  · simp at h
  · split at h
    · simp at h
    · simpa using h

/-- What a path begins with is the root, a dot, or nothing. -/
theorem head_cases (p : Path) :
    (p.head = [.root] ∧ ∃ rest, p.text = '/' :: rest) ∨
      (p.head = [.here] ∧ ∃ rest, p.text = '.' :: rest ∧ (rest = [] ∨ ∃ more, rest = '/' :: more)) ∨
      p.head = [] := by
  unfold head
  split
  · next rest h => exact .inl ⟨rfl, rest, h⟩
  · next h => exact .inr (.inl ⟨rfl, [], h, .inl rfl⟩)
  · next rest h => exact .inr (.inl ⟨rfl, '/' :: rest, h, .inr ⟨rest, rfl⟩⟩)
  · exact .inr (.inr rfl)

theorem isAbsolute_iff (p : Path) : p.isAbsolute = true ↔ p.head = [.root] := by
  unfold isAbsolute
  exact beq_iff_eq

/-- A path is absolute where its first component is the root. -/
theorem isAbsolute_iff_components (p : Path) :
    p.isAbsolute = true ↔ p.components.head? = some .root := by
  rw [isAbsolute_iff]
  unfold components
  rcases p.head_cases with ⟨h, _⟩ | ⟨h, _⟩ | h
  · simp [h]
  · simp [h]
  · -- Without a beginning the first component is that of a segment, which is never the root.
    have hroot : ∀ c ∈ p.segments.filterMap component?, c ≠ .root := by
      intro c hc heq
      obtain ⟨segment, _, hsegment⟩ := List.mem_filterMap.mp hc
      exact component?_ne_root segment (heq ▸ hsegment)
    cases hcs : p.segments.filterMap component? with
    | nil => simp [h]
    | cons c rest =>
      have hc := hroot c (by simp [hcs])
      simp [h, hc]

theorem isAbsolute_of_text {p : Path} {rest : List Char} (h : p.text = '/' :: rest) :
    p.isAbsolute = true := by
  rw [isAbsolute_iff]
  unfold head
  rw [h]
  rfl

/-! ## Seen from a directory -/

/-- What is left of the components of a relative path, seen from a directory: a dot
    counts at the beginning only. -/
theorem components_of_relative {p : Path} (h : p.isAbsolute = false) :
    (Text.split ['/'] p.text).filterMap component? = p.components.filter (· ≠ .here) := by
  have hsegments : ∀ cs : List Char, ∀ c ∈ (Text.split ['/'] cs).filterMap component?,
      decide (c ≠ Component.here) = true := by
    intro cs c hc
    obtain ⟨segment, _, hsegment⟩ := List.mem_filterMap.mp hc
    have hne : c ≠ .here := fun heq => component?_ne_here segment (heq ▸ hsegment)
    simpa using hne
  rcases p.head_cases with ⟨hroot, _⟩ | ⟨hhere, rest, htext, hrest⟩ | hnone
  · rw [(isAbsolute_iff p).mpr hroot] at h
    exact nomatch h
  · -- The dot at the beginning is a segment of its own, which is no component.
    unfold components segments
    rw [List.filter_append, List.filter_eq_self.mpr (hsegments _), hhere, htext]
    rcases hrest with rfl | ⟨more, rfl⟩
    · rfl
    · have hdot : Text.split ['/'] ('.' :: '/' :: more) = ['.'] :: Text.split ['/'] more :=
        Text.split_append '/' ['.'] more
      have hdrop : List.drop [Component.here].length ('.' :: '/' :: more) = '/' :: more := rfl
      rw [hdot, hdrop, Text.split_cons_self]
      rfl
  · unfold components segments
    rw [List.filter_append, List.filter_eq_self.mpr (hsegments _), hnone]
    rfl

/-- Behind what a path begins with, a slash separates two groups of segments. -/
theorem components_append (p : Path) (cs : List Char) (h : p.text ≠ []) :
    components ⟨p.text ++ '/' :: cs⟩ =
      p.components ++ (Text.split ['/'] cs).filterMap component? := by
  have hhead : head ⟨p.text ++ '/' :: cs⟩ = p.head := by
    unfold head
    obtain ⟨c, rest, htext⟩ := List.exists_cons_of_ne_nil h
    rw [htext]
    by_cases hslash : c = '/'
    · simp [hslash]
    · by_cases hdot : c = '.'
      · cases rest with
        | nil => simp [hdot]
        | cons d more => by_cases hd : d = '/' <;> simp [hdot, hd]
      · simp [hslash, hdot]
  have hlength : p.head.length ≤ p.text.length := by
    rcases p.head_cases with ⟨hp, rest, htext⟩ | ⟨hp, rest, htext, _⟩ | hp
    · simp [hp, htext]
    · simp [hp, htext]
    · simp [hp]
  unfold components segments
  rw [hhead, List.drop_append_of_le_length hlength, Text.split_append, List.filterMap_append,
    List.append_assoc]

/-- The components of a path seen from a directory: those of an absolute path stay, and
    those of a relative one follow those of the directory. -/
theorem components_join (here p : Path) (hhere : here.text ≠ []) (hp : p.isAbsolute = false) :
    (here.join p).components = here.components ++ p.components.filter (· ≠ .here) := by
  have hempty : here.text.isEmpty = false := by simpa using hhere
  unfold join
  rw [hp, hempty, Bool.or_self, if_neg Bool.false_ne_true, ← components_of_relative hp]
  split
  · next hslash =>
    -- The slash at the end of the directory is the one between the two.
    obtain ⟨front, hfront⟩ : ∃ front, here.text = front ++ ['/'] := by
      rw [beq_iff_eq, List.getLast?_eq_some_iff] at hslash
      exact hslash
    by_cases hnil : front = []
    · -- The directory is the root.
      subst hnil
      have hroot : here = ⟨['/']⟩ := by
        cases here
        simpa using hfront
      rw [hroot]
      show components ⟨'/' :: p.text⟩ = _
      rfl
    · have hone := components_append ⟨front⟩ p.text hnil
      have htwo := components_append ⟨front⟩ [] hnil
      have hhere' : here = ⟨front ++ ['/']⟩ := by
        cases here
        simpa using hfront
      rw [hhere', List.append_assoc, List.singleton_append, hone, htwo]
      simp [Text.split, Text.splitFrom, component?]
  · exact components_append here p.text hhere

theorem join_of_isAbsolute (here : Path) {p : Path} (h : p.isAbsolute = true) :
    here.join p = p := by
  unfold join
  simp [h]

/-! ## Normal forms -/

/-- A text that is a component of a path by its name. -/
def IsName (text : List Char) : Prop := component? text = some (.name text) ∧ '/' ∉ text

theorem isName_of_mem_components {p : Path} {text : List Char} (h : .name text ∈ p.components) :
    IsName text := by
  unfold components at h
  rcases List.mem_append.mp h with hhead | hsegment
  · rcases p.head_cases with ⟨hp, _⟩ | ⟨hp, _⟩ | hp <;> simp [hp] at hhead
  · obtain ⟨segment, hmem, hname⟩ := List.mem_filterMap.mp hsegment
    obtain rfl := component?_eq_name hname
    exact ⟨hname, Text.not_mem_of_mem_split hmem⟩

/-- Components in normal form, of absolute paths or of relative ones. -/
inductive Normal : Bool → List Component → Prop where
  /-- Down from the root. -/
  | rooted (names : List (List Char)) (h : ∀ name ∈ names, IsName name) :
      Normal true (.root :: names.map .name)
  /-- Up some times, and then down. -/
  | climbing (n : Nat) (names : List (List Char)) (h : ∀ name ∈ names, IsName name) :
      Normal false (List.replicate n .above ++ names.map .name)

/-- A component that a walk can meet behind its beginning. -/
structure IsStep (c : Component) : Prop where
  ne_root : c ≠ .root
  isName : ∀ text, c = .name text → IsName text

theorem isStep_of_mem_segments {cs : List Char} {c : Component}
    (h : c ∈ (Text.split ['/'] cs).filterMap component?) : IsStep c := by
  obtain ⟨segment, hmem, hc⟩ := List.mem_filterMap.mp h
  refine ⟨fun hroot => component?_ne_root segment (hroot ▸ hc), fun text htext => ?_⟩
  subst htext
  obtain rfl := component?_eq_name hc
  exact ⟨hc, Text.not_mem_of_mem_split hmem⟩

/-- Behind the root, if they begin with it, all components of a path are steps. -/
theorem exists_steps (p : Path) : ∃ steps : List Component, (∀ c ∈ steps, IsStep c) ∧
    p.components = if p.isAbsolute then .root :: steps else steps := by
  have hsegments : ∀ c ∈ p.segments.filterMap component?, IsStep c :=
    fun c hc => isStep_of_mem_segments hc
  rcases p.head_cases with ⟨hroot, _⟩ | ⟨hhere, _⟩ | hnone
  · refine ⟨_, hsegments, ?_⟩
    rw [(isAbsolute_iff p).mpr hroot]
    unfold components
    rw [hroot]
    rfl
  · have hrelative : p.isAbsolute = false := by
      rw [Bool.eq_false_iff, Ne, isAbsolute_iff, hhere]
      simp
    refine ⟨.here :: p.segments.filterMap component?, ?_, ?_⟩
    · exact List.forall_mem_cons.mpr ⟨⟨nofun, nofun⟩, hsegments⟩
    · rw [hrelative]
      unfold components
      rw [hhere]
      rfl
  · have hrelative : p.isAbsolute = false := by
      rw [Bool.eq_false_iff, Ne, isAbsolute_iff, hnone]
      simp
    refine ⟨_, hsegments, ?_⟩
    rw [hrelative]
    unfold components
    rw [hnone]
    rfl

/-! ## Walking -/

@[simp] theorem climb_here (done : List Component) : climb done .here = done := by
  unfold climb
  rfl

@[simp] theorem climb_name (done : List Component) (text : List Char) :
    climb done (.name text) = .name text :: done := by
  cases done with
  | nil => rfl
  | cons c rest => cases c <;> rfl

/-- **Step.** A step from a normal form leads to one. -/
theorem Normal.climb {absolute : Bool} {cs : List Component} (h : Normal absolute cs)
    {c : Component} (hc : IsStep c) : Normal absolute (Path.climb cs.reverse c).reverse := by
  cases c with
  | root => exact absurd rfl hc.ne_root
  | here => rwa [climb_here, List.reverse_reverse]
  | name text =>
    have htext := hc.isName text rfl
    rw [climb_name, List.reverse_cons, List.reverse_reverse]
    cases h with
    | rooted names hnames =>
      have hmore := Normal.rooted (names ++ [text])
        (List.forall_mem_append.mpr ⟨hnames, List.forall_mem_singleton.mpr htext⟩)
      simpa using hmore
    | climbing n names hnames =>
      have hmore := Normal.climbing n (names ++ [text])
        (List.forall_mem_append.mpr ⟨hnames, List.forall_mem_singleton.mpr htext⟩)
      simpa using hmore
  | above =>
    -- The last name is taken away; without one the walk is at the root or goes up.
    cases h with
    | rooted names hnames =>
      rcases List.eq_nil_or_concat names with rfl | ⟨front, last, rfl⟩
      · exact .rooted [] nofun
      · have hfront : ∀ name ∈ front, IsName name := fun name hname => hnames name (by simp [hname])
        simpa [Path.climb] using Normal.rooted front hfront
    | climbing n names hnames =>
      rcases List.eq_nil_or_concat names with rfl | ⟨front, last, rfl⟩
      · have hup : Path.climb (List.replicate n .above) .above = List.replicate (n + 1) .above := by
          cases n <;> rfl
        have hmore := Normal.climbing (n + 1) [] nofun
        simpa [hup] using hmore
      · have hfront : ∀ name ∈ front, IsName name := fun name hname => hnames name (by simp [hname])
        simpa [Path.climb] using Normal.climbing n front hfront

/-- **Run.** A walk from a normal form leads to one. -/
theorem Normal.foldl_climb {absolute : Bool} {steps : List Component}
    (hsteps : ∀ c ∈ steps, IsStep c) {cs : List Component} (h : Normal absolute cs) :
    Normal absolute (steps.foldl Path.climb cs.reverse).reverse := by
  induction steps generalizing cs with
  | nil => rwa [List.foldl_nil, List.reverse_reverse]
  | cons c rest ih =>
    obtain ⟨hc, hrest⟩ := List.forall_mem_cons.mp hsteps
    have hnext := ih hrest (h.climb hc)
    rwa [List.reverse_reverse] at hnext

/-- The components of a path with all dots resolved. -/
def resolved (p : Path) : List Component := (p.components.foldl climb []).reverse

/-- **The walk along a path** ends in a normal form. -/
theorem normal_resolved (p : Path) : Normal p.isAbsolute p.resolved := by
  obtain ⟨steps, hsteps, hcomponents⟩ := p.exists_steps
  unfold resolved
  rw [hcomponents]
  cases p.isAbsolute with
  | true => exact Normal.foldl_climb hsteps (Normal.rooted [] nofun)
  | false => exact Normal.foldl_climb hsteps (Normal.climbing 0 [] nofun)

/-! ## Reading a normal form back -/

theorem Normal.head?_eq_root_iff {absolute : Bool} {cs : List Component}
    (h : Normal absolute cs) : cs.head? = some .root ↔ absolute = true := by
  cases h with
  | rooted names hnames => simp
  | climbing n names hnames => cases n <;> cases names <;> simp [List.replicate_succ]

theorem Normal.here_not_mem {absolute : Bool} {cs : List Component} (h : Normal absolute cs) :
    .here ∉ cs := by
  cases h <;> simp

theorem Normal.above_not_mem {cs : List Component} (h : Normal true cs) : .above ∉ cs := by
  cases h
  simp

/-- Segments between slashes are the components that they are the texts of. -/
theorem filterMap_split_join {cs : List Component} (hne : cs ≠ [])
    (h : ∀ c ∈ cs, component? c.text = some c ∧ '/' ∉ c.text) :
    (Text.split ['/'] (Text.join ['/'] (cs.map Component.text))).filterMap component? = cs := by
  have hsplit : Text.split ['/'] (Text.join ['/'] (cs.map Component.text)) =
      cs.map Component.text := by
    apply Text.split_join (by simpa using hne)
    intro text htext
    obtain ⟨c, hc, rfl⟩ := List.mem_map.mp htext
    exact (h c hc).2
  have hread : cs.filterMap (component? ∘ Component.text) = cs.map id :=
    List.filterMap_eq_map_iff_forall_eq_some.mpr fun c hc => (h c hc).1
  rw [hsplit, List.filterMap_map, hread, List.map_id]

/-- A path that is put together from components other than the root and the dot begins with
    none of these. -/
theorem head_join {cs : List Component} (h : ∀ c ∈ cs, component? c.text = some c ∧ '/' ∉ c.text) :
    head ⟨Text.join ['/'] (cs.map Component.text)⟩ = [] := by
  cases cs with
  | nil => rfl
  | cons first rest =>
    obtain ⟨hfirst, hslash⟩ := h first List.mem_cons_self
    have hsplit : Text.split ['/'] (Text.join ['/'] ((first :: rest).map Component.text)) =
        first.text :: rest.map Component.text := by
      apply Text.split_join (by simp)
      intro text htext
      obtain ⟨c, hc, rfl⟩ := List.mem_map.mp htext
      exact (h c hc).2
    -- The first segment would be empty or a dot, which is no component.
    rcases head_cases ⟨Text.join ['/'] ((first :: rest).map Component.text)⟩ with
      ⟨_, more, htext⟩ | ⟨_, more, htext, hmore⟩ | hnone
    · dsimp only at htext
      rw [htext, Text.split_cons_self] at hsplit
      rw [← (List.cons.inj hsplit).1] at hfirst
      exact nomatch hfirst
    · dsimp only at htext
      have hdot : ∃ after, Text.split ['/'] ('.' :: more) = ['.'] :: after := by
        rcases hmore with rfl | ⟨after, rfl⟩
        · exact ⟨[], rfl⟩
        · exact ⟨_, Text.split_append '/' ['.'] after⟩
      obtain ⟨after, hdot⟩ := hdot
      rw [htext, hdot] at hsplit
      rw [← (List.cons.inj hsplit).1] at hfirst
      exact nomatch hfirst
    · exact hnone

/-- **A normal form is read back** from the path that is put together from it. -/
theorem Normal.components_ofComponents {absolute : Bool} {cs : List Component}
    (h : Normal absolute cs) : (ofComponents cs).components = cs := by
  cases h with
  | rooted names hnames =>
    cases names with
    | nil => rfl
    | cons first rest =>
      have hsteps : ∀ c ∈ (first :: rest).map Component.name,
          component? c.text = some c ∧ '/' ∉ c.text := by
        intro c hc
        obtain ⟨name, hname, rfl⟩ := List.mem_map.mp hc
        exact hnames name hname
      have hread := filterMap_split_join (by simp) hsteps
      show Component.root :: (Text.split ['/']
        (Text.join ['/'] (((first :: rest).map .name).map Component.text))).filterMap component? = _
      rw [hread]
  | climbing n names hnames =>
    have hsteps : ∀ c ∈ List.replicate n .above ++ names.map .name,
        component? c.text = some c ∧ '/' ∉ c.text := by
      intro c hc
      rcases List.mem_append.mp hc with hc | hc
      · rw [List.eq_of_mem_replicate hc]
        exact ⟨by decide, by decide⟩
      · obtain ⟨name, hname, rfl⟩ := List.mem_map.mp hc
        exact hnames name hname
    have hjoined : ofComponents (List.replicate n .above ++ names.map .name) =
        ⟨Text.join ['/'] ((List.replicate n Component.above ++ names.map Component.name).map
          Component.text)⟩ := by
      unfold ofComponents
      split
      · next hroot => cases n <;> cases names <;> simp [List.replicate_succ] at hroot
      · rfl
    by_cases hne : List.replicate n Component.above ++ names.map Component.name = []
    · rw [hne]
      rfl
    · rw [hjoined]
      unfold components segments
      rw [head_join hsteps]
      exact filterMap_split_join hne hsteps

/-- The components of the normal form of a path are those of the path with all dots
    resolved. -/
theorem components_normalize (p : Path) : p.normalize.components = p.resolved :=
  p.normal_resolved.components_ofComponents

theorem normal_components_normalize (p : Path) : Normal p.isAbsolute p.normalize.components := by
  rw [components_normalize]
  exact p.normal_resolved

theorem isAbsolute_normalize (p : Path) : p.normalize.isAbsolute = p.isAbsolute := by
  rw [Bool.eq_iff_iff, isAbsolute_iff_components]
  exact p.normal_components_normalize.head?_eq_root_iff

/-! ## Walking along a normal form -/

theorem foldl_climb_names (names : List (List Char)) (done : List Component) :
    (names.map Component.name).foldl climb done = (names.map Component.name).reverse ++ done := by
  induction names generalizing done with
  | nil => rfl
  | cons name rest ih =>
    rw [List.map_cons, List.foldl_cons, ih, climb_name]
    simp

theorem foldl_climb_replicate (n m : Nat) :
    (List.replicate n Component.above).foldl climb (List.replicate m .above) =
      List.replicate (n + m) .above := by
  induction n generalizing m with
  | zero => simp
  | succ n ih =>
    have hup : climb (List.replicate m .above) .above = List.replicate (m + 1) .above := by
      cases m <;> rfl
    rw [List.replicate_succ, List.foldl_cons, hup, ih]
    congr 1
    omega

/-- The walk along a normal form takes all of its steps. -/
theorem Normal.foldl_climb_nil {absolute : Bool} {cs : List Component} (h : Normal absolute cs) :
    cs.foldl Path.climb [] = cs.reverse := by
  cases h with
  | rooted names hnames =>
    have hroot : Path.climb [] .root = [.root] := rfl
    rw [List.foldl_cons, hroot, foldl_climb_names, List.reverse_cons]
  | climbing n names hnames =>
    have hup := foldl_climb_replicate n 0
    rw [List.replicate_zero, Nat.add_zero] at hup
    rw [List.foldl_append, hup, foldl_climb_names, List.reverse_append, List.reverse_replicate]

/-- **Normalizing a normal form** changes nothing. -/
theorem normalize_normalize (p : Path) : p.normalize.normalize = p.normalize := by
  have hwalk := p.normal_resolved.foldl_climb_nil
  show ofComponents (p.normalize.components.foldl climb []).reverse = ofComponents p.resolved
  rw [components_normalize, hwalk, List.reverse_reverse]

/-- Dots on the way do not count. -/
theorem foldl_climb_filter (steps done : List Component) :
    (steps.filter (· ≠ .here)).foldl climb done = steps.foldl climb done := by
  induction steps generalizing done with
  | nil => rfl
  | cons c rest ih =>
    by_cases hc : c = .here
    · subst hc
      rw [List.filter_cons_of_neg (by simp), List.foldl_cons, climb_here, ih]
    · rw [List.filter_cons_of_pos (by simpa using hc), List.foldl_cons, List.foldl_cons, ih]

/-- A walk along a relative path goes on from where the walk to its directory ends. -/
theorem foldl_climb_join (here : Path) {p : Path} (hp : p.isAbsolute = false) :
    (here.join p).components.foldl climb [] =
      p.components.foldl climb (here.components.foldl climb []) := by
  by_cases hhere : here.text = []
  · have hempty : here = ⟨[]⟩ := congrArg Path.mk hhere
    subst hempty
    unfold join
    simp [hp]
    rfl
  · rw [components_join here p hhere hp, List.foldl_append, foldl_climb_filter]

/-- **The normal form of a directory is enough** to know where a path leads from it. -/
theorem normalize_join_normalize (here p : Path) :
    (here.normalize.join p).normalize = (here.join p).normalize := by
  cases hp : p.isAbsolute with
  | true => rw [join_of_isAbsolute _ hp, join_of_isAbsolute _ hp]
  | false =>
    have hwalk : here.normalize.components.foldl climb [] = here.components.foldl climb [] := by
      rw [components_normalize, here.normal_resolved.foldl_climb_nil]
      exact List.reverse_reverse _
    unfold normalize
    rw [foldl_climb_join _ hp, foldl_climb_join _ hp]
    unfold normalize at hwalk
    rw [hwalk]

theorem isAbsolute_join {here : Path} (h : here.isAbsolute = true) (p : Path) :
    (here.join p).isAbsolute = true := by
  cases hp : p.isAbsolute with
  | true => rwa [join_of_isAbsolute here hp]
  | false =>
    have hroot := (isAbsolute_iff_components here).mp h
    have hne : here.text ≠ [] := by
      intro hnil
      have hempty : here = ⟨[]⟩ := congrArg Path.mk hnil
      rw [hempty] at h
      exact nomatch h
    rw [isAbsolute_iff_components, components_join here p hne hp, List.head?_append, hroot]
    rfl

/-! ## Includes -/

/-- **What an include names**: the normal form of its target, seen from the directory. -/
theorem resolveInclude_eq_ok_iff {target : List Char} {base : Option Path} {p : Path} :
    resolveInclude target base = .ok p ↔
      Text.trim target ≠ [] ∧ '\x00' ∉ Text.trim target ∧
        ((isAbsolute ⟨Text.trim target⟩ = true ∧ p = normalize ⟨Text.trim target⟩) ∨
          (isAbsolute ⟨Text.trim target⟩ = false ∧ ∃ dir, base = some dir ∧ dir.text ≠ [] ∧
            p = (dir.join ⟨Text.trim target⟩).normalize)) := by
  unfold resolveInclude
  dsimp only
  by_cases hempty : Text.trim target = []
  · simp [hempty]
  · by_cases hnul : '\x00' ∈ Text.trim target
    · simp [hempty, hnul]
    · rw [if_neg hempty, if_neg (by simpa using hnul)]
      cases habsolute : isAbsolute ⟨Text.trim target⟩ with
      | true => simp [hempty, hnul, eq_comm]
      | false =>
        cases base with
        | none => simp
        | some dir =>
          by_cases hdir : dir.text = []
          · simp [hdir]
          · simp [hempty, hnul, hdir, eq_comm]

theorem resolveInclude_eq_error_iff {target : List Char} {base : Option Path} :
    (∃ failure, resolveInclude target base = .error failure) ↔
      Text.trim target = [] ∨ '\x00' ∈ Text.trim target ∨
        (isAbsolute ⟨Text.trim target⟩ = false ∧ ∀ dir ∈ base, dir.text = []) := by
  have hok : (∃ failure, resolveInclude target base = .error failure) ↔
      ¬ ∃ p, resolveInclude target base = .ok p := by
    cases resolveInclude target base <;> simp
  simp only [hok, resolveInclude_eq_ok_iff]
  constructor
  · intro hno
    by_contra hall
    rw [not_or, not_or] at hall
    obtain ⟨hempty, hnul, hbase⟩ := hall
    apply hno
    cases habsolute : isAbsolute ⟨Text.trim target⟩ with
    | true => exact ⟨_, hempty, hnul, .inl ⟨rfl, rfl⟩⟩
    | false =>
      obtain ⟨dir, hdir, hne⟩ : ∃ dir ∈ base, dir.text ≠ [] := by simpa [habsolute] using hbase
      exact ⟨_, hempty, hnul, .inr ⟨rfl, dir, hdir, hne, rfl⟩⟩
  · rintro hany ⟨p, hempty, hnul, hp⟩
    rcases hany with h | h | ⟨hrelative, hbase⟩
    · exact hempty h
    · exact hnul h
    · rcases hp with ⟨habsolute, _⟩ | ⟨_, dir, hdir, hne, _⟩
      · rw [hrelative] at habsolute
        exact nomatch habsolute
      · exact hne (hbase dir hdir)

/-- Bases with one normal form do not differ for an include, unless it is refused from one of
    them only, which is the empty one. -/
theorem resolveInclude_congr (target : List Char) {here there : Option Path}
    (hbase : here.map normalize = there.map normalize)
    (hok : (∃ p, resolveInclude target here = .ok p) ↔ ∃ p, resolveInclude target there = .ok p) :
    resolveInclude target here = resolveInclude target there := by
  cases here with
  | none =>
    obtain rfl : there = none := Option.map_eq_none_iff.mp hbase.symm
    rfl
  | some here =>
    obtain ⟨there, rfl, hnormal⟩ := Option.map_eq_some_iff.mp hbase.symm
    have hjoin : (here.join ⟨Text.trim target⟩).normalize =
        (there.join ⟨Text.trim target⟩).normalize := by
      rw [← normalize_join_normalize, ← hnormal, normalize_join_normalize]
    unfold resolveInclude at hok ⊢
    dsimp only at hok ⊢
    split
    · rfl
    · next hempty =>
      split
      · rfl
      · next hnul =>
        split
        · rfl
        · next habsolute =>
          -- The answer to a relative target depends on whether the base is empty.
          rw [if_neg hempty, if_neg hnul, if_neg habsolute, if_neg hempty, if_neg hnul,
            if_neg habsolute] at hok
          by_cases hhere : here.text = []
          · by_cases hthere : there.text = []
            · rw [if_pos hhere, if_pos hthere]
            · simp [hhere, hthere] at hok
          · by_cases hthere : there.text = []
            · simp [hhere, hthere] at hok
            · rw [if_neg hhere, if_neg hthere, hjoin]

/-- What is included by an absolute target or from an absolute directory is absolute. -/
theorem isAbsolute_of_resolveInclude {target : List Char} {base : Option Path} {p : Path}
    (h : resolveInclude target base = .ok p)
    (habsolute : isAbsolute ⟨Text.trim target⟩ = true ∨ ∃ dir ∈ base, dir.isAbsolute = true) :
    p.isAbsolute = true := by
  obtain ⟨_, _, ⟨htarget, rfl⟩ | ⟨hrelative, dir, hdir, _, rfl⟩⟩ := resolveInclude_eq_ok_iff.mp h
  · rwa [isAbsolute_normalize]
  · rw [isAbsolute_normalize]
    rcases habsolute with htarget | ⟨other, hother, hroot⟩
    · rw [hrelative] at htarget
      exact nomatch htarget
    · obtain rfl := Option.some.inj (hdir.symm.trans hother)
      exact isAbsolute_join hroot _

/-- What is included is a normal form. -/
theorem normalize_of_resolveInclude {target : List Char} {base : Option Path} {p : Path}
    (h : resolveInclude target base = .ok p) : p.normalize = p := by
  obtain ⟨_, _, ⟨_, rfl⟩ | ⟨_, _, _, _, rfl⟩⟩ := resolveInclude_eq_ok_iff.mp h
  · exact normalize_normalize _
  · exact normalize_normalize _

/-- **Included paths are in normal form.** The normal form of a path has no dots, and goes up
    at its beginning only, if the path is relative; it is absolute where the path is, and is
    its own normal form. A path leads from a directory to where it leads from the normal form
    of the directory. So an include is refused only for its target, or for want of a directory;
    two bases with one normal form that do not differ in that give one answer, and an absolute
    target or directory leaves nothing of going up. -/
theorem included_paths_are_normal :
    (∀ p : Path, .here ∉ p.normalize.components ∧ Normal p.isAbsolute p.normalize.components ∧
      p.normalize.isAbsolute = p.isAbsolute ∧ p.normalize.normalize = p.normalize) ∧
    (∀ a b : Path, (a.normalize.join b).normalize = (a.join b).normalize) ∧
    (∀ target base, (∃ failure, resolveInclude target base = .error failure) ↔
      Text.trim target = [] ∨ '\x00' ∈ Text.trim target ∨
        (isAbsolute ⟨Text.trim target⟩ = false ∧ (base = none ∨ base = some ⟨[]⟩))) ∧
    (∀ (target : List Char) (here there : Option Path),
      here.map normalize = there.map normalize →
      ((∃ p, resolveInclude target here = .ok p) ↔ ∃ p, resolveInclude target there = .ok p) →
      resolveInclude target here = resolveInclude target there) ∧
    (∀ target base p, resolveInclude target base = .ok p →
      isAbsolute ⟨Text.trim target⟩ = true ∨ (∃ dir, base = some dir ∧ dir.isAbsolute = true) →
      .above ∉ p.components) := by
  refine ⟨fun p => ?normal, normalize_join_normalize, fun target base => ?refused,
    fun target _ _ => resolveInclude_congr target, fun target base p hp habsolute => ?absolute⟩
  case normal =>
    exact ⟨p.normal_components_normalize.here_not_mem, p.normal_components_normalize,
      p.isAbsolute_normalize, p.normalize_normalize⟩
  case refused =>
    have hbase : (∀ dir ∈ base, dir.text = []) ↔ base = none ∨ base = some ⟨[]⟩ := by
      cases base with
      | none => simp
      | some dir =>
        obtain ⟨text⟩ := dir
        simp
    rw [resolveInclude_eq_error_iff, hbase]
  case absolute =>
    have hroot := isAbsolute_of_resolveInclude hp habsolute
    have hnormal := p.normal_components_normalize
    rw [hroot, normalize_of_resolveInclude hp] at hnormal
    exact hnormal.above_not_mem

end Path

end LayeredConfig
