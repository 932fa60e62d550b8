import LayeredConfig.Key.Separator
import LayeredConfig.Proofs.Splitting

/-! # Keys and their paths

    A key has one path, and the path joined is the key again. Not every list of steps is the
    path of its key, though: a separator may occur in a step, or be found too early where the
    end of a step and the separator behind it run together. With two colons between the steps
    `a:` and `b`, the path of the key `a:::b` is `a` and `:b`.

    So keys are written paths, without loss in either direction, for the lists of steps in
    which each separator is found where it was put, and for no others. Steps without the first
    character of the separator are always among them, empty ones included. The empty separator
    is found nowhere: with it a path has one step.

    **Main result.** `key_path_codec`.
-/

namespace LayeredConfig.Separator

/-- The path of a key has a step. -/
theorem split_ne_nil (separator : Separator) (key : String) : separator.split key ≠ [] := by
  unfold split
  split
  · exact List.cons_ne_nil _ _
  · simp [Text.split_ne_nil]

/-- A key is its path joined. -/
theorem join_split (separator : Separator) (key : String) :
    separator.join (separator.split key) = key := by
  unfold join split
  by_cases hempty : separator.text = ""
  · rw [if_pos hempty]
    exact String.ofList_toList
  · have hdelimiter : separator.text.toList ≠ [] := by simpa using hempty
    have hsame : String.toList ∘ String.ofList = id := funext fun _ => String.toList_ofList
    rw [if_neg hempty, List.map_map, hsame, List.map_id, Text.join_split hdelimiter,
      String.ofList_toList]

/-- What is in a step is in the key. -/
theorem mem_of_mem_split {separator : Separator} {key step : String}
    (hstep : step ∈ separator.split key) {c : Char} (hc : c ∈ step.toList) : c ∈ key.toList := by
  unfold split at hstep
  split at hstep
  · rwa [List.mem_singleton.mp hstep] at hc
  · next htext =>
    obtain ⟨part, hpart, rfl⟩ := List.mem_map.mp hstep
    rw [String.toList_ofList] at hc
    exact Text.mem_of_mem_split (by simpa using htext) hpart hc

/-- Keys with the same path are the same. -/
theorem split_inj {separator : Separator} {key other : String}
    (h : separator.split key = separator.split other) : key = other := by
  rw [← separator.join_split key, h, separator.join_split]

/-- The first step of a path is the only step of its own path. -/
theorem split_first {separator : Separator} {key first : String} {rest : List String}
    (h : separator.split key = first :: rest) : separator.split first = [first] := by
  unfold split at h ⊢
  by_cases hempty : separator.text = ""
  · rw [if_pos hempty]
  · have hdelimiter : separator.text.toList ≠ [] := by simpa using hempty
    obtain ⟨part, parts, hsplit⟩ :=
      List.exists_cons_of_ne_nil (Text.split_ne_nil separator.text.toList key.toList)
    rw [if_neg hempty, hsplit] at h
    obtain ⟨rfl, _⟩ := List.cons.inj h
    have hwhole := Text.split_of_absent (Text.not_within_first hsplit hdelimiter)
    rw [if_neg hempty, String.toList_ofList, hwhole]
    rfl

/-! ## Paths that are found again -/

/-- Whether a list of steps is the path of a key: each separator between the steps is found
    where it was put, and no other one is found. -/
def IsPath (separator : Separator) (path : List String) : Prop :=
  if separator.text = "" then ∃ key, path = [key]
  else Text.Separated separator.text.toList (path.map String.toList)

/-- A path is found again in its key exactly where it is the path of a key. -/
theorem split_join_iff {separator : Separator} {path : List String} :
    separator.split (separator.join path) = path ↔ separator.IsPath path := by
  unfold split IsPath
  by_cases hempty : separator.text = ""
  · rw [if_pos hempty, if_pos hempty]
    constructor
    · exact fun h => ⟨_, h.symm⟩
    · rintro ⟨key, rfl⟩
      rw [List.singleton_inj]
      exact String.ofList_toList
  · have hdelimiter : separator.text.toList ≠ [] := by simpa using hempty
    have hsteps : (path.map String.toList).map String.ofList = path := by simp
    rw [if_neg hempty, if_neg hempty, ← Text.split_join_iff hdelimiter]
    unfold join
    rw [String.toList_ofList]
    constructor
    · intro h
      have hparts := congrArg (List.map String.toList) h
      simpa using hparts
    · intro h
      rw [h, hsteps]

instance (separator : Separator) (path : List String) : Decidable (separator.IsPath path) :=
  decidable_of_iff _ split_join_iff

/-- Steps without the first character of the separator make a path. -/
theorem isPath_of_not_mem {separator : Separator} {first : Char} {more : List Char}
    (htext : separator.text.toList = first :: more) {path : List String} (hpath : path ≠ [])
    (h : ∀ step ∈ path, first ∉ step.toList) : separator.IsPath path := by
  have hfilled : separator.text ≠ "" := by
    intro hempty
    simp [hempty] at htext
  unfold IsPath
  rw [if_neg hfilled, htext]
  apply Text.separated_of_not_mem
  · simpa using hpath
  · intro part hpart
    obtain ⟨step, hstep, rfl⟩ := List.mem_map.mp hpart
    exact h step hstep

/-- A path is found again in its key, if no step has the first character of the separator
    in it. -/
theorem split_join {separator : Separator} {first : Char} {more : List Char}
    (htext : separator.text.toList = first :: more) {path : List String} (hpath : path ≠ [])
    (h : ∀ step ∈ path, first ∉ step.toList) : separator.split (separator.join path) = path :=
  split_join_iff.mpr (isPath_of_not_mem htext hpath h)

/-- **Keys and paths are written forms of each other.** Every key is its path joined. A path is
    found again in its key if it has a step and no step has the first character of the
    separator in it, and altogether exactly if each separator is found where it was put. -/
theorem key_path_codec (separator : Separator) :
    (∀ key, separator.join (separator.split key) = key) ∧
    (∀ first, separator.text.toList.head? = some first → ∀ path, path ≠ [] →
      (∀ step ∈ path, first ∉ step.toList) → separator.split (separator.join path) = path) ∧
    (∀ path, separator.split (separator.join path) = path ↔ separator.IsPath path) := by
  refine ⟨separator.join_split, fun first hfirst path hpath h => ?_, fun _ => split_join_iff⟩
  obtain ⟨more, htext⟩ := List.head?_eq_some_iff.mp hfirst
  exact split_join htext hpath h

/-- Empty steps at the beginning, at the end and next to each other, where the separators run
    together. -/
theorem key_path_codec_of_empty_steps :
    Separator.standard.text.toList.head? = some ':' ∧ ["", "", "a", ""] ≠ [] ∧
    (∀ step ∈ ["", "", "a", ""], ':' ∉ step.toList) ∧
    Separator.standard.join ["", "", "a", ""] = "::::a::" ∧
    Separator.standard.split "::::a::" = ["", "", "a", ""] := by
  have hfirst : Separator.standard.text.toList.head? = some ':' := by decide
  have hsteps : ∀ step ∈ ["", "", "a", ""], ':' ∉ step.toList := by decide
  have hkey : Separator.standard.join ["", "", "a", ""] = "::::a::" := by decide
  have hfound := (key_path_codec .standard).2.1 ':' hfirst ["", "", "a", ""] (by simp) hsteps
  rw [hkey] at hfound
  exact ⟨hfirst, by simp, hsteps, hkey, hfound⟩

end LayeredConfig.Separator
