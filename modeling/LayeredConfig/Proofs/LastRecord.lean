import LayeredConfig.Proofs.AppendedLists

/-! # What is recorded for a list

    The value of a key can come from several lines: the last plain assignment of the key and
    the append lines behind it. The record keeps one definition for a key, and every line that
    is carried out puts its own in the place of the one before. So the definition of a list
    says in which file the last of these lines stands and which names this line refers to,
    and it says nothing about the others.

    The names of all these lines are among the dependencies exactly if the last line refers
    to every name that the others refer to.

    **Main result.** `definition_of_last_line`. In `append_forgets_names` a list still holds
    what was read under a name that its definition does not have any more.
-/

namespace LayeredConfig.Source.Conf

open LayeredConfig.Conf (Assignment)

/-! ## Lines of a key -/

/-- What is recorded for a line. -/
def definitionOf (line : Options × Assignment) : Definition :=
  ⟨line.1.contextName "conf", line.2.names line.1⟩

/-- The lines that assign a key. -/
def linesOf (key : String) (lines : List (Options × Assignment)) : List (Options × Assignment) :=
  lines.filter fun line => line.2.key = key

/-- The last plain assignment among lines and what is behind it, or all lines if there is
    none. -/
def sinceAssigned : List (Options × Assignment) → List (Options × Assignment)
  | [] => []
  | line :: rest => if rest.all (·.2.append) then line :: rest else sinceAssigned rest

/-- The lines that the value of a key comes from: the last plain assignment of the key and the
    append lines behind it, or append lines alone. -/
def makers (key : String) (lines : List (Options × Assignment)) : List (Options × Assignment) :=
  sinceAssigned (linesOf key lines)

theorem getLast?_sinceAssigned (lines : List (Options × Assignment)) :
    (sinceAssigned lines).getLast? = lines.getLast? := by
  induction lines with
  | nil => rfl
  | cons line rest ih =>
    rw [sinceAssigned]
    split
    · rfl
    · next hplain =>
      -- There is a plain assignment behind the line.
      have hrest : rest ≠ [] := by
        rintro rfl
        exact hplain rfl
      rw [ih, List.getLast?_cons_of_ne_nil hrest]

theorem lines_unqueued_cons (content : List Char) (o : Options)
    (rest : List (List Char × Options)) :
    lines false ((content, o) :: rest) =
      (assignments o content).map (fun a => (o, a)) ++ lines false rest := by
  simp [lines]

/-! ## Records -/

section run

variable (files : Snapshot) {o : Options} (hoverwrite : o.overwrite = true)
include hoverwrite

/-- **Step.** A line records its names for its key, whether it appends or not. -/
theorem tracker_run_stepOf (a : Assignment) (s : Session) :
    ((stepOf o false a).run files s).tracker = s.tracker.define a.key (a.names o) := by
  unfold stepOf
  rw [Bool.false_and, if_neg Bool.false_ne_true]
  split
  · rfl
  · unfold Step.run Session.defineUnless
    rw [hoverwrite]
    rfl

/-- **Run.** After a file the definition of a key is that of its last line, if there is one. -/
theorem definitions_steps (content : List Char) (s : Session) (key : String) :
    (s.runAll files (Conf.steps o content false)).tracker.definitions.get? key =
      ((linesOf key ((assignments o content).map fun a => (o, a))).getLast?.map
        definitionOf).or (s.tracker.definitions.get? key) := by
  unfold Conf.steps
  rw [Session.runAll_within]
  show (Tracker.leave _).definitions.get? key = _
  rw [Tracker.leave_eq]
  show (Session.tracker _).definitions.get? key = _
  rw [Session.definitions_runAll_defines files fun a _ s => tracker_run_stepOf files hoverwrite a s]
  unfold linesOf
  rw [List.filter_map, List.getLast?_map, Option.map_map]
  rfl

end run

/-- **Run.** After files that overwrite what is there, the definition of a key is that of its
    last line in all of them, if there is one. -/
theorem definitions_program (files : Snapshot) {texts : List (List Char × Options)}
    (hoverwrite : ∀ text ∈ texts, text.2.overwrite = true) (s : Session) (key : String) :
    (s.runAll files (program (confs texts))).tracker.definitions.get? key =
      ((linesOf key (lines false texts)).getLast?.map definitionOf).or
        (s.tracker.definitions.get? key) := by
  induction texts generalizing s with
  | nil => rfl
  | cons text rest ih =>
    obtain ⟨content, o⟩ := text
    obtain ⟨htext, hrest⟩ := List.forall_mem_cons.mp hoverwrite
    have hprogram : program (confs ((content, o) :: rest)) =
        Conf.steps o content false ++ program (confs rest) := rfl
    rw [hprogram, Session.runAll_append, ih hrest, definitions_steps files htext,
      lines_unqueued_cons]
    unfold linesOf
    rw [List.filter_append, List.getLast?_append, Option.map_or, Option.or_assoc]

/-! ## Coverage -/

/-- Whether every name that one of the lines refers to is among the dependencies. -/
def Covers (d : Definition) (lines : List (Options × Assignment)) : Prop :=
  ∀ line ∈ lines, ∀ name ∈ line.2.names line.1, name ∈ d.dependencies

/-- **The definition of a key is that of its last line.** Apply assignment files that overwrite
    what is there, without a queue, and take the lines that the value of a key comes from. The
    definition of the key is the one that is recorded for the last of them, in the context of
    its file and with the names that it refers to. So the dependencies cover all these lines
    exactly if they cover the others. -/
theorem definition_of_last_line (files : Snapshot) (texts : List (List Char × Options))
    (hoverwrite : ∀ text ∈ texts, text.2.overwrite = true) {s : Session}
    (hqueue : s.queue = none) :
    ∃ s', s.processAll files (confs texts) = .ok s' ∧
      ∀ key front last, makers key (lines false texts) = front ++ [last] →
        ∃ d, s'.tracker.definitions.get? key = some d ∧
          d.context = last.1.contextName "conf" ∧ d.dependencies = last.2.names last.1 ∧
          (Covers d (makers key (lines false texts)) ↔ Covers d front) := by
  refine ⟨_, Session.processAll_eq files hqueue _, ?_⟩
  intro key front last hmakers
  have hlast : (linesOf key (lines false texts)).getLast? = some last := by
    rw [← getLast?_sinceAssigned, show sinceAssigned _ = front ++ [last] from hmakers,
      List.getLast?_concat]
  refine ⟨definitionOf last, ?_, rfl, rfl, ?_⟩
  · rw [definitions_program files hoverwrite, hlast]
    rfl
  · rw [hmakers]
    unfold Covers
    simp only [List.forall_mem_append, List.forall_mem_singleton]
    exact and_iff_left fun name hname => hname

/-- A list that is made in two files, the second of which refers to all that the first does. -/
theorem definition_of_last_line_of_covered :
    ∃ s' d, Session.processAll ⟨fun _ => none⟩ (Session.fresh (.nested [] .standard))
        (confs [("log=$user\nlog='$host'\nlog[]=$home".toList, .standard),
          ("log[]=$home/$user".toList, { Options.standard with name := some "site" })]) =
          .ok s' ∧
      s'.tracker.definitions.get? "log" = some d ∧
      d.context = "site" ∧ d.dependencies = ["home", "user"] ∧
      Covers d (makers "log" (lines false
        [("log=$user\nlog='$host'\nlog[]=$home".toList, .standard),
          ("log[]=$home/$user".toList, { Options.standard with name := some "site" })])) := by
  obtain ⟨s', hprocess, hdefinitions⟩ := definition_of_last_line ⟨fun _ => none⟩
    [("log=$user\nlog='$host'\nlog[]=$home".toList, .standard),
      ("log[]=$home/$user".toList, { Options.standard with name := some "site" })]
    (by decide +kernel) (s := Session.fresh (.nested [] .standard)) rfl
  obtain ⟨d, hd, hcontext, hdependencies, hcovers⟩ := hdefinitions "log"
    [(.standard, ⟨"log", false, "$host".toList, some '\''⟩),
      (.standard, ⟨"log", true, "$home".toList, none⟩)]
    ({ Options.standard with name := some "site" }, ⟨"log", true, "$home/$user".toList, none⟩)
    (by decide +kernel)
  have hnames : d.dependencies = ["home", "user"] := hdependencies.trans (by decide +kernel)
  refine ⟨s', d, hprocess, hd, hcontext.trans (by decide +kernel), hnames, hcovers.mpr ?_⟩
  unfold Covers
  rw [hnames]
  decide +kernel

/-- **A list keeps more than its definition says.** Of two append lines the first refers to a
    name. What was read under the name is still in the list, but the name is not among its
    dependencies. -/
theorem append_forgets_names :
    ∃ first last s' d,
      makers "a" (lines false [("x=v\nA[]=$x\nA[]=1\n".toList, .standard)]) = [first, last] ∧
      "x" ∈ first.2.names first.1 ∧
      Session.processAll ⟨fun _ => none⟩ (Session.fresh (.nested [] .standard))
        (confs [("x=v\nA[]=$x\nA[]=1\n".toList, .standard)]) = .ok s' ∧
      s'.store.get? "a" = some (.array [.string "v", .number (.int 1 (by decide))]) ∧
      s'.tracker.definitions.get? "a" = some d ∧
      "x" ∉ d.dependencies := by
  refine ⟨(.standard, ⟨"a", true, "$x".toList, none⟩), (.standard, ⟨"a", true, "1".toList, none⟩),
    _, ⟨"<conf>", []⟩, by decide +kernel, by decide +kernel,
    Session.processAll_eq _ rfl _, by decide +kernel, by decide +kernel, by decide +kernel⟩

end LayeredConfig.Source.Conf
