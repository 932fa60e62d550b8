import LayeredConfig.Proofs.WrittenScalars

/-! # Texts between quotes on a line

    A line assigns a text to a name. Between single quotes the text is taken as it is, whatever
    stands in it but a line feed. Between double quotes its references are expanded, and the
    outcome is a text still. Without quotes it is expanded and then typed; for this it must
    have no blanks around it and must not look quoted itself.

    The first equals sign ends the name, since an identifier has none in it. Equals signs,
    number signs and quotes behind it are part of the text, and a text that ends with the same
    quote that it begins with loses these two only.

    **Main result.** `line_stores_text`.
-/

namespace LayeredConfig.Source.Conf

open LayeredConfig.Conf Reference

/-- Whether a text, loaded as an assignment file, writes a value under a key and nothing else,
    so that the key reads the value and is recorded as made from the names. -/
def Stores (files : Snapshot) (content : List Char) (s : Session) (key : String) (v : Value)
    (names : List String) : Prop :=
  (Source.conf content .standard).process files s = .ok (assigned s key v names) ∧
    (assigned s key v names).store.get? key = some v ∧
    (assigned s key v names).tracker.definitions.get? key = some ⟨"<conf>", names⟩

theorem definitions_assigned (s : Session) (key : String) (v : Value) (names : List String) :
    (assigned s key v names).tracker.definitions.get? key = some ⟨"<conf>", names⟩ := by
  unfold assigned
  dsimp only
  rw [Tracker.leave_eq]
  exact Entries.get?_insert_self _ _ _

/-! ## What the three forms assign -/

section forms

variable (name : String) (t : List Char)

theorem wordAssignment_single :
    wordAssignment name ('\'' :: (t ++ ['\''])) = ⟨assignedKey name, false, t, some '\''⟩ := by
  unfold wordAssignment
  rw [Text.trim_quoted (by decide), Scalar.unquote_single]

theorem wordAssignment_double :
    wordAssignment name ('"' :: (t ++ ['"'])) = ⟨assignedKey name, false, t, some '"'⟩ := by
  unfold wordAssignment
  rw [Text.trim_quoted (by decide), Scalar.unquote_double]

/-- Whether a text begins and ends with the same quote, in two places. -/
def LooksQuoted (t : List Char) : Prop :=
  ∃ q inner, (q = '\'' ∨ q = '"') ∧ t = q :: (inner ++ [q])

theorem wordAssignment_bare {t : List Char} (htrim : Text.trim t = t) (hbare : ¬ LooksQuoted t) :
    wordAssignment name t = ⟨assignedKey name, false, t, none⟩ := by
  have hunquote : Scalar.unquote Options.standard.quotes t = (t, none) := by
    rcases Scalar.unquote_cases t with hnone | ⟨q, inner, hq, hquoted, _⟩
    · exact hnone
    · exact absurd ⟨q, inner, hq, hquoted⟩ hbare
  unfold wordAssignment
  rw [htrim, hunquote]

end forms

/-! ## Lines -/

/-- A line stores the value of what it assigns, under the name in lower case. -/
theorem stores_word (files : Snapshot) {name : String} (hname : IsIdentifier name)
    (hsingle : ¬ Doubled name) {s : Session} (hqueue : s.queue = none) {text : List Char}
    (hline : '\n' ∉ text) {a : Assignment} (ha : wordAssignment name text = a) :
    Stores files (name.toList ++ '=' :: text) s (Text.lower name)
      ((a.formula .standard).value s.store) (a.formula .standard).names := by
  have hprocess := process_word files hname hline hqueue
  rw [assignedKey_of_single hname.words hsingle, ha] at hprocess
  have hscalar : ((a.formula .standard).value s.store).IsScalar := a.isScalar_valueOf .standard _
  exact ⟨hprocess, Store.get?_set_of_isScalar s.store _ hscalar, definitions_assigned ..⟩

/-- **The law of quotes.** Let a name be an identifier without two underscores in a row, and a
    text without a line feed; there is no queue. Between single quotes the text itself is
    stored, and it is made from nothing. Between double quotes the text with its references
    expanded is stored, as a text, and it is made from their names. Without quotes, if the text
    has no blanks around it and does not look quoted, the expanded text is typed. -/
theorem line_stores_text (files : Snapshot) {name : String} (hname : IsIdentifier name)
    (hsingle : ¬ Doubled name) {t : List Char} (hline : '\n' ∉ t) {s : Session}
    (hqueue : s.queue = none) :
    Stores files (name.toList ++ '=' :: '\'' :: (t ++ ['\''])) s (Text.lower name)
      (.string (String.ofList t)) [] ∧
    Stores files (name.toList ++ '=' :: '"' :: (t ++ ['"'])) s (Text.lower name)
      (.string (String.ofList (expandShell s.store true t).text))
      (expandShell s.store true t).names ∧
    (Text.trim t = t → ¬ LooksQuoted t →
      Stores files (name.toList ++ '=' :: t) s (Text.lower name)
        (Scalar.typed (expandShell s.store true t).text) (expandShell s.store true t).names) := by
  have hquoted : ∀ q, q ≠ '\n' → '\n' ∉ q :: (t ++ [q]) := by
    intro q hq
    simp [hline, Ne.symm hq]
  refine ⟨?single, ?double, fun htrim hbare => ?bare⟩
  case single =>
    exact stores_word files hname hsingle hqueue (hquoted _ (by decide))
      (wordAssignment_single name t)
  case double =>
    exact stores_word files hname hsingle hqueue (hquoted _ (by decide))
      (wordAssignment_double name t)
  case bare =>
    exact stores_word files hname hsingle hqueue hline (wordAssignment_bare name htrim hbare)

/-- A text with all kinds of signs in it and blanks around it, between quotes, and one without
    blanks around it that begins with a quote. -/
theorem line_stores_text_of_signs :
    Stores ⟨fun _ => none⟩ "NAME=' it's = \"$X\" # '".toList
      (Session.fresh (.flat [("x", .string "5")])) "name" (.string " it's = \"$X\" # ") [] ∧
    Stores ⟨fun _ => none⟩ "NAME=\" it's = \"$X\" # \"".toList
      (Session.fresh (.flat [("x", .string "5")])) "name" (.string " it's = \"5\" # ") ["x"] ∧
    Stores ⟨fun _ => none⟩ "NAME='$X' = #$X".toList
      (Session.fresh (.flat [("x", .string "5")])) "name" (.string "'5' = #5") ["x"] := by
  have hname : IsIdentifier "NAME" := ⟨'N', "AME".toList, by decide, by decide, by decide⟩
  obtain ⟨hliteral, hexpanded, _⟩ := line_stores_text ⟨fun _ => none⟩ hname (by decide)
    (t := " it's = \"$X\" # ".toList) (by decide)
    (s := Session.fresh (.flat [("x", .string "5")])) rfl
  obtain ⟨_, _, hbare⟩ := line_stores_text ⟨fun _ => none⟩ hname (by decide)
    (t := "'$X' = #$X".toList) (by decide)
    (s := Session.fresh (.flat [("x", .string "5")])) rfl
  have hunquoted : ¬ LooksQuoted "'$X' = #$X".toList := by
    rintro ⟨q, inner, _, heq⟩
    have hlast := congrArg List.getLast? heq
    rw [← List.cons_append, List.getLast?_concat] at hlast
    have hfirst := (List.cons.inj heq).1
    rw [← hfirst] at hlast
    exact absurd hlast (by decide)
  have hlower : Text.lower "NAME" = "name" := by decide +kernel
  have hinside : expandShell (.flat [("x", .string "5")]) true " it's = \"$X\" # ".toList =
      ⟨" it's = \"5\" # ".toList, ["x"]⟩ := by decide +kernel
  have hwhole : expandShell (.flat [("x", .string "5")]) true "'$X' = #$X".toList =
      ⟨"'5' = #5".toList, ["x"]⟩ := by decide +kernel
  have htyped : Scalar.typed "'5' = #5".toList = .string "'5' = #5" := by decide +kernel
  have hstored := hbare (by decide) hunquoted
  rw [hlower] at hliteral hexpanded hstored
  refine ⟨hliteral, ?_, ?_⟩
  · rw [show (Session.fresh (.flat [("x", .string "5")])).store =
      .flat [("x", .string "5")] from rfl, hinside] at hexpanded
    exact hexpanded
  · rw [show (Session.fresh (.flat [("x", .string "5")])).store =
      .flat [("x", .string "5")] from rfl, hwhole, htyped] at hstored
    exact hstored

end LayeredConfig.Source.Conf
