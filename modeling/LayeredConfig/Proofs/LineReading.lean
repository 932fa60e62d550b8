import LayeredConfig.Conf.Assignment
import LayeredConfig.Edit.Conf
import LayeredConfig.Proofs.PlainKeys
import Mathlib.Data.List.TakeWhile

/-! # Reading lines that were written

    Lines that are written to a text are found again as its lines, but for a carriage
    return at the end of one, which is blank and so does not count. A line that was made
    from a key, an equals sign and a text is read as an assignment of the text to the key.

    Both the reader and the editor ask of a line which key it assigns, the one in lower
    case and with its marks of nesting rewritten, the other as it is spelled. For plain
    keys they give the same answer.

    **Main results.** `lines_unlines`, `ofLine?_start` and `key_ofLine?_iff`.
-/

namespace LayeredConfig

/-! ## Lines of a text -/

namespace Text

/-- A line without the carriage return at its end. -/
def dropReturn (line : List Char) : List Char :=
  if line.getLast? = some '\r' then line.dropLast else line

theorem lines_cons {c : Char} {rest : List Char} (hnewline : c ≠ '\n')
    (hreturn : c = '\r' → rest.head? ≠ some '\n') :
    lines (c :: rest) = consFirst c (lines rest) := by
  rw [lines.eq_4]
  · intro heq
    exact hnewline heq
  · intro after hc hrest
    apply hreturn hc
    rw [hrest]
    rfl

theorem lines_append_newline {line : List Char} (h : '\n' ∉ line) (rest : List Char) :
    lines (line ++ '\n' :: rest) = dropReturn line :: lines rest := by
  induction line with
  | nil => rfl
  | cons c more ih =>
    have hc : c ≠ '\n' := fun heq => h (heq ▸ List.mem_cons_self)
    have hmore : '\n' ∉ more := fun hmem => h (List.mem_cons_of_mem c hmem)
    by_cases hlast : c = '\r' ∧ more = []
    · obtain ⟨rfl, rfl⟩ := hlast
      rfl
    · have hreturn : c = '\r' → (more ++ '\n' :: rest).head? ≠ some '\n' := by
        intro heq hhead
        cases more with
        | nil => exact hlast ⟨heq, rfl⟩
        | cons d _ => exact hmore (by simp_all)
      rw [List.cons_append, lines_cons hc hreturn, ih hmore]
      unfold dropReturn
      cases more with
      | nil =>
        have hne : c ≠ '\r' := fun heq => hlast ⟨heq, rfl⟩
        simp [consFirst, hne]
      | cons d _ =>
        simp only [List.getLast?_cons_cons, List.dropLast_cons_cons]
        split <;> rfl

/-- A line without a line feed is a text of one line. -/
theorem lines_of_not_mem {line : List Char} (hne : line ≠ []) (h : '\n' ∉ line) :
    lines line = [line] := by
  induction line with
  | nil => exact absurd rfl hne
  | cons c rest ih =>
    have hc : c ≠ '\n' := fun heq => h (heq ▸ List.mem_cons_self)
    have hrest : '\n' ∉ rest := fun hmem => h (List.mem_cons_of_mem c hmem)
    have hreturn : c = '\r' → rest.head? ≠ some '\n' :=
      fun _ hhead => hrest (List.mem_of_mem_head? hhead)
    rw [lines_cons hc hreturn]
    by_cases hnil : rest = []
    · subst hnil
      rfl
    · rw [ih hnil hrest]
      rfl

/-- No line holds a line feed. -/
theorem newline_not_mem_of_mem_lines {cs line : List Char} (h : line ∈ lines cs) :
    '\n' ∉ line := by
  induction cs using lines.induct generalizing line with
  | case1 => exact nomatch h
  | case2 rest ih =>
    rw [lines_newline, List.mem_cons] at h
    rcases h with rfl | h
    · simp
    · exact ih h
  | case3 rest ih =>
    rw [lines.eq_3, List.mem_cons] at h
    rcases h with rfl | h
    · simp
    · exact ih h
  | case4 c rest hc hreturn ih =>
    rw [lines.eq_4 _ _ hc hreturn] at h
    cases hlines : lines rest with
    | nil =>
      rw [hlines] at h
      rw [List.mem_singleton.mp h, List.mem_singleton]
      exact fun heq => hc heq.symm
    | cons first more =>
      rw [hlines, consFirst, List.mem_cons] at h
      rcases h with rfl | h
      · have hfirst : '\n' ∉ first := ih (by simp [hlines])
        rw [List.mem_cons, not_or]
        exact ⟨fun heq => hc heq.symm, hfirst⟩
      · exact ih (by simp [hlines, h])

/-- A text is made of its lines, so a character of a line is one of the text. -/
theorem mem_of_mem_lines {cs line : List Char} (h : line ∈ lines cs) : ∀ c ∈ line, c ∈ cs := by
  induction cs using lines.induct generalizing line with
  | case1 => exact nomatch h
  | case2 rest ih =>
    rw [lines_newline, List.mem_cons] at h
    intro c hc
    rcases h with rfl | h
    · exact nomatch hc
    · exact List.mem_cons_of_mem _ (ih h c hc)
  | case3 rest ih =>
    rw [lines.eq_3, List.mem_cons] at h
    intro c hc
    rcases h with rfl | h
    · exact nomatch hc
    · exact List.mem_cons_of_mem _ (List.mem_cons_of_mem _ (ih h c hc))
  | case4 d rest hd hreturn ih =>
    rw [lines.eq_4 _ _ hd hreturn] at h
    intro c hc
    cases hlines : lines rest with
    | nil =>
      rw [hlines] at h
      rw [List.mem_singleton.mp h, List.mem_singleton] at hc
      exact hc ▸ List.mem_cons_self
    | cons first more =>
      rw [hlines, consFirst, List.mem_cons] at h
      rcases h with rfl | h
      · rcases List.mem_cons.mp hc with rfl | hc
        · exact List.mem_cons_self
        · have hfirst : first ∈ lines rest := by simp [hlines]
          exact List.mem_cons_of_mem _ (ih hfirst c hc)
      · exact List.mem_cons_of_mem _ (ih (by simp [hlines, h]) c hc)

/-! ## Trimming -/

/-- Blanks at the end do not count. -/
theorem trimEnd_append_of_blank {blanks : List Char} (h : ∀ c ∈ blanks, isBlank c = true)
    (cs : List Char) : trimEnd (cs ++ blanks) = trimEnd cs := by
  unfold trimEnd
  rw [List.reverse_append, List.dropWhile_append_of_pos]
  intro c hc
  exact h c (List.mem_reverse.mp hc)

theorem trimStart_of_blank {cs : List Char} (h : ∀ c ∈ cs, isBlank c = true) :
    trimStart cs = [] := by
  unfold trimStart
  rw [List.dropWhile_eq_nil_iff]
  exact h

/-- Blanks at the end of a text stay there when its beginning is trimmed, unless all of it is
    blank. -/
theorem exists_trimStart_append {blanks : List Char} (h : ∀ c ∈ blanks, isBlank c = true)
    (cs : List Char) :
    ∃ left, (∀ c ∈ left, isBlank c = true) ∧ trimStart (cs ++ blanks) = trimStart cs ++ left := by
  by_cases hcs : ∀ c ∈ cs, isBlank c = true
  · refine ⟨[], nofun, ?_⟩
    rw [trimStart_of_blank hcs, trimStart_of_blank (List.forall_mem_append.mpr ⟨hcs, h⟩),
      List.append_nil]
  · refine ⟨blanks, h, ?_⟩
    unfold trimStart
    rw [List.dropWhile_append, if_neg]
    rwa [List.isEmpty_iff, List.dropWhile_eq_nil_iff]

theorem trim_append_of_blank {blanks : List Char} (h : ∀ c ∈ blanks, isBlank c = true)
    (cs : List Char) : trim (cs ++ blanks) = trim cs := by
  obtain ⟨left, hleft, hstart⟩ := exists_trimStart_append h cs
  unfold trim
  rw [hstart, trimEnd_append_of_blank hleft]

/-- What trimming takes off the end is blank. -/
theorem exists_trimEnd_append (cs : List Char) :
    ∃ blanks, cs = trimEnd cs ++ blanks ∧ ∀ c ∈ blanks, isBlank c = true := by
  refine ⟨(cs.reverse.takeWhile isBlank).reverse, ?_, ?_⟩
  · unfold trimEnd
    rw [← List.reverse_append, List.takeWhile_append_dropWhile, List.reverse_reverse]
  · intro c hc
    exact List.mem_takeWhile_imp (List.mem_reverse.mp hc)

theorem trim_trimEnd (cs : List Char) : trim (trimEnd cs) = trim cs := by
  obtain ⟨blanks, hcs, hblanks⟩ := exists_trimEnd_append cs
  conv_rhs => rw [hcs]
  rw [trim_append_of_blank hblanks]

theorem trimStart_cons_of_not_blank {c : Char} (h : isBlank c = false) (rest : List Char) :
    trimStart (c :: rest) = c :: rest := by
  unfold trimStart
  rw [List.dropWhile_cons_of_neg (by simp [h])]

theorem trimStart_cons_of_blank {c : Char} (h : isBlank c = true) (rest : List Char) :
    trimStart (c :: rest) = trimStart rest := by
  unfold trimStart
  rw [List.dropWhile_cons_of_pos h]

/-- Trimming the end goes no further than to a character that is not blank. -/
theorem trimEnd_append_cons {c : Char} (h : isBlank c = false) (front rest : List Char) :
    trimEnd (front ++ c :: rest) = front ++ c :: trimEnd rest := by
  unfold trimEnd
  rw [List.reverse_append, List.reverse_cons, List.append_assoc, List.dropWhile_append]
  split
  · next hnil =>
    rw [List.isEmpty_iff] at hnil
    rw [hnil, List.singleton_append, List.dropWhile_cons_of_neg (by simp [h])]
    simp
  · simp

theorem trimEnd_of_last {front : List Char} {c : Char} (h : isBlank c = false) :
    trimEnd (front ++ [c]) = front ++ [c] := trimEnd_append_cons h front []

/-- A text that neither begins nor ends with a blank is left as it is. -/
theorem trim_eq_self {cs : List Char} (hfirst : ∀ c ∈ cs.head?, isBlank c = false)
    (hlast : ∀ c ∈ cs.getLast?, isBlank c = false) : trim cs = cs := by
  cases cs with
  | nil => rfl
  | cons c rest =>
    unfold trim
    rw [trimStart_cons_of_not_blank (hfirst c rfl)]
    obtain ⟨front, d, hfront⟩ := (List.eq_nil_or_concat (c :: rest)).resolve_left (by simp)
    rw [List.concat_eq_append] at hfront
    rw [hfront] at hlast ⊢
    exact trimEnd_of_last (hlast d (by simp))

/-- Nothing is left of a text where all of it is blank. -/
theorem trim_eq_nil_iff {cs : List Char} : trim cs = [] ↔ ∀ c ∈ cs, isBlank c = true := by
  constructor
  · intro h
    rw [← List.takeWhile_append_dropWhile (p := isBlank) (l := cs)]
    cases hstart : cs.dropWhile isBlank with
    | nil =>
      rw [List.append_nil]
      exact fun c hc => List.mem_takeWhile_imp hc
    | cons c rest =>
      -- What is left at the beginning is not blank, so it would be left in the end.
      have hc : isBlank c = false := by
        have hne : cs.dropWhile isBlank ≠ [] := by simp [hstart]
        simpa [hstart] using List.head_dropWhile_not isBlank hne
      have hend := trimEnd_append_cons hc [] rest
      unfold trim trimStart at h
      rw [hstart] at h
      rw [List.nil_append, h] at hend
      exact nomatch hend
  · intro h
    unfold trim
    rw [trimStart_of_blank h]
    rfl

/-- What is dropped with a carriage return is blank. -/
theorem exists_dropReturn_append (line : List Char) :
    ∃ blanks, (∀ c ∈ blanks, isBlank c = true) ∧ line = dropReturn line ++ blanks := by
  unfold dropReturn
  split
  · next hlast =>
    obtain ⟨front, rfl⟩ := List.getLast?_eq_some_iff.mp hlast
    exact ⟨['\r'], List.forall_mem_singleton.mpr rfl, by rw [List.dropLast_concat]⟩
  · exact ⟨[], nofun, (List.append_nil line).symm⟩

/-- A carriage return at the end of a line does not count. -/
theorem trim_dropReturn (line : List Char) : trim (dropReturn line) = trim line := by
  obtain ⟨blanks, hblanks, hline⟩ := exists_dropReturn_append line
  conv_rhs => rw [hline]
  rw [trim_append_of_blank hblanks]

end Text

/-! ## Texts of lines -/

namespace Edit.Conf

/-- **Lines are found again** where they were written, without the carriage returns at
    their ends. A single empty line is not. -/
theorem lines_unlines {lines : List (List Char)} (h : ∀ line ∈ lines, '\n' ∉ line)
    (hempty : lines ≠ [[]]) : Text.lines (unlines lines) = lines.map Text.dropReturn := by
  have hjoined : lines ≠ [] →
      Text.lines (Text.join ['\n'] lines ++ ['\n']) = lines.map Text.dropReturn := by
    clear hempty
    induction lines with
    | nil => exact fun hne => absurd rfl hne
    | cons line rest ih =>
      intro _
      have hline := h line List.mem_cons_self
      have hrest := ih fun l hl => h l (List.mem_cons_of_mem line hl)
      by_cases hnil : rest = []
      · subst hnil
        show Text.lines (line ++ ['\n']) = _
        rw [Text.lines_append_newline hline]
        rfl
      · rw [Text.join_cons _ _ hnil, List.append_assoc, List.append_assoc, List.singleton_append,
          Text.lines_append_newline hline, hrest hnil, List.map_cons]
  by_cases hnil : lines = []
  · subst hnil
    rfl
  · have hne : Text.join ['\n'] lines ≠ [] := by
      intro heq
      obtain ⟨line, rest, hlines⟩ := List.exists_cons_of_ne_nil hnil
      rw [hlines] at heq
      cases rest with
      | nil =>
        have hline : line = [] := heq
        exact hempty (by rw [hlines, hline])
      | cons next more =>
        rw [Text.join_cons _ _ (by simp)] at heq
        simp at heq
    unfold unlines
    dsimp only
    rw [if_neg (by simpa using hne)]
    exact hjoined hnil

end Edit.Conf

/-! ## Logical lines -/

namespace Conf

/-- A line that continues none begins a logical line. -/
theorem foldLines_append_cons {line : List Char} (h : isContinuation line = false)
    (front rest : List (List Char)) :
    foldLines (front ++ line :: rest) = foldLines front ++ foldFrom line rest := by
  have hfrom : ∀ (front : List (List Char)) (current : List Char),
      foldFrom current (front ++ line :: rest) = foldFrom current front ++ foldFrom line rest := by
    intro front
    induction front with
    | nil =>
      intro current
      rw [List.nil_append, foldFrom.eq_2, h, if_neg Bool.false_ne_true]
      rfl
    | cons next more ih =>
      intro current
      rw [List.cons_append, foldFrom.eq_2, foldFrom.eq_2]
      split
      · exact ih _
      · rw [ih next, List.cons_append]
  cases front with
  | nil => rfl
  | cons first more => exact hfrom more first

theorem foldLines_eq_self {lines : List (List Char)}
    (h : ∀ line ∈ lines, isContinuation line = false) : foldLines lines = lines := by
  cases lines with
  | nil => rfl
  | cons first rest =>
    have hrest : ∀ line ∈ rest, isContinuation line = false :=
      fun line hline => h line (List.mem_cons_of_mem first hline)
    show foldFrom first rest = first :: rest
    clear h
    induction rest generalizing first with
    | nil => rfl
    | cons line more ih =>
      unfold foldFrom
      rw [hrest line List.mem_cons_self, if_neg Bool.false_ne_true,
        ih line fun l hl => hrest l (List.mem_cons_of_mem line hl)]

theorem isContinuation_dropReturn (line : List Char) :
    isContinuation (Text.dropReturn line) = isContinuation line := by
  unfold Text.dropReturn
  split
  · next hlast =>
    cases line with
    | nil => rfl
    | cons c rest =>
      cases rest with
      | nil =>
        obtain rfl : c = '\r' := by simpa using hlast
        rfl
      | cons d more => rfl
  · rfl

end Conf

/-! ## Lines that were put together -/

namespace Conf

/-- What a line begins with. -/
def startOf (exported : Bool) (key : List Char) : List Char :=
  if exported then exportWord ++ ' ' :: key else key

/-- A text that can be found again in front of the equals sign of a line, perhaps behind the
    export word. -/
structure IsKeyText (exported : Bool) (key : List Char) : Prop where
  equals : '=' ∉ key
  first : ∀ c ∈ key.head?, Text.isBlank c = false
  hash : exported = false → key.head? ≠ some '#'
  word : exported = false → ∀ c, (c = ' ' ∨ c = '\t') → ¬ exportWord ++ [c] <+: key

/-- A text without blanks, in which nothing means something in a line. -/
structure IsLineKey (key : List Char) : Prop where
  nonempty : key ≠ []
  apart : ∀ c ∈ key, Text.isBlank c = false ∧ c ≠ '=' ∧ c ≠ '#'

theorem IsLineKey.isKeyText {key : List Char} (h : IsLineKey key) (exported : Bool) :
    IsKeyText exported key where
  equals hmem := (h.apart _ hmem).2.1 rfl
  first c hc := (h.apart c (List.mem_of_mem_head? hc)).1
  hash _ hhead := (h.apart _ (List.mem_of_mem_head? hhead)).2.2 rfl
  word _ c hc hword := by
    have hblank := (h.apart c (hword.subset (by simp))).1
    rcases hc with rfl | rfl
    · exact absurd hblank (by decide)
    · exact absurd hblank (by decide)

theorem isContinuation_iff {line : List Char} :
    isContinuation line = true ↔ ∃ c rest, line = c :: rest ∧ (c = ' ' ∨ c = '\t') := by
  cases line with
  | nil => simp [isContinuation]
  | cons c rest => simp [isContinuation]

/-- A word goes no further than to the first character that is not in it. -/
theorem prefix_of_prefix_append {word front back : List Char} (h : word <+: front ++ back)
    (hback : ∀ c ∈ back.head?, c ∉ word) : word <+: front := by
  obtain ⟨more, hmore⟩ := h
  rcases List.append_eq_append_iff.mp hmore with ⟨inner, hfront, _⟩ | ⟨inner, hword, hrest⟩
  · exact ⟨inner, hfront.symm⟩
  · cases inner with
    | nil => exact ⟨[], by rw [hword, List.append_nil, List.append_nil]⟩
    | cons c _ =>
      have hhead : c ∈ back.head? := by rw [hrest]; rfl
      exact absurd (by rw [hword]; simp) (hback c hhead)

/-- The export word is taken off where a space or a tab follows it. -/
theorem takeExport_of_word {c : Char} (h : c = ' ' ∨ c = '\t') (rest : List Char) :
    takeExport (exportWord ++ c :: rest) = (true, Text.trimStart (c :: rest)) := by
  have hword : exportWord.isPrefixOf? (exportWord ++ c :: rest) = some (c :: rest) := by
    rw [List.isPrefixOf?_eq_some_iff_append_eq]
  have hblank : isContinuation (c :: rest) = true := isContinuation_iff.mpr ⟨c, rest, rfl, h⟩
  unfold takeExport
  rw [hword]
  exact if_pos hblank

/-- A line that does not begin with the word stays as it is. -/
theorem takeExport_of_none {line : List Char}
    (h : ∀ c, (c = ' ' ∨ c = '\t') → ¬ exportWord ++ [c] <+: line) :
    takeExport line = (false, line) := by
  unfold takeExport
  split
  · next rest hword =>
    rw [List.isPrefixOf?_eq_some_iff_append_eq] at hword
    rw [if_neg]
    intro hblank
    obtain ⟨c, more, rfl, hc⟩ := isContinuation_iff.mp hblank
    exact h c hc ⟨more, by rw [← hword]; simp⟩
  · rfl

section start

variable {exported : Bool} {key : List Char} (hkey : IsKeyText exported key)
include hkey

/-- A key and what follows it in a line begin with no blank. -/
theorem trimStart_key (text : List Char) :
    Text.trimStart (key ++ '=' :: text) = key ++ '=' :: text := by
  cases key with
  | nil => exact Text.trimStart_cons_of_not_blank (by decide) text
  | cons c rest => exact Text.trimStart_cons_of_not_blank (hkey.first c rfl) _

/-- The export word is found where it was written, and nowhere else. -/
theorem takeExport_start (text : List Char) :
    takeExport (startOf exported key ++ '=' :: text) = (exported, key ++ '=' :: text) := by
  cases exported with
  | true =>
    have hline : startOf true key ++ '=' :: text = exportWord ++ ' ' :: (key ++ '=' :: text) := by
      simp [startOf]
    rw [hline, takeExport_of_word (.inl rfl), Text.trimStart_cons_of_blank (by decide),
      trimStart_key hkey]
  | false =>
    apply takeExport_of_none
    intro c hc hword
    -- There is no equals sign in the word, so all of it is in the key.
    apply hkey.word rfl c hc
    apply prefix_of_prefix_append hword
    intro d hd
    obtain rfl := Option.some.inj hd
    rcases hc with rfl | rfl
    · decide
    · decide

/-- A line that was put together begins with neither a blank nor a hash sign. -/
theorem exists_start (text : List Char) : ∃ c rest,
    startOf exported key ++ '=' :: text = c :: rest ∧ Text.isBlank c = false ∧ c ≠ '#' := by
  cases exported with
  | true => exact ⟨'e', _, rfl, by decide, by decide⟩
  | false =>
    cases key with
    | nil => exact ⟨'=', text, rfl, by decide, by decide⟩
    | cons c rest =>
      exact ⟨c, _, rfl, hkey.first c rfl, fun heq => hkey.hash rfl (congrArg some heq)⟩

/-- A line that was put together has the parts that it was made from. -/
theorem parts?_start (text : List Char) :
    parts? '=' (startOf exported key ++ '=' :: text) =
      some ⟨exported, key, Text.trimEnd text⟩ := by
  obtain ⟨c, rest, hline, hblank, hhash⟩ := exists_start hkey text
  have htrim : Text.trim (startOf exported key ++ '=' :: text) =
      startOf exported key ++ '=' :: Text.trimEnd text := by
    unfold Text.trim
    rw [hline, Text.trimStart_cons_of_not_blank hblank, ← hline,
      Text.trimEnd_append_cons (by decide)]
  have hsilent : isSilent (startOf exported key ++ '=' :: Text.trimEnd text) = false := by
    rw [← htrim]
    unfold Text.trim
    rw [hline, Text.trimStart_cons_of_not_blank hblank]
    have hhead := Text.trimEnd_append_cons hblank [] rest
    rw [List.nil_append, List.nil_append] at hhead
    rw [hhead]
    exact beq_eq_false_iff_ne.mpr hhash
  unfold parts?
  dsimp only
  rw [htrim, hsilent, if_neg Bool.false_ne_true, takeExport_start hkey]
  dsimp only
  rw [Text.cutAt_eq_some_iff.mpr ⟨rfl, hkey.equals⟩]
  rfl

end start

/-- A carriage return at the end of a line changes nothing in it. -/
theorem ofLine?_dropReturn (o : Options) (line : List Char) :
    Assignment.ofLine? o (Text.dropReturn line) = Assignment.ofLine? o line := by
  unfold Assignment.ofLine? parts?
  rw [Text.trim_dropReturn]

/-! ## Which key a line assigns -/

/-- What is read in a line by the standard options: a key, and the text that is left when
    blanks and quotes are taken off. -/
theorem ofLine?_of_parts {k : String} (hk : IsAsciiKey k) {line : List Char} {parts : Parts}
    (hparts : parts? '=' line = some parts) {key : List Char} {append : Bool}
    (hspells : Spells key k) (hkey : takeAppendMark (Text.trim parts.key) = (key, append)) :
    Assignment.ofLine? .standard line =
      some ⟨String.ofList (rewriteNamespace k.toList), append,
        (Scalar.unquote Options.standard.quotes (Text.trim parts.value)).1,
        (Scalar.unquote Options.standard.quotes (Text.trim parts.value)).2⟩ := by
  have hlower := (takeAppendMark_lower_iff hk).mpr ⟨key, hkey, hspells⟩
  unfold Assignment.ofLine?
  rw [show Options.standard.separator = '=' from rfl, hparts]
  simp only [Option.bind_eq_bind, Option.bind_some, Options.standard, if_true] at hlower ⊢
  rw [hlower]
  rfl

section key

variable {k : String} (hk : PlainKey k)
include hk

theorem isLineKey_of_spells {key : List Char} (h : Spells key k) (append : Bool) :
    IsLineKey (if append then key ++ appendMark else key) := by
  have hne := ne_nil_of_spells hk h
  have hapart : ∀ c ∈ key, Text.isBlank c = false ∧ c ≠ '=' ∧ c ≠ '#' := by
    intro c hc
    obtain ⟨hblank, hequals, hhash, _⟩ := isSpellingChar_apart (isSpellingChar_of_spells hk h c hc)
    exact ⟨hblank, hequals, hhash⟩
  cases append with
  | false => exact ⟨hne, hapart⟩
  | true =>
    have hmark : ∀ c ∈ appendMark, Text.isBlank c = false ∧ c ≠ '=' ∧ c ≠ '#' :=
      List.forall_mem_cons.mpr ⟨by decide, List.forall_mem_singleton.mpr (by decide)⟩
    refine ⟨by simp [hne], ?_⟩
    intro c hc
    rcases List.mem_append.mp hc with hc | hc
    · exact hapart c hc
    · exact hmark c hc

/-- **A line that was put together** assigns its text to its key. -/
theorem ofLine?_start {key : List Char} (hspells : Spells key k) (exported append : Bool)
    (text : List Char) :
    Assignment.ofLine? .standard
        (startOf exported (if append then key ++ appendMark else key) ++ '=' :: text) =
      some ⟨k, append, (Scalar.unquote Options.standard.quotes (Text.trim text)).1,
        (Scalar.unquote Options.standard.quotes (Text.trim text)).2⟩ := by
  have hline := isLineKey_of_spells hk hspells append
  have htrim : Text.trim (if append then key ++ appendMark else key) =
      if append then key ++ appendMark else key := by
    apply Text.trim_eq_self
    · intro c hc
      exact (hline.apart c (List.mem_of_mem_head? hc)).1
    · intro c hc
      exact (hline.apart c (List.mem_of_mem_getLast? hc)).1
  have htake : takeAppendMark (if append then key ++ appendMark else key) = (key, append) := by
    rw [takeAppendMark_eq_iff]
    cases append with
    | true => exact .inl ⟨rfl, rfl⟩
    | false =>
      refine .inr ⟨rfl, rfl, fun hends => ?_⟩
      have hbracket := isSpellingChar_of_spells hk hspells '[' (hends.subset (by decide))
      exact absurd hbracket (by decide)
  rw [ofLine?_of_parts hk.isAsciiKey (parts?_start (hline.isKeyText exported) text) hspells
      (htrim.symm ▸ htake),
    hk.rewriteNamespace_eq_iff.mpr rfl, String.ofList_toList, Text.trim_trimEnd]

/-- **The reader and the editor agree** on the lines that assign a plain key. -/
theorem key_ofLine?_iff {line : List Char} :
    (∃ a, Assignment.ofLine? .standard line = some a ∧ a.key = k) ↔
      ∃ exported key, Edit.Conf.assigned? '=' line = some (exported, key) ∧ Spells key k := by
  unfold Edit.Conf.assigned?
  cases hparts : parts? '=' line with
  | none =>
    have hnone : Assignment.ofLine? .standard line = none := by
      unfold Assignment.ofLine?
      rw [show Options.standard.separator = '=' from rfl, hparts]
      rfl
    simp [hnone]
  | some parts =>
    simp only [Option.map_some, Option.some.injEq, Prod.mk.injEq]
    constructor
    · intro hexists
      obtain ⟨a, ha, hkey⟩ := hexists
      -- The reader rewrites the key in lower case, which a plain key goes through unchanged.
      unfold Assignment.ofLine? at ha
      rw [show Options.standard.separator = '=' from rfl, hparts] at ha
      simp only [Option.bind_eq_bind, Option.bind_some, Options.standard, if_true] at ha
      obtain rfl := Option.some.inj ha
      have hrewrite := String.toList_inj.mpr hkey
      rw [String.toList_ofList] at hrewrite
      have htaken := hk.rewriteNamespace_eq_iff.mp hrewrite
      generalize hlower : takeAppendMark (Text.lower (String.ofList (Text.trim parts.key))).toList
        = taken at htaken
      obtain ⟨text, append⟩ := taken
      obtain rfl : text = k.toList := htaken
      obtain ⟨key, htake, hspells⟩ := (takeAppendMark_lower_iff hk.isAsciiKey).mp hlower
      exact ⟨parts.exported, key, ⟨rfl, by rw [htake]⟩, hspells⟩
    · intro hexists
      obtain ⟨exported, key, ⟨_, hkey⟩, hspells⟩ := hexists
      have htake : takeAppendMark (Text.trim parts.key) =
          (key, (takeAppendMark (Text.trim parts.key)).2) := Prod.ext hkey rfl
      refine ⟨_, ofLine?_of_parts hk.isAsciiKey hparts hspells htake, ?_⟩
      rw [hk.rewriteNamespace_eq_iff.mpr rfl, String.ofList_toList]

end key

end Conf

end LayeredConfig
