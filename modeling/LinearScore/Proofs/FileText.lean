import LinearScore.TokenFile
import LinearScore.Proofs.Lines

/-!
# The text of a token file

A file is written in the full form: two lines of header, and for each system the line that opens it
and the line of its tokens.  It is read again as it was just if it has a system, no system is the
single token that opens systems, and no token is empty or holds a blank or the start of a comment.

## Main definitions

* `TokenFile.lines`: the lines that a file is written as
* `TokenFile.Writable`: the condition under which these lines are read again

The main statement is `TokenFile.parse_text_eq_ok_iff`.

## Design notes

What is read holds only words without comments, whatever the text.  So a file that is read again has
plain tokens, and then only the number of its systems can still differ: a system that looks like a
separator is counted twice.
-/

namespace LinearScore.TokenFile

/-- The token is a word that starts no comment. -/
def IsPlain (token : String) : Prop := isWord token = true ∧ '#' ∉ token.toList

instance (token : String) : Decidable (IsPlain token) :=
  inferInstanceAs (Decidable (_ ∧ _))

/-- The file has systems, and each of them is told from the rest of the text. -/
structure Writable (file : TokenFile) : Prop where
  opened : file.systems ≠ []
  unmarked : ∀ tokens ∈ file.systems, tokens ≠ [separator]
  plain : ∀ tokens ∈ file.systems, ∀ token ∈ tokens, IsPlain token

instance (file : TokenFile) : Decidable file.Writable :=
  decidable_of_iff
    (file.systems ≠ [] ∧ (∀ tokens ∈ file.systems, tokens ≠ [separator]) ∧
      ∀ tokens ∈ file.systems, ∀ token ∈ tokens, IsPlain token)
    ⟨fun ⟨opened, unmarked, plain⟩ => ⟨opened, unmarked, plain⟩,
      fun ⟨opened, unmarked, plain⟩ => ⟨opened, unmarked, plain⟩⟩

/-- The line of the tokens of a system. -/
def systemLine (tokens : List String) : String := String.intercalate " " tokens

/-- The lines of the header. -/
def headerLines (flavor : Flavor) : List String :=
  ["version: " ++ version, "flavor: " ++ flavor.name]

/-- The lines that a file is written as. -/
def lines (file : TokenFile) : List String :=
  headerLines file.flavor ++ (file.systems.map systemLine).flatMap fun line => [separator, line]

variable {file : TokenFile} {s : String}

theorem text_eq_unlines (file : TokenFile) : file.text = Text.unlines file.lines := by
  have systems (systems : List (List String)) :
      Text.unlines ((systems.map systemLine).flatMap fun line => [separator, line]) =
        String.join (systems.map systemText) := by
    induction systems with
    | nil => rfl
    | cons tokens systems ih =>
      rw [List.map_cons, List.map_cons, List.flatMap_cons, Text.unlines_append, ih,
        String.join_cons]
      rfl
  unfold text
  rw [lines, Text.unlines_append, systems]
  rfl

/-! ## Reading lines -/

/-- Behind a header, the lines are systems. -/
theorem parse_of_marked {header rest : List String} {mark : String}
    (read : (Text.lines s).map dropComment = header ++ mark :: rest)
    (headed : ∀ line ∈ header, isSeparator line = false) (marked : isSeparator mark = true) :
    parse s = (readHeader 1 .core header).map fun flavor =>
      { flavor, systems := readSystems rest } := by
  have parted : (header ++ mark :: rest).span (fun line => !isSeparator line) =
      (header, mark :: rest) := by
    refine span_append_cons (fun line mem => ?_) ?_ rest
    · rw [headed line mem]
      rfl
    · rw [marked]
      rfl
  unfold parse
  dsimp only
  rw [read, parted]
  cases readHeader 1 .core header <;> rfl

/-- A text that is read is read in its short form, or it has a header and systems behind a mark. -/
theorem parse_cases (h : parse s = .ok file) :
    file = { systems :=
        (((Text.lines s).map dropComment).filter fun line => Text.trim line ≠ "").map Text.words } ∨
      ∃ header mark rest, (Text.lines s).map dropComment = header ++ mark :: rest ∧
        readHeader 1 .core header = .ok file.flavor ∧ file.systems = readSystems rest := by
  unfold parse at h
  dsimp only at h
  rw [List.span_eq_takeWhile_dropWhile] at h
  have parted := List.takeWhile_append_dropWhile (p := fun line => !isSeparator line)
    (l := (Text.lines s).map dropComment)
  generalize ((Text.lines s).map dropComment).takeWhile (fun line => !isSeparator line) = header,
    ((Text.lines s).map dropComment).dropWhile (fun line => !isSeparator line) = rest at h parted
  cases rest with
  | nil =>
    cases h
    exact .inl rfl
  | cons mark rest =>
    cases flavor : readHeader 1 .core header with
    | error failure =>
      rw [flavor] at h
      cases h
    | ok flavor' =>
      rw [flavor] at h
      cases h
      exact .inr ⟨header, mark, rest, parted.symm, flavor, rfl⟩

/-- Only what stands in a line of the text is read, up to its comment. -/
theorem exists_line_of_parse (h : parse s = .ok file) {tokens : List String}
    (mem : tokens ∈ file.systems) {token : String} (ht : token ∈ tokens) :
    ∃ line, token ∈ Text.words (dropComment line) := by
  obtain ⟨line, hl, hw⟩ : ∃ line ∈ (Text.lines s).map dropComment, token ∈ Text.words line := by
    rcases parse_cases h with rfl | ⟨header, mark, rest, parted, -, full⟩
    · obtain ⟨line, hl, rfl⟩ := List.mem_map.mp mem
      exact ⟨line, List.mem_of_mem_filter hl, ht⟩
    · rw [full] at mem
      obtain ⟨piece, hp, rfl⟩ := List.mem_map.mp mem
      obtain ⟨line, hl, hw⟩ := List.mem_flatMap.mp ht
      have behind : line ∈ mark :: rest := List.mem_cons_of_mem mark (of_mem_splitOnP hp line hl).1
      refine ⟨line, ?_, hw⟩
      rw [parted]
      exact List.mem_append_right header behind
  obtain ⟨line, -, rfl⟩ := List.mem_map.mp hl
  exact ⟨line, hw⟩

/-- Whatever the text is, the tokens that are read are plain. -/
theorem plain_of_parse (h : parse s = .ok file) :
    ∀ tokens ∈ file.systems, ∀ token ∈ tokens, IsPlain token := by
  intro tokens mem token ht
  obtain ⟨line, hw⟩ := exists_line_of_parse h mem ht
  obtain ⟨word, chars⟩ := Text.isWord_of_mem_words hw
  refine ⟨word, fun hash => ?_⟩
  have kept := chars '#' hash
  rw [dropComment, String.toList_ofList] at kept
  exact absurd (List.mem_takeWhile_imp kept) (by decide)

/-! ## Lines that are written -/

theorem dropComment_eq_self {line : String} (h : '#' ∉ line.toList) : dropComment line = line := by
  have kept : line.toList.takeWhile (· ≠ '#') = line.toList := by
    refine List.takeWhile_eq_self_iff.mpr fun c hc => ?_
    exact decide_eq_true fun eq => h (eq ▸ hc)
  rw [dropComment, kept, String.ofList_toList]

theorem readHeader_headerLines (flavor : Flavor) :
    readHeader 1 .core (headerLines flavor) = .ok flavor := by
  cases flavor <;> rfl

theorem isSeparator_headerLines (flavor : Flavor) :
    ∀ line ∈ headerLines flavor, isSeparator line = false := by
  cases flavor <;> decide +kernel

/-- The line of a system looks like a separator just if its only token does. -/
theorem isSeparator_systemLine {tokens : List String} (h : ∀ token ∈ tokens, IsPlain token) :
    isSeparator (systemLine tokens) = true ↔ tokens = [separator] := by
  have words : ∀ token ∈ tokens, isWord token = true := fun token ht => (h token ht).1
  rw [isSeparator, decide_eq_true_iff, systemLine, trim_intercalate words]
  constructor
  · intro eq
    rw [← words_intercalate words, eq]
    decide +kernel
  · rintro rfl
    rfl

/-- A line of tokens may hold the character: it is no line end and starts no comment. -/
def isWritten (c : Char) : Bool := (c == ' ' || !Text.isBlank c) && c != '#'

theorem isWritten_iff {c : Char} :
    isWritten c = true ↔ (c = ' ' ∨ Text.isBlank c = false) ∧ c ≠ '#' := by
  simp [isWritten]

theorem isWritten_headerLines (flavor : Flavor) :
    ∀ line ∈ headerLines flavor, line.toList.all isWritten = true := by
  cases flavor <;> decide +kernel

theorem isWritten_systemLine {tokens : List String} (h : ∀ token ∈ tokens, IsPlain token) :
    (systemLine tokens).toList.all isWritten = true := by
  refine List.all_eq_true.mpr fun c hc => isWritten_iff.mpr ?_
  rcases mem_intercalate hc with rfl | ⟨token, hw, hc⟩
  · decide
  · obtain ⟨word, hash⟩ := h token hw
    exact ⟨.inr ((isWord_iff.mp word).2 c hc), fun eq => hash (eq ▸ hc)⟩

/-- The lines of plain tokens end where they are written to end, and hold no comments. -/
theorem map_dropComment_lines
    (plain : ∀ tokens ∈ file.systems, ∀ token ∈ tokens, IsPlain token) :
    (Text.lines file.text).map dropComment = file.lines := by
  have written : ∀ line ∈ file.lines, line.toList.all isWritten = true := by
    intro line mem
    rcases List.mem_append.mp mem with header | system
    · exact isWritten_headerLines _ line header
    · obtain ⟨own, hl, either⟩ := List.mem_flatMap.mp system
      rcases List.mem_pair.mp either with rfl | rfl
      · rfl
      · obtain ⟨tokens, ht, rfl⟩ := List.mem_map.mp hl
        exact isWritten_systemLine (plain tokens ht)
  have chars {line : String} (mem : line ∈ file.lines) {c : Char} (hc : c ∈ line.toList) :=
    isWritten_iff.mp (List.all_eq_true.mp (written line mem) c hc)
  have whole : ∀ line ∈ file.lines, Text.IsLine line := fun line mem =>
    Text.isLine_of_not_isBlank fun c hc => (chars mem hc).1
  rw [text_eq_unlines, Text.lines_unlines whole]
  refine (List.map_congr_left fun line mem => ?_).trans (List.map_id' _)
  exact dropComment_eq_self fun hash => (chars mem hash).2 rfl

/-- A file with a system is read again, but for systems that look like separators. -/
theorem parse_text_of_plain {tokens : List String} {others : List (List String)}
    (systems : file.systems = tokens :: others)
    (plain : ∀ tokens ∈ file.systems, ∀ token ∈ tokens, IsPlain token) :
    parse file.text = .ok { file with systems := readSystems (systemLine tokens ::
      (others.map systemLine).flatMap fun line => [separator, line]) } := by
  have read : (Text.lines file.text).map dropComment = headerLines file.flavor ++ separator ::
      (systemLine tokens :: (others.map systemLine).flatMap fun line => [separator, line]) := by
    rw [map_dropComment_lines plain, lines, systems]
    rfl
  rw [parse_of_marked read (isSeparator_headerLines _) rfl, readHeader_headerLines]
  rfl

/-- A file without systems is read as the two systems that its header looks like. -/
theorem parse_text_of_nil (none : file.systems = []) :
    parse file.text =
      .ok { systems := [["version:", version], ["flavor:", file.flavor.name]] } := by
  obtain ⟨flavor, systems⟩ := file
  cases none
  cases flavor <;> decide +kernel

/-- A file that can be written is read again. -/
theorem parse_text_of_writable (h : file.Writable) : parse file.text = .ok file := by
  obtain ⟨tokens, others, systems⟩ := List.exists_cons_of_ne_nil h.opened
  have unmarked : ∀ line ∈ (tokens :: others).map systemLine, isSeparator line = false := by
    rw [← systems]
    refine List.forall_mem_map.mpr fun tokens ht => ?_
    rw [Bool.eq_false_iff, ne_eq, isSeparator_systemLine (h.plain tokens ht)]
    exact h.unmarked tokens ht
  have words : ∀ tokens ∈ file.systems, Text.words (systemLine tokens) = tokens :=
    fun tokens ht => words_intercalate fun token hw => (h.plain tokens ht token hw).1
  have again : readSystems (systemLine tokens ::
      (others.map systemLine).flatMap fun line => [separator, line]) = file.systems := by
    rw [readSystems, splitOnP_alternating rfl _ _ unmarked, ← List.map_cons, ← systems,
      List.map_map, List.map_map]
    refine (List.map_congr_left fun tokens ht => ?_).trans (List.map_id' _)
    exact (List.flatMap_singleton _ _).trans (words tokens ht)
  rw [parse_text_of_plain systems h.plain, again]

/-- **Just the writable files are read as they were written.** -/
theorem parse_text_eq_ok_iff (file : TokenFile) : parse file.text = .ok file ↔ file.Writable := by
  refine ⟨fun h => ?_, parse_text_of_writable⟩
  have plain := plain_of_parse h
  cases systems : file.systems with
  | nil =>
    rw [parse_text_of_nil systems] at h
    have same : [["version:", version], ["flavor:", file.flavor.name]] = file.systems :=
      congrArg TokenFile.systems (Except.ok.inj h)
    rw [systems] at same
    cases same
  | cons tokens others =>
    refine ⟨by simp [systems], ?_, plain⟩
    rw [parse_text_of_plain systems plain] at h
    have same := congrArg (fun file : TokenFile => file.systems.length) (Except.ok.inj h)
    -- a system that looks like a separator would be counted twice
    have separates : isSeparator separator = true := rfl
    have none : ((tokens :: others).map systemLine).countP isSeparator = 0 := by
      rw [readSystems, List.length_map, length_splitOnP, countP_alternating separates, systems,
        List.length_cons, List.length_map] at same
      rw [List.map_cons]
      omega
    intro own mem marked
    have line : systemLine own ∈ (tokens :: others).map systemLine :=
      List.mem_map_of_mem (systems ▸ mem)
    refine List.countP_eq_zero.mp none _ line ?_
    exact (isSeparator_systemLine (plain own mem)).mpr marked

/-- Tokens may look like header fields or begin like a separator, and systems may be empty. -/
theorem parse_text_lookalikes :
    parse (text ⟨.extended, [["version:", "2.0"], [], ["---", "---"], ["flavor:core", "----"]]⟩) =
      .ok ⟨.extended, [["version:", "2.0"], [], ["---", "---"], ["flavor:core", "----"]]⟩ :=
  (parse_text_eq_ok_iff _).mpr (by decide +kernel)

end LinearScore.TokenFile
