import Mathlib.Data.List.Basic
import LinearScore.Proofs.Pieces
import LinearScore.Proofs.Words

/-!
# Lines of words

A text that is written line by line, a line feed behind each line, is read as these lines, and a
line of words is read as these words.  Such a line has nothing to trim.

## Main definitions

* `Text.unlines`: the text of some lines
* `Text.IsLine`: a line without the characters that end lines

The main statements are `Text.lines_unlines` and `trim_intercalate`.
-/

namespace LinearScore

namespace Text

/-- The text of some lines, a line feed behind each. -/
def unlines (ls : List String) : String := String.join (ls.map (· ++ "\n"))

/-- The line holds no character that ends a line. -/
def IsLine (l : String) : Prop := ∀ c ∈ l.toList, c ≠ '\n' ∧ c ≠ '\r'

theorem unlines_append (ls ls' : List String) : unlines (ls ++ ls') = unlines ls ++ unlines ls' := by
  rw [unlines, List.map_append, String.join_append]
  rfl

theorem toList_unlines (ls : List String) :
    (unlines ls).toList = (ls.map String.toList).flatMap (· ++ ['\n']) := by
  rw [unlines, String.toList_join, List.flatMap_map, List.flatMap_map]
  exact List.flatMap_congr fun l _ => String.toList_append

/-- Nothing is dropped from a line that holds no carriage return. -/
theorem dropReturn_eq_self {l : List Char} (h : ∀ c ∈ l, c ≠ '\r') : dropReturn l = l := by
  refine if_neg fun last => ?_
  exact h '\r' (List.mem_of_getLast? (by simpa using last)) rfl

theorem lineChars_flatMap {ls : List (List Char)} (h : ∀ l ∈ ls, ∀ c ∈ l, c ≠ '\n' ∧ c ≠ '\r') :
    lineChars (ls.flatMap (· ++ ['\n'])) = ls := by
  -- the last line feed ends the last line, and nothing stands behind it
  have pieces : (ls.flatMap (· ++ ['\n'])).splitOnP (· == '\n') = ls ++ [[]] := by
    induction ls with
    | nil => rfl
    | cons l ls ih =>
      obtain ⟨first, rest⟩ := List.forall_mem_cons.mp h
      have unbroken : ∀ c ∈ l, (c == '\n') = false := fun c hc => by simpa using (first c hc).1
      rw [List.flatMap_cons, List.append_assoc, List.singleton_append,
        List.splitOnP_append_cons_of_forall_mem unbroken _ rfl, ih rest]
      rfl
  have kept : ls.map dropReturn = ls := by
    refine (List.map_congr_left fun l hl => ?_).trans (List.map_id ls)
    exact dropReturn_eq_self fun c hc => (h l hl c hc).2
  rw [lineChars, pieces]
  simp [kept]

/-- Lines that are written one by one are read again. -/
theorem lines_unlines {ls : List String} (h : ∀ l ∈ ls, IsLine l) : lines (unlines ls) = ls := by
  have whole : ∀ l ∈ ls.map String.toList, ∀ c ∈ l, c ≠ '\n' ∧ c ≠ '\r' :=
    List.forall_mem_map.mpr h
  rw [lines, toList_unlines, lineChars_flatMap whole, List.map_map]
  exact (List.map_congr_left fun l _ => String.ofList_toList).trans (List.map_id' ls)

/-- A line of which all blanks are spaces holds no line end. -/
theorem isLine_of_not_isBlank {l : String} (h : ∀ c ∈ l.toList, c = ' ' ∨ isBlank c = false) :
    IsLine l := by
  intro c hc
  rcases h c hc with rfl | dense
  · decide
  · constructor
    · rintro rfl
      exact absurd dense (by decide)
    · rintro rfl
      exact absurd dense (by decide)

/-- A word of a text is a word, and its characters are those of the text. -/
theorem isWord_of_mem_words {s w : String} (h : w ∈ words s) :
    isWord w = true ∧ ∀ c ∈ w.toList, c ∈ s.toList := by
  obtain ⟨cs, mem, rfl⟩ := List.mem_map.mp h
  obtain ⟨piece, nonempty⟩ := List.mem_filter.mp mem
  rw [isWord, isDense, String.toList_ofList, Bool.and_eq_true, List.all_eq_true]
  refine ⟨⟨nonempty, fun c hc => ?_⟩, fun c hc => (of_mem_splitOnP piece c hc).1⟩
  simpa using (of_mem_splitOnP piece c hc).2

end Text

/-! ## Words in a line -/

theorem isWord_iff {s : String} :
    isWord s = true ↔ s ≠ "" ∧ ∀ c ∈ s.toList, Text.isBlank c = false := by
  simp [isWord, isDense]

/-- Each character of a line is one of its words' or stands between two words. -/
theorem mem_intercalate {ws : List String} {c : Char}
    (h : c ∈ (String.intercalate " " ws).toList) : c = ' ' ∨ ∃ w ∈ ws, c ∈ w.toList := by
  rw [String.toList_intercalate] at h
  induction ws with
  | nil => cases h
  | cons w ws ih =>
    cases ws with
    | nil => exact .inr ⟨w, List.mem_cons_self, by simpa [List.intercalate] using h⟩
    | cons v ws =>
      have parted : c ∈ w.toList ∨ c = ' ' ∨
          c ∈ [' '].intercalate ((v :: ws).map String.toList) := by
        simpa [List.intercalate] using h
      rcases parted with here | rfl | later
      · exact .inr ⟨w, List.mem_cons_self, here⟩
      · exact .inl rfl
      · rcases ih later with blank | ⟨u, hu, hc⟩
        · exact .inl blank
        · exact .inr ⟨u, List.mem_cons_of_mem _ hu, hc⟩

/-- A text that begins with a word begins with no blank, -/
theorem head?_append_of_isWord {w : String} (h : isWord w = true) (rest : String) :
    ∀ c ∈ (w ++ rest).toList.head?, Text.isBlank c = false := by
  obtain ⟨nonempty, dense⟩ := isWord_iff.mp h
  intro c hc
  cases first : w.toList with
  | nil => exact absurd (String.toList_eq_nil_iff.mp first) nonempty
  | cons d ds =>
    rw [String.toList_append, first, List.cons_append, List.head?_cons] at hc
    cases hc
    exact dense c (by rw [first]; exact List.mem_cons_self)

/-- and one that ends with a word ends with none. -/
theorem getLast?_append_of_isWord {w : String} (h : isWord w = true) (front : String) :
    ∀ c ∈ (front ++ w).toList.getLast?, Text.isBlank c = false := by
  obtain ⟨nonempty, dense⟩ := isWord_iff.mp h
  intro c hc
  rw [String.toList_append, List.getLast?_append] at hc
  cases last : w.toList.getLast? with
  | none =>
    rw [List.getLast?_eq_none_iff, String.toList_eq_nil_iff] at last
    exact absurd last nonempty
  | some d =>
    rw [last] at hc
    cases hc
    exact dense c (List.mem_of_getLast? last)

/-- A line of words begins and ends with a word, so there is nothing to trim. -/
theorem trim_intercalate {ws : List String} (h : ∀ w ∈ ws, isWord w = true) :
    Text.trim (String.intercalate " " ws) = String.intercalate " " ws := by
  by_cases none : ws = []
  · rw [none]
    decide
  refine Text.trim_eq_self ?_ ?_
  · obtain ⟨w, rest, rfl⟩ := List.exists_cons_of_ne_nil none
    obtain ⟨behind, eq⟩ : ∃ behind, String.intercalate " " (w :: rest) = w ++ behind := by
      by_cases alone : rest = []
      · exact ⟨"", by simp [alone]⟩
      · exact ⟨" " ++ String.intercalate " " rest, by
          rw [String.intercalate_cons_of_ne_nil alone, String.append_assoc]⟩
    rw [eq]
    exact head?_append_of_isWord (h w List.mem_cons_self) behind
  · obtain ⟨front, w, rfl⟩ := (List.eq_nil_or_concat' ws).resolve_left none
    obtain ⟨before, eq⟩ : ∃ before, String.intercalate " " (front ++ [w]) = before ++ w := by
      by_cases alone : front = []
      · exact ⟨"", by simp [alone]⟩
      · exact ⟨String.intercalate " " front ++ " ", by
          rw [String.intercalate_append_of_ne_nil alone (List.cons_ne_nil _ _),
            String.intercalate_singleton]⟩
    rw [eq]
    exact getLast?_append_of_isWord (h w (by simp)) before

end LinearScore
