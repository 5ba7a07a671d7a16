import LinearScore.Proofs.NumberText

/-!
# Tokens in a line

A line of a token file holds the spellings of its tokens with single blanks between them.  No
spelling is empty or holds a blank, and so the tokens are found again.

## Main definitions

* `isDense`: a text holds no blanks
* `isWord`: a text is not empty and holds no blanks
* `isSpelling`: a text may be the spelling of a token

The main statements are `isSpelling_text` and `words_intercalate`.
-/

namespace LinearScore

/-- The text holds no blanks. -/
def isDense (s : String) : Bool := s.toList.all fun c => !Text.isBlank c

/-- The text is a word: it is not empty and holds no blanks. -/
def isWord (s : String) : Bool := !s.toList.isEmpty && isDense s

/-! ## Spellings -/

/-- A character from the hyphen to the small `z` in the order of the code. -/
def isSpelled (c : Char) : Bool := decide (45 ≤ c.val.toNat) && decide (c.val.toNat ≤ 122)

/-- The text holds only such characters, and not only hyphens. -/
def isSpelling (s : String) : Bool :=
  s.toList.all isSpelled && s.toList.any fun c => decide (45 < c.val.toNat)

theorem isSpelled_iff {c : Char} :
    isSpelled c = true ↔ 45 ≤ c.val.toNat ∧ c.val.toNat ≤ 122 := by
  rw [isSpelled, Bool.and_eq_true, decide_eq_true_iff, decide_eq_true_iff]

theorem isSpelled_of_isNumeral {c : Char} (h : Text.isNumeral c = true) : isSpelled c = true := by
  simp only [Text.isNumeral, Bool.or_eq_true, decide_eq_true_eq] at h
  rcases h with (digit | rfl) | rfl
  · obtain ⟨least, greatest⟩ := Char.isDigit_iff_toNat.mp digit
    exact isSpelled_iff.mpr
      ⟨Nat.le_trans (by decide) least, Nat.le_trans greatest (by decide)⟩
  · rfl
  · rfl

theorem isSpelled_of_mem_toString {n : Nat} {c : Char} (h : c ∈ (toString n).toList) :
    isSpelled c = true :=
  isSpelled_of_isNumeral (Text.isNumeral_of_isDigit (Text.isDigit_of_mem_toString h))

theorem isSpelling_append {s t : String} (hs : isSpelling s = true)
    (ht : ∀ c ∈ t.toList, isSpelled c = true) : isSpelling (s ++ t) = true := by
  obtain ⟨spelled, some⟩ := Bool.and_eq_true_iff.mp hs
  rw [isSpelling, String.toList_append, List.all_append, List.any_append, spelled, some,
    List.all_eq_true.mpr ht]
  rfl

theorem isSpelling_toString (n : Nat) : isSpelling (toString n) = true := by
  obtain ⟨c, cs, eq, digit⟩ := Text.toDigits_eq_cons n
  have above : 45 < c.val.toNat :=
    Nat.lt_of_lt_of_le (by decide) (Char.isDigit_iff_toNat.mp digit).1
  rw [isSpelling, List.all_eq_true.mpr fun c hc => isSpelled_of_mem_toString hc,
    Nat.toString_eq_repr, Nat.toList_repr, eq, List.any_cons, decide_eq_true above]
  rfl

/-- Each terminal is written as a spelling. -/
theorem isSpelling_text (t : Terminal) : isSpelling t.text = true := by
  have number {n : Nat} : ∀ c ∈ (toString n).toList, isSpelled c = true :=
    fun _ hc => isSpelled_of_mem_toString hc
  cases t with
  | key fifths =>
    exact isSpelling_append (s := "key:fifths:") rfl
      fun _ hc => isSpelled_of_isNumeral (Text.isNumeral_of_mem_toString hc)
  | clef sign line =>
    have name : isSpelling ("clef:" ++ sign.name) = true := by cases sign <;> rfl
    exact isSpelling_append name number
  | beats n => exact isSpelling_append (s := "beats:") rfl number
  | beatType n => exact isSpelling_append (s := "beat-type:") rfl number
  | voice n => exact isSpelling_append (s := "voice:") rfl number
  | staff n => exact isSpelling_append (s := "staff:") rfl number
  | tremoloMarks n => exact isSpelling_append (s := "tremolo:") rfl number
  | pitch step octave =>
    have name : isSpelling step.name = true := by cases step <;> rfl
    exact isSpelling_append name number
  | ratio r =>
    have between : ∀ c ∈ "in".toList, isSpelled c = true := List.all_eq_true.mp rfl
    exact isSpelling_append (isSpelling_append (isSpelling_toString r.actual) between) number
  | noteType t => cases t <;> rfl
  | accidental a => cases a <;> rfl
  | stem s => cases s <;> rfl
  | beam b => cases b <;> rfl
  | tied e => cases e <;> rfl
  | tuplet e => cases e <;> rfl
  | slur e => cases e <;> rfl
  | tremoloKind k => cases k <;> rfl
  | _ => rfl

/-- A spelling is a word. -/
theorem isWord_of_isSpelling {s : String} (h : isSpelling s = true) : isWord s = true := by
  obtain ⟨spelled, some⟩ := Bool.and_eq_true_iff.mp h
  have dense : isDense s = true := by
    refine List.all_eq_true.mpr fun c hc => ?_
    obtain ⟨low, high⟩ := isSpelled_iff.mp (List.all_eq_true.mp spelled c hc)
    rw [Text.not_isBlank_of_visible (Nat.le_trans (by decide) low)
      (Nat.le_trans high (by decide))]
    rfl
  rw [isWord, dense, Bool.and_true]
  cases chars : s.toList with
  | nil =>
    rw [chars] at some
    cases some
  | cons c cs => rfl

/-! ## Words in a line -/

/-- The characters of words, with single blanks between them, are parted into words again. -/
theorem wordChars_intercalate {ws : List String} (h : ∀ w ∈ ws, isWord w = true) :
    Text.wordChars (List.intercalate [' '] (ws.map String.toList)) = ws.map String.toList := by
  induction ws with
  | nil => rfl
  | cons w ws ih =>
    obtain ⟨first, rest⟩ := List.forall_mem_cons.mp h
    obtain ⟨nonempty, dense⟩ : w.toList.isEmpty = false ∧
        ∀ c ∈ w.toList, Text.isBlank c = false := by
      simpa [isWord, isDense] using first
    unfold Text.wordChars at ih ⊢
    cases ws with
    | nil =>
      -- no blank stands behind the last word
      have alone : List.intercalate [' '] [w.toList] = w.toList := by simp [List.intercalate]
      rw [List.map_cons, List.map_nil, alone, List.splitOnP_eq_singleton dense]
      simp [nonempty]
    | cons v ws =>
      have parted : List.intercalate [' '] (w.toList :: v.toList :: ws.map String.toList) =
          w.toList ++ ' ' :: List.intercalate [' '] (v.toList :: ws.map String.toList) := by
        simp [List.intercalate]
      rw [List.map_cons, List.map_cons, parted,
        List.splitOnP_append_cons_of_forall_mem dense ' ' rfl, List.filter_cons, ← List.map_cons,
        ih rest]
      simp [nonempty]

/-- Words that are separated by single blanks are found again. -/
theorem words_intercalate {ws : List String} (h : ∀ w ∈ ws, isWord w = true) :
    Text.words (String.intercalate " " ws) = ws := by
  have spelled : (ws.map String.toList).map String.ofList = ws := by
    rw [List.map_map]
    exact (List.map_congr_left fun w _ => String.ofList_toList).trans (List.map_id' ws)
  rw [Text.words, String.toList_intercalate]
  exact (congrArg _ (wordChars_intercalate h)).trans spelled

end LinearScore
