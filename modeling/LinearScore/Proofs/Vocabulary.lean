import LinearScore.Terminal.Vocabulary
import LinearScore.Proofs.Spelling

/-!
# The vocabulary is what is read

The enumeration of the vocabulary, the test of a payload, the spelling of a terminal and the
reading of a text are written apart from each other.  They agree: a terminal is enumerated exactly
when its payload is valid, and a text is read as a terminal exactly when the terminal is enumerated
and the text is its one spelling.

## Main definitions

* `families`: the vocabulary by kinds of terminals

The main statements are `mem_vocabulary` and `ofText?_eq_some_iff`.
-/

namespace LinearScore.Terminal

/-! ## The enumeration -/

theorem mem_span {low high n : Nat} : n ∈ span low high ↔ low ≤ n ∧ n ≤ high := by
  rw [span, List.mem_range'_1]
  omega

/-- The kinds of terminals in the order of the vocabulary. -/
def families : List (List Terminal) :=
  [[measure, time, measureRest],
   (List.range 15).map fun (n : Nat) => key ((n : Int) - 7),
   ClefSign.all.flatMap fun sign => (span sign.lines.1 sign.lines.2).map (clef sign),
   (span 1 32).map beats,
   beatTypes.map beatType,
   NoteType.all.map noteType,
   [unprinted, grace, graceSlash, chord, rest, backup, forward],
   (span 0 9).flatMap fun octave => Step.all.map fun step => pitch step octave,
   (span 1 8).map voice,
   (span 1 16).flatMap fun actual => (span 1 16).map fun normal => ratio ⟨actual, normal⟩,
   [dot],
   Accidental.all.map accidental,
   Stem.all.map stem,
   (span 1 3).map staff,
   BeamMark.all.map beam,
   [StartStop.start, StartStop.stop].flatMap fun e => [tied e, tuplet e, slur e],
   [fermata, arpeggiate, staccato, accent, strongAccent, tenuto, trillMark],
   TremoloKind.all.map tremoloKind,
   (span 1 4).map tremoloMarks]

theorem flatten_families : families.flatten = vocabulary := by
  unfold families vocabulary
  simp only [List.flatten_cons, List.flatten_nil, List.append_nil, List.append_assoc]

/-- The terminals of each kind are enumerated. -/
theorem mem_vocabulary_of_family (i : Fin 19) {t : Terminal} (h : t ∈ families.get i) :
    t ∈ vocabulary := by
  rw [← flatten_families]
  exact List.mem_flatten_of_mem (List.get_mem families i) h

/-- Every terminal with a valid payload is enumerated. -/
theorem mem_vocabulary_of_valid {t : Terminal} (h : t.valid = true) : t ∈ vocabulary := by
  cases t with
  | measure => exact mem_vocabulary_of_family 0 (by decide)
  | time => exact mem_vocabulary_of_family 0 (by decide)
  | measureRest => exact mem_vocabulary_of_family 0 (by decide)
  | key fifths =>
    simp only [valid, Bool.and_eq_true, decide_eq_true_eq] at h
    refine mem_vocabulary_of_family 1 (List.mem_map.mpr ⟨(fifths + 7).toNat, ?_, ?_⟩)
    · exact List.mem_range.mpr (by omega)
    · exact congrArg key (by omega)
  | clef sign line =>
    simp only [valid, Bool.and_eq_true, decide_eq_true_eq] at h
    refine mem_vocabulary_of_family 2 (List.mem_flatMap.mpr ⟨sign, ?_, ?_⟩)
    · cases sign <;> decide
    · exact List.mem_map_of_mem (mem_span.mpr h)
  | beats n =>
    simp only [valid, Bool.and_eq_true, decide_eq_true_eq] at h
    exact mem_vocabulary_of_family 3 (List.mem_map_of_mem (mem_span.mpr h))
  | beatType n =>
    exact mem_vocabulary_of_family 4 (List.mem_map_of_mem (List.contains_iff_mem.mp h))
  | noteType t => exact mem_vocabulary_of_family 5 (List.mem_map_of_mem (by cases t <;> decide))
  | pitch step octave =>
    simp only [valid, decide_eq_true_eq] at h
    refine mem_vocabulary_of_family 7 (List.mem_flatMap.mpr ⟨octave, ?_, ?_⟩)
    · exact mem_span.mpr ⟨Nat.zero_le _, h⟩
    · exact List.mem_map.mpr ⟨step, by cases step <;> decide, rfl⟩
  | voice n =>
    simp only [valid, Bool.and_eq_true, decide_eq_true_eq] at h
    exact mem_vocabulary_of_family 8 (List.mem_map_of_mem (mem_span.mpr h))
  | ratio r =>
    simp only [valid, Bool.and_eq_true, decide_eq_true_eq] at h
    obtain ⟨actual, normal⟩ := h
    refine mem_vocabulary_of_family 9 (List.mem_flatMap.mpr ⟨r.actual, mem_span.mpr ?_, ?_⟩)
    · exact actual.1
    · exact List.mem_map.mpr ⟨r.normal, mem_span.mpr ⟨actual.2, normal⟩, rfl⟩
  | dot => exact mem_vocabulary_of_family 10 List.mem_cons_self
  | accidental a => exact mem_vocabulary_of_family 11 (List.mem_map_of_mem (by cases a <;> decide))
  | stem s => exact mem_vocabulary_of_family 12 (List.mem_map_of_mem (by cases s <;> decide))
  | staff n =>
    simp only [valid, Bool.and_eq_true, decide_eq_true_eq] at h
    exact mem_vocabulary_of_family 13 (List.mem_map_of_mem (mem_span.mpr h))
  | beam b => exact mem_vocabulary_of_family 14 (List.mem_map_of_mem (by cases b <;> decide))
  | tied e => exact mem_vocabulary_of_family 15 (by cases e <;> decide)
  | tuplet e => exact mem_vocabulary_of_family 15 (by cases e <;> decide)
  | slur e => exact mem_vocabulary_of_family 15 (by cases e <;> decide)
  | tremoloKind k =>
    exact mem_vocabulary_of_family 17 (List.mem_map_of_mem (by cases k <;> decide))
  | tremoloMarks n =>
    simp only [valid, Bool.and_eq_true, decide_eq_true_eq] at h
    exact mem_vocabulary_of_family 18 (List.mem_map_of_mem (mem_span.mpr h))
  | unprinted | grace | graceSlash | chord | rest | backup | forward =>
    exact mem_vocabulary_of_family 6 (by decide)
  | fermata | arpeggiate | staccato | accent | strongAccent | tenuto | trillMark =>
    exact mem_vocabulary_of_family 16 (by decide)

/-- **The enumerated terminals are those with a valid payload.** -/
theorem mem_vocabulary {t : Terminal} : t ∈ vocabulary ↔ t.valid = true := by
  have listed : ∀ t ∈ vocabulary, t.valid = true := by decide +kernel
  exact ⟨listed t, mem_vocabulary_of_valid⟩

/-! ## The texts that are read -/

/-- Terminals of the vocabulary with one spelling are the same. -/
theorem eq_of_text_eq {t u : Terminal} (ht : t ∈ vocabulary) (hu : u ∈ vocabulary)
    (same : t.text = u.text) : t = u := by
  have read : ofText? u.text = some t := by
    rw [← same]
    exact ofText?_text (mem_vocabulary.mp ht)
  rw [ofText?_text (mem_vocabulary.mp hu)] at read
  exact (Option.some.inj read).symm

/-- A text that may stand for a terminal is only read as that terminal. -/
theorem interpret_of_ofText? {s : String} {t : Terminal} (h : ofText? s = some t) :
    interpret s = some t := (Option.filter_eq_some_iff.mp h).1

/-- **A text is read as a terminal exactly when the terminal is enumerated and the text is its
spelling.**  So no two terminals of the vocabulary share a spelling, every terminal with a valid
payload is enumerated, and a text that may stand for a terminal, but with a payload outside the
vocabulary or in another spelling, is refused. -/
theorem ofText?_eq_some_iff (s : String) (t : Terminal) :
    (ofText? s = some t ↔ t ∈ vocabulary ∧ s = t.text) ∧
      (t ∈ vocabulary → ∀ u ∈ vocabulary, t.text = u.text → t = u) ∧
      (t.valid = true ↔ t ∈ vocabulary) ∧
      (interpret s = some t → t ∉ vocabulary ∨ s ≠ t.text → ofText? s = none) := by
  have read (u : Terminal) : ofText? s = some u ↔ u ∈ vocabulary ∧ s = u.text := by
    constructor
    · intro h
      exact ⟨mem_vocabulary.mpr (valid_of_ofText? h), (text_of_ofText? h).symm⟩
    · rintro ⟨mem, rfl⟩
      exact ofText?_text (mem_vocabulary.mp mem)
  refine ⟨read t, fun ht u hu => eq_of_text_eq ht hu, mem_vocabulary.symm, ?_⟩
  intro standsFor other
  rw [Option.eq_none_iff_forall_ne_some]
  intro u hu
  -- what is read is what the text may stand for
  obtain rfl : t = u := Option.some.inj (standsFor.symm.trans (interpret_of_ofText? hu))
  obtain ⟨mem, spelled⟩ := (read t).mp hu
  rcases other with outside | respelled
  · exact outside mem
  · exact respelled spelled

/-- A small letter and a number that is too large are refused. -/
theorem ofText?_refused : interpret "clef:g2" = some (clef .g 2) ∧ "clef:g2" ≠ (clef .g 2).text ∧
    ofText? "clef:g2" = none ∧
    interpret "beats:33" = some (beats 33) ∧ beats 33 ∉ vocabulary ∧ ofText? "beats:33" = none := by
  have lower : interpret "clef:g2" = some (clef .g 2) := by decide +kernel
  have respelled : "clef:g2" ≠ (clef .g 2).text := by decide +kernel
  have high : interpret "beats:33" = some (beats 33) := by decide +kernel
  have outside : beats 33 ∉ vocabulary := fun mem => absurd (mem_vocabulary.mp mem) (by decide)
  exact ⟨lower, respelled, (ofText?_eq_some_iff _ _).2.2.2 lower (.inr respelled),
    high, outside, (ofText?_eq_some_iff _ _).2.2.2 high (.inl outside)⟩

end LinearScore.Terminal
