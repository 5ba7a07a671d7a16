import LinearScore.Proofs.BeamLevels
import LinearScore.Proofs.BriefLengths
import LinearScore.Proofs.Findings
import LinearScore.Proofs.HeldConversions
import LinearScore.Proofs.HeldTimes
import LinearScore.Proofs.SoundElements

/-!
# Decoding by the integers of the machine

Decoding stops at no defect of its tokens, but it does stop at a number that is not held.  The
payloads of tokens are small, so only three things can grow: the number of dots of a note, the
number of beams over each other, and the lengths that are added up along a measure.  Where these are
bounded the part that tokens denote is arrived at.

## Main definitions

* `BeamState.Low`: counts of open beams that leave a number free
* `DecodingState.Held`: a length of a measure that is brief, and such counts
* `Note.Modest`: a note with few dots and beams

The main statement is `held_decodeItems`.
-/

namespace LinearScore

variable {dots : Nat}

/-! ## Beams -/

namespace BeamState

/-- All counts of open beams leave a number free. -/
def Low (s : BeamState) : Prop :=
  ∀ grace, (s.count grace).opened < countLimit ∧ (s.count grace).beforeChord < countLimit

theorem low_start : ({} : BeamState).Low := by
  intro grace
  cases grace <;> decide

theorem fits_noteBeams {opened : Nat} (low : opened < countLimit) (marks : List BeamMark)
    (beamable : Bool) : (Machine.noteBeams opened marks beamable).fits = true := by
  have kept : (beamCounts opened marks).kept ≤ opened := Nat.sub_le _ _
  simp only [Machine.noteBeams, Machine.byte, Checked.fits_bind, Checked.fits_pure, Bool.and_true,
    decide_eq_true_eq]
  rw [countLimit] at low
  omega

variable {s : BeamState} (low : s.Low) {r : BeamRequest}
include low

/-- The beams of a note are computed where the counts are low, -/
theorem Low.fits_resolve : (s.resolve r).fits = true := by
  have reported (n : Nat) : (reportClosed n r).fits = true := by
    unfold reportClosed
    dsimp only
    split
    · rfl
    · rfl
  obtain ⟨opened, beforeChord⟩ := low r.grace
  unfold resolve
  dsimp only
  split
  · split
    · rfl
    · rw [Reported.fits_bind, reported, Reported.fits_bind, Checked.fits_reported,
        fits_noteBeams beforeChord]
      rfl
  · rw [Reported.fits_bind, reported, Reported.fits_bind, Checked.fits_reported,
      fits_noteBeams opened]
    rfl

/-- and they stay low as long as no beam of a note gets the last number. -/
theorem Low.resolve
    (numbered : r.chord = false → ∀ b ∈ (s.resolve r).value.1, b.number < countLimit) :
    (s.resolve r).value.2.Low := by
  cases chord : r.chord with
  | true =>
    rw [state_member s chord]
    exact low
  | false =>
    obtain ⟨opened, beforeChord⟩ := low r.grace
    have beams := congrArg Reported.value (beams_resolve s (.inl chord))
    rw [Reported.value_map, base_head s chord] at beams
    have after : (beamCounts (s.count r.grace).opened r.marks).after < countLimit := by
      obtain ⟨counts, hc⟩ : ∃ c, c = beamCounts (s.count r.grace).opened r.marks := ⟨_, rfl⟩
      have kept : counts.kept ≤ (s.count r.grace).opened := by
        rw [hc]
        exact Nat.sub_le _ _
      rw [← hc]
      rcases Nat.eq_zero_or_pos counts.started with none | some
      · -- nothing starts, so no more beams are open than before
        rw [BeamCounts.after, none, addCapped, Nat.add_zero]
        exact (Nat.min_le_right _ _).trans_lt (kept.trans_lt opened)
      · -- the last beam that starts has the number of beams that are open then
        have last : (⟨counts.after, .start⟩ : Beam) ∈ (s.resolve r).value.1 := by
          rw [beams, noteBeams, List.mem_mergeSort, ← hc]
          refine List.mem_append_left _ (List.mem_append_right _ (List.mem_map.mpr ?_))
          exact ⟨counts.started, List.mem_range'_1.mpr (by omega), rfl⟩
        exact numbered chord _ last
    rw [state_head s chord]
    intro grace
    rw [count_setCount]
    split
    · exact ⟨after, opened⟩
    · exact low grace

end BeamState

/-! ## Items -/

/-- A note with few dots; if it is the first of a chord, its beams leave a number free. -/
structure Note.Modest (dots : Nat) (n : Note) : Prop where
  few : n.dots ≤ dots
  numbered : n.chord = false → ∀ b ∈ n.beams, b.number < countLimit

namespace DecodingState

/-- The length of a measure is brief, and the counts of open beams are low. -/
structure Held (dots : Nat) (d : DecodingState) : Prop where
  brief : ∀ l ∈ d.fullMeasure, Brief dots l
  low : d.beams.Low

theorem held_start : ({} : DecodingState).Held dots := ⟨forall_mem_none, BeamState.low_start⟩

theorem Held.fresh {d : DecodingState} (h : d.Held dots) :
    ({ d with sticky := {} } : DecodingState).Held dots := ⟨h.brief, h.low⟩

variable {d : DecodingState} {item : Item}

/-- Only the length of a note is computed for its duration, -/
theorem fits_noteDuration (root : Token) (noteType : Option NoteType) (f : NoteFields) :
    (d.noteDuration root noteType f).fits = true ↔
      (f.grace = false → ∀ t ∈ noteType, (Machine.noteLength t f.dots f.ratio).fits = true) := by
  unfold noteDuration
  split
  · rename_i grace
    rw [grace]
    exact ⟨nofun, fun _ => rfl⟩
  · rename_i plain
    rw [Bool.not_eq_true] at plain
    rw [plain]
    cases noteType with
    | none =>
      dsimp only
      refine ⟨fun _ _ => forall_mem_none, fun _ => ?_⟩
      split
      · rfl
      · rfl
    | some t =>
      dsimp only
      rw [Reported.fits_bind, Checked.fits_reported, Reported.fits_pure, Bool.and_true]
      exact ⟨fun fits _ t ht => Option.some.inj ht ▸ fits, fun h => h rfl t rfl⟩

/-- and besides it only the beams of the note. -/
theorem fits_note (item : Item) :
    (d.note item).fits =
      ((d.noteDuration item.root (rootType? item.root.terminal) item.noteFields.value).fits &&
        (d.beams.resolve
          { marks := item.noteFields.value.beams.map (·.1), grace := item.noteFields.value.grace
            chord := item.noteFields.value.chord
            beamable := (rootType? item.root.terminal).elim false NoteType.beamable
            position := item.root.position }).fits) := by
  simp [DecodingState.note, item.records_noteFields.fits, (records_noteContent _ _ _).fits,
    (records_reportDescent _ _ _ _).fits, (records_reportChordLength _ _ _ _).fits,
    (records_tremolo _ _).fits, apply_ite Reported.fits, report]

section Valid

variable (valid : AllValid item.tokens)
include valid

/-- The length of a measure is computed at an attribute item. -/
theorem fits_attributes (a : Attributes) (root : item.root.terminal.isAttributeRoot = true) :
    (d.attributes a item).fits = true := by
  unfold DecodingState.attributes
  rcases Terminal.cases_of_isAttributeRoot root with ⟨fifths, eq⟩ | eq | ⟨sign, line, eq⟩
  · rw [eq]
    dsimp only
    have keyed := item.records_reportKeyModifiers.fits
    split
    · rw [Reported.fits_bind, keyed]
      rfl
    · rw [Reported.fits_bind, keyed]
      rfl
  · obtain ⟨beats, beatType⟩ := valid_timeSignature valid
    rw [eq]
    dsimp only
    rw [Reported.fits_bind, (records_timeSignature item).fits, Reported.fits_bind,
      Checked.fits_reported, Machine.fits_measureLength_of_valid beats beatType]
    rfl
  · rw [eq]
    dsimp only
    rw [Reported.fits_bind, item.records_clefStaff.fits]
    rfl

/-- The length of a backup or forward is computed. -/
theorem fits_skip (marker : Terminal) : (d.skip item marker).fits = true := by
  unfold DecodingState.skip
  rw [Reported.fits_bind, (item.records_skipRatio marker).fits, Bool.true_and]
  split
  · rename_i t eq
    rw [Reported.fits_bind, Checked.fits_reported, Machine.fits_noteLength_of_few
      (valid_skipRatio valid marker) t (Nat.le_refl 0) (Nat.zero_le 25), Bool.true_and]
    split
    · rfl
    · rfl
  · rfl

/-- A backup or forward goes somewhere, but not far. -/
theorem brief_skip (dots : Nat) (marker : Terminal) : ∀ e ∈ (d.skip item marker).value.1,
    e.note? = none ∧ ∃ q, e.duration? = some q ∧ 0 < q ∧ Brief dots q := by
  have ratio := valid_skipRatio valid marker
  rw [value_skip]
  split
  · rename_i t eq
    have positive := noteLength_pos t 0 ratio
    have brief := brief_noteLength ratio t (Nat.zero_le dots)
    dsimp only
    split
    · rintro e ⟨⟩
      exact ⟨rfl, _, rfl, positive, brief⟩
    · rintro e ⟨⟩
      exact ⟨rfl, _, rfl, positive, brief⟩
  · exact forall_mem_none

end Valid

variable (h : d.Held dots) (few : dots ≤ 25) (valid : AllValid item.tokens)
include h valid

/-- An attribute item. -/
theorem Held.attributes (a : Attributes) (root : item.root.terminal.isAttributeRoot = true) :
    (d.attributes a item).value.2.Held dots := by
  unfold DecodingState.attributes
  rcases Terminal.cases_of_isAttributeRoot root with ⟨fifths, eq⟩ | eq | ⟨sign, line, eq⟩
  · rw [eq]
    dsimp only
    split
    · exact h
    · exact h
  · obtain ⟨beats, beatType⟩ := valid_timeSignature valid
    rw [eq]
    refine ⟨fun l hl => ?_, h.low⟩
    cases hl
    rw [Checked.value_reported, Machine.value_measureLength]
    exact brief_measureLength beats beatType dots
  · rw [eq]
    exact h

/-- A backup or forward. -/
theorem Held.skip (marker : Terminal) :
    (∀ e ∈ (d.skip item marker).value.1, ∀ q ∈ e.duration?, Brief dots q) ∧
      (d.skip item marker).value.2.Held dots := by
  refine ⟨fun e he q hq => ?_, ?_⟩
  · obtain ⟨-, q', lasts, -, brief⟩ := brief_skip valid dots marker e he
    obtain rfl : q' = q := Option.some.inj (lasts.symm.trans hq)
    exact brief
  · rw [value_skip]
    split
    · dsimp only
      split
      · exact h.fresh
      · exact h
    · exact h

include few

/-- A note. -/
theorem Held.note (modest : (d.note item).value.1.Modest dots) :
    (d.note item).fits = true ∧
      (∀ q ∈ (d.note item).value.1.duration, Brief dots q) ∧
      (d.note item).value.2.Held dots := by
  obtain ⟨legible, -⟩ := Item.legible_noteFields valid
  rw [value_note] at modest ⊢
  rw [fits_note]
  obtain ⟨f, hf⟩ : ∃ f, f = item.noteFields.value := ⟨_, rfl⟩
  rw [← hf] at modest legible ⊢
  have le : f.dots ≤ dots := modest.few
  refine ⟨?_, ?_, h.brief, h.low.resolve modest.numbered⟩
  · rw [h.low.fits_resolve, Bool.and_true, fits_noteDuration]
    exact fun _ t _ => Machine.fits_noteLength_of_few legible.ratio t le few
  · show ∀ q ∈ (d.noteDuration item.root (rootType? item.root.terminal) f).value, Brief dots q
    rw [value_noteDuration]
    split
    · exact forall_mem_none
    · cases rootType? item.root.terminal with
      | none => exact h.brief
      | some t =>
        intro q hq
        cases hq
        exact brief_noteLength legible.ratio t le

/-- Any item that is no attribute item. -/
theorem Held.element (modest : ∀ n, (d.element item).value.1 = some (.note n) → n.Modest dots) :
    (d.element item).fits = true ∧
      (∀ e ∈ (d.element item).value.1, ∀ q ∈ e.duration?, Brief dots q) ∧
      (d.element item).value.2.Held dots := by
  unfold DecodingState.element at modest ⊢
  split
  · exact ⟨fits_skip valid _, h.skip valid _⟩
  · rename_i none
    rw [none] at modest
    obtain ⟨fits, brief, held⟩ := h.note few valid (modest _ rfl)
    refine ⟨?_, fun e he => ?_, held⟩
    · rw [Reported.fits_bind, fits]
      rfl
    · cases he
      exact brief

end DecodingState

/-- The items of a measure are read as brief elements, no more than there are items and attributes
that the first items add to. -/
theorem held_decodeItems (few : dots ≤ 25) {items : List Item}
    (valid : ∀ item ∈ items, AllValid item.tokens) {d : DecodingState} (h : d.Held dots)
    (run : Option Attributes)
    (modest : ∀ n, Element.note n ∈ (decodeItems d run items).value.1 → n.Modest dots) :
    (decodeItems d run items).fits = true ∧
      (∀ e ∈ (decodeItems d run items).value.1, ∀ q ∈ e.duration?, Brief dots q) ∧
      (decodeItems d run items).value.1.length ≤ (closeRun run).length + items.length ∧
      (decodeItems d run items).value.2.Held dots := by
  have pending : ∀ e ∈ closeRun run, ∀ q ∈ e.duration?, Brief dots q := by
    cases run with
    | none => exact List.forall_mem_nil _
    | some a => exact List.forall_mem_singleton.mpr forall_mem_none
  induction items generalizing d run with
  | nil => exact ⟨rfl, pending, Nat.le_refl _, h⟩
  | cons item items ih =>
    obtain ⟨here, later⟩ := List.forall_mem_cons.mp valid
    cases root : item.root.terminal.isAttributeRoot with
    | true =>
      have fits := DecodingState.fits_attributes (d := d) here (run.getD {}) root
      have held := h.attributes here (run.getD {}) root
      rw [decodeItems_attribute d run items root, Reported.value_bind] at modest ⊢
      obtain ⟨rest, brief, length, last⟩ := ih later held _ modest
        (List.forall_mem_singleton.mpr forall_mem_none)
      refine ⟨?_, brief, length.trans ?_, last⟩
      · rw [Reported.fits_bind, fits]
        exact rest
      · rw [closeRun, Option.map_some, Option.toList_some, List.length_singleton,
          List.length_cons]
        omega
    | false =>
      rw [decodeItems_element d run items root, Reported.value_bind, Reported.value_map]
        at modest ⊢
      obtain ⟨fits, element, held⟩ := h.element few here fun n eq => modest n (by simp [eq])
      obtain ⟨rest, brief, length, last⟩ := ih later held none
        (fun n mem => modest n (List.mem_append_right _ mem)) (List.forall_mem_nil _)
      have one : (d.element item).value.1.toList.length ≤ 1 := by
        cases (d.element item).value.1 <;> simp
      refine ⟨?_, ?_, ?_, last⟩
      · rw [Reported.fits_bind, fits, Reported.fits_map, rest]
        rfl
      · refine List.forall_mem_append.mpr ⟨List.forall_mem_append.mpr ⟨pending, ?_⟩, brief⟩
        exact fun e he => element e (Option.mem_toList.mp he)
      · rw [List.length_append, List.length_append, List.length_cons]
        have none : (closeRun none).length = 0 := rfl
        omega

end LinearScore
