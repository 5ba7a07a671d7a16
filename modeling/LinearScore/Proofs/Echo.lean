import LinearScore.Proofs.Writing

/-!
# Items read back, one at a time

Reading the item of a note gives the note again, with what tokens do not say filled in by the
reader: voice, stem and staff from the notes before, the duration from the note type or the time
signature, the beams from the beams that are open.

## Main definitions

* `DecodingState.echo`, `DecodingState.afterEcho`: the note that is read back and the state behind
* `DecodingState.Accepts`: reading the note back reports nothing
* `Synced`: writer and reader remember the same voice, stem and staff

The main statements are `value_note_noteItem` and `diagnostics_note_noteItem`.
-/

namespace LinearScore

/-! ## The note that is read back -/

/-- The content of a note as tokens say it. -/
def NoteContent.echo (measureRest : Bool) : NoteContent → NoteContent
  | .pitch p => .pitch { p with alter := 0 }
  | .rest _ => .rest measureRest

/-- What a note asks for beams when its own beams are written as marks. -/
def Note.beamRequest (n : Note) : BeamRequest where
  marks := n.beams.filterMap fun b => BeamMark.ofStroke? b.stroke
  grace := n.grace.isSome
  chord := n.chord
  beamable := n.noteType.elim false NoteType.beamable
  position := 0

namespace DecodingState

variable (d : DecodingState) (n : Note)

/-- The duration of a note that is read back. -/
def lasting : Option Rat :=
  if n.grace.isSome then none
  else n.noteType.elim d.fullMeasure fun t => some (noteLength t (min countLimit n.dots) n.ratio)

/-- The note that is read back. -/
def echo : Note :=
  { n with
    content := n.content.echo n.noteType.isNone
    duration := d.lasting n
    ties := n.ties.eraseDups
    voice := n.voice.or d.sticky.voice
    dots := min countLimit n.dots
    stem := n.stem.or d.sticky.stem
    staff := n.staff.or d.sticky.staff
    beams := (d.beams.resolve n.beamRequest).value.1
    markings := { n.markings with tuplets := n.markings.tuplets.eraseDups } }

/-- The state behind a note that is read back. -/
def afterEcho : DecodingState :=
  { d with
    beams := (d.beams.resolve n.beamRequest).value.2
    sticky :=
      { voice := n.voice.or d.sticky.voice
        stem := n.stem.or d.sticky.stem
        staff := n.staff.or d.sticky.staff
        previousPitch := n.pitch?.map fun p => { p with alter := 0 }
        chordLength := if n.chord then d.sticky.chordLength else d.lasting n } }

/-- Reading the note back reports nothing. -/
structure Accepts : Prop where
  ties : n.ties.Nodup
  tuplets : n.markings.tuplets.Nodup
  ascends : n.chord = true → ∀ p ∈ d.sticky.previousPitch, ∀ q ∈ n.pitch?, p.order ≤ q.order
  lasts : n.grace = none → n.noteType = none → d.fullMeasure.isSome = true
  length : n.chord = true → ∀ l ∈ d.sticky.chordLength, ∀ l' ∈ d.lasting n, l = l'
  beams : (d.beams.resolve n.beamRequest).diagnostics = []

end DecodingState

/-- Writer and reader remember the same voice, stem and staff. -/
structure Synced (s : EncodingState) (d : DecodingState) : Prop where
  voice : s.sticky.voice = d.sticky.voice
  stem : s.sticky.stem = d.sticky.stem
  staff : s.sticky.staff = d.sticky.staff

theorem Synced.note {s : EncodingState} {d : DecodingState} (h : Synced s d) (n : Note) :
    Synced (s.afterNote n) (d.afterEcho n) where
  voice := congrArg n.voice.or h.voice
  stem := congrArg n.stem.or h.stem
  staff := congrArg n.staff.or h.staff

/-- What is written of a value that changes restores the value from the one before. -/
theorem changed_or {α : Type} [DecidableEq α] (old new : Option α) :
    (changed old new).or old = new.or old := by
  unfold changed
  split
  · rename_i h
    rw [h]
    cases old <;> rfl
  · rfl

/-! ## The parts of a note -/

namespace DecodingState

/-- The fields that are read back: those that are written, with the ends of ties and tuplets
once. -/
def readFields (s : EncodingState) (n : Note) : NoteFields :=
  (s.fields n).leadingPart.withTrailing (s.fields n) n.ties.eraseDups
    n.markings.tuplets.eraseDups

theorem value_noteFields_noteItem (s : EncodingState) (n : Note) :
    (s.noteItem n).noteFields.value = readFields s n := by
  have kept (l : List StartStop) : l.filter (· ∉ []) = l := by simp
  rw [EncodingState.noteItem, noteFields_spelled]
  simp only [Reported.value_bind, Reported.value_pure, value_readEnds, List.nil_append, kept]
  rfl

theorem diagnostics_noteFields_noteItem {n : Note} (ties : n.ties.Nodup)
    (tuplets : n.markings.tuplets.Nodup) (s : EncodingState) :
    (s.noteItem n).noteFields.diagnostics = [] := by
  rw [EncodingState.noteItem, noteFields_spelled]
  simp only [Reported.diagnostics_bind, Reported.diagnostics_pure, List.append_nil]
  rw [diagnostics_readEnds _ _ (by exact ties), diagnostics_readEnds _ _ (by exact tuplets)]
  rfl

theorem grace_readFields (s : EncodingState) (n : Note) :
    (readFields s n).grace = n.grace.isSome := rfl

theorem chord_readFields (s : EncodingState) (n : Note) :
    (readFields s n).chord = n.chord := rfl

theorem graceSlash_readFields (s : EncodingState) (n : Note) :
    (readFields s n).graceSlash = n.grace.elim false Grace.slash := rfl

theorem rootType?_root (n : Note) : rootType? n.root = n.noteType := by
  unfold Note.root
  cases n.noteType with
  | none => rfl
  | some t => rfl

/-- The content is read back without its alteration, and nothing is reported. -/
theorem noteContent_readFields {s : EncodingState} {n : Note} (h : s.Formed (.note n))
    (root : Token) :
    noteContent root n.noteType.isNone (readFields s n) =
      pure (n.content.echo n.noteType.isNone) := by
  obtain ⟨range, typed⟩ := h
  cases hc : n.content with
  | rest m =>
    have rest : (readFields s n).rest = some 0 := by
      simp [readFields, NoteFields.withTrailing, NoteFields.leadingPart, EncodingState.fields,
        Note.isRest, Note.pitch?, hc]
    have pitch : (readFields s n).pitch = none := by
      simp [readFields, NoteFields.withTrailing, NoteFields.leadingPart, EncodingState.fields,
        Note.pitch?, hc]
    rw [noteContent, rest, pitch]
    rfl
  | pitch p =>
    have rest : (readFields s n).rest = none := by
      simp [readFields, NoteFields.withTrailing, NoteFields.leadingPart, EncodingState.fields,
        Note.isRest, Note.pitch?, hc]
    have pitch : (readFields s n).pitch = some (p.step, p.octave.toNat, 0) := by
      simp [readFields, NoteFields.withTrailing, NoteFields.leadingPart, EncodingState.fields,
        Note.pitch?, hc]
    have octave : (p.octave.toNat : Int) = p.octave :=
      Int.toNat_of_nonneg (range p (by simp [Note.pitch?, hc])).1
    -- a note without a type would have to be a measure rest
    cases ht : n.noteType with
    | none =>
      have rest := typed ht
      simp [Note.isMeasureRest, hc] at rest
    | some t =>
      rw [noteContent, rest, pitch]
      simp only [Option.isSome_none, Option.isNone_some, Bool.or_self, Bool.false_eq_true,
        if_false, octave]
      rfl

theorem tremolo_readFields (s : EncodingState) (n : Note) (root : Token) :
    tremolo root (readFields s n) = pure n.markings.tremolo := by
  have kind : (readFields s n).tremoloKind = n.markings.tremolo.map Tremolo.kind := rfl
  have marks : (readFields s n).tremoloMarks = n.markings.tremolo.map Tremolo.marks := rfl
  rw [tremolo, kind, marks]
  cases n.markings.tremolo with
  | none => rfl
  | some t => rfl

theorem noteDuration_readFields (d : DecodingState) (s : EncodingState) (n : Note) (root : Token) :
    (d.noteDuration root n.noteType (readFields s n)).value = d.lasting n := by
  rw [value_noteDuration, grace_readFields]
  rfl

theorem resolve_readFields (b : BeamState) (s : EncodingState) (n : Note) (position : Nat) :
    b.resolve
        { marks := (readFields s n).beams.map (·.1), grace := n.grace.isSome, chord := n.chord,
          beamable := n.noteType.elim false NoteType.beamable, position } =
      (b.resolve n.beamRequest).move (fun _ => position) id := by
  have marks : (readFields s n).beams.map (·.1) = n.beamRequest.marks := by
    simp [readFields, NoteFields.withTrailing, EncodingState.fields, Note.beamRequest,
      Function.comp_def]
  rw [marks]
  exact resolve_move (fun _ => position) b n.beamRequest.marks n.grace.isSome n.chord
    (n.noteType.elim false NoteType.beamable) 0

/-- Only a grace note has a slash. -/
theorem slash_and_not_grace (n : Note) :
    (n.grace.elim false Grace.slash && !n.grace.isSome) = false := by
  cases n.grace <;> simp

theorem contentPitch?_echo (n : Note) :
    contentPitch? (n.content.echo n.noteType.isNone) =
      n.pitch?.map fun p => { p with alter := 0 } := by
  unfold Note.pitch?
  cases n.content <;> rfl

/-! ## The whole note -/

section Whole

variable {s : EncodingState} {d : DecodingState} {n : Note}

/-- **Reading the item of a note gives the note back.** -/
theorem value_note_noteItem (h : s.Formed (.note n)) (synced : Synced s d) :
    (d.note (s.noteItem n)).value = (d.echo n, d.afterEcho n) := by
  have root : rootType? (s.noteItem n).root.terminal = n.noteType := rootType?_root n
  have printed : (!(readFields s n).unprinted) = n.printed := Bool.not_not _
  have grace : (if n.grace.isSome = true then
      some (⟨n.grace.elim false Grace.slash⟩ : Grace) else none) = n.grace := by
    cases n.grace <;> rfl
  have voice : (stick d.sticky (readFields s n)).voice = n.voice.or d.sticky.voice := by
    show (changed s.sticky.voice n.voice).or d.sticky.voice = _
    rw [← synced.voice]
    exact changed_or ..
  have stem : (stick d.sticky (readFields s n)).stem = n.stem.or d.sticky.stem := by
    show (changed s.sticky.stem n.stem).or d.sticky.stem = _
    rw [← synced.stem]
    exact changed_or ..
  have staff : (stick d.sticky (readFields s n)).staff = n.staff.or d.sticky.staff := by
    show (changed s.sticky.staff n.staff).or d.sticky.staff = _
    rw [← synced.staff]
    exact changed_or ..
  unfold note
  simp only [Reported.value_bind, value_noteFields_noteItem, root, noteContent_readFields h,
    slash_and_not_grace, Bool.false_eq_true, if_false, grace_readFields, chord_readFields,
    graceSlash_readFields, resolve_readFields, tremolo_readFields, Reported.value_pure,
    noteDuration_readFields, contentPitch?_echo, Reported.value_move, printed, grace, voice, stem,
    staff]
  rfl

theorem diagnostics_reportDescent {root : Token} (accepts : d.Accepts n) :
    (reportDescent d.sticky root n.chord (n.content.echo n.noteType.isNone)).diagnostics = [] := by
  unfold reportDescent
  split
  · rename_i previous current chord before after
    rw [contentPitch?_echo] at after
    obtain ⟨q, hq, rfl⟩ := Option.map_eq_some_iff.mp after
    have order : ({ q with alter := 0 } : Pitch).order = q.order := rfl
    rw [order, if_neg (Int.not_lt.mpr (accepts.ascends chord previous before q hq))]
    rfl
  · rfl

theorem diagnostics_noteDuration {root : Token} (accepts : d.Accepts n) :
    (d.noteDuration root n.noteType (readFields s n)).diagnostics = [] := by
  unfold noteDuration
  rw [grace_readFields]
  split
  · rfl
  · rename_i plain
    cases ht : n.noteType with
    | none =>
      have known := accepts.lasts (by simpa using plain) ht
      dsimp only
      rw [if_neg (by simp [Option.isSome_iff_ne_none.mp known])]
      rfl
    | some t => rfl

theorem diagnostics_reportChordLength {root : Token} (accepts : d.Accepts n) :
    (reportChordLength d.sticky root n.chord (d.lasting n)).diagnostics = [] := by
  unfold reportChordLength
  split
  · rename_i head current chord before after
    rw [if_neg (not_not.mpr (accepts.length chord head before current after))]
    rfl
  · rfl

/-- Nothing is reported of a note that the state accepts. -/
theorem diagnostics_note_noteItem (h : s.Formed (.note n)) (accepts : d.Accepts n) :
    (d.note (s.noteItem n)).diagnostics = [] := by
  have root : rootType? (s.noteItem n).root.terminal = n.noteType := rootType?_root n
  unfold note
  simp only [Reported.diagnostics_bind, value_noteFields_noteItem, root,
    noteContent_readFields h, slash_and_not_grace, Bool.false_eq_true, if_false, grace_readFields,
    chord_readFields, graceSlash_readFields, resolve_readFields, tremolo_readFields,
    Reported.value_pure, Reported.diagnostics_pure, noteDuration_readFields,
    Reported.diagnostics_move,
    diagnostics_noteFields_noteItem accepts.ties accepts.tuplets,
    diagnostics_reportDescent accepts, diagnostics_noteDuration accepts,
    diagnostics_reportChordLength accepts, accepts.beams, List.map_nil, List.append_nil]

end Whole

end DecodingState

end LinearScore
