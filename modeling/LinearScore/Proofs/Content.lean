import Mathlib.Data.List.Forall2
import LinearScore.Proofs.ChordOrder
import LinearScore.Proofs.HeldStreams

/-!
# The notes of a part survive the way to tokens and back

A part of which nothing is reported comes back with the same notes in the same measures.  What
tokens do not say about a note is filled in, so its voice, stem and staff are those stated last.

## Main definitions

* `Stated`, `statedNotes`: the notes of a measure with the values stated last
* `Keeps`: a note has all that is said of another

The main statement is `notes_decodeTexts_encode`.
-/

namespace LinearScore

/-- The voice, stem and staff that notes stated last. -/
structure Stated where
  voice : Option Nat := none
  stem : Option Stem := none
  staff : Option Nat := none

/-- What is stated behind an element; a backup forgets it all. -/
def Stated.after (v : Stated) : Element → Stated
  | .note n => ⟨n.voice.or v.voice, n.stem.or v.stem, n.staff.or v.staff⟩
  | .backup _ => {}
  | .attributes _ | .forward _ => v

/-- The notes among elements, each with what is stated at it, itself included. -/
def statedNotes (v : Stated) : List Element → List (Note × Stated)
  | [] => []
  | e :: es => (e.note?.map fun n => (n, v.after e)).toList ++ statedNotes (v.after e) es

/-- The note `n` has what the note of `source` has, and what is stated at it. -/
structure Keeps (source : Note × Stated) (n : Note) : Prop where
  printed : n.printed = source.1.printed
  grace : n.grace = source.1.grace
  chord : n.chord = source.1.chord
  pitch : n.pitch?.map (fun p => (p.step, p.octave)) =
    source.1.pitch?.map fun p => (p.step, p.octave)
  measureRest : n.isMeasureRest = true ↔
    source.1.isMeasureRest = true ∧ source.1.noteType = none
  noteType : n.noteType = source.1.noteType
  dots : n.dots = source.1.dots
  accidental : n.accidental = source.1.accidental
  ratio : n.ratio = source.1.ratio
  ties : n.ties = source.1.ties.eraseDups
  markings : n.markings =
    { source.1.markings with tuplets := source.1.markings.tuplets.eraseDups }
  voice : n.voice = source.2.voice
  stem : n.stem = source.2.stem
  staff : n.staff = source.2.staff

/-! ## What the last steps of decoding keep -/

/-- The note without its duration and its alteration. -/
def Note.bare (n : Note) : Note :=
  { n with
    duration := none
    content :=
      match n.content with
      | .pitch p => .pitch { p with alter := 0 }
      | .rest m => .rest m }

/-- The note that an element shows when durations and alterations are left out. -/
def Element.bareNotes (e : Element) : List Note := (e.note?.map Note.bare).toList

theorem steady_bareNotes (quarters : Bool) : Steady quarters Element.bareNotes where
  staves _ _ := rfl
  alter n p alter h := by
    simp only [Element.bareNotes, Element.note?, Option.map_some, Note.bare, h]
  divisions _ _ _ := rfl
  durations _ g e := by
    cases e with
    | note n => rfl
    | attributes a => rfl
    | backup d => rfl
    | forward d => rfl
  empty _ := rfl

theorem shown_bareNotes (m : Measure) :
    m.shown Element.bareNotes = m.notes.map Note.bare := by
  rw [Measure.shown, Measure.notes]
  induction m.elements with
  | nil => rfl
  | cons e es ih =>
    rw [List.flatMap_cons, ih, List.filterMap_cons]
    unfold Element.bareNotes
    cases e.note? with
    | none => rfl
    | some n => rfl

theorem keeps_bare (source : Note × Stated) (n : Note) : Keeps source n.bare ↔ Keeps source n := by
  have pitch : n.bare.pitch?.map (fun p => (p.step, p.octave)) =
      n.pitch?.map fun p => (p.step, p.octave) := by
    unfold Note.pitch? Note.bare
    cases n.content <;> rfl
  have rest : n.bare.isMeasureRest = n.isMeasureRest := by
    unfold Note.isMeasureRest Note.bare
    cases n.content <;> simp
  constructor
  · intro h
    exact ⟨h.printed, h.grace, h.chord, pitch ▸ h.pitch, rest ▸ h.measureRest, h.noteType, h.dots,
      h.accidental, h.ratio, h.ties, h.markings, h.voice, h.stem, h.staff⟩
  · intro h
    exact ⟨h.printed, h.grace, h.chord, pitch ▸ h.pitch, rest ▸ h.measureRest, h.noteType, h.dots,
      h.accidental, h.ratio, h.ties, h.markings, h.voice, h.stem, h.staff⟩

/-! ## What is read back -/

/-- A reader has the values that were stated last. -/
structure Stated.Held (v : Stated) (d : DecodingState) : Prop where
  voice : d.sticky.voice = v.voice
  stem : d.sticky.stem = v.stem
  staff : d.sticky.staff = v.staff

/-- The note that is read back has all that is said of the note that was written. -/
theorem keeps_echo {s : EncodingState} {d : DecodingState} {v : Stated} {n : Note}
    (h : s.Formed (.note n)) (held : v.Held d) (dots : n.dots ≤ countLimit) :
    Keeps (n, v.after (.note n)) (d.echo n) where
  printed := rfl
  grace := rfl
  chord := rfl
  pitch := by
    unfold Note.pitch? DecodingState.echo
    cases n.content <;> rfl
  measureRest := by
    have rest : (d.echo n).isMeasureRest = true ↔ n.pitch? = none ∧ n.noteType = none := by
      unfold Note.isMeasureRest Note.pitch? DecodingState.echo
      cases n.content with
      | pitch p => simp [NoteContent.echo]
      | rest m => cases n.noteType <;> simp [NoteContent.echo]
    rw [rest]
    -- a rest without a type is written only if it stands for a measure
    constructor
    · rintro ⟨-, typeless⟩
      exact ⟨h.2 typeless, typeless⟩
    · rintro ⟨measure, typeless⟩
      refine ⟨?_, typeless⟩
      have content : n.content = .rest true := by simpa [Note.isMeasureRest] using measure
      rw [Note.pitch?, content]
  noteType := rfl
  dots := Nat.min_eq_right dots
  accidental := rfl
  ratio := rfl
  ties := rfl
  markings := rfl
  voice := congrArg n.voice.or held.voice
  stem := congrArg n.stem.or held.stem
  staff := congrArg n.staff.or held.staff

/-- The notes of a measure are read back one for one. -/
theorem keeps_echoElements {s : EncodingState} {es : List Element}
    (h : AlongElements EncodingState.Expressible s es)
    (dots : ∀ n ∈ es.filterMap Element.note?, n.dots ≤ countLimit) {d : DecodingState}
    {v : Stated} (held : v.Held d) (run : Option Attributes) :
    List.Forall₂ Keeps (statedNotes v es)
      ((echoElements s d run es).1.filterMap Element.note?) := by
  induction es generalizing s d v run with
  | nil =>
    rw [echoElements, filterMap_note?_closeRun]
    exact .nil
  | cons e es ih =>
    obtain ⟨first, along⟩ := h
    cases e with
    | attributes a =>
      exact ih along dots (d := d.afterShown a) ⟨held.voice, held.stem, held.staff⟩ _
    | note n =>
      rw [List.filterMap_cons_some (f := Element.note?) rfl, List.forall_mem_cons] at dots
      have rest := ih along dots.2 (d := d.afterEcho n) (v := v.after (.note n))
        ⟨congrArg n.voice.or held.voice, congrArg n.stem.or held.stem,
          congrArg n.staff.or held.staff⟩ none
      rw [echoElements, List.filterMap_append, filterMap_note?_closeRun]
      exact .cons (keeps_echo first.formed held dots.1) rest
    | backup t =>
      rw [echoElements, List.filterMap_append, filterMap_note?_closeRun]
      exact ih along dots ⟨rfl, rfl, rfl⟩ none
    | forward t =>
      rw [echoElements, List.filterMap_append, filterMap_note?_closeRun]
      exact ih along dots held none

theorem keeps_echoMeasures {s : EncodingState} {ms : List Measure}
    (h : AlongMeasures EncodingState.Clean s ms)
    (dots : ∀ m ∈ ms, ∀ n ∈ m.notes, n.dots ≤ countLimit) (d : DecodingState) (number : Int) :
    List.Forall₂ (fun m m' => List.Forall₂ Keeps (statedNotes {} m.elements) m'.notes) ms
      (echoMeasures s d number ms) := by
  induction ms generalizing s d number with
  | nil => exact .nil
  | cons m ms ih =>
    obtain ⟨first, along⟩ := h
    obtain ⟨here, later⟩ := List.forall_mem_cons.mp dots
    refine .cons ?_ (ih along later _ _)
    rw [Measure.notes, orderChords_echoElements first, filterMap_note?_mergeSkips]
    exact keeps_echoElements (first.imp fun _ _ clean => clean.expressible) here
      ⟨rfl, rfl, rfl⟩ none

/-- **A part of which nothing is reported keeps its notes on the way to tokens and back**, if the
tokens are decoded to the end, as they are if they are moderate. -/
theorem notes_decodeTexts_encode {p : Part} {texts : List String}
    (written : p.encode.outcome = some (texts, [])) (dots : p.DotsFit) (quarters : Bool) :
    (∀ q reports, (decodeTexts quarters texts).outcome = some (q, reports) →
      List.Forall₂ (fun m m' => List.Forall₂ Keeps (statedNotes {} m.elements) m'.notes)
        p.measures q.measures) ∧
    ∀ most, Moderate 25 most texts → (decodeTexts quarters texts).outcome.isSome = true := by
  refine ⟨fun q reports read => ?_, fun most moderate => ?_⟩
  · obtain ⟨-, rfl, clean⟩ := Reported.outcome_eq_some_iff.mp written
    obtain ⟨-, rfl, -⟩ := Reported.outcome_eq_some_iff.mp read
    have along := along_of_diagnostics_eq_nil clean
    have notes := keeps_echoMeasures along dots {} 1
    have same := map_finish (steady_bareNotes quarters)
      (Part.mk "P1" "" (echoMeasures {} {} 1 p.measures))
    rw [value_decodeTexts_encode (along.imp fun _ _ clean => clean.expressible)]
    -- the relation only looks at the notes without durations and alterations
    refine forall₂_of_map_eq (f := Measure.shown Element.bareNotes)
      (S := fun m l => List.Forall₂ Keeps (statedNotes {} m.elements) l) (fun m m' => ?_) same notes
    rw [shown_bareNotes, List.forall₂_map_right_iff]
    simp only [keeps_bare]
  · rw [Reported.outcome_of_fits (moderate.fits_decodeTexts quarters)]
    rfl

/-- A piano part: a dotted chord over a second voice, then a rest for a measure. -/
def Part.twoVoices : Part where
  id := "P1"
  measures :=
    [{ number := 1
       elements :=
        [.attributes
           { divisions := some 2, key := some ⟨-1⟩, time := some ⟨3, 4⟩, staves := some 2
             clefs := [⟨some 1, "g", 2⟩, ⟨some 2, "F", 4⟩] },
         .note { Note.pitched .e 4 .half 6 with
           dots := 1, voice := some 1, stem := some .up, staff := some 1, ties := [.start] },
         .note { Note.pitched .g 4 .half 6 with dots := 1, chord := true },
         .backup 6,
         .note { Note.pitched .c 3 .half 4 with voice := some 2, staff := some 2 },
         .forward 2] },
     { number := 2
       elements := [.note { content := .rest true, duration := some 6, voice := some 1 }] }]

theorem notes_twoVoices :
    ∃ texts q, Part.twoVoices.encode.outcome = some (texts, []) ∧ Part.twoVoices.DotsFit ∧
      (decodeTexts false texts).outcome = some (q, []) ∧
      List.Forall₂ (fun m m' => List.Forall₂ Keeps (statedNotes {} m.elements) m'.notes)
        Part.twoVoices.measures q.measures := by
  have written : Part.twoVoices.encode.outcome = some (Part.twoVoices.encode.value, []) := by
    decide +kernel
  have dots : Part.twoVoices.DotsFit := by decide +kernel
  have read : (decodeTexts false Part.twoVoices.encode.value).outcome =
      some ((decodeTexts false Part.twoVoices.encode.value).value, []) := by
    decide +kernel
  exact ⟨_, _, written, dots, read, (notes_decodeTexts_encode written dots false).1 _ _ read⟩

/-- A part without divisions, in which no length is compared with the ticks of its note. -/
def Part.unmeasured : Part where
  id := "P1"
  measures := [{ number := 1, elements := [.note { Note.plainRest .quarter 2 with dots := 62 }] }]

/-- Nothing is reported of it, and what is written of it is not decoded to the end. -/
theorem unmeasured_stops :
    Part.unmeasured.DotsFit ∧
      Part.unmeasured.encode.outcome =
        some (["measure", "rest", "quarter"] ++ List.replicate 62 "dot", []) ∧
      (decodeTexts false (["measure", "rest", "quarter"] ++ List.replicate 62 "dot")).outcome =
        none := by
  refine ⟨?_, ?_, ?_⟩ <;> decide +kernel

end LinearScore
