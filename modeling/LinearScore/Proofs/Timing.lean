import LinearScore.Proofs.ChordOrder
import LinearScore.Proofs.HeldStreams

/-!
# The durations of a part on the way to tokens and back

Tokens have no durations.  A note comes back with the duration that its note type, dots and tuplet
ratio say, and a measure rest without a type with that of the time signature.  For a part of which
nothing is reported this is the duration that was there, with one exception: of a measure rest it
is only tested that it fills a measure in the ticks that a measure had where the time signature
stands.  So a rest comes back with another duration if it has a type that says something else, or
if other divisions were declared in between.

## Main definitions

* `Meter`, `Part.metered`: the divisions and the time signature in force at each element
* `NotesKept`, `SkipsKept`: what comes back lasts as long as what was there
* `RestAgrees`: a measure rest lasts as long as it is written

The main statement is `timing_decodeTexts_encode`.
-/

namespace LinearScore

/-- The divisions and the time signature in force. -/
structure Meter where
  divisions : Option Int := none
  time : Option TimeSignature := none
  deriving DecidableEq

namespace Meter

/-- The meter behind an element. -/
def after (c : Meter) : Element → Meter
  | .attributes a => ⟨a.divisions.or c.divisions, a.time.or c.time⟩
  | _ => c

/-- The meter behind an element, and the element with it. -/
def element (c : Meter) (e : Element) : Meter × (Element × Meter) := (c.after e, (e, c.after e))

/-- The meter behind a measure, and the elements of the measure with theirs. -/
def measure (c : Meter) (m : Measure) : Meter × List (Element × Meter) :=
  thread element c m.elements

/-- A duration in quarters. -/
def quarters (c : Meter) (duration : Rat) : Rat := duration / (c.divisions.getD 1 : Int)

end Meter

/-- The elements of each measure with the meter in force. -/
def Part.metered (p : Part) : List (List (Element × Meter)) :=
  (thread Meter.measure {} p.measures).2

/-- Divisions are declared before every duration. -/
def Part.DivisionsFirst (p : Part) : Prop :=
  ∀ es ∈ p.metered, ∀ x ∈ es, x.1.duration?.isSome = true → x.2.divisions.isSome = true

instance (p : Part) : Decidable p.DivisionsFirst :=
  inferInstanceAs (Decidable (∀ es ∈ p.metered, ∀ x ∈ es,
    x.1.duration?.isSome = true → x.2.divisions.isSome = true))

/-- How far an element moves the cursor back. -/
def Element.back : Element → Rat
  | .backup d => d
  | _ => 0

/-- How far an element moves the cursor forward without a note. -/
def Element.ahead : Element → Rat
  | .forward d => d
  | _ => 0

/-- The notes of a measure with the meter in force. -/
def meteredNotes (es : List (Element × Meter)) : List (Note × Meter) :=
  es.filterMap fun x => x.1.note?.map fun n => (n, x.2)

/-- The note lasts as many quarters as the other one has ticks, up to rounding. -/
def NoteKept (x : Note × Meter) (n : Note) : Prop :=
  x.1.grace = none → ∃ d ∈ x.2.divisions, ∃ q ∈ n.duration,
    x.1.duration = some (roundAway (q * (d : Rat)) : Rat)

/-- The notes of a measure last as long as those with their meter. -/
def NotesKept (es : List (Element × Meter)) (m : Measure) : Prop :=
  List.Forall₂ NoteKept (meteredNotes es) m.notes

/-- The backups of a measure add up to the same number of quarters, and so do the forwards. -/
structure SkipsKept (es : List (Element × Meter)) (m : Measure) : Prop where
  back : (m.elements.map Element.back).sum = (es.map fun x => x.2.quarters x.1.back).sum
  ahead : (m.elements.map Element.ahead).sum = (es.map fun x => x.2.quarters x.1.ahead).sum

instance (x : Note × Meter) (n : Note) : Decidable (NoteKept x n) :=
  inferInstanceAs (Decidable (x.1.grace = none → ∃ d ∈ x.2.divisions, ∃ q ∈ n.duration,
    x.1.duration = some (roundAway (q * (d : Rat)) : Rat)))

instance (es : List (Element × Meter)) (m : Measure) : Decidable (NotesKept es m) :=
  inferInstanceAs (Decidable (List.Forall₂ NoteKept (meteredNotes es) m.notes))

/-- The length in quarters that the tokens of a note say. -/
def writtenLength (x : Note × Meter) : Option Rat :=
  match x.1.noteType with
  | some t => some (noteLength t x.1.dots x.1.ratio)
  | none => x.2.time.map measureLength

/-- A rest that stands for a measure lasts as long as it is written. -/
def RestAgrees (x : Note × Meter) : Prop :=
  x.1.isMeasureRest = true → x.1.grace = none → ∃ d ∈ x.2.divisions, ∃ l ∈ writtenLength x,
    x.1.duration = some (roundAway (l * (d : Rat)) : Rat)

/-- Every rest that stands for a measure lasts as long as it is written. -/
def Part.RestsAgree (p : Part) : Prop :=
  ∀ es ∈ p.metered, ∀ x ∈ meteredNotes es, RestAgrees x

/-! ## One note -/

/-- The writer counts in the divisions in force, and the reader knows the length of a measure. -/
structure Meter.Held (c : Meter) (s : EncodingState) (d : DecodingState) : Prop where
  divisions : s.divisions = c.divisions
  fullMeasure : d.fullMeasure = c.time.map measureLength

theorem Meter.Held.attributes {c : Meter} {s : EncodingState} {d : DecodingState}
    {a : Attributes} (held : c.Held s d) (clean : s.Clean (.attributes a)) :
    (c.after (.attributes a)).Held (s.afterAttributes a) (d.afterShown a) where
  divisions := by
    have positive := (faults_append_eq_nil.mp (faults_append_eq_nil.mp
      (faults_append_eq_nil.mp clean).1).1).1
    show s.divisionsAfter a = a.divisions.or c.divisions
    rw [← held.divisions]
    unfold EncodingState.divisionsAfter
    cases ha : a.divisions with
    | none => rfl
    | some d =>
      rw [ha] at positive
      have above := faults_faultIf_eq_nil.mp positive
      rw [decide_eq_false_iff_not, Int.not_le] at above
      dsimp only
      rw [if_pos above]
      rfl
  fullMeasure := by
    show (a.time.map measureLength).or d.fullMeasure = (a.time.or c.time).map measureLength
    rw [held.fullMeasure]
    cases a.time with
    | none => rfl
    | some t => rfl

theorem Meter.Held.note {c : Meter} {s : EncodingState} {d : DecodingState} (held : c.Held s d)
    (n : Note) : c.Held (s.afterNote n) (d.afterEcho n) :=
  ⟨held.divisions, held.fullMeasure⟩

theorem Meter.Held.backup {c : Meter} {s : EncodingState} {d : DecodingState} (held : c.Held s d)
    (t : Rat) : c.Held (s.after (.backup t)) { d with sticky := {} } :=
  ⟨held.divisions, held.fullMeasure⟩

theorem Meter.Held.forward {c : Meter} {s : EncodingState} {d : DecodingState}
    (held : c.Held s d) (t : Rat) : c.Held (s.after (.forward t)) d :=
  ⟨held.divisions, held.fullMeasure⟩

/-- A note comes back with the length that its tokens say. -/
theorem lasting_eq_writtenLength {s : EncodingState} {d : DecodingState} {c : Meter} {n : Note}
    (held : c.Held s d) (plain : n.grace = none) (dots : n.dots ≤ countLimit) :
    d.lasting n = writtenLength (n, c) := by
  unfold DecodingState.lasting writtenLength
  rw [plain, held.fullMeasure, Nat.min_eq_right dots]
  cases n.noteType with
  | none => rfl
  | some t => rfl

/-- A note that is no grace note has a duration. -/
theorem isSome_duration_of_clean {s : EncodingState} {n : Note} (clean : s.Clean (.note n))
    (plain : n.grace = none) : n.duration.isSome = true := by
  have length := (faults_append_eq_nil.mp clean).2
  rw [EncodingState.lengthEmissions, faults_append_eq_nil, faults_append_eq_nil] at length
  have present := faults_faultIf_eq_nil.mp length.1.1
  rw [plain] at present
  cases hd : n.duration with
  | none => simp [hd] at present
  | some _ => rfl

/-- A note that is no measure rest lasts as long as it is written. -/
theorem duration_of_clean {s : EncodingState} {n : Note} {divisions : Int}
    (clean : s.Clean (.note n)) (plain : n.grace = none) (rest : n.isMeasureRest = false)
    (hs : s.divisions = some divisions) :
    ∃ t, n.noteType = some t ∧
      n.duration = some (roundAway (noteLength t n.dots n.ratio * (divisions : Rat)) : Rat) := by
  obtain ⟨duration, hd⟩ := Option.isSome_iff_exists.mp (isSome_duration_of_clean clean plain)
  obtain ⟨t, ht⟩ : ∃ t, n.noteType = some t := by
    cases ht : n.noteType with
    | none => exact absurd (clean.formed.2 ht) (by simp [rest])
    | some t => exact ⟨t, rfl⟩
  have length := (faults_append_eq_nil.mp clean).2
  rw [EncodingState.lengthEmissions, faults_append_eq_nil, faults_append_eq_nil] at length
  have agrees := length.1.2
  simp only [durationEmissions, hd, rest, Bool.false_eq_true, if_false, ht, hs] at agrees
  have equal := faults_faultIf_eq_nil.mp agrees
  rw [decide_eq_false_iff_not, not_not] at equal
  exact ⟨t, ht, by rw [hd, ← equal]; rfl⟩

/-- **What decides about one note**: it comes back with its duration if it is no measure rest, and
otherwise exactly if it lasts as long as it is written. -/
theorem noteKept_echo {s : EncodingState} {d : DecodingState} {c : Meter} {n : Note}
    (clean : s.Clean (.note n)) (held : c.Held s d) (dots : n.dots ≤ countLimit)
    (first : n.duration.isSome = true → c.divisions.isSome = true) :
    NoteKept (n, c) (d.echo n) ↔ RestAgrees (n, c) := by
  have duration : (d.echo n).duration = d.lasting n := rfl
  unfold NoteKept RestAgrees
  rw [duration]
  by_cases plain : n.grace = none
  · rw [lasting_eq_writtenLength held plain dots]
    cases rest : n.isMeasureRest with
    | true => exact ⟨fun kept _ => kept, fun agrees => agrees rfl⟩
    | false =>
      refine ⟨fun _ rest => absurd rest Bool.false_ne_true, fun _ _ => ?_⟩
      obtain ⟨divisions, hc⟩ :=
        Option.isSome_iff_exists.mp (first (isSome_duration_of_clean clean plain))
      obtain ⟨t, ht, eq⟩ := duration_of_clean clean plain rest (held.divisions.trans hc)
      refine ⟨divisions, hc, noteLength t n.dots n.ratio, ?_, eq⟩
      simp [writtenLength, ht]
  · exact ⟨fun _ _ plain' => absurd plain' plain, fun _ plain' => absurd plain' plain⟩

/-! ## One measure -/

theorem meteredNotes_cons (e : Element) (c : Meter) (es : List (Element × Meter)) :
    meteredNotes ((e, c) :: es) =
      (e.note?.map fun n => (n, c)).toList ++ meteredNotes es := by
  rw [meteredNotes, List.filterMap_cons]
  cases e.note? with
  | none => rfl
  | some n => rfl

section Measure

variable {s : EncodingState} {es : List Element}
  (clean : AlongElements EncodingState.Clean s es)
include clean

/-- Reader and writer are in the same meter behind the elements of a measure. -/
theorem held_echoElements {d : DecodingState} {c : Meter} (held : c.Held s d)
    (run : Option Attributes) :
    (thread Meter.element c es).1.Held (es.foldl EncodingState.after s)
      (echoElements s d run es).2 := by
  induction es generalizing s d c run with
  | nil => exact held
  | cons e es ih =>
    obtain ⟨first, along⟩ := clean
    cases e with
    | attributes a => exact ih along (held.attributes first) _
    | note n => exact ih along (held.note n) none
    | backup t => exact ih along (held.backup t) none
    | forward t => exact ih along (held.forward t) none

/-- Each note comes back with its duration exactly if it agrees with what is written. -/
theorem notesKept_echoElements {d : DecodingState} {c : Meter} (held : c.Held s d)
    (dots : ∀ n ∈ es.filterMap Element.note?, n.dots ≤ countLimit)
    (first : ∀ x ∈ (thread Meter.element c es).2,
      x.1.duration?.isSome = true → x.2.divisions.isSome = true) (run : Option Attributes) :
    List.Forall₂ (fun x n => NoteKept x n ↔ RestAgrees x)
      (meteredNotes (thread Meter.element c es).2)
      ((echoElements s d run es).1.filterMap Element.note?) := by
  induction es generalizing s d c run with
  | nil =>
    rw [echoElements, filterMap_note?_closeRun]
    exact .nil
  | cons e es ih =>
    obtain ⟨here, along⟩ := clean
    rw [thread_cons, List.forall_mem_cons] at first
    rw [thread_cons]
    show List.Forall₂ _ (meteredNotes ((e, c.after e) :: _)) _
    rw [meteredNotes_cons]
    cases e with
    | attributes a => exact ih along (held.attributes here) dots first.2 _
    | note n =>
      rw [List.filterMap_cons_some (f := Element.note?) rfl, List.forall_mem_cons] at dots
      rw [echoElements, List.filterMap_append, filterMap_note?_closeRun]
      exact .cons (noteKept_echo here held dots.1 first.1)
        (ih along (held.note n) dots.2 first.2 none)
    | backup t =>
      rw [echoElements, List.filterMap_append, filterMap_note?_closeRun]
      exact ih along (held.backup t) dots first.2 none
    | forward t =>
      rw [echoElements, List.filterMap_append, filterMap_note?_closeRun]
      exact ih along (held.forward t) dots first.2 none

end Measure

/-- What moves of the cursor add up to: a multiple of the duration of each of them, and nothing of
other elements. -/
structure MovesCursor (f : Element → Rat) : Prop where
  attributes : ∀ a, f (.attributes a) = 0
  note : ∀ n, f (.note n) = 0
  backup : ∃ k, ∀ d, f (.backup d) = d * k
  forward : ∃ k, ∀ d, f (.forward d) = d * k

theorem movesCursor_back : MovesCursor Element.back where
  attributes _ := rfl
  note _ := rfl
  backup := ⟨1, fun d => (mul_one d).symm⟩
  forward := ⟨0, fun d => (mul_zero d).symm⟩

theorem movesCursor_ahead : MovesCursor Element.ahead where
  attributes _ := rfl
  note _ := rfl
  backup := ⟨0, fun d => (mul_zero d).symm⟩
  forward := ⟨1, fun d => (mul_one d).symm⟩

section Moves

variable {f : Element → Rat} (moves : MovesCursor f)
include moves

/-- Merging backups and forwards keeps what they add up to. -/
theorem MovesCursor.sum_mergeSkips (es : List Element) :
    ((mergeSkips es).map f).sum = (es.map f).sum := by
  obtain ⟨k, backup⟩ := moves.backup
  obtain ⟨l, forward⟩ := moves.forward
  have join (e : Element) (es : List Element) :
      ((joinSkip e es).map f).sum = ((e :: es).map f).sum := by
    unfold joinSkip
    split
    · simp only [List.map_cons, List.sum_cons, backup]
      ring
    · simp only [List.map_cons, List.sum_cons, forward]
      ring
    · rfl
  induction es with
  | nil => rfl
  | cons e es ih =>
    refine (join e (mergeSkips es)).trans ?_
    rw [List.map_cons, List.map_cons, List.sum_cons, List.sum_cons, ih]

theorem MovesCursor.sum_closeRun (run : Option Attributes) (es : List Element) :
    ((closeRun run ++ es).map f).sum = (es.map f).sum := by
  cases run with
  | none => rfl
  | some a =>
    show (f (.attributes a) :: es.map f).sum = _
    rw [List.sum_cons, moves.attributes, zero_add]

/-- Backups and forwards come back with their durations in quarters. -/
theorem MovesCursor.sum_echoElements {s : EncodingState} {es : List Element}
    (clean : AlongElements EncodingState.Clean s es) {d : DecodingState} {c : Meter}
    (held : c.Held s d) (run : Option Attributes) :
    ((echoElements s d run es).1.map f).sum =
      ((thread Meter.element c es).2.map fun x => x.2.quarters (f x.1)).sum := by
  obtain ⟨k, backup⟩ := moves.backup
  obtain ⟨l, forward⟩ := moves.forward
  induction es generalizing s d c run with
  | nil =>
    have closed := moves.sum_closeRun run []
    rwa [List.append_nil] at closed
  | cons e es ih =>
    obtain ⟨here, along⟩ := clean
    rw [thread_cons, List.map_cons, List.sum_cons]
    cases e with
    | attributes a =>
      refine (ih along (held.attributes here) _).trans ?_
      simp only [Meter.element, moves.attributes, Meter.quarters, zero_div, zero_add]
    | note n =>
      refine (moves.sum_closeRun run _).trans ?_
      rw [List.map_cons, List.sum_cons]
      simp only [Meter.element, moves.note, Meter.quarters, zero_div, zero_add]
      exact ih along (held.note n) none
    | backup t =>
      refine (moves.sum_closeRun run _).trans ?_
      rw [List.map_cons, List.sum_cons, ih along (held.backup t), held.divisions, backup]
      simp only [Meter.element, backup, Meter.quarters, Meter.after]
      ring
    | forward t =>
      refine (moves.sum_closeRun run _).trans ?_
      rw [List.map_cons, List.sum_cons, ih along (held.forward t), held.divisions, forward]
      simp only [Meter.element, forward, Meter.quarters, Meter.after]
      ring

end Moves

/-! ## The whole part -/

/-- The duration of a note, and how far an element moves the cursor without a note. -/
def Element.timing (e : Element) : Option (Option Rat) × Rat × Rat :=
  (e.note?.map (·.duration), e.back, e.ahead)

/-- The last steps of decoding to quarters keep the timing. -/
theorem steady_timing : Steady true fun e => [e.timing] where
  staves _ _ := rfl
  alter _ _ _ _ := rfl
  divisions ticks := absurd ticks.symm Bool.false_ne_true
  durations ticks := absurd ticks.symm Bool.false_ne_true
  empty ticks := absurd ticks.symm Bool.false_ne_true

theorem shown_timing (m : Measure) : m.shown (fun e => [e.timing]) = m.elements.map Element.timing :=
  List.map_eq_flatMap.symm

/-- What was found out about one measure. -/
def MeasureTimed (es : List (Element × Meter)) (m : Measure) : Prop :=
  SkipsKept es m ∧
    List.Forall₂ (fun x n => NoteKept x n ↔ RestAgrees x) (meteredNotes es) m.notes

theorem timed_echoMeasures {s : EncodingState} {ms : List Measure}
    (clean : AlongMeasures EncodingState.Clean s ms)
    (dots : ∀ m ∈ ms, ∀ n ∈ m.notes, n.dots ≤ countLimit) {d : DecodingState} {c : Meter}
    (held : c.Held s d)
    (first : ∀ es ∈ (thread Meter.measure c ms).2, ∀ x ∈ es,
      x.1.duration?.isSome = true → x.2.divisions.isSome = true) (number : Int) :
    List.Forall₂ MeasureTimed (thread Meter.measure c ms).2 (echoMeasures s d number ms) := by
  induction ms generalizing s d c number with
  | nil => exact .nil
  | cons m ms ih =>
    obtain ⟨here, along⟩ := clean
    obtain ⟨dotsHere, dotsLater⟩ := List.forall_mem_cons.mp dots
    rw [thread_cons, List.forall_mem_cons] at first
    have begun : c.Held s.startMeasure { d with sticky := {} } :=
      ⟨held.divisions, held.fullMeasure⟩
    rw [thread_cons, echoMeasures]
    refine .cons ⟨⟨?_, ?_⟩, ?_⟩ (ih along dotsLater (held_echoElements here begun none) first.2 _)
    · rw [orderChords_echoElements here, movesCursor_back.sum_mergeSkips]
      exact movesCursor_back.sum_echoElements here begun none
    · rw [orderChords_echoElements here, movesCursor_ahead.sum_mergeSkips]
      exact movesCursor_ahead.sum_echoElements here begun none
    · rw [Measure.notes, orderChords_echoElements here, filterMap_note?_mergeSkips]
      exact notesKept_echoElements here begun dotsHere first.1 none

/-- Where the right side of a relation does not matter, it holds of two lists if it holds all along
the left one. -/
theorem forall₂_iff_forall_mem {α β : Type} {R : α → β → Prop} {P : α → Prop} {as : List α}
    {bs : List β} (h : List.Forall₂ (fun a b => R a b ↔ P a) as bs) :
    List.Forall₂ R as bs ↔ ∀ a ∈ as, P a := by
  induction h with
  | nil => exact iff_of_true .nil (List.forall_mem_nil _)
  | cons first _ ih => rw [List.forall₂_cons, List.forall_mem_cons, first, ih]

/-- The timing of a part of which nothing is reported comes back, as far as its rests agree. -/
theorem value_timing_decodeTexts_encode {p : Part} (clean : p.encode.diagnostics = [])
    (first : p.DivisionsFirst) (dots : p.DotsFit) :
    List.Forall₂ SkipsKept p.metered (decodeTexts true p.encode.value).value.measures ∧
      (List.Forall₂ NotesKept p.metered (decodeTexts true p.encode.value).value.measures ↔
        p.RestsAgree) := by
  have along := along_of_diagnostics_eq_nil clean
  have echoed := timed_echoMeasures along dots (d := {}) (c := {}) ⟨rfl, rfl⟩ first 1
  have same := map_finish steady_timing (Part.mk "P1" "" (echoMeasures {} {} 1 p.measures))
  rw [value_decodeTexts_encode (along.imp fun _ _ clean => clean.expressible)]
  have timed : List.Forall₂ MeasureTimed p.metered
      ((Part.mk "P1" "" (echoMeasures {} {} 1 p.measures)).finish true).value.measures := by
    refine forall₂_of_map_eq (f := Measure.shown fun e => [e.timing])
      (S := fun es l =>
        ((l.map (·.2.1)).sum = (es.map fun x => x.2.quarters x.1.back).sum ∧
          (l.map (·.2.2)).sum = (es.map fun x => x.2.quarters x.1.ahead).sum) ∧
        List.Forall₂ (fun (x : Note × Meter) (duration : Option Rat) =>
          (x.1.grace = none → ∃ d ∈ x.2.divisions, ∃ q ∈ duration,
            x.1.duration = some (roundAway (q * (d : Rat)) : Rat)) ↔ RestAgrees x)
          (meteredNotes es) (l.filterMap (·.1))) (fun es m => ?_) same echoed
    have notes : (m.elements.map Element.timing).filterMap (·.1) = m.notes.map (·.duration) := by
      rw [List.filterMap_map, Measure.notes, List.map_filterMap]
      rfl
    rw [shown_timing, notes, List.forall₂_map_right_iff, List.map_map, List.map_map]
    exact ⟨fun h => ⟨⟨h.1.back, h.1.ahead⟩, h.2⟩, fun h => ⟨⟨h.1.1, h.1.2⟩, h.2⟩⟩
  refine ⟨timed.imp fun _ _ h => h.1, forall₂_iff_forall_mem (timed.imp fun es m h => ?_)⟩
  exact forall₂_iff_forall_mem h.2

/-- **The timing of a part of which nothing is reported** is kept on the way to tokens and back: the
backups and forwards always, and the notes exactly if every rest that stands for a measure lasts as
long as it is written.  This is so for what is arrived at, and moderate texts are decoded to the
end. -/
theorem timing_decodeTexts_encode {p : Part} (clean : p.encode.diagnostics = [])
    (first : p.DivisionsFirst) (dots : p.DotsFit) :
    List.Forall₂ SkipsKept p.metered (decodeTexts true p.encode.value).value.measures ∧
      (List.Forall₂ NotesKept p.metered (decodeTexts true p.encode.value).value.measures ↔
        p.RestsAgree) ∧
      ∀ texts reports, p.encode.outcome = some (texts, reports) →
        (∀ q found, (decodeTexts true texts).outcome = some (q, found) →
          List.Forall₂ SkipsKept p.metered q.measures ∧
            (List.Forall₂ NotesKept p.metered q.measures ↔ p.RestsAgree)) ∧
        ∀ most, Moderate 25 most texts → (decodeTexts true texts).outcome.isSome = true := by
  have kept := value_timing_decodeTexts_encode clean first dots
  refine ⟨kept.1, kept.2, fun texts reports written => ?_⟩
  obtain ⟨-, rfl, -⟩ := Reported.outcome_eq_some_iff.mp written
  refine ⟨fun q found decoded => ?_, fun most moderate => ?_⟩
  · obtain ⟨-, rfl, -⟩ := Reported.outcome_eq_some_iff.mp decoded
    exact kept
  · rw [Reported.outcome_of_fits (moderate.fits_decodeTexts true)]
    rfl

/-- Two voices under a time signature, and a rest for a measure behind other divisions that are
declared together with the time signature. -/
def Part.twoMeters : Part where
  id := "P1"
  measures :=
    [{ number := 1
       elements :=
        [.attributes { divisions := some 2, time := some ⟨3, 4⟩ },
         .note { Note.pitched .e 4 .quarter 2 with voice := some 1 },
         .note { Note.pitched .d 4 .eighth 1 with ratio := some ⟨3, 2⟩ },
         .forward 3,
         .backup 6,
         .note { Note.pitched .c 3 .half 6 with voice := some 2, dots := 1 }] },
     { number := 2
       elements :=
        [.attributes { divisions := some 4, time := some ⟨2, 4⟩ },
         .note { content := .rest true, duration := some 8 }] }]

theorem timing_twoMeters :
    Part.twoMeters.encode.diagnostics = [] ∧ Part.twoMeters.DivisionsFirst ∧
      Part.twoMeters.DotsFit ∧
      List.Forall₂ SkipsKept Part.twoMeters.metered
          (decodeTexts true Part.twoMeters.encode.value).value.measures ∧
        (List.Forall₂ NotesKept Part.twoMeters.metered
            (decodeTexts true Part.twoMeters.encode.value).value.measures ↔
          Part.twoMeters.RestsAgree) ∧
        ∃ texts q found, Part.twoMeters.encode.outcome = some (texts, []) ∧
          (decodeTexts true texts).outcome = some (q, found) ∧
          List.Forall₂ SkipsKept Part.twoMeters.metered q.measures := by
  have clean : Part.twoMeters.encode.diagnostics = [] := by decide +kernel
  have first : Part.twoMeters.DivisionsFirst := by decide +kernel
  have dots : Part.twoMeters.DotsFit := by decide +kernel
  have written : Part.twoMeters.encode.outcome = some (Part.twoMeters.encode.value, []) := by
    decide +kernel
  obtain ⟨skips, notes, arrives⟩ := timing_decodeTexts_encode clean first dots
  obtain ⟨kept, moderate⟩ := arrives _ _ written
  obtain ⟨⟨q, found⟩, decoded⟩ :=
    Option.isSome_iff_exists.mp (moderate 1 (by decide +kernel))
  exact ⟨clean, first, dots, skips, notes, _, q, found, written, decoded,
    (kept q found decoded).1⟩

/-- A rest that stands for a measure of three quarters and has the type of a whole note. -/
def Part.typedRest : Part where
  id := "P1"
  measures :=
    [{ number := 1
       elements :=
        [.attributes { divisions := some 1, time := some ⟨3, 4⟩ },
         .note { content := .rest true, noteType := some .whole, duration := some 3 }] }]

/-- Nothing is reported of such a rest, and it comes back with the length of a whole note. -/
theorem typedRest_not_kept :
    Part.typedRest.encode.diagnostics = [] ∧ Part.typedRest.DivisionsFirst ∧
      Part.typedRest.DotsFit ∧
      ¬ List.Forall₂ NotesKept Part.typedRest.metered
        (decodeTexts true Part.typedRest.encode.value).value.measures := by
  decide +kernel

end LinearScore
