import LinearScore.Proofs.Stability

/-!
# What alterations are inferred from

The inference reads all of a part but the alterations that stand in it, and these are all that it
changes.  So it makes parts equal that differ in nothing else, and a second run finds everything as
the first one left it.  Times are only compared with each other, so it does not matter in which
unit durations are given.

## Main definitions

* `Part.flat`: the part without alterations
* `Sighting.scale`: a sighting in another unit of time

The main statements are `inferAlterations_of_flat_eq` and `inferAlterations_mapDurations`.
-/

namespace LinearScore

variable {σ τ α β : Type}

/-- The part without alterations. -/
def Part.flat (p : Part) : Part := { p with measures := p.measures.map Measure.flat }

/-- A sighting with its time in another unit. -/
def Sighting.scale (r : Rat) (s : Sighting) : Sighting := { s with onset := s.onset * r }

/-! ## Passes that read changed members -/

/-- A pass that does not mind a change of the members. -/
theorem thread_blind {step : σ → α → σ × β} {f : α → α} (h : ∀ s a, step s (f a) = step s a)
    (s : σ) (as : List α) : thread step s (as.map f) = thread step s as := by
  induction as generalizing s with
  | nil => rfl
  | cons a as ih => rw [List.map_cons, thread_cons, thread_cons, h, ih]

/-- A pass that goes in step with another one, its states and members changed by `g` and `f`. -/
theorem thread_changed {step : σ → α → σ × α} {step' : τ → α → τ × α} {g : σ → τ} {f : α → α}
    (h : ∀ s a, step' (g s) (f a) = (g (step s a).1, f (step s a).2)) (s : σ) (as : List α) :
    thread step' (g s) (as.map f) = (g (thread step s as).1, (thread step s as).2.map f) := by
  induction as generalizing s with
  | nil => rfl
  | cons a as ih => rw [List.map_cons, thread_cons, thread_cons, h, ih, List.map_cons]

/-! ## Alterations are not read -/

section Flat

theorem isMeasureRest_flat (n : Note) : n.flat.isMeasureRest = n.isMeasureRest := by
  unfold Note.isMeasureRest Note.flat
  cases n.content <;> simp [NoteContent.flat]

theorem pitch?_flat (n : Note) : n.flat.pitch? = n.pitch?.map fun p => { p with alter := 0 } := by
  unfold Note.pitch? Note.flat
  cases n.content <;> rfl

theorem place?_flat (n : Note) : n.flat.place? = n.place? := by
  rw [Note.place?, pitch?_flat, Note.place?, Option.map_map]
  rfl

theorem sighting?_flat (n : Note) (cursor : Rat) : n.flat.sighting? cursor = n.sighting? cursor := by
  rw [Note.sighting?, place?_flat]
  rfl

theorem sightings_flat (cursor : Rat) (es : List Element) :
    sightings cursor (es.map Element.flat) = sightings cursor es := by
  induction es generalizing cursor with
  | nil => rfl
  | cons e es ih =>
    have advance : e.flat.advance cursor = e.advance cursor := by cases e <;> rfl
    have seen : (e.flat.note?.bind (·.sighting? cursor)) = e.note?.bind (·.sighting? cursor) := by
      cases e with
      | note n => exact sighting?_flat n cursor
      | attributes a => rfl
      | backup d => rfl
      | forward d => rfl
    rw [List.map_cons, sightings, sightings, ih, advance, seen]

namespace AlterationState

/-- The alteration of a note is replaced before anything looks at it. -/
theorem note_flat (s : AlterationState) (seen : List Sighting) (cursor : Rat) (n : Note) :
    s.note seen cursor n.flat = s.note seen cursor n := by
  cases hc : n.content with
  | rest m =>
    -- a rest has no alteration to lose
    have same : n.flat = n := by
      rw [Note.flat, hc, NoteContent.flat, ← hc]
    rw [same]
  | pitch p =>
    have pitch : n.pitch? = some p := by rw [Note.pitch?, hc]
    unfold note
    rw [pitch?_flat, place?_flat, Note.place?, pitch]
    rfl

theorem element_flat (seen : List Sighting) (s : AlterationState × Rat) (e : Element) :
    element seen s e.flat = element seen s e := by
  cases e with
  | note n =>
    show (((s.1.note seen s.2 n.flat).1, _), Element.note (s.1.note seen s.2 n.flat).2) = _
    rw [note_flat]
    rfl
  | attributes a => rfl
  | backup d => rfl
  | forward d => rfl

theorem measure_flat (s : AlterationState) (m : Measure) : s.measure m.flat = s.measure m := by
  show ((thread (element (sightings 0 (m.elements.map Element.flat))) _ _).1.1,
    { m with elements := (thread (element (sightings 0 (m.elements.map Element.flat))) _ _).2 }) = _
  rw [sightings_flat, Measure.flat, thread_blind (element_flat _)]
  rfl

end AlterationState

/-- The inference does not read the alterations that it replaces. -/
theorem inferAlterations_flat (p : Part) : p.flat.inferAlterations = p.inferAlterations := by
  rw [Part.inferAlterations, Part.flat, thread_blind AlterationState.measure_flat]
  rfl

/-- The inference changes nothing but alterations. -/
theorem inferAlterations_keeps (p : Part) : p.inferAlterations.flat = p.flat :=
  congrArg (fun measures => { p with measures }) (flat_inferAlterations p)

/-- A second run finds everything as the first one left it. -/
theorem inferAlterations_twice (p : Part) :
    p.inferAlterations.inferAlterations = p.inferAlterations := by
  rw [← inferAlterations_flat p.inferAlterations, inferAlterations_keeps, inferAlterations_flat]

end Flat

/-! ## Times in another unit -/

section Scale

variable {r : Rat} (positive : 0 < r)

/-- The onset of a note in another unit. -/
theorem onset_scaled (n : Note) (cursor : Rat) :
    ({ n with duration := n.duration.map (· * r) } : Note).onset (cursor * r) =
      n.onset cursor * r := by
  unfold Note.onset
  dsimp only
  cases n.chord with
  | false => rfl
  | true =>
    cases n.duration with
    | none => rfl
    | some d => exact (sub_mul cursor d r).symm

theorem advance_scaled (e : Element) (cursor : Rat) :
    (e.mapDuration (· * r)).advance (cursor * r) = e.advance cursor * r := by
  cases e with
  | attributes a => rfl
  | note n =>
    show (if n.chord then _ else _) = (if n.chord then _ else _) * r
    split
    · rfl
    · show cursor * r + (n.duration.map (· * r)).getD 0 = (cursor + n.duration.getD 0) * r
      cases n.duration with
      | none => simp
      | some d => exact (add_mul cursor d r).symm
  | backup d => exact (sub_mul cursor d r).symm
  | forward d => exact (add_mul cursor d r).symm

theorem sightings_scaled (cursor : Rat) (es : List Element) :
    sightings (cursor * r) (es.map (Element.mapDuration (· * r))) =
      (sightings cursor es).map (Sighting.scale r) := by
  induction es generalizing cursor with
  | nil => rfl
  | cons e es ih =>
    have seen : ((e.mapDuration (· * r)).note?.bind (·.sighting? (cursor * r))) =
        (e.note?.bind (·.sighting? cursor)).map (Sighting.scale r) := by
      cases e with
      | note n =>
        have place : ({ n with duration := n.duration.map (· * r) } : Note).place? = n.place? := rfl
        simp only [Element.mapDuration, Element.note?, Option.bind_some, Note.sighting?, place,
          onset_scaled]
        cases n.place? with
        | none => rfl
        | some place => cases n.accidental <;> rfl
      | attributes a => rfl
      | backup d => rfl
      | forward d => rfl
    rw [List.map_cons, sightings, sightings, advance_scaled, ih, seen, List.map_append]
    cases e.note?.bind (·.sighting? cursor) <;> rfl

include positive

theorem laterSighting_scaled (best : Option Sighting) (s : Sighting) :
    laterSighting (best.map (Sighting.scale r)) (s.scale r) =
      (laterSighting best s).map (Sighting.scale r) := by
  cases best with
  | none => rfl
  | some b =>
    -- times are only compared, and a positive unit keeps their order
    show (if b.onset * r ≤ s.onset * r then _ else _) = Option.map _ (if _ then _ else _)
    simp only [mul_le_mul_iff_left₀ positive]
    split <;> rfl

theorem foldl_laterSighting_scaled (best : Option Sighting) (ss : List Sighting) :
    (ss.map (Sighting.scale r)).foldl laterSighting (best.map (Sighting.scale r)) =
      (ss.foldl laterSighting best).map (Sighting.scale r) := by
  induction ss generalizing best with
  | nil => rfl
  | cons s ss ih =>
    rw [List.map_cons, List.foldl_cons, List.foldl_cons, laterSighting_scaled positive, ih]

/-- The latest accidental is the latest one in every unit. -/
theorem carriedAccidental_scaled (seen : List Sighting) (place : Place) (onset : Rat) :
    carriedAccidental (seen.map (Sighting.scale r)) place (onset * r) =
      carriedAccidental seen place onset := by
  have here : (seen.map (Sighting.scale r)).filter
        (fun s => s.place = place && s.onset ≤ onset * r) =
      (seen.filter fun s => s.place = place && s.onset ≤ onset).map (Sighting.scale r) := by
    rw [List.filter_map]
    refine congrArg (List.map _) (List.filter_congr fun s _ => ?_)
    show (decide (s.place = place) && decide (s.onset * r ≤ onset * r)) = _
    rw [decide_eq_decide.mpr (mul_le_mul_iff_left₀ positive)]
  unfold carriedAccidental
  dsimp only
  rw [here, show (none : Option Sighting) = Option.map (Sighting.scale r) none from rfl,
    foldl_laterSighting_scaled positive, Option.map_map]
  rfl

namespace AlterationState

theorem note_scaled (s : AlterationState) (seen : List Sighting) (cursor : Rat) (n : Note) :
    s.note (seen.map (Sighting.scale r)) (cursor * r)
        { n with duration := n.duration.map (· * r) } =
      ((s.note seen cursor n).1,
        { (s.note seen cursor n).2 with
          duration := (s.note seen cursor n).2.duration.map (· * r) }) := by
  have alteration (place : Place) :
      s.alteration (seen.map (Sighting.scale r)) place
          (({ n with duration := n.duration.map (· * r) } : Note).onset (cursor * r)) =
        s.alteration seen place (n.onset cursor) := by
    unfold AlterationState.alteration
    rw [onset_scaled, carriedAccidental_scaled positive]
  have pitch : ({ n with duration := n.duration.map (· * r) } : Note).pitch? = n.pitch? := rfl
  have place : ({ n with duration := n.duration.map (· * r) } : Note).place? = n.place? := rfl
  unfold note
  simp only [alteration, pitch, place]
  split
  · rfl
  · rfl

theorem element_scaled (seen : List Sighting) (s : AlterationState × Rat) (e : Element) :
    element (seen.map (Sighting.scale r)) (s.1, s.2 * r) (e.mapDuration (· * r)) =
      (((element seen s e).1.1, (element seen s e).1.2 * r),
        (element seen s e).2.mapDuration (· * r)) := by
  have advance := advance_scaled (r := r) e s.2
  cases e with
  | attributes a => rfl
  | note n =>
    show (((s.1.note _ _ { n with duration := _ }).1, Element.advance _ _),
      Element.note (s.1.note _ _ { n with duration := _ }).2) = _
    rw [note_scaled positive]
    exact congrArg (fun cursor => (((s.1.note seen s.2 n).1, cursor), _)) advance
  | backup d => exact congrArg (fun cursor => ((s.1, cursor), _)) advance
  | forward d => exact congrArg (fun cursor => ((s.1, cursor), _)) advance

theorem measure_scaled (s : AlterationState) (m : Measure) :
    s.measure { m with elements := m.elements.map (Element.mapDuration (· * r)) } =
      ((s.measure m).1,
        { (s.measure m).2 with
          elements := (s.measure m).2.elements.map (Element.mapDuration (· * r)) }) := by
  have seen := sightings_scaled (r := r) 0 m.elements
  rw [zero_mul] at seen
  have elements := thread_changed (g := fun s : AlterationState × Rat => (s.1, s.2 * r))
    (element_scaled positive (sightings 0 m.elements))
    ({ s with previous := s.current, current := fun _ => none }, 0) m.elements
  rw [zero_mul] at elements
  unfold measure
  dsimp only
  rw [seen, elements]

end AlterationState

/-- **Alterations can be inferred in any unit of time.** -/
theorem inferAlterations_mapDurations (p : Part) :
    (p.mapDurations (· * r)).inferAlterations = p.inferAlterations.mapDurations (· * r) := by
  have measures := thread_changed (g := id) (AlterationState.measure_scaled positive) {} p.measures
  exact congrArg (fun measures => { p with measures }) (congrArg Prod.snd measures)

end Scale

/-- Divisions can be declared before or behind the inference. -/
theorem inferAlterations_declareDivisions (d : Int) (p : Part) :
    (p.declareDivisions d).inferAlterations = p.inferAlterations.declareDivisions d := by
  have head (s : AlterationState) (m : Measure) :
      s.measure (m.withHead fun a => { a with divisions := some d }) =
        ((s.measure m).1, (s.measure m).2.withHead fun a => { a with divisions := some d }) := by
    obtain ⟨number, implicit, newSystem, newPage, elements⟩ := m
    cases elements with
    | nil => rfl
    | cons e es => cases e <;> rfl
  obtain ⟨id, name, measures⟩ := p
  cases measures with
  | nil => rfl
  | cons m ms =>
    show Part.mk id name (thread _ ({} : AlterationState) (m.withHead _ :: ms)).2 =
      Part.declareDivisions d (Part.mk id name (thread _ ({} : AlterationState) (m :: ms)).2)
    rw [thread_cons, head, thread_cons]
    rfl

end LinearScore
