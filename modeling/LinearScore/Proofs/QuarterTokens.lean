import LinearScore.Proofs.HeldEncoding
import LinearScore.Proofs.SystemEncoding
import LinearScore.Proofs.TicksAndQuarters

/-!
# Tokens as a function of quarters

A backup or forward of a whole number of ticks is written as the note types that its length in
quarters holds, whatever the divisions are, and nothing else that is written depends on times.
Alterations are not written at all.  So the tokens of a part are those of the part in quarters, and
neither other divisions nor other alterations change them.

## Main definitions

* `skipTexts`: the tokens of a backup or forward that lasts some quarters
* `Part.quarterTexts`: the tokens of a part in quarters
* `Part.SkipsWhole`: backups and forwards that last whole ticks

The main statement is `encode_of_quarters`.
-/

namespace LinearScore

variable {divisions : Option Int}

/-- The tokens of a backup or forward that lasts `length` quarters. -/
def skipTexts (marker : Terminal) (length : Rat) : List String :=
  writtenTexts ((ladderFrom 1 NoteType.all.reverse length).1.flatMap fun t =>
    [.token marker, .token (.noteType t)])

/-- The tokens of an element in quarters. -/
def Element.quarterTexts (s : EncodingState) : Element → List String
  | .backup length => skipTexts .backup length
  | .forward length => skipTexts .forward length
  | e => writtenTexts (s.emissions e)

/-- The tokens of elements in quarters. -/
def quarterTexts (s : EncodingState) : List Element → List String
  | [] => []
  | e :: es => e.quarterTexts s ++ quarterTexts (s.after e) es

/-- The tokens of a measure in quarters, and the state behind it. -/
def EncodingState.quarterTexts (s : EncodingState) (m : Measure) : EncodingState × List String :=
  (s.afterMeasure m, Terminal.measure.text :: LinearScore.quarterTexts s.startMeasure m.elements)

namespace Part

/-- The tokens of a part in quarters. -/
def quarterTexts (p : Part) : List String :=
  (thread EncodingState.quarterTexts {} p.measures).2.flatten

/-- Backups and forwards last whole numbers of ticks. -/
def SkipsWhole (p : Part) : Prop := ∀ e ∈ p.elements, ∀ t ∈ e.skip?, t.den = 1

instance (p : Part) : Decidable p.SkipsWhole :=
  inferInstanceAs (Decidable (∀ e ∈ p.elements, ∀ t ∈ e.skip?, t.den = 1))

end Part

/-! ## Ladders in quarters -/

/-- Under any divisions a ladder takes the note types that it takes in quarters. -/
theorem ladderFrom_quarters {d : Int} (positive : 0 < d) (types : List NoteType) (ticks : Rat) :
    (ladderFrom d types ticks).1 = (ladderFrom 1 types (ticks / d)).1 := by
  have known : (0 : Rat) < d := by exact_mod_cast positive
  induction types generalizing ticks with
  | nil => rfl
  | cons t types ih =>
    have some : 0 < ticks ↔ 0 < ticks / d := by
      rw [lt_div_iff₀ known, zero_mul]
    have step : 0 < t.quarters * d ↔ 0 < t.quarters * (1 : Int) := by
      rw [mul_pos_iff_of_pos_right known, Int.cast_one, mul_one]
    have fits : t.quarters * d ≤ ticks ↔ t.quarters * (1 : Int) ≤ ticks / d := by
      rw [Int.cast_one, mul_one, le_div_iff₀ known]
    have rest : (ticks - t.quarters * d) / d = ticks / d - t.quarters * (1 : Int) := by
      rw [sub_div, mul_div_cancel_right₀ _ known.ne', Int.cast_one, mul_one]
    rw [ladderFrom, ladderFrom]
    simp only [some, step, fits]
    split
    · rw [ih, rest]
    · exact ih ticks

/-- Nothing fits into a length that is not positive. -/
theorem skipTexts_of_nonpos (marker : Terminal) {length : Rat} (h : length ≤ 0) :
    skipTexts marker length = [] := by
  have none (types : List NoteType) : (ladderFrom 1 types length).1 = [] := by
    induction types with
    | nil => rfl
    | cons t types ih =>
      rw [ladderFrom, decide_eq_false h.not_gt]
      exact ih
  rw [skipTexts, none]
  rfl

/-- Whole ticks are written as their length in quarters is. -/
theorem writtenTexts_skipEmissions {d : Int} (positive : 0 < d) (marker : Terminal) {ticks : Rat}
    (whole : ticks.den = 1) :
    writtenTexts (skipEmissions (some d) marker ticks) = skipTexts marker (ticks / d) := by
  have known : (0 : Rat) < d := by exact_mod_cast positive
  have types : (ladder ticks.num d).1 = (ladderFrom 1 NoteType.all.reverse (ticks / d)).1 := by
    rw [ladder, ladderFrom_quarters positive, Rat.coe_int_num_of_den_eq_one whole]
  unfold skipEmissions
  dsimp only
  split
  · -- a length that is refused
    rename_i refused
    simp [whole] at refused
    rw [skipTexts_of_nonpos marker (div_nonpos_of_nonpos_of_nonneg refused known.le)]
    rfl
  · rw [writtenTexts_append, writtenTexts_faultIf, List.append_nil, types, skipTexts]

/-! ## What tokens need to know -/

/-- States that write the same tokens: the staves are the same, and so are the values of the notes
before that are written where they change. -/
structure EncodingState.Alike (s t : EncodingState) : Prop where
  staves : s.staves = t.staves
  voice : s.sticky.voice = t.sticky.voice
  stem : s.sticky.stem = t.sticky.stem
  staff : s.sticky.staff = t.sticky.staff

/-- What tokens can tell of a note: all but its alteration and its duration. -/
def Note.mute (n : Note) : Note := { n.flat with duration := none }

theorem mute_flat (n : Note) : n.flat.mute = n.mute := by
  unfold Note.mute Note.flat
  cases n.content <;> rfl

namespace EncodingState.Alike

variable {s t : EncodingState}

theorem refl (s : EncodingState) : s.Alike s := ⟨rfl, rfl, rfl, rfl⟩

theorem startMeasure (h : s.Alike t) : s.startMeasure.Alike t.startMeasure :=
  ⟨h.staves, rfl, rfl, rfl⟩

/-- Divisions do not count. -/
theorem afterAttributes (h : s.Alike t) {a b : Attributes} (same : a.undivided = b.undivided) :
    (s.afterAttributes a).Alike (t.afterAttributes b) where
  staves := congrArg₂ Option.or (congrArg Attributes.staves same :) h.staves
  voice := h.voice
  stem := h.stem
  staff := h.staff

/-- Alterations and durations do not count. -/
theorem afterNote (h : s.Alike t) {n n' : Note} (same : n.mute = n'.mute) :
    (s.afterNote n).Alike (t.afterNote n') where
  staves := h.staves
  voice := congrArg₂ Option.or (congrArg Note.voice same :) h.voice
  stem := congrArg₂ Option.or (congrArg Note.stem same :) h.stem
  staff := congrArg₂ Option.or (congrArg Note.staff same :) h.staff

theorem writtenTexts_attributesEmissions (h : s.Alike t) {a b : Attributes}
    (same : a.undivided = b.undivided) :
    writtenTexts (s.attributesEmissions a) = writtenTexts (t.attributesEmissions b) := by
  -- divisions only matter for faults
  have divisions (d : Option Int) : writtenTexts (divisionsEmissions d) = [] := by
    cases d with
    | none => rfl
    | some d => exact writtenTexts_faultIf ..
  have time (d d' : Option Int) (time : Option TimeSignature) :
      writtenTexts (time.toList.flatMap (timeEmissions d)) =
        writtenTexts (time.toList.flatMap (timeEmissions d')) := by
    cases time with
    | none => rfl
    | some time => cases d <;> cases d' <;> rfl
  have staves : (s.afterAttributes a).staves = (t.afterAttributes b).staves :=
    (h.afterAttributes same).staves
  have key : a.key = b.key := (congrArg Attributes.key same :)
  have times : a.time = b.time := (congrArg Attributes.time same :)
  have clefs : a.clefs = b.clefs := (congrArg Attributes.clefs same :)
  unfold EncodingState.attributesEmissions
  simp only [writtenTexts_append, divisions, staves, key, times, clefs]
  rw [time]

/-- The length of a note only matters for faults. -/
theorem writtenTexts_noteEmissions (h : s.Alike t) {n n' : Note} (same : n.mute = n'.mute) :
    writtenTexts (s.noteEmissions n) = writtenTexts (t.noteEmissions n') := by
  have mute (s : EncodingState) (n : Note) :
      writtenTexts (s.noteEmissions n) = writtenTexts (s.noteEmissions n.mute) := by
    rw [LinearScore.writtenTexts_noteEmissions, LinearScore.writtenTexts_noteEmissions]
    obtain ⟨printed, grace, chord, content, _⟩ := n
    cases content <;> rfl
  rw [mute, same, ← mute, LinearScore.writtenTexts_noteEmissions,
    LinearScore.writtenTexts_noteEmissions]
  unfold EncodingState.leadingEmissions EncodingState.trailingEmissions
  rw [h.staves, h.voice, h.stem, h.staff]

end EncodingState.Alike

/-! ## From ticks to quarters -/

namespace EncodingState

variable {s t : EncodingState}

/-- The state of the encoder knows the divisions that are in force. -/
theorem divisions_after {e : Element} (positive : ∀ d ∈ e.divisions?, 0 < d) :
    (s.after e).divisions = e.divisions?.or s.divisions := by
  cases e with
  | attributes a =>
    show s.divisionsAfter a = a.divisions.or s.divisions
    unfold divisionsAfter
    cases eq : a.divisions with
    | none => rfl
    | some d => exact if_pos (positive d eq)
  | note n => rfl
  | backup d => rfl
  | forward d => rfl

namespace Alike

/-- An element in ticks is written as the element in quarters. -/
theorem writtenTexts_emissions (h : s.Alike t) (known : ∀ d ∈ s.divisions, 0 < d) {e : Element}
    (divides : e.Divides s.divisions) (whole : ∀ ticks ∈ e.skip?, ticks.den = 1) :
    writtenTexts (s.emissions e) = (e.inQuarters s.divisions).quarterTexts t ∧
      (s.after e).Alike (t.after (e.inQuarters s.divisions)) := by
  cases e with
  | attributes a => exact ⟨h.writtenTexts_attributesEmissions rfl, h.afterAttributes rfl⟩
  | note n =>
    cases s.divisions with
    | none => exact ⟨h.writtenTexts_noteEmissions rfl, h.afterNote rfl⟩
    | some d => exact ⟨h.writtenTexts_noteEmissions rfl, h.afterNote rfl⟩
  | backup ticks =>
    obtain ⟨d, eq⟩ := Option.isSome_iff_exists.mp (divides.2 rfl)
    have skip := writtenTexts_skipEmissions (known d eq) .backup (whole ticks rfl)
    rw [EncodingState.emissions, writtenTexts_append, writtenTexts_faultIf, List.append_nil, eq]
    exact ⟨skip, ⟨h.staves, rfl, rfl, rfl⟩⟩
  | forward ticks =>
    obtain ⟨d, eq⟩ := Option.isSome_iff_exists.mp (divides.2 rfl)
    have skip := writtenTexts_skipEmissions (known d eq) .forward (whole ticks rfl)
    rw [EncodingState.emissions, eq]
    exact ⟨skip, ⟨h.staves, h.voice, h.stem, h.staff⟩⟩

theorem writtenTexts_elementEmissions (h : s.Alike t) (known : ∀ d ∈ s.divisions, 0 < d)
    {es : List Element} (divide : AllDivide s.divisions es)
    (whole : ∀ e ∈ es, ∀ ticks ∈ e.skip?, ticks.den = 1) :
    writtenTexts (elementEmissions s es) =
        LinearScore.quarterTexts t (inQuarters s.divisions es) ∧
      (es.foldl after s).Alike ((inQuarters s.divisions es).foldl after t) ∧
      (es.foldl after s).divisions = divisionsBehind s.divisions es := by
  induction es generalizing s t with
  | nil => exact ⟨rfl, h, rfl⟩
  | cons e es ih =>
    obtain ⟨here, later⟩ := divide
    obtain ⟨wholeHere, wholeLater⟩ := List.forall_mem_cons.mp whole
    obtain ⟨texts, alike⟩ := h.writtenTexts_emissions known here wholeHere
    have divisions := divisions_after (s := s) here.1
    have known' : ∀ d ∈ (s.after e).divisions, 0 < d := by
      rw [divisions]
      exact positive_divisionsBehind known (List.forall_mem_singleton.mpr here.1)
    rw [← divisions] at later
    obtain ⟨rest, behind, known''⟩ := ih alike known' later wholeLater
    rw [divisions] at rest behind known''
    rw [elementEmissions, writtenTexts_append, texts, rest]
    exact ⟨rfl, behind, known''⟩

/-- A measure in ticks is written as the measure in quarters. -/
theorem writtenTexts_measureEmissions (h : s.Alike t) (known : ∀ d ∈ s.divisions, 0 < d)
    {m : Measure} (divide : AllDivide s.divisions m.elements)
    (whole : ∀ e ∈ m.elements, ∀ ticks ∈ e.skip?, ticks.den = 1) :
    writtenTexts (measureEmissions s m) = (t.quarterTexts (m.inQuarters s.divisions).2).2 ∧
      (s.afterMeasure m).Alike (t.afterMeasure (m.inQuarters s.divisions).2) ∧
      (s.afterMeasure m).divisions = (m.inQuarters s.divisions).1 := by
  obtain ⟨texts, behind⟩ := h.startMeasure.writtenTexts_elementEmissions known divide whole
  exact ⟨congrArg (Terminal.measure.text :: ·) texts, behind⟩

end Alike

end EncodingState

/-- Divisions that can be converted are positive. -/
theorem positive_of_allDivide {es : List Element} (h : AllDivide divisions es) :
    ∀ e ∈ es, ∀ d ∈ e.divisions?, 0 < d := by
  induction es generalizing divisions with
  | nil => exact List.forall_mem_nil _
  | cons e es ih => exact List.forall_mem_cons.mpr ⟨h.1.1, ih h.2⟩

/-- The tokens of measures in ticks are those of the measures in quarters. -/
theorem value_encodeMeasures_inQuarters (part : String) {s t : EncodingState} (h : s.Alike t)
    (known : ∀ d ∈ s.divisions, 0 < d) {ms : List Measure}
    (divide : AllDivide s.divisions (ms.flatMap (·.elements)))
    (whole : ∀ e ∈ ms.flatMap (·.elements), ∀ ticks ∈ e.skip?, ticks.den = 1) :
    (encodeMeasures part s ms).value.map Terminal.text =
      (thread EncodingState.quarterTexts t
        (thread Measure.inQuarters s.divisions ms).2).2.flatten := by
  induction ms generalizing s t with
  | nil => rfl
  | cons m ms ih =>
    rw [List.flatMap_cons, allDivide_append] at divide
    rw [List.flatMap_cons, List.forall_mem_append] at whole
    obtain ⟨texts, behind, divisions⟩ := h.writtenTexts_measureEmissions known divide.1 whole.1
    have known' : ∀ d ∈ (s.afterMeasure m).divisions, 0 < d := by
      rw [divisions]
      exact positive_divisionsBehind known (positive_of_allDivide divide.1)
    have divide' : AllDivide (s.afterMeasure m).divisions (ms.flatMap (·.elements)) := by
      rw [divisions]
      exact divide.2
    have rest := ih behind known' divide' whole.2
    have first : (encodeMeasure part s m).value.map Terminal.text =
        writtenTexts (measureEmissions s m) := rfl
    show ((encodeMeasure part s m).value ++ (encodeMeasures part _ ms).value).map _ = _
    rw [List.map_append, first, texts, rest, divisions, thread_cons, thread_cons, List.flatten_cons]
    rfl

/-- **A part is written as it is in quarters.** -/
theorem value_encode_of_whole {p : Part} (ok : p.toQuarters.outcome = .ok ())
    (whole : p.SkipsWhole) : p.encode.value = p.toQuarters.part.quarterTexts := by
  rw [Part.quarterTexts, Part.part_toQuarters ok]
  exact value_encodeMeasures_inQuarters p.id (.refl {}) (fun _ hd => nomatch hd)
    (p.outcome_toQuarters_eq_ok_iff.mp ok) whole

/-! ## Parts that differ in what tokens do not tell -/

namespace EncodingState.Alike

variable {s t : EncodingState}

theorem quarterTexts_element (h : s.Alike t) (e : Element) :
    e.quarterTexts s = e.quarterTexts t ∧ (s.after e).Alike (t.after e) := by
  cases e with
  | attributes a => exact ⟨h.writtenTexts_attributesEmissions rfl, h.afterAttributes rfl⟩
  | note n => exact ⟨h.writtenTexts_noteEmissions rfl, h.afterNote rfl⟩
  | backup d => exact ⟨rfl, h.staves, rfl, rfl, rfl⟩
  | forward d => exact ⟨rfl, h.staves, h.voice, h.stem, h.staff⟩

theorem quarterTexts_element_flat (h : s.Alike t) (e : Element) :
    e.flat.quarterTexts s = e.quarterTexts t ∧ (s.after e.flat).Alike (t.after e) := by
  cases e with
  | note n => exact ⟨h.writtenTexts_noteEmissions (mute_flat n), h.afterNote (mute_flat n)⟩
  | attributes a => exact h.quarterTexts_element _
  | backup d => exact h.quarterTexts_element _
  | forward d => exact h.quarterTexts_element _

theorem quarterTexts_flat (h : s.Alike t) (es : List Element) :
    LinearScore.quarterTexts s (es.map Element.flat) = LinearScore.quarterTexts t es ∧
      ((es.map Element.flat).foldl after s).Alike (es.foldl after t) := by
  induction es generalizing s t with
  | nil => exact ⟨rfl, h⟩
  | cons e es ih =>
    obtain ⟨texts, behind⟩ := h.quarterTexts_element_flat e
    obtain ⟨rest, last⟩ := ih behind
    rw [List.map_cons, LinearScore.quarterTexts, LinearScore.quarterTexts, texts, rest]
    exact ⟨rfl, last⟩

/-- Attributes that state nothing write nothing and leave the state as it is. -/
theorem quarterTexts_tidied (h : s.Alike t) (es : List Element) :
    LinearScore.quarterTexts s (es.filter (· ≠ .attributes {})) = LinearScore.quarterTexts t es ∧
      ((es.filter (· ≠ .attributes {})).foldl after s).Alike (es.foldl after t) := by
  induction es generalizing s t with
  | nil => exact ⟨rfl, h⟩
  | cons e es ih =>
    by_cases empty : e = .attributes {}
    · rw [empty, List.filter_cons_of_neg (by simp)]
      exact ih h
    · obtain ⟨texts, behind⟩ := h.quarterTexts_element e
      obtain ⟨rest, last⟩ := ih behind
      rw [List.filter_cons_of_pos (by simpa using empty), LinearScore.quarterTexts,
        LinearScore.quarterTexts, texts, rest]
      exact ⟨rfl, last⟩

end EncodingState.Alike

/-- Measures in quarters that are written alike. -/
def Measure.WrittenAlike (m m' : Measure) : Prop :=
  ∀ s t : EncodingState, s.Alike t →
    (s.quarterTexts m).2 = (t.quarterTexts m').2 ∧ (s.afterMeasure m).Alike (t.afterMeasure m')

theorem quarterTexts_of_writtenAlike {p q : Part}
    (h : List.Forall₂ Measure.WrittenAlike p.measures q.measures) :
    p.quarterTexts = q.quarterTexts := by
  have along {s t : EncodingState} (alike : s.Alike t) {ms ms' : List Measure}
      (h : List.Forall₂ Measure.WrittenAlike ms ms') :
      (thread EncodingState.quarterTexts s ms).2 = (thread EncodingState.quarterTexts t ms').2 := by
    induction h generalizing s t with
    | nil => rfl
    | cons here _ ih =>
      obtain ⟨texts, behind⟩ := here s t alike
      rw [thread_cons, thread_cons, texts]
      exact congrArg (_ :: ·) (ih behind)
  exact congrArg List.flatten (along (.refl {}) h)

/-- Alterations are not written, -/
theorem quarterTexts_flat (p : Part) : p.flat.quarterTexts = p.quarterTexts := by
  refine quarterTexts_of_writtenAlike (List.forall₂_map_left_iff.mpr (List.forall₂_same.mpr ?_))
  intro m _ s t h
  obtain ⟨texts, behind⟩ := h.startMeasure.quarterTexts_flat m.elements
  exact ⟨congrArg (_ :: ·) texts, behind⟩

/-- nor are attributes that state nothing, -/
theorem quarterTexts_tidied (p : Part) : p.tidied.quarterTexts = p.quarterTexts := by
  refine quarterTexts_of_writtenAlike (List.forall₂_map_left_iff.mpr (List.forall₂_same.mpr ?_))
  intro m _ s t h
  obtain ⟨texts, behind⟩ := h.startMeasure.quarterTexts_tidied m.elements
  exact ⟨congrArg (_ :: ·) texts, behind⟩

/-- nor the numbers and breaks of measures. -/
theorem quarterTexts_of_sameContent {p q : Part} (h : p.sameContent q = true) :
    p.quarterTexts = q.quarterTexts := by
  have texts (ms : List Measure) (s : EncodingState) :
      (thread EncodingState.quarterTexts s ms).2 =
        (thread (fun s es => (es.foldl EncodingState.after s.startMeasure,
          Terminal.measure.text :: quarterTexts s.startMeasure es)) s
            (ms.map Measure.elements)).2 := by
    induction ms generalizing s with
    | nil => rfl
    | cons m ms ih => exact congrArg (_ :: ·) (ih _)
  rw [Part.quarterTexts, Part.quarterTexts, texts, texts, of_decide_eq_true h]

/-! ## Parts in other divisions -/

theorem skipsWhole_flat (p : Part) : p.flat.SkipsWhole ↔ p.SkipsWhole := by
  rw [Part.SkipsWhole, elements_flat, List.forall_mem_map, Part.SkipsWhole]
  refine forall₂_congr fun e _ => ?_
  cases e <;> exact Iff.rfl

/-- The backups and forwards of a part that is put into ticks are whole. -/
theorem skipsWhole_toTicks {p : Part} (plain : p.hasDivisions = false) :
    p.toTicks.part.SkipsWhole := by
  have skips : p.toTicks.part.elements.filterMap Element.skip? =
      (p.elements.filterMap Element.skip?).map (· * (p.leastDivisions : Rat)) := by
    rw [toTicks_of_undivided plain, filterMap_declareDivisions fun _ => rfl, elements_mapDurations,
      List.filterMap_map, List.map_filterMap]
    exact List.filterMap_congr fun e _ => skip?_mapDuration _ e
  intro e he t ht
  have mem : t ∈ p.toTicks.part.elements.filterMap Element.skip? :=
    List.mem_filterMap.mpr ⟨e, he, ht⟩
  rw [skips] at mem
  obtain ⟨q, hq, rfl⟩ := List.mem_map.mp mem
  obtain ⟨e, he, hq⟩ := List.mem_filterMap.mp hq
  exact den_mul_leastDivisions (List.mem_filterMap.mpr ⟨e, he, duration?_of_skip? hq⟩)

/-! ## What is computed -/

namespace EncodingState

/-- The state without the alteration of the pitch before. -/
def flat (s : EncodingState) : EncodingState :=
  { s with sticky := { s.sticky with
      previousPitch := s.sticky.previousPitch.map fun p => { p with alter := 0 } } }

theorem after_flat (s : EncodingState) (e : Element) : s.flat.after e.flat = (s.after e).flat := by
  cases e with
  | note n =>
    show s.flat.afterNote n.flat = (s.afterNote n).flat
    simp only [flat, afterNote, pitch?_flat]
    rfl
  | attributes a => rfl
  | backup d => rfl
  | forward d => rfl

/-- Nothing that is computed at an element depends on alterations. -/
theorem fits_arithmetic_flat (s : EncodingState) (e : Element) :
    (s.flat.arithmetic e.flat).fits = (s.arithmetic e).fits := by
  cases e with
  | note n =>
    have length : s.flat.lengthArithmetic n.flat = s.lengthArithmetic n := by
      unfold lengthArithmetic
      rw [isMeasureRest_flat]
      rfl
    have order : (s.flat.orderArithmetic n.flat).fits = (s.orderArithmetic n).fits := by
      have chord : n.flat.chord = n.chord := rfl
      have previous : s.flat.sticky.previousPitch =
          s.sticky.previousPitch.map fun p => { p with alter := 0 } := rfl
      unfold orderArithmetic
      rw [pitch?_flat, chord, previous]
      cases n.chord <;> cases s.sticky.previousPitch <;> cases n.pitch? <;> rfl
    show (do s.flat.lengthArithmetic n.flat; s.flat.orderArithmetic n.flat
             discard (Machine.move s.onset (.note n)) : Checked Unit).fits = _
    rw [length, Checked.fits_bind, Checked.fits_bind, order]
    rfl
  | attributes a => rfl
  | backup d => rfl
  | forward d => rfl

theorem fits_elementArithmetic_flat (s : EncodingState) (es : List Element) :
    (elementArithmetic s.flat (es.map Element.flat)).fits = (elementArithmetic s es).fits ∧
      (es.map Element.flat).foldl after s.flat = (es.foldl after s).flat := by
  induction es generalizing s with
  | nil => exact ⟨rfl, rfl⟩
  | cons e es ih =>
    obtain ⟨rest, behind⟩ := ih (s.after e)
    rw [List.map_cons, List.foldl_cons, List.foldl_cons, after_flat]
    refine ⟨?_, behind⟩
    rw [elementArithmetic, Checked.fits_bind, fits_arithmetic_flat, after_flat, rest]
    rfl

theorem fits_encodeMeasures_flat (part : String) (s : EncodingState) (ms : List Measure) :
    (encodeMeasures part s.flat (ms.map Measure.flat)).fits = (encodeMeasures part s ms).fits := by
  induction ms generalizing s with
  | nil => rfl
  | cons m ms ih =>
    obtain ⟨here, behind⟩ := fits_elementArithmetic_flat s.startMeasure m.elements
    have first : (encodeMeasure part s.flat m.flat).fits = (encodeMeasure part s m).fits := here
    have last : s.flat.afterMeasure m.flat = (s.afterMeasure m).flat := behind
    rw [List.map_cons, encodeMeasures, encodeMeasures, Reported.fits_bind, Reported.fits_bind,
      Reported.fits_bind, Reported.fits_bind, first, last, ih]
    rfl

end EncodingState

/-- A part is written to the end or not whatever its alterations are. -/
theorem fits_encode_flat (p : Part) : p.flat.encode.fits = p.encode.fits := by
  have measures := EncodingState.fits_encodeMeasures_flat p.id {} p.measures
  rw [Part.encode, Part.encode, Reported.fits_bind, Reported.fits_bind]
  exact congrArg (· && true) measures

/-! ## Parts with the same quarters -/

/-- What is written with integers of any size depends on the content in quarters, up to alterations
and attributes that state nothing. -/
theorem value_encode_of_quarters {p : Part} (ok : p.toQuarters.outcome = .ok ())
    (whole : p.SkipsWhole) :
    (∀ q : Part, q.toQuarters.outcome = .ok () → q.SkipsWhole →
        q.toQuarters.part.tidied.flat.sameContent p.toQuarters.part.tidied.flat = true →
        q.encode.value = p.encode.value) ∧
      p.toQuarters.part.toTicks.outcome = .ok p.toQuarters.part.leastDivisions ∧
      p.toQuarters.part.toTicks.part.encode.value = p.encode.value ∧
      p.inferAlterations.encode.value = p.encode.value := by
  have likewise (q : Part) (ok' : q.toQuarters.outcome = .ok ()) (whole' : q.SkipsWhole)
      (same : q.toQuarters.part.tidied.flat.sameContent p.toQuarters.part.tidied.flat = true) :
      q.encode.value = p.encode.value := by
    have content := quarterTexts_of_sameContent same
    rw [quarterTexts_flat, quarterTexts_tidied, quarterTexts_flat, quarterTexts_tidied] at content
    rw [value_encode_of_whole ok' whole', value_encode_of_whole ok whole, content]
  have plain := hasDivisions_toQuarters ok
  obtain ⟨ticks, again, back⟩ := toQuarters_toTicks plain
  refine ⟨likewise, ticks, ?_, ?_⟩
  · refine likewise _ again (skipsWhole_toTicks plain) ?_
    rw [back, tidied_opened]
    exact decide_eq_true rfl
  · have flat := inferAlterations_keeps p
    have ok' : p.inferAlterations.toQuarters.outcome = .ok () := by
      rw [← outcome_toQuarters_flat, flat, outcome_toQuarters_flat, ok]
    have whole' : p.inferAlterations.SkipsWhole := by
      rw [← skipsWhole_flat, flat, skipsWhole_flat]
      exact whole
    rw [value_encode_of_whole ok' whole', value_encode_of_whole ok whole, ← quarterTexts_flat,
      ← toQuarters_flat ok', flat, toQuarters_flat ok, quarterTexts_flat]

/-- **Tokens only depend on lengths in quarters, and not on alterations.**  A part whose backups and
forwards are whole ticks, and that is put into quarters, is written as every such part that has the
same content in quarters up to alterations and attributes that state nothing, if both are written to
the end.  In particular it is written as the part whose ticks are computed anew, and as the part
with its alterations inferred.  New ticks are arrived at just where they and the least divisions are
held, and both parts are written to the end if their numbers are held. -/
theorem encode_of_quarters {p : Part} {c : Conversion Unit}
    (converted : (Machine.toQuarters p).outcome = some c) (ok : c.outcome = .ok ())
    (whole : p.SkipsWhole) :
    (∀ (q : Part) (c' : Conversion Unit), (Machine.toQuarters q).outcome = some c' →
        c'.outcome = .ok () → q.SkipsWhole →
        c'.part.tidied.flat.sameContent c.part.tidied.flat = true →
        ∀ r ∈ p.encode.outcome, ∀ r' ∈ q.encode.outcome, r'.1 = r.1) ∧
      (∀ t ∈ (Machine.toTicks c.part).outcome,
        t.outcome = .ok c.part.leastDivisions ∧
        (∀ r ∈ p.encode.outcome, ∀ r' ∈ t.part.encode.outcome, r'.1 = r.1) ∧
        ∀ common, p.Held common → t.part.Held common →
          p.encode.outcome.isSome = true ∧ t.part.encode.outcome.isSome = true) ∧
      ((Machine.toTicks c.part).outcome.isSome = true ↔
        c.part.leastDivisions < Machine.limit64 ∧
        ∀ q ∈ c.part.durations, Machine.holdsFraction (q * c.part.leastDivisions) = true) ∧
      ∀ q ∈ (Machine.inferAlterations p).outcome,
        q.encode.outcome.map Prod.fst = p.encode.outcome.map Prod.fst := by
  have written {p q : Part} (same : q.encode.value = p.encode.value) :
      ∀ r ∈ p.encode.outcome, ∀ r' ∈ q.encode.outcome, r'.1 = r.1 := by
    intro r hr r' hr'
    obtain ⟨-, tokens, -⟩ := Reported.outcome_eq_some_iff.mp hr
    obtain ⟨-, tokens', -⟩ := Reported.outcome_eq_some_iff.mp hr'
    rw [← tokens, ← tokens', same]
  obtain ⟨-, rfl⟩ := Checked.outcome_eq_some_iff.mp converted
  rw [Machine.value_toQuarters] at ok ⊢
  obtain ⟨likewise, ticks, anew, inferred⟩ := value_encode_of_quarters ok whole
  refine ⟨?_, ?_, ?_, ?_⟩
  · intro q c' converted' ok' whole' same
    obtain ⟨-, rfl⟩ := Checked.outcome_eq_some_iff.mp converted'
    rw [Machine.value_toQuarters] at ok' same
    exact written (likewise q ok' whole' same)
  · intro t ht
    obtain ⟨-, rfl⟩ := Checked.outcome_eq_some_iff.mp ht
    rw [Machine.value_toTicks]
    refine ⟨ticks, written anew, fun common held held' => ?_⟩
    rw [Reported.outcome_of_fits held.fits_encode, Reported.outcome_of_fits held'.fits_encode]
    exact ⟨rfl, rfl⟩
  · rw [Checked.outcome, Option.isSome_ite, Machine.fits_toTicks_iff (hasDivisions_toQuarters ok)]
  · intro q hq
    obtain ⟨-, rfl⟩ := Checked.outcome_eq_some_iff.mp hq
    have fits : p.inferAlterations.encode.fits = p.encode.fits := by
      rw [← fits_encode_flat, inferAlterations_keeps, fits_encode_flat]
    rw [Machine.value_inferAlterations, Reported.outcome, Reported.outcome, fits]
    split
    · exact congrArg Option.some inferred
    · rfl

/-- Three divisions, one of them declared within a measure, and alterations that nothing asks
for. -/
def Part.changingDivisions : Part where
  id := "P1"
  measures :=
    [{ number := 1
       elements :=
        [.attributes { divisions := some 2, key := some ⟨-1⟩, staves := some 2,
                       clefs := [⟨some 2, "F", 4⟩, ⟨none, "G", 2⟩] },
         .note { content := .pitch ⟨.b, 4, 2⟩, duration := some 3, noteType := some .quarter,
                 dots := 1, voice := some 1, staff := some 1 },
         .backup 3, .forward 1,
         .attributes { divisions := some 3 },
         .note { content := .pitch ⟨.c, 3, 0⟩, duration := some 3, noteType := some .quarter,
                 voice := some 5, staff := some 2 },
         .forward 2] },
     { number := 2
       elements :=
        [.attributes { divisions := some 4 }, .forward 7,
         .note { content := .pitch ⟨.b, 4, 0⟩, duration := some 4, noteType := some .quarter }] }]

theorem encode_changingDivisions :
    (Machine.toQuarters Part.changingDivisions).outcome =
        some Part.changingDivisions.toQuarters ∧
      Part.changingDivisions.toQuarters.outcome = .ok () ∧ Part.changingDivisions.SkipsWhole ∧
      ∃ t, (Machine.toTicks Part.changingDivisions.toQuarters.part).outcome = some t ∧
        t.outcome = .ok 12 ∧
        t.part.encode.outcome.map Prod.fst =
          some Part.changingDivisions.encode.value ∧
        Part.changingDivisions.inferAlterations.encode.outcome.map Prod.fst =
          some Part.changingDivisions.encode.value := by
  have converted : (Machine.toQuarters Part.changingDivisions).outcome =
      some Part.changingDivisions.toQuarters := Checked.outcome_of_fits (by decide +kernel)
  have ok : Part.changingDivisions.toQuarters.outcome = .ok () := rfl
  have whole : Part.changingDivisions.SkipsWhole := by decide
  have least : Part.changingDivisions.toQuarters.part.leastDivisions = 12 := by decide +kernel
  obtain ⟨-, anew, -, inferred⟩ := encode_of_quarters converted ok whole
  have ticks : (Machine.toTicks Part.changingDivisions.toQuarters.part).outcome =
      some Part.changingDivisions.toQuarters.part.toTicks :=
    Checked.outcome_of_fits (by decide +kernel)
  have pitches : (Machine.inferAlterations Part.changingDivisions).outcome =
      some Part.changingDivisions.inferAlterations := Checked.outcome_of_fits (by decide +kernel)
  have written : Part.changingDivisions.encode.outcome =
      some (Part.changingDivisions.encode.value, Part.changingDivisions.encode.diagnostics) :=
    Reported.outcome_of_fits (by decide +kernel)
  have again : Part.changingDivisions.toQuarters.part.toTicks.part.encode.outcome =
      some (Part.changingDivisions.toQuarters.part.toTicks.part.encode.value,
        Part.changingDivisions.toQuarters.part.toTicks.part.encode.diagnostics) :=
    Reported.outcome_of_fits (by decide +kernel)
  obtain ⟨twelve, same, -⟩ := anew _ ticks
  refine ⟨converted, ok, whole, _, ticks, least ▸ twelve, ?_, ?_⟩
  · rw [again]
    exact congrArg some (same _ written _ again)
  · rw [inferred _ pitches, written]
    rfl

/-- Its ticks cannot be computed anew: the least divisions are not held. -/
theorem primeDivisions_refused :
    (Machine.toQuarters Part.primeDivisions).outcome = some Part.primeDivisions.toQuarters ∧
      Part.primeDivisions.toQuarters.outcome = .ok () ∧ Part.primeDivisions.SkipsWhole ∧
      (Machine.toTicks Part.primeDivisions.toQuarters.part).outcome = none :=
  ⟨Checked.outcome_of_fits (by decide +kernel), rfl, by decide, by decide +kernel⟩

end LinearScore
