import LinearScore.Proofs.Findings
import LinearScore.Proofs.Inference
import LinearScore.Proofs.InForce
import LinearScore.Proofs.SoundElements

/-!
# Parts that are decoded of any texts

Whatever the texts are, the part in ticks that they are decoded to is in one form, and writing it
finds neither a payload outside the vocabulary nor a note without a type.

## Main definitions

* `Part.WellFormed`: the form of decoded parts
* `Element.bare`: what the last steps of decoding keep of an element, up to its duration
* `Emission.Fine`: a token of the vocabulary, or a fault that takes nothing away

The main statement is `wellFormed_value_decodeTexts`.
-/

namespace LinearScore

/-- A part in the form that decoding gives it. -/
structure Part.WellFormed (p : Part) : Prop where
  /-- Measures are counted from one, and that is all besides their elements. -/
  numbered : p.measures.map Measure.frame =
    (List.range' 1 p.measures.length).map fun i : Nat => { number := i }
  /-- Neighbouring backups and neighbouring forwards are one. -/
  apart : ∀ m ∈ p.measures, m.elements.IsChain SkipsApart
  /-- All durations are positive numbers of ticks. -/
  ticks : ∀ d ∈ p.durations, 0 < d ∧ d.den = 1
  /-- Only grace notes and rests for a measure in front of all time signatures have no duration. -/
  lasting : ∀ before n after, p.elements = before ++ .note n :: after →
    (n.duration = none ↔
      n.grace.isSome = true ∨ n.isMeasureRest = true ∧ ∀ e ∈ before, e.timed = false)
  /-- The first measure opens with positive divisions, -/
  divided : p.measures ≠ [] → ∃ d, p.divisions? = some d ∧ 0 < d
  /-- and there are no others. -/
  dividedOnce : ∀ e ∈ p.elements.tail, e.divisions? = none

/-! ## What the last steps keep -/

/-- The element without what the last steps of decoding put into it. -/
def Element.bare : Element → Element
  | .attributes a => .attributes { a with divisions := none, staves := none }
  | e => e.flat

theorem Element.bare_flat (e : Element) : e.flat.bare = e.bare := by
  cases e with
  | note n => cases hc : n.content <;> simp [bare, flat, Note.flat, NoteContent.flat, hc]
  | _ => rfl

theorem Element.timed_bare (e : Element) : e.bare.timed = e.timed := by
  cases e <;> rfl

/-- A note is legible with any alteration. -/
theorem legible_flat (n : Note) : n.flat.Legible ↔ n.Legible := by
  constructor
  · intro h
    refine ⟨fun p hp => ?_, h.voice, h.ratio, h.staff, h.marks⟩
    exact h.pitch { p with alter := 0 } (mem_pitch?_flat hp)
  · intro h
    refine ⟨fun p hp => ?_, h.voice, h.ratio, h.staff, h.marks⟩
    rw [pitch?_flat] at hp
    obtain ⟨q, hq, rfl⟩ := Option.map_eq_some_iff.mp hp
    exact h.pitch q hq

theorem sound_flat {timed : Bool} (n : Note) : n.flat.Sound timed ↔ n.Sound timed := by
  have rest := isMeasureRest_flat n
  constructor
  · intro h
    exact ⟨(legible_flat n).mp h.legible, fun typeless => rest ▸ h.typeless typeless, h.positive,
      rest ▸ h.lasting⟩
  · intro h
    exact ⟨(legible_flat n).mpr h.legible, fun typeless => rest ▸ h.typeless typeless, h.positive,
      rest ▸ h.lasting⟩

/-- Sound elements are sound without what the last steps put into them. -/
theorem AllSound.bare {timed : Bool} {es : List Element} (h : AllSound timed es) :
    AllSound timed (es.map Element.bare) := by
  induction es generalizing timed with
  | nil => exact trivial
  | cons e es ih =>
    refine ⟨?_, ?_⟩
    · cases e with
      | attributes a => exact { h.1 with divisions := rfl, staves := rfl }
      | note n => exact (sound_flat n).mpr h.1
      | backup d => exact h.1
      | forward d => exact h.1
    · rw [Element.timed_bare]
      exact ih h.2

/-- Sound elements are sound in ticks. -/
theorem AllSound.scaled {timed : Bool} {es : List Element} (h : AllSound timed es) {r : Rat}
    (positive : 0 < r) : AllSound timed (es.map (Element.mapDuration (· * r))) := by
  induction es generalizing timed with
  | nil => exact trivial
  | cons e es ih =>
    have same : (e.mapDuration (· * r)).timed = e.timed := by cases e <;> rfl
    refine ⟨?_, ?_⟩
    · cases e with
      | attributes a => exact h.1
      | note n =>
        refine ⟨{ h.1.legible with }, h.1.typeless, fun d hd => ?_, ?_⟩
        · obtain ⟨q, hq, rfl⟩ := Option.map_eq_some_iff.mp hd
          exact mul_pos (h.1.positive q hq) positive
        · exact Option.map_eq_none_iff.trans h.1.lasting
      | backup d => exact mul_pos h.1 positive
      | forward d => exact mul_pos h.1 positive
    · rw [same]
      exact ih h.2

/-- What declaring divisions makes of the elements of a part. -/
theorem elements_declareDivisions (d : Int) {p : Part} (h : p.measures ≠ []) :
    ∃ a rest, (p.declareDivisions d).elements =
        .attributes { a with divisions := some d } :: rest ∧
      (p.elements = .attributes a :: rest ∨ p.elements = rest ∧ a = {}) := by
  obtain ⟨id, name, measures⟩ := p
  cases measures with
  | nil => exact absurd rfl h
  | cons m ms =>
    refine ⟨m.head, m.body ++ ms.flatMap (·.elements), ?_, ?_⟩
    · show (_ :: ms).flatMap Measure.elements = _
      rw [List.flatMap_cons, Measure.elements_withHead]
      rfl
    · show (m :: ms).flatMap Measure.elements = _ ∨ (m :: ms).flatMap Measure.elements = _ ∧ _
      rw [List.flatMap_cons]
      exact m.elements_eq.imp (fun eq => by rw [eq]; rfl) fun eq => by rw [eq.1]; exact ⟨rfl, eq.2⟩

theorem AllSound.declareDivisions {p : Part} (h : AllSound false (p.elements.map Element.bare))
    (d : Int) : AllSound false ((p.declareDivisions d).elements.map Element.bare) := by
  by_cases some : p.measures = []
  · have same : p.declareDivisions d = p := by
      unfold Part.declareDivisions
      rw [some]
    rw [same]
    exact h
  · obtain ⟨a, rest, declared, eq | ⟨eq, rfl⟩⟩ := elements_declareDivisions d some
    · rw [declared]
      rw [eq] at h
      exact h
    · rw [declared]
      rw [eq] at h
      exact ⟨⟨rfl, rfl, forall_mem_none, forall_mem_none, List.forall_mem_nil _⟩, h⟩

/-- A measure with its elements reduced to their sorts. -/
def Measure.blank (m : Measure) : Measure := { m with elements := m.elements.map Element.blank }

/-- The last steps keep the sorts of elements, apart from attributes that declare divisions. -/
theorem map_blank_tallied (staves : Nat) (d : Int) (p : Part) :
    (p.inferAlterations.tallied staves d).measures.map Measure.blank =
      p.measures.map Measure.blank := by
  have sees (m : Measure) (es : List Element)
      (same : es.map Element.blank = m.elements.map Element.blank) :
      Measure.blank { m with elements := es } = m.blank :=
    congrArg (fun elements => { m with elements }) same
  have durations (ms : List Measure) :
      (ms.map fun m =>
        { m with elements := m.elements.map (Element.mapDuration (· * (d : Rat))) }).map
        Measure.blank = ms.map Measure.blank := by
    rw [List.map_map]
    refine List.map_congr_left fun m _ => sees m _ ?_
    rw [List.map_map]
    refine List.map_congr_left fun e _ => ?_
    cases e <;> rfl
  have passed (q : Part) :
      (q.pass (onAttributes (Attributes.declareStep staves)) false).measures.map Measure.blank =
        q.measures.map Measure.blank := by
    refine (@map_thread _ _ _ _ (fun _ => True) _ (fun declared m _ => ⟨trivial, sees m _ ?_⟩) _
      trivial q.measures).2
    exact (@map_thread _ _ _ _ (fun _ => True) Element.blank
      (fun t e _ => ⟨trivial, onAttributes_keeps (fun _ _ => rfl) t e⟩) _ trivial m.elements).2
  rw [tallied_eq]
  refine (durations _).trans ((passed _).trans ?_)
  exact map_inferAlterations (fun _ _ _ _ => rfl) sees p

/-- The last steps of decoding only change elements. -/
theorem frame_finish (quarters : Bool) (p : Part) :
    (p.finish quarters).value.measures.map Measure.frame = p.measures.map Measure.frame := by
  have staves : p.declareStaves.measures.map Measure.frame = p.measures.map Measure.frame := by
    unfold Part.declareStaves
    split
    · rfl
    · exact @map_thread_keeps _ _ _ _ _ Measure.frame Measure.frame (fun _ _ => rfl) false
        p.measures
  have inferred (p : Part) :
      p.inferAlterations.measures.map Measure.frame = p.measures.map Measure.frame :=
    @map_thread_keeps _ _ _ _ AlterationState.measure Measure.frame Measure.frame (fun _ _ => rfl)
      {} p.measures
  have ticks (p : Part) :
      (ticksOf p).value.measures.map Measure.frame = p.measures.map Measure.frame := by
    rw [value_ticksOf]
    cases divided : p.hasDivisions with
    | true => rw [toTicks_of_divided divided]
    | false =>
      obtain ⟨id, name, measures⟩ := p
      rw [toTicks_of_undivided divided]
      cases measures with
      | nil => rfl
      | cons m ms =>
        have rest (f : Rat → Rat) :
            (ms.map fun m => { m with elements := m.elements.map (Element.mapDuration f) }).map
              Measure.frame = ms.map Measure.frame := List.map_map
        exact congrArg₂ List.cons (Measure.frame_withHead _ _) (rest _)
  rw [Part.value_finish]
  split
  · exact (inferred _).trans staves
  · exact (ticks _).trans ((inferred _).trans staves)

/-- Neighbours are those of the measures before the last steps. -/
theorem apart_of_blank {p q : Part}
    (blank : q.measures.map Measure.blank = p.measures.map Measure.blank)
    (apart : ∀ m ∈ p.measures, m.elements.IsChain SkipsApart) :
    ∀ m ∈ q.measures, m.elements.IsChain SkipsApart := by
  intro m hm
  have mem : m.blank ∈ p.measures.map Measure.blank := blank ▸ List.mem_map_of_mem hm
  obtain ⟨m', hm', eq⟩ := List.mem_map.mp mem
  exact (isChain_skipsApart_congr (congrArg Measure.elements eq).symm).mpr (apart m' hm')

/-- What holds of the elements of each measure holds behind declared divisions as well, if it does
not depend on whether attributes open a measure, nor on what they state. -/
theorem forall_elements_declareDivisions {P : List Element → Prop}
    (opened : ∀ a es, P es → P (.attributes a :: es))
    (stated : ∀ a b es, P (.attributes a :: es) → P (.attributes b :: es)) (d : Int) {p : Part}
    (h : ∀ m ∈ p.measures, P m.elements) :
    ∀ m ∈ (p.declareDivisions d).measures, P m.elements := by
  obtain ⟨id, name, measures⟩ := p
  cases measures with
  | nil => exact h
  | cons m ms =>
    obtain ⟨first, rest⟩ := List.forall_mem_cons.mp h
    refine List.forall_mem_cons.mpr ⟨?_, rest⟩
    rw [Measure.elements_withHead]
    rcases m.elements_eq with eq | ⟨eq, -⟩
    · rw [eq] at first
      exact stated _ _ _ first
    · rw [eq] at first
      exact opened _ _ first

theorem apart_declareDivisions (d : Int) {p : Part}
    (apart : ∀ m ∈ p.measures, m.elements.IsChain SkipsApart) :
    ∀ m ∈ (p.declareDivisions d).measures, m.elements.IsChain SkipsApart := by
  -- attributes are no neighbours that could be merged
  have opened (a : Attributes) {es : List Element} (h : es.IsChain SkipsApart) :
      (Element.attributes a :: es).IsChain SkipsApart :=
    h.cons fun e _ => ⟨fun both => Element.noConfusion both.1,
      fun both => Element.noConfusion both.1⟩
  exact forall_elements_declareDivisions (fun a _ => opened a) (fun _ b _ h => opened b h.tail) d
    apart

/-! ## What is written of sound elements -/

/-- A token of the vocabulary, or a fault that is neither one of the vocabulary nor a missing note
type. -/
def Emission.Fine : Emission → Prop
  | .token t => t.valid = true
  | .fault f => f.kind ≠ .lexical ∧ f ≠ .noType

section Fine

variable {α : Type}

theorem fine_emitSome {build : α → Terminal} {value : Option α}
    (valid : ∀ a ∈ value, (build a).valid = true) : ∀ x ∈ emitSome build value, x.Fine := by
  cases value with
  | none => exact List.forall_mem_nil _
  | some a => exact List.forall_mem_singleton.mpr (valid a rfl)

theorem fine_emitIf (condition : Bool) {t : Terminal} (valid : t.valid = true) :
    ∀ x ∈ emitIf condition t, x.Fine := by
  cases condition with
  | false => exact List.forall_mem_nil _
  | true => exact List.forall_mem_singleton.mpr valid

theorem fine_faultIf (condition : Bool) {f : ScoreFault} (fine : (Emission.fault f).Fine) :
    ∀ x ∈ faultIf condition f, x.Fine := by
  cases condition with
  | false => exact List.forall_mem_nil _
  | true => exact List.forall_mem_singleton.mpr fine

theorem fine_emitChanged [DecidableEq α] {build : α → Terminal} (old : Option α) {new : Option α}
    (valid : ∀ a ∈ new, (build a).valid = true) : ∀ x ∈ emitChanged build old new, x.Fine := by
  unfold emitChanged
  split
  · rename_i a
    split
    · exact List.forall_mem_nil _
    · exact List.forall_mem_singleton.mpr (valid a rfl)
  · exact List.forall_mem_nil _

theorem fine_map {build : α → Terminal} (as : List α) (valid : ∀ a, (build a).valid = true) :
    ∀ x ∈ as.map (fun a => Emission.token (build a)), x.Fine := by
  intro x hx
  obtain ⟨a, -, rfl⟩ := List.mem_map.mp hx
  exact valid a

/-- A part that contradicts itself is written all the same. -/
theorem fine_semantic {f : ScoreFault} (kind : f.kind = .semantic) : (Emission.fault f).Fine := by
  constructor
  · rw [kind]
    exact DiagnosticKind.noConfusion
  · rintro rfl
    cases kind

end Fine

theorem fine_skipEmissions (divisions : Option Int) {marker : Terminal}
    (valid : marker.valid = true) (duration : Rat) :
    ∀ x ∈ skipEmissions divisions marker duration, x.Fine := by
  unfold skipEmissions
  split
  · exact List.forall_mem_singleton.mpr (fine_semantic rfl)
  · split
    · exact List.forall_mem_singleton.mpr (fine_semantic rfl)
    · refine List.forall_mem_append.mpr ⟨List.forall_mem_flatMap.mpr fun t _ => ?_,
        fine_faultIf _ (fine_semantic rfl)⟩
      exact List.forall_mem_cons.mpr ⟨valid, List.forall_mem_singleton.mpr rfl⟩

namespace EncodingState

/-- Legible attributes are written in full, whatever divisions and staves they declare. -/
theorem fine_attributesEmissions (s : EncodingState) {a : Attributes}
    (legible : Attributes.Legible { a with divisions := none, staves := none }) :
    ∀ x ∈ s.attributesEmissions a, x.Fine := by
  have known : a.clefs.filter (·.terminal?.isNone) = [] := by
    refine List.filter_eq_nil_iff.mpr fun c hc => ?_
    rw [Option.isNone_iff_eq_none, ← Option.not_isSome_iff_eq_none, not_not]
    exact legible.terminal c hc
  rw [attributesEmissions, clefEmissions, known]
  simp only [List.forall_mem_append, List.map_nil]
  refine ⟨⟨⟨?_, fine_emitSome legible.key⟩, ?_⟩, List.forall_mem_nil _, ?_⟩
  · unfold divisionsEmissions
    split
    · exact fine_faultIf _ (fine_semantic rfl)
    · exact List.forall_mem_nil _
  · refine List.forall_mem_flatMap.mpr fun time ht => ?_
    obtain ⟨beats, beatType⟩ := legible.time time (Option.mem_toList.mp ht)
    refine List.forall_mem_append.mpr ⟨?_, fine_faultIf _ (fine_semantic rfl)⟩
    exact List.forall_mem_cons.mpr ⟨rfl, List.forall_mem_cons.mpr ⟨beats,
      List.forall_mem_singleton.mpr beatType⟩⟩
  · refine List.forall_mem_flatMap.mpr ?_
    rintro ⟨staff, t⟩ mem
    obtain ⟨valid, number⟩ := legible.valid_clefTable mem
    show ∀ x ∈ Emission.token t :: emitIf _ (.staff staff), x.Fine
    exact List.forall_mem_cons.mpr ⟨valid, fine_emitIf _ number⟩

section Notes

variable (s : EncodingState) {n : Note}

theorem fine_leadingEmissions (legible : n.Legible) : ∀ x ∈ s.leadingEmissions n, x.Fine := by
  unfold leadingEmissions
  simp only [List.forall_mem_append]
  refine ⟨⟨⟨⟨fine_emitIf _ rfl, ?_⟩, fine_emitIf _ rfl⟩, ?_⟩, fine_emitChanged _ legible.voice⟩
  · unfold graceEmissions
    split
    · exact List.forall_mem_cons.mpr ⟨rfl, fine_emitIf _ rfl⟩
    · exact List.forall_mem_nil _
  · cases hc : n.content with
    | rest m => exact List.forall_mem_singleton.mpr rfl
    | pitch p =>
      obtain ⟨low, valid⟩ := legible.pitch p (by rw [Note.pitch?, hc]; rfl)
      have range : p.octave ≤ 255 := by
        simp only [Terminal.valid, decide_eq_true_eq] at valid
        omega
      rw [contentEmissions, if_pos (by simp [low, range])]
      exact List.forall_mem_singleton.mpr valid

theorem fine_rootEmissions (typeless : n.noteType = none → n.isMeasureRest = true) :
    ∀ x ∈ rootEmissions n, x.Fine := by
  unfold rootEmissions
  split
  · exact List.forall_mem_singleton.mpr rfl
  · rename_i none
    rw [if_pos (typeless none)]
    exact List.forall_mem_singleton.mpr rfl

theorem fine_trailingEmissions (legible : n.Legible) : ∀ x ∈ s.trailingEmissions n, x.Fine := by
  unfold trailingEmissions markingEmissions staffEmissions
  simp only [List.forall_mem_append]
  refine ⟨⟨⟨⟨⟨⟨⟨⟨fine_emitSome legible.ratio, ?_⟩, fine_emitSome fun _ _ => rfl⟩,
    fine_emitChanged _ fun _ _ => rfl⟩,
    fine_faultIf _ ⟨DiagnosticKind.noConfusion, ScoreFault.noConfusion⟩,
    fine_emitChanged _ legible.staff⟩, fine_map _ fun _ => rfl⟩, fine_map _ fun _ => rfl⟩,
    fine_map _ fun _ => rfl⟩, ⟨⟨⟨⟨⟨⟨⟨fine_map _ fun _ => rfl, fine_emitIf _ rfl⟩,
    fine_emitIf _ rfl⟩, fine_emitIf _ rfl⟩, fine_emitIf _ rfl⟩, fine_emitIf _ rfl⟩,
    fine_emitIf _ rfl⟩, ?_⟩, fine_emitIf _ rfl⟩
  · intro x hx
    rw [List.eq_of_mem_replicate hx]
    rfl
  · refine List.forall_mem_flatMap.mpr fun t ht => List.forall_mem_cons.mpr ⟨rfl, ?_⟩
    exact List.forall_mem_singleton.mpr (legible.marks t (Option.mem_toList.mp ht))

/-- What the lengths of notes and chords are checked for is reported as semantic. -/
theorem fine_lengthEmissions (n : Note) : ∀ x ∈ s.lengthEmissions n, x.Fine := by
  unfold lengthEmissions durationEmissions chordEmissions
  simp only [List.forall_mem_append]
  refine ⟨⟨fine_faultIf _ (fine_semantic rfl), ?_⟩, ?_⟩
  · split
    · exact List.forall_mem_nil _
    · split
      · exact fine_faultIf _ (fine_semantic rfl)
      · split
        · exact fine_faultIf _ (fine_semantic rfl)
        · exact List.forall_mem_nil _
  · split
    · refine List.forall_mem_append.mpr ⟨fine_faultIf _ (fine_semantic rfl), ?_⟩
      split
      · exact fine_faultIf _ (fine_semantic rfl)
      · exact List.forall_mem_nil _
    · exact List.forall_mem_nil _

/-- A legible note with a type, unless it stands for a measure, is written in full. -/
theorem fine_noteEmissions (legible : n.Legible)
    (typeless : n.noteType = none → n.isMeasureRest = true) :
    ∀ x ∈ s.noteEmissions n, x.Fine := by
  rw [noteEmissions]
  simp only [List.forall_mem_append]
  exact ⟨⟨⟨s.fine_leadingEmissions legible, fine_rootEmissions typeless⟩,
    s.fine_trailingEmissions legible⟩, s.fine_lengthEmissions n⟩

end Notes

theorem fine_emissions (s : EncodingState) {e : Element} {timed : Bool}
    (sound : e.bare.Sound timed) : ∀ x ∈ s.emissions e, x.Fine := by
  cases e with
  | attributes a => exact s.fine_attributesEmissions sound
  | note n =>
    have sound : n.Sound timed := (sound_flat n).mp sound
    exact s.fine_noteEmissions sound.legible sound.typeless
  | backup d =>
    exact List.forall_mem_append.mpr ⟨fine_skipEmissions _ rfl d,
      fine_faultIf _ (fine_semantic rfl)⟩
  | forward d => exact fine_skipEmissions _ rfl d

end EncodingState

/-- Whether the defect may be reported of a decoded part that is written again. -/
def Diagnostic.Mild (x : Diagnostic) : Prop :=
  x.kind ≠ .lexical ∧ ∀ part number, x.defect ≠ .score part number .noType

theorem fine_elementEmissions (s : EncodingState) {es : List Element}
    (sound : ∀ e ∈ es, ∃ timed, e.bare.Sound timed) : ∀ x ∈ elementEmissions s es, x.Fine := by
  induction es generalizing s with
  | nil => exact List.forall_mem_nil _
  | cons e es ih =>
    obtain ⟨⟨timed, first⟩, rest⟩ := List.forall_mem_cons.mp sound
    exact List.forall_mem_append.mpr ⟨s.fine_emissions first, ih _ rest⟩

theorem mild_encodeMeasure (partId : String) (s : EncodingState) {m : Measure}
    (sound : ∀ e ∈ m.elements, ∃ timed, e.bare.Sound timed) :
    ∀ x ∈ (encodeMeasure partId s m).diagnostics, x.Mild := by
  intro x hx
  obtain ⟨f, hf, rfl⟩ := List.mem_map.mp hx
  obtain ⟨y, hy, fault⟩ := List.mem_filterMap.mp hf
  have fine : y.Fine := by
    rcases List.mem_cons.mp hy with rfl | hy
    · exact rfl
    · exact fine_elementEmissions _ sound y hy
  cases y with
  | token t =>
    have valid : t.valid = true := fine
    simp [Emission.fault?, valid] at fault
  | fault g =>
    cases fault
    exact ⟨fine.1, fun part number eq => fine.2 (by injection eq)⟩

theorem mild_encodeMeasures (partId : String) (s : EncodingState) {ms : List Measure}
    (sound : ∀ m ∈ ms, ∀ e ∈ m.elements, ∃ timed, e.bare.Sound timed) :
    ∀ x ∈ (encodeMeasures partId s ms).diagnostics, x.Mild := by
  induction ms generalizing s with
  | nil => exact List.forall_mem_nil _
  | cons m ms ih =>
    obtain ⟨first, rest⟩ := List.forall_mem_cons.mp sound
    rw [encodeMeasures, Reported.diagnostics_bind, Reported.diagnostics_bind]
    exact List.forall_mem_append.mpr ⟨mild_encodeMeasure partId s first,
      List.forall_mem_append.mpr ⟨ih _ rest, List.forall_mem_nil _⟩⟩

/-- Of sound elements only mild defects are reported. -/
theorem mild_encode {p : Part} (sound : ∀ e ∈ p.elements, ∃ timed, e.bare.Sound timed) :
    ∀ x ∈ p.encode.diagnostics, x.Mild := by
  rw [Part.encode, Reported.diagnostics_bind]
  exact List.forall_mem_append.mpr ⟨mild_encodeMeasures p.id {} fun m hm e he =>
    sound e (List.mem_flatMap.mpr ⟨m, hm, he⟩), List.forall_mem_nil _⟩

/-! ## Decoded parts -/

/-- Sound elements say what durations are missing. -/
theorem AllSound.lasting {es before after : List Element} {n : Note}
    (sound : AllSound false (es.map Element.bare)) (eq : es = before ++ .note n :: after) :
    n.duration = none ↔
      n.grace.isSome = true ∨ n.isMeasureRest = true ∧ ∀ e ∈ before, e.timed = false := by
  subst eq
  rw [List.map_append, List.map_cons, allSound_append] at sound
  have note := ((sound_flat n).mp sound.2.1).lasting
  rw [note, Bool.false_or, List.any_map, List.any_eq_false]
  simp only [Function.comp_apply, Element.timed_bare, Bool.not_eq_true]

theorem AllSound.exists {timed : Bool} {es : List Element} (h : AllSound timed es) :
    ∀ e ∈ es, ∃ timed, e.Sound timed := by
  induction es generalizing timed with
  | nil => exact List.forall_mem_nil _
  | cons e es ih => exact List.forall_mem_cons.mpr ⟨⟨timed, h.1⟩, ih h.2⟩

/-- The attributes among sound elements are legible. -/
theorem AllSound.legible {timed : Bool} {es : List Element} (h : AllSound timed es) :
    ∀ a ∈ es.filterMap Element.attributes?, a.Legible := by
  intro a ha
  obtain ⟨e, he, eq⟩ := List.mem_filterMap.mp ha
  obtain ⟨timed, sound⟩ := h.exists e he
  cases e with
  | attributes b => cases eq; exact sound
  | note n => cases eq
  | backup d => cases eq
  | forward d => cases eq

/-- The durations of sound elements are positive. -/
theorem Element.Sound.duration_pos {timed : Bool} {e : Element} (h : e.bare.Sound timed) :
    ∀ d ∈ e.duration?, 0 < d := by
  cases e with
  | attributes a => exact forall_mem_none
  | note n => exact ((sound_flat n).mp h).positive
  | backup d => exact fun t ht => by cases ht; exact h
  | forward d => exact fun t ht => by cases ht; exact h

/-- The last steps put nothing into the elements but alterations, staves and a unit of time. -/
theorem map_bare_tallied (staves : Nat) (d : Int) (p : Part) :
    (p.inferAlterations.tallied staves d).elements.map Element.bare =
      (p.elements.map Element.bare).map (Element.mapDuration (· * (d : Rat))) := by
  have step (t : Bool) (e : Element) :
      (onAttributes (Attributes.declareStep staves) t e).2.bare = e.bare :=
    onAttributes_keeps (fun t a => by
      obtain ⟨v, eq⟩ := exists_declareStep staves t a
      rw [eq]
      rfl) t e
  rw [tallied_eq, elements_mapDurations, List.map_map,
    ← map_elements_inferAlterations Element.bare_flat, ← map_elements_pass step false,
    List.map_map]
  refine List.map_congr_left fun e _ => ?_
  cases e <;> rfl

/-- Behind the head of the part no divisions are declared. -/
theorem divisions?_of_mem_tail {p : Part} (plain : ∀ e ∈ p.elements, e.divisions? = none)
    (d : Int) : ∀ e ∈ (p.declareDivisions d).elements.tail, e.divisions? = none := by
  by_cases none : p.measures = []
  · have same : p.declareDivisions d = p := by
      unfold Part.declareDivisions
      rw [none]
    rw [same]
    exact fun e he => plain e (List.mem_of_mem_tail he)
  · obtain ⟨a, rest, declared, eq⟩ := elements_declareDivisions d none
    rw [declared]
    intro e he
    refine plain e ?_
    rcases eq with eq | ⟨eq, -⟩
    · rw [eq]
      exact List.mem_cons_of_mem _ he
    · rw [eq]
      exact he

/-- The last steps make a part with numbered measures and sound elements well-formed. -/
theorem wellFormed_finish {p : Part}
    (numbered : p.measures.map Measure.frame =
      (List.range' 1 p.measures.length).map fun i : Nat => { number := i })
    (apart : ∀ m ∈ p.measures, m.elements.IsChain SkipsApart)
    (sound : AllSound false p.elements) :
    (p.finish false).diagnostics = [] ∧ (p.finish false).value.measures.length = p.measures.length ∧
      (p.finish false).value.WellFormed ∧
      ∀ x ∈ (p.finish false).value.encode.diagnostics, x.Mild := by
  obtain ⟨staves, d, positive, finished, undivided, whole⟩ := finish_eq sound.legible
  obtain ⟨q, hq⟩ : ∃ q, q = p.inferAlterations.tallied staves d := ⟨_, rfl⟩
  have blank : q.measures.map Measure.blank = p.measures.map Measure.blank :=
    hq ▸ map_blank_tallied staves d p
  have chains := apart_declareDivisions d (apart_of_blank blank apart)
  have frames := frame_finish false p
  have silent : (p.finish false).diagnostics = [] := congrArg Reported.diagnostics finished
  have value : (p.finish false).value = q.declareDivisions d := by
    rw [hq]
    exact congrArg Reported.value finished
  rw [value] at frames
  -- soundness does not depend on a positive unit of time, on staves or on divisions
  have all : AllSound false ((q.declareDivisions d).elements.map Element.bare) := by
    refine AllSound.declareDivisions ?_ d
    rw [hq, map_bare_tallied]
    exact sound.bare.scaled (by exact_mod_cast positive)
  have each : ∀ e ∈ (q.declareDivisions d).elements, ∃ timed, e.bare.Sound timed := fun e he =>
    all.exists e.bare (List.mem_map_of_mem he)
  have durations : (q.declareDivisions d).durations =
      p.inferAlterations.durations.map (· * (d : Rat)) := by
    rw [Part.durations, filterMap_declareDivisions fun _ => rfl, hq,
      filterMap_tallied (fun _ => rfl) fun g e => by cases e <;> rfl]
    rfl
  have length : (q.declareDivisions d).measures.length = p.measures.length := by
    simpa using congrArg List.length frames
  have nonempty (h : (q.declareDivisions d).measures ≠ []) : q.measures ≠ [] := by
    intro none
    apply h
    rw [Part.declareDivisions, none]
    exact none
  rw [value]
  refine ⟨silent, length, ⟨?_, chains, ?_, fun before n after => all.lasting, fun h => ?_, ?_⟩,
    mild_encode each⟩
  · show (q.declareDivisions d).measures.map Measure.frame =
      (List.range' 1 (q.declareDivisions d).measures.length).map _
    rw [frames, numbered, length]
  · intro t ht
    constructor
    · obtain ⟨e, he, eq⟩ := List.mem_filterMap.mp ht
      obtain ⟨timed, h⟩ := each e he
      exact h.duration_pos t eq
    · have mem : t ∈ p.inferAlterations.durations.map (· * (d : Rat)) := durations ▸ ht
      obtain ⟨u, hu, rfl⟩ := List.mem_map.mp mem
      exact whole u hu
  · exact ⟨d, divisions?_declareDivisions (nonempty h), positive⟩
  · exact divisions?_of_mem_tail (fun e he =>
      Option.not_isSome_iff_eq_none.mp (List.any_eq_false.mp (hq ▸ undivided) e he)) d

/-- What is decoded has no marks. -/
theorem unmarked_decodeTexts (quarters : Bool) (ts : List String) :
    ∀ m ∈ (decodeTexts quarters ts).value.measures, m.newSystem = false ∧ m.newPage = false := by
  intro m hm
  have framed : m.frame ∈ (decodeTexts quarters ts).value.measures.map Measure.frame :=
    List.mem_map_of_mem hm
  rw [decodeTexts, Reported.value_bind, decodeTokens_eq, Reported.value_bind, Reported.value_bind,
    frame_finish] at framed
  have numbered := (decodeMeasures_numbered (measureClusters (Token.ofTexts ts).value).value {} 1).1
  rw [show (decodeMeasures {} 1 _).value.map Measure.frame = _ from numbered] at framed
  obtain ⟨number, -, eq⟩ := List.mem_map.mp framed
  exact ⟨(congrArg Measure.newSystem eq).symm, (congrArg Measure.newPage eq).symm⟩

/-- Only the text `measure` spells a token that opens a measure. -/
theorem countP_measure_ofTexts (ts : List String) :
    (Token.ofTexts ts).value.countP (·.terminal = .measure) = ts.count "measure" := by
  suffices all : ∀ k, ((ts.zipIdx k).filterMap Token.ofEntry?).countP (·.terminal = .measure) =
      ts.count "measure" from all 1
  induction ts with
  | nil => exact fun _ => rfl
  | cons t ts ih =>
    intro k
    have spelled : Terminal.ofText? t = some .measure ↔ t = "measure" := by
      constructor
      · intro read
        exact (Terminal.text_of_ofText? read).symm
      · rintro rfl
        exact Terminal.ofText?_text (t := .measure) rfl
    rw [List.zipIdx_cons, List.filterMap_cons, List.count_cons, ← ih (k + 1)]
    cases read : Terminal.ofText? t with
    | none =>
      have entry : Token.ofEntry? (t, k) = none := Option.map_eq_none_iff.mpr read
      have other : t ≠ "measure" := fun eq => by rw [spelled.mpr eq] at read; cases read
      rw [entry, if_neg (by simpa using other)]
      rfl
    | some terminal =>
      have entry : Token.ofEntry? (t, k) = some ⟨terminal, k⟩ := Option.map_eq_some_iff.mpr
        ⟨terminal, read, rfl⟩
      rw [entry]
      dsimp only
      rw [List.countP_cons]
      refine congrArg _ (if_congr ?_ rfl rfl)
      rw [decide_eq_true_iff, beq_iff_eq, ← spelled, read, Option.some_inj]

/-- What valid tokens are decoded to in ticks, and what is found on the way. -/
theorem decodeTokens_of_valid {tokens : List Token} (valid : AllValid tokens) :
    (decodeTokens false tokens).Finds ∧
      (decodeTokens false tokens).value.measures.length =
        tokens.countP (·.terminal = .measure) ∧
      (decodeTokens false tokens).value.WellFormed ∧
      ∀ x ∈ (decodeTokens false tokens).value.encode.diagnostics, x.Mild := by
  obtain ⟨clusters, hc⟩ : ∃ clusters, clusters = (measureClusters tokens).value := ⟨_, rfl⟩
  obtain ⟨p, hp⟩ : ∃ p, p = Part.mk "P1" "" (decodeMeasures {} 1 clusters).value := ⟨_, rfl⟩
  have start : ({} : DecodingState).Sound false :=
    ⟨⟨forall_mem_none, forall_mem_none⟩, forall_mem_none, rfl⟩
  have sound : AllSound false p.elements := by
    rw [hp]
    exact allSound_decodeMeasures (hc ▸ valid_measureClusters valid) start 1
  obtain ⟨numbered, apart⟩ := decodeMeasures_numbered clusters {} 1
  have length : p.measures.length = clusters.length := by
    rw [hp]
    simpa using congrArg List.length numbered
  obtain ⟨silent, kept, wellFormed, mild⟩ := @wellFormed_finish p
    (by rw [length, hp]; exact numbered) (by rw [hp]; exact apart) sound
  rw [decodeTokens_eq, Reported.finds_bind, Reported.finds_bind, Reported.value_bind,
    Reported.value_bind, ← hc, ← hp]
  refine ⟨⟨(records_measureClusters tokens).finds, finds_decodeMeasures _ _ _, ?_⟩, ?_,
    wellFormed, mild⟩
  · rw [Reported.Finds, silent]
    exact List.forall_mem_nil _
  · rw [kept, length, hc, length_measureClusters]

/-- **Any texts denote a well-formed part**, with one measure for each text `measure`.  Its
durations are never reported as not to be converted, and when it is written again, no token lies
outside the vocabulary and no note lacks a type. -/
theorem wellFormed_value_decodeTexts (ts : List String) :
    (decodeTexts false ts).value.measures.length = ts.count "measure" ∧
      (decodeTexts false ts).value.WellFormed ∧
      (∀ x ∈ (decodeTexts false ts).diagnostics, ∀ fault,
        x.defect ≠ .token (.conversion fault)) ∧
      ∀ x ∈ (decodeTexts false ts).value.encode.diagnostics,
        x.kind ≠ .lexical ∧ ∀ part number, x.defect ≠ .score part number .noType := by
  obtain ⟨finds, length, wellFormed, mild⟩ :=
    decodeTokens_of_valid fun t (ht : t ∈ (Token.ofTexts ts).value) => Token.valid_ofTexts ht
  rw [decodeTexts, Reported.value_bind]
  refine ⟨length.trans (countP_measure_ofTexts ts), wellFormed, ?_, mild⟩
  intro x hx fault
  rw [Reported.diagnostics_bind] at hx
  rcases List.mem_append.mp hx with hx | hx
  · obtain ⟨entry, -, unknown⟩ := List.mem_filterMap.mp hx
    unfold Token.unknown? at unknown
    split at unknown
    · cases unknown
    · cases unknown
      exact fun eq => by cases eq
  · exact (finds x hx).ne_conversion fault

end LinearScore
