import Mathlib.Data.List.Forall2
import LinearScore.Proofs.Rereading
import LinearScore.Proofs.WholeTicks

/-!
# The last steps of decoding

Behind the measures come three passes over the whole part: the number of staves is declared, the
alterations are inferred, and durations become ticks.  What does not depend on these values is the
same before and behind the passes.

## Main definitions

* `Steady`: what is seen of elements does not depend on staves and alterations, nor on divisions
  and durations where these change
* `AlterationState.Placed`: ties are kept at the places of their pitches

The main statement is `map_finish`.
-/

namespace LinearScore

variable {σ α β : Type}

/-- A pass keeps what is seen of each member if each of its steps does, as long as its state is
one of those that `I` describes. -/
theorem map_thread {step : σ → α → σ × α} {I : σ → Prop} {f : α → β}
    (h : ∀ s a, I s → I (step s a).1 ∧ f (step s a).2 = f a) {s : σ} (hs : I s) (as : List α) :
    I (thread step s as).1 ∧ (thread step s as).2.map f = as.map f := by
  induction as generalizing s with
  | nil => exact ⟨hs, rfl⟩
  | cons a as ih =>
    obtain ⟨next, same⟩ := h s a hs
    obtain ⟨last, rest⟩ := ih next
    refine ⟨last, ?_⟩
    rw [thread_cons, List.map_cons, List.map_cons, same, rest]

/-- A relation that only looks at what `f` shows of the right side holds of all lists that show
the same. -/
theorem forall₂_of_map_eq {γ δ : Type} {R : γ → α → Prop} {S : γ → δ → Prop} {f : α → δ}
    (h : ∀ c a, R c a ↔ S c (f a)) {cs : List γ} {as bs : List α} (same : bs.map f = as.map f)
    (all : List.Forall₂ R cs as) : List.Forall₂ R cs bs := by
  obtain rfl : R = fun c a => S c (f a) := funext fun c => funext fun a => propext (h c a)
  rw [← List.forall₂_map_right_iff] at all ⊢
  rwa [same]

/-- What `f` shows of an element does not depend on what the last steps of decoding change. -/
structure Steady (quarters : Bool) (f : Element → List β) : Prop where
  staves : ∀ a staves, f (.attributes { a with staves }) = f (.attributes a)
  alter : ∀ n p alter, n.content = .pitch p →
    f (.note { n with content := .pitch { p with alter } }) = f (.note n)
  divisions : quarters = false → ∀ a divisions,
    f (.attributes { a with divisions }) = f (.attributes a)
  durations : quarters = false → ∀ g e, f (e.mapDuration g) = f e
  empty : quarters = false → f (.attributes {}) = []

/-- What `f` shows of a measure. -/
def Measure.shown (f : Element → List β) (m : Measure) : List β := m.elements.flatMap f

theorem Measure.shown_congr {f : Element → List β} {m m' : Measure}
    (h : m'.elements.map f = m.elements.map f) : m'.shown f = m.shown f := by
  rw [shown, shown, List.flatMap_def, List.flatMap_def, h]

section Passes

variable {quarters : Bool} {f : Element → List β} (steady : Steady quarters f) (p : Part)
include steady

/-! ## Staves -/

theorem map_declareStaves :
    p.declareStaves.measures.map (Measure.shown f) = p.measures.map (Measure.shown f) := by
  have step (staves : Nat) (declared : Bool) (e : Element) :
      f (declareStavesStep staves declared e).2 = f e := by
    cases e with
    | attributes a =>
      rw [declareStavesStep]
      split
      · exact steady.staves a (some staves)
      · rfl
    | note n => rfl
    | backup d => rfl
    | forward d => rfl
  unfold Part.declareStaves
  split
  · rfl
  · rename_i staves _
    refine (@map_thread _ _ _ _ (fun _ => True) _ (fun declared m _ => ⟨trivial, ?_⟩) _ trivial
      p.measures).2
    exact Measure.shown_congr
      (@map_thread _ _ _ _ (fun _ => True) f (fun d e _ => ⟨trivial, step staves d e⟩) _ trivial
        m.elements).2

/-! ## Durations -/

theorem map_ticksOf (ticks : quarters = false) :
    (ticksOf p).value.measures.map (Measure.shown f) = p.measures.map (Measure.shown f) := by
  have durations (g : Rat → Rat) (ms : List Measure) :
      (ms.map fun m => { m with elements := m.elements.map (Element.mapDuration g) }).map
        (Measure.shown f) = ms.map (Measure.shown f) := by
    rw [List.map_map]
    refine List.map_congr_left fun m _ => Measure.shown_congr ?_
    rw [List.map_map]
    exact List.map_congr_left fun e _ => steady.durations ticks g e
  have head (d : Int) (m : Measure) :
      (m.withHead fun a => { a with divisions := some d }).shown f = m.shown f := by
    unfold Measure.withHead Measure.shown
    split
    · rename_i a rest eq
      rw [eq, List.flatMap_cons, List.flatMap_cons, steady.divisions ticks]
    · rw [List.flatMap_cons, steady.divisions ticks, steady.empty ticks, List.nil_append]
  have declared (d : Int) (p : Part) :
      (p.declareDivisions d).measures.map (Measure.shown f) =
        p.measures.map (Measure.shown f) := by
    unfold Part.declareDivisions
    split
    · rfl
    · rename_i m ms eq
      rw [eq, List.map_cons, List.map_cons, head]
  rw [value_ticksOf]
  cases divided : p.hasDivisions with
  | true => rw [toTicks_of_divided divided]
  | false =>
    rw [toTicks_of_undivided divided]
    exact (declared _ _).trans (durations _ p.measures)

end Passes

/-! ## Alterations -/

namespace AlterationState

/-- The pitches of open ties lie at their places. -/
def Placed (s : AlterationState) : Prop :=
  ∀ place p, s.current place = some p ∨ s.previous place = some p →
    p.step = place.step ∧ p.octave = place.octave

theorem Placed.set {t : TieTable} {place : Place} {entry : Option Pitch}
    (h : ∀ place p, t place = some p → p.step = place.step ∧ p.octave = place.octave)
    (he : ∀ p ∈ entry, p.step = place.step ∧ p.octave = place.octave) :
    ∀ q p, t.set place entry q = some p → p.step = q.step ∧ p.octave = q.octave := by
  intro q p hp
  unfold TieTable.set at hp
  split at hp
  · rename_i eq
    rw [eq]
    exact he p hp
  · exact h q p hp

theorem Placed.takeTie {s : AlterationState} (h : s.Placed) (place : Place) :
    (s.takeTie place).2.Placed ∧
      ∀ p ∈ (s.takeTie place).1, p.step = place.step ∧ p.octave = place.octave := by
  have current := fun q p hp => h q p (.inl hp)
  have previous := fun q p hp => h q p (.inr hp)
  unfold AlterationState.takeTie
  split
  · rename_i p eq
    refine ⟨fun q r hr => ?_, fun r hr => ?_⟩
    · rcases hr with hr | hr
      · exact Placed.set current (by simp) q r hr
      · exact previous q r hr
    · cases hr
      exact current place p eq
  · refine ⟨fun q r hr => ?_, fun r hr => previous place r hr⟩
    rcases hr with hr | hr
    · exact current q r hr
    · exact Placed.set previous (by simp) q r hr

/-- A tied note keeps its step and octave. -/
theorem Placed.stopTie {s : AlterationState} (h : s.Placed) {place : Place} (n : Note) {p : Pitch}
    (hp : p.step = place.step ∧ p.octave = place.octave) :
    (s.stopTie place n p).2.Placed ∧
      (s.stopTie place n p).1.step = place.step ∧
      (s.stopTie place n p).1.octave = place.octave := by
  unfold AlterationState.stopTie
  split
  · obtain ⟨placed, tied⟩ := h.takeTie place
    refine ⟨placed, ?_⟩
    dsimp only
    cases ht : (s.takeTie place).1 with
    | none => exact hp
    | some q => exact tied q ht
  · exact ⟨h, hp⟩

theorem Placed.startTie {s : AlterationState} (h : s.Placed) {place : Place} (n : Note)
    {p : Pitch} (hp : p.step = place.step ∧ p.octave = place.octave) :
    (s.startTie place n p).Placed := by
  unfold AlterationState.startTie
  split
  · intro q r hr
    rcases hr with hr | hr
    · refine Placed.set (fun q p hp => h q p (.inl hp)) (fun r hr => ?_) q r hr
      cases hr
      exact hp
    · exact h q r (.inr hr)
  · exact h

/-- Inferring the pitch of a note only changes its alteration. -/
theorem Placed.note {s : AlterationState} (h : s.Placed) (seen : List Sighting) (cursor : Rat)
    (n : Note) :
    (s.note seen cursor n).1.Placed ∧
      ((s.note seen cursor n).2 = n ∨ ∃ p alter, n.content = .pitch p ∧
        (s.note seen cursor n).2 = { n with content := .pitch { p with alter } }) := by
  unfold AlterationState.note
  split
  · rename_i p place pitch eq
    have content : n.content = .pitch p := by
      unfold Note.pitch? at pitch
      cases hc : n.content with
      | pitch q => rw [hc] at pitch; cases pitch; rfl
      | rest m => rw [hc] at pitch; cases pitch
    have hp : p.step = place.step ∧ p.octave = place.octave := by
      rw [Note.place?, pitch] at eq
      cases eq
      exact ⟨rfl, rfl⟩
    obtain ⟨placed, sounding⟩ := h.stopTie n
      (p := { p with alter := s.alteration seen place (n.onset cursor) }) hp
    have same (q : Pitch) (hq : q.step = place.step ∧ q.octave = place.octave) :
        q = { p with alter := q.alter } := by
      rw [hp.1, hp.2, ← hq.1, ← hq.2]
    exact ⟨placed.startTie n sounding, .inr ⟨p, _, content,
      congrArg (fun q => { n with content := .pitch q }) (same _ sounding)⟩⟩
  · exact ⟨h, .inl rfl⟩

end AlterationState

/-- Inferring the alterations keeps what is seen of measures if that only depends on what `f` sees
of their elements, and `f` sees no alterations. -/
theorem map_inferAlterations {f : Element → α} (alter : ∀ n p alter, n.content = .pitch p →
      f (.note { n with content := .pitch { p with alter } }) = f (.note n))
    {g : Measure → β} (sees : ∀ (m : Measure) (es : List Element),
      es.map f = m.elements.map f → g { m with elements := es } = g m) (p : Part) :
    p.inferAlterations.measures.map g = p.measures.map g := by
  have step (seen : List Sighting) (s : AlterationState × Rat) (e : Element)
      (h : s.1.Placed) : (AlterationState.element seen s e).1.1.Placed ∧
        f (AlterationState.element seen s e).2 = f e := by
    obtain ⟨s, cursor⟩ := s
    cases e with
    | attributes a => exact ⟨h, rfl⟩
    | note n =>
      obtain ⟨placed, same | ⟨p, alteration, content, eq⟩⟩ := h.note seen cursor n
      · exact ⟨placed, congrArg (fun n => f (.note n)) same⟩
      · refine ⟨placed, ?_⟩
        show f (.note (s.note seen cursor n).2) = _
        rw [eq]
        exact alter n p alteration content
    | backup d => exact ⟨h, rfl⟩
    | forward d => exact ⟨h, rfl⟩
  have start : ({} : AlterationState).Placed := by
    rintro place p (h | h)
    · cases h
    · cases h
  refine (@map_thread _ _ _ _ AlterationState.Placed _ (fun s m hs => ?_) _ start p.measures).2
  have begun : AlterationState.Placed
      { s with previous := s.current, current := fun _ => none } := by
    rintro place q (h | h)
    · cases h
    · exact hs place q (.inl h)
  have elements := @map_thread _ _ _ _ (fun s : AlterationState × Rat => s.1.Placed) f
    (fun s e hs => step (sightings 0 m.elements) s e hs) (_, 0) begun m.elements
  exact ⟨elements.1, sees m _ elements.2⟩

/-- **The last steps of decoding keep what does not depend on the values they change.** -/
theorem map_finish {quarters : Bool} {f : Element → List β} (steady : Steady quarters f)
    (p : Part) :
    (p.finish quarters).value.measures.map (Measure.shown f) =
      p.measures.map (Measure.shown f) := by
  have quarter : p.declareStaves.inferAlterations.measures.map (Measure.shown f) =
      p.measures.map (Measure.shown f) :=
    (map_inferAlterations steady.alter
      (fun m es => @Measure.shown_congr _ f m { m with elements := es }) _).trans
        (map_declareStaves steady p)
  rw [Part.value_finish]
  split
  · exact quarter
  · rename_i ticks
    exact (map_ticksOf steady _ (by simpa using ticks)).trans quarter

/-- The measures before the last steps of decoding show the same. -/
theorem shown_decodeTokens {quarters : Bool} {f : Element → List β} (steady : Steady quarters f)
    (tokens : List Token) :
    (decodeTokens quarters tokens).value.measures.map (Measure.shown f) =
      (decodeMeasures {} 1 (measureClusters tokens).value).value.map (Measure.shown f) := by
  rw [decodeTokens_eq, Reported.value_bind, Reported.value_bind]
  exact map_finish steady _

end LinearScore
