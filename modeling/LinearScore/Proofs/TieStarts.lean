import LinearScore.Proofs.OpenTies

/-!
# Where ties start

The inference of alterations keeps the open ties in two tables of pitches.  Here the tie that is
open at a place is found in the part itself: by the notes in front and the ends of ties at them,
without a pass.

## Main definitions

* `Spot`: the position of an element in a part
* `OpenFrom`: a tie that is open in front of an element of a measure, and where it starts
* `Untaken`: no tie of the measure before has been taken so far
* `Part.OpenStart`: the start of the tie that is open at a place in front of a spot
* `Part.TakesFrom`: a note takes its pitch from the start of a tie
* `Part.before`: what the inference knows in front of a spot

The tables hold what the part shows, as `tied_before` states; so `noteAt?_of_takesFrom` and
`noteAt?_of_untied` give the pitch that is inferred for a note that takes one and for any other.
-/

namespace LinearScore

/-! ## Ties in a part -/

/-- The position of an element in a part: its measure and its place there, both from zero. -/
structure Spot where
  measure : Nat
  element : Nat
  deriving DecidableEq

namespace Part

/-- The elements of a measure, none behind the last measure. -/
def elementsAt (p : Part) (i : Nat) : List Element := p.measures[i]?.elim [] (·.elements)

/-- The note at a spot. -/
def noteAt? (p : Part) (s : Spot) : Option Note :=
  (p.elementsAt s.measure)[s.element]?.bind Element.note?

/-- The pitch of the note at a spot. -/
def pitchAt? (p : Part) (s : Spot) : Option Pitch := (p.noteAt? s).bind Note.pitch?

section Map

variable {p q : Part} {f : Element → Element}

end Map

end Part

theorem Element.eq_of_note? {e : Element} {n : Note} (h : e.note? = some n) : e = .note n := by
  cases e <;> cases h
  rfl

/-- The element is a note at a place with an end of a tie. -/
def Element.HasTie (place : Place) (side : StartStop) (e : Element) : Prop :=
  ∃ n ∈ e.note?, n.place? = some place ∧ side ∈ n.ties

instance (place : Place) (side : StartStop) (e : Element) : Decidable (e.HasTie place side) :=
  inferInstanceAs (Decidable (∃ n ∈ e.note?, _ ∧ _))

section

variable (es : List Element) (place : Place)

/-- A measure has a note with an end of a tie at a place. -/
def TieAt (side : StartStop) (k : Nat) : Prop := ∃ e ∈ es[k]?, e.HasTie place side

instance (side : StartStop) (k : Nat) : Decidable (TieAt es place side k) :=
  inferInstanceAs (Decidable (∃ e ∈ es[k]?, e.HasTie place side))

/-- The tie that is open at a place in front of the `j`-th element of a measure starts at the
`k`-th: the latest start there, with no end behind it. -/
structure OpenFrom (j k : Nat) : Prop where
  ahead : k < j
  starts : TieAt es place .start k
  latest : ∀ l < j, k < l → ¬TieAt es place .start l
  unended : ∀ l < j, k < l → ¬TieAt es place .stop l

/-- In front of the `j`-th element of a measure, each end of a tie at a place has had a start in
the measure itself, so that no tie of the measure before has been taken there. -/
def Untaken (j : Nat) : Prop := ∀ l < j, TieAt es place .stop l → ∃ k, OpenFrom es place l k

end

/-- The tie that is open at a place in front of a spot, and where it starts: in the same measure,
or else in the one before, where it has been left open and has not been taken since. -/
inductive Part.OpenStart (p : Part) (place : Place) : Spot → Spot → Prop
  | here {i j k : Nat} (opened : OpenFrom (p.elementsAt i) place j k) :
      p.OpenStart place ⟨i, j⟩ ⟨i, k⟩
  | before {i j k : Nat} (shut : ∀ l, ¬OpenFrom (p.elementsAt (i + 1)) place j l)
      (untaken : Untaken (p.elementsAt (i + 1)) place j)
      (opened : OpenFrom (p.elementsAt i) place (p.elementsAt i).length k) :
      p.OpenStart place ⟨i + 1, j⟩ ⟨i, k⟩

/-- The note at a spot ends a tie, and the one that is open at its place has a given start. -/
def Part.TakesFrom (p : Part) (s start : Spot) : Prop :=
  ∃ place, TieAt (p.elementsAt s.measure) place .stop s.element ∧ p.OpenStart place s start

/-! ## Ties in front of an element -/

section

variable {es : List Element} {place : Place} {j k : Nat}

theorem tieAt_iff {side : StartStop} {e : Element} (he : es[k]? = some e) :
    TieAt es place side k ↔ e.HasTie place side := by
  simp [TieAt, he]

theorem not_tieAt {side : StartStop} (he : es[k]? = none) : ¬TieAt es place side k := by
  simp [TieAt, he]

theorem OpenFrom.eq {k' : Nat} (h : OpenFrom es place j k) (h' : OpenFrom es place j k') :
    k = k' := by
  rcases Nat.lt_trichotomy k k' with lt | eq | lt
  · exact absurd h'.starts (h.latest k' h'.ahead lt)
  · exact eq
  · exact absurd h.starts (h'.latest k h.ahead lt)

/-- Behind a start the tie from there is open. -/
theorem openFrom_succ_of_start (start : TieAt es place .start j) :
    OpenFrom es place (j + 1) k ↔ k = j := by
  constructor
  · intro h
    by_contra ne
    exact h.latest j (Nat.lt_succ_self j) (by have := h.ahead; omega) start
  · rintro rfl
    exact ⟨Nat.lt_succ_self k, start, fun l hl hk => by omega, fun l hl hk => by omega⟩

/-- Behind an end that is no start no tie is open. -/
theorem not_openFrom_succ_of_stop (start : ¬TieAt es place .start j)
    (stop : TieAt es place .stop j) : ¬OpenFrom es place (j + 1) k := by
  intro h
  have ne : k ≠ j := fun eq => start (eq ▸ h.starts)
  exact h.unended j (Nat.lt_succ_self j) (by have := h.ahead; omega) stop

/-- An element without an end of a tie leaves open what is open. -/
theorem openFrom_succ_of_free (start : ¬TieAt es place .start j) (stop : ¬TieAt es place .stop j) :
    OpenFrom es place (j + 1) k ↔ OpenFrom es place j k := by
  constructor
  · intro h
    have ne : k ≠ j := fun eq => start (eq ▸ h.starts)
    exact ⟨by have := h.ahead; omega, h.starts, fun l hl => h.latest l (by omega),
      fun l hl => h.unended l (by omega)⟩
  · intro h
    refine ⟨by have := h.ahead; omega, h.starts, fun l hl hk => ?_, fun l hl hk => ?_⟩
    · rcases Nat.lt_succ_iff_lt_or_eq.mp hl with lt | rfl
      · exact h.latest l lt hk
      · exact start
    · rcases Nat.lt_succ_iff_lt_or_eq.mp hl with lt | rfl
      · exact h.unended l lt hk
      · exact stop

theorem untaken_zero : Untaken es place 0 := fun l hl => absurd hl (Nat.not_lt_zero l)

theorem untaken_succ :
    Untaken es place (j + 1) ↔
      Untaken es place j ∧ (TieAt es place .stop j → ∃ k, OpenFrom es place j k) := by
  unfold Untaken
  constructor
  · exact fun h => ⟨fun l hl => h l (by omega), h j (Nat.lt_succ_self j)⟩
  · rintro ⟨h, last⟩ l hl
    rcases Nat.lt_succ_iff_lt_or_eq.mp hl with lt | rfl
    · exact h l lt
    · exact last

end

/-! ## The tables in front of an element -/

/-- The pitch of an element that is a pitched note. -/
def Element.pitch? (e : Element) : Option Pitch := e.note?.bind Note.pitch?

theorem Part.pitchAt?_eq (p : Part) (s : Spot) :
    p.pitchAt? s = (p.elementsAt s.measure)[s.element]?.bind Element.pitch? := by
  unfold pitchAt? noteAt?
  rw [Option.bind_assoc]
  rfl

namespace AlterationState

section Steps

variable {seen : List Sighting} {place : Place}

theorem hasTie_note {n : Note} {side : StartStop} :
    (Element.note n).HasTie place side ↔ n.place? = some place ∧ side ∈ n.ties := by
  simp [Element.HasTie, Element.note?]

theorem not_hasTie_of_note? {e : Element} {side : StartStop} (h : e.note? = none) :
    ¬e.HasTie place side := by
  rintro ⟨n, hn, -⟩
  rw [h] at hn
  cases hn

/-- What a note leaves open at a place in its own measure. -/
theorem current_note (s : AlterationState) (cursor : Rat) (n : Note) :
    (s.note seen cursor n).1.current place =
      if n.place? = some place ∧ .start ∈ n.ties then (s.note seen cursor n).2.pitch?
      else if n.place? = some place ∧ .stop ∈ n.ties then none else s.current place := by
  cases hp : n.pitch? with
  | none =>
    have nowhere : ¬n.place? = some place := by simp [Note.place?, hp]
    rw [if_neg (nowhere ·.1), if_neg (nowhere ·.1), note_unpitched s seen cursor hp]
  | some p =>
    have hq := place?_of_pitch? hp
    rw [note_pitched s seen cursor hp hq, hq]
    simp only [startTie, List.contains_iff_mem, Option.some.injEq, eq_comm (b := place)]
    by_cases here : place = ⟨n.staff.getD 1, p.step, p.octave⟩
    · simp only [here, true_and]
      split
      · exact if_pos rfl
      · split
        · exact if_pos rfl
        · rfl
    · have elsewhere (t : TieTable) (entry : Option Pitch) :
          t.set ⟨n.staff.getD 1, p.step, p.octave⟩ entry place = t place := if_neg here
      simp only [here, false_and, if_false]
      split <;> split <;> simp only [elsewhere]

/-- What a note leaves open at a place from the measure before. -/
theorem previous_note (s : AlterationState) (cursor : Rat) (n : Note) :
    (s.note seen cursor n).1.previous place =
      if n.Takes s.current place then none else s.previous place := by
  cases hp : n.pitch? with
  | none =>
    have nowhere : ¬n.Takes s.current place := by simp [Note.Takes, Note.place?, hp]
    rw [if_neg nowhere, note_unpitched s seen cursor hp]
  | some p =>
    rw [note_pitched s seen cursor hp (place?_of_pitch? hp)]
    unfold startTie
    split <;> rfl

/-- What an element leaves open at a place in its own measure. -/
theorem current_element (s : AlterationState × Rat) (e : Element) :
    (element seen s e).1.1.current place =
      if e.HasTie place .start then (element seen s e).2.pitch?
      else if e.HasTie place .stop then none else s.1.current place := by
  have silent (h : e.note? = none) (x : Option Pitch) : s.1.current place =
      if e.HasTie place .start then x
      else if e.HasTie place .stop then none else s.1.current place := by
    rw [if_neg (not_hasTie_of_note? h), if_neg (not_hasTie_of_note? h)]
  cases e with
  | note n =>
    simp only [hasTie_note]
    exact current_note s.1 s.2 n
  | attributes a => exact silent rfl _
  | backup d => exact silent rfl _
  | forward d => exact silent rfl _

/-- What an element leaves open at a place from the measure before. -/
theorem previous_element (s : AlterationState × Rat) (e : Element) :
    (element seen s e).1.1.previous place =
      if e.HasTie place .stop ∧ s.1.current place = none then none else s.1.previous place := by
  have silent (h : e.note? = none) : s.1.previous place =
      if e.HasTie place .stop ∧ s.1.current place = none then none else s.1.previous place :=
    (if_neg fun tie => not_hasTie_of_note? h tie.1).symm
  cases e with
  | note n =>
    simp only [hasTie_note, and_assoc, ← List.contains_iff_mem]
    exact previous_note s.1 s.2 n
  | attributes a => exact silent rfl
  | backup d => exact silent rfl
  | forward d => exact silent rfl

end Steps

/-- An element stays pitched, or without a pitch. -/
theorem isSome_pitch?_element (seen : List Sighting) (s : AlterationState × Rat) (e : Element) :
    (element seen s e).2.pitch?.isSome = e.pitch?.isSome := by
  cases e with
  | note n =>
    change (s.1.note seen s.2 n).2.pitch?.isSome = n.pitch?.isSome
    cases hp : n.pitch? with
    | none => rw [note_unpitched s.1 seen s.2 hp, hp]
    | some p =>
      rw [note_pitched s.1 seen s.2 hp (place?_of_pitch? hp)]
      rfl
  | attributes a => rfl
  | backup d => rfl
  | forward d => rfl

/-! ## The tables along a measure -/

section Run

variable {seen : List Sighting} (s : AlterationState × Rat) (es : List Element) (place : Place)

/-- A tie of the measure is open with the pitch that its start has been given. -/
theorem current_take (fresh : s.1.current = noTies) (j : Nat) (q : Pitch) :
    (thread (element seen) s (es.take j)).1.1.current place = some q ↔
      ∃ k, OpenFrom es place j k ∧
        (thread (element seen) s es).2[k]?.bind Element.pitch? = some q := by
  induction j with
  | zero =>
    rw [List.take_zero, thread_nil, fresh]
    refine ⟨nofun, ?_⟩
    rintro ⟨k, opened, -⟩
    exact absurd opened.ahead (Nat.not_lt_zero k)
  | succ j ih =>
    rw [List.take_add_one, thread_append]
    cases he : es[j]? with
    | none =>
      simp only [openFrom_succ_of_free (not_tieAt he) (not_tieAt he)]
      exact ih
    | some e =>
      dsimp only [Option.toList_some, thread_cons, thread_nil]
      rw [current_element]
      split
      · rename_i start
        rw [← tieAt_iff he] at start
        simp only [openFrom_succ_of_start start, exists_eq_left]
        rw [getElem?_thread, he]
        rfl
      · rename_i start
        rw [← tieAt_iff he] at start
        split
        · rename_i stop
          rw [← tieAt_iff he] at stop
          refine ⟨nofun, ?_⟩
          rintro ⟨k, opened, -⟩
          exact absurd opened (not_openFrom_succ_of_stop start stop)
        · rename_i stop
          rw [← tieAt_iff he] at stop
          simp only [openFrom_succ_of_free start stop]
          exact ih

/-- The note at an end of a tie has a pitch behind the pass, too. -/
theorem exists_pitch_of_tieAt {side : StartStop} {k : Nat} (tie : TieAt es place side k) :
    ∃ q, (thread (element seen) s es).2[k]?.bind Element.pitch? = some q := by
  obtain ⟨e, he, n, hn, hplace, -⟩ := tie
  have pitched : e.pitch?.isSome = true := by
    rw [Element.pitch?, hn, Option.bind_some, ← Option.isSome_map, ← Note.place?, hplace]
    rfl
  rw [← isSome_pitch?_element seen (thread (element seen) s (es.take k)).1] at pitched
  rw [getElem?_thread, he, Option.map_some, Option.bind_some]
  exact Option.isSome_iff_exists.mp pitched

theorem current_take_eq_none_iff (fresh : s.1.current = noTies) (j : Nat) :
    (thread (element seen) s (es.take j)).1.1.current place = none ↔
      ∀ k, ¬OpenFrom es place j k := by
  constructor
  · intro shut k opened
    obtain ⟨q, hq⟩ : ∃ q, (thread (element seen) s es).2[k]?.bind Element.pitch? = some q :=
      exists_pitch_of_tieAt s es place opened.starts
    have known := (current_take s es place fresh j q).mpr ⟨k, opened, hq⟩
    rw [shut] at known
    cases known
  · intro shut
    rw [Option.eq_none_iff_forall_ne_some]
    intro q known
    obtain ⟨k, opened, -⟩ := (current_take s es place fresh j q).mp known
    exact shut k opened

/-- A tie of the measure before stays open until it is taken. -/
theorem previous_take (fresh : s.1.current = noTies) (j : Nat) (q : Pitch) :
    (thread (element seen) s (es.take j)).1.1.previous place = some q ↔
      Untaken es place j ∧ s.1.previous place = some q := by
  induction j with
  | zero => exact (and_iff_right untaken_zero).symm
  | succ j ih =>
    rw [List.take_add_one, thread_append, untaken_succ, and_right_comm]
    cases he : es[j]? with
    | none =>
      rw [and_iff_left fun stop => absurd stop (not_tieAt he)]
      exact ih
    | some e =>
      dsimp only [Option.toList_some, thread_cons, thread_nil]
      rw [previous_element]
      split
      · rename_i taken
        rw [← tieAt_iff he, current_take_eq_none_iff s es place fresh] at taken
        refine ⟨nofun, fun h => ?_⟩
        obtain ⟨k, opened⟩ := h.2 taken.1
        exact absurd opened (taken.2 k)
      · rename_i passes
        rw [← tieAt_iff he, current_take_eq_none_iff s es place fresh, ← not_exists] at passes
        rw [and_iff_left fun stop => Classical.byContradiction fun shut => passes ⟨stop, shut⟩]
        exact ih

end Run

end AlterationState

/-! ## The tables along a part -/

namespace Part

variable (p : Part)

/-- What the inference knows in front of a measure. -/
def stateAt (i : Nat) : AlterationState :=
  (thread AlterationState.measure {} (p.measures.take i)).1

/-- What the inference knows at the start of a measure, where the ties of the measure before have
been put aside. -/
def opening (i : Nat) : AlterationState × Rat :=
  (⟨(p.stateAt i).fifths, noTies, (p.stateAt i).current⟩, 0)

/-- The inference along the elements of a measure. -/
def step (i : Nat) : AlterationState × Rat → Element → (AlterationState × Rat) × Element :=
  AlterationState.element (sightings 0 (p.elementsAt i))

/-- What the inference knows in front of a spot, and the time there. -/
def before (s : Spot) : AlterationState × Rat :=
  (thread (p.step s.measure) (p.opening s.measure) ((p.elementsAt s.measure).take s.element)).1

theorem elementsAt_inferAlterations (i : Nat) :
    p.inferAlterations.elementsAt i =
      (thread (p.step i) (p.opening i) (p.elementsAt i)).2 := by
  unfold elementsAt
  rw [inferAlterations, getElem?_thread]
  cases hm : p.measures[i]? with
  | none => rfl
  | some m =>
    unfold step elementsAt
    rw [hm]
    rfl

/-- The ties that are open behind a measure are those that its elements leave open. -/
theorem current_stateAt_succ {i : Nat} (h : i < p.measures.length) :
    (p.stateAt (i + 1)).current =
      (thread (p.step i) (p.opening i) (p.elementsAt i)).1.1.current := by
  unfold stateAt step elementsAt
  rw [List.take_add_one, thread_append, List.getElem?_eq_getElem h]
  rfl

/-- What is inferred for the note at a spot. -/
theorem noteAt?_inferAlterations {s : Spot} {n : Note} (hn : p.noteAt? s = some n) :
    p.inferAlterations.noteAt? s =
      some ((p.before s).1.note (sightings 0 (p.elementsAt s.measure)) (p.before s).2 n).2 := by
  obtain ⟨e, he, note⟩ := Option.bind_eq_some_iff.mp hn
  obtain rfl := Element.eq_of_note? note
  rw [noteAt?, elementsAt_inferAlterations, getElem?_thread, he]
  rfl

theorem lt_of_noteAt? {s : Spot} {n : Note} (hn : p.noteAt? s = some n) :
    s.measure < p.measures.length := by
  by_contra beyond
  rw [noteAt?, elementsAt, List.getElem?_eq_none (Nat.le_of_not_lt beyond)] at hn
  cases hn

section

variable (i j : Nat) (place : Place) (q : Pitch)

theorem pitchAt?_inferAlterations (k : Nat) :
    p.inferAlterations.pitchAt? ⟨i, k⟩ =
      (thread (p.step i) (p.opening i) (p.elementsAt i)).2[k]?.bind Element.pitch? := by
  rw [pitchAt?_eq, elementsAt_inferAlterations]

theorem current_before :
    (p.before ⟨i, j⟩).1.current place = some q ↔
      ∃ k, OpenFrom (p.elementsAt i) place j k ∧ p.inferAlterations.pitchAt? ⟨i, k⟩ = some q := by
  simp only [pitchAt?_inferAlterations]
  exact AlterationState.current_take (p.opening i) (p.elementsAt i) place rfl j q

theorem current_before_eq_none_iff :
    (p.before ⟨i, j⟩).1.current place = none ↔ ∀ k, ¬OpenFrom (p.elementsAt i) place j k :=
  AlterationState.current_take_eq_none_iff (p.opening i) (p.elementsAt i) place rfl j

theorem previous_before :
    (p.before ⟨i, j⟩).1.previous place = some q ↔
      Untaken (p.elementsAt i) place j ∧ (p.opening i).1.previous place = some q :=
  AlterationState.previous_take (p.opening i) (p.elementsAt i) place rfl j q

/-- What a measure leaves open is known at the start of the next one. -/
theorem previous_opening_succ (h : i < p.measures.length) :
    (p.opening (i + 1)).1.previous place = some q ↔
      ∃ k, OpenFrom (p.elementsAt i) place (p.elementsAt i).length k ∧
        p.inferAlterations.pitchAt? ⟨i, k⟩ = some q := by
  have behind : (p.opening (i + 1)).1.previous =
      (p.before ⟨i, (p.elementsAt i).length⟩).1.current := by
    rw [before, List.take_length]
    exact p.current_stateAt_succ h
  rw [behind, current_before]

end

/-- **The tables hold what the part shows**: the tie that is open at a place in front of a spot,
with the pitch that is inferred for its start. -/
theorem tied_before {s : Spot} (h : s.measure < p.measures.length) (place : Place) (q : Pitch) :
    ((p.before s).1.current place).or ((p.before s).1.previous place) = some q ↔
      ∃ start, p.OpenStart place s start ∧ p.inferAlterations.pitchAt? start = some q := by
  obtain ⟨i, j⟩ := s
  rw [Option.or_eq_some_iff, current_before, current_before_eq_none_iff, previous_before]
  constructor
  · rintro (⟨k, opened, pitch⟩ | ⟨shut, untaken, left⟩)
    · exact ⟨⟨i, k⟩, .here opened, pitch⟩
    · cases i with
      | zero => cases left
      | succ i =>
        obtain ⟨k, opened, pitch⟩ :=
          (p.previous_opening_succ i place q (Nat.lt_of_succ_lt h)).mp left
        exact ⟨⟨i, k⟩, .before shut untaken opened, pitch⟩
  · rintro ⟨start, opened, pitch⟩
    cases opened with
    | here opened => exact .inl ⟨_, opened, pitch⟩
    | before shut untaken opened =>
      exact .inr ⟨shut, untaken,
        (p.previous_opening_succ _ place q (Nat.lt_of_succ_lt h)).mpr ⟨_, opened, pitch⟩⟩

section

variable {p} {s start : Spot} {n : Note} {pitch : Pitch}

/-- What accidentals and key say of the note at a spot. -/
def signed (p : Part) (s : Spot) (n : Note) (place : Place) : Int :=
  (p.before s).1.alteration (sightings 0 (p.elementsAt s.measure)) place (n.onset (p.before s).2)

/-- A pitched note keeps all but the alteration, and gets the pitch that `sounding` gives it. -/
theorem noteAt?_of_sounding (hn : p.noteAt? s = some n) (hp : n.pitch? = some pitch)
    {place : Place} (hplace : n.place? = some place) :
    p.inferAlterations.noteAt? s =
      some { n with
        content := .pitch ((p.before s).1.sounding (sightings 0 (p.elementsAt s.measure))
          (p.before s).2 place n pitch) } := by
  rw [noteAt?_inferAlterations p hn, AlterationState.note_pitched _ _ _ hp hplace]

theorem tieAt_of_noteAt? (hn : p.noteAt? s = some n) (place : Place) (side : StartStop) :
    TieAt (p.elementsAt s.measure) place side s.element ↔
      n.place? = some place ∧ side ∈ n.ties := by
  obtain ⟨e, he, note⟩ := Option.bind_eq_some_iff.mp hn
  rw [tieAt_iff he, Element.HasTie, note]
  simp

/-- A pitched note that takes no tie sounds as accidentals and key say. -/
theorem noteAt?_of_untied (hn : p.noteAt? s = some n) (hp : n.pitch? = some pitch)
    {place : Place} (hplace : n.place? = some place) (untied : ∀ start, ¬p.TakesFrom s start) :
    p.inferAlterations.noteAt? s =
      some { n with content := .pitch { pitch with alter := p.signed s n place } } := by
  rw [noteAt?_of_sounding hn hp hplace, AlterationState.sounding]
  split
  · rename_i stop
    have tie := (tieAt_of_noteAt? hn place .stop).mpr ⟨hplace, List.contains_iff_mem.mp stop⟩
    have nothing : ((p.before s).1.current place).or ((p.before s).1.previous place) = none := by
      rw [Option.eq_none_iff_forall_ne_some]
      intro q tied
      obtain ⟨start, opened, -⟩ := (p.tied_before (p.lt_of_noteAt? hn) place q).mp tied
      exact untied start ⟨place, tie, opened⟩
    rw [nothing]
    rfl
  · rfl

end

end Part

end LinearScore
