import LinearScore.Proofs.HeldTimes
import LinearScore.Proofs.TieStarts

/-!
# Signs in force

A note that takes no tie reads as the page shows it: by the accidental that is in force at its
place, else by the key signature.  The inference finds the accidental on a second pass, with a
running maximum over accidentals that were put down with their times on a first one.  Here both
are said of the elements themselves, each with its own time.

## Main definitions

* `cursorAt`, `onsetAt`: the time in front of an element, and the time at which a note starts
* `ShowsAt`: a note shows an accidental at a place and a time
* `SignInForce`: the latest accidental at a place up to a time
* `keySign`: what a key signature does to a step, by the order of its signs
* `Part.ReadsAs`: how the page has a note read

The main statement is `reads_of_untied`.
-/

namespace LinearScore

/-! ## Times in a measure -/

/-- How far an element moves the cursor. -/
def Element.shift : Element → Rat
  | .note n => if n.chord then 0 else n.duration.getD 0
  | .backup d => -d
  | .forward d => d
  | .attributes _ => 0

section

variable (es : List Element) (k : Nat)

/-- The time in front of the `k`-th element of a measure, which starts at zero. -/
def cursorAt : Rat := ((es.take k).map Element.shift).sum

/-- The time at which a note starts as the `k`-th element: a further note of a chord starts its own
duration before the cursor. -/
def onsetAt (n : Note) : Rat := cursorAt es k - if n.chord then n.duration.getD 0 else 0

end

theorem advance_eq (cursor : Rat) (e : Element) : e.advance cursor = cursor + e.shift := by
  cases e with
  | note n =>
    simp only [Element.advance, Element.shift]
    split
    · exact (add_zero cursor).symm
    · rfl
  | attributes a => exact (add_zero cursor).symm
  | backup d => exact sub_eq_add_neg cursor d
  | forward d => rfl

theorem foldl_advance (cursor : Rat) (es : List Element) :
    es.foldl Element.advance cursor = cursor + (es.map Element.shift).sum := by
  induction es generalizing cursor with
  | nil => exact (add_zero cursor).symm
  | cons e es ih => rw [List.foldl_cons, ih, advance_eq, List.map_cons, List.sum_cons, add_assoc]

theorem onset_eq (cursor : Rat) (n : Note) :
    n.onset cursor = cursor - if n.chord then n.duration.getD 0 else 0 := by
  unfold Note.onset
  cases n.chord <;> cases n.duration <;> simp

/-- The cursor that the inference carries along. -/
theorem cursor_thread (seen : List Sighting) (s : AlterationState × Rat) (es : List Element) :
    (thread (AlterationState.element seen) s es).1.2 = es.foldl Element.advance s.2 := by
  induction es generalizing s with
  | nil => rfl
  | cons e es ih =>
    rw [thread_cons, List.foldl_cons, ih]
    cases e <;> rfl

/-! ## Accidentals in a measure -/

section

variable (es : List Element) (place : Place)

/-- The `k`-th element of a measure is a note at a place that shows an accidental, and starts at a
time. -/
def ShowsAt (k : Nat) (time : Rat) (a : Accidental) : Prop :=
  ∃ n, es[k]? = some (.note n) ∧ n.place? = some place ∧ n.accidental = some a ∧
    onsetAt es k n = time

/-- The accidental in force at a place and a time: no other one there starts later, up to that
time, nor at the same time further on in the measure. -/
def SignInForce (time : Rat) (a : Accidental) : Prop :=
  ∃ k t, ShowsAt es place k t a ∧ t ≤ time ∧
    ∀ k' t' a', ShowsAt es place k' t' a' → t' ≤ time → t' < t ∨ t' = t ∧ k' ≤ k

/-- No accidental at a place starts by a time. -/
def Unsigned (time : Rat) : Prop := ∀ k t a, ShowsAt es place k t a → time < t

end

theorem sightings_append (cursor : Rat) (es es' : List Element) :
    sightings cursor (es ++ es') =
      sightings cursor es ++ sightings (es.foldl Element.advance cursor) es' := by
  induction es generalizing cursor with
  | nil => rfl
  | cons e es ih =>
    rw [List.cons_append, sightings, sightings, ih, List.foldl_cons, List.append_assoc]

/-- The accidental that the `k`-th element of a measure shows. -/
def sightingAt? (es : List Element) (k : Nat) : Option Sighting :=
  (es[k]?.bind Element.note?).bind (·.sighting? (cursorAt es k))

section

variable {es : List Element} {place : Place} {time : Rat}

theorem sightings_take_succ (es : List Element) (j : Nat) :
    sightings 0 (es.take (j + 1)) = sightings 0 (es.take j) ++ (sightingAt? es j).toList := by
  rw [List.take_add_one, sightings_append, foldl_advance, zero_add]
  refine congrArg (sightings 0 (es.take j) ++ ·) ?_
  unfold sightingAt?
  cases es[j]? with
  | none => rfl
  | some e => exact List.append_nil _

theorem showsAt_iff {k : Nat} {t : Rat} {a : Accidental} :
    ShowsAt es place k t a ↔ sightingAt? es k = some ⟨place, t, a⟩ := by
  unfold ShowsAt sightingAt? onsetAt
  constructor
  · rintro ⟨n, he, hplace, ha, rfl⟩
    rw [he, ← onset_eq]
    simp [Element.note?, Note.sighting?, hplace, ha]
  · intro h
    obtain ⟨n, hn, sighted⟩ := Option.bind_eq_some_iff.mp h
    obtain ⟨e, he, note⟩ := Option.bind_eq_some_iff.mp hn
    obtain rfl := Element.eq_of_note? note
    simp only [Note.sighting?, Option.bind_eq_bind, Option.bind_eq_some_iff, Option.pure_def,
      Option.some.injEq, Sighting.mk.injEq] at sighted
    obtain ⟨place', hplace, a', ha, rfl, honset, rfl⟩ := sighted
    exact ⟨n, he, hplace, ha, by rw [← onset_eq, honset]⟩

/-- Among the first `j` elements of a measure, the latest accidental at a place up to a time, if
there is one. -/
def IsLatest (es : List Element) (place : Place) (time : Rat) (j : Nat) : Option Sighting → Prop
  | none => ∀ k < j, ∀ t a, ShowsAt es place k t a → time < t
  | some b => ∃ k < j, ShowsAt es place k b.onset b.accidental ∧ b.onset ≤ time ∧
      ∀ k' < j, ∀ t a, ShowsAt es place k' t a → t ≤ time → t < b.onset ∨ t = b.onset ∧ k' ≤ k

/-- An element that shows nothing at the place up to the time changes nothing. -/
theorem IsLatest.of_unsigned {j : Nat} {best : Option Sighting} (h : IsLatest es place time j best)
    (unsigned : ∀ t a, ShowsAt es place j t a → time < t) :
    IsLatest es place time (j + 1) best := by
  cases best with
  | none =>
    intro k hk
    rcases Nat.lt_succ_iff_lt_or_eq.mp hk with lt | rfl
    · exact h k lt
    · exact unsigned
  | some b =>
    obtain ⟨k, hk, shows', within, latest⟩ := h
    refine ⟨k, by omega, shows', within, fun k' hk' t a other early => ?_⟩
    rcases Nat.lt_succ_iff_lt_or_eq.mp hk' with lt | rfl
    · exact latest k' lt t a other early
    · exact absurd early (not_le_of_gt (unsigned t a other))

/-- An accidental at the place is compared with the latest one so far. -/
theorem IsLatest.of_showsAt {j : Nat} {best : Option Sighting} {s : Sighting}
    (h : IsLatest es place time j best) (shown : ShowsAt es place j s.onset s.accidental)
    (within : s.onset ≤ time) : IsLatest es place time (j + 1) (laterSighting best s) := by
  have only {t : Rat} {a : Accidental} (other : ShowsAt es place j t a) : t = s.onset := by
    rw [showsAt_iff] at other shown
    exact congrArg Sighting.onset (Option.some.inj (other.symm.trans shown))
  cases best with
  | none =>
    refine ⟨j, Nat.lt_succ_self j, shown, within, fun k hk t a other early => ?_⟩
    rcases Nat.lt_succ_iff_lt_or_eq.mp hk with lt | rfl
    · exact absurd early (not_le_of_gt (h k lt t a other))
    · exact .inr ⟨only other, le_rfl⟩
  | some b =>
    obtain ⟨k, hk, shows', _, latest⟩ := h
    unfold laterSighting
    dsimp only
    split
    · rename_i later
      refine ⟨j, Nat.lt_succ_self j, shown, within, fun k' hk' t a other early => ?_⟩
      rcases Nat.lt_succ_iff_lt_or_eq.mp hk' with lt | rfl
      · have le : t ≤ s.onset := by
          rcases latest k' lt t a other early with lt | ⟨rfl, -⟩
          · exact lt.le.trans later
          · exact later
        rcases le.lt_or_eq with lt' | eq
        · exact .inl lt'
        · exact .inr ⟨eq, lt.le⟩
      · exact .inr ⟨only other, le_rfl⟩
    · rename_i earlier
      refine ⟨k, by omega, shows', by assumption, fun k' hk' t a other early => ?_⟩
      rcases Nat.lt_succ_iff_lt_or_eq.mp hk' with lt | rfl
      · exact latest k' lt t a other early
      · exact .inl (only other ▸ lt_of_not_ge earlier)

/-- The latest of accidentals at a place up to a time. -/
def latestSighting (seen : List Sighting) (place : Place) (time : Rat) : Option Sighting :=
  (seen.filter fun s => s.place = place && s.onset ≤ time).foldl laterSighting none

/-- The running maximum is the latest accidental of the elements so far. -/
theorem isLatest_take (es : List Element) (place : Place) (time : Rat) (j : Nat) :
    IsLatest es place time j (latestSighting (sightings 0 (es.take j)) place time) := by
  induction j with
  | zero => exact fun k hk => absurd hk (Nat.not_lt_zero k)
  | succ j ih =>
    rw [sightings_take_succ, latestSighting, List.filter_append, List.foldl_append]
    cases hs : sightingAt? es j with
    | none =>
      refine ih.of_unsigned fun t a shown => ?_
      rw [showsAt_iff, hs] at shown
      cases shown
    | some s =>
      rw [Option.toList_some]
      by_cases here : s.place = place ∧ s.onset ≤ time
      · rw [List.filter_cons_of_pos (by simpa using here), List.filter_nil]
        refine ih.of_showsAt ?_ here.2
        rw [showsAt_iff, hs, ← here.1]
      · rw [List.filter_cons_of_neg (by simpa using here), List.filter_nil]
        refine ih.of_unsigned fun t a shown => ?_
        rw [showsAt_iff, hs] at shown
        cases shown
        exact lt_of_not_ge fun early => here ⟨rfl, early⟩

theorem isLatest_sightings (es : List Element) (place : Place) (time : Rat) :
    IsLatest es place time es.length (latestSighting (sightings 0 es) place time) := by
  have all := isLatest_take es place time es.length
  rwa [List.take_length] at all

theorem ShowsAt.lt_length {k : Nat} {t : Rat} {a : Accidental} (h : ShowsAt es place k t a) :
    k < es.length := by
  obtain ⟨n, he, -⟩ := h
  exact (List.getElem?_eq_some_iff.mp he).1

theorem SignInForce.eq {a a' : Accidental} (h : SignInForce es place time a)
    (h' : SignInForce es place time a') : a = a' := by
  obtain ⟨k, t, shown, early, latest⟩ := h
  obtain ⟨k', t', shown', early', latest'⟩ := h'
  have same : k = k' := by
    rcases latest k' t' a' shown' early' with lt | ⟨rfl, le⟩
    · rcases latest' k t a shown early with lt' | ⟨rfl, -⟩
      · exact absurd lt lt'.asymm
      · exact absurd lt (lt_irrefl t)
    · rcases latest' k t' a shown early with lt | ⟨-, le'⟩
      · exact absurd lt (lt_irrefl t')
      · exact Nat.le_antisymm le' le
  rw [same, showsAt_iff] at shown
  rw [showsAt_iff, shown] at shown'
  exact congrArg Sighting.accidental (Option.some.inj shown')

/-- **The accidental that is carried is the one in force.** -/
theorem carriedAccidental_eq_some_iff {a : Accidental} :
    carriedAccidental (sightings 0 es) place time = some a ↔ SignInForce es place time a := by
  have found := isLatest_sightings es place time
  show (latestSighting (sightings 0 es) place time).map Sighting.accidental = some a ↔ _
  cases best : latestSighting (sightings 0 es) place time with
  | none =>
    rw [best] at found
    refine ⟨nofun, ?_⟩
    rintro ⟨k, t, shown, early, -⟩
    exact absurd early (not_le_of_gt (found k shown.lt_length t a shown))
  | some b =>
    rw [best] at found
    obtain ⟨k, -, shown, early, latest⟩ := found
    have inForce : SignInForce es place time b.accidental :=
      ⟨k, b.onset, shown, early, fun k' t' a' other => latest k' other.lt_length t' a' other⟩
    rw [Option.map_some, Option.some.injEq]
    exact ⟨fun eq => eq ▸ inForce, inForce.eq⟩

theorem carriedAccidental_eq_none_iff :
    carriedAccidental (sightings 0 es) place time = none ↔ Unsigned es place time := by
  have found := isLatest_sightings es place time
  show (latestSighting (sightings 0 es) place time).map Sighting.accidental = none ↔ _
  cases best : latestSighting (sightings 0 es) place time with
  | none =>
    rw [best] at found
    exact ⟨fun _ k t a shown => found k shown.lt_length t a shown, fun _ => rfl⟩
  | some b =>
    rw [best] at found
    obtain ⟨k, -, shown, early, -⟩ := found
    exact ⟨nofun, fun unsigned => absurd early (not_le_of_gt (unsigned k _ _ shown))⟩

end

/-! ## The key signature -/

/-- The order in which a key signature flattens steps. -/
def flatOrder : List Step := [.b, .e, .a, .d, .g, .c, .f]

/-- The steps that a key signature alters, seven at most. -/
def signedSteps (fifths : Int) : List Step :=
  (if 0 ≤ fifths then sharpOrder else flatOrder).take (min fifths.natAbs 7)

/-- The alteration that a key signature gives a step. -/
def keySign (fifths : Int) (step : Step) : Int :=
  if step ∈ signedSteps fifths then fifths.sign else 0

theorem keyAlteration_eq (fifths : Int) (step : Step) :
    keyAlteration fifths step = keySign fifths step := by
  have capped (order : List Step) (h : order.length = 7) :
      order.take (min fifths.natAbs 7) = order.take fifths.natAbs := by
    rw [← h, ← List.take_eq_take_min]
  have flats : flatOrder = sharpOrder.reverse := rfl
  unfold keyAlteration keySign signedSteps
  rcases lt_trichotomy fifths 0 with neg | rfl | pos
  · rw [if_neg (not_le_of_gt neg), capped flatOrder rfl, Int.sign_eq_neg_one_of_neg neg, flats]
    simp [neg, neg.le]
  · rfl
  · rw [if_pos pos.le, capped sharpOrder rfl, Int.sign_eq_one_of_pos pos]
    simp [pos, pos.le.not_gt]

theorem fifthsAfter_append (fifths : Int) (es es' : List Element) :
    fifthsAfter fifths (es ++ es') = fifthsAfter (fifthsAfter fifths es) es' := by
  simp only [fifthsAfter, keysOf_append, List.getLastD_eq_getLast?, List.getLast?_append,
    Option.getD_or]

/-- The key signature behind measures is the one that their elements show. -/
theorem AlterationState.fifths_measures (s : AlterationState) (ms : List Measure) :
    (thread AlterationState.measure s ms).1.fifths =
      fifthsAfter s.fifths (ms.flatMap (·.elements)) := by
  induction ms generalizing s with
  | nil => rfl
  | cons m ms ih => rw [thread_cons, ih, fifths_measure, List.flatMap_cons, fifthsAfter_append]

namespace Part

/-- The elements of a part in front of a spot. -/
def elementsBefore (p : Part) (s : Spot) : List Element :=
  (p.measures.take s.measure).flatMap (·.elements) ++ (p.elementsAt s.measure).take s.element

theorem fifths_before (p : Part) (s : Spot) :
    (p.before s).1.fifths = fifthsAfter 0 (p.elementsBefore s) := by
  rw [before, elementsBefore, fifthsAfter_append]
  exact (AlterationState.fifths_elements _ _).trans
    (congrArg (fifthsAfter · _) (AlterationState.fifths_measures {} _))

theorem onset_before (p : Part) (s : Spot) (n : Note) :
    n.onset (p.before s).2 = onsetAt (p.elementsAt s.measure) s.element n := by
  rw [onset_eq, before, step, cursor_thread, foldl_advance]
  exact congrArg (· - _) (zero_add _)

/-! ## How a note reads -/

/-- How the page has a note read: by the accidental in force, else by the last key signature in
front of it, else unaltered. -/
inductive ReadsAs (p : Part) (s : Spot) (n : Note) : Int → Prop
  | accidental {place : Place} {a : Accidental} (hplace : n.place? = some place)
      (inForce : SignInForce (p.elementsAt s.measure) place
        (onsetAt (p.elementsAt s.measure) s.element n) a) :
      p.ReadsAs s n a.alteration
  | key {place : Place} {fifths : Int} (hplace : n.place? = some place)
      (unsigned : Unsigned (p.elementsAt s.measure) place
        (onsetAt (p.elementsAt s.measure) s.element n))
      (stated : (keysOf (p.elementsBefore s)).getLast? = some fifths) :
      p.ReadsAs s n (keySign fifths place.step)
  | unaltered {place : Place} (hplace : n.place? = some place)
      (unsigned : Unsigned (p.elementsAt s.measure) place
        (onsetAt (p.elementsAt s.measure) s.element n))
      (keyless : keysOf (p.elementsBefore s) = []) :
      p.ReadsAs s n 0

/-- What accidentals and key say of a note, without a pass. -/
theorem signed_eq (p : Part) (s : Spot) (n : Note) (place : Place) :
    p.signed s n place =
      match carriedAccidental (sightings 0 (p.elementsAt s.measure)) place
        (onsetAt (p.elementsAt s.measure) s.element n) with
      | some a => a.alteration
      | none => keySign (fifthsAfter 0 (p.elementsBefore s)) place.step := by
  rw [← keyAlteration_eq, ← fifths_before, ← onset_before]
  rfl

/-- What accidentals and key say of a note is how the page has it read. -/
theorem readsAs_iff {p : Part} {s : Spot} {n : Note} {place : Place} {alter : Int}
    (hplace : n.place? = some place) : p.ReadsAs s n alter ↔ alter = p.signed s n place := by
  have only {place' : Place} (h : n.place? = some place') : place' = place :=
    Option.some.inj (h.symm.trans hplace)
  rw [signed_eq, fifthsAfter, List.getLastD_eq_getLast?]
  constructor
  · rintro (⟨h, inForce⟩ | ⟨h, unsigned, stated⟩ | ⟨h, unsigned, keyless⟩)
    · rw [only h] at inForce
      rw [carriedAccidental_eq_some_iff.mpr inForce]
    · rw [only h] at unsigned ⊢
      rw [carriedAccidental_eq_none_iff.mpr unsigned, stated]
      rfl
    · rw [only h] at unsigned
      rw [carriedAccidental_eq_none_iff.mpr unsigned, keyless]
      exact (ite_self _).symm
  · rintro rfl
    split
    · rename_i a carried
      exact .accidental hplace (carriedAccidental_eq_some_iff.mp carried)
    · rename_i carried
      have unsigned := carriedAccidental_eq_none_iff.mp carried
      cases stated : (keysOf (p.elementsBefore s)).getLast? with
      | some fifths => exact .key hplace unsigned stated
      | none =>
        have zero : keySign 0 place.step = 0 := ite_self _
        rw [Option.getD_none, zero]
        exact .unaltered hplace unsigned (List.getLast?_eq_none_iff.mp stated)

end Part

/-- **A pitched note that takes no tie gets the alteration that the page shows**, and keeps all
else: the latest accidental at its place that is not after it decides, without one the last key
signature in front of it.  The inference comes to an end where the times of every measure are held
over a common denominator. -/
theorem reads_of_untied {p : Part} {s : Spot} {n : Note} {pitch : Pitch} (hn : p.noteAt? s = some n)
    (hp : n.pitch? = some pitch) (untied : ∀ start, ¬p.TakesFrom s start) :
    (∀ q, (Machine.inferAlterations p).outcome = some q →
      ∃ alter, p.ReadsAs s n alter ∧ (∀ other, p.ReadsAs s n other → other = alter) ∧
        q.noteAt? s = some { n with content := .pitch { pitch with alter } }) ∧
    ∀ common, Machine.HeldDenominator common →
      (∀ m ∈ p.measures, (∀ e ∈ m.elements, e.Over common) ∧
        stretch m.elements * common < Machine.limit64) →
      (Machine.inferAlterations p).outcome.isSome = true := by
  constructor
  · intro q inferred
    obtain ⟨-, rfl⟩ := Checked.outcome_eq_some_iff.mp inferred
    rw [Machine.value_inferAlterations]
    have hplace := AlterationState.place?_of_pitch? hp
    exact ⟨_, (Part.readsAs_iff hplace).mpr rfl, fun _ => (Part.readsAs_iff hplace).mp,
      Part.noteAt?_of_untied hn hp hplace untied⟩
  · intro common denominator times
    rw [Checked.outcome_of_fits (Machine.fits_inferAlterations denominator
      (fun m hm => (times m hm).1) fun m hm => (times m hm).2)]
    rfl

/-- A note of the second beat, and below it a second voice that is written later and shows a
natural on the first beat. -/
def Part.crossVoices : Part where
  id := "P1"
  measures := [{ number := 1, elements :=
    [.attributes { key := some ⟨2⟩ }, .note (.pitched .c 5 .quarter 1),
      .note (.pitched .f 4 .quarter 1), .backup 2,
      .note { Note.pitched .f 4 .half 2 with accidental := some .natural }] }]

theorem reads_crossVoices :
    Part.crossVoices.ReadsAs ⟨0, 2⟩ (.pitched .f 4 .quarter 1) 0 ∧
      (Machine.inferAlterations Part.crossVoices).outcome = some Part.crossVoices.inferAlterations ∧
      Part.crossVoices.inferAlterations.noteAt? ⟨0, 2⟩ = some (.pitched .f 4 .quarter 1) := by
  have note : Part.crossVoices.inferAlterations.noteAt? ⟨0, 2⟩ =
      some (.pitched .f 4 .quarter 1) := by decide +kernel
  have inferred : (Machine.inferAlterations Part.crossVoices).outcome =
      some Part.crossVoices.inferAlterations := Checked.outcome_of_fits (by decide +kernel)
  obtain ⟨alter, reads, -, found⟩ := (reads_of_untied (p := Part.crossVoices) (s := ⟨0, 2⟩)
    (n := .pitched .f 4 .quarter 1) rfl rfl (by
      rintro start ⟨place, tie, -⟩
      cases ((Part.tieAt_of_noteAt? rfl place .stop).mp tie).2)).1 _ inferred
  rw [note] at found
  cases found
  exact ⟨reads, inferred, note⟩

/-- Two notes at one place, the first with a sharp, that end when no time is held any more. -/
def Part.endlessNotes : Part where
  id := "P1"
  measures := [{ number := 1, elements :=
    [.note { Note.pitched .f 4 .whole (2 ^ 62) with accidental := some .sharp },
      .note (.pitched .f 4 .whole (2 ^ 62))] }]

/-- The page shows the sharp for the second of them, but the inference does not come to an end. -/
theorem endlessNotes_stop :
    Part.endlessNotes.ReadsAs ⟨0, 1⟩ (.pitched .f 4 .whole (2 ^ 62)) 1 ∧
      (Machine.inferAlterations Part.endlessNotes).outcome = none := by
  have hplace : (Note.pitched .f 4 .whole (2 ^ 62)).place? = some ⟨1, .f, 4⟩ := rfl
  exact ⟨(Part.readsAs_iff hplace).mpr (by decide +kernel), by decide +kernel⟩

end LinearScore
