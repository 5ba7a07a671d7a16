import LinearScore.Proofs.GroupedOnce
import LinearScore.Proofs.HeldDecoding
import LinearScore.Proofs.Passes

/-!
# Streams by the integers of the machine

A stream is decoded to the end if it is short enough for the dots of its notes, and if no beam takes
the last number.  The longest length that can be read takes 1024 quarters, so a measure of few
tokens stretches over few quarters, however its voices go back and forth.

## Main definitions

* `Note.Bounded`: a note with few dots and without a beam that takes the last number
* `Measure.Held`: a measure whose durations are fractions over one denominator, within a stretch
* `Moderate`: texts that are few enough for the dots of their notes

The main statements are `held_decodeMeasures` and `fits_decodeTexts`.
-/

namespace LinearScore

variable {dots : Nat}

/-! ## Chords -/

/-- A note with few dots and without a beam that takes the last number. -/
structure Note.Bounded (dots : Nat) (n : Note) : Prop where
  few : n.dots ≤ dots
  numbered : ∀ b ∈ n.beams, b.number < countLimit

instance (dots : Nat) (n : Note) : Decidable (n.Bounded dots) :=
  decidable_of_iff (n.dots ≤ dots ∧ ∀ b ∈ n.beams, b.number < countLimit)
    ⟨fun h => ⟨h.1, h.2⟩, fun h => ⟨h.few, h.numbered⟩⟩

/-- The beams of the first note of a chord are on one of its notes when it is in order. -/
theorem exists_beams_orderGroup (n : Note) (rest : List Element) :
    ∃ m : Note, .note m ∈ orderGroup (.note n :: rest) ∧ m.beams = n.beams := by
  unfold orderGroup
  split
  · exact ⟨n, List.mem_cons_self, rfl⟩
  · rename_i orders eq
    split
    · exact ⟨n, List.mem_cons_self, rfl⟩
    · split
      · rename_i none
        have length := congrArg List.length none
        rw [sortGroup, List.length_mergeSort] at length
        cases length
      · rename_i e sorted first
        have mem : e ∈ withoutHeadBeams (.note n :: rest) := by
          refine List.mem_mergeSort.mp (?_ : e ∈ sortGroup _)
          rw [first]
          exact List.mem_cons_self
        have pitched : e.Pitched := by
          obtain ⟨head, others⟩ := List.forall_mem_cons.mp (pitched_of_mapM eq)
          rcases List.mem_cons.mp mem with rfl | mem
          · exact unplaced_pitched.beams _ head
          · exact others e mem
        obtain ⟨m, rfl⟩ := pitched.exists_note
        exact ⟨_, List.mem_cons_self, rfl⟩

/-- A note that is not in the chord of another one opens a group. -/
theorem exists_chordGroup {es : List Element} {n : Note} (mem : .note n ∈ es)
    (first : n.chord = false) : ∃ rest, .note n :: rest ∈ chordGroups es := by
  have runs := runsOf_cutBefore (fun e => !e.inChord) es
  rw [← runs.flatten] at mem
  obtain ⟨group, hg, mem⟩ := List.mem_flatten.mp mem
  cases group with
  | nil => cases mem
  | cons e rest =>
    rcases List.mem_cons.mp mem with rfl | later
    · exact ⟨rest, hg⟩
    · have inside : (!n.chord) = false := runs.inside _ hg _ later
      rw [first] at inside
      cases inside

/-- What bounds the notes in normal form bounds those that they are made of. -/
theorem modest_of_bounded {es : List Element}
    (bounded : ∀ n, .note n ∈ orderChords (mergeSkips es) → n.Bounded dots) :
    ∀ n, .note n ∈ es → n.Modest dots := by
  intro n mem
  have merged : .note n ∈ mergeSkips es := by
    have note : n ∈ es.filterMap Element.note? := List.mem_filterMap.mpr ⟨_, mem, rfl⟩
    rw [← filterMap_note?_mergeSkips] at note
    obtain ⟨e, he, eq⟩ := List.mem_filterMap.mp note
    cases e <;> cases eq
    exact he
  constructor
  · have blind : ((orderChords (mergeSkips es)).filterMap fun e => e.note?.map Note.dots).Perm
        ((mergeSkips es).filterMap fun e => e.note?.map Note.dots) :=
      perm_orderChords (fun e _ => by cases e <;> rfl) (fun e => by cases e <;> rfl)
        (fun e => by cases e <;> rfl) _
    have seen := blind.mem_iff.mpr (List.mem_filterMap.mpr ⟨_, merged, rfl⟩)
    obtain ⟨e, he, eq⟩ := List.mem_filterMap.mp seen
    obtain ⟨m, note, same⟩ := Option.map_eq_some_iff.mp eq
    cases e <;> cases note
    rw [← same]
    exact (bounded m he).few
  · intro first b hb
    obtain ⟨rest, group⟩ := exists_chordGroup merged first
    obtain ⟨m, mem, beams⟩ := exists_beams_orderGroup n rest
    exact (bounded m (List.mem_flatMap.mpr ⟨_, group, mem⟩)).numbered b (beams ▸ hb)

/-! ## Measures -/

/-- The durations of a measure are fractions over one denominator, and all of them together are no
longer than a stretch. -/
structure Measure.Held (common : Nat) (longest : Rat) (m : Measure) : Prop where
  divides : ∀ q ∈ m.elements.filterMap Element.duration?, q.den ∣ common
  short : stretch m.elements ≤ longest

section Normal

variable {common : Nat}

theorem over_iff {es : List Element} :
    (∀ q ∈ es.filterMap Element.duration?, q.den ∣ common) ↔ ∀ e ∈ es, e.Over common := by
  simp only [List.mem_filterMap, Element.Over, Option.mem_def]
  exact ⟨fun h e he q hq => h q ⟨e, he, hq⟩, fun h q ⟨e, he, hq⟩ => h e he q hq⟩

/-- Backups and forwards that are joined keep the denominator and pass over no more. -/
theorem held_mergeSkips {es : List Element} (divides : ∀ e ∈ es, e.Over common) :
    (∀ e ∈ mergeSkips es, e.Over common) ∧ stretch (mergeSkips es) ≤ stretch es := by
  have join {e : Element} {es : List Element} (divides : ∀ e' ∈ e :: es, e'.Over common) :
      (∀ e' ∈ joinSkip e es, e'.Over common) ∧ stretch (joinSkip e es) ≤ stretch (e :: es) := by
    have sum {skip : Rat → Element} (duration : ∀ q, (skip q).duration? = some q) {p q : Rat}
        {rest : List Element} (divides : ∀ e' ∈ skip p :: skip q :: rest, e'.Over common) :
        (∀ e' ∈ skip (p + q) :: rest, e'.Over common) ∧
          stretch (skip (p + q) :: rest) ≤ stretch (skip p :: skip q :: rest) := by
      obtain ⟨first, second, rest⟩ := by simpa only [List.forall_mem_cons] using divides
      constructor
      · refine List.forall_mem_cons.mpr ⟨fun r hr => ?_, rest⟩
        rw [duration] at hr
        cases hr
        exact den_add_dvd (first p (duration p)) (second q (duration q))
      · rw [stretch_cons, stretch_cons, stretch_cons, duration, duration, duration, ← add_assoc]
        exact add_le_add_left (abs_add_le p q) _
    unfold joinSkip
    split
    · exact sum (fun _ => rfl) divides
    · exact sum (fun _ => rfl) divides
    · exact ⟨divides, le_rfl⟩
  induction es with
  | nil => exact ⟨List.forall_mem_nil _, le_rfl⟩
  | cons e es ih =>
    obtain ⟨here, later⟩ := List.forall_mem_cons.mp divides
    obtain ⟨divides, short⟩ := ih later
    obtain ⟨joined, less⟩ := join (List.forall_mem_cons.mpr ⟨here, divides⟩)
    refine ⟨joined, less.trans ?_⟩
    rw [stretch_cons, stretch_cons]
    exact add_le_add_right short _

/-- Chords in order have the same durations. -/
theorem perm_duration?_orderChords (es : List Element) :
    ((orderChords es).filterMap Element.duration?).Perm (es.filterMap Element.duration?) :=
  perm_orderChords (fun e _ => by cases e <;> rfl) (fun e => by cases e <;> rfl)
    (fun e => by cases e <;> rfl) es

/-- Elements in normal form pass over no more than those that they are made of. -/
theorem held_normal {es : List Element} (divides : ∀ e ∈ es, e.Over common) :
    (∀ q ∈ (orderChords (mergeSkips es)).filterMap Element.duration?, q.den ∣ common) ∧
      stretch (orderChords (mergeSkips es)) ≤ stretch es := by
  have same := perm_duration?_orderChords (mergeSkips es)
  obtain ⟨merged, short⟩ := held_mergeSkips divides
  refine ⟨fun q hq => over_iff.mpr merged q (same.mem_iff.mp hq), ?_⟩
  have sum : stretch (orderChords (mergeSkips es)) = stretch (mergeSkips es) :=
    (same.map abs).sum_eq
  rw [sum]
  exact short

end Normal

/-- There are no more items than tokens. -/
theorem Item.length_ofTokens_le (tokens : List Token) :
    (Item.ofTokens tokens).value.length ≤ tokens.length := by
  suffices all : ∀ current leading, (Item.ofTokensFrom current leading tokens).value.length ≤
      current.toList.length + tokens.length by
    simpa [Item.ofTokens] using all none []
  intro current leading
  induction tokens generalizing current leading with
  | nil => exact Nat.le_refl _
  | cons t tokens ih =>
    have behind := fun current leading => (ih current leading).trans (by simp :
      _ ≤ current.toList.length + (t :: tokens).length)
    unfold Item.ofTokensFrom
    split
    · exact behind _ _
    · split
      · exact behind _ _
      · exact behind _ _
    · rw [Reported.value_bind, Reported.value_pure, List.length_append, List.length_cons]
      have rest := ih (some ⟨t, leading, []⟩) []
      rw [Option.toList_some, List.length_singleton] at rest
      omega
    · exact behind _ _

/-- The stretch of a measure is held if its tokens are few enough for the dots of its notes. -/
theorem stretch_mul_lt {count : Nat} (short : count * 2 ^ dots ≤ 2 ^ 25)
    {longest : Rat} (le : longest ≤ count * 1024) :
    longest * commonLength dots < Machine.limit64 := by
  have product : count * 1024 * commonLength dots ≤ 2 ^ 25 * (2 ^ 18 * 720720) := by
    have regroup : count * 1024 * commonLength dots =
        count * 2 ^ dots * (2 ^ 18 * 720720) := by
      rw [commonLength, pow_add]
      ring
    rw [regroup]
    exact Nat.mul_le_mul_right _ short
  have scaled : longest * commonLength dots ≤ (count * 1024 * commonLength dots : Nat) := by
    push_cast
    exact mul_le_mul_of_nonneg_right le (Nat.cast_nonneg _)
  calc longest * (commonLength dots : Rat)
      ≤ (2 ^ 25 * (2 ^ 18 * 720720) : Nat) := scaled.trans (by exact_mod_cast product)
    _ < Machine.limit64 := by norm_num [Machine.limit64_eq]

/-- **A measure is decoded** if its tokens are few enough for the dots of its notes. -/
theorem held_decodeMeasure (few : dots ≤ 25) {tokens : List Token} (valid : AllValid tokens)
    (short : tokens.length * 2 ^ dots ≤ 2 ^ 25) {d : DecodingState} (h : d.Held dots) {number : Nat}
    (counted : number < Machine.limit32)
    (bounded : ∀ n ∈ (decodeMeasure d number tokens).value.1.notes, n.Bounded dots) :
    (decodeMeasure d number tokens).fits = true ∧
      (decodeMeasure d number tokens).value.1.Held (commonLength dots) (tokens.length * 1024) ∧
      (decodeMeasure d number tokens).value.2.Held dots := by
  obtain ⟨items, hi⟩ : ∃ items, items = (Item.ofTokens tokens).value := ⟨_, rfl⟩
  have notes : ∀ n, .note n ∈ (decodeItems { d with sticky := {} } none items).value.1 →
      n.Modest dots := by
    refine modest_of_bounded fun n mem => bounded n ?_
    rw [value_decodeMeasure, ← hi]
    exact List.mem_filterMap.mpr ⟨_, mem, rfl⟩
  obtain ⟨fits, brief, length, last⟩ :=
    held_decodeItems few (hi ▸ valid_ofTokens valid) h.fresh none notes
  have divides : ∀ e ∈ (decodeItems { d with sticky := {} } none items).value.1,
      e.Over (commonLength dots) := fun e he q hq => (brief e he q hq).divides
  have count : (decodeItems { d with sticky := {} } none items).value.1.length ≤ tokens.length := by
    have items := Item.length_ofTokens_le tokens
    rw [← hi] at items
    exact length.trans ((Nat.zero_add _).trans_le items)
  have stretched : stretch (decodeItems { d with sticky := {} } none items).value.1 ≤
      tokens.length * 1024 := by
    refine (stretch_le (by norm_num) fun e he q hq => (brief e he q hq).abs_le).trans ?_
    exact mul_le_mul_of_nonneg_right (by exact_mod_cast count) (by norm_num)
  have merged := Machine.fits_mergeSkips (Machine.heldDenominator_commonLength few) divides
    (stretch_mul_lt short stretched)
  obtain ⟨normal, less⟩ := held_normal divides
  refine ⟨?_, ?_, ?_⟩
  · have numbered : (Machine.integer Machine.limit32 number).fits = true := by
      rwa [Machine.fits_integer, Machine.holds_natCast_iff]
    simp only [decodeMeasure, Reported.fits_bind, Checked.fits_reported, numbered,
      (Item.records_ofTokens tokens).fits, ← hi, fits, merged, Reported.fits_pure, Bool.and_self]
  · rw [value_decodeMeasure, ← hi]
    exact ⟨normal, less.trans stretched⟩
  · rw [value_decodeMeasure, ← hi]
    exact last

/-- **The measures of a stream are decoded** if the tokens of each are few enough. -/
theorem held_decodeMeasures (few : dots ≤ 25) {count : Nat} (short : count * 2 ^ dots ≤ 2 ^ 25)
    {clusters : List (List Token)} (valid : ∀ cluster ∈ clusters, AllValid cluster)
    (length : ∀ cluster ∈ clusters, cluster.length ≤ count) {d : DecodingState} (h : d.Held dots)
    {number : Nat} (counted : number + clusters.length ≤ Machine.limit32)
    (bounded : ∀ m ∈ (decodeMeasures d number clusters).value, ∀ n ∈ m.notes, n.Bounded dots) :
    (decodeMeasures d number clusters).fits = true ∧
      ∀ m ∈ (decodeMeasures d number clusters).value,
        m.Held (commonLength dots) (count * 1024) := by
  induction clusters generalizing d number with
  | nil => exact ⟨rfl, List.forall_mem_nil _⟩
  | cons cluster clusters ih =>
    obtain ⟨validHere, validLater⟩ := List.forall_mem_cons.mp valid
    obtain ⟨here, later⟩ := List.forall_mem_cons.mp length
    obtain ⟨first, rest⟩ := List.forall_mem_cons.mp bounded
    rw [List.length_cons] at counted
    have this : number < Machine.limit32 := by omega
    have next : number + 1 + clusters.length ≤ Machine.limit32 := by omega
    obtain ⟨fits, held, state⟩ := held_decodeMeasure few validHere
      ((Nat.mul_le_mul_right _ here).trans short) h this first
    obtain ⟨others, measures⟩ := @ih validLater later _ state (number + 1) next rest
    rw [Nat.cast_succ] at others measures
    constructor
    · rw [decodeMeasures, Reported.fits_bind, Reported.fits_bind, fits, others]
      rfl
    · refine List.forall_mem_cons.mpr ⟨⟨held.divides, held.short.trans ?_⟩, measures⟩
      exact mul_le_mul_of_nonneg_right (by exact_mod_cast here) (by norm_num)

/-! ## The last steps -/

section LastSteps

variable {common : Nat} {longest : Rat}

/-- What is held of measures is held of others with the same durations. -/
theorem held_of_shown {ms ms' : List Measure}
    (same : ms'.map (Measure.shown fun e => e.duration?.toList) =
      ms.map (Measure.shown fun e => e.duration?.toList))
    (held : ∀ m ∈ ms, m.Held common longest) : ∀ m ∈ ms', m.Held common longest := by
  intro m hm
  obtain ⟨m', hm', eq⟩ := List.mem_map.mp (same ▸ List.mem_map_of_mem hm)
  rw [Measure.shown, Measure.shown, ← List.filterMap_eq_flatMap_toList,
    ← List.filterMap_eq_flatMap_toList] at eq
  obtain ⟨divides, short⟩ := held m' hm'
  rw [eq] at divides
  rw [stretch, eq] at short
  exact ⟨divides, short⟩

theorem steady_durations : Steady true fun e => e.duration?.toList where
  staves _ _ := rfl
  alter _ _ _ _ := rfl
  divisions h := Bool.noConfusion h
  durations h := Bool.noConfusion h
  empty h := Bool.noConfusion h

theorem held_declareStaves {p : Part} (held : ∀ m ∈ p.measures, m.Held common longest) :
    ∀ m ∈ p.declareStaves.measures, m.Held common longest :=
  held_of_shown (map_declareStaves steady_durations p) held

theorem held_inferAlterations {p : Part} (held : ∀ m ∈ p.measures, m.Held common longest) :
    ∀ m ∈ p.inferAlterations.measures, m.Held common longest :=
  held_of_shown (map_inferAlterations steady_durations.alter
    (fun m es => @Measure.shown_congr _ _ m { m with elements := es }) p) held

namespace Machine

variable {p : Part} (denominator : HeldDenominator common) (small : longest * common < limit64)
  (held : ∀ m ∈ p.measures, m.Held common longest)
include denominator small held

/-- The times of a part are held where its measures are. -/
theorem fits_inferAlterations_of_held : (inferAlterations p).fits = true := by
  refine fits_inferAlterations denominator (fun m hm => over_iff.mp (held m hm).divides) ?_
  intro m hm
  exact (mul_le_mul_of_nonneg_right (held m hm).short (Nat.cast_nonneg _)).trans_lt small

/-- The ticks of a part are held where its measures are. -/
theorem fits_toTicks_of_held : (toTicks p).fits = true := by
  cases divided : p.hasDivisions with
  | true => exact fits_toTicks_of_divided divided
  | false =>
    have each {q : Rat} (hq : q ∈ p.durations) : q.den ∣ common ∧ |q| ≤ longest := by
      obtain ⟨e, he, lasts⟩ := List.mem_filterMap.mp hq
      obtain ⟨m, hm, mem⟩ := List.mem_flatMap.mp he
      have short := abs_duration_le_stretch mem
      rw [lasts, Option.getD_some] at short
      exact ⟨(held m hm).divides q (List.mem_filterMap.mpr ⟨e, mem, lasts⟩),
        short.trans (held m hm).short⟩
    have divides : p.leastDivisions ∣ common :=
      foldl_lcm_dvd (one_dvd common) fun q hq => (each hq).1
    have least := denominator.of_dvd divides
    refine (fits_toTicks_iff divided).mpr ⟨least.small, fun q hq => ?_⟩
    -- ticks are whole, so they are held if they are no larger than the longest stretch
    have whole : HeldDenominator 1 := ⟨Nat.one_pos, by decide⟩
    have less : (p.leastDivisions : Rat) ≤ common := by
      exact_mod_cast Nat.le_of_dvd denominator.positive divides
    refine whole.holdsFraction (by rw [den_mul_leastDivisions hq]) ?_
    rw [Nat.cast_one, mul_one, abs_mul, Nat.abs_cast]
    exact (mul_le_mul (each hq).2 less (Nat.cast_nonneg _)
      ((abs_nonneg q).trans (each hq).2)).trans_lt small

end Machine

end LastSteps

theorem fits_ticksOf (p : Part) : (ticksOf p).fits = (Machine.toTicks p).fits := by
  rw [ticksOf, Reported.fits_bind, Checked.fits_reported]
  split
  · exact Bool.and_true _
  · exact Bool.and_true _

/-- In the last steps the times of a part are computed and then its ticks. -/
theorem Part.fits_finish (p : Part) :
    (p.finish false).fits = ((Machine.inferAlterations p.declareStaves).fits &&
      (Machine.toTicks p.declareStaves.inferAlterations).fits) := by
  rw [finish, Reported.fits_bind, Checked.fits_reported, Checked.value_reported,
    Machine.value_inferAlterations, if_neg Bool.false_ne_true, fits_ticksOf]

/-! ## Streams -/

/-- The dots and the beams of a note. -/
def Element.dotsAndBeams (e : Element) : List (Nat × List Beam) :=
  (e.note?.map fun n => (n.dots, n.beams)).toList

theorem steady_dotsAndBeams (quarters : Bool) : Steady quarters Element.dotsAndBeams where
  staves _ _ := rfl
  alter _ _ _ _ := rfl
  divisions _ _ _ := rfl
  durations _ _ e := by cases e <;> rfl
  empty _ := rfl

/-- Whether notes are bounded only depends on their dots and their beams. -/
theorem bounded_of_shown {ms ms' : List Measure}
    (same : ms'.map (Measure.shown Element.dotsAndBeams) =
      ms.map (Measure.shown Element.dotsAndBeams))
    (bounded : ∀ m ∈ ms, ∀ n ∈ m.notes, n.Bounded dots) :
    ∀ m ∈ ms', ∀ n ∈ m.notes, n.Bounded dots := by
  have shown (m : Measure) : m.shown Element.dotsAndBeams =
      m.notes.map fun n => (n.dots, n.beams) := by
    rw [Measure.notes, List.map_filterMap, List.filterMap_eq_flatMap_toList]
    rfl
  intro m hm n hn
  obtain ⟨m', hm', eq⟩ := List.mem_map.mp (same ▸ List.mem_map_of_mem hm)
  rw [shown, shown] at eq
  obtain ⟨n', hn', same⟩ := List.mem_map.mp (eq ▸ List.mem_map_of_mem hn)
  obtain ⟨sameDots, sameBeams⟩ := Prod.mk.inj same
  obtain ⟨few, numbered⟩ := bounded m' hm' n' hn'
  exact ⟨sameDots ▸ few, sameBeams ▸ numbered⟩

/-- A measure has no more tokens than the stream. -/
theorem length_le_of_mem_measureClusters {tokens cluster : List Token}
    (mem : cluster ∈ (measureClusters tokens).value) : cluster.length ≤ tokens.length := by
  rw [Item.measureClusters_eq] at mem
  have within : cluster.length ≤ (clustersOf tokens).flatten.length :=
    (List.sublist_flatten_of_mem mem).length_le
  have pieces := congrArg List.length (Item.front_append_clusters tokens)
  rw [List.length_append] at pieces
  have filtered := List.length_filter_le (·.terminal ≠ .measure) tokens
  omega

section Tokens

variable {quarters : Bool} {tokens : List Token} (valid : AllValid tokens) (few : dots ≤ 25)
  (short : tokens.length * 2 ^ dots ≤ 2 ^ 25)
  (bounded : ∀ m ∈ (decodeTokens quarters tokens).value.measures, ∀ n ∈ m.notes, n.Bounded dots)
include valid few short bounded

/-- The measures of a stream are arrived at, and they are held. -/
theorem held_measures :
    (decodeMeasures {} 1 (measureClusters tokens).value).fits = true ∧
      ∀ m ∈ (decodeMeasures {} 1 (measureClusters tokens).value).value,
        m.Held (commonLength dots) (tokens.length * 1024) := by
  have shown := shown_decodeTokens (steady_dotsAndBeams quarters) tokens
  have most : tokens.length ≤ 2 ^ 25 :=
    (Nat.le_mul_of_pos_right _ (Nat.two_pow_pos dots)).trans short
  have clusters : (measureClusters tokens).value.length ≤ tokens.length := by
    rw [length_measureClusters]
    exact List.countP_le_length
  have counted : 1 + (measureClusters tokens).value.length ≤ Machine.limit32 := by
    rw [Machine.limit32]
    omega
  exact held_decodeMeasures few short (valid_measureClusters valid)
    (fun cluster mem => length_le_of_mem_measureClusters mem) DecodingState.held_start counted
    (bounded_of_shown shown.symm bounded)

/-- **A stream of tokens is decoded** if it is short enough for the dots of its notes. -/
theorem fits_decodeTokens : (decodeTokens quarters tokens).fits = true := by
  obtain ⟨fits, held⟩ := held_measures valid few short bounded
  have denominator := Machine.heldDenominator_commonLength few
  have small := stretch_mul_lt short (le_refl _)
  have declared := held_declareStaves (p := ⟨"P1", "", _⟩) held
  have inferred := held_inferAlterations declared
  have times := Machine.fits_inferAlterations_of_held denominator small declared
  have ticks := Machine.fits_toTicks_of_held denominator small inferred
  rw [decodeTokens_eq, Reported.fits_bind, (records_measureClusters tokens).fits,
    Reported.fits_bind, fits, Bool.true_and, Bool.true_and]
  cases quarters with
  | true =>
    rw [Part.finish, Reported.fits_bind, Checked.fits_reported, times]
    rfl
  | false => rw [Part.fits_finish, times, ticks, Bool.and_self]

end Tokens

/-! ## Texts -/

/-- Texts that are few enough for the dots of the notes that are read of them.  The more texts
there are, the fewer dots a note may have. -/
structure Moderate (limit dots : Nat) (ts : List String) : Prop where
  few : dots ≤ limit
  short : ts.length * 2 ^ dots ≤ 2 ^ limit
  bounded : ∀ m ∈ (decodeTexts true ts).value.measures, ∀ n ∈ m.notes, n.Bounded dots

instance (limit dots : Nat) (ts : List String) : Decidable (Moderate limit dots ts) :=
  decidable_of_iff
    (dots ≤ limit ∧ ts.length * 2 ^ dots ≤ 2 ^ limit ∧
      ∀ m ∈ (decodeTexts true ts).value.measures, ∀ n ∈ m.notes, n.Bounded dots)
    ⟨fun h => ⟨h.1, h.2.1, h.2.2⟩, fun h => ⟨h.few, h.short, h.bounded⟩⟩

theorem Moderate.mono {limit limit' : Nat} {ts : List String} (h : Moderate limit dots ts)
    (le : limit ≤ limit') : Moderate limit' dots ts :=
  ⟨h.few.trans le, h.short.trans (Nat.pow_le_pow_right (by decide) le), h.bounded⟩

/-- The dots and the beams do not depend on the form of the durations. -/
theorem bounded_decodeTexts {ts : List String} (quarters : Bool)
    (bounded : ∀ m ∈ (decodeTexts true ts).value.measures, ∀ n ∈ m.notes, n.Bounded dots) :
    ∀ m ∈ (decodeTexts quarters ts).value.measures, ∀ n ∈ m.notes, n.Bounded dots :=
  bounded_of_shown ((shown_decodeTokens (steady_dotsAndBeams quarters) _).trans
    (shown_decodeTokens (steady_dotsAndBeams true) _).symm) bounded

/-- There are no more tokens than texts. -/
theorem length_ofTexts_le (ts : List String) : (Token.ofTexts ts).value.length ≤ ts.length :=
  (List.length_filterMap_le _ _).trans_eq List.length_zipIdx

/-- **Moderate texts are decoded**, in quarters and in ticks. -/
theorem Moderate.fits_decodeTexts {ts : List String} (h : Moderate 25 dots ts) (quarters : Bool) :
    (decodeTexts quarters ts).fits = true := by
  have tokens := fits_decodeTokens (fun t ht => Token.valid_ofTexts ht) h.few
    ((Nat.mul_le_mul_right _ (length_ofTexts_le ts)).trans h.short)
    (bounded_decodeTexts quarters h.bounded)
  rw [decodeTexts, Reported.fits_bind, tokens]
  rfl

end LinearScore
