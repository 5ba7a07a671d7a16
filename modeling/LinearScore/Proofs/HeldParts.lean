import LinearScore.Proofs.HeldEncoding
import LinearScore.Proofs.HeldStreams
import LinearScore.Proofs.WellFormed

/-!
# Decoded parts by the integers of the machine

A note that is read lasts as long as its type, its dots and its ratio say, so in ticks it lasts what
the encoder expects.  The part that moderate texts denote is therefore written again to the end.

## Main definitions

* `Note.Typed`: a note that lasts as long as its type says
* `Element.Plain`: an element with small payloads

The main statements are `held_decodeTexts` and `wellFormed_decodeTexts`.
-/

namespace LinearScore

variable {dots : Nat}

/-! ## Notes that last as long as their types say -/

/-- A note that has a type and a duration lasts as long as its type, its dots and its ratio say. -/
def Note.Typed (n : Note) : Prop :=
  ∀ t ∈ n.noteType, ∀ q ∈ n.duration, q = noteLength t n.dots n.ratio

/-- The element is no note, or one that lasts as long as its type says. -/
def Element.Typed (e : Element) : Prop := ∀ n ∈ e.note?, n.Typed

theorem unplaced_typed : Unplaced Element.Typed where
  head e beams h := by
    cases e with
    | note n => exact fun m hm => by cases hm; exact h n rfl
    | _ => exact h
  member e h := by
    cases e with
    | note n => exact fun m hm => by cases hm; exact h n rfl
    | _ => exact h
  beams e h := by
    cases e with
    | note n => exact fun m hm => by cases hm; exact h n rfl
    | _ => exact h

/-- The note of an item lasts as long as its type says. -/
theorem typed_note (d : DecodingState) (item : Item) : (d.note item).value.1.Typed := by
  rw [DecodingState.value_note]
  intro t ht q hq
  have type : DecodingState.rootType? item.root.terminal = some t := ht
  have lasts : (d.noteDuration item.root (DecodingState.rootType? item.root.terminal)
      item.noteFields.value).value = some q := hq
  rw [DecodingState.value_noteDuration, type] at lasts
  split at lasts
  · cases lasts
  · cases lasts
    rfl

/-- All elements of a measure are such. -/
theorem typed_decodeItems (items : List Item) (d : DecodingState) (run : Option Attributes) :
    ∀ e ∈ (decodeItems d run items).value.1, e.Typed := by
  refine forall_mem_decodeItems (fun a => forall_mem_none) (fun item _ d e he => ?_) d run
  rcases d.eq_of_mem_element item e he with ⟨l, rfl | rfl⟩ | rfl
  · exact forall_mem_none
  · exact forall_mem_none
  · intro n hn
    cases hn
    exact typed_note d item

theorem typed_decodeMeasures (clusters : List (List Token)) (d : DecodingState) (number : Int) :
    ∀ m ∈ (decodeMeasures d number clusters).value, ∀ e ∈ m.elements, e.Typed := by
  induction clusters generalizing d number with
  | nil => exact List.forall_mem_nil _
  | cons cluster clusters ih =>
    rw [value_decodeMeasures_cons]
    refine List.forall_mem_cons.mpr ⟨fun e he => ?_, ih _ _⟩
    obtain ⟨es, hes⟩ : ∃ es, es = (decodeItems { d with sticky := {} } none
      (Item.ofTokens cluster).value).value.1 := ⟨_, rfl⟩
    have typed : ∀ e ∈ es, e.Typed := hes ▸ typed_decodeItems _ _ _
    rw [← hes] at he
    have merged : ∀ e ∈ mergeSkips es, e.Typed := by
      intro e he n hn
      have note : n ∈ (mergeSkips es).filterMap Element.note? := List.mem_filterMap.mpr ⟨e, he, hn⟩
      rw [filterMap_note?_mergeSkips] at note
      obtain ⟨e', he', eq⟩ := List.mem_filterMap.mp note
      exact typed e' he' n eq
    obtain ⟨group, hg, mem⟩ := List.mem_flatMap.mp he
    refine unplaced_typed.orderGroup (fun e he => merged e ?_) e mem
    have flat : (chordGroups (mergeSkips es)).flatten = mergeSkips es := flatten_cutBefore _ _
    rw [← flat]
    exact List.mem_flatten.mpr ⟨group, hg, he⟩

/-! ## Elements with small payloads -/

/-- A note with small payloads that lasts as long as its type says. -/
structure Note.Plain (dots : Nat) (n : Note) : Prop where
  few : n.dots ≤ dots
  typed : n.Typed
  ratio : ∀ r ∈ n.ratio, (Terminal.ratio r).valid = true
  pitch : ∀ p ∈ n.pitch?, 0 ≤ p.octave ∧ p.octave ≤ 9

/-- An element with small payloads and without divisions. -/
def Element.Plain (dots : Nat) : Element → Prop
  | .attributes a => a.divisions = none ∧ ∀ time ∈ a.time,
      (Terminal.beats time.beats).valid = true ∧ (Terminal.beatType time.beatType).valid = true
  | .note n => n.Plain dots
  | .backup _ | .forward _ => True

/-- The element without its number of staves and without an alteration. -/
def Element.settled : Element → Element
  | .attributes a => .attributes { a with staves := none }
  | e => e.flat

theorem steady_settled : Steady true fun e => [e.settled] where
  staves _ _ := rfl
  alter n p alter content := by
    simp [Element.settled, Element.flat, Note.flat, NoteContent.flat, content]
  divisions h := Bool.noConfusion h
  durations h := Bool.noConfusion h
  empty h := Bool.noConfusion h

/-- Staves and alterations have no part in it. -/
theorem plain_settled (e : Element) : e.settled.Plain dots ↔ e.Plain dots := by
  cases e with
  | attributes a => exact Iff.rfl
  | note n =>
    have octaves : (∀ p ∈ n.flat.pitch?, 0 ≤ p.octave ∧ p.octave ≤ 9) ↔
        ∀ p ∈ n.pitch?, 0 ≤ p.octave ∧ p.octave ≤ 9 := by
      rw [pitch?_flat]
      cases n.pitch? <;> simp
    constructor
    · rintro ⟨few, typed, ratio, pitch⟩
      exact ⟨few, typed, ratio, octaves.mp pitch⟩
    · rintro ⟨few, typed, ratio, pitch⟩
      exact ⟨few, typed, ratio, octaves.mpr pitch⟩
  | backup t => exact Iff.rfl
  | forward t => exact Iff.rfl

/-- What is read of valid tokens is plain if its notes are bounded. -/
theorem plain_of_sound {timed : Bool} {e : Element} (sound : e.Sound timed) (typed : e.Typed)
    (bounded : ∀ n ∈ e.note?, n.Bounded dots) : e.Plain dots := by
  cases e with
  | attributes a => exact ⟨sound.divisions, sound.time⟩
  | note n =>
    refine ⟨(bounded n rfl).few, typed n rfl, sound.legible.ratio, fun p hp => ?_⟩
    obtain ⟨nonneg, valid⟩ := sound.legible.pitch p hp
    have most : p.octave.toNat ≤ 9 := of_decide_eq_true valid
    omega
  | backup t => exact trivial
  | forward t => exact trivial

/-! ## Ticks -/

section Ticks

variable {count divisions : Nat} (few : dots ≤ 17) (short : count * 2 ^ dots ≤ 2 ^ 17)
  (divides : divisions ∣ commonLength dots)
include few short divides

/-- The divisions, and the longest stretch in units of the shortest note type, leave room. -/
theorem bounds_of_dvd :
    divisions ≤ 2 ^ 25 * 720720 ∧ 256 * (count * 1024 * divisions) ≤ 2 ^ 43 * 720720 := by
  have most : divisions ≤ 2 ^ (8 + dots) * 720720 :=
    Nat.le_of_dvd (commonLength_pos dots) divides
  have power : 2 ^ (8 + dots) ≤ 2 ^ 25 := Nat.pow_le_pow_right (by decide) (by omega)
  constructor
  · exact most.trans (Nat.mul_le_mul_right _ power)
  · calc 256 * (count * 1024 * divisions)
        ≤ 256 * (count * 1024 * (2 ^ (8 + dots) * 720720)) := by gcongr
      _ = count * 2 ^ dots * (2 ^ 26 * 720720) := by
          rw [pow_add]
          ring
      _ ≤ 2 ^ 17 * (2 ^ 26 * 720720) := Nat.mul_le_mul_right _ short
      _ = 2 ^ 43 * 720720 := by norm_num

/-- Whole ticks are held if they are short. -/
theorem holds_ticks {q : Rat} (whole : (q * (divisions : Rat)).den = 1) (le : |q| ≤ 1024) :
    Machine.holdsFraction (q * (divisions : Rat)) = true := by
  obtain ⟨most, -⟩ := bounds_of_dvd few short divides
  have most : (divisions : Rat) ≤ (2 ^ 25 * 720720 : Nat) := by exact_mod_cast most
  have one : Machine.HeldDenominator 1 := ⟨Nat.one_pos, by decide⟩
  refine one.holdsFraction (by rw [whole]) ?_
  rw [Nat.cast_one, mul_one, abs_mul, Nat.abs_cast]
  calc |q| * (divisions : Rat)
      ≤ 1024 * (2 ^ 25 * 720720 : Nat) := mul_le_mul le most (Nat.cast_nonneg _) (by norm_num)
    _ < Machine.limit64 := by norm_num [Machine.limit64_eq]

/-- The ticks of a measure are held, whether they are whole or not. -/
theorem holds_measureTicks {time : TimeSignature}
    (beats : (Terminal.beats time.beats).valid = true)
    (beatType : (Terminal.beatType time.beatType).valid = true) :
    Machine.holdsFraction (measureLength time * (divisions : Rat)) = true := by
  obtain ⟨most, -⟩ := bounds_of_dvd few short divides
  have most : (divisions : Rat) ≤ (2 ^ 25 * 720720 : Nat) := by exact_mod_cast most
  obtain ⟨measured, nonneg, le⟩ := den_measureLength beats beatType
  have scaled : (measureLength time * (divisions : Rat)).den ∣ 2 ^ 6 := by
    have product := Rat.mul_den_dvd (measureLength time) divisions
    rw [Rat.den_natCast, mul_one] at product
    exact product.trans measured
  refine Machine.HeldDenominator.holdsFraction ⟨by decide, by decide⟩ scaled ?_
  rw [abs_of_nonneg (mul_nonneg nonneg (Nat.cast_nonneg _))]
  calc measureLength time * (divisions : Rat) * (2 ^ 6 : Nat)
      ≤ 1024 * (2 ^ 25 * 720720 : Nat) * (2 ^ 6 : Nat) := by gcongr
    _ < Machine.limit64 := by norm_num [Machine.limit64_eq]

/-- The ladder of a backup or forward is computed: its longest step and its units are held. -/
theorem lt_of_skip {q : Rat} (le : |q| ≤ count * 1024) :
    32 * (divisions : Int) < Machine.limit64 ∧
      256 * (q * (divisions : Rat)) < Machine.limit64 := by
  obtain ⟨most, longest⟩ := bounds_of_dvd few short divides
  constructor
  · rw [Machine.limit64]
    omega
  · calc 256 * (q * (divisions : Rat))
        ≤ 256 * (count * 1024 * divisions : Nat) := by
          push_cast
          gcongr
          exact (le_abs_self q).trans le
      _ ≤ (2 ^ 43 * 720720 : Nat) := by exact_mod_cast longest
      _ < Machine.limit64 := by norm_num [Machine.limit64_eq]

/-- **What is computed at a plain element in ticks is held.** -/
theorem heldUnder_mapDuration {e : Element} (plain : e.Plain dots)
    (whole : ∀ q ∈ e.duration?, (q * (divisions : Rat)).den = 1)
    (stretched : ∀ q ∈ e.duration?, |q| ≤ count * 1024) :
    (e.mapDuration (· * (divisions : Rat))).HeldUnder divisions := by
  cases e with
  | attributes a =>
    intro time ht
    obtain ⟨beats, beatType⟩ := plain.2 time ht
    exact ⟨Machine.fits_measureLength_of_valid beats beatType,
      holds_measureTicks few short divides beats beatType⟩
  | note n =>
    intro timed _ t ht
    obtain ⟨q, hq⟩ : ∃ q, n.duration = some q := by
      rw [← Option.isSome_iff_exists]
      exact Option.isSome_map.symm.trans timed
    obtain rfl := plain.typed t ht q hq
    have brief := brief_noteLength plain.ratio t plain.few
    show (Machine.expectedTicks t n.dots n.ratio divisions).fits = true
    rw [Machine.expectedTicks, Checked.fits_bind, Checked.fits_bind, Machine.value_noteLength,
      Machine.fits_fraction, Machine.fits_noteLength_of_few plain.ratio t plain.few (by omega),
      Int.cast_natCast, holds_ticks few short divides (whole _ hq) brief.abs_le]
    rfl
  | backup q => exact lt_of_skip few short divides (stretched q rfl)
  | forward q => exact lt_of_skip few short divides (stretched q rfl)

end Ticks

/-! ## Parts -/

theorem duration?_mapDuration (f : Rat → Rat) (e : Element) :
    (e.mapDuration f).duration? = e.duration?.map f := by
  cases e <;> rfl

/-- The stretch of elements in ticks. -/
theorem stretch_map_mapDuration (d : Nat) (es : List Element) :
    stretch (es.map (Element.mapDuration (· * (d : Rat)))) = stretch es * d := by
  induction es with
  | nil => exact (zero_mul _).symm
  | cons e es ih =>
    rw [List.map_cons, stretch_cons, stretch_cons, ih, add_mul, duration?_mapDuration]
    cases e.duration? with
    | none => simp
    | some q =>
      rw [Option.map_some, Option.getD_some, Option.getD_some, abs_mul, Nat.abs_cast]

theorem stretch_attributes (a : Attributes) (es : List Element) :
    stretch (.attributes a :: es) = stretch es := by
  rw [stretch_cons]
  exact zero_add _

/-- An element of a part in ticks opens it, or is one of the part in quarters. -/
theorem elements_inTicks {p : Part} (plain : ∀ e ∈ p.elements, e.Plain dots) (d : Nat) :
    ∀ e ∈ ((p.mapDurations (· * (d : Rat))).declareDivisions d).elements,
      (∃ a : Attributes, e = .attributes { a with divisions := some (d : Int) } ∧
        (Element.attributes { a with divisions := none }).Plain dots) ∨
      ∃ e' ∈ p.elements, e = e'.mapDuration (· * (d : Rat)) := by
  intro e he
  have rest {e : Element} (he : e ∈ (p.mapDurations (· * (d : Rat))).elements) :
      ∃ e' ∈ p.elements, e = e'.mapDuration (· * (d : Rat)) := by
    rw [elements_mapDurations] at he
    obtain ⟨e', mem, eq⟩ := List.mem_map.mp he
    exact ⟨e', mem, eq.symm⟩
  by_cases none : (p.mapDurations (· * (d : Rat))).measures = []
  · rw [Part.declareDivisions, none] at he
    exact .inr (rest he)
  · obtain ⟨a, others, declared, eq⟩ := elements_declareDivisions d none
    rw [declared] at he
    rcases List.mem_cons.mp he with rfl | he
    · refine .inl ⟨a, rfl, rfl, ?_⟩
      rcases eq with eq | ⟨-, rfl⟩
      · obtain ⟨e', mem, head⟩ := rest (eq ▸ List.mem_cons_self)
        cases e' <;> cases head
        exact (plain _ mem).2
      · exact forall_mem_none
    · rcases eq with eq | ⟨eq, -⟩
      · exact .inr (rest (eq ▸ List.mem_cons_of_mem _ he))
      · exact .inr (rest (eq ▸ he))

/-- A pitch of the vocabulary has an order that is held. -/
theorem fits_order_of_octave {p : Pitch} (h : 0 ≤ p.octave ∧ p.octave ≤ 9) :
    (Machine.order p).fits = true := by
  have step : p.step.index ≤ 6 := by cases p.step <;> decide
  simp only [Machine.order, Checked.fits_bind, Machine.fits_integer, Machine.value_integer,
    Machine.holds, Machine.limit32, Bool.and_eq_true, decide_eq_true_eq]
  omega

section Parts

variable {count : Nat} (few : dots ≤ 17) (short : count * 2 ^ dots ≤ 2 ^ 17) {p : Part}
  (plain : ∀ e ∈ p.elements, e.Plain dots)
  (held : ∀ m ∈ p.measures, m.Held (commonLength dots) (count * 1024))
include held

/-- A duration of a part is one of a measure that is held. -/
theorem duration_of_held {q : Rat} (hq : q ∈ p.durations) :
    q.den ∣ commonLength dots ∧ |q| ≤ count * 1024 := by
  obtain ⟨e, he, lasts⟩ := List.mem_filterMap.mp hq
  obtain ⟨m, hm, mem⟩ := List.mem_flatMap.mp he
  have within := abs_duration_le_stretch mem
  rw [lasts, Option.getD_some] at within
  exact ⟨(held m hm).divides q (List.mem_filterMap.mpr ⟨e, mem, lasts⟩),
    within.trans (held m hm).short⟩

theorem leastDivisions_dvd : p.leastDivisions ∣ commonLength dots :=
  foldl_lcm_dvd (one_dvd _) fun _ hq => (duration_of_held held hq).1

include few short

/-- The measures of a part in ticks have whole durations, and their stretches are held. -/
theorem held_measuresInTicks :
    ∀ m ∈ (p.mapDurations (· * (p.leastDivisions : Rat))).measures,
      (∀ e ∈ m.elements, e.Over 1) ∧ stretch m.elements * (1 : Nat) < Machine.limit64 := by
  obtain ⟨-, longest⟩ := bounds_of_dvd few short (leastDivisions_dvd held)
  refine List.forall_mem_map.mpr fun m hm => ⟨List.forall_mem_map.mpr fun e he q hq => ?_, ?_⟩
  · rw [duration?_mapDuration] at hq
    obtain ⟨q, lasts, rfl⟩ := Option.map_eq_some_iff.mp hq
    rw [den_mul_leastDivisions
      (List.mem_filterMap.mpr ⟨e, List.mem_flatMap.mpr ⟨m, hm, he⟩, lasts⟩)]
  · show stretch (m.elements.map _) * (1 : Nat) < _
    rw [stretch_map_mapDuration, Nat.cast_one, mul_one]
    calc stretch m.elements * (p.leastDivisions : Rat)
        ≤ (count * 1024 * p.leastDivisions : Nat) := by
          push_cast
          exact mul_le_mul_of_nonneg_right (held m hm).short (Nat.cast_nonneg _)
      _ ≤ (2 ^ 43 * 720720 : Nat) := by
          exact_mod_cast (Nat.le_mul_of_pos_left _ (by norm_num)).trans longest
      _ < Machine.limit64 := by norm_num [Machine.limit64_eq]

omit few short held
include plain

/-- A plain part in ticks declares no divisions but those that are put in front of it. -/
theorem eq_leastDivisions_of_declared {d : Int}
    (hd : d ∈ ((p.mapDurations (· * (p.leastDivisions : Rat))).declareDivisions
      p.leastDivisions).declaredDivisions) : d = p.leastDivisions := by
  obtain ⟨e', he', declares⟩ := List.mem_filterMap.mp hd
  rcases elements_inTicks plain p.leastDivisions e' he' with ⟨a, rfl, -⟩ | ⟨e'', mem, rfl⟩
  · exact (Option.some.inj declares).symm
  · have none := plain e'' mem
    cases e'' with
    | attributes a => exact nomatch none.1.symm.trans declares
    | note n => cases declares
    | backup q => cases declares
    | forward q => cases declares

include few short held

/-- **A plain part is held in ticks.** -/
theorem held_inTicks :
    ((p.mapDurations (· * (p.leastDivisions : Rat))).declareDivisions p.leastDivisions).Held 1 := by
  have scaled := held_measuresInTicks few short held
  have elements := elements_inTicks plain p.leastDivisions
  refine ⟨⟨Nat.one_pos, by decide⟩, ?_, ?_, ?_, ?_⟩
  · refine forall_elements_declareDivisions (P := fun es => ∀ e ∈ es, e.Over 1) ?_ ?_ _
      fun m hm => (scaled m hm).1
    · exact fun a es h => List.forall_mem_cons.mpr ⟨forall_mem_none, h⟩
    · exact fun a b es h => List.forall_mem_cons.mpr
        ⟨forall_mem_none, (List.forall_mem_cons.mp h).2⟩
  · refine forall_elements_declareDivisions
      (P := fun es => stretch es * (1 : Nat) < Machine.limit64) ?_ ?_ _ fun m hm => (scaled m hm).2
    · intro a es h
      rwa [stretch_attributes]
    · intro a b es h
      rwa [stretch_attributes] at h ⊢
  · intro d hd _ e he
    rw [eq_leastDivisions_of_declared plain hd]
    have divides := leastDivisions_dvd held
    rcases elements e he with ⟨a, rfl, opens⟩ | ⟨e', mem, rfl⟩
    · exact heldUnder_mapDuration few short divides opens forall_mem_none forall_mem_none
    · have duration {q : Rat} (hq : q ∈ e'.duration?) : q ∈ p.durations :=
        List.mem_filterMap.mpr ⟨e', mem, hq⟩
      exact heldUnder_mapDuration few short divides (plain e' mem)
        (fun q hq => den_mul_leastDivisions (duration hq))
        fun q hq => (duration_of_held held (duration hq)).2
  · intro e he q hq
    rcases elements e he with ⟨a, rfl, -⟩ | ⟨e', mem, rfl⟩
    · cases hq
    · have small := plain e' mem
      cases e' with
      | note n => exact fits_order_of_octave (small.pitch q hq)
      | attributes a => cases hq
      | backup t => cases hq
      | forward t => cases hq

end Parts

/-! ## Texts -/

/-- A part in quarters keeps its elements in the last steps, but for staves and alterations. -/
theorem plain_quarters {p : Part} (plain : ∀ e ∈ p.elements, e.Plain dots) :
    ∀ e ∈ p.declareStaves.inferAlterations.elements, e.Plain dots := by
  have same : p.declareStaves.inferAlterations.measures.map (Measure.shown fun e => [e.settled]) =
      p.measures.map (Measure.shown fun e => [e.settled]) :=
    (map_inferAlterations steady_settled.alter
      (fun m es => @Measure.shown_congr _ _ m { m with elements := es }) _).trans
        (map_declareStaves steady_settled p)
  intro e he
  obtain ⟨m, hm, mem⟩ := List.mem_flatMap.mp he
  obtain ⟨m', hm', eq⟩ := List.mem_map.mp (same ▸ List.mem_map_of_mem hm)
  have seen : e.settled ∈ m.shown fun e => [e.settled] :=
    List.mem_flatMap.mpr ⟨e, mem, List.mem_singleton.mpr rfl⟩
  rw [← eq] at seen
  obtain ⟨e', mem', settled⟩ := List.mem_flatMap.mp seen
  rw [← plain_settled, List.mem_singleton.mp settled, plain_settled]
  exact plain e' (List.mem_flatMap.mpr ⟨m', hm', mem'⟩)

/-- A part without divisions in ticks. -/
theorem value_finish_of_plain {p : Part}
    (plain : ∀ e ∈ p.declareStaves.inferAlterations.elements, e.Plain dots) :
    (p.finish false).value =
      (p.declareStaves.inferAlterations.mapDurations
        (· * (p.declareStaves.inferAlterations.leastDivisions : Rat))).declareDivisions
          p.declareStaves.inferAlterations.leastDivisions := by
  have undivided : p.declareStaves.inferAlterations.hasDivisions = false := by
    refine List.any_eq_false.mpr fun e he => ?_
    have none := plain e he
    cases e with
    | attributes a => simp [Element.attributes?, none.1]
    | note n => exact Bool.false_ne_true
    | backup t => exact Bool.false_ne_true
    | forward t => exact Bool.false_ne_true
  rw [Part.value_finish, if_neg Bool.false_ne_true, value_ticksOf, toTicks_of_undivided undivided]

/-- **The part that moderate texts denote is held**, so it is written again to the end. -/
theorem held_decodeTexts {ts : List String} (h : Moderate 17 dots ts) :
    (decodeTexts false ts).value.Held 1 := by
  obtain ⟨tokens, ht⟩ : ∃ tokens, tokens = (Token.ofTexts ts).value := ⟨_, rfl⟩
  obtain ⟨p, hp⟩ : ∃ p,
      p = Part.mk "P1" "" (decodeMeasures {} 1 (measureClusters tokens).value).value := ⟨_, rfl⟩
  have valid : AllValid tokens := fun t mem => Token.valid_ofTexts (ht ▸ mem)
  have short : tokens.length * 2 ^ dots ≤ 2 ^ 17 := by
    rw [ht]
    exact (Nat.mul_le_mul_right _ (length_ofTexts_le ts)).trans h.short
  have bounded : ∀ m ∈ (decodeTokens true tokens).value.measures, ∀ n ∈ m.notes, n.Bounded dots :=
    ht ▸ h.bounded
  have few : dots ≤ 25 := h.few.trans (by decide)
  obtain ⟨-, held⟩ := held_measures valid few (short.trans (by decide)) bounded
  have raw := bounded_of_shown (shown_decodeTokens (steady_dotsAndBeams true) tokens).symm bounded
  have plain : ∀ e ∈ p.elements, e.Plain dots := by
    intro e he
    have start : ({} : DecodingState).Sound false :=
      ⟨⟨forall_mem_none, forall_mem_none⟩, forall_mem_none, rfl⟩
    have sound : AllSound false p.elements := by
      rw [hp]
      exact allSound_decodeMeasures (valid_measureClusters valid) start 1
    obtain ⟨timed, sound⟩ := sound.exists e he
    obtain ⟨m, hm, mem⟩ := List.mem_flatMap.mp he
    rw [hp] at hm
    exact plain_of_sound sound (typed_decodeMeasures _ _ _ m hm e mem) fun n hn =>
      raw m hm n (List.mem_filterMap.mpr ⟨e, mem, hn⟩)
  have quarters := plain_quarters plain
  have value : (decodeTexts false ts).value = (p.finish false).value := by
    rw [decodeTexts, Reported.value_bind, ← ht, decodeTokens_eq, Reported.value_bind,
      Reported.value_bind, ← hp]
  rw [value, value_finish_of_plain quarters]
  exact held_inTicks h.few short quarters
    (held_inferAlterations (held_declareStaves (by rw [hp]; exact held)))

/-- **Whatever is decoded is well-formed**, with one measure for each text `measure`.  Its durations
are never reported as not to be converted, and if it is written to the end, no token lies outside
the vocabulary and no note lacks a type.  Moderate texts are decoded, and somewhat fewer of them are
written again to the end. -/
theorem wellFormed_decodeTexts (ts : List String) :
    (∀ p reports, (decodeTexts false ts).outcome = some (p, reports) →
      p.measures.length = ts.count "measure" ∧ p.WellFormed ∧
      (∀ x ∈ reports, ∀ fault, x.defect ≠ .token (.conversion fault)) ∧
      ∀ tokens found, p.encode.outcome = some (tokens, found) →
        ∀ x ∈ found, x.kind ≠ .lexical ∧ ∀ part number, x.defect ≠ .score part number .noType) ∧
    (∀ dots, Moderate 25 dots ts → (decodeTexts false ts).outcome.isSome = true) ∧
    ∀ dots, Moderate 17 dots ts → ∃ p reports,
      (decodeTexts false ts).outcome = some (p, reports) ∧ p.encode.outcome.isSome = true := by
  refine ⟨?_, fun dots moderate => ?_, fun dots moderate => ?_⟩
  · intro p reports decoded
    obtain ⟨length, wellFormed, converts, mild⟩ := wellFormed_value_decodeTexts ts
    obtain ⟨-, rfl, rfl⟩ := Reported.outcome_eq_some_iff.mp decoded
    refine ⟨length, wellFormed, converts, ?_⟩
    intro tokens found written
    obtain ⟨-, -, rfl⟩ := Reported.outcome_eq_some_iff.mp written
    exact mild
  · rw [Reported.outcome_of_fits (moderate.fits_decodeTexts false)]
    rfl
  · have wide : Moderate 25 dots ts := moderate.mono (by decide)
    refine ⟨_, _, Reported.outcome_of_fits (wide.fits_decodeTexts false), ?_⟩
    rw [Reported.outcome_of_fits (held_decodeTexts moderate).fits_encode]
    rfl

/-- A dot in front of the first measure, a rest for a measure of no time signature, a backup without
a type, and a chord note without a chord. -/
def strayChord : List String :=
  ["dot", "measure", "rest", "rest:measure", "backup", "measure", "chord", "C4", "quarter", "dot"]

theorem wellFormed_strayChord :
    ∃ p reports, (decodeTexts false strayChord).outcome = some (p, reports) ∧ reports ≠ [] ∧
      p.measures.length = 2 ∧ p.WellFormed ∧ p.encode.outcome.isSome = true := by
  have moderate : Moderate 17 1 strayChord := by decide +kernel
  obtain ⟨every, -, written⟩ := wellFormed_decodeTexts strayChord
  obtain ⟨p, reports, decoded, encoded⟩ := written 1 moderate
  obtain ⟨length, wellFormed, -, -⟩ := every p reports decoded
  obtain ⟨-, -, found⟩ := Reported.outcome_eq_some_iff.mp decoded
  have stray : (decodeTexts false strayChord).diagnostics ≠ [] := by decide +kernel
  exact ⟨p, reports, decoded, fun none => stray (found.trans none), length, wellFormed, encoded⟩

/-- A quarter rest with so many dots that the next one would add less than the integers of the
machine hold. -/
def dottedRest : List String := ["measure", "rest", "quarter"] ++ List.replicate 62 "dot"

/-- The length of the rest is not held, so nothing is arrived at. -/
theorem dottedRest_stops : (decodeTexts false dottedRest).outcome = none := by
  decide +kernel

end LinearScore
