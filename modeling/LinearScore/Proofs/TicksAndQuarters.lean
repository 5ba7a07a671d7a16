import LinearScore.Proofs.HeldConversions
import LinearScore.Proofs.Inference

/-!
# From ticks to quarters and back

Durations in quarters can be put into ticks and taken back: what comes back is the part again, and
its first measure opens with attributes.  Alterations have no part in a conversion.

## Main definitions

* `Part.opened`: a part whose first measure opens with attributes

The main statements are `toQuarters_flat`, `toQuarters_toTicks` and `toTicks_refused_or_least`.
-/

namespace LinearScore

variable {divisions : Option Int}

/-! ## Alterations -/

namespace Element

theorem divisions?_flat (e : Element) : e.flat.divisions? = e.divisions? := by
  cases e <;> rfl

theorem duration?_flat (e : Element) : e.flat.duration? = e.duration? := by
  cases e <;> rfl

theorem divides_flat (e : Element) : e.flat.Divides divisions ↔ e.Divides divisions := by
  rw [Divides, divisions?_flat, duration?_flat, Divides]

theorem inQuarters_flat (e : Element) :
    e.flat.inQuarters divisions = (e.inQuarters divisions).flat := by
  cases e <;> cases divisions <;> rfl

end Element

theorem allDivide_flat (es : List Element) :
    AllDivide divisions (es.map Element.flat) ↔ AllDivide divisions es := by
  induction es generalizing divisions with
  | nil => exact Iff.rfl
  | cons e es ih =>
    rw [List.map_cons, AllDivide, AllDivide, Element.divides_flat, Element.divisions?_flat, ih]

theorem inQuarters_flat (es : List Element) :
    inQuarters divisions (es.map Element.flat) = (inQuarters divisions es).map Element.flat := by
  induction es generalizing divisions with
  | nil => rfl
  | cons e es ih =>
    rw [List.map_cons, inQuarters, inQuarters, Element.inQuarters_flat, Element.divisions?_flat, ih,
      List.map_cons]

theorem divisionsBehind_flat (es : List Element) :
    divisionsBehind divisions (es.map Element.flat) = divisionsBehind divisions es := by
  rw [divisionsBehind, List.foldl_map]
  simp only [Element.divisions?_flat]
  rfl

theorem Measure.inQuarters_flat (divisions : Option Int) (m : Measure) :
    m.flat.inQuarters divisions =
      ((m.inQuarters divisions).1, (m.inQuarters divisions).2.flat) := by
  show (divisionsBehind divisions (m.elements.map Element.flat),
    { m with elements := LinearScore.inQuarters divisions (m.elements.map Element.flat) }) = _
  rw [divisionsBehind_flat, LinearScore.inQuarters_flat]
  rfl

theorem elements_flat (p : Part) : p.flat.elements = p.elements.map Element.flat := by
  rw [Part.elements, Part.elements, Part.flat, List.flatMap_map, List.map_flatMap]
  rfl

/-- A part can be converted whatever its alterations are, -/
theorem outcome_toQuarters_flat (p : Part) :
    p.flat.toQuarters.outcome = .ok () ↔ p.toQuarters.outcome = .ok () := by
  rw [Part.outcome_toQuarters_eq_ok_iff, Part.outcome_toQuarters_eq_ok_iff, elements_flat,
    allDivide_flat]

/-- and the conversion leaves them as they are. -/
theorem toQuarters_flat {p : Part} (ok : p.toQuarters.outcome = .ok ()) :
    p.flat.toQuarters.part = p.toQuarters.part.flat := by
  have measures := thread_changed (g := id) Measure.inQuarters_flat none p.measures
  rw [Part.part_toQuarters ok, Part.part_toQuarters ((outcome_toQuarters_flat p).mpr ok)]
  exact congrArg (fun measures => { p with measures }) (congrArg Prod.snd measures)

/-! ## Parts in quarters -/

theorem hasDivisions_eq_false_iff {p : Part} :
    p.hasDivisions = false ↔ ∀ e ∈ p.elements, e.divisions? = none := by
  rw [Part.hasDivisions, List.any_eq_false]
  exact forall₂_congr fun e _ => Option.not_isSome_iff_eq_none

/-- The elements of a part in quarters are its elements in quarters. -/
theorem elements_toQuarters {p : Part} (ok : p.toQuarters.outcome = .ok ()) :
    p.toQuarters.part.elements = inQuarters none p.elements := by
  have measures (divisions : Option Int) (ms : List Measure) :
      (thread Measure.inQuarters divisions ms).2.flatMap (·.elements) =
        inQuarters divisions (ms.flatMap (·.elements)) := by
    induction ms generalizing divisions with
    | nil => rfl
    | cons m ms ih =>
      rw [thread_cons, List.flatMap_cons, List.flatMap_cons, inQuarters_append, ih]
      rfl
  rw [Part.part_toQuarters ok]
  exact measures none p.measures

theorem Element.divisions?_inQuarters (e : Element) :
    (e.inQuarters divisions).divisions? = none := by
  cases e <;> cases divisions <;> rfl

theorem divisions?_of_mem_inQuarters {es : List Element} :
    ∀ e ∈ inQuarters divisions es, e.divisions? = none := by
  induction es generalizing divisions with
  | nil => exact List.forall_mem_nil _
  | cons e es ih => exact List.forall_mem_cons.mpr ⟨e.divisions?_inQuarters, ih⟩

/-- A part in quarters declares no divisions. -/
theorem hasDivisions_toQuarters {p : Part} (ok : p.toQuarters.outcome = .ok ()) :
    p.toQuarters.part.hasDivisions = false := by
  rw [hasDivisions_eq_false_iff, elements_toQuarters ok]
  exact divisions?_of_mem_inQuarters

/-! ## There and back -/

/-- The part with attributes in front of its first measure, if it does not open with some. -/
def Part.opened (p : Part) : Part :=
  match p.measures with
  | [] => p
  | m :: ms => { p with measures := m.withHead (fun a => a) :: ms }

/-- Attributes that state nothing are all that is added. -/
theorem tidied_opened (p : Part) : p.opened.tidied = p.tidied := by
  obtain ⟨id, name, measures⟩ := p
  cases measures with
  | nil => rfl
  | cons m ms =>
    have first : (m.withHead fun a => a).tidied = m.tidied :=
      Measure.tidied_congr (m.frame_withHead _) (m.head_withHead _) (m.body_withHead _)
    exact congrArg (fun m => Part.mk id name (m :: ms.map Measure.tidied)) first

/-- Attributes that open a measure have no duration. -/
theorem durations_elements (m : Measure) :
    m.elements.filterMap Element.duration? = m.body.filterMap Element.duration? := by
  rcases m.elements_eq with eq | ⟨eq, -⟩
  · rw [eq]
    rfl
  · rw [eq]

/-- They have no duration. -/
theorem durations_opened (p : Part) : p.opened.durations = p.durations := by
  obtain ⟨id, name, measures⟩ := p
  cases measures with
  | nil => rfl
  | cons m ms =>
    have first : (m.withHead fun a => a).elements.filterMap Element.duration? =
        m.elements.filterMap Element.duration? := by
      rw [durations_elements, Measure.body_withHead, ← durations_elements]
    have durations (m : Measure) : (Part.mk id name (m :: ms)).durations =
        m.elements.filterMap Element.duration? ++
          (ms.flatMap (·.elements)).filterMap Element.duration? := by
      rw [Part.durations, Part.elements, List.flatMap_cons, List.filterMap_append]
    show (Part.mk id name ((m.withHead fun a => a) :: ms)).durations = _
    rw [durations, first, durations]

namespace Measure

theorem withHead_eq (m : Measure) (f : Attributes → Attributes) :
    m.withHead f = { m with elements := .attributes (f m.head) :: m.body } := by
  obtain ⟨number, implicit, newSystem, newPage, elements⟩ := m
  cases elements with
  | nil => rfl
  | cons e es => cases e <;> rfl

theorem head_mapDurations (f : Rat → Rat) (m : Measure) : (m.mapDurations f).head = m.head := by
  obtain ⟨number, implicit, newSystem, newPage, elements⟩ := m
  cases elements with
  | nil => rfl
  | cons e es => cases e <;> rfl

theorem body_mapDurations (f : Rat → Rat) (m : Measure) :
    (m.mapDurations f).body = m.body.map (Element.mapDuration f) := by
  obtain ⟨number, implicit, newSystem, newPage, elements⟩ := m
  cases elements with
  | nil => rfl
  | cons e es => cases e <;> rfl

/-- A measure without divisions has none in its head and none in its body. -/
theorem plain_head_body {m : Measure} (plain : ∀ e ∈ m.elements, e.divisions? = none) :
    m.head.divisions = none ∧ ∀ e ∈ m.body, e.divisions? = none := by
  rcases m.elements_eq with eq | ⟨eq, empty⟩
  · rw [eq] at plain
    exact List.forall_mem_cons.mp plain
  · rw [← eq, empty]
    exact ⟨rfl, plain⟩

end Measure

theorem divisions?_mapDuration (f : Rat → Rat) (e : Element) :
    (e.mapDuration f).divisions? = e.divisions? := by
  cases e <;> rfl

theorem plain_mapDuration {es : List Element} (f : Rat → Rat)
    (plain : ∀ e ∈ es, e.divisions? = none) :
    ∀ e ∈ es.map (Element.mapDuration f), e.divisions? = none := by
  refine List.forall_mem_map.mpr fun e he => ?_
  rw [divisions?_mapDuration, plain e he]

section Back

variable {d : Int}

/-- Divisions stay in force where none are declared. -/
theorem divisionsBehind_of_plain {es : List Element} (plain : ∀ e ∈ es, e.divisions? = none) :
    divisionsBehind divisions es = divisions := by
  induction es with
  | nil => rfl
  | cons e es ih =>
    obtain ⟨here, later⟩ := List.forall_mem_cons.mp plain
    rw [divisionsBehind, List.foldl_cons, here, Option.none_or]
    exact ih later

/-- Everything can be converted where divisions are in force and none are declared. -/
theorem allDivide_of_plain {es : List Element} (plain : ∀ e ∈ es, e.divisions? = none) :
    AllDivide (some d) es := by
  induction es with
  | nil => trivial
  | cons e es ih =>
    obtain ⟨here, later⟩ := List.forall_mem_cons.mp plain
    have divides : e.Divides (some d) := by
      refine ⟨?_, fun _ => rfl⟩
      rw [here]
      exact fun _ hd => nomatch hd
    rw [AllDivide, here, Option.none_or]
    exact ⟨divides, ih later⟩

variable (positive : 0 < d)
include positive

theorem Element.inQuarters_mapDuration {e : Element} (plain : e.divisions? = none) :
    (e.mapDuration (· * (d : Rat))).inQuarters (some d) = e := by
  have back (t : Rat) : t * d / d = t := mul_div_cancel_right₀ t (by exact_mod_cast positive.ne')
  cases e with
  | attributes a =>
    obtain ⟨declared, key, time, staves, clefs⟩ := a
    cases declared with
    | none => rfl
    | some d' => cases plain
  | note n =>
    show Element.note { n with duration := (n.duration.map _).map _ } = _
    rw [Option.map_map, Function.comp_def]
    simp only [back, Option.map_id']
  | backup t => exact congrArg Element.backup (back t)
  | forward t => exact congrArg Element.forward (back t)

/-- Under the divisions they were multiplied by, ticks are quarters again. -/
theorem inQuarters_mapDuration {es : List Element} (plain : ∀ e ∈ es, e.divisions? = none) :
    inQuarters (some d) (es.map (Element.mapDuration (· * (d : Rat)))) = es := by
  induction es with
  | nil => rfl
  | cons e es ih =>
    obtain ⟨here, later⟩ := List.forall_mem_cons.mp plain
    rw [List.map_cons, inQuarters, Element.inQuarters_mapDuration positive here,
      divisions?_mapDuration, here, Option.none_or, ih later]

theorem Measure.inQuarters_mapDurations {m : Measure}
    (plain : ∀ e ∈ m.elements, e.divisions? = none) :
    (m.mapDurations (· * (d : Rat))).inQuarters (some d) = (some d, m) := by
  have behind : divisionsBehind (some d) (m.elements.map (Element.mapDuration (· * (d : Rat)))) =
      some d := divisionsBehind_of_plain (plain_mapDuration _ plain)
  unfold Measure.inQuarters Measure.mapDurations
  dsimp only
  rw [behind, LinearScore.inQuarters_mapDuration positive plain]

/-- A first measure that declares the divisions its durations were multiplied by is in quarters what
it was, opened by attributes. -/
theorem Measure.inQuarters_declared {m : Measure} (plain : ∀ e ∈ m.elements, e.divisions? = none) :
    ((m.mapDurations (· * (d : Rat))).withHead fun a => { a with divisions := some d }).inQuarters
        none = (some d, m.withHead fun a => a) := by
  obtain ⟨head, body⟩ := m.plain_head_body plain
  have behind : divisionsBehind (some d) (m.body.map (Element.mapDuration (· * (d : Rat)))) =
      some d := divisionsBehind_of_plain (plain_mapDuration _ body)
  have undivided : ({ m.head with divisions := none } : Attributes) = m.head := by
    rw [← head]
  rw [withHead_eq, withHead_eq, head_mapDurations, body_mapDurations, Measure.inQuarters]
  dsimp only
  rw [LinearScore.inQuarters, Element.inQuarters, Attributes.undivided]
  show (divisionsBehind (some d) _,
    { m with elements := _ :: LinearScore.inQuarters (some d) _ }) = _
  rw [behind, LinearScore.inQuarters_mapDuration positive body, undivided]

theorem thread_inQuarters_mapDurations {ms : List Measure}
    (plain : ∀ e ∈ ms.flatMap (·.elements), e.divisions? = none) :
    thread Measure.inQuarters (some d) (ms.map (Measure.mapDurations (· * (d : Rat)))) =
      (some d, ms) := by
  induction ms with
  | nil => rfl
  | cons m ms ih =>
    obtain ⟨here, later⟩ := List.forall_mem_append.mp plain
    rw [List.map_cons, thread_cons, Measure.inQuarters_mapDurations positive here, ih later]

/-- Durations that are multiplied by the divisions declared in front of them are those of the part
again when it is converted. -/
theorem toQuarters_declareDivisions {p : Part} (plain : p.hasDivisions = false) :
    ((p.mapDurations (· * (d : Rat))).declareDivisions d).toQuarters.outcome = .ok () ∧
      ((p.mapDurations (· * (d : Rat))).declareDivisions d).toQuarters.part = p.opened := by
  have undivided := hasDivisions_eq_false_iff.mp plain
  obtain ⟨id, name, measures⟩ := p
  cases measures with
  | nil => exact ⟨rfl, rfl⟩
  | cons m ms =>
    obtain ⟨here, later⟩ : (∀ e ∈ m.elements, e.divisions? = none) ∧
        ∀ e ∈ ms.flatMap Measure.elements, e.divisions? = none :=
      List.forall_mem_append.mp undivided
    obtain ⟨first, hfirst⟩ : ∃ first, first = (m.mapDurations (· * (d : Rat))).withHead fun a =>
      { a with divisions := some d } := ⟨_, rfl⟩
    have declared : ((Part.mk id name (m :: ms)).mapDurations (· * (d : Rat))).declareDivisions d =
        Part.mk id name (first :: ms.map (Measure.mapDurations (· * (d : Rat)))) := by
      rw [hfirst]
      rfl
    rw [declared]
    have head : AllDivide none first.elements := by
      rw [hfirst, Measure.elements_withHead, Measure.body_mapDurations]
      have body := plain_mapDuration (· * (d : Rat)) (m.plain_head_body here).2
      have declares : (Element.attributes { (m.mapDurations (· * (d : Rat))).head with
          divisions := some d }).Divides none :=
        ⟨fun _ hd => Option.some.inj hd ▸ positive, fun timed => nomatch timed⟩
      exact ⟨declares, allDivide_of_plain body⟩
    have behind : (first.inQuarters none).1 = some d := by
      rw [hfirst, Measure.inQuarters_declared positive here]
    have ok : (Part.mk id name
        (first :: ms.map (Measure.mapDurations (· * (d : Rat))))).toQuarters.outcome = .ok () := by
      rw [Part.outcome_toQuarters_eq_ok_iff, Part.elements, List.flatMap_cons, allDivide_append]
      refine ⟨head, ?_⟩
      show AllDivide (first.inQuarters none).1 _
      rw [behind, List.flatMap_map]
      have rest := plain_mapDuration (· * (d : Rat)) later
      rw [List.map_flatMap] at rest
      exact allDivide_of_plain rest
    refine ⟨ok, ?_⟩
    rw [Part.part_toQuarters ok, thread_cons, behind, thread_inQuarters_mapDurations positive later,
      hfirst, Measure.inQuarters_declared positive here]
    rfl

end Back

/-- **Quarters can be put into ticks and taken back.**  A part in quarters is converted to ticks,
the ticks can be converted again, and give the part, opened by attributes. -/
theorem toQuarters_toTicks {p : Part} (plain : p.hasDivisions = false) :
    p.toTicks.outcome = .ok p.leastDivisions ∧
      p.toTicks.part.toQuarters.outcome = .ok () ∧
      p.toTicks.part.toQuarters.part = p.opened := by
  have positive : 0 < (p.leastDivisions : Int) := by exact_mod_cast leastDivisions_pos p
  have back := toQuarters_declareDivisions positive plain
  rw [Int.cast_natCast] at back
  rw [toTicks_of_undivided plain]
  exact ⟨rfl, back⟩

theorem hasDivisions_eq_true_iff {p : Part} :
    p.hasDivisions = true ↔ ∃ a, .attributes a ∈ p.elements ∧ a.divisions ≠ none := by
  rw [Part.hasDivisions, List.any_eq_true]
  constructor
  · rintro ⟨e, he, some⟩
    cases e with
    | attributes a => exact ⟨a, he, Option.isSome_iff_ne_none.mp some⟩
    | note n => cases some
    | backup d => cases some
    | forward d => cases some
  · rintro ⟨a, ha, some⟩
    exact ⟨.attributes a, ha, Option.isSome_iff_ne_none.mpr some⟩

/-- What is put into ticks can be taken back by the integers of the machine. -/
theorem fits_toQuarters_toTicks {p : Part} (plain : p.hasDivisions = false)
    (fits : (Machine.toTicks p).fits = true) : (Machine.toQuarters p.toTicks.part).fits = true := by
  obtain ⟨-, ok, back⟩ := toQuarters_toTicks plain
  obtain ⟨small, ticks⟩ := (Machine.fits_toTicks_iff plain).mp fits
  rw [Machine.fits_toQuarters_iff ok, ← elements_toQuarters ok, back]
  show ∀ q ∈ p.opened.durations, _
  rw [durations_opened]
  intro q hq
  exact Machine.holdsFraction_of_mul ((dvd_foldl_lcm p.durations Nat.one_pos).2.2 q hq)
    (leastDivisions_pos p) small (ticks q hq)

/-- **Putting a part into ticks.**  A part that declares divisions is refused and stays as it is.
Any other part gets the least divisions that make all its durations whole, just where these and all
ticks are held: every duration is multiplied by them, the first measure declares them in the
attributes it opens with, and nothing else changes.  Back in quarters it is the part again, its
first measure opened by attributes. -/
theorem toTicks_refused_or_least (p : Part) :
    ((∃ a, .attributes a ∈ p.elements ∧ a.divisions ≠ none) ∧
      (Machine.toTicks p).outcome = some ⟨p, .error .alreadyDivided⟩) ∨
    ((∀ a, .attributes a ∈ p.elements → a.divisions = none) ∧
      ∃ d : Nat, IsLeast {k : Nat | 0 < k ∧ ∀ q ∈ p.durations, (q * (k : Rat)).den = 1} d ∧
        (Machine.toTicks p).outcome =
          (if d < Machine.limit64 ∧
              ∀ q ∈ p.durations, Machine.holdsFraction (q * (d : Rat)) = true then
            some ⟨(p.mapDurations (· * (d : Rat))).declareDivisions d, .ok d⟩
          else none) ∧
        ∀ c, (Machine.toTicks p).outcome = some c →
          (Machine.toQuarters c.part).outcome = some ⟨p.opened, .ok ()⟩) := by
  cases divided : p.hasDivisions with
  | true =>
    left
    refine ⟨hasDivisions_eq_true_iff.mp divided, ?_⟩
    rw [Checked.outcome_of_fits (Machine.fits_toTicks_of_divided divided), Machine.value_toTicks,
      toTicks_of_divided divided]
  | false =>
    right
    obtain ⟨-, ok, back⟩ := toQuarters_toTicks divided
    refine ⟨?_, p.leastDivisions, isLeast_leastDivisions p, ?_, ?_⟩
    · intro a ha
      exact hasDivisions_eq_false_iff.mp divided (.attributes a) ha
    · rw [Checked.outcome, Machine.value_toTicks, toTicks_of_undivided divided]
      exact if_congr (Machine.fits_toTicks_iff divided) rfl rfl
    · intro c hc
      obtain ⟨fits, rfl⟩ := Checked.outcome_eq_some_iff.mp hc
      rw [Machine.value_toTicks, Checked.outcome_of_fits (fits_toQuarters_toTicks divided fits),
        Machine.value_toQuarters, ← back, ← ok]

/-- Two durations whose denominators are prime. -/
def Part.primeDurations : Part where
  id := "P1"
  measures :=
    [{ number := 1
       elements :=
        [.note (.plainRest .quarter (1 / 4294967291)),
         .note (.plainRest .quarter (1 / 4294967279))] }]

/-- Their least divisions are the product of both, which is not held. -/
theorem primeDurations_stops :
    Part.primeDurations.hasDivisions = false ∧
      (∀ q ∈ Part.primeDurations.durations, Machine.holdsFraction q = true) ∧
      Part.primeDurations.leastDivisions = 4294967291 * 4294967279 ∧
      (Machine.toTicks Part.primeDurations).outcome = none := by
  refine ⟨?_, ?_, ?_, ?_⟩ <;> decide +kernel

/-- One tick under divisions that are prime, and one more under others that are prime, too. -/
def Part.primeDivisions : Part where
  id := "P1"
  measures :=
    [{ number := 1
       elements :=
        [.attributes { divisions := some 4294967291 }, .forward 1,
         .attributes { divisions := some 4294967279 }, .forward 1] }]

end LinearScore
