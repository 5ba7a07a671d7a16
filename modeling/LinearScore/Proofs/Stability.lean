import LinearScore.Proofs.Reproduced

/-!
# Decoding what a decoded part is written as

A part that was decoded without a report is written as tokens that are decoded to the same part,
with its clefs in normal form, and this part is written as the same tokens.  The one thing that
tokens may not be able to say of such a part is how far its backups and forwards go.  Whether all
numbers are held is not asked here.

## Main definitions

* `Part.SkipsSplit`: the durations of backups and forwards are sums of note types
* `StartsLike`: elements with divisions declared in them, and the elements behind divisions

The main statement is `value_decodeTexts_encode_decodeTexts`.
-/

namespace LinearScore

/-- The divisions that a part declares at its beginning. -/
def Part.divisions? (p : Part) : Option Int :=
  (p.measures.head?.bind Measure.headAttributes?).bind (·.divisions)

/-- The durations of backups and forwards are sums of different note types. -/
def Part.SkipsSplit (p : Part) : Prop :=
  ∀ divisions ∈ p.divisions?, ∀ e ∈ p.elements, ∀ d ∈ e.skip?, (ladder d.num divisions).2 = 0

instance (p : Part) : Decidable p.SkipsSplit :=
  inferInstanceAs (Decidable (∀ divisions ∈ p.divisions?, ∀ e ∈ p.elements, ∀ d ∈ e.skip?,
    (ladder d.num divisions).2 = 0))

/-! ## Divisions that are declared -/

section Head

variable {d : Int} (positive : 0 < d)
include positive

theorem afterAttributes_declared {a : Attributes} (h : a.divisions = none) :
    ({} : EncodingState).afterAttributes { a with divisions := some d } =
      ({ divisions := some d } : EncodingState).afterAttributes a := by
  unfold EncodingState.afterAttributes EncodingState.fullMeasureAfter EncodingState.divisionsAfter
  dsimp only
  rw [if_pos positive, h]

/-- The elements `declared` at the start are written and read back as `es` are behind divisions. -/
structure StartsLike (d : Int) (declared es : List Element) : Prop where
  items : elementItems {} declared = elementItems { divisions := some d } es
  state : declared.foldl EncodingState.after {} =
    es.foldl EncodingState.after { divisions := some d }
  spells : AlongElements EncodingState.Spells { divisions := some d } es →
    AlongElements EncodingState.Spells {} declared
  echo : echoElements {} {} none declared = echoElements { divisions := some d } {} none es

/-- Divisions that stand alone are not written. -/
theorem startsLike_inserted (es : List Element) :
    StartsLike d (.attributes { divisions := some d } :: es) es := by
  have state : ({} : EncodingState).afterAttributes { divisions := some d } =
      { divisions := some d } := afterAttributes_declared positive (a := {}) rfl
  have after : ({} : EncodingState).after (.attributes { divisions := some d }) =
      { divisions := some d } := state
  constructor
  · rw [elementItems, after]
    rfl
  · rw [List.foldl_cons, after]
  · refine fun along => ⟨⟨⟨List.forall_mem_nil _, List.forall_mem_nil _⟩,
      fun _ => List.forall_mem_nil _⟩, ?_⟩
    rw [after]
    exact along
  · rw [echoElements, state]
    rfl

/-- Divisions are declared in attributes that declare none as if they stood in front of them. -/
theorem startsLike_attributes {a : Attributes} (h : a.divisions = none) (es : List Element) :
    StartsLike d (.attributes { a with divisions := some d } :: es) (.attributes a :: es) := by
  have state := afterAttributes_declared positive h
  have after : ({} : EncodingState).after (.attributes { a with divisions := some d }) =
    ({ divisions := some d } : EncodingState).after (.attributes a) := state
  constructor
  · rw [elementItems, elementItems, after]
    rfl
  · rw [List.foldl_cons, List.foldl_cons, after]
  · rintro ⟨spells, along⟩
    refine ⟨⟨⟨spells.expressible.formed, spells.expressible.valid⟩, spells.placed⟩, ?_⟩
    rw [after]
    exact along
  · rw [echoElements, echoElements, state]
    rfl

/-- Declaring divisions in a measure that declares none is like starting with them. -/
theorem startsLike_withHead {m : Measure} (h : m.headAttributes?.bind (·.divisions) = none) :
    StartsLike d (m.withHead fun a => { a with divisions := some d }).elements m.elements := by
  obtain ⟨number, implicit, newSystem, newPage, elements⟩ := m
  cases elements with
  | nil => exact startsLike_inserted positive []
  | cons e es =>
    cases e with
    | attributes a => exact startsLike_attributes positive h es
    | note n => exact startsLike_inserted positive _
    | backup t => exact startsLike_inserted positive _
    | forward t => exact startsLike_inserted positive _

/-- Declaring divisions in a part that declares none at its beginning is like starting with
them. -/
theorem declareDivisions_like {p : Part} (h : p.divisions? = none) :
    measureItems {} (p.declareDivisions d).measures =
        measureItems { divisions := some d } p.measures ∧
      (AlongMeasures EncodingState.Spells { divisions := some d } p.measures →
        (p.declareDivisions d).Along EncodingState.Spells) ∧
      echoMeasures {} {} 1 (p.declareDivisions d).measures =
        echoMeasures { divisions := some d } {} 1 p.measures := by
  obtain ⟨id, name, measures⟩ := p
  cases measures with
  | nil => exact ⟨rfl, fun _ => trivial, rfl⟩
  | cons m ms =>
    obtain ⟨items, state, spells, echo⟩ := startsLike_withHead positive (m := m) h
    have after : ({} : EncodingState).afterMeasure
        (m.withHead fun a => { a with divisions := some d }) =
          ({ divisions := some d } : EncodingState).afterMeasure m := state
    show measureItems {} (_ :: ms) = _ ∧ (_ → AlongMeasures _ {} (_ :: ms)) ∧
      echoMeasures {} {} 1 (_ :: ms) = _
    refine ⟨?_, fun h => ⟨spells h.1, ?_⟩, ?_⟩
    · rw [measureItems, measureItems, after]
      exact congrArg (· :: _) items
    · rw [after]
      exact h.2
    · rw [echoMeasures, echoMeasures, after]
      exact congrArg (fun r : List Element × DecodingState =>
        ({ number := 1, elements := orderChords (mergeSkips r.1) } : Measure) ::
          echoMeasures _ r.2 (1 + 1) ms) echo

end Head

/-! ## The last steps of decoding -/

theorem keepsDivisions_normalStep : KeepsDivisions Attributes.normalStep where
  kept _ _ := rfl
  declared _ _ _ := rfl
  alone declared divisions := by
    show (declared || false, _) = _
    rw [Bool.or_false]
    rfl

/-- The last steps make the clefs of the whole part those in normal form if the clefs were in
normal form before. -/
theorem finish_renumbered {p : Part} (legible : ∀ a ∈ p.attributes, a.Legible) :
    (p.renumbered.finish false).unbounded = Part.normalClefs <$> (p.finish false).unbounded := by
  rw [Part.unbounded_finish, Part.unbounded_finish]
  show (ticksOf p.renumbered.declareStaves.inferAlterations).unbounded =
    _ <$> (ticksOf _).unbounded
  rw [declareStaves_renumbered legible, Part.normalClefs, inferAlterations_pass fun _ _ => rfl,
    ticksOf_pass keepsDivisions_normalStep]
  rfl

/-- Alterations that are inferred are all that changes. -/
theorem flat_inferAlterations (p : Part) :
    p.inferAlterations.measures.map Measure.flat = p.measures.map Measure.flat := by
  refine map_inferAlterations (f := Element.flat) (fun n p alter content => ?_)
    (fun m es same => congrArg (fun elements => { m with elements }) same) p
  show Element.note { n with content := .pitch { p with alter := 0 } } = .note n.flat
  unfold Note.flat
  rw [content]
  rfl

theorem map_elements_inferAlterations {β : Type} {f : Element → β} (flat : ∀ e, f e.flat = f e)
    (p : Part) : p.inferAlterations.elements.map f = p.elements.map f := by
  have shown (ms : List Measure) : ((ms.map Measure.flat).flatMap Measure.elements).map f =
      (ms.flatMap Measure.elements).map f := by
    rw [List.flatMap_map, List.map_flatMap, List.map_flatMap]
    refine List.flatMap_congr fun m _ => ?_
    show (m.elements.map Element.flat).map f = _
    rw [List.map_map]
    exact List.map_congr_left fun e _ => flat e
  rw [Part.elements, ← shown, flat_inferAlterations, shown, Part.elements]

/-- The part with staves declared and with durations in ticks. -/
def Part.tallied (staves : Nat) (divisions : Int) (p : Part) : Part :=
  { p with measures := tallyMeasures staves divisions false p.measures }

/-- Tallying is a pass over the attributes and a change of the durations. -/
theorem tallied_eq (staves : Nat) (divisions : Int) (p : Part) :
    p.tallied staves divisions =
      (p.pass (onAttributes (Attributes.declareStep staves)) false).mapDurations
        (· * (divisions : Rat)) := rfl

/-- Times that elements but attributes carry are in ticks behind the tallying. -/
theorem filterMap_tallied {f : Element → Option Rat} (silent : ∀ a, f (.attributes a) = none)
    (scaled : ∀ g e, f (e.mapDuration g) = (f e).map g) (staves : Nat) (divisions : Int)
    (p : Part) :
    (p.tallied staves divisions).elements.filterMap f =
      (p.elements.filterMap f).map (· * (divisions : Rat)) := by
  have ticks : f ∘ Element.mapDuration (· * (divisions : Rat)) =
      fun e => (f e).map (· * (divisions : Rat)) := funext (scaled _)
  have passed : (p.pass (onAttributes (Attributes.declareStep staves)) false).elements.filterMap
      f = p.elements.filterMap f :=
    filterMap_of_map_eq (map_elements_pass (onAttributes_keeps fun _ _ =>
      (silent _).trans (silent _).symm) false p)
  rw [tallied_eq, elements_mapDurations, List.filterMap_map, ticks, ← List.map_filterMap, passed]

theorem filterMap_declareDivisions {β : Type} {f : Element → Option β}
    (silent : ∀ a, f (.attributes a) = none) (d : Int) (p : Part) :
    (p.declareDivisions d).elements.filterMap f = p.elements.filterMap f := by
  obtain ⟨id, name, measures⟩ := p
  cases measures with
  | nil => rfl
  | cons m ms =>
    have head : (m.withHead fun a => { a with divisions := some d }).elements.filterMap f =
        m.elements.filterMap f := by
      unfold Measure.withHead
      split
      · rename_i eq
        rw [eq, List.filterMap_cons_none (silent _), List.filterMap_cons_none (silent _)]
      · rw [List.filterMap_cons_none (silent _)]
    show ((_ :: ms).flatMap Measure.elements).filterMap f =
      ((m :: ms).flatMap Measure.elements).filterMap f
    rw [List.flatMap_cons, List.flatMap_cons, List.filterMap_append, List.filterMap_append, head]

/-- The length of a backup or forward is its duration. -/
theorem duration?_of_skip? {e : Element} {t : Rat} (h : e.skip? = some t) :
    e.duration? = some t := by
  cases e with
  | attributes a => cases h
  | note n => cases h
  | backup d => exact h
  | forward d => exact h

theorem skip?_mapDuration (g : Rat → Rat) (e : Element) :
    (e.mapDuration g).skip? = e.skip?.map g := by
  cases e <;> rfl

/-- The declared divisions are found again at the beginning, if there is one. -/
theorem divisions?_declareDivisions {d : Int} {p : Part} (h : p.measures ≠ []) :
    (p.declareDivisions d).divisions? = some d := by
  obtain ⟨id, name, measures⟩ := p
  cases measures with
  | nil => exact absurd rfl h
  | cons m ms =>
    show (m.withHead fun a => { a with divisions := some d }).headAttributes?.bind _ = _
    unfold Measure.withHead
    split
    · rfl
    · rfl

theorem divisions?_of_undivided {p : Part} (h : p.hasDivisions = false) :
    p.divisions? = none := by
  obtain ⟨id, name, measures⟩ := p
  cases measures with
  | nil => rfl
  | cons m ms =>
    obtain ⟨number, implicit, newSystem, newPage, elements⟩ := m
    cases elements with
    | nil => rfl
    | cons e es =>
      have none := List.any_eq_false.mp h e
        (List.mem_flatMap.mpr ⟨_, List.mem_cons_self, List.mem_cons_self⟩)
      exact Option.not_isSome_iff_eq_none.mp none

/-- Attributes that tokens can say have no divisions. -/
theorem hasDivisions_of_legible {p : Part} (legible : ∀ a ∈ p.attributes, a.Legible) :
    p.hasDivisions = false := by
  refine List.any_eq_false.mpr fun e he => ?_
  cases e with
  | attributes a =>
    have mem : a ∈ p.attributes := List.mem_filterMap.mpr ⟨_, he, rfl⟩
    simp [Element.attributes?, (legible a mem).divisions]
  | note n => exact Bool.false_ne_true
  | backup t => exact Bool.false_ne_true
  | forward t => exact Bool.false_ne_true

theorem hasDivisions_mapDurations (g : Rat → Rat) (p : Part) :
    (p.mapDurations g).hasDivisions = p.hasDivisions := by
  refine hasDivisions_congr ?_
  rw [elements_mapDurations, List.map_map]
  refine List.map_congr_left fun e _ => ?_
  cases e <;> rfl

/-- Alterations and staves are no divisions. -/
theorem hasDivisions_declared (staves : Nat) (p : Part) :
    (p.inferAlterations.pass (onAttributes (Attributes.declareStep staves)) false).hasDivisions =
      p.hasDivisions := by
  refine hasDivisions_congr ((map_elements_pass (onAttributes_keeps fun t a => ?_) _ _).trans
    (map_elements_inferAlterations (fun e => ?_) p))
  · obtain ⟨v, eq⟩ := exists_declareStep staves t a
    rw [eq]
    rfl
  · cases e <;> rfl

/-- What the last steps make of a part that tokens can say: its alterations are inferred, its
staves declared and its durations made whole. -/
theorem finish_eq {p : Part} (legible : ∀ a ∈ p.attributes, a.Legible) :
    ∃ (staves : Nat) (d : Int), 0 < d ∧
      (p.finish false).unbounded =
        pure ((p.inferAlterations.tallied staves d).declareDivisions d) ∧
      (p.inferAlterations.tallied staves d).hasDivisions = false ∧
      ∀ q ∈ p.inferAlterations.durations, (q * (d : Rat)).den = 1 := by
  obtain ⟨staves, hs⟩ : ∃ staves, staves = p.clefNumbers.max?.getD 0 := ⟨_, rfl⟩
  have passed : p.declareStaves.inferAlterations =
      p.inferAlterations.pass (onAttributes (Attributes.declareStep staves)) false := by
    rw [declareStaves_eq, ← hs, inferAlterations_pass fun t a => ?_]
    obtain ⟨v, eq⟩ := exists_declareStep staves t a
    rw [eq]
  obtain ⟨u, hu⟩ : ∃ u, u =
      p.inferAlterations.pass (onAttributes (Attributes.declareStep staves)) false := ⟨_, rfl⟩
  have undivided : u.hasDivisions = false := by
    rw [hu, hasDivisions_declared, hasDivisions_of_legible legible]
  have tallied : p.inferAlterations.tallied staves u.leastDivisions =
      u.mapDurations (· * (u.leastDivisions : Rat)) := by
    rw [tallied_eq, hu, Int.cast_natCast]
  refine ⟨staves, u.leastDivisions, by exact_mod_cast leastDivisions_pos u, ?_, ?_, ?_⟩
  · rw [Part.unbounded_finish]
    show (ticksOf p.declareStaves.inferAlterations).unbounded = _
    rw [passed, ← hu, ticksOf_undivided undivided, tallied]
  · rw [tallied, hasDivisions_mapDurations, undivided]
  · intro q hq
    have durations : u.durations = p.inferAlterations.durations := by
      rw [hu]
      exact filterMap_of_map_eq (map_elements_pass (onAttributes_keeps fun _ _ => rfl) _ _)
    rw [Int.cast_natCast]
    exact den_mul_leastDivisions (durations ▸ hq)

/-- The moves of a part split if those in ticks do and are whole. -/
theorem splits_of_tallied {p : Part} {staves : Nat} {d : Int}
    (splits : ((p.tallied staves d).declareDivisions d).SkipsSplit)
    (whole : ∀ q ∈ p.durations, (q * (d : Rat)).den = 1) :
    ∀ m ∈ p.measures, ∀ e ∈ m.elements, e.Splits d := by
  intro m hm e he t ht
  have mem : e ∈ p.elements := List.mem_flatMap.mpr ⟨m, hm, he⟩
  have skip : t ∈ p.elements.filterMap Element.skip? := List.mem_filterMap.mpr ⟨e, mem, ht⟩
  have scaled : t * (d : Rat) ∈
      ((p.tallied staves d).declareDivisions d).elements.filterMap Element.skip? := by
    rw [filterMap_declareDivisions fun _ => rfl, filterMap_tallied (fun _ => rfl) skip?_mapDuration]
    exact List.mem_map_of_mem skip
  have some : (p.tallied staves d).measures ≠ [] := by
    rw [← List.length_pos_iff, Part.tallied, tallyMeasures, List.length_map, length_thread]
    exact List.length_pos_of_mem hm
  obtain ⟨e', he', eq⟩ := List.mem_filterMap.mp scaled
  exact ⟨whole t (List.mem_filterMap.mpr ⟨e, mem, duration?_of_skip? ht⟩),
    splits d (divisions?_declareDivisions some) e' he' _ eq⟩

/-! ## Decoded parts -/

/-- The measures that are decoded of texts without a report are as they are read. -/
theorem exists_measuresRead {ts : List String} (clean : (decodeTexts false ts).diagnostics = []) :
    ∃ ms, MeasuresRead {} 1 ms ∧
      (decodeTexts false ts).value = ((Part.mk "P1" "" ms).finish false).value := by
  rw [decodeTexts, Reported.diagnostics_bind, List.append_eq_nil_iff] at clean
  have rest := clean.2
  rw [decodeTokens_eq, Reported.diagnostics_bind, List.append_eq_nil_iff,
    Reported.diagnostics_bind, List.append_eq_nil_iff] at rest
  rw [decodeTexts, Reported.value_bind, decodeTokens_eq, Reported.value_bind, Reported.value_bind]
  have valid : AllValid (Token.ofTexts ts).value := fun t ht => Token.valid_ofTexts ht
  exact ⟨_, measuresRead_decodeMeasures (valid_measureClusters valid) rest.2.1, rfl⟩

/-- A part with measures as they are read is written in full and read back with its clefs in
normal form, and nothing is reported; its backups and forwards split. -/
theorem echo_finish {ms : List Measure} (read : MeasuresRead {} 1 ms)
    (splits : ((Part.mk "P1" "" ms).finish false).value.SkipsSplit) :
    let p := ((Part.mk "P1" "" ms).finish false).value
    p.Along EncodingState.Spells ∧
      Part.mk "P1" "" (echoMeasures {} {} 1 p.measures) = (Part.mk "P1" "" ms).renumbered ∧
      (decodeMeasures {} 1
        ((measureItems {} p.measures).map fun items => items.flatMap Item.tokens)).diagnostics =
          [] ∧
      ∃ d : Int, 0 < d ∧ ∀ e ∈ (Part.mk "P1" "" ms).inferAlterations.elements, e.Splits d := by
  obtain ⟨p, hp⟩ : ∃ p, p = Part.mk "P1" "" ms := ⟨_, rfl⟩
  have legible : ∀ a ∈ p.attributes, a.Legible := hp ▸ read.legible
  obtain ⟨staves, d, positive, finished, undivided, whole⟩ := finish_eq legible
  rw [← hp] at splits ⊢
  have value : (p.finish false).value =
      (p.inferAlterations.tallied staves d).declareDivisions d :=
    congrArg Reported.value finished
  rw [value] at splits ⊢
  have split := splits_of_tallied splits whole
  have flat : p.inferAlterations.measures.map Measure.flat = p.measures := by
    rw [flat_inferAlterations, hp]
    exact read.flat
  obtain ⟨spells, echo, reported⟩ := @reproduces_measures staves d positive _
    split { divisions := some d } {} 1 (by rw [flat, hp]; exact read) rfl
  obtain ⟨items, along, same⟩ := declareDivisions_like positive (divisions?_of_undivided undivided)
  refine ⟨along spells, ?_, ?_, d, positive, fun e he => ?_⟩
  · rw [same]
    refine (congrArg (Part.mk "P1" "") echo).trans ?_
    rw [flat, hp]
    rfl
  · rw [items]
    exact reported
  · obtain ⟨m, hm, mem⟩ := List.mem_flatMap.mp he
    exact split m hm e mem

/-- What it is written as is decoded to it with its clefs in normal form. -/
theorem decodeTexts_encode_finish {ms : List Measure} (read : MeasuresRead {} 1 ms)
    (splits : ((Part.mk "P1" "" ms).finish false).value.SkipsSplit) :
    (decodeTexts false ((Part.mk "P1" "" ms).finish false).value.encode.value).unbounded =
      pure ((Part.mk "P1" "" ms).finish false).value.normalClefs := by
  obtain ⟨spells, again, reported, -⟩ := echo_finish read splits
  have expressible := AlongMeasures.imp (fun _ _ spells => spells.expressible) spells
  have legible : ∀ a ∈ (Part.mk "P1" "" ms).attributes, a.Legible := read.legible
  obtain ⟨_, _, -, finished, -⟩ := finish_eq legible
  -- the last steps see the part as it was read, but for its clefs
  have finish := finish_renumbered legible
  have value := congrArg Reported.value finished
  rw [Reported.value_unbounded, Reported.value_pure] at value
  rw [finished, ← value, ← again, map_pure] at finish
  have kept := congrArg Reported.value finish
  have silent := congrArg Reported.diagnostics finish
  rw [Reported.value_unbounded, Reported.value_pure] at kept
  rw [Reported.diagnostics_unbounded, Reported.diagnostics_pure] at silent
  refine Reported.ext ?_ ?_ rfl
  · rw [Reported.value_unbounded, value_decodeTexts_encode expressible, kept]
    rfl
  · exact diagnostics_decodeTexts_encode expressible false reported silent

/-- **What was decoded without a report is written as tokens that are decoded to the same part**,
with its clefs in normal form, and this part is written as the same tokens. -/
theorem value_decodeTexts_encode_decodeTexts {ts : List String}
    (clean : (decodeTexts false ts).diagnostics = [])
    (splits : (decodeTexts false ts).value.SkipsSplit) :
    (decodeTexts false (decodeTexts false ts).value.encode.value).unbounded =
        pure (decodeTexts false ts).value.normalClefs ∧
      (decodeTexts false ts).value.normalClefs.encode.value =
        (decodeTexts false ts).value.encode.value := by
  obtain ⟨ms, read, value⟩ := exists_measuresRead clean
  rw [value] at splits ⊢
  exact ⟨decodeTexts_encode_finish read splits, encode_normalClefs (echo_finish read splits).1⟩

end LinearScore
