import LinearScore.Proofs.Renumbering

/-!
# Elements that are read back as they were read

What was read of tokens is written in full once the staves are declared, the alterations inferred
and the durations are ticks, and it is read back as it was, with its clefs in normal form.  Of each
kind of element one lemma says so, and whole measures follow by induction.

## Main definitions

* `Element.flat`: an element without the alteration of its note
* `Reproduces`: elements that are written in full, and what they are read back as
* `tallied`, `tallyMeasures`: elements and measures with staves declared and durations in ticks

The main statement is `reproduces_measures`.
-/

namespace LinearScore

/-- The distance that an element moves the cursor without a note. -/
def Element.skip? : Element → Option Rat
  | .backup d => some d
  | .forward d => some d
  | _ => none

/-- The content of a note without its alteration. -/
def NoteContent.flat : NoteContent → NoteContent
  | .pitch p => .pitch { p with alter := 0 }
  | .rest m => .rest m

/-- The note without its alteration. -/
def Note.flat (n : Note) : Note := { n with content := n.content.flat }

/-- The element without the alteration of its note. -/
def Element.flat : Element → Element
  | .note n => .note n.flat
  | e => e

/-- The measure without alterations. -/
def Measure.flat (m : Measure) : Measure := { m with elements := m.elements.map Element.flat }

/-! ## Notes with alterations and other durations -/

section Notes

variable (d : DecodingState) (n : Note) (duration : Option Rat)

/-- The note that is read back depends neither on the alteration nor on the duration. -/
theorem echo_flat : d.echo { n with duration } = d.echo n.flat := by
  have content : n.content.flat.echo n.noteType.isNone = n.content.echo n.noteType.isNone := by
    cases n.content <;> rfl
  unfold DecodingState.echo Note.flat
  dsimp only
  rw [content]
  rfl

theorem afterEcho_flat : d.afterEcho { n with duration } = d.afterEcho n.flat := by
  have pitch : n.flat.pitch?.map (fun p => ({ p with alter := 0 } : Pitch)) =
      n.pitch?.map fun p => { p with alter := 0 } := by
    unfold Note.pitch? Note.flat
    cases n.content <;> rfl
  unfold DecodingState.afterEcho
  rw [pitch]
  rfl

variable {d n}

/-- The pitch of a note without its alteration lies at the same place. -/
theorem mem_pitch?_flat {p : Pitch} (h : p ∈ n.pitch?) :
    ({ p with alter := 0 } : Pitch) ∈ n.flat.pitch? := by
  unfold Note.pitch? at h
  unfold Note.pitch? Note.flat
  cases hc : n.content with
  | rest m =>
    rw [hc] at h
    cases h
  | pitch q =>
    rw [hc] at h
    cases h
    rfl

/-- A note that is read back as it is without its alteration is written in full with it. -/
theorem DecodingState.Settles.spells (h : d.Settles n.flat) (s : EncodingState) :
    d.Accepts { n with duration } ∧ s.Spells (.note { n with duration }) := by
  have pitch (p : Pitch) (hp : p ∈ n.pitch?) := h.legible.pitch _ (mem_pitch?_flat hp)
  have ascends (chord : n.chord = true) (p : Pitch) (hp : p ∈ d.sticky.previousPitch) (q : Pitch)
      (hq : q ∈ n.pitch?) := h.accepts.ascends chord p hp _ (mem_pitch?_flat hq)
  have accepts := h.accepts
  have legible := h.legible
  have written : Note.Legible { n with duration } :=
    ⟨pitch, legible.voice, legible.ratio, legible.staff, legible.marks⟩
  refine ⟨⟨accepts.ties, accepts.tuplets, ascends, accepts.lasts, accepts.length, accepts.beams⟩,
    ⟨⟨⟨fun p hp => ?_, fun typeless => ?_⟩, fun item mem => ?_⟩, trivial⟩⟩
  · obtain ⟨low, valid⟩ := pitch p hp
    simp only [Terminal.valid, decide_eq_true_eq] at valid
    exact ⟨low, by omega⟩
  · have rest := h.typeless typeless
    unfold Note.isMeasureRest Note.flat at rest
    unfold Note.isMeasureRest
    cases hc : n.content with
    | pitch p => simp [hc, NoteContent.flat] at rest
    | rest m => simpa [hc, NoteContent.flat] using rest
  · obtain rfl := List.mem_singleton.mp mem
    exact written.valid_noteItem s

end Notes

/-! ## Attributes with a number of staves -/

/-- Declaring staves changes nothing else. -/
theorem exists_declareStep (staves : Nat) (declared : Bool) (a : Attributes) :
    ∃ v, (a.declareStep staves declared).2 = { a with staves := v } := by
  unfold Attributes.declareStep
  split
  · exact ⟨_, rfl⟩
  · exact ⟨_, rfl⟩

theorem fst_declareStep (staves : Nat) (declared : Bool) (a : Attributes) :
    (a.declareStep staves declared).1 = (declared || a.numbersClefs) := by
  unfold Attributes.declareStep
  cases declared with
  | true => rfl
  | false => cases a.numbersClefs <;> rfl

section Attributes

variable {a : Attributes} (legible : a.Legible)
include legible

theorem Attributes.Legible.terminal (c : Clef) (hc : c ∈ a.clefs) : c.terminal?.isSome = true := by
  obtain ⟨t, ht, -⟩ := (legible.clefs c hc).sign
  rw [ht]
  rfl

/-- The entries of the table are terminals of the vocabulary, and so are their staves. -/
theorem Attributes.Legible.valid_clefTable {staff : Nat} {t : Terminal}
    (h : (staff, t) ∈ clefTable a.clefs) :
    t.valid = true ∧ (Terminal.staff staff).valid = true := by
  rw [clefTable_eq_clefRows legible.terminal] at h
  obtain ⟨⟨staff, c⟩, row, eq⟩ := List.mem_filterMap.mp h
  obtain ⟨u, hu, eq⟩ := Option.map_eq_some_iff.mp eq
  cases eq
  obtain ⟨rfl, mem⟩ := staff_of_lastClef (mem_clefRows.mp row)
  obtain ⟨u, hu', valid⟩ := (legible.clefs c mem).sign
  obtain rfl : t = u := Option.some.inj (hu.symm.trans hu')
  refine ⟨valid, ?_⟩
  unfold Clef.staff
  cases hn : c.number with
  | none => rfl
  | some n => exact (legible.clefs c mem).number n hn

/-- Legible attributes are written with valid terminals. -/
theorem Attributes.Legible.valid_items (numbered : Bool) :
    ∀ item ∈ a.items numbered, ∀ t ∈ item.terminals, t.valid = true := by
  intro item mem
  rw [Attributes.items, List.mem_append, List.mem_append] at mem
  rcases mem with (mem | mem) | mem
  · obtain ⟨k, hk, rfl⟩ := List.mem_map.mp mem
    exact List.forall_mem_singleton.mpr (legible.key k (Option.mem_toList.mp hk))
  · obtain ⟨time, ht, rfl⟩ := List.mem_map.mp mem
    obtain ⟨beats, beatType⟩ := legible.time time (Option.mem_toList.mp ht)
    exact List.forall_mem_cons.mpr ⟨rfl, List.forall_mem_cons.mpr
      ⟨beats, List.forall_mem_singleton.mpr beatType⟩⟩
  · obtain ⟨⟨staff, t⟩, ht, rfl⟩ := List.mem_map.mp mem
    obtain ⟨valid, number⟩ := legible.valid_clefTable ht
    rw [clefItem, Item.terminals_spelled]
    exact List.forall_mem_cons.mpr ⟨valid, forall_mem_flagged _ number⟩

/-- What legible attributes say in tokens is what they are with their clefs in normal form. -/
theorem Attributes.Legible.shown (numbered : Bool) :
    a.shown numbered = { a with clefs := normalClefs numbered a.clefs } := by
  have upper : (normalClefs numbered a.clefs).map Clef.upper = normalClefs numbered a.clefs := by
    refine (List.map_congr_left fun c hc => ?_).trans (List.map_id _)
    obtain ⟨c', mem, number, rfl⟩ := exists_of_mem_normalClefs hc
    exact congrArg (fun c : Clef => { c with number }) (legible.clefs c' mem).upper
  rw [Attributes.shown, shownClefs_clefTable legible.terminal
    (fun _ entry => (legible.valid_clefTable entry).1), upper, ← legible.divisions,
    ← legible.staves]

/-- Putting the clefs into normal form leaves something of attributes that say something. -/
theorem Attributes.Legible.renumberStep_ne (states : a ≠ {}) (numbered : Bool) :
    (a.renumberStep numbered).2 ≠ {} := by
  intro empty
  have clefs : a.clefs = [] := by
    by_contra some
    exact normalClefs_ne_nil some _ (congrArg Attributes.clefs empty)
  refine states ?_
  rw [← empty]
  obtain ⟨_, _, _, _, _⟩ := a
  cases clefs
  rfl

/-- The staves are declared behind attributes as soon as some clef is numbered. -/
theorem Attributes.Legible.staves_declareStep (s : EncodingState) (staves : Nat) :
    (s.afterAttributes (a.declareStep staves s.staves.isSome).2).staves.isSome =
      (s.staves.isSome || a.numbersClefs) := by
  show ((Attributes.declareStep staves s.staves.isSome a).2.staves.or s.staves).isSome = _
  unfold Attributes.declareStep
  cases hs : s.staves with
  | some n => simp [legible.staves]
  | none =>
    cases a.numbersClefs with
    | true => rfl
    | false => simp [legible.staves]

/-- Legible attributes are written in full with the staves that are declared in them. -/
theorem Attributes.Legible.spells (s : EncodingState) (staves : Nat) :
    s.Spells (.attributes (a.declareStep staves s.staves.isSome).2) := by
  obtain ⟨v, eq⟩ := exists_declareStep staves s.staves.isSome a
  have declared := legible.staves_declareStep s staves
  rw [eq] at declared ⊢
  refine ⟨⟨legible.terminal, legible.valid_items _⟩, fun undeclared c hc => ?_⟩
  rw [declared, Bool.or_eq_false_iff] at undeclared
  have plain := List.any_eq_false.mp undeclared.2 c hc
  unfold Clef.staff
  cases hn : c.number with
  | none => rfl
  | some n =>
    rw [hn] at plain
    exact absurd rfl plain

end Attributes

/-! ## Elements that are read back -/

/-- The elements `written` are written in full and read back as `read` without a report, behind
attributes `run` that are still added to.  What they leave behind is `state`, and staves are then
declared or not. -/
structure Reproduces (s : EncodingState) (d : DecodingState) (run : Option Attributes)
    (written read : List Element) (declared : Bool) (state : DecodingState) : Prop where
  spells : AlongElements EncodingState.Spells s written
  echo : echoElements s d run written = (closeRun run ++ read, state)
  clean : (decodeItems d run (elementItems s written)).diagnostics = []
  divisions : (written.foldl EncodingState.after s).divisions = s.divisions
  staves : (written.foldl EncodingState.after s).staves.isSome = declared

namespace Reproduces

variable {s : EncodingState} {d state : DecodingState} {run : Option Attributes}
  {written read : List Element} {declared : Bool}

theorem nil (s : EncodingState) (d : DecodingState) (run : Option Attributes) :
    Reproduces s d run [] [] s.staves.isSome d where
  spells := trivial
  echo := by rw [List.append_nil]; rfl
  clean := rfl
  divisions := rfl
  staves := rfl

theorem note {n : Note} (spells : s.Spells (.note n)) (accepts : d.Accepts n) (synced : Synced s d)
    (rest : Reproduces (s.afterNote n) (d.afterEcho n) none written read declared state) :
    Reproduces s d run (.note n :: written) (.note (d.echo n) :: read) declared state where
  spells := ⟨spells, rest.spells⟩
  echo := by
    rw [echoElements, rest.echo]
    rfl
  clean := by
    have formed := spells.expressible.formed
    rw [elementItems, EncodingState.items, List.singleton_append, decodeItems_note,
      Reported.diagnostics_bind, DecodingState.diagnostics_note_noteItem formed accepts,
      DecodingState.value_note_noteItem formed synced, List.nil_append, Reported.diagnostics_map]
    exact rest.clean
  divisions := rest.divisions
  staves := rest.staves

/-- A backup or forward that splits is read back as one of its duration in quarters. -/
theorem skip {marker : Terminal} (hm : marker = .backup ∨ marker = .forward) {t : Rat}
    (splits : Splits s.divisions t)
    (rest : Reproduces (s.after (piece marker t)) (d.afterPiece marker) none written read declared
      state) :
    Reproduces s d run (piece marker t :: written)
      (piece marker (t / (s.divisions.getD 1 : Int)) :: read) declared state := by
  obtain ⟨divisions, hd⟩ := Option.isSome_iff_exists.mp splits.declared
  have items : s.items (piece marker t) =
      (ladder t.num divisions).1.map fun t => Item.spelled [marker] (.noteType t) [] := by
    rcases hm with rfl | rfl
    · show skipItems s.divisions _ t = _
      rw [hd]
      rfl
    · show skipItems s.divisions _ t = _
      rw [hd]
      rfl
  have valid : ∀ item ∈ s.items (piece marker t), ∀ t ∈ item.terminals, t.valid = true := by
    rw [items]
    intro item mem
    obtain ⟨u, -, rfl⟩ := List.mem_map.mp mem
    rcases hm with rfl | rfl
    · exact List.forall_mem_cons.mpr ⟨rfl, List.forall_mem_singleton.mpr rfl⟩
    · exact List.forall_mem_cons.mpr ⟨rfl, List.forall_mem_singleton.mpr rfl⟩
  have nonempty : (ladder t.num divisions).1 ≠ [] := by
    rw [hd] at splits
    exact splits.types_ne_nil
  refine ⟨⟨⟨⟨?_, valid⟩, ?_⟩, rest.spells⟩, ?_, ?_, rest.divisions.trans ?_, rest.staves⟩
  · rcases hm with rfl | rfl
    · exact splits
    · exact splits
  · rcases hm with rfl | rfl
    · trivial
    · trivial
  · rcases hm with rfl | rfl
    · exact congrArg (fun r => (closeRun run ++ _ :: r.1, r.2)) rest.echo
    · exact congrArg (fun r => (closeRun run ++ _ :: r.1, r.2)) rest.echo
  · rw [elementItems, items, ← Reported.diagnostics_unbounded, decodeItems_pieces _ _ _ hm nonempty,
      Reported.diagnostics_map]
    exact rest.clean
  · rcases hm with rfl | rfl
    · rfl
    · rfl

/-- Attributes are read back as they are shown, unless others stand in front of them. -/
theorem attributes {a : Attributes} (spells : s.Spells (.attributes a))
    (divisions : a.divisions = none) {shown : Attributes}
    (hs : a.shown (s.afterAttributes a).staves.isSome = shown) (states : shown ≠ {})
    (rest : Reproduces (s.afterAttributes a) (d.afterShown a) (some shown) written read declared
      state) :
    Reproduces s d none (.attributes a :: written) (.attributes shown :: read) declared state := by
  have added : addToRun none (a.shown (s.afterAttributes a).staves.isSome) = some shown := by
    rw [hs, addToRun, if_neg states, ← hs]
    simp [Attributes.joined, Attributes.shown]
  refine ⟨⟨spells, rest.spells⟩, ?_, ?_, rest.divisions.trans ?_, rest.staves⟩
  · rw [echoElements, added]
    exact rest.echo
  · rw [elementItems, EncodingState.items, ← Reported.diagnostics_unbounded,
      decodeItems_attributes _ _ _ _ rfl, added]
    exact rest.clean
  · show s.divisionsAfter a = _
    rw [EncodingState.divisionsAfter, divisions]

/-- Legible attributes are read back with their clefs in normal form, with the staves that are
declared in them. -/
theorem declared_attributes {a : Attributes} (legible : a.Legible) (states : a ≠ {}) (staves : Nat)
    (rest : Reproduces (s.afterAttributes (a.declareStep staves s.staves.isSome).2) (d.afterShown a)
      (some (a.renumberStep s.staves.isSome).2) written read declared state) :
    Reproduces s d none (.attributes (a.declareStep staves s.staves.isSome).2 :: written)
      (.attributes (a.renumberStep s.staves.isSome).2 :: read) declared state := by
  obtain ⟨v, eq⟩ := exists_declareStep staves s.staves.isSome a
  have spells := legible.spells s staves
  have numbered := legible.staves_declareStep s staves
  have shown := legible.shown (s.staves.isSome || a.numbersClefs)
  rw [eq] at spells numbered rest ⊢
  exact .attributes spells legible.divisions
    ((congrArg (Attributes.shown · _) numbered).trans shown)
    (legible.renumberStep_ne states _) rest

end Reproduces

/-- The elements with staves declared and with durations in ticks. -/
def tallied (staves : Nat) (divisions : Int) (declared : Bool) (es : List Element) :
    List Element :=
  (thread (onAttributes (Attributes.declareStep staves)) declared es).2.map
    (Element.mapDuration (· * (divisions : Rat)))

/-- The duration of a backup or forward is a whole number of ticks and splits into note types. -/
def Element.Splits (divisions : Int) (e : Element) : Prop :=
  ∀ t ∈ e.skip?, (t * divisions).den = 1 ∧ (ladder (t * divisions).num divisions).2 = 0

theorem splits_of_reads {divisions : Int} (positive : 0 < divisions) {t : Rat} (ht : 0 < t)
    (h : (t * divisions).den = 1 ∧ (ladder (t * divisions).num divisions).2 = 0) :
    Splits (some divisions) (t * divisions) where
  declared := rfl
  whole := h.1
  positive := mul_pos ht (by exact_mod_cast positive)
  exact d hd := by
    cases hd
    exact h.2

/-- **Elements that were read are read back**, with the staves that were declared, the alterations
that were inferred and the durations that became ticks. -/
theorem reproduces_tallied {staves : Nat} {divisions : Int} (positive : 0 < divisions)
    {es : List Element} (splits : ∀ e ∈ es, e.Splits divisions) {s : EncodingState}
    {d : DecodingState} {run : Option Attributes} (read : AllRead d (es.map Element.flat))
    (apart : (closeRun run ++ es).IsChain AttributesApart) (synced : Synced s d)
    (hs : s.divisions = some divisions) :
    let r := thread (onAttributes Attributes.renumberStep) s.staves.isSome (es.map Element.flat)
    Reproduces s d run (tallied staves divisions s.staves.isSome es) r.2 r.1
      ((es.map Element.flat).foldl DecodingState.afterRead d) := by
  induction es generalizing s d run with
  | nil => exact .nil s d run
  | cons e es ih =>
    obtain ⟨first, rest⟩ := read
    obtain ⟨split, later⟩ := List.forall_mem_cons.mp splits
    have tail : (e :: es).IsChain AttributesApart := apart.right_of_append
    have quarters (t : Rat) : t * (divisions : Rat) / ((s.divisions.getD 1 : Int) : Rat) = t := by
      rw [hs, Option.getD_some]
      exact mul_div_cancel_right₀ t (by exact_mod_cast positive.ne')
    cases e with
    | attributes a =>
      obtain ⟨legible, states⟩ := first
      cases run with
      | some b => exact absurd ⟨rfl, rfl⟩ (List.isChain_cons_cons.mp apart).1
      | none =>
        have behind : Synced (s.afterAttributes (a.declareStep staves s.staves.isSome).2)
              (d.afterShown a) ∧
            (s.afterAttributes (a.declareStep staves s.staves.isSome).2).divisions =
              s.divisions := by
          obtain ⟨v, eq⟩ := exists_declareStep staves s.staves.isSome a
          rw [eq]
          refine ⟨synced.attributes { a with staves := v }, ?_⟩
          rw [EncodingState.afterAttributes, EncodingState.divisionsAfter, legible.divisions]
        have rest := @ih later _ (d.afterShown a) (some (a.renumberStep s.staves.isSome).2) rest
          (blind_attributesApart.cons (a := .attributes a) rfl tail) behind.1 (behind.2.trans hs)
        rw [legible.staves_declareStep] at rest
        have tally : tallied staves divisions s.staves.isSome (.attributes a :: es) =
            .attributes (a.declareStep staves s.staves.isSome).2 ::
              tallied staves divisions (s.staves.isSome || a.numbersClefs) es := by
          rw [← fst_declareStep staves]
          rfl
        rw [tally]
        exact .declared_attributes legible states staves rest
    | note n =>
      obtain ⟨accepts, spells⟩ := first.spells (n.duration.map (· * (divisions : Rat))) s
      have rest : AllRead (d.afterEcho { n with duration := n.duration.map (· * (divisions : Rat)) })
          (es.map Element.flat) := by
        rw [afterEcho_flat]
        exact rest
      have rest := @ih later (s.afterNote _) _ none rest tail.tail (synced.note _) hs
      have all : Reproduces s d run _ _ _ _ := .note spells accepts synced rest
      rw [afterEcho_flat, echo_flat, first.echo] at all
      exact all
    | backup t =>
      have rest := @ih later (s.after (.backup (t * divisions))) { d with sticky := {} } none rest
        tail.tail (.fresh rfl _ rfl) hs
      have all : Reproduces s d run _ _ _ _ := .skip (.inl rfl)
        (hs ▸ splits_of_reads positive first (split t rfl)) rest
      rw [quarters] at all
      exact all
    | forward t =>
      have rest := @ih later (s.after (.forward (t * divisions))) d none rest tail.tail
        ⟨synced.voice, synced.stem, synced.staff⟩ hs
      have all : Reproduces s d run _ _ _ _ := .skip (.inr rfl)
        (hs ▸ splits_of_reads positive first (split t rfl)) rest
      rw [quarters] at all
      exact all

/-! ## Measures that are read back -/

/-- Alterations do not count for which elements are attributes. -/
theorem apart_of_flat {es : List Element} (h : (es.map Element.flat).IsChain AttributesApart) :
    es.IsChain AttributesApart := by
  have flat (e : Element) (he : e.shape = .attributes {}) : e.flat.shape = .attributes {} := by
    cases e with
    | attributes a => rfl
    | note n => cases he
    | backup t => cases he
    | forward t => cases he
  rw [List.isChain_map] at h
  exact h.imp fun a b apart both => apart ⟨flat a both.1, flat b both.2⟩

/-- Passes over attributes keep elements in their places. -/
theorem Ordered.pass {σ : Type} {step : σ → Attributes → σ × Attributes} {es : List Element}
    (h : Ordered es) (s : σ) : Ordered (thread (onAttributes step) s es).2 :=
  .of_shape (@map_thread _ _ _ _ (fun _ => True) Element.shape
    (fun s e _ => ⟨trivial, onAttributes_keeps (fun _ _ => rfl) s e⟩) s trivial es).2 h

/-- Staves are declared where clefs are numbered first. -/
theorem fst_thread_declareStep (staves : Nat) (declared : Bool) (es : List Element) :
    (thread (onAttributes (Attributes.declareStep staves)) declared es).1 =
      (thread (onAttributes Attributes.renumberStep) declared (es.map Element.flat)).1 := by
  induction es generalizing declared with
  | nil => rfl
  | cons e es ih =>
    cases e with
    | attributes a =>
      show (thread _ (Attributes.declareStep staves declared a).1 es).1 = _
      rw [fst_declareStep]
      exact ih _
    | note n => exact ih declared
    | backup t => exact ih declared
    | forward t => exact ih declared

/-- The measures with staves declared and with durations in ticks. -/
def tallyMeasures (staves : Nat) (divisions : Int) (declared : Bool) (ms : List Measure) :
    List Measure :=
  (thread (Measure.pass (onAttributes (Attributes.declareStep staves))) declared ms).2.map
    fun m => { m with elements := m.elements.map (Element.mapDuration (· * (divisions : Rat))) }

theorem tallyMeasures_cons (staves : Nat) (divisions : Int) (declared : Bool) (m : Measure)
    (ms : List Measure) :
    tallyMeasures staves divisions declared (m :: ms) =
      { m with elements := tallied staves divisions declared m.elements } ::
        tallyMeasures staves divisions
          (thread (onAttributes (Attributes.declareStep staves)) declared m.elements).1 ms := rfl

/-- **Measures that were read are read back.** -/
theorem reproduces_measures {staves : Nat} {divisions : Int} (positive : 0 < divisions)
    {ms : List Measure} (splits : ∀ m ∈ ms, ∀ e ∈ m.elements, e.Splits divisions)
    {s : EncodingState} {d : DecodingState} {number : Int}
    (read : MeasuresRead d number (ms.map Measure.flat)) (hs : s.divisions = some divisions) :
    let written := tallyMeasures staves divisions s.staves.isSome ms
    AlongMeasures EncodingState.Spells s written ∧
      echoMeasures s d number written =
        (thread (Measure.pass (onAttributes Attributes.renumberStep)) s.staves.isSome
          (ms.map Measure.flat)).2 ∧
      (decodeMeasures d number ((measureItems s written).map fun items =>
        items.flatMap Item.tokens)).diagnostics = [] := by
  induction ms generalizing s d number with
  | nil => exact ⟨trivial, rfl, rfl⟩
  | cons m ms ih =>
    obtain ⟨plain, first, ordered, rest⟩ := read
    obtain ⟨split, later⟩ := List.forall_mem_cons.mp splits
    obtain ⟨r, hr⟩ : ∃ r, r = thread (onAttributes Attributes.renumberStep) s.staves.isSome
        (m.elements.map Element.flat) := ⟨_, rfl⟩
    have same : orderChords (mergeSkips r.2) = r.2 := by
      rw [hr]
      exact (ordered.pass s.staves.isSome).orderChords_mergeSkips
    -- the measure as it is written, and what comes of it
    obtain ⟨w, hw⟩ : ∃ w : Measure, w =
        { m with elements := tallied staves divisions s.staves.isSome m.elements } := ⟨_, rfl⟩
    have here : Reproduces s.startMeasure { d with sticky := {} } none w.elements r.2 r.1
        (m.flat.elements.foldl DecodingState.afterRead { d with sticky := {} }) := by
      rw [hw, hr]
      exact reproduces_tallied positive split first (apart_of_flat ordered.attributes)
        (.fresh rfl _ rfl) hs
    have declared : (thread (onAttributes (Attributes.declareStep staves)) s.staves.isSome
        m.elements).1 = (s.afterMeasure w).staves.isSome := by
      rw [fst_thread_declareStep, ← hr]
      exact here.staves.symm
    have flag : (Measure.pass (onAttributes Attributes.renumberStep) s.staves.isSome m.flat).1 =
        (s.afterMeasure w).staves.isSome := by
      rw [← declared, fst_thread_declareStep]
      rfl
    have head : (Measure.pass (onAttributes Attributes.renumberStep) s.staves.isSome m.flat).2 =
        { number, elements := r.2 } := by
      rw [hr]
      exact congrArg (fun m' : Measure => { m' with elements := (thread (onAttributes
        Attributes.renumberStep) s.staves.isSome (m.elements.map Element.flat)).2 }) plain
    obtain ⟨spells, echo, clean⟩ := @ih later (s.afterMeasure w) _ _ rest (here.divisions.trans hs)
    dsimp only
    rw [tallyMeasures_cons, ← hw, declared]
    refine ⟨⟨here.spells, spells⟩, ?_, ?_⟩
    · rw [List.map_cons, thread_cons, flag, head, ← echo, echoMeasures, here.echo]
      exact congrArg (fun elements => ({ number, elements } : Measure) :: _) same
    · obtain ⟨-, state⟩ := value_decodeItems_elementItems
        (here.spells.imp fun _ _ spells => spells.expressible)
        (.fresh rfl { d with sticky := {} } rfl) none
      rw [here.echo] at state
      have unbounded := decodeMeasure_items d number s.startMeasure w.elements
      have silent := congrArg Reported.diagnostics unbounded
      have value := congrArg Reported.value unbounded
      rw [Reported.diagnostics_unbounded, Reported.diagnostics_map, Reported.diagnostics_unbounded,
        here.clean] at silent
      rw [Reported.value_unbounded, Reported.value_map, Reported.value_unbounded, state] at value
      rw [measureItems, List.map_cons, decodeMeasures, Reported.diagnostics_bind, silent, value,
        Reported.diagnostics_bind, clean]
      rfl

/-! ## Measures as they were read -/

/-- A note that is read back as it is has no alteration. -/
theorem DecodingState.Settles.flat {d : DecodingState} {n : Note} (h : d.Settles n) :
    n.flat = n := by
  have same : n.content = n.content.echo n.noteType.isNone :=
    congrArg Note.content h.echo.symm
  have flat : (n.content.echo n.noteType.isNone).flat = n.content.echo n.noteType.isNone := by
    cases n.content <;> rfl
  rw [← same] at flat
  exact congrArg (fun content => { n with content }) flat

theorem AllRead.flat {d : DecodingState} {es : List Element} (h : AllRead d es) :
    es.map Element.flat = es := by
  induction es generalizing d with
  | nil => rfl
  | cons e es ih =>
    obtain ⟨first, rest⟩ := h
    rw [List.map_cons, ih rest]
    cases e with
    | attributes a => rfl
    | note n => exact congrArg (fun n => Element.note n :: es) first.flat
    | backup t => rfl
    | forward t => rfl

theorem AllRead.legible {d : DecodingState} {es : List Element} (h : AllRead d es) :
    ∀ a, .attributes a ∈ es → a.Legible := by
  induction es generalizing d with
  | nil => exact fun a mem => absurd mem List.not_mem_nil
  | cons e es ih =>
    obtain ⟨first, rest⟩ := h
    intro a mem
    rcases List.mem_cons.mp mem with rfl | mem
    · exact first.1
    · exact ih rest a mem

theorem MeasuresRead.flat {d : DecodingState} {number : Int} {ms : List Measure}
    (h : MeasuresRead d number ms) : ms.map Measure.flat = ms := by
  induction ms generalizing d number with
  | nil => rfl
  | cons m ms ih =>
    obtain ⟨-, first, -, rest⟩ := h
    rw [List.map_cons, ih rest, Measure.flat, first.flat]

/-- The attributes that are read say what tokens can say. -/
theorem MeasuresRead.legible {d : DecodingState} {number : Int} {ms : List Measure}
    (h : MeasuresRead d number ms) {id name : String} :
    ∀ a ∈ (Part.mk id name ms).attributes, a.Legible := by
  have measures : ∀ m ∈ ms, ∀ a, .attributes a ∈ m.elements → a.Legible := by
    induction ms generalizing d number with
    | nil => exact List.forall_mem_nil _
    | cons m ms ih =>
      obtain ⟨-, first, -, rest⟩ := h
      exact List.forall_mem_cons.mpr ⟨first.legible, ih rest⟩
  intro a ha
  obtain ⟨e, he, eq⟩ := List.mem_filterMap.mp ha
  obtain ⟨m, hm, he⟩ := List.mem_flatMap.mp he
  cases e with
  | attributes b =>
    cases eq
    exact measures m hm a he
  | note n => cases eq
  | backup t => cases eq
  | forward t => cases eq

end LinearScore
