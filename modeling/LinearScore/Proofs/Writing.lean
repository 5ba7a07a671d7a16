import Mathlib.Tactic.ByContra
import LinearScore.Encoding.Part
import LinearScore.Proofs.Fields
import LinearScore.Proofs.Spelling

/-!
# Elements written as items

What an element emits is the terminals of some items, with faults in between.  Most faults only
say that the part contradicts itself and take nothing away; an element that has none of the other
faults is written in full, and the tokens of a part of such elements are its items, measure by
measure.

## Main definitions

* `EncodingState.fields`: the fields that a note is written as
* `EncodingState.items`: the items that an element is written as
* `EncodingState.Expressible`: the element is written in full
* `Part.Along`: a property of all elements of a part and the states in front of them

The main statements are `value_encodeMeasures`, what is written, and `along_of_diagnostics_eq_nil`,
which with `Clean.expressible` says that a part of which nothing is reported is written in full.
-/

namespace LinearScore

variable {α : Type}

/-! ## The terminals of emissions -/

/-- The terminal of a token that is emitted, in the vocabulary or not. -/
def Emission.token? : Emission → Option Terminal
  | token t => some t
  | fault _ => none

/-- The terminals among emissions, in the vocabulary or not. -/
def emitted (es : List Emission) : List Terminal := es.filterMap Emission.token?

@[simp] theorem emitted_nil : emitted [] = [] := rfl

@[simp] theorem emitted_append (as bs : List Emission) :
    emitted (as ++ bs) = emitted as ++ emitted bs := List.filterMap_append

@[simp] theorem emitted_token (t : Terminal) (es : List Emission) :
    emitted (.token t :: es) = t :: emitted es := rfl

@[simp] theorem emitted_fault (f : ScoreFault) (es : List Emission) :
    emitted (.fault f :: es) = emitted es := rfl

@[simp] theorem emitted_map_token (build : α → Terminal) (as : List α) :
    emitted (as.map fun a => .token (build a)) = as.map build := by
  induction as with
  | nil => rfl
  | cons a as ih => rw [List.map_cons, emitted_token, ih, List.map_cons]

@[simp] theorem emitted_map_fault (build : α → ScoreFault) (as : List α) :
    emitted (as.map fun a => .fault (build a)) = [] := by
  induction as with
  | nil => rfl
  | cons a as ih => rw [List.map_cons, emitted_fault, ih]

theorem emitted_flatMap (f : α → List Emission) (as : List α) :
    emitted (as.flatMap f) = as.flatMap fun a => emitted (f a) := by
  induction as with
  | nil => rfl
  | cons a as ih => rw [List.flatMap_cons, emitted_append, ih, List.flatMap_cons]

@[simp] theorem emitted_emitSome (build : α → Terminal) (value : Option α) :
    emitted (emitSome build value) = valued build value := by
  cases value with
  | none => rfl
  | some a => rfl

@[simp] theorem emitted_emitIf (condition : Bool) (t : Terminal) :
    emitted (emitIf condition t) = flagged t condition := by
  cases condition with
  | false => rfl
  | true => rfl

@[simp] theorem emitted_faultIf (condition : Bool) (f : ScoreFault) :
    emitted (faultIf condition f) = [] := by
  cases condition with
  | false => rfl
  | true => rfl

@[simp] theorem emitted_replicate (n : Nat) (t : Terminal) :
    emitted (List.replicate n (.token t)) = List.replicate n t := by
  induction n with
  | zero => rfl
  | succ n ih => rw [List.replicate_succ, emitted_token, ih, List.replicate_succ]

/-- A sticky value that is written: one that is not the value before. -/
def changed [DecidableEq α] (old new : Option α) : Option α := if new = old then none else new

@[simp] theorem emitted_emitChanged [DecidableEq α] (build : α → Terminal) (old new : Option α) :
    emitted (emitChanged build old new) = valued build (changed old new) := by
  cases new with
  | none => simp [emitChanged, changed, valued]
  | some a =>
    unfold emitChanged changed
    by_cases h : old = some a
    · rw [if_pos h.symm]
      simp [h, valued]
    · rw [if_neg (Ne.symm h)]
      simp [h, valued]

/-- What is written is what is emitted and lies in the vocabulary. -/
theorem filterMap_terminal? (es : List Emission) :
    es.filterMap Emission.terminal? = (emitted es).filter Terminal.valid := by
  induction es with
  | nil => rfl
  | cons e es ih =>
    cases e with
    | fault f =>
      rw [emitted_fault, ← ih]
      rfl
    | token t =>
      rw [emitted_token, List.filterMap_cons, List.filter_cons, ih]
      by_cases h : t.valid = true
      · simp [Emission.terminal?, h]
      · simp [Emission.terminal?, h]

/-! ## The items of an element -/

/-- The terminals of an item in the order of the stream. -/
def Item.terminals (item : Item) : List Terminal := item.tokens.map Token.terminal

@[simp] theorem Item.terminals_spelled (leading : List Terminal) (root : Terminal)
    (trailing : List Terminal) :
    (Item.spelled leading root trailing).terminals = leading ++ root :: trailing := by
  simp [Item.terminals, Item.spelled, Item.tokens, Function.comp_def]

/-- The root that a note is written with. -/
def Note.root (n : Note) : Terminal := n.noteType.elim .measureRest .noteType

namespace EncodingState

/-- The fields that a note is written as. -/
def fields (s : EncodingState) (n : Note) : NoteFields where
  unprinted := !n.printed
  grace := n.grace.isSome
  graceSlash := n.grace.elim false Grace.slash
  chord := n.chord
  rest := if n.isRest then some 0 else none
  pitch := n.pitch?.map fun p => (p.step, p.octave.toNat, 0)
  voice := changed s.sticky.voice n.voice
  ratio := n.ratio
  dots := n.dots
  accidental := n.accidental
  stem := changed s.sticky.stem n.stem
  staff := changed s.sticky.staff n.staff
  beams := (n.beams.filterMap fun b => BeamMark.ofStroke? b.stroke).map fun b => (b, 0)
  ties := n.ties
  markings := { n.markings with tremolo := none }
  tremoloKind := n.markings.tremolo.map Tremolo.kind
  tremoloMarks := n.markings.tremolo.map Tremolo.marks

/-- The item that a note is written as. -/
def noteItem (s : EncodingState) (n : Note) : Item :=
  Item.spelled (s.fields n).leading n.root (s.fields n).trailing

end EncodingState

/-- The item that a key signature is written as. -/
def KeySignature.item (k : KeySignature) : Item := Item.spelled [] (.key k.fifths) []

/-- The item that a time signature is written as. -/
def TimeSignature.item (t : TimeSignature) : Item :=
  Item.spelled [] .time [.beats t.beats, .beatType t.beatType]

/-- The item that a clef is written as, with its staff if the staves are `numbered`. -/
def clefItem (numbered : Bool) (entry : Nat × Terminal) : Item :=
  Item.spelled [] entry.2 (flagged (.staff entry.1) numbered)

/-- The items that attributes are written as. -/
def Attributes.items (numbered : Bool) (a : Attributes) : List Item :=
  a.key.toList.map KeySignature.item ++ a.time.toList.map TimeSignature.item ++
    (clefTable a.clefs).map (clefItem numbered)

/-- The items that a duration is written as behind a marker. -/
def skipItems (divisions : Option Int) (marker : Terminal) (duration : Rat) : List Item :=
  divisions.elim [] fun d =>
    (ladder duration.num d).1.map fun t => Item.spelled [marker] (.noteType t) []

/-- The items that an element is written as. -/
def EncodingState.items (s : EncodingState) : Element → List Item
  | .attributes a => a.items (s.afterAttributes a).staves.isSome
  | .note n => [s.noteItem n]
  | .backup d => skipItems s.divisions .backup d
  | .forward d => skipItems s.divisions .forward d

/-- The duration of a backup or forward splits into note types without a remainder. -/
structure Splits (divisions : Option Int) (duration : Rat) : Prop where
  declared : divisions.isSome = true
  whole : duration.den = 1
  positive : 0 < duration
  exact : ∀ d ∈ divisions, (ladder duration.num d).2 = 0

namespace EncodingState

/-- The element has a form that items can express. -/
def Formed (s : EncodingState) : Element → Prop
  | .attributes a => ∀ c ∈ a.clefs, c.terminal?.isSome = true
  | .note n => (∀ p ∈ n.pitch?, 0 ≤ p.octave ∧ p.octave ≤ 255) ∧
      (n.noteType = none → n.isMeasureRest = true)
  | .backup d | .forward d => Splits s.divisions d

/-- The element is written in full: it has a form that items can express, and its payloads lie in
the vocabulary. -/
structure Expressible (s : EncodingState) (e : Element) : Prop where
  formed : s.Formed e
  valid : ∀ item ∈ s.items e, ∀ t ∈ item.terminals, t.valid = true

theorem emitted_leadingEmissions {s : EncodingState} {n : Note}
    (h : ∀ p ∈ n.pitch?, 0 ≤ p.octave ∧ p.octave ≤ 255) :
    emitted (s.leadingEmissions n) = (s.fields n).leading := by
  have grace : emitted (graceEmissions n.grace) =
      flagged .grace n.grace.isSome ++ flagged .graceSlash (n.grace.elim false Grace.slash) := by
    cases n.grace with
    | none => rfl
    | some g => rw [graceEmissions, emitted_token, emitted_emitIf]; rfl
  have content : emitted (contentEmissions n.content) =
      valued (fun _ => Terminal.rest) (if n.isRest then some 0 else none) ++
        valued (fun p => .pitch p.1 p.2.1)
          (n.pitch?.map fun p => (p.step, p.octave.toNat, 0)) := by
    unfold Note.pitch? at h
    unfold Note.isRest Note.pitch?
    cases hc : n.content with
    | rest m => rfl
    | pitch p =>
      obtain ⟨low, high⟩ := h p (by rw [hc]; rfl)
      simp [contentEmissions, low, high, valued]
  rw [leadingEmissions, NoteFields.leading]
  simp only [emitted_append, emitted_emitIf, emitted_emitChanged, grace, content,
    List.flatten_cons, List.flatten_nil, List.append_nil, List.append_assoc, fields]

theorem emitted_trailingEmissions (s : EncodingState) (n : Note) :
    emitted (s.trailingEmissions n) = (s.fields n).trailing := by
  have tremolo : n.markings.tremolo.toList.flatMap
      (fun t => emitted [.token (.tremoloKind t.kind), .token (.tremoloMarks t.marks)]) =
      valued .tremoloKind (n.markings.tremolo.map Tremolo.kind) ++
        valued .tremoloMarks (n.markings.tremolo.map Tremolo.marks) := by
    cases n.markings.tremolo with
    | none => rfl
    | some t => rfl
  rw [trailingEmissions, NoteFields.trailing]
  simp only [markingEmissions, staffEmissions, emitted_append, emitted_emitIf, emitted_emitSome,
    emitted_emitChanged, emitted_faultIf, emitted_map_token, emitted_replicate, emitted_flatMap,
    tremolo, List.flatten_cons, List.flatten_nil, List.append_nil, List.nil_append,
    List.append_assoc, fields, List.map_map, Function.comp_def]

theorem emitted_lengthEmissions (s : EncodingState) (n : Note) :
    emitted (s.lengthEmissions n) = [] := by
  have duration : emitted (durationEmissions s.divisions s.fullMeasure n) = [] := by
    unfold durationEmissions
    split
    · rfl
    · split
      · exact emitted_faultIf ..
      · split
        · exact emitted_faultIf ..
        · rfl
  have chord : emitted (chordEmissions s.sticky n) = [] := by
    unfold chordEmissions
    split
    · rw [emitted_append, emitted_faultIf]
      split
      · exact emitted_faultIf ..
      · rfl
    · rfl
  rw [lengthEmissions, emitted_append, emitted_append, emitted_faultIf, duration, chord]
  rfl

theorem emitted_noteEmissions {s : EncodingState} {n : Note} (h : s.Formed (.note n)) :
    emitted (s.noteEmissions n) = (s.noteItem n).terminals := by
  have root : emitted (rootEmissions n) = [n.root] := by
    unfold rootEmissions Note.root
    cases hn : n.noteType with
    | none =>
      dsimp only
      rw [if_pos (h.2 hn)]
      rfl
    | some t => rfl
  rw [noteEmissions, emitted_append, emitted_append, emitted_append,
    emitted_leadingEmissions h.1, root, emitted_trailingEmissions, emitted_lengthEmissions,
    noteItem, Item.terminals_spelled, List.append_nil, List.append_assoc]
  rfl

theorem emitted_attributesEmissions {s : EncodingState} {a : Attributes} :
    emitted (s.attributesEmissions a) =
      (a.items (s.afterAttributes a).staves.isSome).flatMap Item.terminals := by
  have divisions : emitted (divisionsEmissions a.divisions) = [] := by
    unfold divisionsEmissions
    split
    · exact emitted_faultIf ..
    · rfl
  have key : emitted (emitSome (fun (k : KeySignature) => Terminal.key k.fifths) a.key) =
      (a.key.toList.map KeySignature.item).flatMap Item.terminals := by
    cases a.key with
    | none => rfl
    | some k => rfl
  have time : a.time.toList.flatMap
        (fun t => emitted (timeEmissions (s.afterAttributes a).divisions t)) =
      (a.time.toList.map TimeSignature.item).flatMap Item.terminals := by
    cases a.time with
    | none => rfl
    | some t => simp [timeEmissions, TimeSignature.item]
  rw [attributesEmissions, Attributes.items, clefEmissions]
  simp only [emitted_append, divisions, key, emitted_flatMap, time, emitted_map_fault,
    List.nil_append, List.flatMap_append, List.append_assoc]
  refine congrArg _ (congrArg _ ?_)
  rw [List.flatMap_map]
  refine congrArg (List.flatMap · _) (funext fun entry => ?_)
  rw [clefItem, Item.terminals_spelled, emitted_token, emitted_emitIf]
  rfl

theorem emitted_skipEmissions {divisions : Option Int} {duration : Rat}
    (h : Splits divisions duration) (marker : Terminal) :
    emitted (skipEmissions divisions marker duration) =
      (skipItems divisions marker duration).flatMap Item.terminals := by
  obtain ⟨d, rfl⟩ := Option.isSome_iff_exists.mp h.declared
  have sound : (duration.den ≠ 1 || duration ≤ 0) = false := by
    simp [h.whole, Rat.not_le.mpr h.positive]
  rw [skipEmissions, skipItems]
  simp only [sound, Bool.false_eq_true, if_false, emitted_append, emitted_flatMap,
    emitted_faultIf, List.append_nil, Option.elim_some, List.flatMap_map, Item.terminals_spelled]
  rfl

/-- What an element emits is the terminals of its items. -/
theorem emitted_emissions {s : EncodingState} {e : Element} (h : s.Formed e) :
    emitted (s.emissions e) = (s.items e).flatMap Item.terminals := by
  cases e with
  | attributes a => exact emitted_attributesEmissions
  | note n => rw [emissions, emitted_noteEmissions h, items, List.flatMap_singleton]
  | backup d =>
    rw [emissions, emitted_append, emitted_faultIf, List.append_nil]
    exact emitted_skipEmissions h .backup
  | forward d => exact emitted_skipEmissions h .forward

/-- What is written of an expressible element is the terminals of its items. -/
theorem filterMap_emissions {s : EncodingState} {e : Element} (h : s.Expressible e) :
    (s.emissions e).filterMap Emission.terminal? = (s.items e).flatMap Item.terminals := by
  rw [filterMap_terminal?, emitted_emissions h.formed, List.filter_eq_self]
  intro t ht
  obtain ⟨item, mem, ht⟩ := List.mem_flatMap.mp ht
  exact h.valid item mem t ht

end EncodingState

/-! ## Elements without faults -/

/-- The faults among emissions. -/
def faults (es : List Emission) : List ScoreFault := es.filterMap Emission.fault?

theorem faults_append (as bs : List Emission) :
    faults (as ++ bs) = faults as ++ faults bs := List.filterMap_append

theorem faults_append_eq_nil {as bs : List Emission} :
    faults (as ++ bs) = [] ↔ faults as = [] ∧ faults bs = [] := by
  rw [faults_append, List.append_eq_nil_iff]

theorem faults_faultIf_eq_nil {condition : Bool} {f : ScoreFault} :
    faults (faultIf condition f) = [] ↔ condition = false := by
  cases condition with
  | false => exact iff_of_true rfl rfl
  | true => exact iff_of_false (List.cons_ne_nil _ _) (Ne.symm Bool.false_ne_true)

/-- Where nothing is reported all terminals that are emitted are valid. -/
theorem valid_of_faults_eq_nil {es : List Emission} (h : faults es = []) :
    ∀ t ∈ emitted es, t.valid = true := by
  intro t ht
  obtain ⟨e, mem, eq⟩ := List.mem_filterMap.mp ht
  have none := List.filterMap_eq_nil_iff.mp h e mem
  cases e with
  | fault f => cases eq
  | token u =>
    cases eq
    by_contra invalid
    simp [Emission.fault?, invalid] at none

theorem splits_of_faults_eq_nil {divisions : Option Int} {marker : Terminal} {duration : Rat}
    (h : faults (skipEmissions divisions marker duration) = []) : Splits divisions duration := by
  cases divisions with
  | none => cases h
  | some d =>
    rw [skipEmissions] at h
    dsimp only at h
    split at h
    · cases h
    · rename_i sound
      rw [faults_append_eq_nil, faults_faultIf_eq_nil] at h
      simp only [ne_eq, Bool.or_eq_true, decide_eq_true_eq, not_or, Decidable.not_not,
        Rat.not_le] at sound
      exact ⟨rfl, sound.1, sound.2, fun _ hd => by cases hd; simpa using h.2⟩

namespace EncodingState

/-- The element emits no fault. -/
def Clean (s : EncodingState) (e : Element) : Prop := faults (s.emissions e) = []

theorem Clean.formed {s : EncodingState} {e : Element} (h : s.Clean e) : s.Formed e := by
  cases e with
  | attributes a =>
    intro c hc
    by_contra unknown
    have clefs := (faults_append_eq_nil.mp (faults_append_eq_nil.mp h).2).1
    have mem : Emission.fault (.clefSign c.sign) ∈
        (a.clefs.filter (·.terminal?.isNone)).map fun c => Emission.fault (.clefSign c.sign) :=
      List.mem_map.mpr ⟨c, List.mem_filter.mpr ⟨hc, by simpa using unknown⟩, rfl⟩
    exact absurd (List.filterMap_eq_nil_iff.mp clefs _ mem) (by simp [Emission.fault?])
  | note n =>
    rw [Clean, emissions, noteEmissions, faults_append_eq_nil, faults_append_eq_nil,
      faults_append_eq_nil] at h
    obtain ⟨⟨⟨leading, root⟩, -⟩, -⟩ := h
    rw [leadingEmissions, faults_append_eq_nil, faults_append_eq_nil] at leading
    constructor
    · intro p hp
      have content := leading.1.2
      unfold Note.pitch? at hp
      cases hc : n.content with
      | rest m => rw [hc] at hp; cases hp
      | pitch q =>
        rw [hc] at hp content
        cases hp
        rw [contentEmissions] at content
        split at content
        · rename_i range
          simpa using range
        · cases content
    · intro none
      rw [rootEmissions, none] at root
      by_contra other
      simp [other, faults, Emission.fault?] at root
  | backup d => exact splits_of_faults_eq_nil (faults_append_eq_nil.mp h).1
  | forward d => exact splits_of_faults_eq_nil h

/-- An element without faults is written in full. -/
theorem Clean.expressible {s : EncodingState} {e : Element} (h : s.Clean e) :
    s.Expressible e where
  formed := h.formed
  valid item mem t ht := by
    refine valid_of_faults_eq_nil h t ?_
    rw [emitted_emissions h.formed]
    exact List.mem_flatMap.mpr ⟨item, mem, ht⟩

end EncodingState

/-! ## Parts -/

section Along

variable (P : EncodingState → Element → Prop)

/-- The property holds of each element and the state in front of it. -/
def AlongElements (s : EncodingState) : List Element → Prop
  | [] => True
  | e :: es => P s e ∧ AlongElements (s.after e) es

/-- The property holds along each measure. -/
def AlongMeasures (s : EncodingState) : List Measure → Prop
  | [] => True
  | m :: ms => AlongElements P s.startMeasure m.elements ∧ AlongMeasures (s.afterMeasure m) ms

/-- The property holds of each element of the part and the state in front of it. -/
def Part.Along (p : Part) : Prop := AlongMeasures P {} p.measures

variable {P} {Q : EncodingState → Element → Prop}

theorem AlongElements.imp (h : ∀ s e, P s e → Q s e) {s : EncodingState} {es : List Element}
    (along : AlongElements P s es) : AlongElements Q s es := by
  induction es generalizing s with
  | nil => trivial
  | cons e es ih => exact ⟨h s e along.1, ih along.2⟩

theorem AlongMeasures.imp (h : ∀ s e, P s e → Q s e) {s : EncodingState} {ms : List Measure}
    (along : AlongMeasures P s ms) : AlongMeasures Q s ms := by
  induction ms generalizing s with
  | nil => trivial
  | cons m ms ih => exact ⟨along.1.imp h, ih along.2⟩

end Along

/-- The items of the elements of a measure. -/
def elementItems (s : EncodingState) : List Element → List Item
  | [] => []
  | e :: es => s.items e ++ elementItems (s.after e) es

/-- The items of each measure. -/
def measureItems (s : EncodingState) : List Measure → List (List Item)
  | [] => []
  | m :: ms => elementItems s.startMeasure m.elements :: measureItems (s.afterMeasure m) ms

/-- The stream of measures of items. -/
def streamOf (measures : List (List Item)) : List Terminal :=
  measures.flatMap fun items => .measure :: items.flatMap Item.terminals

theorem filterMap_elementEmissions {s : EncodingState} {es : List Element}
    (h : AlongElements EncodingState.Expressible s es) :
    (elementEmissions s es).filterMap Emission.terminal? =
      (elementItems s es).flatMap Item.terminals := by
  induction es generalizing s with
  | nil => rfl
  | cons e es ih =>
    rw [elementEmissions, elementItems, List.filterMap_append, List.flatMap_append,
      EncodingState.filterMap_emissions h.1, ih h.2]

/-- What is written of expressible measures is the stream of their items. -/
theorem value_encodeMeasures (part : String) {s : EncodingState} {ms : List Measure}
    (h : AlongMeasures EncodingState.Expressible s ms) :
    (encodeMeasures part s ms).value = streamOf (measureItems s ms) := by
  induction ms generalizing s with
  | nil => rfl
  | cons m ms ih =>
    rw [measureItems, streamOf, List.flatMap_cons, ← filterMap_elementEmissions h.1]
    exact congrArg (_ ++ ·) (ih h.2)

theorem valid_elementItems {s : EncodingState} {es : List Element}
    (h : AlongElements EncodingState.Expressible s es) :
    ∀ item ∈ elementItems s es, ∀ t ∈ item.terminals, t.valid = true := by
  induction es generalizing s with
  | nil => exact List.forall_mem_nil _
  | cons e es ih => exact List.forall_mem_append.mpr ⟨h.1.valid, ih h.2⟩

theorem valid_streamOf {s : EncodingState} {ms : List Measure}
    (h : AlongMeasures EncodingState.Expressible s ms) :
    ∀ t ∈ streamOf (measureItems s ms), t.valid = true := by
  induction ms generalizing s with
  | nil => exact List.forall_mem_nil _
  | cons m ms ih =>
    rw [measureItems, streamOf, List.flatMap_cons]
    refine List.forall_mem_append.mpr ⟨List.forall_mem_cons.mpr ⟨rfl, ?_⟩, ih h.2⟩
    intro t ht
    obtain ⟨item, mem, ht⟩ := List.mem_flatMap.mp ht
    exact valid_elementItems h.1 item mem t ht

/-- A part of which nothing is reported has no faults along its elements. -/
theorem along_of_diagnostics_eq_nil {p : Part} (h : p.encode.diagnostics = []) :
    p.Along EncodingState.Clean := by
  have elements (s : EncodingState) (es : List Element)
      (h : faults (elementEmissions s es) = []) :
      AlongElements EncodingState.Clean s es := by
    induction es generalizing s with
    | nil => trivial
    | cons e es ih =>
      obtain ⟨first, rest⟩ := faults_append_eq_nil.mp h
      exact ⟨first, ih _ rest⟩
  have measures (s : EncodingState) (ms : List Measure)
      (h : (encodeMeasures p.id s ms).diagnostics = []) :
      AlongMeasures EncodingState.Clean s ms := by
    induction ms generalizing s with
    | nil => trivial
    | cons m ms ih =>
      rw [encodeMeasures, Reported.diagnostics_bind, List.append_eq_nil_iff] at h
      obtain ⟨first, rest⟩ := h
      refine ⟨elements _ _ (List.map_eq_nil_iff.mp first), ih _ ?_⟩
      simpa using rest
  refine measures {} p.measures ?_
  rw [Part.encode, Reported.diagnostics_bind, List.append_eq_nil_iff] at h
  exact h.1

end LinearScore
