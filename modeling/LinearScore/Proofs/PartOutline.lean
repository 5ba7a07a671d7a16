import LinearScore.MusicXml.Writing
import LinearScore.Proofs.NumberText
import LinearScore.Proofs.OutlineEvents

/-!
# Parts that can be written

A part can be written if its numbers lie in the ranges of their fields, its clefs and beams stand in
the order in which they are read, and its texts come back from a document.  Then a document can
carry all names and texts of its outline.

## Main definitions

* `FieldText`: a text that an element gives back as it was written
* `Attributes.Writable`, `Note.Writable`, `Measure.Writable`, `Part.Writable`

The main statement is `Part.sound_outline`.
-/

namespace LinearScore

open Markup Markup.Outline
open Text (FitsByte FitsCount FitsSigned FitsLong FitsRatio isNumeral)

/-! ## Texts of elements -/

/-- A text that an element gives back as it was written. -/
structure FieldText (s : String) : Prop where
  nonempty : s ≠ ""
  trimmed : Text.trim s = s
  carried : CarriedText s

instance : DecidablePred FieldText := fun s =>
  decidable_of_iff (s ≠ "" ∧ Text.trim s = s ∧ CarriedText s)
    ⟨fun ⟨a, b, c⟩ => ⟨a, b, c⟩, fun h => ⟨h.nonempty, h.trimmed, h.carried⟩⟩

/-- A document can carry the characters of numbers everywhere. -/
theorem carriedValue_of_isNumeral {s : String} (h : ∀ c ∈ s.toList, isNumeral c = true) :
    CarriedValue s := by
  intro c hc
  have numeral := h c hc
  simp only [isNumeral, Bool.or_eq_true, decide_eq_true_eq] at numeral
  rcases numeral with (digit | rfl) | rfl
  · obtain ⟨least, greatest⟩ := Char.isDigit_iff_toNat.mp digit
    have low : 48 ≤ c.toNat := least
    have high : c.toNat ≤ 57 := greatest
    have apart (d : Char) (hd : d.toNat < 48) : c ≠ d := by
      rintro rfl
      exact absurd low (Nat.not_le_of_lt hd)
    have allowed : isAllowed c = true := by
      simp only [isAllowed]
      rw [if_neg (by omega), Bool.and_eq_true, decide_eq_true_eq, decide_eq_true_eq]
      omega
    exact ⟨allowed, apart '\r' (by decide), apart '\n' (by decide), apart '\t' (by decide)⟩
  · decide
  · decide

theorem Markup.CarriedValue.text {s : String} (h : CarriedValue s) : CarriedText s :=
  fun c hc => ⟨(h c hc).1, (h c hc).2.1⟩

theorem fieldText_of_isNumeral {s : String} (nonempty : s.toList ≠ [])
    (h : ∀ c ∈ s.toList, isNumeral c = true) : FieldText s where
  nonempty := by
    rintro rfl
    exact nonempty rfl
  trimmed := Text.trim_of_isNumeral h
  carried := (carriedValue_of_isNumeral h).text

theorem toList_toString_ne_nil (n : Int) : (toString n).toList ≠ [] := by
  rw [Text.toList_toString_int, Nat.toString_eq_repr, Nat.toList_repr]
  exact List.append_ne_nil_of_right_ne_nil _ Nat.toDigits_ne_nil

/-- The text of an integer. -/
theorem fieldText_int (n : Int) : FieldText (toString n) :=
  fieldText_of_isNumeral (toList_toString_ne_nil n) fun _ hc => Text.isNumeral_of_mem_toString hc

/-- The text of a natural number. -/
theorem fieldText_nat (n : Nat) : FieldText (toString n) := fieldText_int n

theorem carriedValue_int (n : Int) : CarriedValue (toString n) :=
  carriedValue_of_isNumeral fun _ hc => Text.isNumeral_of_mem_toString hc

theorem carriedValue_nat (n : Nat) : CarriedValue (toString n) := carriedValue_int n

/-- The text of a duration. -/
theorem fieldText_ratio (q : Rat) : FieldText (Text.ratio q) := by
  refine fieldText_of_isNumeral ?_ fun _ hc => Text.isNumeral_of_mem_ratio hc
  unfold Text.ratio
  split
  · exact toList_toString_ne_nil q.num
  · rw [String.toList_append, String.toList_append, List.append_assoc]
    exact List.append_ne_nil_of_left_ne_nil (toList_toString_ne_nil q.num) _

theorem fieldText_step (step : Step) : FieldText step.name := by
  cases step <;> decide

theorem fieldText_noteType (t : NoteType) : FieldText t.name := by
  cases t <;> decide

theorem fieldText_accidental (a : Accidental) : FieldText a.name := by
  cases a <;> decide

theorem fieldText_stem (s : Stem) : FieldText s.name := by
  cases s <;> decide

theorem fieldText_stroke (s : BeamStroke) : FieldText s.name := by
  cases s <;> decide

/-! ## What can be written -/

/-- The clef can be written. -/
structure Clef.Writable (c : Clef) : Prop where
  number : ∀ n ∈ c.number, FitsByte n
  sign : FieldText c.sign
  line : FitsSigned c.line

/-- The attributes can be written: their clefs ascend by staves. -/
structure Attributes.Writable (a : Attributes) : Prop where
  divisions : ∀ n ∈ a.divisions, FitsLong n
  key : ∀ k ∈ a.key, FitsSigned k.fifths
  time : ∀ t ∈ a.time, FitsCount t.beats ∧ FitsCount t.beatType
  staves : ∀ n ∈ a.staves, FitsByte n
  clefs : ∀ c ∈ a.clefs, c.Writable
  ascending : a.clefs.Pairwise fun c d => c.staff ≤ d.staff

/-- The note can be written: its beams ascend by numbers. -/
structure Note.Writable (n : Note) : Prop where
  pitch : ∀ p ∈ n.pitch?, FitsSigned p.octave ∧ FitsSigned p.alter
  duration : ∀ d ∈ n.duration, FitsRatio d
  voice : ∀ v ∈ n.voice, FitsByte v
  dots : FitsByte n.dots
  ratio : ∀ r ∈ n.ratio, FitsCount r.actual ∧ FitsCount r.normal
  staff : ∀ s ∈ n.staff, FitsByte s
  beams : ∀ b ∈ n.beams, FitsByte b.number
  tremolo : ∀ t ∈ n.markings.tremolo, FitsByte t.marks
  ascending : n.beams.Pairwise fun a b => a.number ≤ b.number

/-- The element can be written. -/
def Element.Writable : Element → Prop
  | .attributes a => a.Writable
  | .note n => n.Writable
  | .backup d => FitsRatio d
  | .forward d => FitsRatio d

/-- The measure can be written: it starts a system or a page, but is not marked as both. -/
structure Measure.Writable (m : Measure) : Prop where
  number : FitsSigned m.number
  breaks : ¬ (m.newSystem = true ∧ m.newPage = true)
  elements : ∀ e ∈ m.elements, e.Writable

/-- The part can be written. -/
structure Part.Writable (p : Part) : Prop where
  id : CarriedValue p.id
  measures : ∀ m ∈ p.measures, m.Writable

section Decidable

instance : DecidablePred Clef.Writable := fun c =>
  decidable_of_iff ((∀ n ∈ c.number, FitsByte n) ∧ FieldText c.sign ∧ FitsSigned c.line)
    ⟨fun ⟨a, b, c⟩ => ⟨a, b, c⟩, fun h => ⟨h.number, h.sign, h.line⟩⟩

instance : DecidablePred Attributes.Writable := fun a =>
  decidable_of_iff
    ((∀ n ∈ a.divisions, FitsLong n) ∧ (∀ k ∈ a.key, FitsSigned k.fifths) ∧
      (∀ t ∈ a.time, FitsCount t.beats ∧ FitsCount t.beatType) ∧ (∀ n ∈ a.staves, FitsByte n) ∧
      (∀ c ∈ a.clefs, c.Writable) ∧ a.clefs.Pairwise fun c d => c.staff ≤ d.staff)
    ⟨fun ⟨a, b, c, d, e, f⟩ => ⟨a, b, c, d, e, f⟩,
      fun h => ⟨h.divisions, h.key, h.time, h.staves, h.clefs, h.ascending⟩⟩

instance : DecidablePred Note.Writable := fun n =>
  decidable_of_iff
    ((∀ p ∈ n.pitch?, FitsSigned p.octave ∧ FitsSigned p.alter) ∧
      (∀ d ∈ n.duration, FitsRatio d) ∧ (∀ v ∈ n.voice, FitsByte v) ∧ FitsByte n.dots ∧
      (∀ r ∈ n.ratio, FitsCount r.actual ∧ FitsCount r.normal) ∧ (∀ s ∈ n.staff, FitsByte s) ∧
      (∀ b ∈ n.beams, FitsByte b.number) ∧ (∀ t ∈ n.markings.tremolo, FitsByte t.marks) ∧
      n.beams.Pairwise fun a b => a.number ≤ b.number)
    ⟨fun ⟨a, b, c, d, e, f, g, h, i⟩ => ⟨a, b, c, d, e, f, g, h, i⟩,
      fun h => ⟨h.pitch, h.duration, h.voice, h.dots, h.ratio, h.staff, h.beams, h.tremolo,
        h.ascending⟩⟩

instance : DecidablePred Element.Writable := fun e =>
  match e with
  | .attributes a => inferInstanceAs (Decidable a.Writable)
  | .note n => inferInstanceAs (Decidable n.Writable)
  | .backup d => inferInstanceAs (Decidable (FitsRatio d))
  | .forward d => inferInstanceAs (Decidable (FitsRatio d))

instance : DecidablePred Measure.Writable := fun m =>
  decidable_of_iff (FitsSigned m.number ∧ ¬ (m.newSystem = true ∧ m.newPage = true) ∧
      ∀ e ∈ m.elements, e.Writable)
    ⟨fun ⟨a, b, c⟩ => ⟨a, b, c⟩, fun h => ⟨h.number, h.breaks, h.elements⟩⟩

instance : DecidablePred Part.Writable := fun p =>
  decidable_of_iff (CarriedValue p.id ∧ ∀ m ∈ p.measures, m.Writable)
    ⟨fun ⟨a, b⟩ => ⟨a, b⟩, fun h => ⟨h.id, h.measures⟩⟩

end Decidable

/-! ## Tags and lists of elements -/

namespace Markup

theorem SoundTag.bare {name : String} (h : PlainName name) : SoundTag name [] where
  name := h
  names := nofun
  values := nofun
  distinct := List.nodup_nil

/-- One more attribute of another name. -/
theorem SoundTag.cons {name key value : String} {attributes : List (String × String)}
    (h : SoundTag name attributes) (plain : PlainName key ∧ key ≠ "xmlns")
    (carried : CarriedValue value) (new : key ∉ attributes.map Prod.fst) :
    SoundTag name ((key, value) :: attributes) where
  name := h.name
  names := List.forall_mem_cons.mpr ⟨plain, h.names⟩
  values := List.forall_mem_cons.mpr ⟨carried, h.values⟩
  distinct := List.nodup_cons.mpr ⟨new, h.distinct⟩

theorem SoundTag.single {name key value : String} (h : PlainName name)
    (plain : PlainName key ∧ key ≠ "xmlns") (carried : CarriedValue value) :
    SoundTag name [(key, value)] :=
  (SoundTag.bare h).cons plain carried List.not_mem_nil

namespace Outline

variable {α : Type} {es : List Outline} {e : Outline}

theorem sound_field {name s : String} (h : PlainName name) (text : FieldText s) :
    (field name s).Sound := ⟨.bare h, text.carried⟩

theorem sound_block {name : String} {attributes : List (String × String)}
    (tag : SoundTag name attributes) (h : ∀ e ∈ es, e.Sound) : (block name attributes es).Sound :=
  ⟨tag, allSound_iff.mpr h⟩

theorem sound_singleton (h : e.Sound) : ∀ x ∈ [e], x.Sound := List.forall_mem_singleton.mpr h

theorem sound_onlyIf (condition : Bool) (h : e.Sound) : ∀ x ∈ onlyIf condition e, x.Sound := by
  cases condition with
  | false => exact List.forall_mem_nil _
  | true => exact sound_singleton h

theorem sound_ofOption {build : α → Outline} {value : Option α}
    (h : ∀ a ∈ value, (build a).Sound) : ∀ e ∈ ofOption build value, e.Sound := by
  cases value with
  | none => exact List.forall_mem_nil _
  | some a => exact sound_singleton (h a rfl)

theorem sound_map {build : α → Outline} {as : List α} (h : ∀ a ∈ as, (build a).Sound) :
    ∀ e ∈ as.map build, e.Sound :=
  List.forall_mem_map.mpr h

theorem sound_replicate (n : Nat) (h : e.Sound) : ∀ x ∈ List.replicate n e, x.Sound := by
  intro x mem
  rwa [List.eq_of_mem_replicate mem]

end Outline

end Markup

/-! ## The outline of a part -/

theorem Clef.sound_outline {c : Clef} (h : c.Writable) : c.outline.Sound := by
  have tag : SoundTag "clef" (c.number.toList.map fun n => ("number", toString n)) := by
    cases c.number with
    | none => exact .bare rfl
    | some n => exact .single rfl (by decide) (carriedValue_nat n)
  exact ⟨tag, sound_field rfl h.sign, sound_field rfl (fieldText_int c.line), trivial⟩

theorem Attributes.sound_outline {a : Attributes} (h : a.Writable) : a.outline.Sound := by
  refine sound_block (.bare rfl) ?_
  simp only [List.forall_mem_append, and_assoc]
  refine ⟨?divisions, ?key, ?time, ?staves, ?clefs⟩
  case divisions => exact sound_ofOption fun n _ => sound_field rfl (fieldText_int n)
  case key =>
    exact sound_ofOption fun k _ =>
      sound_block (.bare rfl) (sound_singleton (sound_field rfl (fieldText_int k.fifths)))
  case time =>
    exact sound_ofOption fun t _ =>
      ⟨.bare rfl, sound_field rfl (fieldText_nat t.beats),
        sound_field rfl (fieldText_nat t.beatType), trivial⟩
  case staves => exact sound_ofOption fun n _ => sound_field rfl (fieldText_nat n)
  case clefs => exact sound_map fun c hc => c.sound_outline (h.clefs c hc)

/-- An element without content and attributes. -/
theorem sound_empty {name : String} (h : PlainName name) : (empty name []).Sound := .bare h

theorem StartStop.carriedValue_name (e : StartStop) : CarriedValue e.name := by
  cases e <;> decide

theorem TremoloKind.carriedValue_name (k : TremoloKind) : CarriedValue k.name := by
  cases k <;> decide

theorem sound_endMark {name : String} (h : PlainName name) (e : StartStop) :
    (endMark name e).Sound :=
  .single h (by decide) e.carriedValue_name

/-- One attribute under a condition. -/
theorem soundTag_flag {name key value : String} (h : PlainName name)
    (plain : PlainName key ∧ key ≠ "xmlns") (carried : CarriedValue value) (flag : Bool) :
    SoundTag name (if flag then [(key, value)] else []) := by
  cases flag with
  | false => exact .bare h
  | true => exact .single h plain carried

theorem Pitch.sound_outline (p : Pitch) : p.outline.Sound := by
  refine sound_block (.bare rfl) ?_
  rw [List.cons_append, List.forall_mem_cons, List.forall_mem_append]
  refine ⟨?step, ?alter, ?octave⟩
  case step => exact sound_field rfl (fieldText_step p.step)
  case alter => exact sound_onlyIf _ (sound_field rfl (fieldText_int p.alter))
  case octave => exact sound_singleton (sound_field rfl (fieldText_int p.octave))

theorem NoteContent.sound_outline (content : NoteContent) : content.outline.Sound := by
  cases content with
  | pitch p => exact p.sound_outline
  | rest measure => exact soundTag_flag (by decide) (by decide) (by decide) measure

theorem Tremolo.sound_outline (t : Tremolo) : t.outline.Sound :=
  ⟨.single rfl (by decide) t.kind.carriedValue_name, (fieldText_nat t.marks).carried⟩

namespace Markings

variable (m : Markings)

theorem sound_ornaments : ∀ e ∈ m.ornaments, e.Sound := by
  refine sound_onlyIf _ (sound_block (.bare rfl) ?_)
  rw [List.forall_mem_append]
  refine ⟨?trillMark, ?tremolo⟩
  case trillMark => exact sound_onlyIf _ (sound_empty rfl)
  case tremolo => exact sound_ofOption fun t _ => t.sound_outline

theorem sound_articulations : ∀ e ∈ m.articulations, e.Sound := by
  refine sound_onlyIf _ (sound_block (.bare rfl) ?_)
  simp only [List.forall_mem_append, and_assoc]
  refine ⟨?accent, ?strongAccent, ?staccato, ?tenuto⟩
  case accent => exact sound_onlyIf _ (sound_empty rfl)
  case strongAccent => exact sound_onlyIf _ (sound_empty rfl)
  case staccato => exact sound_onlyIf _ (sound_empty rfl)
  case tenuto => exact sound_onlyIf _ (sound_empty rfl)

theorem sound_outline (ties : List StartStop) : (m.outline ties).Sound := by
  refine sound_block (.bare rfl) ?_
  simp only [List.forall_mem_append, and_assoc]
  refine ⟨?ties, ?slurs, ?tuplets, m.sound_ornaments, m.sound_articulations, ?fermata, ?arpeggiate⟩
  case ties => exact sound_map fun e _ => sound_endMark (by decide) e
  case slurs => exact sound_map fun e _ => sound_endMark (by decide) e
  case tuplets => exact sound_map fun e _ => sound_endMark (by decide) e
  case fermata => exact sound_onlyIf _ (sound_empty rfl)
  case arpeggiate => exact sound_onlyIf _ (sound_empty rfl)

end Markings

theorem Beam.sound_outline (b : Beam) : b.outline.Sound :=
  ⟨.single rfl (by decide) (carriedValue_nat b.number), (fieldText_stroke b.stroke).carried⟩

theorem TupletRatio.sound_outline (r : TupletRatio) : r.outline.Sound :=
  ⟨.bare rfl, sound_field rfl (fieldText_nat r.actual), sound_field rfl (fieldText_nat r.normal),
    trivial⟩

theorem Note.sound_outline (n : Note) : n.outline.Sound := by
  have tag : SoundTag "note" (if n.printed then [] else [("print-object", "no")]) := by
    cases n.printed with
    | false => exact .single rfl (by decide) (by decide)
    | true => exact .bare rfl
  refine sound_block tag ?_
  simp only [List.forall_mem_append, and_assoc]
  refine ⟨?grace, ?chord, ?content, ?duration, ?ties, ?voice, ?noteType, ?dots, ?accidental, ?ratio,
    ?stem, ?staff, ?beams, ?notations⟩
  case grace =>
    exact sound_ofOption fun g _ => soundTag_flag (by decide) (by decide) (by decide) g.slash
  case chord => exact sound_onlyIf _ (sound_empty rfl)
  case content => exact sound_singleton n.content.sound_outline
  case duration => exact sound_ofOption fun d _ => sound_field rfl (fieldText_ratio d)
  case ties => exact sound_map fun e _ => sound_endMark (by decide) e
  case voice => exact sound_ofOption fun v _ => sound_field rfl (fieldText_nat v)
  case noteType => exact sound_ofOption fun t _ => sound_field rfl (fieldText_noteType t)
  case dots => exact sound_replicate _ (sound_empty rfl)
  case accidental => exact sound_ofOption fun a _ => sound_field rfl (fieldText_accidental a)
  case ratio => exact sound_ofOption fun r _ => r.sound_outline
  case stem => exact sound_ofOption fun s _ => sound_field rfl (fieldText_stem s)
  case staff => exact sound_ofOption fun s _ => sound_field rfl (fieldText_nat s)
  case beams => exact sound_map fun b _ => b.sound_outline
  case notations => exact sound_onlyIf _ (n.markings.sound_outline n.ties)

theorem Element.sound_outline {e : Element} (h : e.Writable) : e.outline.Sound := by
  have skip {name : String} (plain : PlainName name) (d : Rat) :
      (block name [] [durationField d]).Sound :=
    sound_block (.bare plain) (sound_singleton (sound_field rfl (fieldText_ratio d)))
  cases e with
  | attributes a => exact a.sound_outline h
  | note n => exact n.sound_outline
  | backup d => exact skip (by decide) d
  | forward d => exact skip (by decide) d

theorem Measure.sound_outline {m : Measure} (h : m.Writable) : m.outline.Sound := by
  have implicit : SoundTag "measure" (if m.implicit then [("implicit", "yes")] else []) :=
    soundTag_flag (by decide) (by decide) (by decide) m.implicit
  have tag : SoundTag "measure" (("number", toString m.number) ::
      if m.implicit then [("implicit", "yes")] else []) := by
    refine implicit.cons (by decide) (carriedValue_int m.number) ?_
    cases m.implicit <;> decide
  have breaks : ∀ e ∈ m.breakOutline, e.Sound := by
    unfold breakOutline
    split
    · exact sound_singleton (.single rfl (by decide) (by decide))
    · exact sound_onlyIf _ (.single rfl (by decide) (by decide))
  refine sound_block tag (List.forall_mem_append.mpr ⟨breaks, ?_⟩)
  exact sound_map fun e he => e.sound_outline (h.elements e he)

/-- **A document can carry all names and texts of a part that can be written.** -/
theorem Part.sound_outline {p : Part} (h : p.Writable) : p.outline.Sound :=
  sound_block (.single rfl (by decide) h.id)
    (sound_map fun m hm => m.sound_outline (h.measures m hm))

end LinearScore
