import LinearScore.MusicXml.Reading
import LinearScore.Proofs.Legible
import LinearScore.Proofs.ListedOrder
import LinearScore.Proofs.PartOutline

/-!
# What a reader lets into a score

Numbers are only taken in the ranges of their fields, the blanks at the ends of texts are cut off,
dots are counted up to a limit, and clefs and beams are sorted.  A part that is announced or found
again under an identifier that is taken stays without measures, since all measures go to the first
part of that identifier.

## Main definitions

* `Clef.Readable`, `Attributes.Readable`, `Note.Readable`: values in the ranges of their fields
* `Element.Readable`: such values in order
* `Score.Readable`: what can be said of every score that is read

The main statement is `readable_of_readScore`.
-/

namespace LinearScore

open Markup (Tree)
open Text (FitsByte FitsCount FitsSigned FitsLong)

variable {α β σ : Type}

/-! ## Texts and numbers -/

namespace Text

theorem not_isBlank_head_trimLeft (cs : List Char) :
    ∀ c ∈ (trimLeft cs).head?, isBlank c = false := by
  intro c hc
  have first := List.head?_dropWhile_not isBlank cs
  rw [trimLeft] at hc
  rw [Option.mem_def.mp hc] at first
  exact first

/-- A trimmed text has no blanks at its ends. -/
theorem trim_trim (s : String) : trim (trim s) = trim s := by
  apply trim_eq_self
  · intro c hc
    rw [trim, String.toList_ofList] at hc
    -- what is cut off at the end leaves the beginning
    obtain ⟨rest, eq⟩ : trimRight (trimLeft s.toList) <+: trimLeft s.toList := by
      rw [← List.reverse_suffix, trimRight, List.reverse_reverse]
      exact List.dropWhile_suffix isBlank
    refine not_isBlank_head_trimLeft s.toList c ?_
    rw [← eq, List.head?_append, Option.mem_def.mp hc]
    rfl
  · intro c hc
    rw [trim, String.toList_ofList, trimRight, List.getLast?_reverse] at hc
    exact not_isBlank_head_trimLeft _ c hc

theorem le_of_readNat {max n : Nat} {s : String} (h : n ∈ readNat max s) : n ≤ max :=
  of_decide_eq_true (Option.filter_eq_some_iff.mp h).2

theorem fits_of_readInt {min max n : Int} {s : String} (h : n ∈ readInt min max s) :
    min ≤ n ∧ n ≤ max := by
  have fits := (Option.filter_eq_some_iff.mp h).2
  rw [Bool.and_eq_true, decide_eq_true_eq, decide_eq_true_eq] at fits
  exact fits

theorem fitsByte_of_readByte (s : String) : ∀ n ∈ readByte s, FitsByte n :=
  fun _ h => le_of_readNat h

theorem fitsCount_of_readCount (s : String) : ∀ n ∈ readCount s, FitsCount n :=
  fun _ h => le_of_readNat h

theorem fitsSigned_of_readSigned (s : String) : ∀ n ∈ readSigned s, FitsSigned n :=
  fun _ h => fits_of_readInt h

theorem fitsLong_of_readLong (s : String) : ∀ n ∈ readLong s, FitsLong n :=
  fun _ h => fits_of_readInt h

/-- Whole numbers beyond the range of a signed number are clamped to it. -/
theorem fitsSigned_of_readWhole (s : String) : ∀ n ∈ readWhole s, FitsSigned n := by
  intro n h
  obtain ⟨x, -, h⟩ := Option.bind_eq_some_iff.mp h
  obtain ⟨k, -, h⟩ := Option.bind_eq_some_iff.mp h
  obtain rfl := Option.some.inj h
  constructor
  · exact Int.le_max_left _ _
  · exact Int.max_le.mpr ⟨by decide, Int.min_le_left _ _⟩

end Text

/-! ## Values that may be absent -/

/-- What a reader takes has the property that all it takes has. -/
theorem forall_mem_bind {P : β → Prop} {read : α → Option β} (h : ∀ a, ∀ b ∈ read a, P b)
    (value : Option α) : ∀ b ∈ value.bind read, P b := by
  intro b hb
  obtain ⟨a, -, hb⟩ := Option.bind_eq_some_iff.mp hb
  exact h a b hb

theorem getD_of_forall_mem {P : α → Prop} {value : Option α} {default : α}
    (h : ∀ a ∈ value, P a) (absent : P default) : P (value.getD default) := by
  cases value with
  | none => exact absent
  | some a => exact h a rfl

/-- A value of a child has the property that all values have. -/
theorem forall_mem_childValue? {P : α → Prop} {read : String → Option α}
    (h : ∀ s, ∀ a ∈ read s, P a) (t : Tree) (name : String) :
    ∀ a ∈ t.childValue? read name, P a :=
  forall_mem_bind (fun child : Tree => forall_mem_bind h child.trimmed?) (t.child? name)

/-- The text of an element has no blanks at its ends. -/
theorem trim_of_mem_trimmed? (t : Tree) : ∀ s ∈ t.trimmed?, Text.trim s = s := by
  intro s hs
  obtain ⟨text, -, rfl⟩ := Option.map_eq_some_iff.mp hs
  exact Text.trim_trim text

/-- A value is taken over, or the old one stays. -/
theorem takeOr_keeps {P : β → Prop} {measure : Int} {fault : MeasureFault} {old : β}
    {put : α → β} {value : Option α} (absent : P old) (h : ∀ a ∈ value, P (put a)) :
    P (takeOr measure fault old put value).value := by
  cases value with
  | none => exact absent
  | some a => exact h a rfl

/-! ## Attributes -/

/-- The numbers of a clef lie in their ranges, and its sign has no blanks at its ends. -/
structure Clef.Readable (c : Clef) : Prop where
  number : ∀ n ∈ c.number, FitsByte n
  sign : Text.trim c.sign = c.sign
  line : FitsSigned c.line

/-- The values of attributes lie in their ranges. -/
structure Attributes.Readable (a : Attributes) : Prop where
  divisions : ∀ n ∈ a.divisions, FitsLong n
  key : ∀ k ∈ a.key, FitsSigned k.fifths
  time : ∀ t ∈ a.time, FitsCount t.beats ∧ FitsCount t.beatType
  staves : ∀ n ∈ a.staves, FitsByte n
  clefs : ∀ c ∈ a.clefs, c.Readable

theorem readable_readClef (t : Tree) : (readClef t).Readable := by
  have treble : Text.trim "G" = "G" := by decide
  have second : FitsSigned 2 := by decide
  refine List.foldlRecOn t.children readClefChild ?_ ?_
  · exact ⟨forall_mem_bind Text.fitsByte_of_readByte _, treble, second⟩
  · intro c h child _
    unfold readClefChild
    split
    · refine ⟨h.number, ?_, h.line⟩
      exact getD_of_forall_mem (P := fun s => Text.trim s = s) (trim_of_mem_trimmed? child) treble
    · exact ⟨h.number, h.sign,
        getD_of_forall_mem (forall_mem_bind Text.fitsSigned_of_readSigned _) second⟩
    · exact h

theorem readable_readTime (t : Tree) :
    ∀ time ∈ readTime t, FitsCount time.beats ∧ FitsCount time.beatType := by
  intro time h
  obtain ⟨beats, hbeats, h⟩ := Option.bind_eq_some_iff.mp h
  obtain ⟨beatType, hbeatType, h⟩ := Option.bind_eq_some_iff.mp h
  obtain rfl := Option.some.inj h
  exact ⟨forall_mem_childValue? Text.fitsCount_of_readCount t _ _ hbeats,
    forall_mem_childValue? Text.fitsCount_of_readCount t _ _ hbeatType⟩

theorem readable_readAttributesChild (measure : Int) {a : Attributes} (h : a.Readable)
    (child : Tree) : (readAttributesChild measure a child).value.Readable := by
  unfold readAttributesChild
  split
  · exact ⟨forall_mem_bind Text.fitsLong_of_readLong _, h.key, h.time, h.staves, h.clefs⟩
  · refine ⟨h.divisions, ?_, h.time, h.staves, h.clefs⟩
    rintro k ⟨⟩
    exact getD_of_forall_mem (forall_mem_childValue? Text.fitsSigned_of_readSigned child _)
      (by decide)
  · refine takeOr_keeps h fun time ht => ⟨h.divisions, h.key, ?_, h.staves, h.clefs⟩
    rintro _ ⟨⟩
    exact readable_readTime child time ht
  · exact ⟨h.divisions, h.key, h.time, forall_mem_bind Text.fitsByte_of_readByte _, h.clefs⟩
  · refine ⟨h.divisions, h.key, h.time, h.staves, List.forall_mem_append.mpr ⟨h.clefs, ?_⟩⟩
    exact List.forall_mem_singleton.mpr (readable_readClef child)
  · -- an element that is passed over or reported changes nothing
    dsimp only
    split <;> exact h

/-- The attributes that are read list their clefs by ascending staves. -/
theorem readable_readAttributes (measure : Int) (t : Tree) :
    (readAttributes measure t).value.Readable ∧
      (readAttributes measure t).value.clefs.Pairwise fun c d => c.staff ≤ d.staff := by
  have empty : ({} : Attributes).Readable :=
    ⟨forall_mem_none, forall_mem_none, forall_mem_none, forall_mem_none, List.forall_mem_nil _⟩
  have read : (t.children.foldlM (readAttributesChild measure) {}).value.Readable :=
    foldlM_invariant (I := Attributes.Readable)
      (fun a child _ h => readable_readAttributesChild measure h child) empty
  refine ⟨⟨read.divisions, read.key, read.time, read.staves, ?_⟩, ?_⟩
  · intro c hc
    exact read.clefs c (List.mem_mergeSort.mp hc)
  · exact pairwise_mergeSort_key Clef.staff _

/-! ## Notes -/

/-- The numbers of a note lie in their ranges; of its duration nothing is said. -/
structure Note.Readable (n : Note) : Prop where
  pitch : ∀ p ∈ n.pitch?, FitsSigned p.octave ∧ FitsSigned p.alter
  voice : ∀ v ∈ n.voice, FitsByte v
  dots : FitsByte n.dots
  ratio : ∀ r ∈ n.ratio, FitsCount r.actual ∧ FitsCount r.normal
  staff : ∀ s ∈ n.staff, FitsByte s
  beams : ∀ b ∈ n.beams, FitsByte b.number
  tremolo : ∀ t ∈ n.markings.tremolo, FitsByte t.marks

theorem readable_readPitch (measure : Int) (t : Tree) :
    FitsSigned (readPitch measure t).value.octave ∧
      FitsSigned (readPitch measure t).value.alter := by
  let fits (p : Pitch) : Prop := FitsSigned p.octave ∧ FitsSigned p.alter
  refine foldlM_invariant (I := fits) (fun p child _ h => ?_) ⟨by decide, by decide⟩
  unfold readPitchChild
  dsimp only
  split
  · exact takeOr_keeps (P := fits) h fun step _ => h
  · exact ⟨getD_of_forall_mem (forall_mem_bind Text.fitsSigned_of_readSigned _) (by decide), h.2⟩
  · exact takeOr_keeps (P := fits) h fun alter halter =>
      ⟨h.1, Text.fitsSigned_of_readWhole _ alter halter⟩
  · exact h

/-- The marks of a tremolo fit into a byte. -/
def Markings.Readable (m : Markings) : Prop := ∀ t ∈ m.tremolo, FitsByte t.marks

theorem readable_addOrnament {m : Markings} (h : m.Readable) (child : Tree) :
    (addOrnament m child).Readable := by
  unfold addOrnament
  split
  · rintro _ ⟨⟩
    exact getD_of_forall_mem (forall_mem_bind Text.fitsByte_of_readByte _) (by decide)
  · exact h
  · exact h

theorem readable_addArticulation {m : Markings} (h : m.Readable) (child : Tree) :
    (addArticulation m child).Readable := by
  unfold addArticulation
  split
  all_goals exact h

theorem readable_addMarking {s : List StartStop × Markings} (h : s.2.Readable) (child : Tree) :
    (addMarking s child).2.Readable := by
  unfold addMarking
  dsimp only
  split
  case h_6 =>
    exact List.foldlRecOn child.children addArticulation h
      fun m hm child _ => readable_addArticulation hm child
  case h_7 =>
    exact List.foldlRecOn child.children addOrnament h
      fun m hm child _ => readable_addOrnament hm child
  all_goals exact h

theorem readable_readRatio (t : Tree) :
    ∀ r ∈ NoteDraft.readRatio t, FitsCount r.actual ∧ FitsCount r.normal := by
  intro r h
  obtain ⟨actual, hactual, h⟩ := Option.bind_eq_some_iff.mp h
  obtain ⟨normal, hnormal, h⟩ := Option.bind_eq_some_iff.mp h
  obtain rfl := Option.some.inj h
  exact ⟨forall_mem_childValue? Text.fitsCount_of_readCount t _ _ hactual,
    forall_mem_childValue? Text.fitsCount_of_readCount t _ _ hnormal⟩

/-- Each child of a note keeps its numbers in their ranges. -/
theorem readable_addChild (measure : Int) {d : NoteDraft} (h : d.note.Readable) (child : Tree) :
    (NoteDraft.addChild measure d child).value.note.Readable := by
  unfold NoteDraft.addChild
  dsimp only
  split
  case h_1 => exact { h with }
  case h_2 => exact { h with }
  case h_3 =>
    -- the pitch of the child
    refine { h with pitch := ?_ }
    rintro _ ⟨⟩
    exact readable_readPitch measure child
  case h_4 => exact { h with pitch := forall_mem_none }
  case h_5 => exact h
  case h_6 => exact { h with }
  case h_7 => exact h
  case h_8 =>
    refine takeOr_keeps (P := fun d : NoteDraft => d.note.Readable) h fun v hv => ?_
    refine { h with voice := ?_ }
    rintro _ ⟨⟩
    exact Text.fitsByte_of_readByte _ v hv
  case h_9 =>
    exact takeOr_keeps (P := fun d : NoteDraft => d.note.Readable) h fun t _ => { h with }
  case h_10 => exact { h with dots := Nat.min_le_left _ _ }
  case h_11 =>
    exact takeOr_keeps (P := fun d : NoteDraft => d.note.Readable) h fun a _ => { h with }
  case h_12 => exact { h with ratio := forall_mem_or (readable_readRatio child) h.ratio }
  case h_13 =>
    exact takeOr_keeps (P := fun d : NoteDraft => d.note.Readable) h fun s _ => { h with }
  case h_14 => exact { h with staff := forall_mem_bind Text.fitsByte_of_readByte _ }
  case h_15 =>
    refine takeOr_keeps (P := fun d : NoteDraft => d.note.Readable) h fun stroke _ => ?_
    refine { h with beams := List.forall_mem_append.mpr ⟨h.beams, ?_⟩ }
    refine List.forall_mem_singleton.mpr ?_
    exact getD_of_forall_mem (forall_mem_bind Text.fitsByte_of_readByte _) (by decide)
  case h_16 =>
    refine { h with tremolo := ?_ }
    have old : Markings.Readable (d.note.ties, d.note.markings).2 := h.tremolo
    exact List.foldlRecOn (motive := fun s => s.2.Readable) child.children addMarking old
      fun s hs child _ => readable_addMarking hs child
  case h_17 => exact h

/-- The note that is read lists its beams by ascending numbers. -/
theorem readable_readNote (measure : Int) (t : Tree) :
    (readNote measure t).value.Readable ∧
      (readNote measure t).value.beams.Pairwise fun a b => a.number ≤ b.number := by
  let draft : NoteDraft := { note := { printed := !t.attributeIs "print-object" "no" } }
  have start : draft.note.Readable :=
    ⟨forall_mem_none, forall_mem_none, Nat.zero_le _, forall_mem_none, forall_mem_none,
      List.forall_mem_nil _, forall_mem_none⟩
  obtain ⟨d, hd⟩ : ∃ d, d = (t.children.foldlM (NoteDraft.addChild measure) draft).value :=
    ⟨_, rfl⟩
  have read : d.note.Readable := by
    rw [hd]
    exact foldlM_invariant (I := fun d : NoteDraft => d.note.Readable)
      (fun d child _ h => readable_addChild measure h child) start
  have finished : (readNote measure t).value = d.finish := by
    rw [hd, readNote, Reported.value_bind]
    dsimp only
    split <;> rfl
  rw [finished]
  refine ⟨{ read with beams := ?_ }, pairwise_mergeSort_key Beam.number _⟩
  intro b hb
  exact read.beams b (List.mem_mergeSort.mp hb)

/-! ## Measures -/

/-- The numbers of an element lie in their ranges, and its clefs or beams ascend.  Of durations
nothing is said. -/
def Element.Readable : Element → Prop
  | .attributes a => a.Readable ∧ a.clefs.Pairwise fun c d => c.staff ≤ d.staff
  | .note n => n.Readable ∧ n.beams.Pairwise fun a b => a.number ≤ b.number
  | .backup _ => True
  | .forward _ => True

/-- The numbers of a measure and of its elements lie in their ranges. -/
structure Measure.Readable (m : Measure) : Prop where
  number : FitsSigned m.number
  elements : ∀ e ∈ m.elements, e.Readable

theorem Measure.Readable.add {m : Measure} (h : m.Readable) {e : Element} (he : e.Readable) :
    Measure.Readable { m with elements := m.elements ++ [e] } :=
  ⟨h.number, List.forall_mem_append.mpr ⟨h.elements, List.forall_mem_singleton.mpr he⟩⟩

theorem readable_readMeasureChild {m : Measure} (h : m.Readable) (child : Tree) :
    (readMeasureChild m child).value.Readable := by
  unfold readMeasureChild
  dsimp only
  split
  · exact h.add (readable_readAttributes m.number child)
  · exact h.add (readable_readNote m.number child)
  · exact h.add trivial
  · exact h.add trivial
  · exact ⟨h.number, h.elements⟩
  · split <;> exact h

theorem readable_readMeasure (t : Tree) : (readMeasure t).value.Readable := by
  refine foldlM_invariant (I := Measure.Readable)
    (fun m child _ h => readable_readMeasureChild h child) ⟨?_, List.forall_mem_nil _⟩
  exact getD_of_forall_mem (forall_mem_bind Text.fitsSigned_of_readSigned _) ⟨by decide, by decide⟩

theorem readable_readMeasures (ts : List Tree) : ∀ m ∈ (readMeasures ts).value, m.Readable := by
  induction ts with
  | nil => exact List.forall_mem_nil _
  | cons t ts ih =>
    rw [readMeasures]
    split
    · exact List.forall_mem_cons.mpr ⟨readable_readMeasure t, ih⟩
    · exact ih

/-! ## Scores -/

/-- A part behind another one of the same identifier has no measures. -/
def Overshadows (p q : Part) : Prop := p.id = q.id → q.measures = []

/-- The name of a part has no blanks at its ends, and the numbers of its measures lie in their
ranges. -/
structure Part.Readable (p : Part) : Prop where
  name : Text.trim p.name = p.name
  measures : ∀ m ∈ p.measures, m.Readable

/-- What can be said of a score that is read: its parts are in range and in order, and the first
part of an identifier has all of its measures. -/
structure Score.Readable (s : Score) : Prop where
  parts : ∀ p ∈ s.parts, p.Readable
  overshadowed : s.parts.Pairwise Overshadows

/-- Parts without measures can be put behind the others. -/
theorem Score.Readable.append {s : Score} (h : s.Readable) {parts : List Part}
    (names : ∀ p ∈ parts, Text.trim p.name = p.name) (bare : ∀ p ∈ parts, p.measures = []) :
    Score.Readable { s with parts := s.parts ++ parts } where
  parts := by
    refine List.forall_mem_append.mpr ⟨h.parts, fun p hp => ⟨names p hp, ?_⟩⟩
    rw [bare p hp]
    exact List.forall_mem_nil _
  overshadowed := by
    refine List.pairwise_append.mpr ⟨h.overshadowed, ?_, ?_⟩
    · exact List.pairwise_of_forall_mem_list fun p _ q hq _ => bare q hq
    · exact fun p _ q hq _ => bare q hq

theorem readable_readListedPart (t : Tree) :
    Text.trim (readListedPart t).name = (readListedPart t).name ∧
      (readListedPart t).measures = [] := by
  have empty : Text.trim "" = "" := by decide
  have trimmed (child : Option Tree) :
      Text.trim (child.elim "" (·.trimmed)) = child.elim "" (·.trimmed) := by
    cases child with
    | none => exact empty
    | some child =>
      exact getD_of_forall_mem (P := fun s => Text.trim s = s) (trim_of_mem_trimmed? child) empty
  exact ⟨trimmed _, rfl⟩

section AddMeasures

variable (id : String) (ms : List Measure)

/-- Measures are added to one of the parts, or to none. -/
theorem forall_mem_addMeasures {P : Part → Prop} {ps : List Part} (h : ∀ p ∈ ps, P p)
    (add : ∀ p, P p → P { p with measures := p.measures ++ ms }) :
    ∀ p ∈ addMeasures id ms ps, P p := by
  induction ps with
  | nil => exact List.forall_mem_nil _
  | cons p ps ih =>
    obtain ⟨here, later⟩ := List.forall_mem_cons.mp h
    rw [addMeasures]
    split
    · exact List.forall_mem_cons.mpr ⟨add p here, later⟩
    · exact List.forall_mem_cons.mpr ⟨here, ih later⟩

/-- A part of another identifier overshadows what it did. -/
theorem overshadows_addMeasures {p : Part} (other : p.id ≠ id) {ps : List Part}
    (h : ∀ q ∈ ps, Overshadows p q) : ∀ q ∈ addMeasures id ms ps, Overshadows p q := by
  induction ps with
  | nil => exact List.forall_mem_nil _
  | cons q ps ih =>
    obtain ⟨here, later⟩ := List.forall_mem_cons.mp h
    rw [addMeasures]
    split
    · rename_i same
      refine List.forall_mem_cons.mpr ⟨fun eq => ?_, later⟩
      exact absurd (eq.trans same) other
    · exact List.forall_mem_cons.mpr ⟨here, ih later⟩

/-- Only the first part of an identifier gets measures. -/
theorem overshadowed_addMeasures {ps : List Part} (h : ps.Pairwise Overshadows) :
    (addMeasures id ms ps).Pairwise Overshadows := by
  induction ps with
  | nil => exact .nil
  | cons p ps ih =>
    obtain ⟨here, later⟩ := List.pairwise_cons.mp h
    rw [addMeasures]
    split
    · exact List.pairwise_cons.mpr ⟨here, later⟩
    · rename_i other
      exact List.pairwise_cons.mpr ⟨overshadows_addMeasures id ms other here, ih later⟩

end AddMeasures

/-- The measures of a part go to the first part of its identifier, put behind the others if there is
none. -/
theorem Score.Readable.readPart {s : Score} (h : s.Readable) (t : Tree) :
    (LinearScore.readPart s t).value.Readable := by
  obtain ⟨id, hid⟩ : ∃ id, id = (t.attribute? "id").getD "" := ⟨_, rfl⟩
  obtain ⟨parts, hparts⟩ : ∃ parts,
    parts = if s.parts.any (·.id = id) then s.parts else s.parts ++ [{ id := id }] := ⟨_, rfl⟩
  have all : Score.Readable { s with parts } := by
    rw [hparts]
    split
    · exact h
    · have unnamed : Text.trim "" = "" := by decide
      exact h.append (List.forall_mem_singleton.mpr unnamed) (List.forall_mem_singleton.mpr rfl)
  have read : (LinearScore.readPart s t).value =
      { s with parts := addMeasures id (readMeasures t.children).value parts } := by
    rw [hparts, hid]
    unfold LinearScore.readPart
    dsimp only
    split <;> rfl
  rw [read]
  refine ⟨forall_mem_addMeasures id _ all.parts fun p hp => ⟨hp.name, ?_⟩,
    overshadowed_addMeasures id _ all.overshadowed⟩
  exact List.forall_mem_append.mpr ⟨hp.measures, readable_readMeasures t.children⟩

/-- Each child of the root keeps a score in range and in order. -/
theorem readable_readScoreChild {s : Score} (h : s.Readable) (child : Tree) :
    (readScoreChild s child).value.Readable := by
  unfold readScoreChild
  split
  · exact ⟨h.parts, h.overshadowed⟩
  · exact ⟨h.parts, h.overshadowed⟩
  · refine h.append ?_ ?_
    · exact List.forall_mem_map.mpr fun t _ => (readable_readListedPart t).1
    · exact List.forall_mem_map.mpr fun t _ => (readable_readListedPart t).2
  · exact h.readPart child
  · exact h

/-- **What is read is in range and in order.** -/
theorem readable_of_readScore {reader : Markup.Reader} {text : String} {r : Reported Score}
    (h : readScore reader text = .ok r) : r.value.Readable := by
  unfold readScore at h
  cases root : readRoot reader text with
  | error failure =>
    rw [root] at h
    cases h
  | ok t =>
    rw [root] at h
    have read : scoreOfTree t = .ok r := h
    unfold scoreOfTree at read
    split at read
    · obtain rfl := Except.ok.inj read
      exact foldlM_invariant (I := Score.Readable)
        (fun s child _ h => readable_readScoreChild h child) ⟨List.forall_mem_nil _, .nil⟩
    · cases read

end LinearScore
