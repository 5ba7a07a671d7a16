import LinearScore.MusicXml.Reading
import LinearScore.Proofs.OutlineTree
import LinearScore.Proofs.PartOutline

/-!
# Reading a written part

A part that can be written is read back from its text, with nothing to report: element by element
the reader reaches the state that the written value describes.  Only the name of the part is not
written.

## Main definitions

* `Reads`: reading some written elements leads from one state to another with nothing to report

The main statements are `readNote_outline`, `readMeasure_outline` and `readFragment_toMarkup`.
-/

namespace LinearScore

open Markup Markup.Outline
open Text (FitsByte FitsCount FitsSigned FitsRatio)

variable {σ α : Type}

/-! ## Reading one element after the other -/

/-- Reading some written elements at a level, one after the other, leads from the state `s` to the
state `t` with nothing to report. -/
def Reads (read : σ → Tree → Reported σ) (depth : Nat) (s : σ) (es : List Outline) (t : σ) : Prop :=
  (es.map (laidTree depth)).foldlM read s = pure t

/-- A step of reading that never reports. -/
def quiet (f : σ → Tree → σ) (s : σ) (t : Tree) : Reported σ := pure (f s t)

namespace Reads

variable {read : σ → Tree → Reported σ} {depth : Nat} {s t u : σ}

theorem one {e : Outline} (h : read s (e.laidTree depth) = pure t) : Reads read depth s [e] t := by
  rw [Reads, List.map_singleton, List.foldlM_cons, h, pure_bind]
  rfl

theorem append {es es' : List Outline} (h : Reads read depth s es t)
    (h' : Reads read depth t es' u) : Reads read depth s (es ++ es') u := by
  rw [Reads, List.map_append, List.foldlM_append, h, pure_bind]
  exact h'

/-- An element under a condition. -/
theorem onlyIf {condition : Bool} {e : Outline}
    (h : condition = true → read s (e.laidTree depth) = pure t) (h' : condition = false → s = t) :
    Reads read depth s (onlyIf condition e) t := by
  cases condition with
  | false =>
    obtain rfl := h' rfl
    rfl
  | true => exact one (h rfl)

/-- An element for a value that may be absent, where `put` puts the value into the state. -/
theorem ofOption {build : α → Outline} {value : Option α} (put : Option α → σ)
    (absent : put none = s)
    (h : ∀ a ∈ value, read s ((build a).laidTree depth) = pure (put (some a))) :
    Reads read depth s (ofOption build value) (put value) := by
  cases value with
  | none =>
    obtain rfl := absent
    rfl
  | some a => exact one (h a rfl)

/-- Elements for the members of a list, where `put` puts a list into the state. -/
theorem map {build : α → Outline} {as : List α} (put : List α → σ)
    (h : ∀ before, ∀ a ∈ as,
      read (put before) ((build a).laidTree depth) = pure (put (before ++ [a])))
    (before : List α) : Reads read depth (put before) (as.map build) (put (before ++ as)) := by
  induction as generalizing before with
  | nil =>
    rw [List.append_nil]
    rfl
  | cons a as ih =>
    have first := one (h before a List.mem_cons_self)
    have others := ih (fun before b hb => h before b (List.mem_cons_of_mem a hb)) (before ++ [a])
    rw [List.append_assoc] at others
    exact first.append others

/-- The same element several times, where `put` puts a number into the state. -/
theorem replicate {e : Outline} (n : Nat) (put : Nat → σ)
    (h : ∀ k < n, read (put k) (e.laidTree depth) = pure (put (k + 1))) :
    Reads read depth (put 0) (List.replicate n e) (put n) := by
  induction n with
  | zero => rfl
  | succ n ih =>
    rw [List.replicate_succ']
    exact (ih fun k hk => h k (Nat.lt_succ_of_lt hk)).append (one (h n (Nat.lt_succ_self n)))

/-- The children of an element are read at the next level. -/
theorem children {es : List Outline} (h : Reads read (depth + 1) s es t) (name : String)
    (attributes : List (String × String)) :
    (laidTree depth (block name attributes es)).children.foldlM read s = pure t := by
  rw [children_laidTree]
  exact h

theorem children_quiet {f : σ → Tree → σ} {es : List Outline}
    (h : Reads (quiet f) (depth + 1) s es t) (name : String) (attributes : List (String × String)) :
    (laidTree depth (block name attributes es)).children.foldl f s = t := by
  have folded := h.children name attributes
  unfold quiet at folded
  rw [List.foldlM_pure] at folded
  exact congrArg Reported.value folded

end Reads

/-! ## Elements with text -/

section Leaf

variable {s : String} (h : FieldText s) (depth : Nat) (name : String)
  (attributes : List (String × String))
include h

theorem trimmed?_leaf : (laidTree depth (leaf name attributes s)).trimmed? = some s := by
  rw [Tree.trimmed?, Tree.text?, laidTree, if_neg h.nonempty]
  exact congrArg some h.trimmed

theorem trimmed_leaf : (laidTree depth (leaf name attributes s)).trimmed = s := by
  rw [Tree.trimmed, trimmed?_leaf h]
  rfl

theorem value?_leaf (read : String → Option α) :
    (laidTree depth (leaf name attributes s)).value? read = read s := by
  rw [Tree.value?, trimmed?_leaf h]
  rfl

end Leaf

theorem value?_natField {n : Nat} {read : String → Option Nat} (h : read (toString n) = some n)
    (depth : Nat) (name : String) : (laidTree depth (natField name n)).value? read = some n :=
  (value?_leaf (fieldText_nat n) depth name [] read).trans h

theorem value?_intField {n : Int} {read : String → Option Int} (h : read (toString n) = some n)
    (depth : Nat) (name : String) : (laidTree depth (intField name n)).value? read = some n :=
  (value?_leaf (fieldText_int n) depth name [] read).trans h

theorem value?_durationField {d : Rat} (h : FitsRatio d) (depth : Nat) :
    (laidTree depth (durationField d)).value? Text.readRatio = some d :=
  (value?_leaf (fieldText_ratio d) depth "duration" [] Text.readRatio).trans
    (Text.readRatio_ratio h)

theorem endType?_endMark (depth : Nat) (name : String) (e : StartStop) :
    (laidTree depth (endMark name e)).endType? = some e := by
  cases e <;> rfl

/-! ## Attributes -/

theorem readKey_written {k : KeySignature} (h : FitsSigned k.fifths) (depth : Nat) :
    readKey (laidTree depth (block "key" [] [intField "fifths" k.fifths])) = k := by
  have fifths := value?_intField (Text.readSigned_toString h) (depth + 1) "fifths"
  show KeySignature.mk (((laidTree (depth + 1) (intField "fifths" k.fifths)).value?
    Text.readSigned).getD 0) = k
  rw [fifths]
  rfl

/-- Two counts are read from the two children that state them. -/
theorem readCounts_written (build : Nat → Nat → α) {m n : Nat} (h : FitsCount m ∧ FitsCount n)
    (depth : Nat) (name : String) {first second : String} (apart : first ≠ second) :
    (do
      let t := laidTree depth (block name [] [natField first m, natField second n])
      let a ← t.childValue? Text.readCount first
      let b ← t.childValue? Text.readCount second
      return build a b) = some (build m n) := by
  have children := children_laidTree depth name [] [natField first m, natField second n]
  have child (n : Nat) (key : String) : (laidTree (depth + 1) (natField key n)).name = key := rfl
  have a : (laidTree depth (block name [] [natField first m, natField second n])).childValue?
      Text.readCount first = some m := by
    rw [Tree.childValue?, Tree.child?, children]
    simp [child, value?_natField (Text.readCount_toString h.1)]
  have b : (laidTree depth (block name [] [natField first m, natField second n])).childValue?
      Text.readCount second = some n := by
    rw [Tree.childValue?, Tree.child?, children]
    simp [child, apart, value?_natField (Text.readCount_toString h.2)]
  simp only [a, b]
  rfl

theorem readTime_written {t : TimeSignature} (h : FitsCount t.beats ∧ FitsCount t.beatType)
    (depth : Nat) :
    readTime (laidTree depth
      (block "time" [] [natField "beats" t.beats, natField "beat-type" t.beatType])) = some t :=
  readCounts_written TimeSignature.mk h depth "time" (by decide)

theorem readClef_outline {c : Clef} (h : c.Writable) (depth : Nat) :
    readClef (c.outline.laidTree depth) = c := by
  have number : ((c.outline.laidTree depth).attribute? "number").bind Text.readByte = c.number := by
    unfold Clef.outline
    cases eq : c.number with
    | none => rfl
    | some n => exact Text.readByte_toString (h.number n eq)
  have sign := trimmed?_leaf h.sign (depth + 1) "sign" []
  have line := value?_intField (Text.readSigned_toString h.line) (depth + 1) "line"
  show Clef.mk (((c.outline.laidTree depth).attribute? "number").bind Text.readByte)
    ((laidTree (depth + 1) (field "sign" c.sign)).trimmed?.getD "G")
    (((laidTree (depth + 1) (intField "line" c.line)).value? Text.readSigned).getD 2) = c
  rw [number, field, sign, line]
  rfl

/-- Clefs that ascend are read in their order. -/
theorem Attributes.Writable.sortClefs_eq {a : Attributes} (h : a.Writable) :
    Attributes.sortClefs a.clefs = a.clefs := by
  refine List.mergeSort_of_pairwise (h.ascending.imp ?_)
  intro c d hcd
  exact decide_eq_true hcd

theorem readAttributes_outline {a : Attributes} (h : a.Writable) (measure : Int) (depth : Nat) :
    readAttributes measure (a.outline.laidTree depth) = pure a := by
  have divisions : Reads (readAttributesChild measure) (depth + 1) {}
      (ofOption (intField "divisions") a.divisions) { divisions := a.divisions } := by
    let put (n : Option Int) : Attributes := { divisions := n }
    refine .ofOption put rfl ?_
    intro n hn
    have value := value?_intField (Text.readLong_toString (h.divisions n hn)) (depth + 1) "divisions"
    exact congrArg (fun n => pure (put n)) value
  have key : Reads (readAttributesChild measure) (depth + 1) { divisions := a.divisions }
      (ofOption (fun (k : KeySignature) => block "key" [] [intField "fifths" k.fifths]) a.key)
      { divisions := a.divisions, key := a.key } := by
    let put (k : Option KeySignature) : Attributes := { divisions := a.divisions, key := k }
    refine .ofOption put rfl ?_
    intro k hk
    have value := readKey_written (h.key k hk) (depth + 1)
    exact congrArg (fun k => pure (put (some k))) value
  have time : Reads (readAttributesChild measure) (depth + 1)
      { divisions := a.divisions, key := a.key }
      (ofOption (fun (t : TimeSignature) =>
        block "time" [] [natField "beats" t.beats, natField "beat-type" t.beatType]) a.time)
      { divisions := a.divisions, key := a.key, time := a.time } := by
    let put (t : Option TimeSignature) : Attributes :=
      { divisions := a.divisions, key := a.key, time := t }
    refine .ofOption put rfl ?_
    intro t ht
    have value := readTime_written (h.time t ht) (depth + 1)
    exact congrArg (takeOr measure .unsupportedTime (put none) fun t => put (some t)) value
  have staves : Reads (readAttributesChild measure) (depth + 1)
      { divisions := a.divisions, key := a.key, time := a.time }
      (ofOption (natField "staves") a.staves) { a with clefs := [] } := by
    let put (n : Option Nat) : Attributes := { a with staves := n, clefs := [] }
    refine .ofOption put rfl ?_
    intro n hn
    have value := value?_natField (Text.readByte_toString (h.staves n hn)) (depth + 1) "staves"
    exact congrArg (fun n => pure (put n)) value
  have clefs : Reads (readAttributesChild measure) (depth + 1) { a with clefs := [] }
      (a.clefs.map Clef.outline) a := by
    let put (clefs : List Clef) : Attributes := { a with clefs }
    refine .map put ?_ []
    intro before c hc
    have value := readClef_outline (h.clefs c hc) (depth + 1)
    exact congrArg (fun c => pure (put (before ++ [c]))) value
  have all := divisions.append key |>.append time |>.append staves |>.append clefs
  rw [readAttributes, Attributes.outline, all.children, pure_bind, h.sortClefs_eq]

/-! ## Pitches and markings -/

theorem readPitch_outline {p : Pitch} (h : FitsSigned p.octave ∧ FitsSigned p.alter) (measure : Int)
    (depth : Nat) : readPitch measure (p.outline.laidTree depth) = pure p := by
  have step : Reads (readPitchChild measure) (depth + 1) ⟨.c, 4, 0⟩ [field "step" p.step.name]
      ⟨p.step, 4, 0⟩ := by
    refine .one ?_
    have text := trimmed_leaf (fieldText_step p.step) (depth + 1) "step" []
    have letter : p.step.name.toList.head?.bind Step.ofLetter? = some p.step := by
      cases p.step <;> decide
    have value : (laidTree (depth + 1) (field "step" p.step.name)).trimmed.toList.head?.bind
        Step.ofLetter? = some p.step := by
      rw [field, text, letter]
    exact congrArg (takeOr measure (.step _) _ fun step => Pitch.mk step 4 0) value
  -- what is left out is the alteration that the reader starts from
  have alter : Reads (readPitchChild measure) (depth + 1) ⟨p.step, 4, 0⟩
      (onlyIf (p.alter ≠ 0) (intField "alter" p.alter)) ⟨p.step, 4, p.alter⟩ := by
    refine .onlyIf ?_ ?_
    · intro _
      have text := trimmed_leaf (fieldText_int p.alter) (depth + 1) "alter" []
      have value : Text.readWhole (laidTree (depth + 1) (intField "alter" p.alter)).trimmed =
          some p.alter := by
        rw [intField, field, text, Text.readWhole_toString h.2]
      exact congrArg (takeOr measure (.microtone _) _ fun alter => Pitch.mk p.step 4 alter) value
    · intro zero
      have plain : p.alter = 0 := by simpa using zero
      rw [plain]
  have octave : Reads (readPitchChild measure) (depth + 1) ⟨p.step, 4, p.alter⟩
      [intField "octave" p.octave] p := by
    refine .one ?_
    let put (octave : Option Int) : Pitch := ⟨p.step, octave.getD 4, p.alter⟩
    have value := value?_intField (Text.readSigned_toString h.1) (depth + 1) "octave"
    exact congrArg (fun octave => pure (put octave)) value
  have all := step.append alter |>.append octave
  exact all.children "pitch" []

/-- An element without content is read as a flag, where `put` puts a flag into the state. -/
theorem reads_flag (read : σ → Tree → Reported σ) (depth : Nat) (put : Bool → σ) (name : String)
    (h : read (put false) ⟨name, [], []⟩ = pure (put true)) (flag : Bool) :
    Reads read depth (put false) (onlyIf flag (empty name [])) (put flag) := by
  refine .onlyIf ?_ ?_
  · rintro rfl
    exact h
  · rintro rfl
    rfl

/-- Ends are read into a list, where `put` puts a list into the state. -/
theorem reads_ends (read : σ → Tree → Reported σ) (depth : Nat) (put : List StartStop → σ)
    (name : String)
    (h : ∀ before e, read (put before) ((endMark name e).laidTree depth) =
      pure (put (before ++ ((endMark name e).laidTree depth).endType?.toList)))
    (before ends : List StartStop) :
    Reads read depth (put before) (ends.map (endMark name)) (put (before ++ ends)) := by
  refine .map put ?_ before
  intro before e _
  rw [h, endType?_endMark]
  rfl

/-- The markings with other articulations. -/
def Markings.articulated (s : Markings) (accent strongAccent staccato tenuto : Bool) : Markings :=
  { s with accent, strongAccent, staccato, tenuto }

section Markings

variable (ties : List StartStop) (s m : Markings) (depth : Nat)

theorem reads_articulations :
    Reads (quiet addMarking) depth (ties, s.articulated false false false false) m.articulations
      (ties, s.articulated m.accent m.strongAccent m.staccato m.tenuto) := by
  refine .onlyIf ?_ ?_
  · intro _
    have accent := reads_flag (quiet addArticulation) (depth + 1)
      (s.articulated · false false false) "accent" rfl m.accent
    have strongAccent := reads_flag (quiet addArticulation) (depth + 1)
      (s.articulated m.accent · false false) "strong-accent" rfl m.strongAccent
    have staccato := reads_flag (quiet addArticulation) (depth + 1)
      (s.articulated m.accent m.strongAccent · false) "staccato" rfl m.staccato
    have tenuto := reads_flag (quiet addArticulation) (depth + 1)
      (s.articulated m.accent m.strongAccent m.staccato ·) "tenuto" rfl m.tenuto
    have all := accent.append strongAccent |>.append staccato |>.append tenuto
    exact congrArg (fun m => pure (ties, m)) (all.children_quiet "articulations" [])
  · intro none
    simp only [Bool.or_eq_false_iff] at none
    obtain ⟨⟨⟨accent, strongAccent⟩, staccato⟩, tenuto⟩ := none
    rw [accent, strongAccent, staccato, tenuto]

theorem reads_ornaments (h : ∀ t ∈ m.tremolo, FitsByte t.marks) :
    Reads (quiet addMarking) depth (ties, { s with tremolo := none, trillMark := false })
      m.ornaments (ties, { s with tremolo := m.tremolo, trillMark := m.trillMark }) := by
  refine .onlyIf ?_ ?_
  · intro _
    have trill := reads_flag (quiet addOrnament) (depth + 1)
      (fun flag => { s with tremolo := none, trillMark := flag }) "trill-mark" rfl m.trillMark
    have tremolo : Reads (quiet addOrnament) (depth + 1)
        { s with tremolo := none, trillMark := m.trillMark } (ofOption Tremolo.outline m.tremolo)
        { s with tremolo := m.tremolo, trillMark := m.trillMark } := by
      let put (t : Option Tremolo) : Markings := { s with tremolo := t, trillMark := m.trillMark }
      refine .ofOption put rfl ?_
      intro t ht
      have kind : ((t.outline.laidTree (depth + 1)).attribute? "type").bind TremoloKind.ofName? =
          some t.kind := by
        unfold Tremolo.outline
        cases t.kind <;> rfl
      have marks : (t.outline.laidTree (depth + 1)).value? Text.readByte = some t.marks :=
        (value?_leaf (fieldText_nat t.marks) (depth + 1) "tremolo" _ _).trans
          (Text.readByte_toString (h t ht))
      let read (kind : Option TremoloKind) (marks : Option Nat) : Reported Markings :=
        pure (put (some ⟨kind.getD .single, marks.getD 3⟩))
      exact congr (congrArg read kind) marks
    have all := trill.append tremolo
    exact congrArg (fun m => pure (ties, m)) (all.children_quiet "ornaments" [])
  · intro none
    rw [Bool.or_eq_false_iff, Option.isSome_eq_false_iff, Option.isNone_iff_eq_none] at none
    rw [none.1, none.2]

/-- The markings and the drawn ties are read as they were written. -/
theorem foldl_addMarking_outline (h : ∀ t ∈ m.tremolo, FitsByte t.marks) :
    ((m.outline ties).laidTree depth).children.foldl addMarking ([], {}) = (ties, m) := by
  have tied := reads_ends (quiet addMarking) (depth + 1) (fun ties => (ties, {})) "tied"
    (fun _ _ => rfl) [] ties
  have slurs := reads_ends (quiet addMarking) (depth + 1) (fun slurs => (ties, { slurs })) "slur"
    (fun _ _ => rfl) [] m.slurs
  have tuplets := reads_ends (quiet addMarking) (depth + 1)
    (fun tuplets => (ties, { slurs := m.slurs, tuplets })) "tuplet" (fun _ _ => rfl) [] m.tuplets
  have ornaments := reads_ornaments ties { slurs := m.slurs, tuplets := m.tuplets } m (depth + 1) h
  have articulations := reads_articulations ties
    { m with fermata := false, arpeggiate := false } m (depth + 1)
  have fermata := reads_flag (quiet addMarking) (depth + 1)
    (fun flag => (ties, { m with fermata := flag, arpeggiate := false })) "fermata" rfl m.fermata
  have arpeggiate := reads_flag (quiet addMarking) (depth + 1)
    (fun flag => (ties, { m with arpeggiate := flag })) "arpeggiate" rfl m.arpeggiate
  have all := tied.append slurs |>.append tuplets |>.append ornaments |>.append articulations
    |>.append fermata |>.append arpeggiate
  exact all.children_quiet "notations" []

end Markings

/-! ## Notes -/

theorem readRatio_outline {r : TupletRatio} (h : FitsCount r.actual ∧ FitsCount r.normal)
    (depth : Nat) : NoteDraft.readRatio (r.outline.laidTree depth) = some r :=
  readCounts_written TupletRatio.mk h depth "time-modification" (by decide)

namespace NoteDraft

/-- The draft with its note changed. -/
def edit (d : NoteDraft) (f : Note → Note) : NoteDraft := { d with note := f d.note }

section Fields

variable (measure : Int) (depth : Nat) {d : NoteDraft}

/-- A field that a draft does not state yet is read as it was written. -/
theorem reads_field {build : α → Outline} {value : Option α} (get : Note → Option α)
    (put : Option α → Note → Note) (same : ∀ n, put (get n) n = n) (new : get d.note = none)
    (h : ∀ a ∈ value,
      addChild measure d ((build a).laidTree depth) = pure (d.edit (put (some a)))) :
    Reads (addChild measure) depth d (ofOption build value) (d.edit (put value)) := by
  refine .ofOption (fun value => d.edit (put value)) ?_ h
  show d.edit (put none) = d
  rw [← new, edit, same]

theorem reads_grace (new : d.note.grace = none) (grace : Option Grace) :
    Reads (addChild measure) depth d
      (ofOption (fun (g : Grace) => empty "grace" (if g.slash then [("slash", "yes")] else []))
        grace)
      (d.edit fun n => { n with grace }) := by
  refine reads_field measure depth Note.grace (fun grace n => { n with grace }) (fun _ => rfl) new ?_
  rintro ⟨slash⟩ _
  cases slash <;> rfl

theorem reads_chord (new : d.note.chord = false) (chord : Bool) :
    Reads (addChild measure) depth d (onlyIf chord (empty "chord" []))
      (d.edit fun n => { n with chord }) := by
  have read := reads_flag (addChild measure) depth (fun chord => d.edit fun n => { n with chord })
    "chord" rfl chord
  rw [← new] at read
  exact read

theorem reads_content {content : NoteContent}
    (h : ∀ p, content = .pitch p → FitsSigned p.octave ∧ FitsSigned p.alter) :
    Reads (addChild measure) depth d [content.outline] (d.setContent content) := by
  refine .one ?_
  cases content with
  | pitch p =>
    show readPitch measure (p.outline.laidTree depth) >>= _ = _
    rw [readPitch_outline (h p rfl), pure_bind]
  | rest measure => cases measure <;> rfl

theorem reads_duration (new : d.note.duration = none) {duration : Option Rat}
    (h : ∀ q ∈ duration, FitsRatio q) :
    Reads (addChild measure) depth d (ofOption durationField duration)
      (d.edit fun n => { n with duration }) := by
  let put (duration : Option Rat) (n : Note) : Note := { n with duration }
  refine reads_field measure depth Note.duration put (fun _ => rfl) new ?_
  intro q hq
  have text := trimmed_leaf (fieldText_ratio q) depth "duration" []
  have value : Text.readRatio (laidTree depth (durationField q)).trimmed = some q := by
    rw [durationField, field, text, Text.readRatio_ratio (h q hq)]
  exact congrArg (fun q => pure (d.edit (put q))) value

theorem reads_ties (ties : List StartStop) :
    Reads (addChild measure) depth d (ties.map (endMark "tie"))
      { d with soundingTies := d.soundingTies ++ ties } :=
  reads_ends (addChild measure) depth (fun ties => { d with soundingTies := ties }) "tie"
    (fun _ _ => rfl) d.soundingTies ties

theorem reads_voice (new : d.note.voice = none) {voice : Option Nat}
    (h : ∀ v ∈ voice, FitsByte v) :
    Reads (addChild measure) depth d (ofOption (natField "voice") voice)
      (d.edit fun n => { n with voice }) := by
  let put (voice : Option Nat) (n : Note) : Note := { n with voice }
  refine reads_field measure depth Note.voice put (fun _ => rfl) new ?_
  intro v hv
  have text := trimmed_leaf (fieldText_nat v) depth "voice" []
  have value : Text.readByte (laidTree depth (natField "voice" v)).trimmed = some v := by
    rw [natField, field, text, Text.readByte_toString (h v hv)]
  exact congrArg (takeOr measure (.voice _) d fun v => d.edit (put (some v))) value

theorem reads_noteType (new : d.note.noteType = none) (noteType : Option NoteType) :
    Reads (addChild measure) depth d (ofOption (fun t => field "type" t.name) noteType)
      (d.edit fun n => { n with noteType }) := by
  refine reads_field measure depth Note.noteType (fun noteType n => { n with noteType })
    (fun _ => rfl) new ?_
  intro t _
  cases t <;> rfl

theorem reads_dots (new : d.note.dots = 0) {dots : Nat} (h : FitsByte dots) :
    Reads (addChild measure) depth d (List.replicate dots (empty "dot" []))
      (d.edit fun n => { n with dots }) := by
  let put (dots : Nat) : NoteDraft := d.edit fun n => { n with dots }
  have read : Reads (addChild measure) depth (put 0) (List.replicate dots (empty "dot" []))
      (put dots) := by
    refine .replicate dots put ?_
    intro k hk
    -- the count of dots stops only behind the range of its field
    have next : min countLimit (k + 1) = k + 1 := Nat.min_eq_right (Nat.le_trans hk h)
    exact congrArg (fun k => pure (put k)) next
  have start : put 0 = d := by
    rw [← new]
    rfl
  rw [start] at read
  exact read

theorem reads_accidental (new : d.note.accidental = none) (accidental : Option Accidental) :
    Reads (addChild measure) depth d (ofOption (fun a => field "accidental" a.name) accidental)
      (d.edit fun n => { n with accidental }) := by
  refine reads_field measure depth Note.accidental (fun accidental n => { n with accidental })
    (fun _ => rfl) new ?_
  intro a _
  cases a <;> rfl

theorem reads_ratio (new : d.note.ratio = none) {ratio : Option TupletRatio}
    (h : ∀ r ∈ ratio, FitsCount r.actual ∧ FitsCount r.normal) :
    Reads (addChild measure) depth d (ofOption TupletRatio.outline ratio)
      (d.edit fun n => { n with ratio }) := by
  refine reads_field measure depth Note.ratio (fun ratio n => { n with ratio }) (fun _ => rfl) new ?_
  intro r hr
  let put (ratio : Option TupletRatio) : Reported NoteDraft :=
    pure (d.edit fun n => { n with ratio := ratio.or n.ratio })
  exact congrArg put (readRatio_outline (h r hr) depth)

theorem reads_stem (new : d.note.stem = none) (stem : Option Stem) :
    Reads (addChild measure) depth d (ofOption (fun s => field "stem" s.name) stem)
      (d.edit fun n => { n with stem }) := by
  refine reads_field measure depth Note.stem (fun stem n => { n with stem }) (fun _ => rfl) new ?_
  intro s _
  cases s <;> rfl

theorem reads_staff (new : d.note.staff = none) {staff : Option Nat}
    (h : ∀ s ∈ staff, FitsByte s) :
    Reads (addChild measure) depth d (ofOption (natField "staff") staff)
      (d.edit fun n => { n with staff }) := by
  let put (staff : Option Nat) (n : Note) : Note := { n with staff }
  refine reads_field measure depth Note.staff put (fun _ => rfl) new ?_
  intro s hs
  have value := value?_natField (Text.readByte_toString (h s hs)) depth "staff"
  exact congrArg (fun s => pure (d.edit (put s))) value

theorem addChild_beam {b : Beam} (h : FitsByte b.number) :
    addChild measure d (b.outline.laidTree depth) =
      pure (d.edit fun n => { n with beams := n.beams ++ [b] }) := by
  have number : ((b.outline.laidTree depth).attribute? "number").bind Text.readByte =
      some b.number := Text.readByte_toString h
  have stroke : BeamStroke.ofName? (b.outline.laidTree depth).trimmed = some b.stroke := by
    unfold Beam.outline
    cases b.stroke <;> rfl
  let put (number : Option Nat) (stroke : Option BeamStroke) : Reported NoteDraft :=
    takeOr measure (.beam (b.outline.laidTree depth).trimmed) d
      (fun stroke => d.edit fun n => { n with beams := n.beams ++ [⟨number.getD 1, stroke⟩] }) stroke
  exact congr (congrArg put number) stroke

theorem reads_beams {beams : List Beam} (h : ∀ b ∈ beams, FitsByte b.number) :
    Reads (addChild measure) depth d (beams.map Beam.outline)
      (d.edit fun n => { n with beams := n.beams ++ beams }) := by
  let put (beams : List Beam) : NoteDraft := d.edit fun n => { n with beams }
  have read : Reads (addChild measure) depth (put d.note.beams) (beams.map Beam.outline)
      (put (d.note.beams ++ beams)) := by
    refine .map put ?_ d.note.beams
    intro before b hb
    exact addChild_beam measure depth (h b hb)
  exact read

theorem reads_notations (new : d.note.ties = [] ∧ d.note.markings = {}) (ties : List StartStop)
    {m : Markings} (h : ∀ t ∈ m.tremolo, FitsByte t.marks) :
    Reads (addChild measure) depth d (onlyIf (!ties.isEmpty || m ≠ {}) (m.outline ties))
      (d.edit fun n => { n with ties, markings := m }) := by
  let put (s : List StartStop × Markings) : NoteDraft :=
    d.edit fun n => { n with ties := s.1, markings := s.2 }
  refine .onlyIf ?_ ?_
  · intro _
    have read := foldl_addMarking_outline ties m depth h
    rw [← new.2, ← new.1] at read
    exact congrArg (fun s => pure (put s)) read
  · intro none
    -- what is left out is what the draft has
    simp only [Bool.or_eq_false_iff, Bool.not_eq_false', List.isEmpty_iff, decide_eq_false_iff_not,
      ne_eq, not_not] at none
    obtain ⟨rfl, rfl⟩ := none
    show d = put ([], {})
    rw [← new.2, ← new.1]
    rfl

end Fields

end NoteDraft

/-- A note whose sounding ties are the drawn ones is finished. -/
theorem Note.Writable.finish_eq {n : Note} (h : n.Writable) :
    NoteDraft.finish ⟨n, n.ties, true⟩ = n := by
  -- the ties are written twice, so both sources state the same
  have ties : (if n.ties.isEmpty then n.ties else n.ties) = n.ties := ite_self _
  have beams : n.beams.mergeSort (fun a b => a.number ≤ b.number) = n.beams := by
    refine List.mergeSort_of_pairwise (h.ascending.imp ?_)
    intro a b hab
    exact decide_eq_true hab
  rw [NoteDraft.finish, ties, beams]

/-- **A note is read as it was written.** -/
theorem readNote_outline {n : Note} (h : n.Writable) (measure : Int) (depth : Nat) :
    readNote measure (n.outline.laidTree depth) = pure n := by
  have printed : (!(n.outline.laidTree depth).attributeIs "print-object" "no") = n.printed := by
    unfold Note.outline
    cases n.printed <;> rfl
  have pitch : ∀ p, n.content = .pitch p → FitsSigned p.octave ∧ FitsSigned p.alter := by
    intro p hp
    refine h.pitch p ?_
    rw [Note.pitch?, hp]
    rfl
  -- every group of children states a field that the draft does not have yet
  let draft : NoteDraft := { note := { printed := n.printed } }
  have grace := NoteDraft.reads_grace (d := draft) measure (depth + 1) rfl n.grace
  have all := grace
    |>.append (NoteDraft.reads_chord measure (depth + 1) rfl n.chord)
    |>.append (NoteDraft.reads_content measure (depth + 1) pitch)
    |>.append (NoteDraft.reads_duration measure (depth + 1) rfl h.duration)
    |>.append (NoteDraft.reads_ties measure (depth + 1) n.ties)
    |>.append (NoteDraft.reads_voice measure (depth + 1) rfl h.voice)
    |>.append (NoteDraft.reads_noteType measure (depth + 1) rfl n.noteType)
    |>.append (NoteDraft.reads_dots measure (depth + 1) rfl h.dots)
    |>.append (NoteDraft.reads_accidental measure (depth + 1) rfl n.accidental)
    |>.append (NoteDraft.reads_ratio measure (depth + 1) rfl h.ratio)
    |>.append (NoteDraft.reads_stem measure (depth + 1) rfl n.stem)
    |>.append (NoteDraft.reads_staff measure (depth + 1) rfl h.staff)
    |>.append (NoteDraft.reads_beams measure (depth + 1) h.beams)
    |>.append (NoteDraft.reads_notations measure (depth + 1) ⟨rfl, rfl⟩ n.ties h.tremolo)
  have read : (n.outline.laidTree depth).children.foldlM (NoteDraft.addChild measure) draft =
      pure ⟨n, n.ties, true⟩ := by
    rw [Note.outline]
    refine (all.children "note" _).trans (congrArg pure ?_)
    -- all fields together are the note
    dsimp only [NoteDraft.edit, NoteDraft.setContent, draft]
    rfl
  unfold readNote
  rw [printed]
  dsimp only
  rw [read, pure_bind]
  exact congrArg pure h.finish_eq

/-! ## Measures and parts -/

/-- A move of the time cursor is read as it was written. -/
theorem readSkip_written {d : Rat} (h : FitsRatio d) (measure : Int) (fault : MeasureFault)
    (depth : Nat) (name : String) :
    readSkip measure fault (laidTree depth (block name [] [durationField d])) = pure d :=
  congrArg (takeOr measure fault 0 id) (value?_durationField h (depth + 1))

/-- An element is read behind the others of its measure. -/
theorem readMeasureChild_outline {e : Element} (h : e.Writable) (m : Measure) (depth : Nat) :
    readMeasureChild m (e.outline.laidTree depth) =
      pure { m with elements := m.elements ++ [e] } := by
  let put (e : Element) : Measure := { m with elements := m.elements ++ [e] }
  cases e with
  | attributes a =>
    have read := readAttributes_outline h m.number depth
    exact congrArg (· >>= fun a => pure (put (.attributes a))) read
  | note n =>
    have read := readNote_outline h m.number depth
    exact congrArg (· >>= fun n => pure (put (.note n))) read
  | backup d =>
    have read := readSkip_written h m.number .backupWithoutDuration depth "backup"
    exact congrArg (· >>= fun d => pure (put (.backup d))) read
  | forward d =>
    have read := readSkip_written h m.number .forwardWithoutDuration depth "forward"
    exact congrArg (· >>= fun d => pure (put (.forward d))) read

/-- **A measure is read as it was written.** -/
theorem readMeasure_outline {m : Measure} (h : m.Writable) (depth : Nat) :
    readMeasure (m.outline.laidTree depth) = pure m := by
  have number : (((m.outline.laidTree depth).attribute? "number").bind Text.readSigned).getD 0 =
      m.number := by
    have value := Text.readSigned_toString h.number
    exact congrArg (Option.getD · 0) value
  have implicit : (m.outline.laidTree depth).attributeIs "implicit" "yes" = m.implicit := by
    unfold Measure.outline
    cases m.implicit <;> rfl
  have breaks : Reads readMeasureChild (depth + 1) { number := m.number, implicit := m.implicit }
      m.breakOutline { m with elements := [] } := by
    -- of two breaks only that of the page would be written
    obtain ⟨number, implicit, newSystem, newPage, elements⟩ := m
    have notBoth := h.breaks
    cases newSystem with
    | false => cases newPage <;> rfl
    | true =>
      cases newPage with
      | false => rfl
      | true => exact (notBoth ⟨rfl, rfl⟩).elim
  have elements : Reads readMeasureChild (depth + 1) { m with elements := [] }
      (m.elements.map Element.outline) m := by
    let put (elements : List Element) : Measure := { m with elements }
    refine .map put ?_ []
    intro before e he
    exact readMeasureChild_outline (h.elements e he) (put before) (depth + 1)
  have all := breaks.append elements
  rw [readMeasure, number, implicit]
  exact all.children "measure" _

/-- Measures are read one by one, whatever each of them is read as. -/
theorem readMeasures_map {f : Measure → Measure} {depth : Nat} {ms : List Measure}
    (h : ∀ m ∈ ms, readMeasure (m.outline.laidTree depth) = pure (f m)) :
    readMeasures ((ms.map Measure.outline).map (laidTree depth)) = pure (ms.map f) := by
  induction ms with
  | nil => rfl
  | cons m ms ih =>
    obtain ⟨first, others⟩ := List.forall_mem_cons.mp h
    show readMeasure (m.outline.laidTree depth) >>= (fun m =>
      readMeasures ((ms.map Measure.outline).map (laidTree depth)) >>= fun ms => pure (m :: ms)) = _
    rw [first, pure_bind, ih others, pure_bind]
    rfl

theorem readMeasures_outline {ms : List Measure} (h : ∀ m ∈ ms, m.Writable) (depth : Nat) :
    readMeasures ((ms.map Measure.outline).map (laidTree depth)) = pure ms :=
  (readMeasures_map fun m hm => readMeasure_outline (h m hm) depth).trans (by rw [List.map_id'])

/-- **The text of a part that can be written is read as the part, with nothing to report**, by any
reader of documents that reads elements as they are written.  Only the name is not written. -/
theorem readFragment_toMarkup {reader : Reader} (reads : reader.ReadsElements) {p : Part}
    (h : p.Writable) (depth : Nat) :
    readFragment reader (p.toMarkup depth) = .ok (pure { p with name := "" }) := by
  have root : readRoot reader (p.toMarkup depth) = .ok (p.outline.laidTree depth) := by
    have read : reader true (p.toMarkup depth) = some (p.outline.laidTree depth) :=
      reads depth (p.sound_outline h)
    rw [readRoot, read]
  have measures : readMeasures (p.outline.laidTree depth).children = pure p.measures := by
    rw [Part.outline, children_laidTree]
    exact readMeasures_outline h.measures (depth + 1)
  have part : partOfTree (p.outline.laidTree depth) = .ok (readMeasures
      (p.outline.laidTree depth).children >>= fun ms => pure { id := p.id, measures := ms }) := rfl
  rw [readFragment, root]
  refine part.trans ?_
  rw [measures, pure_bind]

/-- Clefs on two staves, a hidden grace note, a note with ties, beams and markings under an escaped
identifier, and a duration that is no integer. -/
def Part.ornate : Part where
  id := "P<1>"
  name := "Piano"
  measures :=
    [{ number := -1, implicit := true, newSystem := true
       elements :=
        [.attributes
          { divisions := some 2, key := some ⟨-3⟩, time := some ⟨6, 8⟩, staves := some 2
            clefs := [⟨none, "G", 2⟩, ⟨some 2, "F & C", 4⟩] },
         .note
          { printed := false, grace := some ⟨true⟩, content := .pitch ⟨.a, 5, 0⟩
            noteType := some .d16 },
         .note
          { chord := true, content := .pitch ⟨.f, 4, 1⟩, duration := some (1 / 3)
            ties := [.stop, .start], voice := some 1, noteType := some .eighth, dots := 2
            accidental := some .sharp, ratio := some ⟨3, 2⟩, stem := some .up, staff := some 1
            beams := [⟨1, .through⟩, ⟨2, .forwardHook⟩]
            markings :=
              { tuplets := [.start], slurs := [.stop, .start], fermata := true, tenuto := true
                tremolo := some ⟨.single, 2⟩, trillMark := true } },
         .backup (5 / 2), .note { content := .rest true, duration := some 6 }, .forward 3] },
     { number := 0, newPage := true }]

theorem readFragment_toMarkup_ornate :
    Reader.ReadsElements readTree ∧ Part.ornate.Writable ∧
      readFragment readTree (Part.ornate.toMarkup 2) =
        .ok (pure { Part.ornate with name := "" }) := by
  have writable : Part.ornate.Writable := by decide +kernel
  exact ⟨readsElements_readTree, writable,
    readFragment_toMarkup readsElements_readTree writable 2⟩

end LinearScore
