import LinearScore.Proofs.Beams
import LinearScore.Proofs.Echo

/-!
# What is read from the vocabulary

The payloads of valid tokens go into the fields of a note as they are, so what is read can be
written again.  A note of which nothing is reported is one that reading its own item gives back.

## Main definitions

* `NoteFields.Legible`, `Note.Legible`: the payloads lie in the vocabulary
* `DecodingState.Settles`: a note that is read back as it is

The main statement is `DecodingState.settles_noteOf`.
-/

namespace LinearScore

variable {α σ : Type}

/-- The payloads of the fields lie in the vocabulary. -/
structure NoteFields.Legible (f : NoteFields) : Prop where
  pitch : ∀ p ∈ f.pitch, (Terminal.pitch p.1 p.2.1).valid = true
  voice : ∀ n ∈ f.voice, (Terminal.voice n).valid = true
  ratio : ∀ r ∈ f.ratio, (Terminal.ratio r).valid = true
  staff : ∀ n ∈ f.staff, (Terminal.staff n).valid = true
  marks : ∀ n ∈ f.tremoloMarks, (Terminal.tremoloMarks n).valid = true

/-- Each end of ties and tuplets is there once, and the dots can be counted. -/
structure NoteFields.Counted (f : NoteFields) : Prop where
  ties : f.ties.Nodup
  tuplets : f.markings.tuplets.Nodup
  dots : f.dots ≤ countLimit

/-- The payloads of the note lie in the vocabulary. -/
structure Note.Legible (n : Note) : Prop where
  pitch : ∀ p ∈ n.pitch?, 0 ≤ p.octave ∧ (Terminal.pitch p.step p.octave.toNat).valid = true
  voice : ∀ v ∈ n.voice, (Terminal.voice v).valid = true
  ratio : ∀ r ∈ n.ratio, (Terminal.ratio r).valid = true
  staff : ∀ v ∈ n.staff, (Terminal.staff v).valid = true
  marks : ∀ t ∈ n.markings.tremolo, (Terminal.tremoloMarks t.marks).valid = true

/-- The voice and the staff that are remembered lie in the vocabulary. -/
structure Sticky.Legible (s : Sticky) : Prop where
  voice : ∀ v ∈ s.voice, (Terminal.voice v).valid = true
  staff : ∀ v ∈ s.staff, (Terminal.staff v).valid = true

/-- The terminals of the tokens lie in the vocabulary. -/
def AllValid (tokens : List Token) : Prop := ∀ t ∈ tokens, t.terminal.valid = true

/-! ## Written payloads -/

namespace NoteFields

/-- Legible fields are written with valid terminals. -/
theorem Legible.valid_leading {f : NoteFields} (h : f.Legible) :
    ∀ t ∈ f.leading, t.valid = true := by
  simp only [leading, List.flatten_cons, List.flatten_nil, List.append_nil,
    List.forall_mem_append]
  refine ⟨?_, ?_, ?_, ?_, ?_, ?_, ?_⟩
  · exact forall_mem_flagged _ rfl
  · exact forall_mem_flagged _ rfl
  · exact forall_mem_flagged _ rfl
  · exact forall_mem_flagged _ rfl
  · exact forall_mem_valued fun _ _ => rfl
  · exact forall_mem_valued h.pitch
  · exact forall_mem_valued h.voice

theorem Legible.valid_trailing {f : NoteFields} (h : f.Legible) :
    ∀ t ∈ f.trailing, t.valid = true := by
  have list {β : Type} {build : β → Terminal} (l : List β) (valid : ∀ b, (build b).valid = true) :
      ∀ t ∈ l.map build, t.valid = true := by
    intro t ht
    obtain ⟨b, -, rfl⟩ := List.mem_map.mp ht
    exact valid b
  simp only [trailing, List.flatten_cons, List.flatten_nil, List.append_nil,
    List.forall_mem_append]
  refine ⟨?_, ?_, ?_, ?_, ?_, ?_, ?_, ?_, ?_, ?_, ?_, ?_, ?_, ?_, ?_, ?_, ?_, ?_⟩
  · exact forall_mem_valued h.ratio
  · intro t ht
    rw [List.eq_of_mem_replicate ht]
    rfl
  · exact forall_mem_valued fun _ _ => rfl
  · exact forall_mem_valued fun _ _ => rfl
  · exact forall_mem_valued h.staff
  · exact list _ fun _ => rfl
  · exact list _ fun _ => rfl
  · exact list _ fun _ => rfl
  · exact list _ fun _ => rfl
  · exact forall_mem_flagged _ rfl
  · exact forall_mem_flagged _ rfl
  · exact forall_mem_flagged _ rfl
  · exact forall_mem_flagged _ rfl
  · exact forall_mem_flagged _ rfl
  · exact forall_mem_flagged _ rfl
  · exact forall_mem_valued fun _ _ => rfl
  · exact forall_mem_valued h.marks
  · exact forall_mem_flagged _ rfl

end NoteFields

/-- A legible note is written with valid terminals. -/
theorem Note.Legible.valid_noteItem {n : Note} (h : n.Legible) (s : EncodingState) :
    ∀ t ∈ (s.noteItem n).terminals, t.valid = true := by
  have kept {β : Type} [DecidableEq β] {P : β → Prop} (old : Option β) {new : Option β}
      (all : ∀ b ∈ new, P b) : ∀ b ∈ changed old new, P b := by
    unfold changed
    split
    · exact forall_mem_none
    · exact all
  have fields : (s.fields n).Legible :=
    { pitch := fun p hp => by
        obtain ⟨q, hq, rfl⟩ := Option.map_eq_some_iff.mp hp
        exact (h.pitch q hq).2
      voice := kept _ h.voice
      ratio := h.ratio
      staff := kept _ h.staff
      marks := fun m hm => by
        obtain ⟨t, ht, rfl⟩ := Option.map_eq_some_iff.mp hm
        exact h.marks t ht }
  rw [EncodingState.noteItem, Item.terminals_spelled, List.forall_mem_append,
    List.forall_mem_cons]
  refine ⟨fields.valid_leading, ?_, fields.valid_trailing⟩
  unfold Note.root
  cases n.noteType with
  | none => rfl
  | some t => rfl

/-! ## Fields that are read -/

/-- What each step of a reading keeps holds of the value that is read. -/
theorem foldlM_invariant {I : σ → Prop} {step : σ → α → Reported σ} {as : List α}
    (h : ∀ s, ∀ a ∈ as, I s → I (step s a).value) {s : σ} (hs : I s) :
    I (as.foldlM step s).value := by
  induction as generalizing s with
  | nil => exact hs
  | cons a as ih =>
    rw [List.foldlM_cons, Reported.value_bind]
    exact ih (fun s b hb => h s b (List.mem_cons_of_mem _ hb)) (h s a List.mem_cons_self hs)

theorem value_fill (o : Offer) (field : Option α) (value : α) :
    (o.fill field value).value = field.or (some value) := by
  cases field with
  | none => rfl
  | some old => rfl

theorem forall_mem_fill {P : α → Prop} (o : Offer) {field : Option α} {value : α}
    (all : ∀ a ∈ field, P a) (h : P value) : ∀ a ∈ (o.fill field value).value, P a := by
  rw [value_fill]
  cases field with
  | none =>
    intro a ha
    cases ha
    exact h
  | some old => exact all

theorem nodup_addEnd (o : Offer) {ends : List StartStop} (h : ends.Nodup) (e : StartStop) :
    (o.addEnd ends e).value.Nodup := by
  rw [value_addEnd]
  split
  · exact h
  · rename_i fresh
    refine List.nodup_append.mpr ⟨h, List.pairwise_singleton .., fun a ha b hb eq => ?_⟩
    rw [eq, List.mem_singleton.mp hb] at ha
    exact fresh ha

namespace NoteFields

theorem nodup_addMarking {o : Offer} {m : Markings} {t : Terminal} {r : Reported Markings}
    (h : addMarking o m t = some r) (nodup : m.tuplets.Nodup) : r.value.tuplets.Nodup := by
  unfold addMarking at h
  split at h
  · cases h
    exact nodup_addEnd o nodup _
  all_goals
    cases h
    try exact nodup

/-- A step in front of the root keeps the fields legible, and what stands behind it counted. -/
theorem legible_addLeading (root : Terminal) {f : NoteFields} (legible : f.Legible)
    (counted : f.Counted) {token : Token} (valid : token.terminal.valid = true) :
    (addLeading root f token).value.Legible ∧ (addLeading root f token).value.Counted := by
  unfold addLeading
  dsimp only
  split
  · exact ⟨{ legible with }, { counted with }⟩
  · exact ⟨{ legible with }, { counted with }⟩
  · exact ⟨{ legible with }, { counted with }⟩
  · exact ⟨{ legible with }, { counted with }⟩
  · exact ⟨{ legible with }, { counted with }⟩
  · rename_i eq
    rw [eq] at valid
    exact ⟨{ legible with pitch := forall_mem_fill _ legible.pitch valid }, { counted with }⟩
  · rename_i eq
    rw [eq] at valid
    exact ⟨{ legible with voice := forall_mem_fill _ legible.voice valid }, { counted with }⟩
  · exact ⟨legible, counted⟩

/-- A step behind the root keeps the fields legible and counted. -/
theorem legible_addTrailing (root : Terminal) {f : NoteFields} (legible : f.Legible)
    (counted : f.Counted) {token : Token} (valid : token.terminal.valid = true) :
    (addTrailing root f token).value.Legible ∧ (addTrailing root f token).value.Counted := by
  unfold addTrailing
  dsimp only
  split
  · rename_i eq
    rw [eq] at valid
    exact ⟨{ legible with ratio := forall_mem_fill _ legible.ratio valid }, { counted with }⟩
  · exact ⟨{ legible with }, { counted with dots := Nat.min_le_left .. }⟩
  · exact ⟨{ legible with }, { counted with }⟩
  · exact ⟨{ legible with }, { counted with }⟩
  · rename_i eq
    rw [eq] at valid
    exact ⟨{ legible with staff := forall_mem_fill _ legible.staff valid }, { counted with }⟩
  · exact ⟨{ legible with }, { counted with }⟩
  · exact ⟨{ legible with }, { counted with ties := nodup_addEnd _ counted.ties _ }⟩
  · exact ⟨{ legible with }, { counted with }⟩
  · rename_i eq
    rw [eq] at valid
    exact ⟨{ legible with marks := forall_mem_fill _ legible.marks valid }, { counted with }⟩
  · split
    · rename_i eq
      exact ⟨{ legible with }, { counted with tuplets := nodup_addMarking eq counted.tuplets }⟩
    · exact ⟨legible, counted⟩

end NoteFields

/-- The fields that are read from valid tokens are legible and counted. -/
theorem Item.legible_noteFields {item : Item} (valid : AllValid item.tokens) :
    item.noteFields.value.Legible ∧ item.noteFields.value.Counted := by
  have leading (t : Token) (h : t ∈ item.leading) : t.terminal.valid = true :=
    valid t (List.mem_append_left _ h)
  have trailing (t : Token) (h : t ∈ item.trailing) : t.terminal.valid = true :=
    valid t (List.mem_append_right _ (List.mem_cons_of_mem _ h))
  refine foldlM_invariant (I := fun f : NoteFields => f.Legible ∧ f.Counted)
    (fun f t ht h => NoteFields.legible_addTrailing _ h.1 h.2 (trailing t ht)) ?_
  refine foldlM_invariant (I := fun f : NoteFields => f.Legible ∧ f.Counted)
    (fun f t ht h => NoteFields.legible_addLeading _ h.1 h.2 (leading t (List.mem_reverse.mp ht)))
    ?_
  exact ⟨⟨forall_mem_none, forall_mem_none, forall_mem_none, forall_mem_none, forall_mem_none⟩,
    ⟨.nil, .nil, Nat.zero_le _⟩⟩

/-! ## Notes that are read -/

namespace DecodingState

/-- A note that is read back as it is. -/
structure Settles (d : DecodingState) (n : Note) : Prop where
  echo : d.echo n = n
  accepts : d.Accepts n
  legible : n.Legible
  typeless : n.noteType = none → n.isMeasureRest = true

variable {d : DecodingState}

/-- The note of some fields under a root, and the state behind it. -/
def noteOf (d : DecodingState) (root : Token) (f : NoteFields) : Note × DecodingState :=
  let noteType := rootType? root.terminal
  let content := (noteContent root noteType.isNone f).value
  let sticky := stick d.sticky f
  let duration := (d.noteDuration root noteType f).value
  let beams := (d.beams.resolve
    { marks := f.beams.map (·.1), grace := f.grace, chord := f.chord,
      beamable := noteType.elim false NoteType.beamable, position := root.position }).value
  ({ printed := !f.unprinted
     grace := if f.grace then some ⟨f.graceSlash⟩ else none
     chord := f.chord
     content, duration
     ties := f.ties
     voice := sticky.voice
     noteType
     dots := f.dots
     accidental := f.accidental
     ratio := f.ratio
     stem := sticky.stem
     staff := sticky.staff
     beams := beams.1
     markings := { f.markings with tremolo := (tremolo root f).value } },
   { d with
     beams := beams.2
     sticky :=
       { sticky with
         previousPitch := contentPitch? content
         chordLength := if f.chord then d.sticky.chordLength else duration } })

theorem value_note (d : DecodingState) (item : Item) :
    (d.note item).value = d.noteOf item.root item.noteFields.value := by
  rw [note, Reported.value_bind]
  dsimp only
  split
  · rfl
  · rfl

/-- Nothing is reported of any of the parts of the note. -/
structure Unreported (d : DecodingState) (root : Token) (f : NoteFields) : Prop where
  content : (noteContent root (rootType? root.terminal).isNone f).diagnostics = []
  descent : (reportDescent d.sticky root f.chord (d.noteOf root f).1.content).diagnostics = []
  duration : (d.noteDuration root (rootType? root.terminal) f).diagnostics = []
  length : (reportChordLength d.sticky root f.chord (d.noteOf root f).1.duration).diagnostics = []
  beams : (d.beams.resolve
    { marks := f.beams.map (·.1), grace := f.grace, chord := f.chord,
      beamable := (rootType? root.terminal).elim false NoteType.beamable,
      position := root.position }).diagnostics = []
  tremolo : (tremolo root f).diagnostics = []

theorem unreported_of_note {item : Item} (h : (d.note item).diagnostics = []) :
    d.Unreported item.root item.noteFields.value := by
  rw [note, Reported.diagnostics_bind, List.append_eq_nil_iff] at h
  have rest := h.2
  dsimp only at rest
  split at rest
  · cases rest
  · simp only [Reported.diagnostics_bind, List.append_eq_nil_iff] at rest
    obtain ⟨content, descent, duration, length, beams, tremolo, -⟩ := rest
    exact ⟨content, descent, duration, length, beams, tremolo⟩

/-- The content that is read is a rest, for a measure if there is no type, or a pitch of the
fields. -/
theorem value_noteContent (root : Token) (typeless : Bool) (f : NoteFields) :
    (noteContent root typeless f).value = .rest typeless ∨
      ∃ step octave position, f.pitch = some (step, octave, position) ∧ typeless = false ∧
        (noteContent root typeless f).value = .pitch ⟨step, octave, 0⟩ := by
  unfold noteContent
  split
  · refine .inl ?_
    cases f.pitch with
    | none =>
      dsimp only
      split
      · rfl
      · rfl
    | some p =>
      dsimp only [Reported.value_bind]
      split
      · rfl
      · rfl
  · rename_i other
    have typed : typeless = false := by
      cases typeless with
      | false => rfl
      | true => simp at other
    split
    · rename_i step octave position pitch
      exact .inr ⟨step, octave, position, pitch, typed, rfl⟩
    · rw [typed]
      exact .inl rfl

theorem eraseDups_eq_self {ends : List StartStop} (h : ends.Nodup) : ends.eraseDups = ends := by
  induction ends with
  | nil => rfl
  | cons e ends ih =>
    obtain ⟨fresh, rest⟩ := List.nodup_cons.mp h
    have others : ends.filter (fun x => !x == e) = ends :=
      List.filter_eq_self.mpr fun x hx => by
        have ne : x ≠ e := fun eq => fresh (eq ▸ hx)
        simpa using ne
    rw [List.eraseDups_cons, others, ih rest]

theorem or_or_self (new old : Option α) : (new.or old).or old = new.or old := by
  rw [Option.or_assoc, Option.or_self]

section Settles

variable {root : Token} {f : NoteFields}

/-- The duration that is read is the one that the note says. -/
theorem lasting_noteOf (counted : f.Counted) :
    d.lasting (d.noteOf root f).1 = (d.noteOf root f).1.duration := by
  have grace : (d.noteOf root f).1.grace.isSome = f.grace := by
    show (if f.grace = true then some (⟨f.graceSlash⟩ : Grace) else none).isSome = f.grace
    cases f.grace <;> rfl
  rw [lasting, grace]
  show _ = (d.noteDuration root (rootType? root.terminal) f).value
  rw [value_noteDuration]
  split
  · rfl
  · show (rootType? root.terminal).elim d.fullMeasure (fun t => some (noteLength t
      (min countLimit f.dots) f.ratio)) = _
    rw [Nat.min_eq_right counted.dots]

/-- The beams that are read are those that their own marks ask for. -/
theorem resolve_beamRequest_noteOf (h : d.Unreported root f) :
    d.beams.resolve (d.noteOf root f).1.beamRequest =
      (d.beams.resolve
        { marks := f.beams.map (·.1), grace := f.grace, chord := f.chord
          beamable := (rootType? root.terminal).elim false NoteType.beamable
          position := root.position }).move (fun _ => 0) id := by
  have again := BeamState.resolve_beamMarks h.beams
  have grace : (if f.grace = true then some (⟨f.graceSlash⟩ : Grace) else none).isSome =
      f.grace := by
    cases f.grace <;> rfl
  have moved := resolve_move (fun _ => 0) d.beams (beamMarks (d.noteOf root f).1.beams) f.grace
    f.chord ((rootType? root.terminal).elim false NoteType.beamable) root.position
  have request : (d.noteOf root f).1.beamRequest =
      ⟨beamMarks (d.noteOf root f).1.beams, f.grace, f.chord,
        (rootType? root.terminal).elim false NoteType.beamable, 0⟩ :=
    congrArg (fun g => BeamRequest.mk _ g _ _ _) grace
  rw [request, moved]
  change d.beams.resolve ⟨beamMarks (d.noteOf root f).1.beams, _, _, _, _⟩ = _ at again
  rw [again]

theorem resolve_noteOf (h : d.Unreported root f) :
    (d.beams.resolve (d.noteOf root f).1.beamRequest).diagnostics = [] ∧
      (d.beams.resolve (d.noteOf root f).1.beamRequest).value =
        ((d.noteOf root f).1.beams, (d.noteOf root f).2.beams) := by
  rw [resolve_beamRequest_noteOf h]
  refine ⟨?_, rfl⟩
  rw [Reported.diagnostics_move, h.beams]
  rfl

theorem contentPitch?_content (n : Note) : contentPitch? n.content = n.pitch? := by
  unfold Note.pitch?
  cases n.content with
  | pitch p => rfl
  | rest m => rfl

/-- The echo of the note is the note, field by field. -/
theorem echo_noteOf (counted : f.Counted) (h : d.Unreported root f) :
    d.echo (d.noteOf root f).1 = (d.noteOf root f).1 := by
  have content : (d.noteOf root f).1.content.echo (d.noteOf root f).1.noteType.isNone =
      (d.noteOf root f).1.content := by
    show (noteContent root _ f).value.echo _ = (noteContent root _ f).value
    rcases value_noteContent root (rootType? root.terminal).isNone f with
      eq | ⟨step, octave, position, -, -, eq⟩
    · rw [eq]
      rfl
    · rw [eq]
      rfl
  have ties : (d.noteOf root f).1.ties.eraseDups = (d.noteOf root f).1.ties :=
    eraseDups_eq_self counted.ties
  have tuplets : (d.noteOf root f).1.markings.tuplets.eraseDups =
      (d.noteOf root f).1.markings.tuplets := eraseDups_eq_self counted.tuplets
  have dots : min countLimit (d.noteOf root f).1.dots = (d.noteOf root f).1.dots :=
    Nat.min_eq_right counted.dots
  have voice : (d.noteOf root f).1.voice.or d.sticky.voice = (d.noteOf root f).1.voice :=
    or_or_self ..
  have stem : (d.noteOf root f).1.stem.or d.sticky.stem = (d.noteOf root f).1.stem :=
    or_or_self ..
  have staff : (d.noteOf root f).1.staff.or d.sticky.staff = (d.noteOf root f).1.staff :=
    or_or_self ..
  have beams := congrArg Prod.fst (resolve_noteOf h).2
  rw [echo, content, lasting_noteOf counted, ties, tuplets, dots, voice, stem, staff, beams]

/-- The state behind the echo is the state behind the note. -/
theorem afterEcho_noteOf (counted : f.Counted) (h : d.Unreported root f) :
    d.afterEcho (d.noteOf root f).1 = (d.noteOf root f).2 := by
  have voice : (d.noteOf root f).1.voice.or d.sticky.voice = (d.noteOf root f).1.voice :=
    or_or_self ..
  have stem : (d.noteOf root f).1.stem.or d.sticky.stem = (d.noteOf root f).1.stem :=
    or_or_self ..
  have staff : (d.noteOf root f).1.staff.or d.sticky.staff = (d.noteOf root f).1.staff :=
    or_or_self ..
  have pitch : (d.noteOf root f).1.pitch?.map (fun p => { p with alter := 0 }) =
      contentPitch? (d.noteOf root f).1.content := by
    rw [← contentPitch?_content]
    show (contentPitch? (noteContent root _ f).value).map _ =
      contentPitch? (noteContent root _ f).value
    rcases value_noteContent root (rootType? root.terminal).isNone f with
      eq | ⟨step, octave, position, -, -, eq⟩
    · rw [eq]
      rfl
    · rw [eq]
      rfl
  have beams := congrArg Prod.snd (resolve_noteOf h).2
  rw [afterEcho, lasting_noteOf counted, voice, stem, staff, pitch, beams]
  rfl

theorem accepts_noteOf (counted : f.Counted) (h : d.Unreported root f) :
    d.Accepts (d.noteOf root f).1 where
  ties := counted.ties
  tuplets := counted.tuplets
  ascends chord p hp q hq := by
    have descent := h.descent
    have chord : f.chord = true := chord
    unfold reportDescent at descent
    rw [contentPitch?_content, chord, Option.mem_def.mp hp, Option.mem_def.mp hq] at descent
    dsimp only at descent
    split at descent
    · cases descent
    · rename_i order
      exact Int.not_lt.mp order
  lasts grace typeless := by
    have duration := h.duration
    have typeless : rootType? root.terminal = none := typeless
    have grace : f.grace = false := by
      change (if f.grace = true then some (⟨f.graceSlash⟩ : Grace) else none) = none at grace
      simpa using grace
    unfold noteDuration at duration
    rw [grace, typeless, if_neg Bool.false_ne_true] at duration
    dsimp only at duration
    split at duration
    · cases duration
    · rename_i known
      simpa [Option.isSome_iff_ne_none] using known
  length chord l hl l' hl' := by
    have length := h.length
    have chord : f.chord = true := chord
    rw [lasting_noteOf counted] at hl'
    unfold reportChordLength at length
    rw [chord, Option.mem_def.mp hl, Option.mem_def.mp hl'] at length
    dsimp only at length
    split at length
    · cases length
    · rename_i same
      exact not_not.mp same
  beams := (resolve_noteOf h).1

theorem legible_noteOf (legible : f.Legible) (sticky : d.sticky.Legible) :
    (d.noteOf root f).1.Legible where
  pitch p hp := by
    rw [← contentPitch?_content] at hp
    change p ∈ contentPitch? (noteContent root _ f).value at hp
    rcases value_noteContent root (rootType? root.terminal).isNone f with
      eq | ⟨step, octave, position, pitch, -, eq⟩
    · rw [eq] at hp
      cases hp
    · rw [eq] at hp
      cases hp
      exact ⟨Int.natCast_nonneg octave, legible.pitch _ pitch⟩
  voice := forall_mem_or legible.voice sticky.voice
  ratio := legible.ratio
  staff := forall_mem_or legible.staff sticky.staff
  marks t ht := by
    change t ∈ (tremolo root f).value at ht
    unfold tremolo at ht
    split at ht
    · cases ht
    · rename_i marks _ eq
      cases ht
      exact legible.marks _ eq
    · cases ht
      rfl

/-- A rest for a measure is what has no note type. -/
theorem isMeasureRest_noteOf :
    (d.noteOf root f).1.isMeasureRest = (d.noteOf root f).1.noteType.isNone := by
  show decide ((noteContent root (rootType? root.terminal).isNone f).value = .rest true) =
    (rootType? root.terminal).isNone
  rcases value_noteContent root (rootType? root.terminal).isNone f with
    eq | ⟨step, octave, position, -, typed, eq⟩
  · rw [eq]
    cases (rootType? root.terminal).isNone <;> rfl
  · rw [eq, typed]
    rfl

/-- **A note of which nothing is reported is read back as it is.** -/
theorem settles_noteOf (legible : f.Legible) (counted : f.Counted) (sticky : d.sticky.Legible)
    (h : d.Unreported root f) : d.Settles (d.noteOf root f).1 where
  echo := echo_noteOf counted h
  accepts := accepts_noteOf counted h
  legible := legible_noteOf legible sticky
  typeless typeless := by
    rw [isMeasureRest_noteOf, typeless]
    rfl

end Settles

end DecodingState

end LinearScore
