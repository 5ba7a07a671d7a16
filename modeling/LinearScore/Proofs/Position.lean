import LinearScore.Decoding.Part
import LinearScore.Proofs.Grouping
import LinearScore.Proofs.Pieces

/-!
# Positions

A position says where in the stream a token stands.  Decoding hands positions on from tokens to
items and from items to the fields of a note, but only diagnostics ever read them: when the tokens
are moved by a map of positions, the same map moves the diagnostics, and the part stays as it is.

## Main definitions

* `Token.move`, `Item.move`, `NoteFields.move`: the same data at other positions
* `Reported.move`: a result with its value changed and its diagnostics moved

The main statement is `decodeTokens_move`.  It allows every question about the decoded part to be
asked at tokens that all stand at one position, see `value_decodeTokens`.
-/

namespace LinearScore

variable {α β γ : Type} (f : Nat → Nat)

/-- The token at another position. -/
def Token.move (t : Token) : Token := { t with position := f t.position }

/-- The diagnostic at another position. -/
def Diagnostic.move (d : Diagnostic) : Diagnostic := { d with position := d.position.map f }

/-- The item at other positions. -/
def Item.move (item : Item) : Item where
  root := item.root.move f
  leading := item.leading.map (Token.move f)
  trailing := item.trailing.map (Token.move f)

/-- The fields at other positions. -/
def NoteFields.move (fields : NoteFields) : NoteFields :=
  { fields with
    rest := fields.rest.map f
    pitch := fields.pitch.map fun p => (p.1, p.2.1, f p.2.2)
    beams := fields.beams.map fun b => (b.1, f b.2) }

/-- The result with its value changed by `g` and its diagnostics at other positions. -/
def Reported.move (g : α → β) (x : Reported α) : Reported β :=
  ⟨g x.value, x.diagnostics.map (Diagnostic.move f), x.fits⟩

@[simp] theorem Token.move_terminal (t : Token) : (t.move f).terminal = t.terminal := rfl

@[simp] theorem Token.move_position (t : Token) : (t.move f).position = f t.position := rfl

@[simp] theorem Item.move_root (item : Item) : (item.move f).root = item.root.move f := rfl

namespace Reported

@[simp] theorem value_move (g : α → β) (x : Reported α) : (x.move f g).value = g x.value := rfl

@[simp] theorem diagnostics_move (g : α → β) (x : Reported α) :
    (x.move f g).diagnostics = x.diagnostics.map (Diagnostic.move f) := rfl

@[simp] theorem fits_move (g : α → β) (x : Reported α) : (x.move f g).fits = x.fits := rfl

@[simp] theorem move_pure (g : α → β) (a : α) : (pure a : Reported α).move f g = pure (g a) := rfl

@[simp] theorem move_reported (x : Checked α) : x.reported.move f id = x.reported := rfl

theorem move_bind (g : α → β) (x : Reported γ) (k : γ → Reported α) :
    (x >>= k).move f g = x.move f id >>= fun a => (k a).move f g :=
  Reported.ext rfl List.map_append rfl

theorem bind_move (g : γ → α) (x : Reported γ) (k : α → Reported β) :
    x.move f g >>= k = x.move f id >>= fun c => k (g c) := rfl

@[simp] theorem move_map (g : γ → α) (h : α → β) (x : Reported γ) :
    (g <$> x).move f h = (fun c => h (g c)) <$> x.move f id :=
  Reported.ext rfl (by simp) (by simp)

@[simp] theorem move_ite (p : Prop) [Decidable p] (g : α → β) (x y : Reported α) :
    (if p then x else y).move f g = if p then x.move f g else y.move f g := by
  split
  · rfl
  · rfl

/-- A map of positions passes through a fold whose steps it passes through. -/
theorem foldlM_move {σ : Type} (g : σ → σ) (step : σ → Token → Reported σ)
    (h : ∀ s t, step (g s) (t.move f) = (step s t).move f g) (s : σ) (tokens : List Token) :
    (tokens.map (Token.move f)).foldlM step (g s) = (tokens.foldlM step s).move f g := by
  induction tokens generalizing s with
  | nil => rfl
  | cons t tokens ih =>
    rw [List.map_cons, List.foldlM_cons, List.foldlM_cons, move_bind, h]
    refine Reported.ext ?_ ?_ ?_
    · simp [ih]
    · simp [ih]
    · simp [ih]

end Reported

@[simp] theorem move_report (position : Nat) (fault : TokenFault) :
    (report position fault).move f id = report (f position) fault := rfl

/-! ## Fields -/

namespace Offer

/-- The offer of the same modifier at another position. -/
def move (o : Offer) : Offer := { o with token := o.token.move f }

theorem unexpected_move (o : Offer) : (o.move f).unexpected = o.unexpected.move f id := rfl

theorem fill_move (o : Offer) (field : Option α) (value : α) :
    (o.move f).fill field value = (o.fill field value).move f id := by
  cases field with
  | none => rfl
  | some old => rfl

theorem raise_move (o : Offer) (flag : Bool) :
    (o.move f).raise flag = (o.raise flag).move f id := by
  cases flag with
  | false => rfl
  | true => rfl

theorem addEnd_move (o : Offer) (ends : List StartStop) (e : StartStop) :
    (o.move f).addEnd ends e = (o.addEnd ends e).move f id := by
  unfold addEnd
  split
  · rfl
  · rfl

end Offer

namespace NoteFields

theorem addLeading_move (root : Terminal) (fields : NoteFields) (t : Token) :
    addLeading root (fields.move f) (t.move f) = (addLeading root fields t).move f (move f) := by
  obtain ⟨terminal, position⟩ := t
  obtain ⟨unprinted, grace, slash, chord, rest, pitch, voice⟩ := fields
  -- the step only looks at the one field that the terminal belongs to
  cases terminal with
  | unprinted => cases unprinted <;> rfl
  | grace => cases grace <;> rfl
  | graceSlash => cases slash <;> rfl
  | chord => cases chord <;> rfl
  | rest => cases rest <;> rfl
  | pitch step octave => cases pitch <;> rfl
  | voice n => cases voice <;> rfl
  | _ => rfl

theorem addTrailing_move (root : Terminal) (fields : NoteFields) (t : Token) :
    addTrailing root (fields.move f) (t.move f) = (addTrailing root fields t).move f (move f) := by
  obtain ⟨terminal, position⟩ := t
  have ends (list : List StartStop) (e : StartStop) :=
    Offer.addEnd_move f ⟨⟨terminal, position⟩, .trailing, root⟩ list e
  have raise (flag : Bool) :=
    Offer.raise_move f ⟨⟨terminal, position⟩, .trailing, root⟩ flag
  have fill {α : Type} (field : Option α) (value : α) :=
    Offer.fill_move f ⟨⟨terminal, position⟩, .trailing, root⟩ field value
  have unexpected := Offer.unexpected_move f ⟨⟨terminal, position⟩, .trailing, root⟩
  simp only [Offer.move] at ends raise fill unexpected
  cases terminal <;> simp [addTrailing, addMarking, NoteFields.move, ends, raise,
    fill, unexpected]

end NoteFields

namespace Item

theorem noteFields_move (item : Item) :
    (item.move f).noteFields = item.noteFields.move f (NoteFields.move f) := by
  have leading := Reported.foldlM_move f (NoteFields.move f) _
    (NoteFields.addLeading_move f item.root.terminal) {} item.leading.reverse
  have trailing (fields : NoteFields) := Reported.foldlM_move f (NoteFields.move f) _
    (NoteFields.addTrailing_move f item.root.terminal) fields item.trailing
  rw [List.map_reverse, show NoteFields.move f {} = {} from rfl] at leading
  simp only [noteFields, move, Token.move_terminal, leading]
  rw [Reported.move_bind, Reported.bind_move]
  simp only [trailing]

theorem addMarker_move (root marker : Terminal) (seen : Bool) (t : Token) :
    addMarker root marker seen (t.move f) = (addMarker root marker seen t).move f id := by
  have raise := Offer.raise_move f ⟨t, .leading, root⟩ seen
  have unexpected := Offer.unexpected_move f ⟨t, .leading, root⟩
  simp only [Offer.move] at raise unexpected
  by_cases h : t.terminal = marker
  · simp [addMarker, h, raise]
  · simp [addMarker, h, unexpected]

theorem addSkipRatio_move (root : Terminal) (ratio : Option TupletRatio) (t : Token) :
    addSkipRatio root ratio (t.move f) = (addSkipRatio root ratio t).move f id := by
  have fill (r : TupletRatio) := Offer.fill_move f ⟨t, .trailing, root⟩ ratio r
  have unexpected := Offer.unexpected_move f ⟨t, .trailing, root⟩
  simp only [Offer.move] at fill unexpected
  obtain ⟨terminal, position⟩ := t
  cases terminal <;> simp [addSkipRatio, fill, unexpected]

theorem skipRatio_move (item : Item) (marker : Terminal) :
    (item.move f).skipRatio marker = (item.skipRatio marker).move f id := by
  unfold skipRatio
  have leading := Reported.foldlM_move f id _
    (addMarker_move f item.root.terminal marker) false item.leading.reverse
  have trailing := Reported.foldlM_move f id _
    (addSkipRatio_move f item.root.terminal) none item.trailing
  rw [List.map_reverse] at leading
  simp only [id_eq] at leading trailing
  rw [Reported.move_bind]
  simp [move, leading, trailing]

theorem reportAll_move (root : Terminal) (side : Side) (tokens : List Token) :
    reportAll root side (tokens.map (Token.move f)) = (reportAll root side tokens).move f id := by
  induction tokens with
  | nil => rfl
  | cons t tokens ih =>
    have unexpected := Offer.unexpected_move f ⟨t, side, root⟩
    simp only [Offer.move] at unexpected
    rw [List.map_cons, reportAll, reportAll, Reported.move_bind, ih, unexpected]

theorem addTimeField_move (root : Terminal) (fields : Option Nat × Option Nat) (t : Token) :
    addTimeField root fields (t.move f) = (addTimeField root fields t).move f id := by
  have fill (field : Option Nat) (n : Nat) :=
    Offer.fill_move f ⟨t, .trailing, root⟩ field n
  have unexpected := Offer.unexpected_move f ⟨t, .trailing, root⟩
  simp only [Offer.move] at fill unexpected
  obtain ⟨terminal, position⟩ := t
  cases terminal <;> simp [addTimeField, fill, unexpected]

theorem timeFields_move (item : Item) : (item.move f).timeFields = item.timeFields.move f id := by
  have trailing := Reported.foldlM_move f id _
    (addTimeField_move f item.root.terminal) (none, none) item.trailing
  simp only [id_eq] at trailing
  simp [timeFields, move, reportAll_move, trailing, Reported.move_bind]

theorem addClefStaff_move (root : Terminal) (staff : Option Nat) (t : Token) :
    addClefStaff root staff (t.move f) = (addClefStaff root staff t).move f id := by
  have fill (n : Nat) := Offer.fill_move f ⟨t, .trailing, root⟩ staff n
  have unexpected := Offer.unexpected_move f ⟨t, .trailing, root⟩
  simp only [Offer.move] at fill unexpected
  obtain ⟨terminal, position⟩ := t
  cases terminal <;> simp [addClefStaff, fill, unexpected]

theorem clefStaff_move (item : Item) : (item.move f).clefStaff = item.clefStaff.move f id := by
  have trailing := Reported.foldlM_move f id _
    (addClefStaff_move f item.root.terminal) none item.trailing
  simp only [id_eq] at trailing
  simp [clefStaff, move, reportAll_move, trailing, Reported.move_bind]

theorem reportKeyModifiers_move (item : Item) :
    (item.move f).reportKeyModifiers = item.reportKeyModifiers.move f id := by
  simp [reportKeyModifiers, move, reportAll_move, Reported.move_bind]

end Item

/-! ## Elements -/

namespace DecodingState

theorem timeSignature_move (item : Item) :
    timeSignature (item.move f) = (timeSignature item).move f id := by
  unfold timeSignature
  rw [Item.timeFields_move, Reported.move_bind]
  refine congrArg _ (funext fun fields => ?_)
  simp [Reported.move_bind]

theorem attributes_move (s : DecodingState) (a : Attributes) (item : Item) :
    s.attributes a (item.move f) = (s.attributes a item).move f id := by
  unfold attributes
  rw [Item.move_root, Token.move_terminal]
  cases item.root.terminal with
  | key fifths =>
    rw [Item.reportKeyModifiers_move]
    simp [Reported.move_bind]
  | time =>
    rw [timeSignature_move]
    simp [Reported.move_bind]
  | clef sign line =>
    rw [Item.clefStaff_move]
    simp
  | _ => rfl

theorem skip_move (s : DecodingState) (item : Item) (marker : Terminal) :
    s.skip (item.move f) marker = (s.skip item marker).move f id := by
  unfold skip
  rw [Item.skipRatio_move, Reported.move_bind, Item.move_root, Token.move_terminal]
  refine congrArg _ (funext fun ratio => ?_)
  cases item.root.terminal <;> simp [Reported.move_bind]

theorem noteContent_move (root : Token) (measureRest : Bool) (fields : NoteFields) :
    noteContent (root.move f) measureRest (fields.move f) =
      (noteContent root measureRest fields).move f id := by
  obtain ⟨unprinted, grace, slash, chord, rest, pitch, voice⟩ := fields
  cases pitch with
  | none => simp [noteContent, NoteFields.move]
  | some p => simp [noteContent, NoteFields.move, Reported.move_bind]

theorem reportDescent_move (s : Sticky) (root : Token) (chord : Bool) (content : NoteContent) :
    reportDescent s (root.move f) chord content =
      (reportDescent s root chord content).move f id := by
  unfold reportDescent
  split
  · simp
  · rfl

theorem noteDuration_move (s : DecodingState) (root : Token) (noteType : Option NoteType)
    (fields : NoteFields) :
    s.noteDuration (root.move f) noteType (fields.move f) =
      (s.noteDuration root noteType fields).move f id := by
  have grace : (fields.move f).grace = fields.grace := rfl
  unfold noteDuration
  rw [grace]
  cases noteType with
  | none => simp
  | some t => simp [NoteFields.move]

theorem reportChordLength_move (s : Sticky) (root : Token) (chord : Bool)
    (duration : Option Rat) :
    reportChordLength s (root.move f) chord duration =
      (reportChordLength s root chord duration).move f id := by
  unfold reportChordLength
  split
  · simp
  · rfl

theorem tremolo_move (root : Token) (fields : NoteFields) :
    tremolo (root.move f) (fields.move f) = (tremolo root fields).move f id := by
  obtain ⟨_, _, _, _, _, _, _, _, _, _, _, _, _, _, _, kind, marks⟩ := fields
  cases kind <;> cases marks <;> simp [tremolo, NoteFields.move]

theorem resolve_move (s : BeamState) (marks : List BeamMark) (grace chord beamable : Bool)
    (position : Nat) :
    s.resolve ⟨marks, grace, chord, beamable, f position⟩ =
      (s.resolve ⟨marks, grace, chord, beamable, position⟩).move f id := by
  simp [BeamState.resolve, BeamState.reportClosed, Reported.move_bind]

@[simp] theorem stick_move (s : Sticky) (fields : NoteFields) :
    stick s (fields.move f) = stick s fields := rfl

theorem note_move (s : DecodingState) (item : Item) :
    s.note (item.move f) = (s.note item).move f id := by
  unfold note
  rw [Item.noteFields_move, Reported.bind_move, Reported.move_bind]
  refine congrArg _ (funext fun fields => ?_)
  have marks : (fields.move f).beams.map (·.1) = fields.beams.map (·.1) := by
    simp [NoteFields.move]
  simp only [Item.move_root, Token.move_terminal, Token.move_position, noteContent_move,
    reportDescent_move, noteDuration_move, reportChordLength_move, tremolo_move, resolve_move,
    marks, stick_move, Reported.move_bind, Reported.move_ite, move_report,
    Reported.move_pure]
  rfl

end DecodingState

theorem Item.marker?_move (item : Item) : (item.move f).marker? = item.marker? := by
  simp [Item.marker?, Item.move, Function.comp_def]

theorem DecodingState.element_move (s : DecodingState) (item : Item) :
    s.element (item.move f) = (s.element item).move f id := by
  unfold element
  rw [Item.marker?_move]
  cases item.marker? with
  | none =>
    dsimp only
    rw [note_move]
    simp
  | some marker => exact skip_move f s item marker

/-! ## Streams -/

theorem Item.reportDangling_move (tokens : List Token) :
    reportDangling (tokens.map (Token.move f)) = (reportDangling tokens).move f id := by
  induction tokens with
  | nil => rfl
  | cons t tokens ih => simp [reportDangling, ih, Reported.move_bind]

theorem Item.ofTokensFrom_move (current : Option Item) (leading tokens : List Token) :
    ofTokensFrom (current.map (move f)) (leading.map (Token.move f)) (tokens.map (Token.move f)) =
      (ofTokensFrom current leading tokens).move f (List.map (move f)) := by
  induction tokens generalizing current leading with
  | nil =>
    simp only [List.map_nil, ofTokensFrom, reportDangling_move, Reported.move_bind]
    cases current with
    | none => rfl
    | some item => rfl
  | cons t tokens ih =>
    have role : (t.move f).terminal.role = t.terminal.role := rfl
    rw [List.map_cons]
    cases h : t.terminal.role with
    | delimiter =>
      rw [ofTokensFrom_delimiter _ _ _ h, ofTokensFrom_delimiter _ _ _ (role.trans h), ih]
      rfl
    | root =>
      have step := ih (some ⟨t, leading, []⟩) []
      simp only [Option.map_some, move, List.map_nil] at step
      rw [ofTokensFrom_root _ _ _ h, ofTokensFrom_root _ _ _ (role.trans h), step]
      cases current <;> exact Reported.ext (by simp) (by simp) (by simp)
    | leading =>
      have step := ih current (leading ++ [t])
      rw [List.map_append] at step
      rw [ofTokensFrom_leading _ _ _ h, ofTokensFrom_leading _ _ _ (role.trans h), ← step]
      rfl
    | trailing =>
      cases current with
      | none =>
        have step := ih none leading
        rw [ofTokensFrom_trailing_none _ _ h, Option.map_none,
          ofTokensFrom_trailing_none _ _ (role.trans h), Reported.move_bind, ← step]
        rfl
      | some item =>
        have step := ih (some { item with trailing := item.trailing ++ [t] }) leading
        rw [ofTokensFrom_trailing _ _ h, Option.map_some,
          ofTokensFrom_trailing _ _ (role.trans h), ← step]
        simp [move]

theorem Item.ofTokens_move (tokens : List Token) :
    ofTokens (tokens.map (Token.move f)) = (ofTokens tokens).move f (List.map (move f)) :=
  ofTokensFrom_move f none [] tokens

theorem measureClusters_move (tokens : List Token) :
    measureClusters (tokens.map (Token.move f)) =
      (measureClusters tokens).move f (List.map (List.map (Token.move f))) := by
  have split := splitOnP_map (Token.move f) (fun t : Token => t.terminal = .measure) tokens
  have same : ((fun t : Token => decide (t.terminal = .measure)) ∘ Token.move f) =
      fun t => decide (t.terminal = .measure) := rfl
  rw [measureClusters, split, same, measureClusters]
  cases tokens.splitOnP (fun t => t.terminal = .measure) with
  | nil => rfl
  | cons head clusters =>
    cases head with
    | nil => rfl
    | cons first others => simp

theorem decodeItems_move (s : DecodingState) (run : Option Attributes) (items : List Item) :
    decodeItems s run (items.map (Item.move f)) = (decodeItems s run items).move f id := by
  induction items generalizing s run with
  | nil => rfl
  | cons item items ih =>
    rw [List.map_cons, decodeItems, decodeItems, Item.move_root, Token.move_terminal]
    split
    · rw [DecodingState.attributes_move, Reported.move_bind]
      simp only [ih]
    · rw [DecodingState.element_move, Reported.move_bind]
      simp [ih]

theorem decodeMeasure_move (s : DecodingState) (number : Int) (tokens : List Token) :
    decodeMeasure s number (tokens.map (Token.move f)) =
      (decodeMeasure s number tokens).move f id := by
  unfold decodeMeasure
  rw [Reported.move_bind, Reported.move_reported]
  refine congrArg _ (funext fun number => ?_)
  rw [Item.ofTokens_move, Reported.bind_move, Reported.move_bind]
  simp [decodeItems_move, Reported.move_bind]

theorem decodeMeasures_move (s : DecodingState) (number : Int) (clusters : List (List Token)) :
    decodeMeasures s number (clusters.map (List.map (Token.move f))) =
      (decodeMeasures s number clusters).move f id := by
  induction clusters generalizing s number with
  | nil => rfl
  | cons cluster clusters ih =>
    rw [List.map_cons, decodeMeasures, decodeMeasures, decodeMeasure_move, Reported.move_bind]
    simp [ih]

theorem decodeQuarters_move (tokens : List Token) :
    decodeQuarters (tokens.map (Token.move f)) = (decodeQuarters tokens).move f id := by
  unfold decodeQuarters
  rw [measureClusters_move, Reported.bind_move, Reported.move_bind]
  simp [decodeMeasures_move, Reported.move_bind]

/-- Moving the tokens moves the diagnostics and leaves the part as it is. -/
theorem decodeTokens_move (quarters : Bool) (tokens : List Token) :
    decodeTokens quarters (tokens.map (Token.move f)) =
      (decodeTokens quarters tokens).move f id := by
  have ticks (p : Part) : (ticksOf p).move f id = ticksOf p := by
    rw [ticksOf, Reported.move_bind, Reported.move_reported]
    refine congrArg _ (funext fun conversion => ?_)
    split
    · rfl
    · rfl
  unfold decodeTokens
  rw [decodeQuarters_move, Reported.move_bind]
  simp [ticks]

/-! ## Tokens without positions -/

/-- The token of a terminal where the position does not matter. -/
def Token.unplaced (t : Terminal) : Token := ⟨t, 0⟩

@[simp] theorem Token.unplaced_terminal (t : Terminal) : (unplaced t).terminal = t := rfl

theorem Token.map_move_zero (tokens : List Token) :
    tokens.map (Token.move fun _ => 0) = (tokens.map Token.terminal).map unplaced := by
  rw [List.map_map]
  rfl

/-- The part only depends on the terminals of the tokens, -/
theorem value_decodeTokens (quarters : Bool) (tokens : List Token) :
    (decodeTokens quarters tokens).value =
      (decodeTokens quarters ((tokens.map Token.terminal).map Token.unplaced)).value := by
  rw [← Token.map_move_zero, decodeTokens_move]
  rfl

/-- and so does the question whether all numbers are held, -/
theorem fits_decodeTokens_unplaced (quarters : Bool) (tokens : List Token) :
    (decodeTokens quarters tokens).fits =
      (decodeTokens quarters ((tokens.map Token.terminal).map Token.unplaced)).fits := by
  rw [← Token.map_move_zero, decodeTokens_move]
  rfl

/-- and the question whether anything is reported. -/
theorem diagnostics_decodeTokens_eq_nil (quarters : Bool) (tokens : List Token) :
    (decodeTokens quarters tokens).diagnostics = [] ↔
      (decodeTokens quarters ((tokens.map Token.terminal).map Token.unplaced)).diagnostics =
        [] := by
  rw [← Token.map_move_zero, decodeTokens_move, Reported.diagnostics_move, List.map_eq_nil_iff]

end LinearScore
