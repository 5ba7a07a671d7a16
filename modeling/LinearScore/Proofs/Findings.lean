import LinearScore.Proofs.Position

/-!
# What is found between tokens

Two kinds of defects have a place of their own: a text that spells no terminal is reported before
there are tokens, and durations that cannot be converted behind them all.  Whatever is reported in
between is found at a token.

## Main definitions

* `TokenFault.Between`: the faults of tokens with each other
* `Reported.Finds`: such faults at tokens are all that is reported
* `Reported.Records`: nothing is done besides, so no number has to be held

The main statement is `finds_decodeQuarters`.
-/

namespace LinearScore

variable {α β σ : Type}

/-- The fault is one that tokens have with each other. -/
def TokenFault.Between : TokenFault → Prop
  | .unknown _ | .conversion _ => False
  | _ => True

/-- The defect is one that tokens have with each other, found at one of them. -/
def Diagnostic.Between (d : Diagnostic) : Prop :=
  ∃ position fault, d = .atToken position fault ∧ fault.Between

/-- Only defects that tokens have with each other are reported. -/
def Reported.Finds (x : Reported α) : Prop := ∀ d ∈ x.diagnostics, d.Between

/-- Nothing is computed, and only defects that tokens have with each other are reported. -/
structure Reported.Records (x : Reported α) : Prop where
  finds : x.Finds
  fits : x.fits = true

/-- No such defect is a failed conversion. -/
theorem Diagnostic.Between.ne_conversion {d : Diagnostic} (h : d.Between) (fault : DurationFault) :
    d.defect ≠ .token (.conversion fault) := by
  obtain ⟨position, fault, rfl, between⟩ := h
  intro eq
  cases eq
  exact between

namespace Reported

@[simp] theorem finds_pure (a : α) : (pure a : Reported α).Finds := List.forall_mem_nil _

@[simp] theorem finds_reported (x : Checked α) : x.reported.Finds := List.forall_mem_nil _

@[simp] theorem finds_bind (x : Reported α) (k : α → Reported β) :
    (x >>= k).Finds ↔ x.Finds ∧ (k x.value).Finds := List.forall_mem_append

@[simp] theorem finds_map (g : α → β) (x : Reported α) : (g <$> x).Finds ↔ x.Finds := by
  rw [Finds, diagnostics_map, Finds]

@[simp] theorem finds_ite (p : Prop) [Decidable p] (x y : Reported α) :
    (if p then x else y).Finds ↔ (p → x.Finds) ∧ (¬p → y.Finds) := by
  split
  · rename_i h
    exact ⟨fun hx => ⟨fun _ => hx, fun n => absurd h n⟩, fun both => both.1 h⟩
  · rename_i h
    exact ⟨fun hy => ⟨fun n => absurd n h, fun _ => hy⟩, fun both => both.2 h⟩

@[simp] theorem records_pure (a : α) : (pure a : Reported α).Records := ⟨finds_pure a, rfl⟩

@[simp] theorem records_bind (x : Reported α) (k : α → Reported β) :
    (x >>= k).Records ↔ x.Records ∧ (k x.value).Records := by
  constructor
  · rintro ⟨finds, fits⟩
    rw [finds_bind] at finds
    rw [fits_bind, Bool.and_eq_true] at fits
    exact ⟨⟨finds.1, fits.1⟩, finds.2, fits.2⟩
  · rintro ⟨first, second⟩
    refine ⟨(finds_bind x k).mpr ⟨first.finds, second.finds⟩, ?_⟩
    rw [fits_bind, first.fits, second.fits]
    rfl

@[simp] theorem records_map (g : α → β) (x : Reported α) : (g <$> x).Records ↔ x.Records := by
  constructor
  · rintro ⟨finds, fits⟩
    exact ⟨(finds_map g x).mp finds, fits_map g x ▸ fits⟩
  · rintro ⟨finds, fits⟩
    exact ⟨(finds_map g x).mpr finds, (fits_map g x).trans fits⟩

@[simp] theorem records_ite (p : Prop) [Decidable p] (x y : Reported α) :
    (if p then x else y).Records ↔ (p → x.Records) ∧ (¬p → y.Records) := by
  split
  · rename_i h
    exact ⟨fun hx => ⟨fun _ => hx, fun n => absurd h n⟩, fun both => both.1 h⟩
  · rename_i h
    exact ⟨fun hy => ⟨fun n => absurd n h, fun _ => hy⟩, fun both => both.2 h⟩

/-- A loop records what its steps record. -/
theorem records_foldlM {step : σ → α → Reported σ} (h : ∀ s a, (step s a).Records) (s : σ)
    (as : List α) : (as.foldlM step s).Records := by
  induction as generalizing s with
  | nil => exact records_pure s
  | cons a as ih =>
    rw [List.foldlM_cons, records_bind]
    exact ⟨h s a, ih _⟩

end Reported

@[simp] theorem finds_report (position : Nat) (fault : TokenFault) :
    (report position fault).Finds ↔ fault.Between := by
  constructor
  · intro h
    obtain ⟨_, _, eq, between⟩ := h _ List.mem_cons_self
    cases eq
    exact between
  · intro h
    exact List.forall_mem_singleton.mpr ⟨position, fault, rfl, h⟩

@[simp] theorem records_report (position : Nat) (fault : TokenFault) :
    (report position fault).Records ↔ fault.Between :=
  ⟨fun h => (finds_report position fault).mp h.finds,
    fun between => ⟨(finds_report position fault).mpr between, rfl⟩⟩

/-! ## Fields -/

namespace Offer

variable (o : Offer)

@[simp] theorem records_additional : o.additional.Records := (records_report _ _).mpr trivial

@[simp] theorem records_unexpected : o.unexpected.Records := (records_report _ _).mpr trivial

@[simp] theorem records_fill (field : Option α) (value : α) : (o.fill field value).Records := by
  cases field <;> simp [fill]

@[simp] theorem records_raise (flag : Bool) : (o.raise flag).Records := by
  cases flag <;> simp [raise]

@[simp] theorem records_addEnd (ends : List StartStop) (e : StartStop) :
    (o.addEnd ends e).Records := by
  simp [addEnd]

end Offer

namespace NoteFields

theorem records_addLeading (root : Terminal) (f : NoteFields) (t : Token) :
    (addLeading root f t).Records := by
  unfold addLeading
  dsimp only
  split <;> simp

theorem records_addMarking {o : Offer} {m : Markings} {t : Terminal} {r : Reported Markings}
    (h : addMarking o m t = some r) : r.Records := by
  unfold addMarking at h
  split at h <;> cases h <;> simp

theorem records_addTrailing (root : Terminal) (f : NoteFields) (t : Token) :
    (addTrailing root f t).Records := by
  unfold addTrailing
  dsimp only
  cases marking : addMarking ⟨t, .trailing, root⟩ f.markings t.terminal with
  | none => split <;> simp [marking]
  | some markings => split <;> simp [marking, records_addMarking marking]

end NoteFields

namespace Item

variable (item : Item)

@[simp] theorem records_noteFields : item.noteFields.Records := by
  rw [noteFields, Reported.records_bind]
  exact ⟨Reported.records_foldlM (NoteFields.records_addLeading _) _ _,
    Reported.records_foldlM (NoteFields.records_addTrailing _) _ _⟩

@[simp] theorem records_skipRatio (marker : Terminal) : (item.skipRatio marker).Records := by
  rw [skipRatio, Reported.records_bind]
  refine ⟨Reported.records_foldlM (fun seen t => ?_) _ _,
    Reported.records_foldlM (fun ratio t => ?_) _ _⟩
  · simp [addMarker]
  · unfold addSkipRatio
    dsimp only
    split <;> simp

@[simp] theorem records_reportAll (root : Terminal) (side : Side) (tokens : List Token) :
    (reportAll root side tokens).Records := by
  induction tokens with
  | nil => exact Reported.records_pure ()
  | cons t tokens ih => simp [reportAll, ih]

@[simp] theorem records_timeFields : item.timeFields.Records := by
  rw [timeFields, Reported.records_bind]
  refine ⟨records_reportAll _ _ _, Reported.records_foldlM (fun fields t => ?_) _ _⟩
  unfold addTimeField
  dsimp only
  split <;> simp

@[simp] theorem records_clefStaff : item.clefStaff.Records := by
  rw [clefStaff, Reported.records_bind]
  refine ⟨records_reportAll _ _ _, Reported.records_foldlM (fun staff t => ?_) _ _⟩
  unfold addClefStaff
  dsimp only
  split <;> simp

@[simp] theorem records_reportKeyModifiers : item.reportKeyModifiers.Records := by
  simp [reportKeyModifiers]

end Item

/-! ## Elements -/

namespace DecodingState

@[simp] theorem records_timeSignature (item : Item) : (timeSignature item).Records := by
  simp [timeSignature, TokenFault.Between]

theorem finds_attributes (s : DecodingState) (a : Attributes) (item : Item) :
    (s.attributes a item).Finds := by
  unfold attributes
  split <;> simp [(records_timeSignature item).finds, (item.records_clefStaff).finds,
    (item.records_reportKeyModifiers).finds, TokenFault.Between]

theorem finds_skip (s : DecodingState) (item : Item) (marker : Terminal) :
    (s.skip item marker).Finds := by
  rw [skip, Reported.finds_bind]
  refine ⟨(item.records_skipRatio marker).finds, ?_⟩
  split
  · rw [Reported.finds_bind]
    exact ⟨Reported.finds_reported _, by split <;> simp⟩
  · simp [TokenFault.Between]

theorem records_noteContent (root : Token) (typeless : Bool) (f : NoteFields) :
    (noteContent root typeless f).Records := by
  unfold noteContent
  cases f.pitch <;> simp [TokenFault.Between]

theorem records_reportDescent (s : Sticky) (root : Token) (chord : Bool) (content : NoteContent) :
    (reportDescent s root chord content).Records := by
  unfold reportDescent
  split <;> simp [TokenFault.Between]

theorem finds_noteDuration (s : DecodingState) (root : Token) (noteType : Option NoteType)
    (f : NoteFields) : (s.noteDuration root noteType f).Finds := by
  unfold noteDuration
  cases noteType <;> simp [TokenFault.Between]

theorem records_reportChordLength (s : Sticky) (root : Token) (chord : Bool)
    (duration : Option Rat) : (reportChordLength s root chord duration).Records := by
  unfold reportChordLength
  split <;> simp [TokenFault.Between]

theorem records_tremolo (root : Token) (f : NoteFields) : (tremolo root f).Records := by
  unfold tremolo
  split <;> simp [TokenFault.Between]

theorem finds_resolve (s : BeamState) (r : BeamRequest) : (s.resolve r).Finds := by
  simp [BeamState.resolve, BeamState.reportClosed, TokenFault.Between]

theorem finds_note (s : DecodingState) (item : Item) : (s.note item).Finds := by
  simp [note, item.records_noteFields.finds, (records_noteContent _ _ _).finds,
    (records_reportDescent _ _ _ _).finds, finds_noteDuration,
    (records_reportChordLength _ _ _ _).finds, finds_resolve, (records_tremolo _ _).finds,
    TokenFault.Between]

theorem finds_element (s : DecodingState) (item : Item) : (s.element item).Finds := by
  unfold element
  split
  · exact s.finds_skip item _
  · simp [finds_note]

end DecodingState

/-! ## Streams -/

namespace Item

@[simp] theorem records_reportDangling (tokens : List Token) : (reportDangling tokens).Records := by
  induction tokens with
  | nil => exact Reported.records_pure ()
  | cons t tokens ih => simp [reportDangling, ih, TokenFault.Between]

theorem records_ofTokensFrom (current : Option Item) (leading tokens : List Token) :
    (ofTokensFrom current leading tokens).Records := by
  induction tokens generalizing current leading with
  | nil => simp [ofTokensFrom]
  | cons t tokens ih =>
    cases role : t.terminal.role with
    | leading =>
      rw [ofTokensFrom_leading _ _ _ role]
      exact ih _ _
    | trailing =>
      cases current with
      | some item =>
        rw [ofTokensFrom_trailing _ _ role]
        exact ih _ _
      | none =>
        rw [ofTokensFrom_trailing_none _ _ role]
        simp [ih, TokenFault.Between]
    | root =>
      rw [ofTokensFrom_root _ _ _ role]
      simp [ih]
    | delimiter =>
      rw [ofTokensFrom_delimiter _ _ _ role]
      simp [ih, TokenFault.Between]

theorem records_ofTokens (tokens : List Token) : (ofTokens tokens).Records :=
  records_ofTokensFrom none [] tokens

end Item

theorem records_measureClusters (tokens : List Token) : (measureClusters tokens).Records := by
  unfold measureClusters
  split <;> simp [TokenFault.Between]

theorem finds_decodeItems (s : DecodingState) (run : Option Attributes) (items : List Item) :
    (decodeItems s run items).Finds := by
  induction items generalizing s run with
  | nil => exact Reported.finds_pure _
  | cons item items ih =>
    unfold decodeItems
    split
    · exact (Reported.finds_bind _ _).mpr ⟨s.finds_attributes _ item, ih _ _⟩
    · simp [s.finds_element item, ih]

theorem finds_decodeMeasures (s : DecodingState) (number : Int) (clusters : List (List Token)) :
    (decodeMeasures s number clusters).Finds := by
  induction clusters generalizing s number with
  | nil => exact Reported.finds_pure _
  | cons cluster clusters ih =>
    simp [decodeMeasures, decodeMeasure, (Item.records_ofTokens _).finds, finds_decodeItems, ih]

end LinearScore
