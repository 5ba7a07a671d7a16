import LinearScore.Proofs.Rereading

/-!
# The tokens of a measure

Whatever an element holds, and whatever is wrong with it, it emits no delimiter.  So the tokens of
a part are those of its measures, each behind one `measure`, and all of them lie in the vocabulary,
because what does not is reported and left out.

## Main definitions

* `Terminal.OfNote`: a terminal is neither a delimiter nor the root of attributes
* `writtenMeasures`: the terminals of each measure behind its `measure`

The main statements are `role_elementEmissions` and `value_encodeMeasures_written`.
-/

namespace LinearScore

/-- The terminal is neither a delimiter nor the root of attributes. -/
structure Terminal.OfNote (t : Terminal) : Prop where
  role : t.role ≠ .delimiter
  root : t.isAttributeRoot = false

namespace Terminal

/-- Modifiers are neither. -/
theorem ofNote_of_role {t : Terminal} (h : t.role = .leading ∨ t.role = .trailing) : t.OfNote := by
  constructor
  · rcases h with h | h
    · simp [h]
    · simp [h]
  · cases t with
    | key fifths => simp [role] at h
    | time => simp [role] at h
    | clef sign line => simp [role] at h
    | _ => rfl

theorem ofNote_noteType (noteType : NoteType) : (Terminal.noteType noteType).OfNote :=
  ⟨Role.noConfusion, rfl⟩

end Terminal

/-! ## What elements emit -/

namespace EncodingState

theorem ofNote_graceEmissions (g : Option Grace) :
    ∀ t ∈ emitted (graceEmissions g), t.OfNote := by
  cases g with
  | none => exact List.forall_mem_nil _
  | some g =>
    rw [graceEmissions, emitted_token, emitted_emitIf]
    exact List.forall_mem_cons.mpr ⟨Terminal.ofNote_of_role (.inl rfl),
      forall_mem_flagged _ (Terminal.ofNote_of_role (.inl rfl))⟩

theorem ofNote_contentEmissions (content : NoteContent) :
    ∀ t ∈ emitted (contentEmissions content), t.OfNote := by
  unfold contentEmissions
  split
  · exact List.forall_mem_singleton.mpr (Terminal.ofNote_of_role (.inl rfl))
  · split
    · exact List.forall_mem_singleton.mpr (Terminal.ofNote_of_role (.inl rfl))
    · exact List.forall_mem_nil _

theorem ofNote_rootEmissions (n : Note) : ∀ t ∈ emitted (rootEmissions n), t.OfNote := by
  unfold rootEmissions
  split
  · exact List.forall_mem_singleton.mpr (Terminal.ofNote_noteType _)
  · split
    · exact List.forall_mem_singleton.mpr ⟨Role.noConfusion, rfl⟩
    · exact List.forall_mem_nil _

/-- A note emits neither delimiters nor roots of attributes. -/
theorem ofNote_noteEmissions (s : EncodingState) (n : Note) :
    ∀ t ∈ emitted (s.noteEmissions n), t.OfNote := by
  have leading {t : Terminal} (h : t.role = .leading) : t.OfNote :=
    Terminal.ofNote_of_role (.inl h)
  have trailing : ∀ t ∈ emitted (s.trailingEmissions n), t.OfNote := by
    intro t ht
    rw [emitted_trailingEmissions] at ht
    exact Terminal.ofNote_of_role (.inr (NoteFields.mem_trailing ht))
  rw [noteEmissions, leadingEmissions]
  simp only [emitted_append, emitted_emitIf, emitted_emitChanged, emitted_lengthEmissions,
    List.append_nil, List.forall_mem_append]
  exact ⟨⟨⟨⟨⟨⟨forall_mem_flagged _ (leading rfl), ofNote_graceEmissions n.grace⟩,
    forall_mem_flagged _ (leading rfl)⟩, ofNote_contentEmissions n.content⟩,
    forall_mem_valued fun _ _ => leading rfl⟩, ofNote_rootEmissions n⟩, trailing⟩

/-- A backup or forward emits neither. -/
theorem ofNote_skipEmissions (divisions : Option Int) {marker : Terminal} (h : marker.OfNote)
    (duration : Rat) : ∀ t ∈ emitted (skipEmissions divisions marker duration), t.OfNote := by
  unfold skipEmissions
  split
  · exact List.forall_mem_nil _
  · split
    · exact List.forall_mem_nil _
    · dsimp only
      rw [emitted_append, emitted_faultIf, List.append_nil, emitted_flatMap]
      intro t ht
      obtain ⟨noteType, -, mem⟩ := List.mem_flatMap.mp ht
      rcases List.mem_cons.mp mem with rfl | mem
      · exact h
      · obtain rfl := List.mem_singleton.mp mem
        exact Terminal.ofNote_noteType noteType

theorem ofNote_backupEmissions (s : EncodingState) (d : Rat) :
    ∀ t ∈ emitted (s.emissions (.backup d)), t.OfNote := by
  rw [emissions, emitted_append, emitted_faultIf, List.append_nil]
  exact ofNote_skipEmissions _ (Terminal.ofNote_of_role (.inl rfl)) d

theorem ofNote_forwardEmissions (s : EncodingState) (d : Rat) :
    ∀ t ∈ emitted (s.emissions (.forward d)), t.OfNote :=
  ofNote_skipEmissions _ (Terminal.ofNote_of_role (.inl rfl)) d

/-- Attributes are written as items, and no item holds a delimiter. -/
theorem role_attributesEmissions (s : EncodingState) (a : Attributes) :
    ∀ t ∈ emitted (s.attributesEmissions a), t.role ≠ .delimiter := by
  intro t ht
  rw [emitted_attributesEmissions] at ht
  obtain ⟨item, mem, ht⟩ := List.mem_flatMap.mp ht
  obtain ⟨leading, root, trailing, rfl, hr, hl, htr⟩ := items_spelled (e := .attributes a) mem
  rw [Item.terminals_spelled, List.mem_append, List.mem_cons] at ht
  rcases ht with ht | rfl | ht
  · simp [hl t ht]
  · simp [hr]
  · simp [htr t ht]

/-- An element emits no delimiter. -/
theorem role_emissions (s : EncodingState) (e : Element) :
    ∀ t ∈ emitted (s.emissions e), t.role ≠ .delimiter := by
  cases e with
  | attributes a => exact s.role_attributesEmissions a
  | note n => exact fun t ht => (s.ofNote_noteEmissions n t ht).role
  | backup d => exact fun t ht => (s.ofNote_backupEmissions d t ht).role
  | forward d => exact fun t ht => (s.ofNote_forwardEmissions d t ht).role

end EncodingState

/-- **The elements of a measure emit no delimiter.** -/
theorem role_elementEmissions (s : EncodingState) (es : List Element) :
    ∀ t ∈ emitted (elementEmissions s es), t.role ≠ .delimiter := by
  induction es generalizing s with
  | nil => exact List.forall_mem_nil _
  | cons e es ih =>
    rw [elementEmissions, emitted_append]
    exact List.forall_mem_append.mpr ⟨s.role_emissions e, ih _⟩

/-! ## What is written -/

/-- The terminals that are written for each measure behind its `measure`. -/
def writtenMeasures (s : EncodingState) : List Measure → List (List Terminal)
  | [] => []
  | m :: ms =>
    (elementEmissions s.startMeasure m.elements).filterMap Emission.terminal? ::
      writtenMeasures (s.afterMeasure m) ms

theorem length_writtenMeasures (s : EncodingState) (ms : List Measure) :
    (writtenMeasures s ms).length = ms.length := by
  induction ms generalizing s with
  | nil => rfl
  | cons m ms ih => exact congrArg (· + 1) (ih _)

/-- What is written is the measures, each behind one `measure`. -/
theorem value_encodeMeasures_written (part : String) (s : EncodingState) (ms : List Measure) :
    (encodeMeasures part s ms).value = (writtenMeasures s ms).flatMap (.measure :: ·) := by
  induction ms generalizing s with
  | nil => rfl
  | cons m ms ih => exact congrArg (_ ++ ·) (ih _)

/-- What is written in a measure is emitted by the elements of one and lies in the vocabulary. -/
theorem of_mem_writtenMeasures {s : EncodingState} {ms : List Measure} {body : List Terminal}
    (h : body ∈ writtenMeasures s ms) :
    ∃ m ∈ ms, ∃ s, body = (emitted (elementEmissions s m.elements)).filter Terminal.valid := by
  induction ms generalizing s with
  | nil => cases h
  | cons m ms ih =>
    rcases List.mem_cons.mp h with rfl | later
    · exact ⟨m, List.mem_cons_self, _, filterMap_terminal? _⟩
    · obtain ⟨m', mem, found⟩ := ih later
      exact ⟨m', List.mem_cons_of_mem _ mem, found⟩

/-- No measure is written with a delimiter in it. -/
theorem role_of_mem_writtenMeasures {s : EncodingState} {ms : List Measure} :
    ∀ body ∈ writtenMeasures s ms, ∀ t ∈ body, t.role ≠ .delimiter := by
  intro body hb t ht
  obtain ⟨m, -, s, rfl⟩ := of_mem_writtenMeasures hb
  exact role_elementEmissions s m.elements t (List.mem_filter.mp ht).1

namespace Part

/-- What is written for measures lies in the vocabulary and is emitted for one of them. -/
theorem mem_encodeMeasures {partId : String} {s : EncodingState} {ms : List Measure} {t : Terminal}
    (h : t ∈ (encodeMeasures partId s ms).value) :
    t.valid = true ∧
      (t = .measure ∨ ∃ m ∈ ms, ∃ s, t ∈ emitted (elementEmissions s m.elements)) := by
  rw [value_encodeMeasures_written] at h
  obtain ⟨body, hb, ht⟩ := List.mem_flatMap.mp h
  rcases List.mem_cons.mp ht with rfl | ht
  · exact ⟨rfl, .inl rfl⟩
  · obtain ⟨m, hm, s, rfl⟩ := of_mem_writtenMeasures hb
    obtain ⟨mem, valid⟩ := List.mem_filter.mp ht
    exact ⟨valid, .inr ⟨m, hm, s, mem⟩⟩

/-- The terminals that are written lie in the vocabulary. -/
theorem valid_encodeTerminals (p : Part) : ∀ t ∈ p.encodeTerminals.value, t.valid = true :=
  fun _ ht => (mem_encodeMeasures ht).1

end Part

end LinearScore
