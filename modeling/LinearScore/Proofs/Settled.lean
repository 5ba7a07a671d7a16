import LinearScore.Proofs.ChordOrder
import LinearScore.Proofs.ClefTable
import LinearScore.Proofs.Legible

/-!
# Measures that are read from the vocabulary

Where nothing is reported of valid tokens, what is read is in the form that reading gives: each
note is read back as it is, attributes say what tokens can say, backups and forwards go somewhere,
no two attributes, backups or forwards stand next to each other, and chords ascend.

## Main definitions

* `DecodingState.Reads`, `DecodingState.afterRead`: an element that is read, and the state behind
* `Ordered`: elements that reading leaves in their places
* `MeasuresRead`: measures as they are read

The main statement is `measuresRead_decodeMeasures`.
-/

namespace LinearScore

/-- The clef lies in the vocabulary, its sign in upper case. -/
structure Clef.Legible (c : Clef) : Prop where
  sign : ∃ t, c.terminal? = some t ∧ t.valid = true
  upper : c.upper = c
  number : ∀ n ∈ c.number, (Terminal.staff n).valid = true

/-- The attributes say what tokens can say. -/
structure Attributes.Legible (a : Attributes) : Prop where
  divisions : a.divisions = none
  staves : a.staves = none
  key : ∀ k ∈ a.key, (Terminal.key k.fifths).valid = true
  time : ∀ t ∈ a.time,
    (Terminal.beats t.beats).valid = true ∧ (Terminal.beatType t.beatType).valid = true
  clefs : ∀ c ∈ a.clefs, c.Legible

namespace DecodingState

/-- An element as it is read in some state. -/
def Reads (d : DecodingState) : Element → Prop
  | .attributes a => a.Legible ∧ a ≠ {}
  | .note n => d.Settles n
  | .backup t | .forward t => 0 < t

/-- The state behind an element that is read. -/
def afterRead (d : DecodingState) : Element → DecodingState
  | .attributes a => d.afterShown a
  | .note n => d.afterEcho n
  | .backup _ => { d with sticky := {} }
  | .forward _ => d

end DecodingState

/-- Elements as they are read one after the other. -/
def AllRead (d : DecodingState) : List Element → Prop
  | [] => True
  | e :: es => d.Reads e ∧ AllRead (d.afterRead e) es

/-- The elements are not both attributes. -/
def AttributesApart (a b : Element) : Prop :=
  ¬ (a.shape = .attributes {} ∧ b.shape = .attributes {})

/-- The elements are not both backups and not both forwards. -/
def SkipsApart (a b : Element) : Prop :=
  ¬ (a.shape = .backup 0 ∧ b.shape = .backup 0) ∧ ¬ (a.shape = .forward 0 ∧ b.shape = .forward 0)

/-- Elements that reading leaves in their places. -/
structure Ordered (es : List Element) : Prop where
  ascends : es.IsChain Ascends
  attributes : es.IsChain AttributesApart
  skips : es.IsChain SkipsApart

/-- Measures as they are read one after the other, counted from `number` on. -/
def MeasuresRead (d : DecodingState) (number : Int) : List Measure → Prop
  | [] => True
  | m :: ms =>
    m = { number, elements := m.elements } ∧ AllRead { d with sticky := {} } m.elements ∧
      Ordered m.elements ∧
      MeasuresRead (m.elements.foldl DecodingState.afterRead { d with sticky := {} })
        (number + 1) ms

/-! ## Elements in their places -/

theorem Element.shape_shape (e : Element) : e.shape.shape = e.shape := by
  cases e <;> rfl

theorem Element.eq_backup_of_shape {e : Element} (h : e.shape = .backup 0) :
    ∃ d, e = .backup d := by
  cases e with
  | backup d => exact ⟨d, rfl⟩
  | attributes a => cases h
  | note n => cases h
  | forward d => cases h

theorem Element.eq_forward_of_shape {e : Element} (h : e.shape = .forward 0) :
    ∃ d, e = .forward d := by
  cases e with
  | forward d => exact ⟨d, rfl⟩
  | attributes a => cases h
  | note n => cases h
  | backup d => cases h

theorem blind_attributesApart : Blind AttributesApart := by
  intro a b
  rw [AttributesApart, AttributesApart, Element.shape_shape, Element.shape_shape]

theorem blind_skipsApart : Blind SkipsApart := by
  intro a b
  rw [SkipsApart, SkipsApart, Element.shape_shape, Element.shape_shape]

theorem Blind.isChain_map_shape {R : Element → Element → Prop} (blind : Blind R)
    (es : List Element) : (es.map Element.shape).IsChain R ↔ es.IsChain R := by
  rw [List.isChain_map]
  exact ⟨.imp fun a b => (blind a b).mpr, .imp fun a b => (blind a b).mp⟩

/-- Only the shapes of elements count for their order. -/
theorem Ordered.of_shape {es es' : List Element}
    (shape : es'.map Element.shape = es.map Element.shape) (h : Ordered es) : Ordered es' := by
  have move {R : Element → Element → Prop} (blind : Blind R) (chain : es.IsChain R) :
      es'.IsChain R := by
    rw [← blind.isChain_map_shape, shape, blind.isChain_map_shape]
    exact chain
  exact ⟨move blind_ascends h.ascends, move blind_attributesApart h.attributes,
    move blind_skipsApart h.skips⟩

/-- Merging leaves backups and forwards apart. -/
theorem skipsApart_mergeSkips (es : List Element) : (mergeSkips es).IsChain SkipsApart := by
  have join (e : Element) {es : List Element} (h : es.IsChain SkipsApart) :
      (joinSkip e es).IsChain SkipsApart := by
    unfold joinSkip
    split
    · rename_i e _
      exact blind_skipsApart.cons (a := .backup e) rfl h
    · rename_i e _
      exact blind_skipsApart.cons (a := .forward e) rfl h
    · rename_i backups forwards
      refine h.cons fun y hy => ⟨?_, ?_⟩
      · rintro ⟨ha, hb⟩
        obtain ⟨d, rfl⟩ := Element.eq_backup_of_shape ha
        obtain ⟨d', rfl⟩ := Element.eq_backup_of_shape hb
        obtain ⟨rest, rfl⟩ := List.head?_eq_some_iff.mp hy
        exact backups _ _ _ rfl rfl
      · rintro ⟨ha, hb⟩
        obtain ⟨d, rfl⟩ := Element.eq_forward_of_shape ha
        obtain ⟨d', rfl⟩ := Element.eq_forward_of_shape hb
        obtain ⟨rest, rfl⟩ := List.head?_eq_some_iff.mp hy
        exact forwards _ _ _ rfl rfl
  induction es with
  | nil => exact .nil
  | cons e es ih => exact join e ih

/-- Backups and forwards that are apart are not merged. -/
theorem mergeSkips_eq_self {es : List Element} (h : es.IsChain SkipsApart) :
    mergeSkips es = es := by
  induction es with
  | nil => rfl
  | cons e es ih =>
    show joinSkip e (mergeSkips es) = _
    rw [ih h.tail]
    unfold joinSkip
    split
    · exact absurd ⟨rfl, rfl⟩ (List.isChain_cons_cons.mp h).1.1
    · exact absurd ⟨rfl, rfl⟩ (List.isChain_cons_cons.mp h).1.2
    · rfl

/-- Reading leaves such elements in their places. -/
theorem Ordered.orderChords_mergeSkips {es : List Element} (h : Ordered es) :
    orderChords (mergeSkips es) = es := by
  rw [mergeSkips_eq_self h.skips, orderChords_eq_self h.ascends]

/-- Elements that are read do not descend, also from an element `last` in front of them that has
the pitch of the last note, if it has one. -/
theorem isChain_of_allRead {d : DecodingState} {es : List Element} (h : AllRead d es)
    {last : Element}
    (hl : ∀ x ∈ last.pitchOrder?, d.sticky.previousPitch.map Pitch.order = some x) :
    (last :: es).IsChain Ascends := by
  induction es generalizing d last with
  | nil => exact .singleton last
  | cons e es ih =>
    obtain ⟨first, rest⟩ := h
    cases e with
    | attributes a => exact .cons_cons (.of_not_inChord last rfl) (ih rest forall_mem_none)
    | note n =>
      refine .cons_cons (fun chord x hx y hy => ?_) (ih rest fun x hx => ?_)
      · obtain ⟨p, hp, rfl⟩ := Option.map_eq_some_iff.mp (hl x hx)
        obtain ⟨q, hq, rfl⟩ := Option.map_eq_some_iff.mp hy
        exact first.accepts.ascends chord p hp q hq
      · obtain ⟨p, hp, rfl⟩ := Option.map_eq_some_iff.mp hx
        have pitch : n.pitch? = some p := hp
        show (n.pitch?.map _).map Pitch.order = _
        rw [pitch]
        rfl
    | backup t => exact .cons_cons (.of_not_inChord last rfl) (ih rest forall_mem_none)
    | forward t => exact .cons_cons (.of_not_inChord last rfl) (ih rest forall_mem_none)

/-- Merging keeps elements as they are read, and the state behind them. -/
theorem allRead_mergeSkips {d : DecodingState} {es : List Element} (h : AllRead d es) :
    AllRead d (mergeSkips es) ∧
      (mergeSkips es).foldl DecodingState.afterRead d = es.foldl DecodingState.afterRead d := by
  have join {d : DecodingState} {e : Element} {es : List Element} (h : AllRead d (e :: es)) :
      AllRead d (joinSkip e es) ∧
        (joinSkip e es).foldl DecodingState.afterRead d =
          (e :: es).foldl DecodingState.afterRead d := by
    unfold joinSkip
    split
    · exact ⟨⟨add_pos h.1 h.2.1, h.2.2⟩, rfl⟩
    · exact ⟨⟨add_pos h.1 h.2.1, h.2.2⟩, rfl⟩
    · exact ⟨h, rfl⟩
  induction es generalizing d with
  | nil => exact ⟨h, rfl⟩
  | cons e es ih =>
    obtain ⟨first, rest⟩ := h
    obtain ⟨merged, last⟩ := ih rest
    obtain ⟨joined, same⟩ := @join d e (mergeSkips es) ⟨first, merged⟩
    exact ⟨joined, same.trans last⟩

/-! ## Attribute items -/

theorem legible_clef {number : Option Nat} {sign : ClefSign} {line : Nat}
    (valid : (Terminal.clef sign line).valid = true)
    (staff : ∀ n ∈ number, (Terminal.staff n).valid = true) :
    (⟨number, sign.name, line⟩ : Clef).Legible where
  sign := by
    have named : ClefSign.ofName? sign.name = some sign := by cases sign <;> rfl
    have high : sign.lines.2 ≤ 255 := by cases sign <;> decide
    have range : clefLine line = line := by
      simp only [Terminal.valid, Bool.and_eq_true, decide_eq_true_eq] at valid
      unfold clefLine
      rw [if_pos (by simp; omega)]
      rfl
    refine ⟨.clef sign line, ?_, valid⟩
    rw [Clef.terminal?, named, Option.map_some, range]
  upper := by
    rw [Clef.upper, toUpper_name]
  number := staff

theorem valid_timeSignature {item : Item} (valid : AllValid item.tokens) :
    (Terminal.beats (DecodingState.timeSignature item).value.beats).valid = true ∧
      (Terminal.beatType (DecodingState.timeSignature item).value.beatType).valid = true := by
  have fields : (∀ n ∈ item.timeFields.value.1, (Terminal.beats n).valid = true) ∧
      ∀ n ∈ item.timeFields.value.2, (Terminal.beatType n).valid = true := by
    refine foldlM_invariant (I := fun f : Option Nat × Option Nat =>
      (∀ n ∈ f.1, (Terminal.beats n).valid = true) ∧
        ∀ n ∈ f.2, (Terminal.beatType n).valid = true) (fun f t ht h => ?_)
      ⟨forall_mem_none, forall_mem_none⟩
    have payload := valid t (List.mem_append_right _ (List.mem_cons_of_mem _ ht))
    unfold Item.addTimeField
    dsimp only
    split
    · rename_i eq
      rw [eq] at payload
      exact ⟨forall_mem_fill _ h.1 payload, h.2⟩
    · rename_i eq
      rw [eq] at payload
      exact ⟨h.1, forall_mem_fill _ h.2 payload⟩
    · exact h
  have value : (DecodingState.timeSignature item).value =
      ⟨item.timeFields.value.1.getD 4, item.timeFields.value.2.getD 4⟩ := by
    unfold DecodingState.timeSignature
    rw [Reported.value_bind]
    dsimp only
    cases item.timeFields.value.1 with
    | none =>
      cases item.timeFields.value.2 with
      | none => rfl
      | some n => rfl
    | some m =>
      cases item.timeFields.value.2 with
      | none => rfl
      | some n => rfl
  rw [value]
  constructor
  · cases h : item.timeFields.value.1 with
    | none => rfl
    | some n => exact fields.1 n h
  · cases h : item.timeFields.value.2 with
    | none => rfl
    | some n => exact fields.2 n h

theorem valid_clefStaff {item : Item} (valid : AllValid item.tokens) :
    ∀ n ∈ item.clefStaff.value, (Terminal.staff n).valid = true := by
  refine foldlM_invariant (I := fun f : Option Nat => ∀ n ∈ f, (Terminal.staff n).valid = true)
    (fun f t ht h => ?_) forall_mem_none
  have payload := valid t (List.mem_append_right _ (List.mem_cons_of_mem _ ht))
  unfold Item.addClefStaff
  dsimp only
  split
  · rename_i eq
    rw [eq] at payload
    exact forall_mem_fill _ h payload
  · exact h

theorem Terminal.cases_of_isAttributeRoot {t : Terminal} (h : t.isAttributeRoot = true) :
    (∃ fifths, t = .key fifths) ∨ t = .time ∨ ∃ sign line, t = .clef sign line := by
  unfold isAttributeRoot at h
  split at h
  · exact .inl ⟨_, rfl⟩
  · exact .inr (.inl rfl)
  · exact .inr (.inr ⟨_, _, rfl⟩)
  · cases h

/-- An attribute item adds something legible to its run. -/
theorem legible_attributes {d : DecodingState} {a : Attributes} (legible : a.Legible) {item : Item}
    (valid : AllValid item.tokens) (root : item.root.terminal.isAttributeRoot = true) :
    (d.attributes a item).value.1.Legible ∧ (d.attributes a item).value.1 ≠ {} ∧
      ∀ start : DecodingState, start.afterShown a = d →
        start.afterShown (d.attributes a item).value.1 = (d.attributes a item).value.2 := by
  have payload := valid item.root (List.mem_append_right _ List.mem_cons_self)
  unfold DecodingState.attributes
  rcases Terminal.cases_of_isAttributeRoot root with ⟨fifths, eq⟩ | eq | ⟨sign, line, eq⟩
  · rw [eq] at payload ⊢
    cases hk : a.key with
    | some old =>
      refine ⟨legible, fun empty => ?_, fun start same => same⟩
      exact Option.some_ne_none _ (hk.symm.trans (congrArg Attributes.key empty))
    | none =>
      refine ⟨{ legible with key := fun k hk => ?_ }, ?_, ?_⟩
      · cases hk
        exact payload
      · exact fun empty => Option.some_ne_none _ (congrArg Attributes.key empty)
      · exact fun start same => same
  · rw [eq]
    refine ⟨{ legible with time := fun t ht => ?_ }, ?_, ?_⟩
    · cases ht
      exact valid_timeSignature valid
    · exact fun empty => Option.some_ne_none _ (congrArg Attributes.time empty)
    · rintro start rfl
      rfl
  · rw [eq] at payload ⊢
    refine ⟨{ legible with clefs := ?_ }, ?_, ?_⟩
    · refine List.forall_mem_append.mpr ⟨legible.clefs, List.forall_mem_singleton.mpr ?_⟩
      exact legible_clef payload (valid_clefStaff valid)
    · intro empty
      exact absurd (congrArg Attributes.clefs empty) (List.append_ne_nil_of_right_ne_nil _
        (List.cons_ne_nil _ _))
    · exact fun start same => same

/-! ## Other items -/

theorem valid_skipRatio {item : Item} (valid : AllValid item.tokens) (marker : Terminal) :
    ∀ r ∈ (item.skipRatio marker).value, (Terminal.ratio r).valid = true := by
  refine foldlM_invariant
    (I := fun f : Option TupletRatio => ∀ r ∈ f, (Terminal.ratio r).valid = true)
    (fun f t ht h => ?_) forall_mem_none
  have payload := valid t (List.mem_append_right _ (List.mem_cons_of_mem _ ht))
  unfold Item.addSkipRatio
  dsimp only
  split
  · rename_i eq
    rw [eq] at payload
    exact forall_mem_fill _ h payload
  · exact h

/-- An item with a marker is read as a backup or forward. -/
theorem reads_skip {d : DecodingState} {item : Item} (valid : AllValid item.tokens)
    {marker : Terminal} (hm : marker = .backup ∨ marker = .forward)
    (clean : (d.skip item marker).diagnostics = []) :
    ∃ e : Element, e.shape ≠ .attributes {} ∧ d.Reads e ∧
      (d.skip item marker).value = (some e, d.afterRead e) := by
  obtain ⟨t, root⟩ : ∃ t, item.root.terminal = .noteType t := by
    unfold DecodingState.skip at clean
    have rest := (List.append_eq_nil_iff.mp clean).2
    dsimp only at rest
    split at rest
    · rename_i t eq
      exact ⟨t, eq⟩
    · cases rest
  have positive := noteLength_pos t 0 (valid_skipRatio valid marker)
  rw [d.skip_noteType root, Reported.value_bind, Reported.value_bind, Checked.value_reported,
    Machine.value_noteLength]
  rcases hm with rfl | rfl
  · exact ⟨.backup _, by simp [Element.shape], positive, rfl⟩
  · exact ⟨.forward _, by simp [Element.shape], positive, rfl⟩

theorem marker_of_marker? {item : Item} {marker : Terminal} (h : item.marker? = some marker) :
    marker = .backup ∨ marker = .forward := by
  simpa using List.find?_some h

/-- An item that is no attribute item is read as an element that is no attributes. -/
theorem reads_element {d : DecodingState} (sticky : d.sticky.Legible) {item : Item}
    (valid : AllValid item.tokens) (clean : (d.element item).diagnostics = []) :
    ∃ e : Element, e.shape ≠ .attributes {} ∧ d.Reads e ∧
      (d.element item).value = (some e, d.afterRead e) := by
  unfold DecodingState.element at clean ⊢
  cases hm : item.marker? with
  | some marker =>
    rw [hm] at clean
    exact reads_skip valid (marker_of_marker? hm) clean
  | none =>
    rw [hm, Reported.diagnostics_bind, List.append_eq_nil_iff] at clean
    obtain ⟨legible, counted⟩ := Item.legible_noteFields valid
    have unreported := DecodingState.unreported_of_note clean.1
    refine ⟨.note (d.note item).value.1, by simp [Element.shape], ?_, ?_⟩
    · rw [DecodingState.value_note]
      exact DecodingState.settles_noteOf legible counted sticky unreported
    · have state := DecodingState.afterEcho_noteOf counted unreported
      rw [← DecodingState.value_note] at state
      exact congrArg (Prod.mk _) state.symm

/-- The state behind an element that is read remembers what lies in the vocabulary. -/
theorem legible_afterRead {d : DecodingState} {e : Element} (sticky : d.sticky.Legible)
    (h : d.Reads e) : (d.afterRead e).sticky.Legible := by
  cases e with
  | attributes a => exact sticky
  | note n => exact ⟨forall_mem_or h.legible.voice sticky.voice,
      forall_mem_or h.legible.staff sticky.staff⟩
  | backup t => exact ⟨forall_mem_none, forall_mem_none⟩
  | forward t => exact sticky

/-! ## Measures -/

/-- What holds of elements holds with the pending attributes in front of them. -/
theorem allRead_closeRun {start d : DecodingState} {run : Option Attributes}
    (pending : ∀ a ∈ run, a.Legible ∧ a ≠ {}) (hd : start.afterShown (run.getD {}) = d)
    {e : Element} {es : List Element} (shape : e.shape ≠ .attributes {})
    (h : AllRead d (e :: es)) (apart : es.IsChain AttributesApart) :
    AllRead start (closeRun run ++ e :: es) ∧
      (closeRun run ++ e :: es).foldl DecodingState.afterRead start =
        (e :: es).foldl DecodingState.afterRead d ∧
      (closeRun run ++ e :: es).IsChain AttributesApart := by
  have chain : (e :: es).IsChain AttributesApart :=
    apart.cons fun y _ both => shape both.1
  subst hd
  cases run with
  | none => exact ⟨h, rfl, chain⟩
  | some a => exact ⟨⟨pending a rfl, h⟩, rfl, .cons_cons (fun both => shape both.2) chain⟩

/-- The items of a measure are read as elements that are as they are read, where `run` are the
attributes that the first items add to. -/
theorem allRead_decodeItems {items : List Item} (valid : ∀ item ∈ items, AllValid item.tokens)
    {start d : DecodingState} {run : Option Attributes}
    (pending : ∀ a ∈ run, a.Legible ∧ a ≠ {}) (hd : start.afterShown (run.getD {}) = d)
    (sticky : start.sticky.Legible) (clean : (decodeItems d run items).diagnostics = []) :
    AllRead start (decodeItems d run items).value.1 ∧
      (decodeItems d run items).value.1.foldl DecodingState.afterRead start =
        (decodeItems d run items).value.2 ∧
      (decodeItems d run items).value.1.IsChain AttributesApart := by
  induction items generalizing start d run with
  | nil =>
    cases run with
    | none => exact ⟨trivial, hd, .nil⟩
    | some a => exact ⟨⟨pending a rfl, trivial⟩, hd, .singleton _⟩
  | cons item items ih =>
    obtain ⟨here, later⟩ := List.forall_mem_cons.mp valid
    cases root : item.root.terminal.isAttributeRoot with
    | true =>
      rw [decodeItems_attribute d run items root] at clean ⊢
      rw [Reported.diagnostics_bind, List.append_eq_nil_iff] at clean
      have legible : (run.getD {}).Legible := by
        cases run with
        | none => exact ⟨rfl, rfl, forall_mem_none, forall_mem_none, List.forall_mem_nil _⟩
        | some a => exact (pending a rfl).1
      obtain ⟨added, some, state⟩ := legible_attributes legible here root
      refine ih later (fun a ha => ?_) (state start hd) sticky clean.2
      cases ha
      exact ⟨added, some⟩
    | false =>
      have same : d.sticky.Legible := by
        rw [← hd]
        exact sticky
      rw [decodeItems_element d run items root] at clean ⊢
      rw [Reported.diagnostics_bind, List.append_eq_nil_iff, Reported.diagnostics_map] at clean
      obtain ⟨e, shape, reads, value⟩ := reads_element same here clean.1
      rw [Reported.value_bind, Reported.value_map, value]
      rw [value] at clean
      obtain ⟨read, last, apart⟩ := @ih later (d.afterRead e) _ none forall_mem_none rfl
        (legible_afterRead same reads) clean.2
      have closed := allRead_closeRun pending hd shape ⟨reads, read⟩ apart
      rw [List.foldl_cons, last] at closed
      rw [List.append_assoc]
      exact closed

/-- What holds of all tokens holds of the tokens of their items. -/
theorem Item.forall_mem_ofTokens {P : Token → Prop} {tokens : List Token}
    (h : ∀ t ∈ tokens, P t) : ∀ item ∈ (Item.ofTokens tokens).value, ∀ t ∈ item.tokens, P t := by
  have items (current : Option Item) (leading tokens : List Token)
      (hc : ∀ item ∈ current, ∀ t ∈ item.tokens, P t) (hl : ∀ t ∈ leading, P t)
      (ht : ∀ t ∈ tokens, P t) :
      ∀ item ∈ (Item.ofTokensFrom current leading tokens).value, ∀ t ∈ item.tokens, P t := by
    induction tokens generalizing current leading with
    | nil => exact fun item h => hc item (Option.mem_toList.mp h)
    | cons t tokens ih =>
      obtain ⟨first, rest⟩ := List.forall_mem_cons.mp ht
      have single : ∀ u ∈ [t], P u := List.forall_mem_singleton.mpr first
      cases role : t.terminal.role with
      | leading =>
        rw [Item.ofTokensFrom_leading _ _ _ role]
        exact ih _ _ hc (List.forall_mem_append.mpr ⟨hl, single⟩) rest
      | trailing =>
        cases current with
        | none =>
          rw [Item.ofTokensFrom_trailing_none _ _ role]
          exact ih _ _ hc hl rest
        | some item =>
          rw [Item.ofTokensFrom_trailing _ _ role]
          refine ih _ _ (fun other h => ?_) hl rest
          cases h
          have all := List.forall_mem_append.mpr ⟨hc item rfl, single⟩
          rwa [Item.tokens, List.append_assoc] at all
      | root =>
        rw [Item.ofTokensFrom_root _ _ _ role]
        refine List.forall_mem_append.mpr ⟨fun item h => hc item (Option.mem_toList.mp h), ?_⟩
        refine ih _ _ (fun other h => ?_) (List.forall_mem_nil _) rest
        cases h
        exact List.forall_mem_append.mpr ⟨hl, single⟩
      | delimiter =>
        rw [Item.ofTokensFrom_delimiter _ _ _ role]
        exact ih _ _ hc hl rest
  exact items none [] tokens forall_mem_none (List.forall_mem_nil _) h

/-- What holds of all tokens holds of the tokens of their clusters. -/
theorem forall_mem_measureClusters {P : Token → Prop} {tokens : List Token}
    (h : ∀ t ∈ tokens, P t) : ∀ cluster ∈ (measureClusters tokens).value, ∀ t ∈ cluster, P t := by
  have pieces : ∀ cluster ∈ tokens.splitOnP (·.terminal = .measure), ∀ t ∈ cluster, P t :=
    fun _ piece t ht => h t (of_mem_splitOnP piece t ht).1
  unfold measureClusters
  split
  · exact List.forall_mem_nil _
  · rename_i clusters eq
    rw [eq] at pieces
    exact (List.forall_mem_cons.mp pieces).2
  · rename_i first others clusters eq
    rw [eq] at pieces
    exact (List.forall_mem_cons.mp pieces).2

/-- The items of valid tokens have valid tokens. -/
theorem valid_ofTokens {tokens : List Token} (valid : AllValid tokens) :
    ∀ item ∈ (Item.ofTokens tokens).value, AllValid item.tokens :=
  Item.forall_mem_ofTokens valid

/-- The clusters of valid tokens have valid tokens. -/
theorem valid_measureClusters {tokens : List Token} (valid : AllValid tokens) :
    ∀ cluster ∈ (measureClusters tokens).value, AllValid cluster :=
  forall_mem_measureClusters valid

/-- The items of a measure of which nothing is reported are read as elements in their places. -/
theorem read_decodeItems {items : List Item} (valid : ∀ item ∈ items, AllValid item.tokens)
    {d : DecodingState}
    (clean : (decodeItems { d with sticky := {} } none items).diagnostics = []) :
    let r := (decodeItems { d with sticky := {} } none items).value
    Ordered (mergeSkips r.1) ∧ AllRead { d with sticky := {} } (mergeSkips r.1) ∧
      (mergeSkips r.1).foldl DecodingState.afterRead { d with sticky := {} } = r.2 := by
  have fresh : Sticky.Legible {} := ⟨forall_mem_none, forall_mem_none⟩
  obtain ⟨read, last, apart⟩ := @allRead_decodeItems _ valid { d with sticky := {} }
    { d with sticky := {} } none forall_mem_none rfl fresh clean
  obtain ⟨merged, same⟩ := allRead_mergeSkips read
  refine ⟨?_, merged, same.trans last⟩
  exact
    { ascends := (@isChain_of_allRead _ _ merged (.backup 0) forall_mem_none).tail
      attributes := blind_attributesApart.isChain_mergeSkips apart
      skips := skipsApart_mergeSkips _ }

/-- **Measures of which nothing is reported are as they are read.** -/
theorem measuresRead_decodeMeasures {clusters : List (List Token)}
    (valid : ∀ cluster ∈ clusters, AllValid cluster) {d : DecodingState} {number : Int}
    (clean : (decodeMeasures d number clusters).diagnostics = []) :
    MeasuresRead d number (decodeMeasures d number clusters).value := by
  induction clusters generalizing d number with
  | nil => trivial
  | cons cluster clusters ih =>
    obtain ⟨here, later⟩ := List.forall_mem_cons.mp valid
    rw [decodeMeasures, Reported.diagnostics_bind, List.append_eq_nil_iff,
      Reported.diagnostics_bind, List.append_eq_nil_iff] at clean
    obtain ⟨first, rest, -⟩ := clean
    replace rest : (decodeMeasures (decodeMeasure d number cluster).value.2 (number + 1)
        clusters).diagnostics = [] := rest
    rw [diagnostics_decodeMeasure, List.append_eq_nil_iff] at first
    obtain ⟨ordered, merged, last⟩ := read_decodeItems (d := d) (valid_ofTokens here) first.2
    rw [value_decodeMeasure] at rest
    rw [value_decodeMeasures_cons]
    show _ ∧ AllRead _ (orderChords (mergeSkips _)) ∧ Ordered (orderChords (mergeSkips _)) ∧
      MeasuresRead ((orderChords (mergeSkips _)).foldl _ _) _ _
    rw [orderChords_eq_self ordered.ascends, last]
    exact ⟨rfl, merged, ordered, ih later rest⟩

end LinearScore
