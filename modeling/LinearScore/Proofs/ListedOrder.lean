import LinearScore.Proofs.AttributePasses
import LinearScore.Proofs.SoundElements

/-!
# The order of clefs and beams that are read

Beams are numbered when they are read, and come in the order of their numbers, chord by chord and
note by note.  Clefs are read in the order of the tokens: the attributes of a part list them as the
row of attribute items states them, and nothing puts them in the order of their staves.

## Main definitions

* `rowClefs`: the clefs that rows of attribute items state
* `textClefs`: the clefs that the rows of a list of texts state

The main statement is `listed_decodeTexts`.
-/

namespace LinearScore

/-- The clef that an attribute item states. -/
def Item.clef? (item : Item) : Option Clef :=
  match item.root.terminal with
  | .clef sign line => some ⟨item.clefStaff.value, sign.name, line⟩
  | _ => none

/-- The clefs that each row of attribute items states, in the order of the items. -/
def rowClefs (items : List Item) : List (List Clef) :=
  (items.splitOnP fun item => !item.root.terminal.isAttributeRoot).map (·.filterMap Item.clef?)

/-- The clefs that each row of attribute items among some texts states. -/
def textClefs (ts : List String) : List (List Clef) :=
  (measureClusters (Token.ofTexts ts).value).value.flatMap fun cluster =>
    rowClefs (Item.ofTokens cluster).value

/-- Clefs stand in the order of their staves. -/
def ClefsAscend (clefs : List Clef) : Prop := clefs.Pairwise fun c d => c.staff ≤ d.staff

instance (clefs : List Clef) : Decidable (ClefsAscend clefs) :=
  inferInstanceAs (Decidable (clefs.Pairwise fun c d => c.staff ≤ d.staff))

/-- Beams stand in the order of their numbers. -/
def BeamsAscend (beams : List Beam) : Prop := beams.Pairwise fun b c => b.number ≤ c.number

/-- The clefs that an element lists, if it lists any. -/
def Element.clefLists : Element → List (List Clef)
  | .attributes a => [a.clefs].filter (· ≠ [])
  | _ => []

/-- The beams that an element lists. -/
def Element.beamLists : Element → List (List Beam)
  | .note n => [n.beams]
  | _ => []

/-! ## Beams -/

theorem pairwise_mergeSort_key {α κ : Type} [LinearOrder κ] (key : α → κ) (as : List α) :
    (as.mergeSort fun a b => key a ≤ key b).Pairwise fun a b => key a ≤ key b := by
  have sorted : (as.mergeSort fun a b => key a ≤ key b).Pairwise
      fun a b => decide (key a ≤ key b) = true :=
    List.pairwise_mergeSort (by simpa using fun a b c => le_trans)
      (by simpa using fun a b => le_total _ _) as
  exact sorted.imp of_decide_eq_true

theorem beamsAscend_noteBeams (opened : Nat) (marks : List BeamMark) (beamable : Bool) :
    BeamsAscend (noteBeams opened marks beamable) := pairwise_mergeSort_key Beam.number _

theorem beamsAscend_resolve (s : BeamState) (r : BeamRequest) :
    BeamsAscend (s.resolve r).value.1 := by
  unfold BeamState.resolve
  dsimp only
  split
  · split
    · exact List.Pairwise.nil
    · exact beamsAscend_noteBeams ..
  · exact beamsAscend_noteBeams ..

/-- The beams of an element ascend. -/
def Element.BeamsAscend (e : Element) : Prop :=
  ∀ beams ∈ e.beamLists, LinearScore.BeamsAscend beams

namespace DecodingState

theorem beamsAscend_element (d : DecodingState) (item : Item) :
    ∀ e ∈ (d.element item).value.1, e.BeamsAscend := by
  intro e he
  obtain ⟨l, rfl | rfl⟩ | rfl := d.eq_of_mem_element item e he
  · exact List.forall_mem_nil _
  · exact List.forall_mem_nil _
  · rw [value_note]
    exact List.forall_mem_singleton.mpr (beamsAscend_resolve ..)

end DecodingState

theorem beamsAscend_decodeItems (d : DecodingState) (run : Option Attributes) (items : List Item) :
    ∀ e ∈ (decodeItems d run items).value.1, e.BeamsAscend :=
  forall_mem_decodeItems (fun _ => List.forall_mem_nil _)
    (fun item _ d => d.beamsAscend_element item) d run

theorem beamsAscend_mergeSkips {es : List Element} (h : ∀ e ∈ es, e.BeamsAscend) :
    ∀ e ∈ mergeSkips es, e.BeamsAscend := by
  have lists := flatMap_mergeSkips (f := Element.beamLists) (fun _ => rfl) (fun _ => rfl) es
  intro e he beams hb
  have mem : beams ∈ (mergeSkips es).flatMap Element.beamLists := List.mem_flatMap.mpr ⟨e, he, hb⟩
  rw [lists] at mem
  obtain ⟨e', he', hb'⟩ := List.mem_flatMap.mp mem
  exact h e' he' beams hb'

/-- A chord in order has no other beams than before. -/
theorem beamsAscend_orderChords {es : List Element} (h : ∀ e ∈ es, e.BeamsAscend) :
    ∀ e ∈ orderChords es, e.BeamsAscend := by
  rw [orderChords, List.forall_mem_flatMap]
  intro group hgroup
  have all : ∀ e ∈ group, e.BeamsAscend := by
    intro e he
    rw [← flatten_cutBefore (fun e => !e.inChord) es] at h
    exact h e (List.mem_flatten.mpr ⟨group, hgroup, he⟩)
  have first : LinearScore.BeamsAscend (groupBeams group) := by
    unfold groupBeams
    split
    · exact List.forall_mem_singleton.mp (all _ List.mem_cons_self)
    · exact List.Pairwise.nil
  refine forall_mem_orderGroup all ?_ ?_ ?_
  · intro e he
    cases e with
    | note n => exact List.forall_mem_singleton.mpr List.Pairwise.nil
    | _ => exact he
  · intro e he
    cases e with
    | note n => exact List.forall_mem_singleton.mpr first
    | _ => exact he
  · intro e he
    cases e with
    | note n => exact he
    | _ => exact he

theorem beamsAscend_decodeMeasures (clusters : List (List Token)) (d : DecodingState)
    (number : Int) :
    ∀ m ∈ (decodeMeasures d number clusters).value, ∀ e ∈ m.elements, e.BeamsAscend := by
  induction clusters generalizing d number with
  | nil => exact List.forall_mem_nil _
  | cons cluster clusters ih =>
    rw [value_decodeMeasures_cons]
    refine List.forall_mem_cons.mpr ⟨?_, ih _ _⟩
    exact beamsAscend_orderChords
      (beamsAscend_mergeSkips (beamsAscend_decodeItems _ none _))

/-! ## Clefs -/

theorem DecodingState.clefs_attributes (d : DecodingState) (a : Attributes) (item : Item) :
    (d.attributes a item).value.1.clefs = a.clefs ++ item.clef?.toList := by
  unfold attributes Item.clef?
  split
  · rename_i eq
    rw [Reported.value_bind, eq]
    cases a.key <;> exact (List.append_nil _).symm
  · rename_i eq
    rw [eq]
    exact (List.append_nil _).symm
  · rename_i eq
    rw [eq]
    rfl
  · rename_i notClef
    split
    · rename_i sign line eq
      exact absurd eq (notClef sign line)
    · exact (List.append_nil _).symm

/-- An item that is no attribute item lists no clefs. -/
theorem DecodingState.clefLists_element (d : DecodingState) (item : Item) :
    (d.element item).value.1.toList.flatMap Element.clefLists = [] := by
  cases read : (d.element item).value.1 with
  | none => rfl
  | some e =>
    obtain ⟨l, rfl | rfl⟩ | rfl := d.eq_of_mem_element item e read
    · rfl
    · rfl
    · rfl

theorem clefLists_closeRun (run : Option Attributes) :
    (closeRun run).flatMap Element.clefLists = [(run.getD {}).clefs].filter (· ≠ []) := by
  cases run with
  | none => rfl
  | some a => exact List.append_nil _

theorem rowClefs_attribute {item : Item} (root : item.root.terminal.isAttributeRoot = true)
    (items : List Item) :
    rowClefs (item :: items) = (rowClefs items).modifyHead (item.clef?.toList ++ ·) := by
  rw [rowClefs, List.splitOnP_cons_eq_if_modifyHead, if_neg (by simp [root]), rowClefs]
  cases List.splitOnP (fun item : Item => !item.root.terminal.isAttributeRoot) items with
  | nil => rfl
  | cons row rows =>
    refine congrArg (· :: _) ?_
    cases clef : item.clef? with
    | none => exact List.filterMap_cons_none clef
    | some c => exact List.filterMap_cons_some clef

theorem rowClefs_element {item : Item} (root : item.root.terminal.isAttributeRoot = false)
    (items : List Item) : rowClefs (item :: items) = [] :: rowClefs items := by
  rw [rowClefs, List.splitOnP_cons_eq_if_modifyHead, if_pos (by simp [root])]
  rfl

/-- What is read lists the clefs of each row; those of the first row stand behind those of the
pending attributes. -/
theorem clefLists_decodeItems (d : DecodingState) (run : Option Attributes) (items : List Item) :
    (decodeItems d run items).value.1.flatMap Element.clefLists =
      ((rowClefs items).modifyHead ((run.getD {}).clefs ++ ·)).filter (· ≠ []) := by
  induction items generalizing d run with
  | nil =>
    show (closeRun run).flatMap Element.clefLists = [(run.getD {}).clefs ++ []].filter (· ≠ [])
    rw [clefLists_closeRun, List.append_nil]
  | cons item items ih =>
    cases root : item.root.terminal.isAttributeRoot with
    | true =>
      rw [decodeItems_attribute d run items root, Reported.value_bind, ih, rowClefs_attribute root,
        List.modifyHead_modifyHead, Option.getD_some, DecodingState.clefs_attributes]
      simp only [List.append_assoc]
      rfl
    | false =>
      rw [decodeItems_element d run items root, Reported.value_bind, Reported.value_map,
        rowClefs_element root, List.modifyHead_cons, List.append_nil]
      dsimp only
      rw [List.flatMap_append, List.flatMap_append, clefLists_closeRun,
        DecodingState.clefLists_element, List.append_nil, ih, ← List.filter_append]
      cases rowClefs items <;> rfl

/-! ## Parts -/

variable (quarters : Bool)

theorem steady_clefLists : Steady quarters Element.clefLists where
  staves _ _ := rfl
  alter _ _ _ _ := rfl
  divisions _ _ _ := rfl
  durations _ _ e := by cases e <;> rfl
  empty _ := rfl

theorem steady_beamLists : Steady quarters Element.beamLists where
  staves _ _ := rfl
  alter _ _ _ _ := rfl
  divisions _ _ _ := rfl
  durations _ _ e := by cases e <;> rfl
  empty _ := rfl

theorem shown_clefLists_decodeMeasures (clusters : List (List Token)) (d : DecodingState)
    (number : Int) :
    ((decodeMeasures d number clusters).value.map (Measure.shown Element.clefLists)).flatten =
      (clusters.flatMap fun cluster => rowClefs (Item.ofTokens cluster).value).filter (· ≠ []) := by
  induction clusters generalizing d number with
  | nil => rfl
  | cons cluster clusters ih =>
    have here : (decodeMeasure d number cluster).value.1.shown Element.clefLists =
        (rowClefs (Item.ofTokens cluster).value).filter (· ≠ []) := by
      rw [value_decodeMeasure]
      show (orderChords (mergeSkips _)).flatMap _ = _
      rw [List.flatMap_def, map_orderChords fun _ _ => rfl, ← List.flatMap_def,
        flatMap_mergeSkips (fun _ => rfl) (fun _ => rfl), clefLists_decodeItems]
      cases rowClefs (Item.ofTokens cluster).value <;> rfl
    rw [List.flatMap_cons, List.filter_append, ← here, ← ih]
    rfl

/-- What the elements of a part show is what its measures show, put together. -/
theorem flatMap_elements {β : Type} (f : Element → List β) (p : Part) :
    p.elements.flatMap f = (p.measures.map (Measure.shown f)).flatten := by
  rw [Part.elements, List.flatMap_assoc, List.flatMap_def]
  rfl

/-- The attributes of a part list the clefs that the rows of its texts state, as they state them. -/
theorem clefs_decodeTexts (ts : List String) :
    ((decodeTexts quarters ts).value.attributes.map (·.clefs)).filter (· ≠ []) =
      (textClefs ts).filter (· ≠ []) := by
  have listed (es : List Element) :
      ((es.filterMap Element.attributes?).map (·.clefs)).filter (· ≠ []) =
        es.flatMap Element.clefLists := by
    induction es with
    | nil => rfl
    | cons e es ih =>
      cases e with
      | attributes a =>
        rw [List.flatMap_cons, ← ih]
        exact List.filter_append [a.clefs] _
      | note n => exact ih
      | backup d => exact ih
      | forward d => exact ih
  rw [Part.attributes, listed, flatMap_elements, decodeTexts, Reported.value_bind,
    shown_decodeTokens (steady_clefLists quarters)]
  exact shown_clefLists_decodeMeasures _ {} 1

theorem beamsAscend_decodeTexts (ts : List String) :
    ∀ e ∈ (decodeTexts quarters ts).value.elements, e.BeamsAscend := by
  have shown (p : Part) : (∀ e ∈ p.elements, e.BeamsAscend) ↔
      ∀ beams ∈ (p.measures.map (Measure.shown Element.beamLists)).flatten, BeamsAscend beams := by
    rw [← flatMap_elements, List.forall_mem_flatMap]
    rfl
  rw [shown, decodeTexts, Reported.value_bind, shown_decodeTokens (steady_beamLists quarters)]
  exact (shown ⟨"P1", "", _⟩).mp
    (List.forall_mem_flatMap.mpr (beamsAscend_decodeMeasures _ {} 1))

/-- **Beams are read in the order of their numbers, clefs in the order of the tokens.**  The clefs
of all attributes ascend by staves exactly if each row of attribute items states them so. -/
theorem listed_decodeTexts (ts : List String) :
    (∀ m ∈ (decodeTexts quarters ts).value.measures, ∀ n ∈ m.notes, BeamsAscend n.beams) ∧
      ((decodeTexts quarters ts).value.attributes.map (·.clefs)).filter (· ≠ []) =
        (textClefs ts).filter (· ≠ []) ∧
      ((∀ a ∈ (decodeTexts quarters ts).value.attributes, ClefsAscend a.clefs) ↔
        ∀ clefs ∈ textClefs ts, ClefsAscend clefs) := by
  have clefs := clefs_decodeTexts quarters ts
  -- lists without clefs ascend
  have filled (lists : List (List Clef)) : (∀ clefs ∈ lists, ClefsAscend clefs) ↔
      ∀ clefs ∈ lists.filter (· ≠ []), ClefsAscend clefs := by
    refine ⟨fun h clefs mem => h clefs (List.mem_of_mem_filter mem), fun h clefs mem => ?_⟩
    by_cases none : clefs = []
    · rw [none]
      exact List.Pairwise.nil
    · exact h clefs (List.mem_filter.mpr ⟨mem, decide_eq_true none⟩)
  refine ⟨fun m hm n hn => ?_, clefs, ?_⟩
  · obtain ⟨e, he, note⟩ := List.mem_filterMap.mp hn
    have ascend := beamsAscend_decodeTexts quarters ts e (List.mem_flatMap.mpr ⟨m, hm, he⟩)
    cases e with
    | note n' =>
      obtain rfl : n' = n := Option.some.inj note
      exact List.forall_mem_singleton.mp ascend
    | attributes a => cases note
    | backup d => cases note
    | forward d => cases note
  · rw [← List.forall_mem_map (f := Attributes.clefs), filled, clefs, ← filled]

/-- A clef for the second staff in front of one for the first. -/
theorem descendingClefs_decodeTexts :
    ¬ ∀ a ∈ (decodeTexts true
        ["measure", "clef:F4", "staff:2", "clef:G2", "staff:1"]).value.attributes,
      ClefsAscend a.clefs := by
  decide +kernel

end LinearScore
