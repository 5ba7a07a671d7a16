import LinearScore.Proofs.Settled
import LinearScore.Proofs.Systems

/-!
# Elements that are read of any tokens

Tokens may be the guess of a recogniser, so most of them come with reports.  What is read of them
is sound all the same: payloads lie in the vocabulary, durations are positive, and a duration is
missing only at a grace note and at a rest for a measure in front of the first time signature.

## Main definitions

* `Element.Sound`, `AllSound`: an element as it is read, and elements one after the other
* `DecodingState.Sound`: what is carried between items that are read
* `Element.blank`: the sort of an element

The main statement is `allSound_decodeMeasures`.
-/

namespace LinearScore

/-- The element states a time signature. -/
def Element.timed (e : Element) : Bool := (e.attributes?.bind (·.time)).isSome

/-- A note as it is read, behind a time signature if `timed`. -/
structure Note.Sound (timed : Bool) (n : Note) : Prop where
  legible : n.Legible
  typeless : n.noteType = none → n.isMeasureRest = true
  positive : ∀ d ∈ n.duration, 0 < d
  lasting : n.duration = none ↔ n.grace.isSome = true ∨ n.isMeasureRest = true ∧ timed = false

/-- An element as it is read, behind a time signature if `timed`. -/
def Element.Sound (timed : Bool) : Element → Prop
  | .attributes a => a.Legible
  | .note n => n.Sound timed
  | .backup d | .forward d => 0 < d

/-- Elements as they are read one after the other. -/
def AllSound (timed : Bool) : List Element → Prop
  | [] => True
  | e :: es => e.Sound timed ∧ AllSound (timed || e.timed) es

/-- What is carried between items that are read: the length of a measure is known behind a time
signature. -/
structure DecodingState.Sound (timed : Bool) (d : DecodingState) : Prop where
  sticky : d.sticky.Legible
  positive : ∀ l ∈ d.fullMeasure, 0 < l
  known : d.fullMeasure.isSome = timed

variable {timed : Bool}

theorem allSound_append {es fs : List Element} :
    AllSound timed (es ++ fs) ↔
      AllSound timed es ∧ AllSound (timed || es.any Element.timed) fs := by
  induction es generalizing timed with
  | nil => rw [List.nil_append, List.any_nil, Bool.or_false, AllSound, true_and]
  | cons e es ih =>
    rw [List.cons_append, AllSound, AllSound, ih, List.any_cons, Bool.or_assoc, and_assoc]

/-! ## Items -/

namespace DecodingState

/-- An item that is no attribute item is read as a backup, as a forward or as its note. -/
theorem eq_of_mem_element (d : DecodingState) (item : Item) :
    ∀ e ∈ (d.element item).value.1,
      (∃ l, e = .backup l ∨ e = .forward l) ∨ e = .note (d.note item).value.1 := by
  have skip (marker : Terminal) :
      ∀ e ∈ (d.skip item marker).value.1, ∃ l, e = .backup l ∨ e = .forward l := by
    rw [value_skip]
    split
    · dsimp only
      split
      · exact fun e he => ⟨_, .inl (Option.some.inj he).symm⟩
      · exact fun e he => ⟨_, .inr (Option.some.inj he).symm⟩
    · exact fun e he => nomatch he
  unfold element
  split
  · exact fun e he => .inl (skip _ e he)
  · exact fun e he => .inr (Option.some.inj he).symm

end DecodingState

/-- What is the case for all attributes, and for whatever a single item is read as, is the case for
all elements that items are read as. -/
theorem forall_mem_decodeItems {P : Element → Prop} {items : List Item}
    (attributes : ∀ a, P (.attributes a))
    (element : ∀ item ∈ items, ∀ d : DecodingState, ∀ e ∈ (d.element item).value.1, P e)
    (d : DecodingState) (run : Option Attributes) :
    ∀ e ∈ (decodeItems d run items).value.1, P e := by
  have pending (run : Option Attributes) : ∀ e ∈ closeRun run, P e := by
    cases run with
    | none => exact List.forall_mem_nil _
    | some a => exact List.forall_mem_singleton.mpr (attributes a)
  induction items generalizing d run with
  | nil => exact pending run
  | cons item items ih =>
    obtain ⟨here, later⟩ := List.forall_mem_cons.mp element
    cases root : item.root.terminal.isAttributeRoot with
    | true =>
      rw [decodeItems_attribute d run items root, Reported.value_bind]
      exact ih later _ _
    | false =>
      rw [decodeItems_element d run items root, Reported.value_bind, Reported.value_map]
      refine List.forall_mem_append.mpr ⟨List.forall_mem_append.mpr ⟨pending run, ?_⟩, ih later _ _⟩
      exact fun e he => here d e (Option.mem_toList.mp he)

namespace DecodingState

variable {d : DecodingState}

theorem Sound.fresh (h : d.Sound timed) : ({ d with sticky := {} } : DecodingState).Sound timed :=
  { h with sticky := ⟨forall_mem_none, forall_mem_none⟩ }

theorem measureLength_pos {time : TimeSignature}
    (valid : (Terminal.beats time.beats).valid = true) :
    0 < measureLength time := by
  simp only [Terminal.valid, Bool.and_eq_true, decide_eq_true_eq] at valid
  have beats : 0 < time.beats * 4 := by omega
  have beatType : 0 < max time.beatType 1 := Nat.lt_of_lt_of_le Nat.one_pos (Nat.le_max_right ..)
  exact div_pos (by exact_mod_cast beats) (by exact_mod_cast beatType)

/-- Behind legible attributes the length of a measure is that of their time signature. -/
theorem Sound.afterShown (h : d.Sound timed) {a : Attributes} (legible : a.Legible) :
    (d.afterShown a).Sound (timed || a.time.isSome) where
  sticky := h.sticky
  positive := by
    refine forall_mem_or (fun l hl => ?_) h.positive
    obtain ⟨time, ht, rfl⟩ := Option.map_eq_some_iff.mp hl
    exact measureLength_pos (legible.time time ht).1
  known := by
    show ((a.time.map measureLength).or d.fullMeasure).isSome = _
    rw [Option.isSome_or, Option.isSome_map, h.known, Bool.or_comm]

/-- The duration that is read is positive, and missing only where it may be. -/
theorem Sound.noteDuration (h : d.Sound timed) (root : Token) (noteType : Option NoteType)
    {f : NoteFields} (legible : f.Legible) :
    (∀ l ∈ (d.noteDuration root noteType f).value, 0 < l) ∧
      ((d.noteDuration root noteType f).value = none ↔
        f.grace = true ∨ noteType.isNone = true ∧ timed = false) := by
  rw [value_noteDuration]
  cases f.grace with
  | true => exact ⟨forall_mem_none, by simp⟩
  | false =>
    cases noteType with
    | some t =>
      refine ⟨fun l hl => ?_, by simp⟩
      cases hl
      exact noteLength_pos t f.dots legible.ratio
    | none =>
      refine ⟨h.positive, ?_⟩
      show d.fullMeasure = none ↔ _
      rw [← h.known, Option.isSome_eq_false_iff, Option.isNone_iff_eq_none]
      simp

/-- The note of an item is sound, and so is the state behind it. -/
theorem Sound.note (h : d.Sound timed) {item : Item} (valid : AllValid item.tokens) :
    (d.note item).value.1.Sound timed ∧ (d.note item).value.2.Sound timed := by
  obtain ⟨legible, -⟩ := Item.legible_noteFields valid
  rw [value_note]
  obtain ⟨f, hf⟩ : ∃ f, f = item.noteFields.value := ⟨_, rfl⟩
  rw [← hf] at legible ⊢
  have written : (d.noteOf item.root f).1.Legible := legible_noteOf legible h.sticky
  obtain ⟨positive, lasting⟩ := h.noteDuration item.root (rootType? item.root.terminal) legible
  constructor
  · refine ⟨written, fun typeless => ?_, positive, lasting.trans (or_congr ?_ ?_)⟩
    · rw [isMeasureRest_noteOf, typeless]
      rfl
    · show _ ↔ (if f.grace = true then some (⟨f.graceSlash⟩ : Grace) else none).isSome = true
      cases f.grace <;> simp
    · rw [isMeasureRest_noteOf]
      rfl
  · exact ⟨⟨written.voice, written.staff⟩, h.positive, h.known⟩

/-- A backup or forward of an item is sound, and so is the state behind it. -/
theorem Sound.skip (h : d.Sound timed) {item : Item} (valid : AllValid item.tokens)
    (marker : Terminal) :
    (∀ e ∈ (d.skip item marker).value.1, e.Sound timed ∧ e.timed = false) ∧
      (d.skip item marker).value.2.Sound timed := by
  rw [value_skip]
  split
  · rename_i t eq
    have positive := noteLength_pos t 0 (valid_skipRatio valid marker)
    dsimp only
    split
    · refine ⟨fun e he => ?_, h.fresh⟩
      cases he
      exact ⟨positive, rfl⟩
    · refine ⟨fun e he => ?_, h⟩
      cases he
      exact ⟨positive, rfl⟩
  · exact ⟨forall_mem_none, h⟩

theorem Sound.element (h : d.Sound timed) {item : Item} (valid : AllValid item.tokens) :
    (∀ e ∈ (d.element item).value.1, e.Sound timed ∧ e.timed = false) ∧
      (d.element item).value.2.Sound timed := by
  unfold DecodingState.element
  split
  · exact h.skip valid _
  · obtain ⟨note, state⟩ := h.note valid
    refine ⟨fun e he => ?_, state⟩
    cases he
    exact ⟨note, rfl⟩

end DecodingState

theorem any_timed_closeRun (run : Option Attributes) :
    (closeRun run).any Element.timed = (run.getD {}).time.isSome := by
  cases run with
  | none => rfl
  | some a => exact Bool.or_false _

theorem allSound_closeRun {run : Option Attributes} (pending : ∀ a ∈ run, a.Legible) :
    AllSound timed (closeRun run) := by
  cases run with
  | none => exact trivial
  | some a => exact ⟨pending a rfl, trivial⟩

theorem legible_getD {run : Option Attributes} (pending : ∀ a ∈ run, a.Legible) :
    (run.getD {}).Legible := by
  cases run with
  | none => exact ⟨rfl, rfl, forall_mem_none, forall_mem_none, List.forall_mem_nil _⟩
  | some a => exact pending a rfl

/-- The state behind pending attributes, when they end. -/
theorem DecodingState.Sound.closeRun {start : DecodingState} (h : start.Sound timed)
    {run : Option Attributes} (pending : ∀ a ∈ run, a.Legible) :
    (start.afterShown (run.getD {})).Sound
      (timed || (LinearScore.closeRun run).any Element.timed) := by
  rw [any_timed_closeRun]
  exact h.afterShown (legible_getD pending)

/-- The items of a measure are read as sound elements, where `run` are the attributes that the
first items add to. -/
theorem allSound_decodeItems {items : List Item} (valid : ∀ item ∈ items, AllValid item.tokens)
    {start d : DecodingState} {run : Option Attributes} (pending : ∀ a ∈ run, a.Legible)
    (hd : start.afterShown (run.getD {}) = d) (h : start.Sound timed) :
    AllSound timed (decodeItems d run items).value.1 ∧
      (decodeItems d run items).value.2.Sound
        (timed || (decodeItems d run items).value.1.any Element.timed) := by
  induction items generalizing start d run timed with
  | nil =>
    subst hd
    exact ⟨allSound_closeRun pending, h.closeRun pending⟩
  | cons item items ih =>
    obtain ⟨here, later⟩ := List.forall_mem_cons.mp valid
    cases root : item.root.terminal.isAttributeRoot with
    | true =>
      obtain ⟨added, -, shown⟩ := legible_attributes (d := d) (legible_getD pending) here root
      rw [decodeItems_attribute d run items root, Reported.value_bind]
      refine ih later (fun a ha => ?_) (shown start hd) h
      cases ha
      exact added
    | false =>
      subst hd
      obtain ⟨d, hd⟩ : ∃ d, d = start.afterShown (run.getD {}) := ⟨_, rfl⟩
      obtain ⟨element, behind⟩ := (h.closeRun pending).element here
      rw [← hd] at element behind ⊢
      rw [decodeItems_element d run items root, Reported.value_bind, Reported.value_map]
      obtain ⟨rest, last⟩ := @ih _ later _ _ none forall_mem_none rfl behind
      -- the element itself states no time signature
      have sound : AllSound (timed || (closeRun run).any Element.timed)
          (d.element item).value.1.toList := by
        cases he : (d.element item).value.1 with
        | none => exact trivial
        | some e => exact ⟨(element e he).1, trivial⟩
      have untimed : (d.element item).value.1.toList.any Element.timed = false := by
        cases he : (d.element item).value.1 with
        | none => rfl
        | some e =>
          rw [Option.toList_some, List.any_cons, (element e he).2]
          rfl
      rw [List.append_assoc, List.any_append, List.any_append, untimed, Bool.false_or,
        ← Bool.or_assoc]
      refine ⟨allSound_append.mpr ⟨allSound_closeRun pending, allSound_append.mpr ⟨sound, ?_⟩⟩,
        last⟩
      rw [untimed, Bool.or_false]
      exact rest

/-! ## Normal form -/

/-- Merging keeps elements sound, whatever follows them. -/
theorem allSound_mergeSkips {es fs : List Element} (h : AllSound timed (es ++ fs)) :
    AllSound timed (mergeSkips es ++ fs) := by
  have join (timed : Bool) {e : Element} {es : List Element}
      (h : AllSound timed (e :: es ++ fs)) : AllSound timed (joinSkip e es ++ fs) := by
    unfold joinSkip
    split
    · exact ⟨add_pos h.1 h.2.1, by simpa [Element.timed, Element.attributes?] using h.2.2⟩
    · exact ⟨add_pos h.1 h.2.1, by simpa [Element.timed, Element.attributes?] using h.2.2⟩
    · exact h
  induction es generalizing timed with
  | nil => exact h
  | cons e es ih => exact join timed ⟨h.1, ih h.2⟩

/-- The element is a pitched note. -/
def Element.Pitched (e : Element) : Prop := e.pitchOrder?.isSome = true

theorem Element.Pitched.exists_note {e : Element} (h : e.Pitched) : ∃ n, e = .note n := by
  cases e with
  | note n => exact ⟨n, rfl⟩
  | attributes a => cases h
  | backup d => cases h
  | forward d => cases h

/-- Pitched notes are sound each on its own. -/
theorem allSound_pitched {es fs : List Element} (pitched : ∀ e ∈ es, e.Pitched) :
    AllSound timed (es ++ fs) ↔ (∀ e ∈ es, e.Sound timed) ∧ AllSound timed fs := by
  induction es with
  | nil => simp
  | cons e es ih =>
    obtain ⟨first, rest⟩ := List.forall_mem_cons.mp pitched
    obtain ⟨n, rfl⟩ := first.exists_note
    have untimed : (timed || (Element.note n).timed) = timed := Bool.or_false _
    rw [List.cons_append, AllSound, untimed, ih rest, List.forall_mem_cons, and_assoc]

theorem pitched_of_mapM {es : List Element} {orders : List Int}
    (h : es.mapM Element.pitchOrder? = some orders) : ∀ e ∈ es, e.Pitched := by
  induction es generalizing orders with
  | nil => exact List.forall_mem_nil _
  | cons e es ih =>
    rw [List.mapM_cons] at h
    obtain ⟨order, first, orders', rest, -⟩ : ∃ order, e.pitchOrder? = some order ∧ ∃ orders',
        es.mapM Element.pitchOrder? = some orders' ∧ order :: orders' = orders := by
      simpa [Option.bind_eq_some_iff] using h
    exact List.forall_mem_cons.mpr ⟨Option.isSome_of_eq_some first, ih rest⟩

/-- What holds of the notes of a group, and of them with beams taken away or put first in the chord
with the beams of its first note, holds of the group in order. -/
theorem forall_mem_orderGroup {P : Element → Prop} {group : List Element} (h : ∀ e ∈ group, P e)
    (beams : ∀ e, P e → P (dropBeams e)) (head : ∀ e, P e → P (asHead (groupBeams group) e))
    (member : ∀ e, P e → P (asMember e)) : ∀ e ∈ orderGroup group, P e := by
  have plain : ∀ e ∈ sortGroup (withoutHeadBeams group), P e := by
    intro e he
    have mem : e ∈ withoutHeadBeams group := List.mem_mergeSort.mp he
    cases group with
    | nil => exact h e mem
    | cons first rest =>
      rcases List.mem_cons.mp mem with rfl | mem
      · exact beams first (h first List.mem_cons_self)
      · exact h e (List.mem_cons_of_mem _ mem)
  unfold orderGroup
  split
  · exact h
  · split
    · exact h
    · split
      · exact List.forall_mem_nil _
      · rename_i eq
        rw [eq] at plain
        obtain ⟨first, rest⟩ := List.forall_mem_cons.mp plain
        refine List.forall_mem_cons.mpr ⟨head _ first, fun e he => ?_⟩
        obtain ⟨e', mem, rfl⟩ := List.mem_map.mp he
        exact member e' (rest e' mem)

/-- What does not depend on the place of a pitched note in its chord. -/
structure Unplaced (P : Element → Prop) : Prop where
  head : ∀ e beams, P e → P (asHead beams e)
  member : ∀ e, P e → P (asMember e)
  beams : ∀ e, P e → P (dropBeams e)

/-- A chord that is put in order stays a chord of such notes. -/
theorem Unplaced.orderGroup {P : Element → Prop} (unplaced : Unplaced P) {group : List Element}
    (h : ∀ e ∈ group, P e) : ∀ e ∈ orderGroup group, P e :=
  forall_mem_orderGroup h unplaced.beams (fun e => unplaced.head e _) unplaced.member

theorem unplaced_pitched : Unplaced Element.Pitched where
  head e beams h := by
    obtain ⟨n, rfl⟩ := h.exists_note
    exact h
  member e h := by
    obtain ⟨n, rfl⟩ := h.exists_note
    exact h
  beams e h := by
    obtain ⟨n, rfl⟩ := h.exists_note
    exact h

theorem unplaced_sound : Unplaced (Element.Sound timed) where
  head e beams h := by
    cases e with
    | note n => exact ⟨{ h.legible with }, h.typeless, h.positive, h.lasting⟩
    | _ => exact h
  member e h := by
    cases e with
    | note n => exact ⟨{ h.legible with }, h.typeless, h.positive, h.lasting⟩
    | _ => exact h
  beams e h := by
    cases e with
    | note n => exact ⟨{ h.legible with }, h.typeless, h.positive, h.lasting⟩
    | _ => exact h

/-- A group is a chord of pitched notes, or it stays as it is. -/
theorem orderGroup_cases (group : List Element) :
    (∀ e ∈ group, e.Pitched) ∨ orderGroup group = group := by
  cases orders : group.mapM Element.pitchOrder? with
  | some orders' => exact .inl (pitched_of_mapM orders)
  | none =>
    refine .inr ?_
    rw [orderGroup, orders]

/-- Ordering chords keeps elements sound, whatever follows them. -/
theorem allSound_orderChords {es fs : List Element} (h : AllSound timed (es ++ fs)) :
    AllSound timed (orderChords es ++ fs) := by
  have group (timed : Bool) {group fs : List Element} (h : AllSound timed (group ++ fs)) :
      AllSound timed (orderGroup group ++ fs) := by
    rcases orderGroup_cases group with pitched | same
    · obtain ⟨sound, rest⟩ := (allSound_pitched pitched).mp h
      exact (allSound_pitched (unplaced_pitched.orderGroup pitched)).mpr
        ⟨unplaced_sound.orderGroup sound, rest⟩
    · rw [same]
      exact h
  have groups (groups : List (List Element)) (timed : Bool)
      (h : AllSound timed (groups.flatten ++ fs)) :
      AllSound timed (groups.flatMap orderGroup ++ fs) := by
    induction groups generalizing timed with
    | nil => exact h
    | cons g groups ih =>
      rw [List.flatten_cons, List.append_assoc] at h
      rw [List.flatMap_cons, List.append_assoc]
      have ordered := group timed h
      rw [allSound_append] at ordered ⊢
      exact ⟨ordered.1, ih _ ordered.2⟩
  refine groups (chordGroups es) timed ?_
  rwa [chordGroups, flatten_cutBefore]

/-! ## Neighbours -/

/-- The sort of an element, without what it says. -/
def Element.blank : Element → Element
  | .attributes _ => .attributes {}
  | .note _ => .note {}
  | .backup _ => .backup 0
  | .forward _ => .forward 0

/-- Whether backups and forwards are apart only depends on the sorts of elements. -/
theorem isChain_skipsApart_congr {es fs : List Element}
    (same : es.map Element.blank = fs.map Element.blank) :
    es.IsChain SkipsApart ↔ fs.IsChain SkipsApart := by
  have blind (a b : Element) : SkipsApart a.blank b.blank ↔ SkipsApart a b := by
    cases a <;> cases b <;> simp [SkipsApart, Element.blank, Element.shape]
  have blank (es : List Element) :
      (es.map Element.blank).IsChain SkipsApart ↔ es.IsChain SkipsApart := by
    rw [List.isChain_map]
    exact ⟨.imp fun a b => (blind a b).mp, .imp fun a b => (blind a b).mpr⟩
  rw [← blank es, same, blank fs]

theorem length_orderGroup (group : List Element) : (orderGroup group).length = group.length := by
  have sorted : (sortGroup (withoutHeadBeams group)).length = group.length := by
    rw [sortGroup, List.length_mergeSort]
    cases group <;> rfl
  unfold orderGroup
  split
  · rfl
  · split
    · rfl
    · split
      · rename_i eq
        rw [← sorted, eq]
      · rename_i eq
        rw [← sorted, eq, List.length_cons, List.length_cons, List.length_map]

/-- Ordering chords keeps what is seen at each place, if one note looks like another. -/
theorem map_orderChords {β : Type} {f : Element → β} (notes : ∀ n n', f (.note n) = f (.note n'))
    (es : List Element) : (orderChords es).map f = es.map f := by
  have chord {group : List Element} (pitched : ∀ e ∈ group, e.Pitched) :
      group.map f = List.replicate group.length (f (.note {})) := by
    refine List.eq_replicate_iff.mpr ⟨List.length_map _, fun b hb => ?_⟩
    obtain ⟨e, mem, rfl⟩ := List.mem_map.mp hb
    obtain ⟨n, rfl⟩ := (pitched e mem).exists_note
    exact notes n {}
  have group (group : List Element) : (orderGroup group).map f = group.map f := by
    rcases orderGroup_cases group with pitched | same
    · rw [chord pitched, chord (unplaced_pitched.orderGroup pitched), length_orderGroup]
    · rw [same]
  calc (orderChords es).map f
      = (chordGroups es).flatMap fun g => (orderGroup g).map f := List.map_flatMap ..
    _ = (chordGroups es).flatMap fun g => g.map f := by simp only [group]
    _ = ((chordGroups es).flatten).map f := by rw [List.map_flatten, List.flatMap_def]
    _ = es.map f := by rw [chordGroups, flatten_cutBefore]

/-- Ordering chords keeps, in another order, what is seen of elements wherever they stand in their
chord. -/
theorem perm_orderChords {β : Type} {f : Element → Option β}
    (head : ∀ e beams, f (asHead beams e) = f e)
    (member : ∀ e, f (asMember e) = f e) (beams : ∀ e, f (dropBeams e) = f e) (es : List Element) :
    ((orderChords es).filterMap f).Perm (es.filterMap f) := by
  have group (group : List Element) :
      ((orderGroup group).filterMap f).Perm (group.filterMap f) := by
    have plain : (withoutHeadBeams group).filterMap f = group.filterMap f := by
      cases group with
      | nil => rfl
      | cons e rest => rw [withoutHeadBeams, List.filterMap_cons, beams, List.filterMap_cons]
    have sorted : ((sortGroup (withoutHeadBeams group)).filterMap f).Perm (group.filterMap f) := by
      rw [← plain]
      exact (List.mergeSort_perm ..).filterMap f
    unfold orderGroup
    split
    · exact .refl _
    · split
      · exact .refl _
      · split
        · rename_i eq
          rwa [eq] at sorted
        · rename_i e rest eq
          rw [eq, List.filterMap_cons] at sorted
          rw [List.filterMap_cons, head, List.filterMap_map]
          have members : f ∘ asMember = f := funext member
          rwa [members]
  have groups (groups : List (List Element)) :
      ((groups.flatMap orderGroup).filterMap f).Perm (groups.flatten.filterMap f) := by
    induction groups with
    | nil => exact .refl _
    | cons g groups ih =>
      rw [List.flatMap_cons, List.flatten_cons, List.filterMap_append, List.filterMap_append]
      exact (group g).append ih
  have all := groups (chordGroups es)
  rwa [chordGroups, flatten_cutBefore] at all

/-! ## Measures -/

/-- There is a measure for each token that opens one. -/
theorem length_measureClusters (tokens : List Token) :
    (measureClusters tokens).value.length = tokens.countP (·.terminal = .measure) := by
  have pieces := length_splitOnP (·.terminal = .measure) tokens
  unfold measureClusters
  split
  · rename_i eq
    exact absurd eq (List.splitOnP_ne_nil _ _)
  · rename_i clusters eq
    rw [eq, List.length_cons] at pieces
    exact Nat.succ.inj pieces
  · rename_i clusters eq
    rw [eq, List.length_cons] at pieces
    exact Nat.succ.inj pieces

/-- The measures of valid tokens: their elements are sound, one measure after the other. -/
theorem allSound_decodeMeasures {clusters : List (List Token)}
    (valid : ∀ cluster ∈ clusters, AllValid cluster) {d : DecodingState} (h : d.Sound timed)
    (number : Int) :
    AllSound timed ((decodeMeasures d number clusters).value.flatMap (·.elements)) := by
  induction clusters generalizing d number timed with
  | nil => exact trivial
  | cons cluster clusters ih =>
    obtain ⟨here, later⟩ := List.forall_mem_cons.mp valid
    obtain ⟨sound, behind⟩ := @allSound_decodeItems timed _ (valid_ofTokens here)
      { d with sticky := {} } _ none forall_mem_none rfl h.fresh
    rw [value_decodeMeasures_cons, List.flatMap_cons]
    exact allSound_orderChords (allSound_mergeSkips (allSound_append.mpr
      ⟨sound, ih later behind (number + 1)⟩))

/-- Each measure has its number and nothing else besides its elements, and its backups and forwards
are apart. -/
theorem decodeMeasures_numbered (clusters : List (List Token)) (d : DecodingState) (number : Nat) :
    (decodeMeasures d number clusters).value.map Measure.frame =
        (List.range' number clusters.length).map (fun i : Nat => ({ number := i } : Measure)) ∧
      ∀ m ∈ (decodeMeasures d number clusters).value, m.elements.IsChain SkipsApart := by
  induction clusters generalizing d number with
  | nil => exact ⟨rfl, List.forall_mem_nil _⟩
  | cons cluster clusters ih =>
    obtain ⟨numbered, apart⟩ := ih (decodeItems { d with sticky := {} } none
      (Item.ofTokens cluster).value).value.2 (number + 1)
    rw [value_decodeMeasures_cons]
    constructor
    · exact congrArg (({ number := number } : Measure) :: ·) numbered
    · refine List.forall_mem_cons.mpr ⟨?_, apart⟩
      exact (isChain_skipsApart_congr (map_orderChords (fun _ _ => rfl) _)).mpr
        (skipsApart_mergeSkips _)

end LinearScore
