import LinearScore.Proofs.ListedOrder
import LinearScore.Proofs.WellFormed

/-!
# Chords are put in order group by group

A group is an element with the notes that follow it in its chord.  A group of pitched notes that
descends somewhere is sorted, and the beams of its first note move to the note that is the first
one then.  Every other group stays as it is, and no note leaves its group.

## Main definitions

* `StablySorted`: a list sorted by a key, where members with the same key keep their order
* `OutOfOrder`, `OrdersTo`: a group that has to be sorted, and what ordering makes of a group
* `ChordsAscend`: no chord of pitched notes descends

The main statement is `orders_each_chordGroup`.

## Design notes

The groups are named by `RunsOf`, which does not mention how they are found; a list has only one
such division (`RunsOf.eq_cutBefore`).  In the same way `OrdersTo` does not mention how a group is
sorted, and it leaves no choice (`OrdersTo.eq_orderGroup`).

The last steps of decoding follow the ordering of chords.  They change neither the flags nor the
pitch orders of elements, up to attributes that may be put in front of the first measure, so a chord
in order is still one in the decoded part.
-/

namespace LinearScore

/-! ## Sorting -/

section StablySorted

variable {α : Type} {key : α → Int} {as bs : List α}

/-- A list is sorted by a key, and members with the same key keep their order. -/
structure StablySorted (key : α → Int) (as bs : List α) : Prop where
  perm : bs.Perm as
  ascending : bs.Pairwise fun a b => key a ≤ key b
  stable : ∀ k, bs.filter (key · = k) = as.filter (key · = k)

theorem stablySorted_mergeSort (key : α → Int) (as : List α) :
    StablySorted key as (as.mergeSort fun a b => key a ≤ key b) where
  perm := List.mergeSort_perm ..
  ascending := pairwise_mergeSort_key key as
  stable k := by
    have alike : (as.filter (key · = k)).Pairwise fun a b => decide (key a ≤ key b) = true := by
      refine List.pairwise_of_forall_mem_list fun a ha b hb => ?_
      have eq := of_decide_eq_true (List.mem_filter.mp ha).2
      have eq' := of_decide_eq_true (List.mem_filter.mp hb).2
      exact decide_eq_true (eq.trans eq'.symm).le
    have kept : (as.filter (key · = k)).Sublist (as.mergeSort fun a b => key a ≤ key b) :=
      List.sublist_mergeSort (by simpa using fun a b c => Int.le_trans)
        (by simpa using fun a b => Int.le_total _ _) alike List.filter_sublist
    have filtered := kept.filter (key · = k)
    rw [List.filter_filter, funext fun a => Bool.and_self _] at filtered
    exact (filtered.eq_of_length
      ((List.mergeSort_perm as _).filter (key · = k)).length_eq.symm).symm

theorem mem_iff_of_filter_eq {bs cs : List α}
    (same : ∀ k, bs.filter (key · = k) = cs.filter (key · = k)) {a : α} : a ∈ bs ↔ a ∈ cs := by
  have alike : a ∈ bs.filter (key · = key a) ↔ a ∈ cs.filter (key · = key a) := by
    rw [same]
  simpa using alike

/-- Lists in order are equal if they have the same members of each key in the same order. -/
theorem eq_of_filter_eq {bs cs : List α} (hb : bs.Pairwise fun a b => key a ≤ key b)
    (hc : cs.Pairwise fun a b => key a ≤ key b)
    (same : ∀ k, bs.filter (key · = k) = cs.filter (key · = k)) : bs = cs := by
  induction bs generalizing cs with
  | nil =>
    refine (List.eq_nil_iff_forall_not_mem.mpr fun c mem => ?_).symm
    exact nomatch (mem_iff_of_filter_eq same).mpr mem
  | cons b bs ih =>
    cases cs with
    | nil => exact nomatch (mem_iff_of_filter_eq same).mp List.mem_cons_self
    | cons c cs =>
      obtain ⟨leastB, restB⟩ := List.pairwise_cons.mp hb
      obtain ⟨leastC, restC⟩ := List.pairwise_cons.mp hc
      -- both lists begin with a member of the least key, so they begin with the same one
      have keys : key c = key b := by
        have mem {a : α} := mem_iff_of_filter_eq (a := a) same
        rcases List.mem_cons.mp (mem.mp List.mem_cons_self) with eq | memB
        · rw [eq]
        · rcases List.mem_cons.mp (mem.mpr List.mem_cons_self) with eq | memC
          · rw [eq]
          · exact le_antisymm (leastC b memB) (leastB c memC)
      have first := same (key b)
      rw [List.filter_cons, if_pos (decide_eq_true rfl), List.filter_cons,
        if_pos (decide_eq_true keys)] at first
      obtain ⟨rfl, alike⟩ := List.cons.inj first
      have later (k : Int) : bs.filter (key · = k) = cs.filter (key · = k) := by
        by_cases mine : key b = k
        · rw [← mine]
          exact alike
        · have atK := same k
          rwa [List.filter_cons, if_neg (by simpa using mine), List.filter_cons,
            if_neg (by simpa using mine)] at atK
      exact congrArg (b :: ·) (ih restB restC later)

/-- There is only one way to sort a list so. -/
theorem StablySorted.unique {bs cs : List α} (hb : StablySorted key as bs)
    (hc : StablySorted key as cs) : bs = cs :=
  eq_of_filter_eq hb.ascending hc.ascending fun k => (hb.stable k).trans (hc.stable k).symm

end StablySorted

/-! ## Groups -/

/-- The order of the pitch of a note; the notes at hand are pitched. -/
def Note.order (n : Note) : Int := (n.pitch?.map Pitch.order).getD 0

/-- A group of pitched notes, of which one lies below a note before it. -/
structure OutOfOrder (group : List Element) : Prop where
  pitched : ∀ e ∈ group, e.Pitched
  descends : ¬ (group.filterMap Element.pitchOrder?).Pairwise (· ≤ ·)

/-- What ordering makes of a group. -/
inductive OrdersTo : List Element → List Element → Prop
  /-- A group with an element that is no pitched note stays as it is, and so does one in order. -/
  | kept {group : List Element} (settled : ¬ OutOfOrder group) : OrdersTo group group
  /-- Any other group is sorted: the beams of its first note move to the note that comes first, and
  only that note is not marked as a further note of a chord. -/
  | sorted {first head : Note} {others rest : List Note}
      (descends : OutOfOrder (.note first :: others.map .note))
      (stable : StablySorted Note.order ({ first with beams := [] } :: others) (head :: rest)) :
      OrdersTo (.note first :: others.map .note)
        (.note { head with chord := false, beams := first.beams } ::
          rest.map fun n => .note { n with chord := true })

theorem ascending_iff {orders : List Int} :
    ascending orders = true ↔ orders.Pairwise (· ≤ ·) := by
  rw [← List.isChain_iff_pairwise]
  induction orders with
  | nil => exact iff_of_true rfl .nil
  | cons a orders ih =>
    cases orders with
    | nil => exact iff_of_true rfl (.singleton a)
    | cons b orders =>
      rw [ascending, Bool.and_eq_true, decide_eq_true_iff, ih, List.isChain_cons_cons]

/-- The orders of a group of pitched notes. -/
theorem mapM_pitchOrder? {group : List Element} (h : ∀ e ∈ group, e.Pitched) :
    group.mapM Element.pitchOrder? = some (group.filterMap Element.pitchOrder?) := by
  induction group with
  | nil => rfl
  | cons e es ih =>
    obtain ⟨first, later⟩ := List.forall_mem_cons.mp h
    obtain ⟨order, first⟩ := Option.isSome_iff_exists.mp first
    rw [List.mapM_cons, ih later, first, List.filterMap_cons_some first]
    rfl

/-- Pitched elements are notes. -/
theorem exists_notes {group : List Element} (h : ∀ e ∈ group, e.Pitched) :
    ∃ notes : List Note, group = notes.map .note := by
  induction group with
  | nil => exact ⟨[], rfl⟩
  | cons e es ih =>
    obtain ⟨first, later⟩ := List.forall_mem_cons.mp h
    obtain ⟨n, rfl⟩ := first.exists_note
    obtain ⟨notes, rfl⟩ := ih later
    exact ⟨n :: notes, rfl⟩

theorem sortGroup_notes (notes : List Note) :
    sortGroup (notes.map .note) =
      (notes.mergeSort fun a b => a.order ≤ b.order).map .note := by
  have alike : ∀ a ∈ notes, ∀ b ∈ notes, decide (a.order ≤ b.order) =
      decide ((Element.note a).pitchOrder?.getD 0 ≤ (Element.note b).pitchOrder?.getD 0) :=
    fun _ _ _ _ => rfl
  exact (List.map_mergeSort alike).symm

/-- A group that is not out of order stays as it is. -/
theorem orderGroup_of_settled {group : List Element} (settled : ¬ OutOfOrder group) :
    orderGroup group = group := by
  rcases orderGroup_cases group with pitched | same
  · have ascends : (group.filterMap Element.pitchOrder?).Pairwise (· ≤ ·) :=
      not_not.mp fun descends => settled ⟨pitched, descends⟩
    rw [orderGroup, mapM_pitchOrder? pitched]
    exact if_pos (ascending_iff.mpr ascends)
  · exact same

/-- Any other group is sorted. -/
theorem orderGroup_of_outOfOrder {first : Note} {others : List Note}
    (descends : OutOfOrder ((first :: others).map .note)) :
    ∃ head rest, StablySorted Note.order ({ first with beams := [] } :: others) (head :: rest) ∧
      orderGroup ((first :: others).map .note) =
        .note { head with chord := false, beams := first.beams } ::
          rest.map fun n => .note { n with chord := true } := by
  have stable := stablySorted_mergeSort Note.order ({ first with beams := [] } :: others)
  have sorted := sortGroup_notes ({ first with beams := [] } :: others)
  obtain ⟨head, rest, eq⟩ := List.exists_cons_of_ne_nil fun empty =>
    List.cons_ne_nil _ _ (stable.perm.symm.trans (.of_eq empty)).eq_nil
  rw [eq] at stable sorted
  have beamless : withoutHeadBeams ((first :: others).map .note) =
      ({ first with beams := [] } :: others).map .note := rfl
  refine ⟨head, rest, stable, ?_⟩
  rw [orderGroup, mapM_pitchOrder? descends.pitched]
  dsimp only
  rw [if_neg (mt ascending_iff.mp descends.descends), beamless, sorted]
  exact congrArg _ List.map_map

theorem ordersTo_orderGroup (group : List Element) : OrdersTo group (orderGroup group) := by
  by_cases descends : OutOfOrder group
  · obtain ⟨notes, rfl⟩ := exists_notes descends.pitched
    cases notes with
    | nil => exact absurd .nil descends.descends
    | cons first others =>
      obtain ⟨head, rest, stable, ordered⟩ := orderGroup_of_outOfOrder descends
      rw [ordered]
      exact .sorted descends stable
  · rw [orderGroup_of_settled descends]
    exact .kept descends

/-- The relation determines what ordering makes of a group. -/
theorem OrdersTo.eq_orderGroup {group group' : List Element} (h : OrdersTo group group') :
    group' = orderGroup group := by
  cases h with
  | kept settled => exact (orderGroup_of_settled settled).symm
  | sorted descends stable =>
    obtain ⟨head', rest', stable', ordered⟩ := orderGroup_of_outOfOrder descends
    obtain ⟨rfl, rfl⟩ := List.cons.inj (stable.unique stable')
    exact ordered.symm

theorem pairwise_orders {es : List Element}
    (h : es.Pairwise fun a b => a.pitchOrder?.getD 0 ≤ b.pitchOrder?.getD 0) :
    (es.filterMap Element.pitchOrder?).Pairwise (· ≤ ·) := by
  refine List.pairwise_filterMap.mpr (h.imp fun le x hx y hy => ?_)
  rwa [hx, hy] at le

namespace OrdersTo

variable {group group' : List Element}

/-- A group that is ordered is in order. -/
theorem settled (h : OrdersTo group group') : ¬ OutOfOrder group' := by
  cases h with
  | kept settled => exact settled
  | @sorted first head others rest descends stable =>
    obtain ⟨first, later⟩ := List.pairwise_cons.mp stable.ascending
    refine fun h => h.descends (pairwise_orders (List.pairwise_cons.mpr ⟨?_, ?_⟩))
    · exact List.forall_mem_map.mpr first
    · exact List.pairwise_map.mpr later

theorem ne_nil (h : OrdersTo group group') (nonempty : group ≠ []) : group' ≠ [] := by
  cases h with
  | kept => exact nonempty
  | sorted => exact List.cons_ne_nil _ _

/-- The first element of an ordered group is a further note of a chord only if the group was headed
by one. -/
theorem inChord_head (h : OrdersTo group group')
    (begins : ∀ e ∈ group.head?, (!e.inChord) = true) :
    ∀ e ∈ group'.head?, (!e.inChord) = true := by
  cases h with
  | kept => exact begins
  | sorted =>
    rintro e ⟨⟩
    rfl

theorem inChord_tail (h : OrdersTo group group')
    (inside : ∀ e ∈ group.tail, (!e.inChord) = false) :
    ∀ e ∈ group'.tail, (!e.inChord) = false := by
  cases h with
  | kept => exact inside
  | sorted =>
    intro e he
    obtain ⟨n, -, rfl⟩ := List.mem_map.mp he
    rfl

end OrdersTo

/-- The groups of the elements in order are the groups that are put in order. -/
theorem runsOf_orderChords {es : List Element} {groups : List (List Element)}
    (h : RunsOf (fun e => !e.inChord) es groups) :
    RunsOf (fun e => !e.inChord) (orderChords es) (groups.map orderGroup) where
  flatten := by
    rw [orderChords, chordGroups, ← h.eq_cutBefore, List.flatMap_def]
  nonempty := List.forall_mem_map.mpr fun group hg =>
    (ordersTo_orderGroup group).ne_nil (h.nonempty group hg)
  begins := by
    rw [← List.map_tail]
    exact List.forall_mem_map.mpr fun group hg =>
      (ordersTo_orderGroup group).inChord_head (h.begins group hg)
  inside := List.forall_mem_map.mpr fun group hg =>
    (ordersTo_orderGroup group).inChord_tail (h.inside group hg)

/-- No group of the elements is out of order. -/
def GroupsAscend (es : List Element) : Prop := ∀ group ∈ chordGroups es, ¬ OutOfOrder group

theorem groupsAscend_orderChords (es : List Element) : GroupsAscend (orderChords es) := by
  have runs := runsOf_orderChords (runsOf_cutBefore (fun e => !e.inChord) es)
  rw [GroupsAscend, chordGroups, ← runs.eq_cutBefore, List.forall_mem_map]
  exact fun group _ => (ordersTo_orderGroup group).settled

/-! ## Chords -/

/-- The elements hold a chord: a note, and behind it all the notes that follow in its chord. -/
structure HasChord (es : List Element) (first : Note) (others : List Note) : Prop where
  opens : first.chord = false
  further : ∀ n ∈ others, n.chord = true
  whole : ∃ front back, es = front ++ ((first :: others).map .note ++ back) ∧
    ∀ e ∈ back.head?, e.inChord = false

/-- No chord of pitched notes descends. -/
def ChordsAscend (es : List Element) : Prop :=
  ∀ first others, HasChord es first others →
    ∀ pitches : List Pitch, (first :: others).map Note.pitch? = pitches.map some →
      (pitches.map Pitch.order).Pairwise (· ≤ ·)

/-- A chord is a group. -/
theorem HasChord.mem_chordGroups {es : List Element} {first : Note} {others : List Note}
    (h : HasChord es first others) : (first :: others).map .note ∈ chordGroups es := by
  obtain ⟨opens, further, front, back, rfl, next⟩ := h
  have chord : RunsOf (fun e => !e.inChord) ((first :: others).map Element.note)
      [(first :: others).map .note] :=
    runsOf_singleton (List.cons_ne_nil _ _) (List.forall_mem_map.mpr fun n hn =>
      congrArg Bool.not (further n hn))
  have runs := (runsOf_cutBefore (fun e => !e.inChord) front).append
    (chord.append (runsOf_cutBefore (fun e => !e.inChord) back) fun e he =>
      congrArg Bool.not (next e he))
    (by
      rintro e ⟨⟩
      exact congrArg Bool.not opens)
  rw [chordGroups, ← runs.eq_cutBefore]
  exact List.mem_append_right _ List.mem_cons_self

theorem GroupsAscend.chordsAscend {es : List Element} (h : GroupsAscend es) : ChordsAscend es := by
  intro first others chord pitches pitched
  have shown : ((first :: others).map Element.note).map Element.pitchOrder? =
      (pitches.map Pitch.order).map some := by
    have orders := congrArg (List.map (Option.map Pitch.order)) pitched
    rw [List.map_map, List.map_map] at orders
    rw [List.map_map, List.map_map]
    exact orders
  by_contra descends
  refine h _ chord.mem_chordGroups ⟨fun e he => ?_, ?_⟩
  · have mem := List.mem_map_of_mem (f := Element.pitchOrder?) he
    rw [shown] at mem
    obtain ⟨order, -, eq⟩ := List.mem_map.mp mem
    exact Option.isSome_of_eq_some eq.symm
  · have orders := calc ((first :: others).map Element.note).filterMap Element.pitchOrder?
        = (((first :: others).map Element.note).map Element.pitchOrder?).filterMap id :=
          (List.filterMap_map (g := id)).symm
      _ = ((pitches.map Pitch.order).map some).filterMap id := congrArg _ shown
      _ = pitches.map Pitch.order := List.filterMap_map.trans List.filterMap_some
    rwa [orders]

/-! ## Decoding -/

/-- What decides on the group of an element, and on its place in that group. -/
def Element.standing (e : Element) : Bool × Option Int := (e.inChord, e.pitchOrder?)

theorem groupsAscend_iff (es : List Element) :
    GroupsAscend es ↔ ∀ group ∈ cutBefore (fun s => !s.1) (es.map Element.standing),
      ¬ ((∀ s ∈ group, s.2.isSome = true) ∧ ¬ (group.filterMap Prod.snd).Pairwise (· ≤ ·)) := by
  rw [cutBefore_map, List.forall_mem_map]
  refine forall₂_congr fun group _ => not_congr ?_
  rw [List.forall_mem_map, List.filterMap_map]
  exact ⟨fun h => ⟨h.pitched, h.descends⟩, fun h => ⟨h.1, h.2⟩⟩

theorem groupsAscend_congr {es fs : List Element}
    (same : es.map Element.standing = fs.map Element.standing) (h : GroupsAscend es) :
    GroupsAscend fs := by
  rw [groupsAscend_iff] at h ⊢
  rwa [← same]

/-- An element that is no pitched note leaves all groups in order. -/
theorem GroupsAscend.cons {e : Element} {es : List Element} (unpitched : ¬ e.Pitched)
    (h : GroupsAscend es) : GroupsAscend (e :: es) := by
  have settled (group : List Element) : ¬ OutOfOrder (e :: group) := fun out =>
    unpitched (out.pitched e List.mem_cons_self)
  cases es with
  | nil => exact List.forall_mem_singleton.mpr (settled [])
  | cons b es =>
    obtain ⟨group, groups, eq⟩ := exists_cutBefore_cons (fun e => !e.inChord) b es
    rw [GroupsAscend, chordGroups, eq] at h
    rw [GroupsAscend, chordGroups, cutBefore_cons_cons, eq]
    split
    · exact List.forall_mem_cons.mpr ⟨settled [], h⟩
    · exact List.forall_mem_cons.mpr ⟨settled _, (List.forall_mem_cons.mp h).2⟩

theorem groupsAscend_of_map {p q : Part}
    (same : q.measures.map (fun m => m.elements.map Element.standing) =
      p.measures.map fun m => m.elements.map Element.standing)
    (h : ∀ m ∈ p.measures, GroupsAscend m.elements) :
    ∀ m ∈ q.measures, GroupsAscend m.elements := by
  intro m hm
  have mem : m.elements.map Element.standing ∈
      q.measures.map fun m => m.elements.map Element.standing := List.mem_map_of_mem hm
  rw [same] at mem
  obtain ⟨m', hm', eq⟩ := List.mem_map.mp mem
  exact groupsAscend_congr eq (h m' hm')

theorem groupsAscend_declareDivisions (d : Int) {p : Part}
    (h : ∀ m ∈ p.measures, GroupsAscend m.elements) :
    ∀ m ∈ (p.declareDivisions d).measures, GroupsAscend m.elements := by
  refine forall_elements_declareDivisions (fun a es h => h.cons Bool.false_ne_true)
    (fun a b es => groupsAscend_congr ?_) d h
  have same : (Element.attributes a).standing = (Element.attributes b).standing := rfl
  rw [List.map_cons, List.map_cons, same]

theorem steady_standing : Steady true fun e => [e.standing] where
  staves _ _ := rfl
  alter n p alter content := by
    have pitched (n : Note) : (Element.note n).standing = (n.chord, n.pitch?.map Pitch.order) := rfl
    rw [pitched, pitched]
    dsimp only
    rw [Note.pitch?, Note.pitch?, content]
    rfl
  divisions ticks := Bool.noConfusion ticks
  durations ticks := Bool.noConfusion ticks
  empty ticks := Bool.noConfusion ticks

theorem groupsAscend_finish (quarters : Bool) {p : Part}
    (h : ∀ m ∈ p.measures, GroupsAscend m.elements) :
    ∀ m ∈ (p.finish quarters).value.measures, GroupsAscend m.elements := by
  have shown (m : Measure) : m.shown (fun e => [e.standing]) = m.elements.map Element.standing :=
    (List.map_eq_flatMap ..).symm
  have inQuarters : ∀ m ∈ (p.finish true).value.measures, GroupsAscend m.elements := by
    have same := map_finish steady_standing p
    simp only [funext shown] at same
    exact groupsAscend_of_map same h
  cases quarters with
  | true => exact inQuarters
  | false =>
    show ∀ m ∈ (ticksOf (p.finish true).value).value.measures, _
    rw [value_ticksOf]
    obtain ⟨q, hq⟩ : ∃ q, q = (p.finish true).value := ⟨_, rfl⟩
    rw [← hq] at inQuarters ⊢
    cases divided : q.hasDivisions with
    | true =>
      rw [toTicks_of_divided divided]
      exact inQuarters
    | false =>
      rw [toTicks_of_undivided divided]
      refine groupsAscend_declareDivisions _ (groupsAscend_of_map ?_ inQuarters)
      rw [Part.mapDurations, List.map_map]
      refine List.map_congr_left fun m _ => ?_
      refine List.map_map.trans (List.map_congr_left fun e _ => ?_)
      cases e <;> rfl

theorem groupsAscend_decodeMeasures (clusters : List (List Token)) (d : DecodingState)
    (number : Int) :
    ∀ m ∈ (decodeMeasures d number clusters).value, GroupsAscend m.elements := by
  induction clusters generalizing d number with
  | nil => exact List.forall_mem_nil _
  | cons cluster clusters ih =>
    rw [value_decodeMeasures_cons]
    exact List.forall_mem_cons.mpr ⟨groupsAscend_orderChords _, ih _ _⟩

theorem groupsAscend_decodeTokens (quarters : Bool) (tokens : List Token) :
    ∀ m ∈ (decodeTokens quarters tokens).value.measures, GroupsAscend m.elements := by
  rw [decodeTokens_eq, Reported.value_bind, Reported.value_bind]
  exact groupsAscend_finish quarters (groupsAscend_decodeMeasures _ _ _)

/-- **Chords are put in order group by group.**  Every group stays as it is, or it is a group of
pitched notes that is sorted in its place.  So no chord of pitched notes descends in a part that is
decoded, whatever its tokens are. -/
theorem orders_each_chordGroup :
    (∀ es : List Element, ∃ groups groups',
      RunsOf (fun e => !e.inChord) es groups ∧
      RunsOf (fun e => !e.inChord) (orderChords es) groups' ∧
      List.Forall₂ OrdersTo groups groups') ∧
    ∀ quarters texts, ∀ m ∈ (decodeTexts quarters texts).value.measures,
      ChordsAscend m.elements := by
  refine ⟨fun es => ?_, fun quarters texts m hm => ?_⟩
  · have runs := runsOf_cutBefore (fun e => !e.inChord) es
    refine ⟨_, _, runs, runsOf_orderChords runs, ?_⟩
    exact List.forall₂_map_right_iff.mpr (List.forall₂_same.mpr fun group _ =>
      ordersTo_orderGroup group)
  · rw [decodeTexts, Reported.value_bind] at hm
    exact (groupsAscend_decodeTokens quarters _ m hm).chordsAscend

end LinearScore
