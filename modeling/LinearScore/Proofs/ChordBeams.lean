import LinearScore.Proofs.ChordGroups

/-!
# Beams of chords that are put in order

When a chord is sorted, the beams of its first note move to the note that comes first then.  That
note may have beams of its own, and these are lost; no other beam is.

## Main definitions

* `FirstLeast`: the first member of a list with the least key
* `TakesHead`: a further note that comes first when its chord is put in order
* `heldBeams`: the beams of a group of elements

The main statement is `beamsReordered_orderChords`.

## Design notes

The note that comes first is named without sorting: it is the first one of the lowest pitch.  So
the condition under which a chord keeps its beams can be read off the chord as it was written.
-/

namespace LinearScore

/-! ## The first of the least -/

section FirstLeast

variable {α : Type} {key : α → Int} {as bs : List α} {a b : α}

/-- The first member of a list of which no key is less than its own. -/
def FirstLeast (key : α → Int) (as : List α) (a : α) : Prop :=
  ∃ front back, as = front ++ a :: back ∧ (∀ b ∈ front, key a < key b) ∧
    ∀ b ∈ back, key a ≤ key b

theorem firstLeast_cons :
    FirstLeast key (a :: as) b ↔
      (b = a ∧ ∀ c ∈ as, key a ≤ key c) ∨ (key b < key a ∧ FirstLeast key as b) := by
  constructor
  · rintro ⟨front, back, eq, before, behind⟩
    cases front with
    | nil =>
      cases eq
      exact .inl ⟨rfl, behind⟩
    | cons c front =>
      cases eq
      obtain ⟨less, before⟩ := List.forall_mem_cons.mp before
      exact .inr ⟨less, front, back, rfl, before, behind⟩
  · rintro (⟨rfl, behind⟩ | ⟨less, front, back, rfl, before, behind⟩)
    · exact ⟨[], as, rfl, List.forall_mem_nil _, behind⟩
    · exact ⟨a :: front, back, rfl, List.forall_mem_cons.mpr ⟨less, before⟩, behind⟩

theorem FirstLeast.mem (h : FirstLeast key as a) : a ∈ as := by
  obtain ⟨front, back, rfl, -, -⟩ := h
  exact List.mem_append_right _ List.mem_cons_self

theorem FirstLeast.le (h : FirstLeast key as a) : ∀ b ∈ as, key a ≤ key b := by
  obtain ⟨front, back, rfl, before, behind⟩ := h
  refine List.forall_mem_append.mpr ⟨fun b hb => (before b hb).le, ?_⟩
  exact List.forall_mem_cons.mpr ⟨le_rfl, behind⟩

/-- Among the members with the least key it is the first one. -/
theorem FirstLeast.head?_filter (h : FirstLeast key as a) :
    (as.filter (key · = key a)).head? = some a := by
  obtain ⟨front, back, rfl, before, -⟩ := h
  have none : front.filter (key · = key a) = [] := List.filter_eq_nil_iff.mpr fun b hb eq =>
    (before b hb).ne' (of_decide_eq_true eq)
  rw [List.filter_append, none, List.nil_append, List.filter_cons, if_pos (decide_eq_true rfl)]
  rfl

theorem FirstLeast.unique (h : FirstLeast key as a) (h' : FirstLeast key as b) : a = b := by
  have same : key a = key b := le_antisymm (h.le b h'.mem) (h'.le a h.mem)
  have first := h.head?_filter
  rw [same, h'.head?_filter] at first
  exact (Option.some.inj first).symm

/-- A sorted list begins with the first of the least. -/
theorem StablySorted.firstLeast (h : StablySorted key as (b :: bs)) : FirstLeast key as b := by
  have least : ∀ c ∈ as, key b ≤ key c := fun c hc => by
    rcases List.mem_cons.mp (h.perm.mem_iff.mpr hc) with rfl | hc
    · exact le_rfl
    · exact List.rel_of_pairwise_cons h.ascending hc
  have alike := h.stable (key b)
  rw [List.filter_cons, if_pos (decide_eq_true rfl)] at alike
  obtain ⟨front, back, rfl, before, -, -⟩ := List.filter_eq_cons_iff.mp alike.symm
  obtain ⟨notBelow, here⟩ := List.forall_mem_append.mp least
  refine ⟨front, back, rfl, fun c hc => ?_, (List.forall_mem_cons.mp here).2⟩
  exact lt_of_le_of_ne (notBelow c hc) fun eq => before c hc (decide_eq_true eq.symm)

end FirstLeast

/-! ## Beams -/

/-- The beams of the notes among the elements. -/
def heldBeams (es : List Element) : List Beam :=
  es.flatMap fun e => (e.note?.map (·.beams)).getD []

/-- A further note of a chord of pitched notes that comes first when the chord is put in order: the
first one of the lowest pitch. -/
structure TakesHead (group : List Element) (n : Note) : Prop where
  pitched : ∀ e ∈ group, e.Pitched
  lowest : ∃ first others, group = .note first :: others.map .note ∧ n.order < first.order ∧
    FirstLeast Note.order others n

/-- What becomes of the beams of a group: all are kept unless a note that comes first had some of
its own, and those are the ones that are lost. -/
structure BeamsReordered (group group' : List Element) : Prop where
  kept_iff : (heldBeams group').Perm (heldBeams group) ↔ ∀ n, TakesHead group n → n.beams = []
  lost : ∀ n, TakesHead group n → (heldBeams group).Perm (n.beams ++ heldBeams group')

theorem heldBeams_notes (notes : List Note) :
    heldBeams (notes.map .note) = notes.flatMap (·.beams) := List.flatMap_map ..

theorem Element.Pitched.pitchOrder?_note {n : Note} (h : (Element.note n).Pitched) :
    (Element.note n).pitchOrder? = some n.order := by
  obtain ⟨order, eq⟩ := Option.isSome_iff_exists.mp h
  have same : n.order = order := congrArg (Option.getD · 0) eq
  rw [eq, same]

/-- A group of which another note comes first is out of order. -/
theorem TakesHead.outOfOrder {group : List Element} {n : Note} (h : TakesHead group n) :
    OutOfOrder group := by
  obtain ⟨pitched, first, others, rfl, less, least⟩ := h
  refine ⟨pitched, fun ascending => ?_⟩
  rw [List.pairwise_filterMap] at ascending
  have mem : Element.note n ∈ others.map Element.note := List.mem_map_of_mem least.mem
  have le := List.rel_of_pairwise_cons ascending mem _
    (pitched _ List.mem_cons_self).pitchOrder?_note _
    (pitched _ (List.mem_cons_of_mem _ mem)).pitchOrder?_note
  exact absurd le (not_le.mpr less)

section Sorted

variable {first head : Note} {others rest : List Note}
  (stable : StablySorted Note.order ({ first with beams := [] } :: others) (head :: rest))
include stable

/-- The beams of the note that comes first are lost when it takes those of the old first note. -/
theorem perm_heldBeams_sorted : (heldBeams (.note first :: others.map .note)).Perm
    (head.beams ++ heldBeams (.note { head with chord := false, beams := first.beams } ::
      rest.map fun n => .note { n with chord := true })) := by
  have before : heldBeams (.note first :: others.map .note) =
      first.beams ++ others.flatMap Note.beams := heldBeams_notes (first :: others)
  have behind : heldBeams (.note { head with chord := false, beams := first.beams } ::
      rest.map fun n => .note { n with chord := true }) =
        first.beams ++ rest.flatMap Note.beams := congrArg _ (List.flatMap_map ..)
  -- the first note is sorted without its beams
  have sorted : (head.beams ++ rest.flatMap Note.beams).Perm (others.flatMap Note.beams) :=
    stable.perm.flatMap_right Note.beams
  rw [before, behind]
  exact (sorted.symm.append_left _).trans (List.perm_append_comm_assoc ..)

/-- The note that comes first is the old first one, or it is the one that takes its place. -/
theorem head_eq_or_takesHead (pitched : ∀ e ∈ .note first :: others.map .note, Element.Pitched e) :
    head = { first with beams := [] } ∨ TakesHead (.note first :: others.map .note) head := by
  rcases firstLeast_cons.mp stable.firstLeast with ⟨rfl, -⟩ | ⟨less, least⟩
  · exact .inl rfl
  · exact .inr ⟨pitched, first, others, rfl, less, least⟩

theorem TakesHead.eq_head {n : Note} (h : TakesHead (.note first :: others.map .note) n) :
    n = head := by
  obtain ⟨-, first', others', eq, less, least⟩ := h
  obtain ⟨first_eq, others_eq⟩ := List.cons.inj eq
  obtain rfl : first = first' := Element.note.inj first_eq
  obtain rfl : others = others' :=
    List.map_injective_iff.mpr (fun _ _ => Element.note.inj) others_eq
  have takes : FirstLeast Note.order ({ first with beams := [] } :: others) n :=
    firstLeast_cons.mpr (.inr ⟨less, least⟩)
  exact takes.unique stable.firstLeast

end Sorted

theorem beamsReordered_of_ordersTo {group group' : List Element} (h : OrdersTo group group') :
    BeamsReordered group group' := by
  cases h with
  | kept settled =>
    have none (n : Note) : ¬ TakesHead group n := fun takes => settled takes.outOfOrder
    exact ⟨iff_of_true (.refl _) fun n takes => absurd takes (none n),
      fun n takes => absurd takes (none n)⟩
  | sorted descends stable =>
    have all := perm_heldBeams_sorted stable
    refine ⟨⟨fun kept n takes => ?_, fun none => ?_⟩, fun n takes => ?_⟩
    · have length := (kept.trans all).length_eq
      rw [List.length_append] at length
      rw [takes.eq_head stable, ← List.length_eq_zero_iff]
      omega
    · have own := (head_eq_or_takesHead stable descends.pitched).elim (congrArg Note.beams) (none _)
      rw [own] at all
      exact all.symm
    · rw [takes.eq_head stable]
      exact all

/-- **A chord that is put in order keeps its beams, up to those of the note that comes first.** -/
theorem beamsReordered_orderChords (es : List Element) :
    ∃ groups groups', RunsOf (fun e => !e.inChord) es groups ∧
      RunsOf (fun e => !e.inChord) (orderChords es) groups' ∧
      List.Forall₂ BeamsReordered groups groups' := by
  have runs := runsOf_cutBefore (fun e => !e.inChord) es
  refine ⟨_, _, runs, runsOf_orderChords runs, ?_⟩
  exact List.forall₂_map_right_iff.mpr (List.forall₂_same.mpr fun group _ =>
    beamsReordered_of_ordersTo (ordersTo_orderGroup group))

/-- The lower note of a chord that is written from the top; it ends the beam. -/
def lowNote : Note :=
  { Note.pitched .c 4 .eighth (1 / 2) with chord := true, beams := [⟨1, .stop⟩] }

/-- The upper note of that chord, with the beam that goes through. -/
def highNote : Note := { Note.pitched .e 5 .eighth (1 / 2) with beams := [⟨1, .through⟩] }

/-- Two notes under a beam that begins at the first one and ends in the chord at the second one. -/
def endingBelow : List Element :=
  [.note { Note.pitched .c 4 .eighth (1 / 2) with beams := [⟨1, .start⟩] },
    .note highNote, .note lowNote]

/-- The end of the beam is lost when the chord is put in order. -/
theorem heldBeams_endingBelow :
    heldBeams endingBelow = [⟨1, .start⟩, ⟨1, .through⟩, ⟨1, .stop⟩] ∧
      heldBeams (orderChords endingBelow) = [⟨1, .start⟩, ⟨1, .through⟩] := by
  have takes : TakesHead [.note highNote, .note lowNote] lowNote := by
    refine ⟨?_, highNote, [lowNote], rfl, by decide, [], [], rfl, ?_, ?_⟩
    · exact List.forall_mem_cons.mpr ⟨rfl, List.forall_mem_singleton.mpr rfl⟩
    · exact List.forall_mem_nil _
    · exact List.forall_mem_nil _
  have lost : [⟨1, .through⟩, ⟨1, .stop⟩].Perm
      (⟨1, .stop⟩ :: heldBeams (orderGroup [.note highNote, .note lowNote])) :=
    (beamsReordered_of_ordersTo (ordersTo_orderGroup _)).lost lowNote takes
  have left : heldBeams (orderGroup [.note highNote, .note lowNote]) = [⟨1, .through⟩] :=
    List.perm_singleton.mp ((List.perm_cons _).mp ((List.Perm.swap ..).trans lost)).symm
  refine ⟨rfl, ?_⟩
  show ⟨1, .start⟩ :: heldBeams (orderGroup [.note highNote, .note lowNote] ++ []) = _
  rw [List.append_nil, left]

end LinearScore
