import Mathlib.Data.List.Chain
import LinearScore.Proofs.Rereading

/-!
# Chords that stand in order

Decoding puts the notes of every chord in ascending order.  Where each further note of a chord
stands no lower than the note before it there is nothing to do, and merging backups and forwards
does not change that.

## Main definitions

* `Ascends`: one element may follow another without descending in a chord
* `Blind`: a relation that only looks at the shapes of elements

The main statements are `orderChords_eq_self`, and `orderChords_echoElements` for what is read
back of a measure without faults.
-/

namespace LinearScore

/-- The second element does not descend from the first one in a chord. -/
def Ascends (a b : Element) : Prop :=
  b.inChord = true → ∀ x ∈ a.pitchOrder?, ∀ y ∈ b.pitchOrder?, x ≤ y

theorem Ascends.of_not_inChord (a : Element) {b : Element} (h : b.inChord = false) :
    Ascends a b := fun chord => absurd (h ▸ chord) Bool.false_ne_true

theorem Ascends.of_pitchOrder?_eq_none {a : Element} (h : a.pitchOrder? = none) (b : Element) :
    Ascends a b := by
  intro _ x hx
  rw [h] at hx
  cases hx

/-! ## Groups -/

/-- Orders that a chord in order has never descend. -/
theorem ascending_of_isChain {group : List Element} {orders : List Int}
    (chain : group.IsChain Ascends) (chord : ∀ e ∈ group.tail, e.inChord = true)
    (h : group.mapM Element.pitchOrder? = some orders) : ascending orders = true := by
  induction group generalizing orders with
  | nil =>
    cases h
    rfl
  | cons a group ih =>
    rw [List.mapM_cons] at h
    obtain ⟨x, hx, rest, hrest, eq⟩ : ∃ x, a.pitchOrder? = some x ∧ ∃ rest,
        group.mapM Element.pitchOrder? = some rest ∧ x :: rest = orders := by
      simpa [Option.bind_eq_some_iff] using h
    subst eq
    cases group with
    | nil =>
      cases hrest
      rfl
    | cons b group =>
      have later := ih chain.tail (fun e he => chord e (List.mem_cons_of_mem _ he)) hrest
      rw [List.mapM_cons] at hrest
      obtain ⟨y, hy, others, -, eq⟩ : ∃ y, b.pitchOrder? = some y ∧ ∃ others,
          group.mapM Element.pitchOrder? = some others ∧ y :: others = rest := by
        simpa [Option.bind_eq_some_iff] using hrest
      subst eq
      have le : x ≤ y :=
        (List.isChain_cons_cons.mp chain).1 (chord b List.mem_cons_self) x hx y hy
      simp [ascending, le, later]

theorem orderGroup_eq_self {group : List Element} (chain : group.IsChain Ascends)
    (chord : ∀ e ∈ group.tail, e.inChord = true) : orderGroup group = group := by
  unfold orderGroup
  split
  · rfl
  · rename_i orders h
    rw [if_pos (ascending_of_isChain chain chord h)]

/-- The first member of the first group is the first element. -/
theorem head?_of_chordGroups {es : List Element} {b : Element} {group : List Element}
    {groups : List (List Element)} (h : chordGroups es = (b :: group) :: groups) :
    es.head? = some b := by
  have flat : (chordGroups es).flatten = es := flatten_cutBefore _ es
  rw [← flat, h]
  rfl

theorem chordGroups_ascend {es : List Element} (h : es.IsChain Ascends) :
    ∀ group ∈ chordGroups es,
      group.IsChain Ascends ∧ ∀ e ∈ group.tail, e.inChord = true := by
  induction es with
  | nil => exact List.forall_mem_nil _
  | cons a es ih =>
    have groups := ih h.tail
    have start : [a].IsChain Ascends ∧ ∀ e ∈ [a].tail, e.inChord = true :=
      ⟨.singleton a, by simp⟩
    show ∀ group ∈ joinRun (fun e => !e.inChord) a (chordGroups es), _
    unfold joinRun
    split
    · rename_i b group rest eq
      rw [eq, List.forall_mem_cons] at groups
      split
      · exact List.forall_mem_cons.mpr ⟨start, List.forall_mem_cons.mpr groups⟩
      · rename_i inChord
        refine List.forall_mem_cons.mpr ⟨⟨?_, ?_⟩, groups.2⟩
        · exact .cons_cons (h.rel_head? (head?_of_chordGroups eq)) groups.1.1
        · exact List.forall_mem_cons.mpr ⟨by simpa using inChord, groups.1.2⟩
    · exact List.forall_mem_cons.mpr ⟨start, groups⟩

/-- Chords in order stay as they are. -/
theorem orderChords_eq_self {es : List Element} (h : es.IsChain Ascends) :
    orderChords es = es := by
  have groups : (chordGroups es).flatMap orderGroup = (chordGroups es).flatMap id :=
    List.flatMap_congr fun group hg =>
      orderGroup_eq_self (chordGroups_ascend h group hg).1 (chordGroups_ascend h group hg).2
  rw [orderChords, groups, List.flatMap_id]
  exact flatten_cutBefore _ es

/-! ## Merging -/

/-- An element without what it tells, unless it is a note. -/
def Element.shape : Element → Element
  | .attributes _ => .attributes {}
  | .note n => .note n
  | .backup _ => .backup 0
  | .forward _ => .forward 0

/-- The relation only looks at the shapes of elements. -/
def Blind (R : Element → Element → Prop) : Prop := ∀ a b, R a b ↔ R a.shape b.shape

theorem blind_ascends : Blind Ascends := by
  intro a b
  cases a <;> cases b <;> exact Iff.rfl

section Blind

variable {R : Element → Element → Prop} (blind : Blind R)
include blind

/-- A chain stays one when an element gets another one of its shape as its new head. -/
theorem Blind.cons {a b : Element} {es : List Element} (shape : a.shape = b.shape)
    (h : (a :: es).IsChain R) : (b :: es).IsChain R := by
  refine h.tail.cons fun y hy => ?_
  have rel := h.rel_head? hy
  rw [blind, shape] at rel
  exact (blind b y).mpr rel

theorem Blind.isChain_joinSkip {e : Element} {es : List Element} (h : (e :: es).IsChain R) :
    (joinSkip e es).IsChain R := by
  unfold joinSkip
  split
  · rename_i e _
    exact blind.cons (a := .backup e) rfl h.tail
  · rename_i e _
    exact blind.cons (a := .forward e) rfl h.tail
  · exact h

/-- Merging backups and forwards keeps what holds of neighbours of such shapes. -/
theorem Blind.isChain_mergeSkips {es : List Element} (h : es.IsChain R) :
    (mergeSkips es).IsChain R := by
  have head (e : Element) (es : List Element) : ∀ x ∈ (joinSkip e es).head?, x.shape = e.shape := by
    unfold joinSkip
    split
    · exact fun x hx => by cases hx; rfl
    · exact fun x hx => by cases hx; rfl
    · exact fun x hx => by cases hx; rfl
  induction es with
  | nil => exact h
  | cons e es ih =>
    refine blind.isChain_joinSkip ((ih h.tail).cons fun y hy => ?_)
    cases es with
    | nil => cases hy
    | cons x es =>
      have rel := (List.isChain_cons_cons.mp h).1
      rw [blind, ← head x _ y hy] at rel
      exact (blind e y).mpr rel

end Blind

/-! ## What is read back -/

/-- A note without faults does not descend from the note before it. -/
theorem EncodingState.Clean.ascends {s : EncodingState} {n : Note} (h : s.Clean (.note n))
    (chord : n.chord = true) : ∀ p ∈ s.sticky.previousPitch, ∀ q ∈ n.pitch?, p.order ≤ q.order := by
  intro p hp q hq
  have length := (faults_append_eq_nil.mp h).2
  have faults := (faults_append_eq_nil.mp length).2
  rw [chordEmissions, if_pos chord, faults_append_eq_nil] at faults
  have order := faults.2
  rw [hp, hq] at order
  simpa using faults_faultIf_eq_nil.mp order

theorem pitchOrder?_echo (d : DecodingState) (n : Note) :
    (Element.note (d.echo n)).pitchOrder? = n.pitch?.map Pitch.order := by
  show (Note.pitch? (d.echo n)).map Pitch.order = _
  unfold Note.pitch? DecodingState.echo
  cases n.content with
  | pitch p => rfl
  | rest m => rfl

theorem isChain_closeRun {run : Option Attributes} {last : Element} {es : List Element}
    (h : (last :: es).IsChain Ascends) : (last :: (closeRun run ++ es)).IsChain Ascends := by
  cases run with
  | none => exact h
  | some a =>
    refine .cons_cons (.of_not_inChord last rfl) ?_
    exact h.tail.cons fun y _ => .of_pitchOrder?_eq_none rfl y

/-- The elements that are read back of elements without faults do not descend, also from an
element `last` in front of them that has the pitch of the last note, if it has one. -/
theorem isChain_echoElements {s : EncodingState} {es : List Element}
    (h : AlongElements EncodingState.Clean s es) (d : DecodingState) (run : Option Attributes)
    {last : Element}
    (hl : ∀ x ∈ last.pitchOrder?, s.sticky.previousPitch.map Pitch.order = some x) :
    (last :: (echoElements s d run es).1).IsChain Ascends := by
  induction es generalizing s d run last with
  | nil =>
    have chain := @isChain_closeRun run last [] (.singleton last)
    rwa [List.append_nil] at chain
  | cons e es ih =>
    obtain ⟨clean, along⟩ := h
    cases e with
    | attributes a => exact ih along _ _ hl
    | note n =>
      refine isChain_closeRun (.cons_cons ?_ (ih along _ _ ?_))
      · intro chord x hx y hy
        obtain ⟨p, hp, rfl⟩ := Option.map_eq_some_iff.mp (hl x hx)
        rw [pitchOrder?_echo] at hy
        obtain ⟨q, hq, rfl⟩ := Option.map_eq_some_iff.mp hy
        exact clean.ascends chord p hp q hq
      · intro x hx
        rwa [pitchOrder?_echo] at hx
    | backup t =>
      exact isChain_closeRun (.cons_cons (.of_not_inChord last rfl) (ih along _ _ forall_mem_none))
    | forward t =>
      exact isChain_closeRun (.cons_cons (.of_not_inChord last rfl) (ih along _ _ forall_mem_none))

/-- The chords that are read back of elements without faults stay as they are. -/
theorem orderChords_echoElements {s : EncodingState} {es : List Element}
    (h : AlongElements EncodingState.Clean s es) (d : DecodingState)
    (run : Option Attributes) :
    orderChords (mergeSkips (echoElements s d run es).1) =
      mergeSkips (echoElements s d run es).1 := by
  have chain : (Element.backup 0 :: (echoElements s d run es).1).IsChain Ascends :=
    isChain_echoElements h d run forall_mem_none
  exact orderChords_eq_self (blind_ascends.isChain_mergeSkips chain.tail)

end LinearScore
