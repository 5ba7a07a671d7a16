import Mathlib.Data.List.Basic
import LinearScore.Beaming

/-!
# Beams written as marks again

The beams that marks ask for can be written as marks again.  Strokes that pass through are not
written, the beams may come in another order, and counts beyond the limit are cut.  Still, where no
more beams stop than are open, these marks ask for the same beams.

## Main definitions

* `beamMarks`: the marks that beams are written as

The main statement is `BeamState.resolve_beamMarks`.
-/

namespace LinearScore

/-- The marks that beams are written as. -/
def beamMarks (beams : List Beam) : List BeamMark :=
  beams.filterMap fun b => BeamMark.ofStroke? b.stroke

/-- The stroke of a beam that is a hook. -/
def Beam.hook? (b : Beam) : Option BeamStroke := (BeamMark.ofStroke? b.stroke).bind hookStroke?

theorem filterMap_hookStroke?_beamMarks (beams : List Beam) :
    (beamMarks beams).filterMap hookStroke? = beams.filterMap Beam.hook? :=
  List.filterMap_filterMap ..

/-! ## The beams of a note in order of creation -/

/-- The strokes of hooks. -/
def IsHook (s : BeamStroke) : Prop := s = .forwardHook ∨ s = .backwardHook

theorem isHook_of_mem {marks : List BeamMark} {s : BeamStroke}
    (h : s ∈ marks.filterMap hookStroke?) : IsHook s := by
  obtain ⟨m, -, eq⟩ := List.mem_filterMap.mp h
  cases m with
  | start => cases eq
  | stop => cases eq
  | forwardHook => cases eq; exact .inl rfl
  | backwardHook => cases eq; exact .inr rfl

theorem strokes_beamRange {low high : Nat} {stroke : BeamStroke} :
    (beamRange low high stroke).map Beam.stroke = List.replicate (high - low) stroke := by
  rw [beamRange, List.map_map]
  show (List.range' _ _).map (fun _ => stroke) = _
  rw [List.map_const', List.length_range']

theorem strokes_hookBeams (top : Nat) (hooks : List BeamStroke) :
    (hookBeams top hooks).map Beam.stroke = hooks := by
  induction hooks generalizing top with
  | nil => rfl
  | cons hook hooks ih => rw [hookBeams, List.map_cons, ih]

/-- The strokes of a note's beams before they are sorted. -/
def strokesOf (opened : Nat) (marks : List BeamMark) (beamable : Bool) : List BeamStroke :=
  let c := beamCounts opened marks
  (if beamable then List.replicate c.kept .through else []) ++
    List.replicate (opened - c.kept) .stop ++ List.replicate c.started .start ++
    marks.filterMap hookStroke?

theorem strokes_noteBeams (opened : Nat) (marks : List BeamMark) (beamable : Bool) :
    ((noteBeams opened marks beamable).map Beam.stroke).Perm (strokesOf opened marks beamable) := by
  refine ((List.mergeSort_perm ..).map _).trans (.of_eq ?_)
  have starts (kept started : Nat) :
      ((List.range' 1 started).map fun i => (⟨addCapped kept i, .start⟩ : Beam)).map Beam.stroke =
        List.replicate started .start := by
    rw [List.map_map]
    show (List.range' _ _).map (fun _ => BeamStroke.start) = _
    rw [List.map_const', List.length_range']
  rw [List.map_append, List.map_append, List.map_append, strokes_beamRange, starts,
    strokes_hookBeams, strokesOf]
  cases beamable with
  | true =>
    rw [if_pos rfl, if_pos rfl, strokes_beamRange, Nat.sub_zero]
  | false => rfl

/-! ## Hooks keep their order -/

theorem le_of_mem_hookBeams {top : Nat} {hooks : List BeamStroke} {b : Beam}
    (h : b ∈ hookBeams top hooks) : addCapped top 1 ≤ b.number := by
  induction hooks generalizing top with
  | nil => cases h
  | cons hook hooks ih =>
    rcases List.mem_cons.mp h with rfl | h
    · exact Nat.le_refl _
    · have later := ih h
      unfold addCapped at later ⊢
      omega

theorem pairwise_hookBeams (top : Nat) (hooks : List BeamStroke) :
    (hookBeams top hooks).Pairwise fun a b => decide (a.number ≤ b.number) = true := by
  induction hooks generalizing top with
  | nil => exact .nil
  | cons hook hooks ih =>
    refine .cons (fun b mem => decide_eq_true ?_) (ih _)
    have later := le_of_mem_hookBeams mem
    show addCapped top 1 ≤ b.number
    unfold addCapped at later ⊢
    omega

/-- Sorting is stable, so the hooks of a note keep their order among its beams. -/
theorem hookBeams_sublist_noteBeams (opened : Nat) (marks : List BeamMark) (beamable : Bool) :
    (hookBeams (max opened (beamCounts opened marks).after)
      (marks.filterMap hookStroke?)).Sublist (noteBeams opened marks beamable) := by
  refine List.sublist_mergeSort (fun a b c => ?_) (fun a b => ?_) (pairwise_hookBeams _ _)
    (List.sublist_append_right ..)
  · simpa using Nat.le_trans
  · simpa using Nat.le_total _ _

/-- The hooks of a note are those that its marks ask for, in their order. -/
theorem hooks_noteBeams (opened : Nat) (marks : List BeamMark) (beamable : Bool) :
    (noteBeams opened marks beamable).filterMap Beam.hook? = marks.filterMap hookStroke? := by
  have hooks (strokes : List BeamStroke) (h : ∀ s ∈ strokes, IsHook s) :
      strokes.filterMap (fun s => (BeamMark.ofStroke? s).bind hookStroke?) = strokes := by
    refine (List.filterMap_congr fun s hs => ?_).trans List.filterMap_some
    rcases h s hs with rfl | rfl
    · rfl
    · rfl
  have others (n : Nat) {s : BeamStroke} (h : (BeamMark.ofStroke? s).bind hookStroke? = none) :
      (List.replicate n s).filterMap (fun s => (BeamMark.ofStroke? s).bind hookStroke?) = [] :=
    List.filterMap_eq_nil_iff.mpr fun t ht => by rw [List.eq_of_mem_replicate ht, h]
  have strokes (beams : List Beam) : beams.filterMap Beam.hook? =
      (beams.map Beam.stroke).filterMap fun s => (BeamMark.ofStroke? s).bind hookStroke? := by
    rw [List.filterMap_map]
    rfl
  have all := hooks (marks.filterMap hookStroke?) fun s hs => isHook_of_mem hs
  have perm : ((noteBeams opened marks beamable).filterMap Beam.hook?).Perm
      (marks.filterMap hookStroke?) := by
    rw [strokes]
    refine ((strokes_noteBeams opened marks beamable).filterMap _).trans (.of_eq ?_)
    rw [strokesOf, List.filterMap_append, List.filterMap_append, List.filterMap_append, all,
      others _ rfl, others _ rfl, List.append_nil, List.append_nil]
    cases beamable with
    | true => rw [if_pos rfl, others _ rfl, List.nil_append]
    | false => rfl
  have listed := (hookBeams_sublist_noteBeams opened marks beamable).filterMap Beam.hook?
  rw [strokes, strokes_hookBeams, all] at listed
  exact (listed.eq_of_length perm.length_eq.symm).symm

/-! ## The marks of a note's beams -/

/-- The marks of a note's beams are marks for beams that start and stop, and hooks. -/
theorem count_beamMarks (opened : Nat) (marks : List BeamMark) (beamable : Bool) :
    (beamMarks (noteBeams opened marks beamable)).count .start =
        (beamCounts opened marks).started ∧
      (beamMarks (noteBeams opened marks beamable)).count .stop =
        opened - (beamCounts opened marks).kept := by
  have perm : (beamMarks (noteBeams opened marks beamable)).Perm
      ((strokesOf opened marks beamable).filterMap BeamMark.ofStroke?) := by
    refine .trans (.of_eq ?_) ((strokes_noteBeams opened marks beamable).filterMap _)
    rw [List.filterMap_map]
    rfl
  have hooks (m : BeamMark) (h : m = .start ∨ m = .stop) :
      ((marks.filterMap hookStroke?).filterMap BeamMark.ofStroke?).count m = 0 := by
    refine List.count_eq_zero.mpr fun mem => ?_
    obtain ⟨s, hs, eq⟩ := List.mem_filterMap.mp mem
    rcases isHook_of_mem hs with rfl | rfl
    · cases eq
      rcases h with h | h <;> cases h
    · cases eq
      rcases h with h | h <;> cases h
  have through : (if beamable then List.replicate (beamCounts opened marks).kept
      BeamStroke.through else []).filterMap BeamMark.ofStroke? = [] := by
    refine List.filterMap_eq_nil_iff.mpr fun s hs => ?_
    split at hs
    · rw [List.eq_of_mem_replicate hs]
      rfl
    · cases hs
  have marked : (strokesOf opened marks beamable).filterMap BeamMark.ofStroke? =
      List.replicate (opened - (beamCounts opened marks).kept) .stop ++
        List.replicate (beamCounts opened marks).started .start ++
        (marks.filterMap hookStroke?).filterMap BeamMark.ofStroke? := by
    rw [strokesOf, List.filterMap_append, List.filterMap_append, List.filterMap_append, through,
      List.filterMap_replicate, List.filterMap_replicate]
    rfl
  rw [marked] at perm
  rw [perm.count_eq, perm.count_eq, List.count_append, List.count_append, List.count_append,
    List.count_append, hooks .start (.inl rfl), hooks .stop (.inr rfl)]
  simp [List.count_replicate]

/-- Where no more beams stop than are open, the marks of a note's beams count like the marks the
beams were made of. -/
theorem beamCounts_beamMarks {opened : Nat} {marks : List BeamMark}
    (h : (beamCounts opened marks).closed ≤ opened) (beamable : Bool) :
    beamCounts opened (beamMarks (noteBeams opened marks beamable)) =
      beamCounts opened marks := by
  obtain ⟨starts, stops⟩ := count_beamMarks opened marks beamable
  have started : (beamCounts opened marks).started ≤ countLimit := Nat.min_le_left ..
  have closed : (beamCounts opened marks).closed ≤ countLimit := Nat.min_le_left ..
  have kept : opened - (beamCounts opened marks).kept = (beamCounts opened marks).closed := by
    show opened - (opened - _) = _
    exact Nat.sub_sub_self h
  rw [beamCounts, starts, stops, kept, Nat.min_eq_right started, Nat.min_eq_right closed]
  rfl

/-- They ask for the same beams. -/
theorem noteBeams_beamMarks {opened : Nat} {marks : List BeamMark}
    (h : (beamCounts opened marks).closed ≤ opened) (beamable : Bool) :
    noteBeams opened (beamMarks (noteBeams opened marks beamable)) beamable =
      noteBeams opened marks beamable := by
  have same (marks' : List BeamMark) (counts : beamCounts opened marks' = beamCounts opened marks)
      (hooks : marks'.filterMap hookStroke? = marks.filterMap hookStroke?) :
      noteBeams opened marks' beamable = noteBeams opened marks beamable := by
    unfold noteBeams
    rw [counts, hooks]
  refine same _ (beamCounts_beamMarks h beamable) ?_
  rw [filterMap_hookStroke?_beamMarks, hooks_noteBeams]

/-- Marks of which none is left in the beams are none. -/
theorem isEmpty_beamMarks {opened : Nat} {marks : List BeamMark}
    (h : (beamCounts opened marks).closed ≤ opened) (beamable : Bool) (some : marks ≠ []) :
    (beamMarks (noteBeams opened marks beamable)).isEmpty = false := by
  obtain ⟨m, rest, rfl⟩ := List.exists_cons_of_ne_nil some
  rw [List.isEmpty_eq_false_iff]
  intro empty
  have counts := beamCounts_beamMarks h beamable
  have hooks := hooks_noteBeams opened (m :: rest) beamable
  rw [← filterMap_hookStroke?_beamMarks] at hooks
  rw [empty] at counts hooks
  have started : min countLimit ((m :: rest).count .start) = 0 :=
    (congrArg BeamCounts.started counts).symm
  have closed : min countLimit ((m :: rest).count .stop) = 0 :=
    (congrArg BeamCounts.closed counts).symm
  cases m with
  | start => simp [countLimit] at started
  | stop => simp [countLimit] at closed
  | forwardHook => cases hooks
  | backwardHook => cases hooks

namespace BeamState

theorem closed_le_of_reportClosed {opened : Nat} {r : BeamRequest}
    (h : (reportClosed opened r).diagnostics = []) :
    (beamCounts opened r.marks).closed ≤ opened := by
  unfold reportClosed at h
  dsimp only at h
  split at h
  · cases h
  · rename_i le
    exact Nat.not_lt.mp le

theorem reportClosed_eq {opened : Nat} {r : BeamRequest}
    (h : (beamCounts opened r.marks).closed ≤ opened) : reportClosed opened r = pure () := by
  unfold reportClosed
  exact if_neg (Nat.not_lt.mpr h)

section Resolve

variable (s : BeamState) {marks : List BeamMark} (grace beamable : Bool) (position : Nat)

theorem resolve_head
    (h : (beamCounts (s.count grace).opened marks).closed ≤ (s.count grace).opened) :
    s.resolve ⟨marks, grace, false, beamable, position⟩ =
      (fun beams => (beams, s.setCount grace
          ⟨(beamCounts (s.count grace).opened marks).after, (s.count grace).opened⟩)) <$>
        (Machine.noteBeams (s.count grace).opened marks beamable).reported := by
  unfold resolve
  simp only [Bool.false_eq_true, if_false]
  rw [reportClosed_eq h]
  rfl

theorem resolve_member (some : marks.isEmpty = false)
    (h : (beamCounts (s.count grace).beforeChord marks).closed ≤ (s.count grace).beforeChord) :
    s.resolve ⟨marks, grace, true, beamable, position⟩ =
      (·, s) <$> (Machine.noteBeams (s.count grace).beforeChord marks beamable).reported := by
  unfold resolve
  simp only [some, Bool.false_eq_true, if_true, if_false]
  rw [reportClosed_eq h]
  rfl

end Resolve

/-- **Beams of which nothing is reported can be written as marks again.** -/
theorem resolve_beamMarks {s : BeamState} {r : BeamRequest}
    (h : (s.resolve r).diagnostics = []) :
    s.resolve { r with marks := beamMarks (s.resolve r).value.1 } = s.resolve r := by
  obtain ⟨marks, grace, chord, beamable, position⟩ := r
  have same {opened : Nat} (le : (beamCounts opened marks).closed ≤ opened) :
      Machine.noteBeams opened (beamMarks (noteBeams opened marks beamable)) beamable =
        Machine.noteBeams opened marks beamable := by
    rw [Machine.noteBeams, beamCounts_beamMarks le, noteBeams_beamMarks le, ← Machine.noteBeams]
  have again {opened : Nat} (le : (beamCounts opened marks).closed ≤ opened) :
      (beamCounts opened (beamMarks (noteBeams opened marks beamable))).closed ≤ opened := by
    rw [beamCounts_beamMarks le]
    exact le
  cases chord with
  | false =>
    have le : (beamCounts (s.count grace).opened marks).closed ≤ (s.count grace).opened :=
      closed_le_of_reportClosed (List.append_eq_nil_iff.mp h).1
    rw [resolve_head s grace beamable position le]
    rw [Reported.value_map, Checked.value_reported, Machine.value_noteBeams]
    dsimp only
    rw [resolve_head s grace beamable position (again le), same le, beamCounts_beamMarks le]
  | true =>
    cases marks with
    | nil => rfl
    | cons m rest =>
      have le : (beamCounts (s.count grace).beforeChord (m :: rest)).closed ≤
          (s.count grace).beforeChord :=
        closed_le_of_reportClosed (List.append_eq_nil_iff.mp h).1
      rw [resolve_member s grace beamable position rfl le]
      rw [Reported.value_map, Checked.value_reported, Machine.value_noteBeams]
      dsimp only
      rw [resolve_member s grace beamable position
        (isEmpty_beamMarks le beamable (List.cons_ne_nil _ _)) (again le), same le]

end BeamState

end LinearScore
