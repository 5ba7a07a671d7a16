import Mathlib.Order.Interval.Finset.Nat
import LinearScore.Sequence
import LinearScore.Proofs.Beams

/-!
# The levels of beams that are open

The numbers of beams follow from two running counts.  Over any run of notes these counts stand for
sets of levels: replayed beam by beam, the levels that have been opened and not yet closed are
always the lowest ones.  So beams stop at levels that are open, the highest first, and start at
levels that are free, as long as no count and no number has to be cut.  The number above the levels
that stay open is not cut: where all levels are open and stay so, there is no result.

## Main definitions

* `levelsOf`: the levels of the beams with a given stroke
* `levelsAfter`: the levels that are open behind the beams of a note
* `openLevels`: those that are open behind a run of notes, replayed from the beams of the run
* `BeamRequest.Fits`: no count and no number is cut
* `BeamRequest.Returns`: the number above the levels that stay open is held, or not asked for
* `BeamLaw`: what the beams of a note do to the levels
* `LevelsKept`: what a run promises of one more note

The main statement is `levelsKept_run`.
-/

namespace LinearScore

/-! ## Levels -/

/-- The levels of the beams with a stroke, in the order of the beams. -/
def levelsOf (stroke : BeamStroke) (beams : List Beam) : List Nat :=
  (beams.filter (·.stroke = stroke)).map (·.number)

/-- The levels of the beams that are hooks, in the order of the beams. -/
def hookLevels (beams : List Beam) : List Nat := (beams.filter (·.hook?.isSome)).map (·.number)

/-- The levels that the beams of a note leave open. -/
def keptLevels (opened : Finset Nat) (beams : List Beam) : Finset Nat :=
  opened \ (levelsOf .stop beams).toFinset

/-- The levels that are open behind the beams of a note: those that stop are closed before those
that start are opened. -/
def levelsAfter (opened : Finset Nat) (beams : List Beam) : Finset Nat :=
  keptLevels opened beams ∪ (levelsOf .start beams).toFinset

/-- The levels of one class of notes that are open. -/
@[ext]
structure OpenLevels where
  /-- Behind the last note. -/
  now : Finset Nat := ∅
  /-- In front of the first note of the last chord. -/
  beforeChord : Finset Nat := ∅

namespace BeamRequest

/-- The note moves the levels of a class: it belongs to the class and is no further note of a
chord. -/
def moves (grace : Bool) (r : BeamRequest) : Bool := r.grace == grace && !r.chord

/-- With `opened` open beams in front of a note no count of its marks and no number of its beams
has to be cut. -/
def Fits (r : BeamRequest) (opened : Nat) : Prop :=
  r.marks.length ≤ countLimit ∧
    max opened (opened - r.marks.count .stop + r.marks.count .start) +
      (r.marks.filterMap hookStroke?).length ≤ countLimit

instance (r : BeamRequest) (opened : Nat) : Decidable (r.Fits opened) :=
  inferInstanceAs (Decidable (_ ∧ _))

/-- With `opened` open beams in front of a note, it is a further note of a chord without marks, or
not so many of them stay open that no number is left above them. -/
def Returns (r : BeamRequest) (opened : Nat) : Prop :=
  (r.chord = true ∧ r.marks = []) ∨ opened - r.marks.count .stop < countLimit

instance (r : BeamRequest) (opened : Nat) : Decidable (r.Returns opened) :=
  inferInstanceAs (Decidable (_ ∨ _))

end BeamRequest

namespace BeamState

/-- The number of beams that a note is compared with. -/
def base (s : BeamState) (r : BeamRequest) : Nat :=
  if r.chord then (s.count r.grace).beforeChord else (s.count r.grace).opened

/-- The state behind a run of notes. -/
def afterAll (rs : List BeamRequest) : BeamState :=
  rs.foldl (fun s r => (s.resolve r).value.2) {}

end BeamState

/-- The notes of a run, each with the beams that it got. -/
def beamedNotes (rs : List BeamRequest) : List (BeamRequest × List Beam) :=
  (thread (fun s r => ((s.resolve r).value.2, (r, (s.resolve r).value.1))) ({} : BeamState) rs).2

/-- The levels of a class that the beams of a run have opened and not yet closed. -/
def openLevels (grace : Bool) (rs : List BeamRequest) : OpenLevels :=
  ((beamedNotes rs).filter (·.1.moves grace)).foldl
    (fun l note => ⟨levelsAfter l.now note.2, l.now⟩) {}

/-- What the beams of a note do to the levels that are open in front of it. -/
structure BeamLaw (opened : Finset Nat) (r : BeamRequest) (beams : Reported (List Beam)) :
    Prop where
  /-- No level stops, starts or goes on twice. -/
  once : ∀ stroke ∈ [BeamStroke.stop, .start, .through], (levelsOf stroke beams.value).Nodup
  /-- As many levels stop as the marks ask for, but no more than are open. -/
  length_stops : (levelsOf .stop beams.value).length = min (r.marks.count .stop) opened.card
  /-- Each of them is open. -/
  stops_open : ∀ level ∈ levelsOf .stop beams.value, level ∈ opened
  /-- They are the highest ones. -/
  stops_top : ∀ level ∈ levelsOf .stop beams.value, ∀ kept ∈ keptLevels opened beams.value,
    kept < level
  /-- As many levels start as the marks ask for. -/
  length_starts : (levelsOf .start beams.value).length = r.marks.count .start
  /-- None of them is open. -/
  starts_free : ∀ level ∈ levelsOf .start beams.value, level ∉ keptLevels opened beams.value
  /-- Just the levels that stay open go on, if the note can carry beams. -/
  throughs : (levelsOf .through beams.value).toFinset =
    if r.beamable then keptLevels opened beams.value else ∅
  /-- The hooks are those of the marks, in their order. -/
  hooks : beams.value.filterMap Beam.hook? = r.marks.filterMap hookStroke?
  /-- They lie above all levels that are open in front of the note or behind it. -/
  hooks_above : ∀ hook ∈ hookLevels beams.value,
    ∀ level ∈ opened ∪ levelsAfter opened beams.value, level < hook
  /-- They lie one above the other. -/
  hooks_climb : (hookLevels beams.value).IsChain fun low high => high = low + 1
  /-- It is reported just when the marks close more levels than are open. -/
  reported : beams.diagnostics =
    if opened.card < r.marks.count .stop then
      [.atToken r.position (.closedBeams (r.marks.count .stop) opened.card)]
    else []
  /-- Then all of them are closed. -/
  closed_all : opened.card < r.marks.count .stop → keptLevels opened beams.value = ∅

/-- What a run promises of one more note. -/
structure LevelsKept (rs : List BeamRequest) (r : BeamRequest) : Prop where
  /-- The open levels are the lowest ones, and the count is their number. -/
  contiguous : ∀ grace, (openLevels grace rs).now =
    Finset.Icc 1 ((BeamState.afterAll rs).count grace).opened
  /-- The first note of a chord, or a single note, moves the levels of its class. -/
  head : r.chord = false →
    BeamLaw (openLevels r.grace rs).now r (Prod.fst <$> (BeamState.afterAll rs).resolve r)
  /-- A further note of a chord with marks of its own is beamed as the first one would be. -/
  member : r.chord = true → r.marks ≠ [] →
    BeamLaw (openLevels r.grace rs).beforeChord r (Prod.fst <$> (BeamState.afterAll rs).resolve r)
  /-- One without marks gets no beams. -/
  bare : r.chord = true → r.marks = [] →
    (BeamState.afterAll rs).resolve r = pure ([], BeamState.afterAll rs)
  /-- Notes that do not move the levels of a class leave them, and their count, as they are. -/
  unmoved : ∀ grace, r.moves grace = false →
    openLevels grace (rs ++ [r]) = openLevels grace rs ∧
      (BeamState.afterAll (rs ++ [r])).count grace = (BeamState.afterAll rs).count grace

/-! ## The levels of a note's beams -/

section Levels

variable (stroke : BeamStroke) {s : BeamStroke}

@[simp] theorem levelsOf_append (bs cs : List Beam) :
    levelsOf stroke (bs ++ cs) = levelsOf stroke bs ++ levelsOf stroke cs := by
  simp [levelsOf]

theorem levelsOf_map (f : Nat → Nat) (ns : List Nat) :
    levelsOf stroke (ns.map fun n => ⟨f n, s⟩) = if s = stroke then ns.map f else [] := by
  induction ns with
  | nil => exact (ite_self _).symm
  | cons n ns ih =>
    rw [List.map_cons, ← List.singleton_append, levelsOf_append, ih]
    by_cases same : s = stroke
    · simp [levelsOf, same]
    · simp [levelsOf, same]

theorem levelsOf_beamRange (low high : Nat) :
    levelsOf stroke (beamRange low high s) =
      if s = stroke then List.range' (low + 1) (high - low) else [] :=
  (levelsOf_map stroke id _).trans (by rw [List.map_id])

theorem hook?_of_isHook {b : Beam} (h : IsHook b.stroke) : b.hook? = some b.stroke := by
  unfold Beam.hook?
  rcases h with h | h
  · rw [h]
    rfl
  · rw [h]
    rfl

theorem isHook_of_mem_hookBeams {top : Nat} {marks : List BeamMark} {b : Beam}
    (h : b ∈ hookBeams top (marks.filterMap hookStroke?)) : IsHook b.stroke := by
  have mem := List.mem_map_of_mem (f := Beam.stroke) h
  rw [strokes_hookBeams] at mem
  exact isHook_of_mem mem

theorem levelsOf_hookBeams (plain : ¬IsHook stroke) (top : Nat) (marks : List BeamMark) :
    levelsOf stroke (hookBeams top (marks.filterMap hookStroke?)) = [] := by
  rw [levelsOf, List.filter_eq_nil_iff.mpr, List.map_nil]
  intro b mem same
  exact plain (of_decide_eq_true same ▸ isHook_of_mem_hookBeams mem)

theorem perm_levelsOf_noteBeams (plain : ¬IsHook stroke) (opened : Nat) (marks : List BeamMark)
    (beamable : Bool) :
    (levelsOf stroke (noteBeams opened marks beamable)).Perm
      ((if beamable && .through = stroke then
          List.range' 1 (beamCounts opened marks).kept else []) ++
        (if .stop = stroke then
          List.range' ((beamCounts opened marks).kept + 1)
            (opened - (beamCounts opened marks).kept) else []) ++
        (if .start = stroke then
          (List.range' 1 (beamCounts opened marks).started).map
            (addCapped (beamCounts opened marks).kept) else [])) := by
  refine (((List.mergeSort_perm ..).filter _).map _).trans (.of_eq ?_)
  change levelsOf stroke _ = _
  rw [levelsOf_append, levelsOf_append, levelsOf_append, levelsOf_beamRange, levelsOf_map,
    levelsOf_hookBeams stroke plain, List.append_nil]
  cases beamable with
  | true => simp [levelsOf_beamRange]
  | false => simp [levelsOf]

/-- The hooks among the beams of a note, in their order. -/
theorem filter_hook_noteBeams (opened : Nat) (marks : List BeamMark) (beamable : Bool) :
    (noteBeams opened marks beamable).filter (·.hook?.isSome) =
      hookBeams (max opened (beamCounts opened marks).after) (marks.filterMap hookStroke?) := by
  have sublist := (hookBeams_sublist_noteBeams opened marks beamable).filter (·.hook?.isSome)
  rw [List.filter_eq_self.mpr fun b mem => by
    rw [hook?_of_isHook (isHook_of_mem_hookBeams mem)]; rfl] at sublist
  refine (sublist.eq_of_length ?_).symm
  rw [← List.countP_eq_length_filter, ← List.length_filterMap_eq_countP, hooks_noteBeams,
    ← List.length_map (f := Beam.stroke), strokes_hookBeams]

end Levels

/-! ## Notes whose counts and numbers are not cut -/

namespace BeamRequest

section Fits

variable {r : BeamRequest} {n : Nat} (fits : r.Fits n)
include fits

theorem Fits.closed : (beamCounts n r.marks).closed = r.marks.count .stop :=
  Nat.min_eq_right (List.count_le_length.trans fits.1)

theorem Fits.kept : (beamCounts n r.marks).kept = n - r.marks.count .stop :=
  congrArg (n - ·) fits.closed

theorem Fits.started : (beamCounts n r.marks).started = r.marks.count .start :=
  Nat.min_eq_right (List.count_le_length.trans fits.1)

theorem Fits.after :
    (beamCounts n r.marks).after = n - r.marks.count .stop + r.marks.count .start := by
  have top := fits.2
  rw [BeamCounts.after, addCapped, fits.kept, fits.started]
  omega

/-- The levels that stop lie above those that stay open. -/
theorem Fits.stops :
    (levelsOf .stop (noteBeams n r.marks r.beamable)).Perm
      (List.range' (n - r.marks.count .stop + 1) (n - (n - r.marks.count .stop))) := by
  refine (perm_levelsOf_noteBeams .stop (by simp [IsHook]) ..).trans (.of_eq ?_)
  simp [fits.kept]

/-- So do those that start. -/
theorem Fits.starts :
    (levelsOf .start (noteBeams n r.marks r.beamable)).Perm
      (List.range' (n - r.marks.count .stop + 1) (r.marks.count .start)) := by
  refine (perm_levelsOf_noteBeams .start (by simp [IsHook]) ..).trans (.of_eq ?_)
  have uncut : (List.range' 1 (r.marks.count .start)).map (addCapped (n - r.marks.count .stop)) =
      (List.range' 1 (r.marks.count .start)).map (n - r.marks.count .stop + ·) := by
    refine List.map_congr_left fun i hi => ?_
    have top := fits.2
    have low := (List.mem_range'_1.mp hi).2
    rw [addCapped]
    omega
  simp [fits.kept, fits.started, uncut, List.map_add_range']

/-- The levels that stay open go on. -/
theorem Fits.throughs :
    (levelsOf .through (noteBeams n r.marks r.beamable)).Perm
      (if r.beamable then List.range' 1 (n - r.marks.count .stop) else []) := by
  refine (perm_levelsOf_noteBeams .through (by simp [IsHook]) ..).trans (.of_eq ?_)
  simp [fits.kept]

/-- The hooks are numbered on from the highest level. -/
theorem Fits.hookLevels :
    hookLevels (noteBeams n r.marks r.beamable) =
      List.range' (max n (n - r.marks.count .stop + r.marks.count .start) + 1)
        (r.marks.filterMap hookStroke?).length := by
  have numbered (top : Nat) (hooks : List BeamStroke) (h : top + hooks.length ≤ countLimit) :
      (hookBeams top hooks).map (·.number) = List.range' (top + 1) hooks.length := by
    induction hooks generalizing top with
    | nil => rfl
    | cons hook hooks ih =>
      rw [List.length_cons] at h
      have next : addCapped top 1 = top + 1 := by
        rw [addCapped]
        omega
      rw [hookBeams, List.map_cons, next, ih (top + 1) (by omega), List.length_cons,
        List.range'_succ]
  rw [LinearScore.hookLevels, filter_hook_noteBeams, fits.after]
  exact numbered _ _ fits.2

theorem Fits.keptLevels :
    keptLevels (Finset.Icc 1 n) (noteBeams n r.marks r.beamable) =
      Finset.Icc 1 (n - r.marks.count .stop) := by
  ext level
  simp only [LinearScore.keptLevels, Finset.mem_sdiff, Finset.mem_Icc, List.mem_toFinset,
    fits.stops.mem_iff, List.mem_range'_1]
  omega

theorem Fits.levelsAfter :
    levelsAfter (Finset.Icc 1 n) (noteBeams n r.marks r.beamable) =
      Finset.Icc 1 (beamCounts n r.marks).after := by
  ext level
  simp only [LinearScore.levelsAfter, fits.keptLevels, fits.after, Finset.mem_union,
    Finset.mem_Icc, List.mem_toFinset, fits.starts.mem_iff, List.mem_range'_1]
  omega

/-- Under levels that are the lowest ones a note does to them what it should. -/
theorem Fits.beamLaw (held : Bool) :
    BeamLaw (Finset.Icc 1 n) r
      ⟨noteBeams n r.marks r.beamable, (BeamState.reportClosed n r).diagnostics, held⟩ where
  once := by
    have throughs : (levelsOf .through (noteBeams n r.marks r.beamable)).Nodup := by
      rw [fits.throughs.nodup_iff]
      split
      · exact List.nodup_range' ..
      · exact .nil
    simpa only [List.forall_mem_cons] using ⟨fits.stops.nodup_iff.mpr (List.nodup_range' ..),
      fits.starts.nodup_iff.mpr (List.nodup_range' ..), throughs, List.forall_mem_nil _⟩
  length_stops := by
    rw [fits.stops.length_eq, List.length_range', Nat.card_Icc]
    omega
  stops_open level mem := by
    have range := List.mem_range'_1.mp (fits.stops.subset mem)
    exact Finset.mem_Icc.mpr (by omega)
  stops_top level mem kept hkept := by
    have range := List.mem_range'_1.mp (fits.stops.subset mem)
    rw [fits.keptLevels, Finset.mem_Icc] at hkept
    omega
  length_starts := by rw [fits.starts.length_eq, List.length_range']
  starts_free level mem hkept := by
    have range := List.mem_range'_1.mp (fits.starts.subset mem)
    rw [fits.keptLevels, Finset.mem_Icc] at hkept
    omega
  throughs := by
    rw [fits.keptLevels, List.toFinset_eq_of_perm _ _ fits.throughs]
    split
    · ext level
      simp only [List.mem_toFinset, List.mem_range'_1, Finset.mem_Icc]
      omega
    · rfl
  hooks := hooks_noteBeams ..
  hooks_above hook mem level open' := by
    rw [fits.hookLevels] at mem
    have above := (List.mem_range'_1.mp mem).1
    rw [fits.levelsAfter, fits.after, Finset.mem_union, Finset.mem_Icc, Finset.mem_Icc] at open'
    omega
  hooks_climb := by
    rw [fits.hookLevels]
    exact List.isChain_range' ..
  reported := by
    rw [Nat.card_Icc, Nat.add_sub_cancel, BeamState.reportClosed]
    dsimp only
    rw [fits.closed]
    split
    · rfl
    · rfl
  closed_all := by
    intro more
    rw [Nat.card_Icc] at more
    rw [fits.keptLevels]
    exact Finset.Icc_eq_empty (by omega)

end Fits

end BeamRequest

/-! ## Runs -/

section Resolve

variable (s : BeamState) {r : BeamRequest}

/-- The first note of a chord is compared with what is open now, -/
theorem base_head (chord : r.chord = false) : s.base r = (s.count r.grace).opened := by
  rw [BeamState.base, chord]
  rfl

/-- its further notes with what was open in front of it. -/
theorem base_member (chord : r.chord = true) : s.base r = (s.count r.grace).beforeChord := by
  rw [BeamState.base, chord]
  rfl

/-- What a note that is no bare member of a chord gets. -/
theorem beams_resolve (h : r.chord = false ∨ r.marks ≠ []) :
    Prod.fst <$> s.resolve r =
      ⟨noteBeams (s.base r) r.marks r.beamable,
        (BeamState.reportClosed (s.base r) r).diagnostics,
        (Machine.noteBeams (s.base r) r.marks r.beamable).fits⟩ := by
  have counted (n : Nat) : (BeamState.reportClosed n r).fits = true := by
    unfold BeamState.reportClosed
    dsimp only
    split <;> rfl
  unfold BeamState.resolve BeamState.base
  cases chord : r.chord with
  | false => refine Reported.ext ?_ ?_ ?_ <;> simp [counted]
  | true =>
    have marked : r.marks.isEmpty = false := by simpa [chord] using h
    refine Reported.ext ?_ ?_ ?_ <;> simp [marked, counted]

theorem resolve_bare (chord : r.chord = true) (bare : r.marks = []) :
    s.resolve r = pure ([], s) := by
  unfold BeamState.resolve
  simp [chord, bare]

/-- A note has a result just where the number above the levels that stay open is held. -/
theorem isSome_resolve_iff (fits : r.Fits (s.base r)) :
    (s.resolve r).outcome.isSome = true ↔ r.Returns (s.base r) := by
  have isSome {α : Type} (x : Reported α) : x.outcome.isSome = x.fits := by
    unfold Reported.outcome
    cases x.fits <;> rfl
  rw [isSome]
  by_cases bare : r.chord = true ∧ r.marks = []
  · rw [resolve_bare s bare.1 bare.2]
    exact iff_of_true rfl (.inl bare)
  · have beamed : r.chord = false ∨ r.marks ≠ [] := by
      cases chord : r.chord with
      | false => exact .inl rfl
      | true => exact .inr fun none => bare ⟨chord, none⟩
    have held := congrArg Reported.fits (beams_resolve s beamed)
    rw [Reported.fits_map] at held
    rw [held, BeamRequest.Returns, or_iff_right bare, ← fits.kept]
    simp only [Machine.noteBeams, Machine.byte, Checked.fits_bind, Checked.fits_pure,
      Bool.and_true, decide_eq_true_eq, countLimit]
    omega

theorem state_head (chord : r.chord = false) :
    (s.resolve r).value.2 = s.setCount r.grace
      ⟨(beamCounts (s.count r.grace).opened r.marks).after, (s.count r.grace).opened⟩ := by
  unfold BeamState.resolve
  simp [chord]

/-- The further notes of a chord never change the state. -/
theorem state_member (chord : r.chord = true) : (s.resolve r).value.2 = s := by
  unfold BeamState.resolve
  dsimp only
  rw [if_pos chord]
  split
  · rfl
  · rfl

theorem count_setCount (grace grace' : Bool) (c : BeamCount) :
    (s.setCount grace c).count grace' = if grace = grace' then c else s.count grace' := by
  cases grace <;> cases grace' <;> rfl

end Resolve

section Run

variable {rs : List BeamRequest} {r : BeamRequest}

theorem afterAll_append (rs : List BeamRequest) (r : BeamRequest) :
    BeamState.afterAll (rs ++ [r]) = ((BeamState.afterAll rs).resolve r).value.2 :=
  List.foldl_append ..

/-- A note that does not move a class leaves its counts. -/
theorem count_unmoved {grace : Bool} (h : r.moves grace = false) :
    (BeamState.afterAll (rs ++ [r])).count grace = (BeamState.afterAll rs).count grace := by
  rw [afterAll_append]
  cases chord : r.chord with
  | true => rw [state_member _ chord]
  | false =>
    have other : r.grace ≠ grace := by simpa [BeamRequest.moves, chord] using h
    rw [state_head _ chord, count_setCount, if_neg other]

theorem beamedNotes_append (rs : List BeamRequest) (r : BeamRequest) :
    beamedNotes (rs ++ [r]) =
      beamedNotes rs ++ [(r, ((BeamState.afterAll rs).resolve r).value.1)] := by
  have state (s : BeamState) (rs : List BeamRequest) :
      (thread (fun s r => ((s.resolve r).value.2, (r, (s.resolve r).value.1))) s rs).1 =
        rs.foldl (fun s r => (s.resolve r).value.2) s := by
    induction rs generalizing s with
    | nil => rfl
    | cons r rs ih => exact ih _
  rw [beamedNotes, thread_append]
  dsimp only
  rw [state {} rs]
  rfl

theorem openLevels_append (grace : Bool) (rs : List BeamRequest) (r : BeamRequest) :
    openLevels grace (rs ++ [r]) =
      if r.moves grace then
        ⟨levelsAfter (openLevels grace rs).now ((BeamState.afterAll rs).resolve r).value.1,
          (openLevels grace rs).now⟩
      else openLevels grace rs := by
  rw [openLevels, beamedNotes_append, List.filter_append, List.foldl_append, ← openLevels,
    List.filter_singleton]
  dsimp only
  cases r.moves grace with
  | true => rfl
  | false => rfl

/-- The levels that a count stands for. -/
def BeamCount.levels (c : BeamCount) : OpenLevels :=
  ⟨Finset.Icc 1 c.opened, Finset.Icc 1 c.beforeChord⟩

/-- The counts of a class stand for the levels that the run has left open. -/
def Counted (rs : List BeamRequest) : Prop :=
  ∀ grace, openLevels grace rs = ((BeamState.afterAll rs).count grace).levels

theorem counted_nil : Counted [] := by
  intro grace
  cases grace <;> rfl

theorem Counted.append (h : Counted rs) (fits : r.Fits ((BeamState.afterAll rs).base r)) :
    Counted (rs ++ [r]) := by
  intro grace
  rw [openLevels_append]
  cases moves : r.moves grace with
  | false => rw [count_unmoved moves, if_neg (by simp), h grace]
  | true =>
    obtain ⟨rfl, chord⟩ : r.grace = grace ∧ r.chord = false := by
      simpa [BeamRequest.moves] using moves
    have beams := congrArg Reported.value (beams_resolve (BeamState.afterAll rs) (.inl chord))
    rw [base_head _ chord] at fits beams
    rw [Reported.value_map] at beams
    rw [if_pos rfl, afterAll_append, state_head _ chord, count_setCount, if_pos rfl, h, beams]
    exact OpenLevels.ext fits.levelsAfter rfl

/-- The levels that a note is compared with are those that its count stands for. -/
theorem Counted.levelsKept (h : Counted rs) (fits : r.Fits ((BeamState.afterAll rs).base r)) :
    LevelsKept rs r where
  contiguous grace := congrArg OpenLevels.now (h grace)
  head chord := by
    rw [beams_resolve _ (.inl chord), h, BeamCount.levels, ← base_head _ chord]
    exact fits.beamLaw _
  member chord marks := by
    rw [beams_resolve _ (.inr marks), h, BeamCount.levels, ← base_member _ chord]
    exact fits.beamLaw _
  bare := resolve_bare _
  unmoved grace moves := by
    rw [openLevels_append, moves]
    exact ⟨rfl, count_unmoved moves⟩

end Run

/-- **The open levels are the lowest ones over every run**, whatever classes and chords its notes
belong to, as long as no count and no number has to be cut.  The run has results for just those
notes above whose open levels a number is left. -/
theorem levelsKept_run {rs : List BeamRequest}
    (fits : ∀ k (h : k < rs.length), rs[k].Fits ((BeamState.afterAll (rs.take k)).base rs[k])) :
    (∀ k (h : k < rs.length),
      ((BeamState.afterAll (rs.take k)).resolve rs[k]).outcome.isSome = true ↔
        rs[k].Returns ((BeamState.afterAll (rs.take k)).base rs[k])) ∧
    ((∀ k (h : k < rs.length), rs[k].Returns ((BeamState.afterAll (rs.take k)).base rs[k])) →
      (∀ grace,
        (openLevels grace rs).now = Finset.Icc 1 ((BeamState.afterAll rs).count grace).opened) ∧
      ∀ k (h : k < rs.length), LevelsKept (rs.take k) rs[k]) := by
  have counted (k : Nat) (h : k ≤ rs.length) : Counted (rs.take k) := by
    induction k with
    | zero => exact counted_nil
    | succ k ih =>
      rw [← List.take_append_getElem h]
      exact (ih (Nat.le_of_succ_le h)).append (fits k h)
  have all := counted rs.length (Nat.le_refl _)
  rw [List.take_length] at all
  exact ⟨fun k h => isSome_resolve_iff _ (fits k h), fun _ =>
    ⟨fun grace => congrArg OpenLevels.now (all grace),
      fun k h => (counted k (Nat.le_of_lt h)).levelsKept (fits k h)⟩⟩

/-- Two beams of a chord that a grace note interrupts, a note under one kept and one new beam with
two hooks, one that can carry no beams, and a note that closes more than is open. -/
def mixedRun : List BeamRequest :=
  [⟨[.start, .start], false, false, true, 1⟩, ⟨[.start], true, false, true, 3⟩,
    ⟨[.start], false, true, true, 5⟩, ⟨[], false, true, true, 7⟩,
    ⟨[.stop, .start, .forwardHook, .backwardHook], false, false, true, 9⟩,
    ⟨[], false, false, false, 11⟩, ⟨[.stop, .stop, .stop], false, false, true, 13⟩]

theorem levelsKept_mixedRun :
    (∀ k (h : k < mixedRun.length),
      mixedRun[k].Fits ((BeamState.afterAll (mixedRun.take k)).base mixedRun[k])) ∧
    (∀ k (h : k < mixedRun.length),
      mixedRun[k].Returns ((BeamState.afterAll (mixedRun.take k)).base mixedRun[k])) ∧
    (∀ k (h : k < mixedRun.length), LevelsKept (mixedRun.take k) mixedRun[k]) ∧
    (openLevels false (mixedRun.take 6)).now = Finset.Icc 1 2 ∧
    (openLevels true mixedRun).now = Finset.Icc 1 1 ∧ (openLevels false mixedRun).now = ∅ := by
  have fits : ∀ k (h : k < mixedRun.length),
      mixedRun[k].Fits ((BeamState.afterAll (mixedRun.take k)).base mixedRun[k]) := by decide
  have returns : ∀ k (h : k < mixedRun.length),
      mixedRun[k].Returns ((BeamState.afterAll (mixedRun.take k)).base mixedRun[k]) := by decide
  obtain ⟨-, levels⟩ := levelsKept_run fits
  obtain ⟨behind, kept⟩ := levels returns
  exact ⟨fits, returns, kept, (kept 6 (by decide)).contiguous false, behind true, behind false⟩

/-- A note that opens all levels there are, and one without marks. -/
def crowdedRun : List BeamRequest :=
  [⟨List.replicate 255 .start, false, false, true, 1⟩, ⟨[], false, false, true, 257⟩]

/-- No count and no number has to be cut, but the second note has no result. -/
theorem crowdedRun_stops :
    (∀ k (h : k < crowdedRun.length),
      crowdedRun[k].Fits ((BeamState.afterAll (crowdedRun.take k)).base crowdedRun[k])) ∧
    ((BeamState.afterAll (crowdedRun.take 1)).resolve ⟨[], false, false, true, 257⟩).outcome =
      none := by
  decide +kernel

end LinearScore
