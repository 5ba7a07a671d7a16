import Mathlib.Data.List.ReduceOption
import LinearScore.Proofs.Systems
import LinearScore.Proofs.AttributePasses

/-!
# Alterations of systems that are joined

When the alterations of each system have been inferred on its own, the inference over all systems
finds two more things at the start of a system: the key signature and the open ties of the system
before.  Where the key signature is restated, open ties are all that is left, and so the inference
leaves the systems as they are just if each note that takes such a tie sounds like the note that
started it.

## Main definitions

* `keysOf`: the key signatures among elements
* `openTies`: the ties that elements leave open
* `taker?`: the note that takes a tie of the measure before
* `TiesCarried`: at the start of a system the ties of the measure before are taken as they sound
* `KeyRestated`: a system behind a key signature opens with one

The main statement is `inferAlterations_eq_self_iff`.
-/

namespace LinearScore

/-! ## Keys and ties among elements -/

/-- What an element says of the key signature, where a note says that one is needed. -/
def Element.cues : Element → List (Option Int)
  | .attributes a => a.key.toList.map fun k => some k.fifths
  | .note _ => [none]
  | _ => []

/-- The key signatures among elements. -/
def keysOf (es : List Element) : List Int := (es.flatMap Element.cues).reduceOption

/-- A key signature stands in front of all notes. -/
def OpensWithKey (es : List Element) : Prop := ∃ k, (es.flatMap Element.cues).head? = some (some k)

/-- The ties that are open behind a note. -/
def Note.tiesAfter (t : TieTable) (n : Note) : TieTable :=
  match n.pitch?, n.place? with
  | some p, some place =>
    let left := if n.ties.contains .stop then t.set place none else t
    if n.ties.contains .start then left.set place (some p) else left
  | _, _ => t

/-- The ties that are open behind an element. -/
def Element.tiesAfter (t : TieTable) : Element → TieTable
  | .note n => n.tiesAfter t
  | _ => t

/-- No tie is open. -/
def noTies : TieTable := fun _ => none

/-- The ties that elements leave open. -/
def openTies (es : List Element) : TieTable := es.foldl Element.tiesAfter noTies

/-- The note ends a tie at a place where none of its own measure is open. -/
def Note.Takes (t : TieTable) (place : Place) (n : Note) : Prop :=
  n.place? = some place ∧ n.ties.contains .stop = true ∧ t place = none

instance (t : TieTable) (place : Place) (n : Note) : Decidable (n.Takes t place) :=
  inferInstanceAs (Decidable (_ ∧ _ ∧ _))

/-- The first note that takes a tie of the measure before at a place, when those in `t` have been
opened behind the bar line. -/
def taker? (place : Place) (t : TieTable) : List Element → Option Note
  | [] => none
  | .note n :: es =>
    if n.Takes t place then some n else taker? place (n.tiesAfter t) es
  | _ :: es => taker? place t es

/-- At the start of a system each tie that the measure before has left open is taken, if at all, by
a note with the pitch of the note that started it. -/
def TiesCarried (m m' : Measure) : Prop :=
  m'.newSystem = true → ∀ place, ∀ q ∈ openTies m.elements place,
    ∀ n ∈ taker? place noTies m'.elements, n.pitch? = some q

/-- A system behind a key signature opens with one. -/
def KeyRestated (m m' : Measure) : Prop :=
  m'.newSystem = true → keysOf m.elements = [] ∨ OpensWithKey m'.elements

/-- The key signature in force behind elements. -/
def fifthsAfter (fifths : Int) (es : List Element) : Int := (keysOf es).getLastD fifths

theorem keysOf_append (es es' : List Element) : keysOf (es ++ es') = keysOf es ++ keysOf es' := by
  rw [keysOf, List.flatMap_append, List.reduceOption_append, keysOf, keysOf]

theorem keysOf_cons (e : Element) (es : List Element) :
    keysOf (e :: es) = e.cues.reduceOption ++ keysOf es := by
  rw [keysOf, List.flatMap_cons, List.reduceOption_append, keysOf]

theorem fifthsAfter_eq_self {es : List Element} (keyless : keysOf es = []) (fifths : Int) :
    fifthsAfter fifths es = fifths := by
  rw [fifthsAfter, keyless]
  rfl

theorem OpensWithKey.fifthsAfter {es : List Element} (h : OpensWithKey es) (f f' : Int) :
    fifthsAfter f es = fifthsAfter f' es := by
  obtain ⟨k, head⟩ := h
  obtain ⟨cues, eq⟩ := List.head?_eq_some_iff.mp head
  rw [LinearScore.fifthsAfter, LinearScore.fifthsAfter, keysOf, eq,
    List.reduceOption_cons_of_some, List.getLastD_cons, List.getLastD_cons]

@[simp] theorem TieTable.set_none {t : TieTable} {place : Place} (h : t place = none) :
    t.set place none = t := by
  funext p
  unfold TieTable.set
  split
  · rename_i eq
    rw [eq, h]
  · rfl

namespace AlterationState

/-! ## Notes -/

section Note

variable (s : AlterationState) (seen : List Sighting) (cursor : Rat) {n : Note}

/-- The ties of the measure before that a note leaves. -/
def left (s : AlterationState) (n : Note) : TieTable :=
  fun place => if n.Takes s.current place then none else s.previous place

theorem left_of_takes {place : Place} (takes : n.Takes s.current place) :
    s.left n = s.previous.set place none := by
  funext p
  unfold left TieTable.set
  by_cases eq : p = place
  · rw [eq, if_pos takes, if_pos rfl]
  · have elsewhere : ¬n.Takes s.current p := fun h => eq (Option.some.inj (h.1.symm.trans takes.1))
    rw [if_neg eq, if_neg elsewhere]

theorem left_of_not_takes (h : ∀ place, ¬n.Takes s.current place) : s.left n = s.previous :=
  funext fun place => if_neg (h place)

/-- What the end of a tie does to the tables, and the pitch that it gives. -/
theorem stopTie_eq {place : Place} (hplace : n.place? = some place) (p : Pitch) :
    s.stopTie place n p =
      (if n.ties.contains .stop then ((s.current place).or (s.previous place)).getD p else p,
        ⟨s.fifths, if n.ties.contains .stop then s.current.set place none else s.current,
          s.left n⟩) := by
  have only {q : Place} (takes : n.Takes s.current q) : q = place :=
    Option.some.inj (takes.1.symm.trans hplace)
  unfold stopTie
  by_cases stop : n.ties.contains .stop = true
  · rw [if_pos stop, if_pos stop, if_pos stop]
    cases tied : s.current place with
    | some q =>
      have free : ∀ q, ¬n.Takes s.current q := by
        intro q takes
        have open' := takes.2.2
        rw [only takes, tied] at open'
        cases open'
      rw [takeTie, tied, left_of_not_takes s free]
      rfl
    | none =>
      rw [takeTie, tied, left_of_takes s ⟨hplace, stop, tied⟩, TieTable.set_none tied]
      rfl
  · have free : ∀ q, ¬n.Takes s.current q := fun q takes => stop takes.2.1
    rw [if_neg stop, if_neg stop, if_neg stop, left_of_not_takes s free]

/-- How a pitched note sounds. -/
def sounding (s : AlterationState) (seen : List Sighting) (cursor : Rat) (place : Place) (n : Note)
    (p : Pitch) : Pitch :=
  let inferred := { p with alter := s.alteration seen place (n.onset cursor) }
  if n.ties.contains .stop then ((s.current place).or (s.previous place)).getD inferred
  else inferred

theorem note_pitched {p : Pitch} {place : Place} (hp : n.pitch? = some p)
    (hplace : n.place? = some place) :
    s.note seen cursor n =
      (startTie
          ⟨s.fifths, if n.ties.contains .stop then s.current.set place none else s.current,
            s.left n⟩ place n (s.sounding seen cursor place n p),
        { n with content := .pitch (s.sounding seen cursor place n p) }) := by
  unfold note
  rw [hp, hplace]
  dsimp only
  rw [stopTie_eq s hplace]
  rfl

theorem place?_of_pitch? {p : Pitch} (hp : n.pitch? = some p) :
    n.place? = some ⟨n.staff.getD 1, p.step, p.octave⟩ := by
  rw [Note.place?, hp]
  rfl

theorem note_unpitched (hp : n.pitch? = none) : s.note seen cursor n = (s, n) := by
  unfold note
  rw [hp]

/-- A pitched note stays as it is just if it sounds as it stands. -/
theorem note_fixed_iff {p : Pitch} {place : Place} (hp : n.pitch? = some p)
    (hplace : n.place? = some place) :
    (s.note seen cursor n).2 = n ↔ s.sounding seen cursor place n p = p := by
  have content : n.content = .pitch p := by
    unfold Note.pitch? at hp
    split at hp
    · rename_i q eq
      rw [eq, Option.some.inj hp]
    · cases hp
  rw [note_pitched s seen cursor hp hplace]
  constructor
  · intro fixed
    have same := congrArg Note.content fixed
    rw [content] at same
    exact NoteContent.pitch.inj same
  · intro same
    rw [same, ← content]

/-- A note that stays as it is leaves the ties that it shows. -/
theorem note_of_fixed (fixed : (s.note seen cursor n).2 = n) :
    (s.note seen cursor n).1 = ⟨s.fifths, n.tiesAfter s.current, s.left n⟩ := by
  cases hp : n.pitch? with
  | none =>
    have free : ∀ place, ¬n.Takes s.current place := by
      intro place takes
      rw [Note.Takes, Note.place?, hp] at takes
      cases takes.1
    have ties : n.tiesAfter s.current = s.current := by
      unfold Note.tiesAfter
      rw [hp]
    rw [note_unpitched s seen cursor hp, ties, left_of_not_takes s free]
  | some p =>
    have hplace := place?_of_pitch? hp
    have same := (note_fixed_iff s seen cursor hp hplace).mp fixed
    rw [note_pitched s seen cursor hp hplace, same]
    unfold Note.tiesAfter startTie
    rw [hp, hplace]
    dsimp only
    split
    · rfl
    · rfl

/-- A note leaves the key signature as it is. -/
theorem fifths_note : (s.note seen cursor n).1.fifths = s.fifths := by
  cases hp : n.pitch? with
  | none => rw [note_unpitched s seen cursor hp]
  | some p =>
    rw [note_pitched s seen cursor hp (place?_of_pitch? hp)]
    unfold startTie
    split
    · rfl
    · rfl

end Note

/-- Whether a note stays as it is depends on the ties of the measure before only if it takes one. -/
theorem note_fixed_taking {f : Int} {c P : TieTable} (seen : List Sighting) (cursor : Rat) {n : Note}
    (fixed : ((⟨f, c, noTies⟩ : AlterationState).note seen cursor n).2 = n) :
    ((⟨f, c, P⟩ : AlterationState).note seen cursor n).2 = n ↔
      ∀ place, n.Takes c place → ∀ q ∈ P place, n.pitch? = some q := by
  cases hp : n.pitch? with
  | none =>
    rw [note_unpitched _ seen cursor hp]
    refine ⟨fun _ place takes => ?_, fun _ => rfl⟩
    rw [Note.Takes, Note.place?, hp] at takes
    cases takes.1
  | some p =>
    obtain ⟨place, hplace⟩ : ∃ place, n.place? = some place := ⟨_, place?_of_pitch? hp⟩
    rw [note_fixed_iff _ seen cursor hp hplace] at fixed ⊢
    have only {q : Place} (takes : n.Takes c q) : q = place :=
      Option.some.inj (takes.1.symm.trans hplace)
    unfold sounding at fixed ⊢
    dsimp only [noTies] at fixed ⊢
    by_cases stop : n.ties.contains .stop = true
    · rw [if_pos stop] at fixed ⊢
      cases tied : c place with
      | some q =>
        rw [tied] at fixed
        refine ⟨fun _ place' takes => ?_, fun _ => fixed⟩
        have free := takes.2.2
        rw [only takes, tied] at free
        cases free
      | none =>
        -- the note takes what the measure before has left open here
        rw [tied, Option.or_none] at fixed
        rw [Option.none_or]
        constructor
        · intro same place' takes q hq
          rw [only takes] at hq
          rw [hq] at same
          exact congrArg some same.symm
        · intro taken
          cases left : P place with
          | none => exact fixed
          | some q => exact (Option.some.inj (taken place ⟨hplace, stop, tied⟩ q left)).symm
    · rw [if_neg stop] at fixed ⊢
      exact ⟨fun _ place' takes => absurd takes.2.1 stop, fun _ => fixed⟩

/-! ## Elements -/

section Elements

variable {seen : List Sighting}

theorem fixed_cons {s : AlterationState × Rat} {e : Element} {es : List Element} :
    (thread (element seen) s (e :: es)).2 = e :: es ↔
      (element seen s e).2 = e ∧ (thread (element seen) (element seen s e).1 es).2 = es := by
  rw [thread_cons, List.cons_eq_cons]

theorem note_of_element {s : AlterationState × Rat} {n : Note}
    (fixed : (element seen s (.note n)).2 = .note n) : (s.1.note seen s.2 n).2 = n :=
  Element.note.inj fixed

/-- Elements that stay as they are leave the ties that they show. -/
theorem current_of_fixed {s : AlterationState × Rat} {es : List Element}
    (fixed : (thread (element seen) s es).2 = es) :
    (thread (element seen) s es).1.1.current = es.foldl Element.tiesAfter s.1.current := by
  induction es generalizing s with
  | nil => rfl
  | cons e es ih =>
    obtain ⟨here, later⟩ := fixed_cons.mp fixed
    have after : (element seen s e).1.1.current = e.tiesAfter s.1.current := by
      cases e with
      | note n =>
        have state := note_of_fixed s.1 seen s.2 (note_of_element here)
        exact congrArg AlterationState.current state
      | attributes a => rfl
      | backup d => rfl
      | forward d => rfl
    rw [thread_cons, List.foldl_cons, ih later, after]

/-- The key signature behind elements is the one that they show. -/
theorem fifths_elements (s : AlterationState × Rat) (es : List Element) :
    (thread (element seen) s es).1.1.fifths = fifthsAfter s.1.fifths es := by
  induction es generalizing s with
  | nil => rfl
  | cons e es ih =>
    have step : (element seen s e).1.1.fifths = e.cues.reduceOption.getLastD s.1.fifths := by
      cases e with
      | attributes a => cases hk : a.key <;> simp [element, Element.cues, hk]
      | note n => exact fifths_note s.1 seen s.2
      | backup d => rfl
      | forward d => rfl
    rw [thread_cons, ih, step, fifthsAfter, fifthsAfter, keysOf_cons, List.getLastD_eq_getLast?,
      List.getLastD_eq_getLast?, List.getLastD_eq_getLast?, List.getLast?_append, Option.getD_or]

/-- Behind a key signature it does not matter which one has been in force before. -/
theorem thread_of_opensWithKey {es : List Element} (opens : OpensWithKey es) (f f' : Int)
    (c P : TieTable) (cursor : Rat) :
    thread (element seen) (⟨f, c, P⟩, cursor) es =
      thread (element seen) (⟨f', c, P⟩, cursor) es := by
  obtain ⟨k, opens⟩ := opens
  induction es generalizing cursor with
  | nil => cases opens
  | cons e es ih =>
    rw [thread_cons, thread_cons]
    cases e with
    | attributes a =>
      cases hk : a.key with
      | some key =>
        have same : element seen (⟨f, c, P⟩, cursor) (.attributes a) =
            element seen (⟨f', c, P⟩, cursor) (.attributes a) := by
          simp only [element, hk, Option.map_some, Option.getD_some]
        rw [same]
      | none =>
        have silent : (Element.attributes a).cues = [] := by rw [Element.cues, hk]; rfl
        rw [List.flatMap_cons, silent, List.nil_append] at opens
        have state (f : Int) : element seen (⟨f, c, P⟩, cursor) (.attributes a) =
            ((⟨f, c, P⟩, cursor), .attributes a) := by
          simp only [element, hk, Option.map_none, Option.getD_none]
        rw [state, state, ih cursor opens]
    | note n => cases Option.some.inj opens
    | backup d => exact congrArg (fun r => (r.1, Element.backup d :: r.2)) (ih _ opens)
    | forward d => exact congrArg (fun r => (r.1, Element.forward d :: r.2)) (ih _ opens)

/-- Elements that stay as they are when no tie has been left open stay as they are behind open ties
just if those that are taken sound like the notes that take them. -/
theorem fixed_taking {f : Int} {c P : TieTable} {cursor : Rat} {es : List Element}
    (fixed : (thread (element seen) (⟨f, c, noTies⟩, cursor) es).2 = es) :
    (thread (element seen) (⟨f, c, P⟩, cursor) es).2 = es ↔
      ∀ place, ∀ q ∈ P place, ∀ n ∈ taker? place c es, n.pitch? = some q := by
  induction es generalizing f c P cursor with
  | nil => exact ⟨fun _ _ _ _ => forall_mem_none, fun _ => rfl⟩
  | cons e es ih =>
    rw [fixed_cons] at fixed ⊢
    obtain ⟨here, later⟩ := fixed
    cases e with
    | note n =>
      have own := note_of_element here
      -- what `fixed` says of the notes behind this one is said of a run without open ties again
      have nothing : left ⟨f, c, noTies⟩ n = noTies := funext fun place => ite_self _
      have state (P : TieTable)
          (fixed : ((⟨f, c, P⟩ : AlterationState).note seen cursor n).2 = n) :
          (element seen (⟨f, c, P⟩, cursor) (.note n)).1 =
            (⟨f, n.tiesAfter c, left ⟨f, c, P⟩ n⟩, (Element.note n).advance cursor) :=
        congrArg (·, (Element.note n).advance cursor) (note_of_fixed _ seen cursor fixed)
      rw [state noTies own, nothing] at later
      have same : (element seen (⟨f, c, P⟩, cursor) (.note n)).2 = .note n ↔
          ((⟨f, c, P⟩ : AlterationState).note seen cursor n).2 = n :=
        ⟨Element.note.inj, congrArg Element.note⟩
      rw [same]
      constructor
      · rintro ⟨taken, rest⟩ place q hq n' hn'
        rw [state P taken, ih later] at rest
        unfold taker? at hn'
        split at hn'
        · rename_i takes
          cases hn'
          exact (note_fixed_taking seen cursor own).mp taken place takes q hq
        · rename_i passes
          exact rest place q ((if_neg passes).trans hq) n' hn'
      · intro taken
        have first : ((⟨f, c, P⟩ : AlterationState).note seen cursor n).2 = n := by
          refine (note_fixed_taking seen cursor own).mpr fun place takes q hq => ?_
          exact taken place q hq n (if_pos takes)
        refine ⟨first, ?_⟩
        rw [state P first, ih later]
        intro place q hq n' hn'
        -- a tie that this note takes is not left for another one
        by_cases takes : n.Takes c place
        · cases (if_pos takes).symm.trans hq
        · exact taken place q ((if_neg takes).symm.trans hq) n' ((if_neg takes).trans hn')
    | attributes a => exact ⟨fun h => (ih later).mp h.2, fun h => ⟨rfl, (ih later).mpr h⟩⟩
    | backup d => exact ⟨fun h => (ih later).mp h.2, fun h => ⟨rfl, (ih later).mpr h⟩⟩
    | forward d => exact ⟨fun h => (ih later).mp h.2, fun h => ⟨rfl, (ih later).mpr h⟩⟩

end Elements

/-! ## Measures -/

section Measures

variable {own s : AlterationState} {m : Measure}

theorem measure_fixed_iff (s : AlterationState) (m : Measure) :
    (s.measure m).2 = m ↔
      (thread (element (sightings 0 m.elements)) (⟨s.fifths, noTies, s.current⟩, 0)
        m.elements).2 = m.elements :=
  ⟨fun fixed => congrArg Measure.elements fixed,
    fun fixed => congrArg (fun elements => { m with elements }) fixed⟩

/-- A measure that stays as it is leaves the ties that it shows. -/
theorem current_measure (fixed : (s.measure m).2 = m) :
    (s.measure m).1.current = openTies m.elements :=
  current_of_fixed ((measure_fixed_iff s m).mp fixed)

theorem fifths_measure (s : AlterationState) (m : Measure) :
    (s.measure m).1.fifths = fifthsAfter s.fifths m.elements :=
  fifths_elements (⟨s.fifths, noTies, s.current⟩, 0) m.elements

/-- Only the key signature and the open ties in front of a measure count. -/
theorem measure_congr (fifths : own.fifths = s.fifths) (current : own.current = s.current) :
    own.measure m = s.measure m := by
  unfold measure
  rw [fifths, current]

/-- A measure that stays as it is on its own stays as it is behind other measures just if the ties
that it takes from them sound like the notes that take them. -/
theorem measure_fixed_taking (fresh : own.current = noTies)
    (key : own.fifths = s.fifths ∨ OpensWithKey m.elements) (fixed : (own.measure m).2 = m) :
    (s.measure m).2 = m ↔ ∀ place, ∀ q ∈ s.current place,
      ∀ n ∈ taker? place noTies m.elements, n.pitch? = some q := by
  rw [measure_fixed_iff, fresh] at fixed
  rw [measure_fixed_iff]
  rcases key with same | opens
  · rw [same] at fixed
    exact fixed_taking fixed
  · rw [thread_of_opensWithKey opens own.fifths s.fifths] at fixed
    exact fixed_taking fixed

end Measures

/-- The inference over each system on its own. -/
def alone : AlterationState → Measure → AlterationState × Measure :=
  restarting Measure.newSystem measure {}

/-- Behind a measure `l`, the inference over all systems leaves further measures that each system on
its own leaves as they are just if the ties are carried. -/
theorem fixed_joined {ms : List Measure} {own s : AlterationState} {l : Measure}
    (fixed : (thread alone own ms).2 = ms) (restated : ms.Pairwise KeyRestated)
    (mine : own.current = openTies l.elements) (theirs : s.current = openTies l.elements)
    (fifths : own.fifths = s.fifths)
    (key : s.fifths = 0 ∨ ∀ m ∈ ms, m.newSystem = true → OpensWithKey m.elements) :
    (thread measure s ms).2 = ms ↔ (l :: ms).IsChain TiesCarried := by
  induction ms generalizing own s l with
  | nil => exact ⟨fun _ => .singleton l, fun _ => rfl⟩
  | cons m ms ih =>
    rw [thread_cons, List.cons_eq_cons] at fixed
    obtain ⟨here, later⟩ := fixed
    obtain ⟨behind, rest⟩ := List.pairwise_cons.mp restated
    have known : m.newSystem = true → (0 = s.fifths ∨ OpensWithKey m.elements) := by
      intro starts
      exact key.imp Eq.symm fun opens => opens m List.mem_cons_self starts
    rw [thread_cons, List.cons_eq_cons, List.isChain_cons_cons]
    -- the measure itself: only the first one of a system can take a tie on its own terms
    have first : (s.measure m).2 = m ↔ TiesCarried l m := by
      unfold TiesCarried
      rw [← theirs]
      unfold alone restarting at here
      split at here
      · rename_i starts
        rw [measure_fixed_taking rfl (known starts) here]
        exact ⟨fun taken _ => taken, fun taken => taken starts⟩
      · rename_i goesOn
        rw [measure_congr fifths (mine.trans theirs.symm)] at here
        exact ⟨fun _ starts => absurd starts goesOn, fun _ => here⟩
    rw [first]
    refine and_congr_right fun carried => ?_
    -- behind it both runs know the same key and the same ties
    have same : (alone own m).1.fifths = (s.measure m).1.fifths := by
      unfold alone restarting
      rw [fifths_measure, fifths_measure]
      split
      · rename_i starts
        rcases known starts with zero | opens
        · rw [← zero]
        · exact opens.fifthsAfter _ _
      · rw [fifths]
    refine ih later rest (current_measure here) (current_measure (first.mpr carried)) same ?_
    by_cases keyless : keysOf m.elements = []
    · rw [fifths_measure, fifthsAfter_eq_self keyless]
      exact key.imp_right fun opens m' mem => opens m' (List.mem_cons_of_mem m mem)
    · exact .inr fun m' mem starts => (behind m' mem starts).resolve_left keyless

end AlterationState

/-- **Systems that have been inferred one by one stay as they are** when they are joined just if the
ties that are open at their ends are carried. -/
theorem inferAlterations_eq_self_iff {p : Part}
    (fixed : (thread AlterationState.alone {} p.measures).2 = p.measures)
    (restated : p.measures.Pairwise KeyRestated) :
    p.inferAlterations = p ↔ p.measures.IsChain TiesCarried := by
  have measures : p.inferAlterations = p ↔
      (thread AlterationState.measure {} p.measures).2 = p.measures :=
    ⟨congrArg Part.measures, congrArg fun measures => { p with measures }⟩
  rw [measures]
  cases hm : p.measures with
  | nil => exact ⟨fun _ => .nil, fun _ => rfl⟩
  | cons m ms =>
    rw [hm] at fixed restated
    rw [thread_cons, List.cons_eq_cons] at fixed
    obtain ⟨here, later⟩ := fixed
    obtain ⟨behind, rest⟩ := List.pairwise_cons.mp restated
    have fresh : AlterationState.alone {} m = AlterationState.measure {} m := by
      unfold AlterationState.alone restarting
      rw [ite_self]
    rw [fresh] at here later
    rw [thread_cons, List.cons_eq_cons, and_iff_right here]
    refine AlterationState.fixed_joined later rest (AlterationState.current_measure here)
      (AlterationState.current_measure here) rfl ?_
    by_cases keyless : keysOf m.elements = []
    · exact .inl ((AlterationState.fifths_measure {} m).trans (fifthsAfter_eq_self keyless 0))
    · exact .inr fun m' mem starts => (behind m' mem starts).resolve_left keyless

end LinearScore
