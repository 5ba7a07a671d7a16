import LinearScore.Proofs.AttributePasses
import LinearScore.Proofs.Settled

/-!
# Clefs in normal form in a whole part

Clefs are numbered from the attributes on that declare a number of staves, and in a part that is
read these are the first ones that number a clef.  So putting the clefs into normal form and
declaring the staves can be exchanged.

## Main definitions

* `Part.normalClefs`: the part with all its clefs in normal form, as it is written
* `Part.renumbered`: the same for a part where no number of staves has been declared yet

The main statement is `declareStaves_renumbered`.
-/

namespace LinearScore

/-- The clefs in normal form, numbered if a number of staves has been declared. -/
def Attributes.normalStep (declared : Bool) (a : Attributes) : Bool × Attributes :=
  let declared := declared || a.staves.isSome
  (declared, { a with clefs := normalClefs declared a.clefs })

/-- The part with the clefs of all attributes in normal form. -/
def Part.normalClefs (p : Part) : Part := p.pass (onAttributes Attributes.normalStep) false

/-- The clefs in normal form, numbered if some clef up to here is numbered. -/
def Attributes.renumberStep (numbered : Bool) (a : Attributes) : Bool × Attributes :=
  let numbered := numbered || a.numbersClefs
  (numbered, { a with clefs := LinearScore.normalClefs numbered a.clefs })

/-- The part with the clefs of all attributes in normal form when the first attributes that number
a clef are those that will declare the number of staves. -/
def Part.renumbered (p : Part) : Part := p.pass (onAttributes Attributes.renumberStep) false

/-- Declares a number of staves in attributes that number their clefs, unless `declared`. -/
def Attributes.declareStep (staves : Nat) (declared : Bool) (a : Attributes) : Bool × Attributes :=
  if !declared && a.numbersClefs then (true, { a with staves := some staves }) else (declared, a)

/-! ## Numbers of clefs -/

theorem numbersClefs_iff {a : Attributes} :
    a.numbersClefs = true ↔ ∃ c ∈ a.clefs, ∃ n, c.number = some n := by
  simp [Attributes.numbersClefs, Option.isSome_iff_exists]

/-- The numbers of clefs in normal form are those of the staves, or none. -/
theorem mem_numbers_normalClefs {numbered : Bool} {clefs : List Clef} {n : Nat} :
    (∃ c ∈ normalClefs numbered clefs, c.number = some n) ↔
      numbered = true ∧ ∃ c ∈ clefs, c.staff = n := by
  constructor
  · rintro ⟨c, hc, hn⟩
    obtain ⟨⟨staff, c'⟩, row, rfl⟩ := List.mem_map.mp hc
    obtain ⟨eq, mem⟩ := staff_of_lastClef (mem_clefRows.mp row)
    cases numbered with
    | false => cases hn
    | true =>
      cases hn
      exact ⟨rfl, c', mem, eq⟩
  · rintro ⟨rfl, c, hc, rfl⟩
    obtain ⟨last, hl⟩ := exists_lastClef hc
    exact ⟨_, List.mem_map.mpr ⟨(c.staff, last), mem_clefRows.mpr hl, rfl⟩, rfl⟩

theorem numbersClefs_normal (numbered : Bool) (a : Attributes) :
    ({ a with clefs := normalClefs numbered a.clefs } : Attributes).numbersClefs =
      (numbered && !a.clefs.isEmpty) := by
  rw [Bool.eq_iff_iff, numbersClefs_iff]
  constructor
  · rintro ⟨c, hc, n, hn⟩
    obtain ⟨rfl, c', hc', -⟩ := mem_numbers_normalClefs.mp ⟨c, hc, hn⟩
    simpa using List.ne_nil_of_mem hc'
  · intro h
    obtain ⟨rfl, some⟩ := Bool.and_eq_true_iff.mp h
    obtain ⟨c, hc⟩ := List.exists_mem_of_ne_nil a.clefs (by simpa using some)
    obtain ⟨c', hc', hn⟩ := mem_numbers_normalClefs.mpr ⟨rfl, c, hc, rfl⟩
    exact ⟨c', hc', _, hn⟩

theorem mem_clefNumbers {p : Part} {n : Nat} :
    n ∈ p.clefNumbers ↔ ∃ a ∈ p.attributes, ∃ c ∈ a.clefs, c.number = some n := by
  simp only [Part.clefNumbers, Part.attributes, List.mem_flatMap, List.mem_filterMap]

/-- The greatest number does not change when numbers are added that others exceed. -/
theorem max?_eq_of_subset {l l' : List Nat} (sub : l ⊆ l') (above : ∀ x ∈ l', ∃ y ∈ l, x ≤ y) :
    l'.max? = l.max? := by
  cases h : l.max? with
  | none =>
    rw [List.max?_eq_none_iff] at h
    rw [List.max?_eq_none_iff]
    refine List.eq_nil_iff_forall_not_mem.mpr fun x hx => ?_
    obtain ⟨y, hy, -⟩ := above x hx
    rw [h] at hy
    cases hy
  | some k =>
    obtain ⟨mem, le⟩ := List.max?_eq_some_iff.mp h
    refine List.max?_eq_some_iff.mpr ⟨sub mem, fun x hx => ?_⟩
    obtain ⟨y, hy, le'⟩ := above x hx
    exact Nat.le_trans le' (le y hy)

/-- The clefs in normal form have the greatest number of the clefs as theirs. -/
theorem max?_clefNumbers_renumbered {p : Part} (legible : ∀ a ∈ p.attributes, a.Legible) :
    p.renumbered.clefNumbers.max? = p.clefNumbers.max? := by
  have positive {n : Nat} (h : n ∈ p.clefNumbers) : 1 ≤ n := by
    obtain ⟨a, ha, c, hc, hn⟩ := mem_clefNumbers.mp h
    have valid := ((legible a ha).clefs c hc).number n hn
    simp only [Terminal.valid, Bool.and_eq_true, decide_eq_true_eq] at valid
    exact valid.1
  -- clefs are only numbered behind a number in the part
  have number (numbered : Bool) (a : Attributes) (ha : a ∈ p.attributes)
      (h : numbered = true → ∃ k, k ∈ p.clefNumbers)
      (flag : (numbered || a.numbersClefs) = true) : ∃ k, k ∈ p.clefNumbers := by
    rcases Bool.or_eq_true_iff.mp flag with flag | flag
    · exact h flag
    · obtain ⟨c, hc, k, hk⟩ := numbersClefs_iff.mp flag
      exact ⟨k, mem_clefNumbers.mpr ⟨a, ha, c, hc, hk⟩⟩
  refine max?_eq_of_subset (fun n hn => ?_) (fun n hn => ?_)
  · obtain ⟨a, ha, c, hc, eq⟩ := mem_clefNumbers.mp hn
    obtain ⟨numbered, mem⟩ := exists_mem_thread Attributes.renumberStep false ha
    rw [← attributes_pass] at mem
    have flag : (numbered || a.numbersClefs) = true := by
      rw [numbersClefs_iff.mpr ⟨c, hc, n, eq⟩, Bool.or_true]
    have staff : c.staff = n := by rw [Clef.staff, eq]; rfl
    exact mem_clefNumbers.mpr ⟨_, mem, mem_numbers_normalClefs.mpr ⟨flag, c, hc, staff⟩⟩
  · obtain ⟨a', ha', c', hc', eq⟩ := mem_clefNumbers.mp hn
    rw [Part.renumbered, attributes_pass] at ha'
    have start : false = true → ∃ k, k ∈ p.clefNumbers :=
      fun h => absurd h Bool.false_ne_true
    obtain ⟨numbered, before, a, ha, rfl⟩ := @exists_of_mem_thread _ _ _
      (fun numbered => numbered = true → ∃ k, k ∈ p.clefNumbers) _ number _ start _ ha'
    obtain ⟨flag, c, hc, staff⟩ := mem_numbers_normalClefs.mp ⟨c', hc', eq⟩
    cases hk : c.number with
    | some k =>
      refine ⟨k, mem_clefNumbers.mpr ⟨a, ha, c, hc, hk⟩, ?_⟩
      rw [← staff, Clef.staff, hk]
      exact Nat.le_refl k
    | none =>
      obtain ⟨k, mem⟩ := number numbered a ha before flag
      refine ⟨k, mem, ?_⟩
      rw [← staff, Clef.staff, hk]
      exact positive mem

/-! ## The declaration of staves -/

theorem declareStavesStep_eq (staves : Nat) :
    declareStavesStep staves = onAttributes (Attributes.declareStep staves) := by
  funext declared e
  cases e with
  | attributes a =>
    rw [declareStavesStep, onAttributes, Attributes.declareStep]
    split
    · rfl
    · rfl
  | note n => rfl
  | backup d => rfl
  | forward d => rfl

/-- Declaring the number of staves is a pass over the attributes. -/
theorem declareStaves_eq (p : Part) :
    p.declareStaves =
      p.pass (onAttributes (Attributes.declareStep (p.clefNumbers.max?.getD 0))) false := by
  unfold Part.declareStaves
  split
  · rename_i none
    rw [none]
    rw [List.max?_eq_none_iff] at none
    have plain (a : Attributes) (ha : a ∈ p.attributes) : a.numbersClefs = false := by
      rw [Bool.eq_false_iff]
      intro numbers
      obtain ⟨c, hc, n, hn⟩ := numbersClefs_iff.mp numbers
      have mem := mem_clefNumbers.mpr ⟨a, ha, c, hc, hn⟩
      rw [none] at mem
      cases mem
    refine (pass_eq_self fun e he => ?_).symm
    cases e with
    | attributes a =>
      have mem : a ∈ p.attributes := List.mem_filterMap.mpr ⟨_, he, rfl⟩
      rw [onAttributes, Attributes.declareStep, plain a mem]
      rfl
    | note n => rfl
    | backup d => rfl
    | forward d => rfl
  · rename_i staves some
    rw [some, Option.getD_some, ← declareStavesStep_eq]
    rfl

/-- Two pairs of steps, one behind the other, that come to the same states and members. -/
structure Agree {σ α : Type} (P : α → Prop) (f g f' g' : σ → α → σ × α) : Prop where
  second : ∀ s a, P a → (g s (f s a).2).1 = (f s a).1
  first' : ∀ s a, P a → (f' s a).1 = (f s a).1
  second' : ∀ s a, P a → (g' s (f' s a).2).1 = (f s a).1
  same : ∀ s a, P a → (g s (f s a).2).2 = (g' s (f' s a).2).2

section Agree

variable {σ α : Type} {P : α → Prop} {f g f' g' : σ → α → σ × α}

theorem Agree.thread (h : Agree P f g f' g') :
    Agree (fun as => ∀ a ∈ as, P a) (thread f) (thread g) (thread f') (thread g') := by
  have all (s : σ) (as : List α) (ha : ∀ a ∈ as, P a) :
      (LinearScore.thread g s (LinearScore.thread f s as).2).1 = (LinearScore.thread f s as).1 ∧
        (LinearScore.thread f' s as).1 = (LinearScore.thread f s as).1 ∧
        (LinearScore.thread g' s (LinearScore.thread f' s as).2).1 =
          (LinearScore.thread f s as).1 ∧
        (LinearScore.thread g s (LinearScore.thread f s as).2).2 =
          (LinearScore.thread g' s (LinearScore.thread f' s as).2).2 := by
    induction as generalizing s with
    | nil => exact ⟨rfl, rfl, rfl, rfl⟩
    | cons a as ih =>
      obtain ⟨first, rest⟩ := List.forall_mem_cons.mp ha
      obtain ⟨second, first', second', same⟩ := ih (f s a).1 rest
      simp only [thread_cons, h.second s a first, h.first' s a first, h.second' s a first,
        h.same s a first, second, first', second', same, and_self]
  exact ⟨fun s as ha => (all s as ha).1, fun s as ha => (all s as ha).2.1,
    fun s as ha => (all s as ha).2.2.1, fun s as ha => (all s as ha).2.2.2⟩

/-- Passes whose steps agree lead to the same part. -/
theorem Agree.pass {P : Element → Prop} {f g f' g' : σ → Element → σ × Element}
    (h : Agree P f g f' g') {p : Part} (all : ∀ e ∈ p.elements, P e) (s : σ) :
    (p.pass f s).pass g s = (p.pass f' s).pass g' s := by
  have elements := h.thread
  have measure : Agree (fun m : Measure => ∀ e ∈ m.elements, P e) (Measure.pass f)
      (Measure.pass g) (Measure.pass f') (Measure.pass g') :=
    ⟨fun s m => elements.second s _, fun s m => elements.first' s _,
      fun s m => elements.second' s _,
      fun s m hm => congrArg (fun elements => { m with elements }) (elements.same s _ hm)⟩
  exact congrArg (fun measures => { p with measures }) (measure.thread.same s p.measures
    fun m hm e he => all e (List.mem_flatMap.mpr ⟨m, hm, he⟩))

theorem Agree.onAttributes {P : Attributes → Prop}
    {f g f' g' : σ → Attributes → σ × Attributes} (h : Agree P f g f' g') :
    Agree (fun e => ∀ a ∈ e.attributes?, P a) (onAttributes f) (onAttributes g)
      (onAttributes f') (onAttributes g') := by
  refine ⟨fun s e he => ?_, fun s e he => ?_, fun s e he => ?_, fun s e he => ?_⟩
  · cases e with
    | attributes a => exact h.second s a (he a rfl)
    | note n => rfl
    | backup d => rfl
    | forward d => rfl
  · cases e with
    | attributes a => exact h.first' s a (he a rfl)
    | note n => rfl
    | backup d => rfl
    | forward d => rfl
  · cases e with
    | attributes a => exact h.second' s a (he a rfl)
    | note n => rfl
    | backup d => rfl
    | forward d => rfl
  · cases e with
    | attributes a => exact congrArg Element.attributes (h.same s a (he a rfl))
    | note n => rfl
    | backup d => rfl
    | forward d => rfl

end Agree

/-- Putting clefs into normal form keeps whether some are numbered, if they can be. -/
theorem numbersClefs_renumberStep (a : Attributes) :
    (a.renumberStep false).2.numbersClefs = a.numbersClefs := by
  have some : a.numbersClefs = true → a.clefs.isEmpty = false := by
    intro h
    obtain ⟨c, hc, -⟩ := numbersClefs_iff.mp h
    simpa using List.ne_nil_of_mem hc
  refine (numbersClefs_normal _ a).trans ?_
  cases h : a.numbersClefs with
  | true => rw [some h]; rfl
  | false => rfl

/-- One step puts clefs into normal form and declares the staves in either order. -/
theorem agree_attributes (staves : Nat) :
    Agree (fun a => a.staves = none) Attributes.renumberStep (Attributes.declareStep staves)
      (Attributes.declareStep staves) Attributes.normalStep := by
  have declare (a : Attributes) : Attributes.declareStep staves false a =
      (a.numbersClefs, if a.numbersClefs then { a with staves := some staves } else a) := by
    unfold Attributes.declareStep
    cases a.numbersClefs <;> rfl
  refine ⟨fun s a _ => ?_, fun s a _ => ?_, fun s a ha => ?_, fun s a ha => ?_⟩
  · cases s with
    | true => rfl
    | false =>
      rw [declare, numbersClefs_renumberStep]
      exact (Bool.false_or _).symm
  · cases s with
    | true => rfl
    | false =>
      rw [declare]
      exact (Bool.false_or _).symm
  · cases s with
    | true => rfl
    | false =>
      rw [declare]
      cases h : a.numbersClefs with
      | true => simp [Attributes.normalStep, Attributes.renumberStep, h]
      | false => simp [Attributes.normalStep, Attributes.renumberStep, h, ha]
  · cases s with
    | true => rfl
    | false =>
      rw [declare, declare, numbersClefs_renumberStep]
      cases h : a.numbersClefs with
      | true => simp [Attributes.normalStep, Attributes.renumberStep, h]
      | false => simp [Attributes.normalStep, Attributes.renumberStep, h, ha]

/-- **Clefs can be put into normal form before or behind the declaration of staves.** -/
theorem declareStaves_renumbered {p : Part} (legible : ∀ a ∈ p.attributes, a.Legible) :
    p.renumbered.declareStaves = p.declareStaves.normalClefs := by
  rw [declareStaves_eq, max?_clefNumbers_renumbered legible, declareStaves_eq p]
  refine (agree_attributes _).onAttributes.pass (fun e he a ha => ?_) false
  exact (legible a (List.mem_filterMap.mpr ⟨e, he, ha⟩)).staves

/-! ## Writing -/

/-- Clefs for other staves than the first stand behind a declaration of staves. -/
def EncodingState.Placed (s : EncodingState) : Element → Prop
  | .attributes a => (s.afterAttributes a).staves.isSome = false → ∀ c ∈ a.clefs, c.staff = 1
  | _ => True

/-- The element is written in full, and so are the numbers of its clefs. -/
structure EncodingState.Spells (s : EncodingState) (e : Element) : Prop where
  expressible : s.Expressible e
  placed : s.Placed e

/-- Attributes with their clefs in normal form are written like the attributes. -/
theorem EncodingState.Spells.normalStep {s : EncodingState} {a : Attributes}
    (h : s.Spells (.attributes a)) :
    s.afterAttributes (a.normalStep s.staves.isSome).2 = s.afterAttributes a ∧
      s.items (.attributes (a.normalStep s.staves.isSome).2) = s.items (.attributes a) ∧
      s.Expressible (.attributes (a.normalStep s.staves.isSome).2) ∧
      (a.normalStep s.staves.isSome).1 = (s.afterAttributes a).staves.isSome := by
  have declared : (s.staves.isSome || a.staves.isSome) = (s.afterAttributes a).staves.isSome := by
    show _ = (a.staves.or s.staves).isSome
    rw [Option.isSome_or, Bool.or_comm]
  have table : clefTable (normalClefs (s.staves.isSome || a.staves.isSome) a.clefs) =
      clefTable a.clefs := by
    rw [declared]
    exact clefTable_normalClefs h.expressible.formed h.placed
  have items : s.items (.attributes (a.normalStep s.staves.isSome).2) =
      s.items (.attributes a) := by
    show a.key.toList.map _ ++ _ ++ (clefTable (normalClefs _ a.clefs)).map _ = _
    rw [table]
    rfl
  refine ⟨rfl, items, ⟨fun c hc => ?_, ?_⟩, declared⟩
  · obtain ⟨c', mem, number, rfl⟩ := exists_of_mem_normalClefs hc
    exact h.expressible.formed c' mem
  · rw [items]
    exact h.expressible.valid

theorem elementItems_normalStep {s : EncodingState} {es : List Element}
    (h : AlongElements EncodingState.Spells s es) :
    let r := thread (onAttributes Attributes.normalStep) s.staves.isSome es
    elementItems s r.2 = elementItems s es ∧ AlongElements EncodingState.Expressible s r.2 ∧
      r.2.foldl EncodingState.after s = es.foldl EncodingState.after s ∧
      r.1 = (es.foldl EncodingState.after s).staves.isSome := by
  induction es generalizing s with
  | nil => exact ⟨rfl, trivial, rfl, rfl⟩
  | cons e es ih =>
    obtain ⟨first, along⟩ := h
    obtain ⟨items, later, last, flag⟩ := ih along
    cases e with
    | attributes a =>
      obtain ⟨state, same, expressible, declared⟩ := first.normalStep
      have after : s.after (.attributes (a.normalStep s.staves.isSome).2) =
          s.after (.attributes a) := state
      rw [thread_cons, onAttributes, declared]
      refine ⟨?_, ⟨expressible, ?_⟩, ?_, flag⟩
      · rw [elementItems, elementItems, same, after]
        exact congrArg _ items
      · rw [after]
        exact later
      · rw [List.foldl_cons, List.foldl_cons, after]
        exact last
    | note n =>
      exact ⟨congrArg (s.items (.note n) ++ ·) items, ⟨first.expressible, later⟩, last, flag⟩
    | backup t =>
      exact ⟨congrArg (s.items (.backup t) ++ ·) items, ⟨first.expressible, later⟩, last, flag⟩
    | forward t =>
      exact ⟨congrArg (s.items (.forward t) ++ ·) items, ⟨first.expressible, later⟩, last, flag⟩

theorem measureItems_normalStep {s : EncodingState} {ms : List Measure}
    (h : AlongMeasures EncodingState.Spells s ms) :
    let r := thread (Measure.pass (onAttributes Attributes.normalStep)) s.staves.isSome ms
    measureItems s r.2 = measureItems s ms ∧ AlongMeasures EncodingState.Expressible s r.2 := by
  induction ms generalizing s with
  | nil => exact ⟨rfl, trivial⟩
  | cons m ms ih =>
    obtain ⟨first, along⟩ := h
    obtain ⟨items, expressible, last, flag⟩ := elementItems_normalStep first
    obtain ⟨rest, later⟩ := ih along
    have after : s.afterMeasure
        { m with elements :=
            (thread (onAttributes Attributes.normalStep) s.staves.isSome m.elements).2 } =
          s.afterMeasure m := last
    have declared : (Measure.pass (onAttributes Attributes.normalStep) s.staves.isSome m).1 =
        (s.afterMeasure m).staves.isSome := flag
    rw [thread_cons, declared]
    refine ⟨?_, expressible, ?_⟩
    · rw [measureItems, measureItems, ← rest]
      exact congr (congrArg _ items) (congrArg (fun s => measureItems s _) after)
    · show AlongMeasures _ (s.afterMeasure _) _
      rw [Measure.pass, after]
      exact later

/-- **A part that is written in full is written in the same way with its clefs in normal form.** -/
theorem encode_normalClefs {p : Part} (h : p.Along EncodingState.Spells) :
    p.normalClefs.encode.value = p.encode.value := by
  obtain ⟨items, along⟩ := measureItems_normalStep h
  rw [value_encode (p := p.normalClefs) along, value_encode (p := p)
    (AlongMeasures.imp (fun _ _ spells => spells.expressible) h)]
  exact congrArg (fun items => (streamOf items).map Terminal.text) items

end LinearScore
