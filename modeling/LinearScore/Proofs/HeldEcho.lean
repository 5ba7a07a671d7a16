import LinearScore.Proofs.HeldDecoding
import LinearScore.Proofs.Stability

/-!
# Reading back by the integers of the machine

What was read of tokens, and is written again, is read back by the same arithmetic: the lengths of
its notes and their beams are computed from the same values.  Only backups and forwards are cut into
other pieces, and no sum of these is longer than the duration that they add up to.

## Main definitions

* `Note.Lasts`: a note whose length is computed when it is read back
* `BeamState.Carries`: notes whose beams are computed when they are read back one after the other

The main statements are `computed_decodeMeasures` and `fits_decodeMeasures_items`.
-/

namespace LinearScore

/-! ## Notes -/

/-- The length of a note is computed when it is read back. -/
def Note.Lasts (n : Note) : Prop :=
  n.grace = none → ∀ t ∈ n.noteType,
    (Machine.noteLength t (min countLimit n.dots) n.ratio).fits = true

namespace BeamState

/-- The counts of open beams behind a note that is read back. -/
def behind (s : BeamState) (n : Note) : BeamState := (s.resolve n.beamRequest).value.2

/-- The beams of notes are computed when they are read back one after the other. -/
def Carries (s : BeamState) : List Note → Prop
  | [] => True
  | n :: ns => (s.resolve n.beamRequest).fits = true ∧ (s.behind n).Carries ns

theorem carries_append {s : BeamState} {ns ms : List Note} :
    s.Carries (ns ++ ms) ↔ s.Carries ns ∧ (ns.foldl behind s).Carries ms := by
  induction ns generalizing s with
  | nil => exact (and_iff_right trivial).symm
  | cons n ns ih =>
    rw [List.cons_append, Carries, Carries, ih, List.foldl_cons, and_assoc]

end BeamState

namespace DecodingState

variable {d : DecodingState}

/-- What is computed when a note is read is computed when it is read back. -/
theorem computed_note {item : Item} (valid : AllValid item.tokens)
    (clean : (d.note item).diagnostics = []) (fits : (d.note item).fits = true) :
    (d.note item).value.1.Lasts ∧
      (d.beams.resolve (d.note item).value.1.beamRequest).fits = true ∧
      d.beams.behind (d.note item).value.1 = (d.note item).value.2.beams := by
  obtain ⟨-, counted⟩ := Item.legible_noteFields valid
  have unreported := unreported_of_note clean
  obtain ⟨root, f, hr, hf⟩ : ∃ root f, root = item.root ∧ f = item.noteFields.value :=
    ⟨_, _, rfl, rfl⟩
  rw [fits_note, Bool.and_eq_true] at fits
  rw [← hf] at counted
  rw [← hr, ← hf] at unreported fits
  rw [value_note, ← hr, ← hf]
  have grace : (d.noteOf root f).1.grace.isSome = f.grace := by
    show (if f.grace = true then some (⟨f.graceSlash⟩ : Grace) else none).isSome = f.grace
    cases f.grace <;> rfl
  refine ⟨fun plain t ht => ?_, ?_, congrArg Prod.snd (resolve_noteOf unreported).2⟩
  · rw [plain] at grace
    show (Machine.noteLength t (min countLimit f.dots) f.ratio).fits = true
    rw [Nat.min_eq_right counted.dots]
    exact (fits_noteDuration root _ f).mp fits.1 grace.symm t ht
  · rw [resolve_beamRequest_noteOf unreported, Reported.fits_move]
    exact fits.2

/-- Reading the item of a note back computes its length and its beams. -/
theorem computed_noteItem (s : EncodingState) {n : Note} (lasts : n.Lasts)
    (carries : (d.beams.resolve n.beamRequest).fits = true) :
    (d.note (s.noteItem n)).fits = true ∧
      (d.note (s.noteItem n)).value.2.beams = d.beams.behind n := by
  have root : rootType? (s.noteItem n).root.terminal = n.noteType := rootType?_root n
  have resolved := resolve_readFields d.beams s n (s.noteItem n).root.position
  constructor
  · rw [fits_note, value_noteFields_noteItem, root, grace_readFields, chord_readFields, resolved,
      Reported.fits_move, carries, Bool.and_true, fits_noteDuration, grace_readFields]
    exact fun plain => lasts (by simpa using plain)
  · rw [value_note, value_noteFields_noteItem]
    show (d.beams.resolve
      ⟨_, _, _, (rootType? (s.noteItem n).root.terminal).elim _ _, _⟩).value.2 = _
    rw [root, grace_readFields, chord_readFields, resolved]
    rfl

theorem beams_attributes (a : Attributes) (item : Item) :
    (d.attributes a item).value.2.beams = d.beams := by
  unfold attributes
  split
  · rw [Reported.value_bind]
    split
    · rfl
    · rfl
  · rfl
  · rfl
  · rfl

theorem beams_skip (item : Item) (marker : Terminal) :
    (∀ e ∈ (d.skip item marker).value.1, e.note? = none) ∧
      (d.skip item marker).value.2.beams = d.beams := by
  rw [value_skip]
  split
  · dsimp only
    split
    · exact ⟨fun e he => Option.some.inj he ▸ rfl, rfl⟩
    · exact ⟨fun e he => Option.some.inj he ▸ rfl, rfl⟩
  · exact ⟨forall_mem_none, rfl⟩

/-- What is computed at an item that is no attribute item is computed when it is read back. -/
theorem computed_element {item : Item} (valid : AllValid item.tokens)
    (clean : (d.element item).diagnostics = []) (fits : (d.element item).fits = true) :
    let notes := (d.element item).value.1.toList.filterMap Element.note?
    (∀ n ∈ notes, n.Lasts) ∧ d.beams.Carries notes ∧
      notes.foldl BeamState.behind d.beams = (d.element item).value.2.beams := by
  unfold element at clean fits ⊢
  cases hm : item.marker? with
  | some marker =>
    obtain ⟨none, beams⟩ := @beams_skip d item marker
    have notes : (d.skip item marker).value.1.toList.filterMap Element.note? = [] :=
      List.filterMap_eq_nil_iff.mpr fun e he => none e (Option.mem_toList.mp he)
    dsimp only
    rw [notes]
    exact ⟨List.forall_mem_nil _, trivial, beams.symm⟩
  | none =>
    rw [hm, Reported.diagnostics_bind, List.append_eq_nil_iff] at clean
    rw [hm, Reported.fits_bind, Bool.and_eq_true] at fits
    obtain ⟨lasts, carries, last⟩ := computed_note valid clean.1 fits.1
    exact ⟨List.forall_mem_singleton.mpr lasts, ⟨carries, trivial⟩, last⟩

end DecodingState

/-! ## Reading -/

/-- The beams of notes that are read without a report are computed when they are read back, and so
are their lengths. -/
theorem computed_decodeItems {items : List Item} (valid : ∀ item ∈ items, AllValid item.tokens)
    {d : DecodingState} {run : Option Attributes}
    (clean : (decodeItems d run items).diagnostics = [])
    (fits : (decodeItems d run items).fits = true) :
    let notes := (decodeItems d run items).value.1.filterMap Element.note?
    (∀ n ∈ notes, n.Lasts) ∧ d.beams.Carries notes ∧
      notes.foldl BeamState.behind d.beams = (decodeItems d run items).value.2.beams := by
  induction items generalizing d run with
  | nil =>
    cases run with
    | none => exact ⟨List.forall_mem_nil _, trivial, rfl⟩
    | some a => exact ⟨List.forall_mem_nil _, trivial, rfl⟩
  | cons item items ih =>
    obtain ⟨here, later⟩ := List.forall_mem_cons.mp valid
    cases root : item.root.terminal.isAttributeRoot with
    | true =>
      rw [decodeItems_attribute d run items root] at clean fits ⊢
      rw [Reported.diagnostics_bind, List.append_eq_nil_iff] at clean
      rw [Reported.fits_bind, Bool.and_eq_true] at fits
      have rest := ih later clean.2 fits.2
      rwa [DecodingState.beams_attributes] at rest
    | false =>
      rw [decodeItems_element d run items root] at clean fits ⊢
      rw [Reported.diagnostics_bind, List.append_eq_nil_iff, Reported.diagnostics_map] at clean
      rw [Reported.fits_bind, Bool.and_eq_true, Reported.fits_map] at fits
      obtain ⟨lasts, carries, last⟩ := DecodingState.computed_element here clean.1 fits.1
      obtain ⟨lastsLater, carriesLater, lastLater⟩ := ih later clean.2 fits.2
      rw [Reported.value_bind, Reported.value_map]
      dsimp only
      rw [List.filterMap_append, List.filterMap_append, filterMap_note?_closeRun, List.nil_append,
        List.foldl_append, last]
      refine ⟨List.forall_mem_append.mpr ⟨lasts, lastsLater⟩, ?_, lastLater⟩
      rw [BeamState.carries_append, last]
      exact ⟨carries, carriesLater⟩

/-- The notes of a measure that was read without a report are those of its items. -/
theorem notes_decodeMeasure {cluster : List Token} (valid : AllValid cluster) {d : DecodingState}
    (clean : (decodeItems { d with sticky := {} } none
      (Item.ofTokens cluster).value).diagnostics = []) (number : Int) :
    (decodeMeasure d number cluster).value.1.notes =
      (decodeItems { d with sticky := {} } none
        (Item.ofTokens cluster).value).value.1.filterMap Element.note? := by
  obtain ⟨ordered, -⟩ := read_decodeItems (d := d) (valid_ofTokens valid) clean
  rw [value_decodeMeasure, Measure.notes]
  dsimp only
  rw [orderChords_eq_self ordered.ascends]
  exact filterMap_note?_mergeSkips _

/-- **What is computed in measures that are read without a report** is computed when their notes are
read back, and their numbers are held. -/
theorem computed_decodeMeasures {clusters : List (List Token)}
    (valid : ∀ cluster ∈ clusters, AllValid cluster) {d : DecodingState} {number : Int}
    (clean : (decodeMeasures d number clusters).diagnostics = [])
    (fits : (decodeMeasures d number clusters).fits = true) :
    let ms := (decodeMeasures d number clusters).value
    (∀ n ∈ ms.flatMap Measure.notes, n.Lasts) ∧ d.beams.Carries (ms.flatMap Measure.notes) ∧
      ∀ i < ms.length, Machine.holds Machine.limit32 (number + i) = true := by
  induction clusters generalizing d number with
  | nil => exact ⟨List.forall_mem_nil _, trivial, nofun⟩
  | cons cluster clusters ih =>
    obtain ⟨here, later⟩ := List.forall_mem_cons.mp valid
    rw [decodeMeasures, Reported.diagnostics_bind, List.append_eq_nil_iff,
      Reported.diagnostics_bind, List.append_eq_nil_iff] at clean
    rw [decodeMeasures, Reported.fits_bind, Bool.and_eq_true, Reported.fits_bind,
      Bool.and_eq_true] at fits
    obtain ⟨first, rest, -⟩ := clean
    obtain ⟨fitsHere, fitsLater, -⟩ := fits
    rw [diagnostics_decodeMeasure, List.append_eq_nil_iff] at first
    simp only [decodeMeasure, Reported.fits_bind, Bool.and_eq_true, Checked.fits_reported,
      Machine.fits_integer] at fitsHere
    obtain ⟨numbered, -, items, -⟩ := fitsHere
    have notes := notes_decodeMeasure here first.2 number
    rw [value_decodeMeasure] at notes
    obtain ⟨lasts, carries, last⟩ := computed_decodeItems (valid_ofTokens here) first.2 items
    replace rest : (decodeMeasures (decodeMeasure d number cluster).value.2 (number + 1)
        clusters).diagnostics = [] := rest
    replace fitsLater : (decodeMeasures (decodeMeasure d number cluster).value.2 (number + 1)
        clusters).fits = true := fitsLater
    rw [value_decodeMeasure] at rest fitsLater
    obtain ⟨lastsLater, carriesLater, numbers⟩ := ih later rest fitsLater
    rw [value_decodeMeasures_cons]
    dsimp only
    rw [List.flatMap_cons, notes]
    refine ⟨List.forall_mem_append.mpr ⟨lasts, lastsLater⟩, ?_, ?_⟩
    · rw [BeamState.carries_append, last]
      exact ⟨carries, carriesLater⟩
    · intro i hi
      cases i with
      | zero => rwa [Nat.cast_zero, add_zero]
      | succ i =>
        have next := numbers i (Nat.lt_of_succ_lt_succ hi)
        rwa [add_assoc, add_comm 1, ← Nat.cast_succ] at next

/-! ## Reading back -/

/-- Items without a note compute nothing that is not held, and leave the beams as they are. -/
theorem fits_decodeItems_append {items rest : List Item}
    (valid : ∀ item ∈ items, AllValid item.tokens)
    (noteless : ∀ item ∈ items,
      item.root.terminal.isAttributeRoot = true ∨ item.marker?.isSome = true)
    {d : DecodingState} (run : Option Attributes)
    (h : ∀ (d' : DecodingState) run', d'.beams = d.beams → (decodeItems d' run' rest).fits = true) :
    (decodeItems d run (items ++ rest)).fits = true := by
  induction items generalizing d run with
  | nil => exact h d run rfl
  | cons item items ih =>
    obtain ⟨here, later⟩ := List.forall_mem_cons.mp valid
    obtain ⟨first, others⟩ := List.forall_mem_cons.mp noteless
    rw [List.cons_append]
    cases root : item.root.terminal.isAttributeRoot with
    | true =>
      rw [decodeItems_attribute d run _ root, Reported.fits_bind,
        DecodingState.fits_attributes here _ root, Bool.true_and]
      refine ih later others _ fun d' run' same => h d' run' ?_
      rw [same, DecodingState.beams_attributes]
    | false =>
      rw [root] at first
      obtain ⟨marker, hm⟩ := Option.isSome_iff_exists.mp (first.resolve_left Bool.false_ne_true)
      have skip : d.element item = d.skip item marker := by
        rw [DecodingState.element, hm]
      rw [decodeItems_element d run _ root, skip, Reported.fits_bind,
        DecodingState.fits_skip here, Bool.true_and, Reported.fits_map]
      refine ih later others _ fun d' run' same => h d' run' ?_
      rw [same, (DecodingState.beams_skip item marker).2]

/-- The items of an element that is no note have no note. -/
theorem noteless_items {s : EncodingState} {e : Element} (h : e.note? = none) :
    ∀ item ∈ s.items e, item.root.terminal.isAttributeRoot = true ∨ item.marker?.isSome = true := by
  have pieces (divisions : Option Int) {marker : Terminal}
      (hm : marker = .backup ∨ marker = .forward) (duration : Rat) :
      ∀ item ∈ skipItems divisions marker duration, item.marker?.isSome = true := by
    cases divisions with
    | none => exact List.forall_mem_nil _
    | some d =>
      refine List.forall_mem_map.mpr fun t _ => ?_
      rcases hm with rfl | rfl
      · rfl
      · rfl
  cases e with
  | note n => cases h
  | backup t => exact fun item mem => .inr (pieces s.divisions (.inl rfl) t item mem)
  | forward t => exact fun item mem => .inr (pieces s.divisions (.inr rfl) t item mem)
  | attributes a =>
    intro item mem
    rw [EncodingState.items, Attributes.items, List.mem_append, List.mem_append] at mem
    rcases mem with (mem | mem) | mem
    · obtain ⟨k, -, rfl⟩ := List.mem_map.mp mem
      exact .inl rfl
    · obtain ⟨t, -, rfl⟩ := List.mem_map.mp mem
      exact .inl rfl
    · obtain ⟨⟨staff, t⟩, entry, rfl⟩ := List.mem_map.mp mem
      obtain ⟨sign, line, rfl⟩ := clef_of_mem_clefTable entry
      exact .inl rfl

/-- The terminals of an item are those of its tokens. -/
theorem allValid_of_terminals {item : Item} (h : ∀ t ∈ item.terminals, t.valid = true) :
    AllValid item.tokens :=
  fun t ht => h t.terminal (List.mem_map_of_mem ht)

/-- The items of elements are read back if the lengths and the beams of their notes are computed. -/
theorem fits_decodeItems_elementItems {s : EncodingState} {es : List Element}
    (h : AlongElements EncodingState.Expressible s es) {d : DecodingState}
    (run : Option Attributes) (lasts : ∀ n ∈ es.filterMap Element.note?, n.Lasts)
    (carries : d.beams.Carries (es.filterMap Element.note?)) :
    (decodeItems d run (elementItems s es)).fits = true := by
  induction es generalizing s d run with
  | nil => rfl
  | cons e es ih =>
    obtain ⟨first, along⟩ := h
    rw [elementItems]
    cases hn : e.note? with
    | none =>
      rw [List.filterMap_cons_none hn] at lasts carries
      refine fits_decodeItems_append (fun item mem => allValid_of_terminals (first.valid item mem))
        (noteless_items hn) run ?_
      exact fun d' run' same => ih along run' lasts (same ▸ carries)
    | some n =>
      cases e with
      | note n' =>
        cases hn
        replace lasts : ∀ n' ∈ n :: es.filterMap Element.note?, n'.Lasts := lasts
        replace carries : d.beams.Carries (n :: es.filterMap Element.note?) := carries
        obtain ⟨length, later⟩ := List.forall_mem_cons.mp lasts
        obtain ⟨fits, beams⟩ := DecodingState.computed_noteItem s length carries.1
        rw [EncodingState.items, List.singleton_append, decodeItems_note, Reported.fits_bind, fits,
          Bool.true_and, Reported.fits_map]
        exact ih along none later (beams ▸ carries.2)
      | attributes a | backup t | forward t => cases hn

/-- The counts of open beams behind elements that are read back. -/
theorem beams_echoElements (s : EncodingState) (d : DecodingState) (run : Option Attributes)
    (es : List Element) :
    (echoElements s d run es).2.beams =
      (es.filterMap Element.note?).foldl BeamState.behind d.beams := by
  induction es generalizing s d run with
  | nil => rfl
  | cons e es ih =>
    cases e with
    | attributes a => exact ih _ _ _
    | note n => exact ih _ _ _
    | backup t => exact ih _ _ _
    | forward t => exact ih _ _ _

/-! ## Pieces that are joined -/

/-- Backups and forwards go back and forth, and their durations are fractions over a common
denominator. -/
def Element.Moves (common : Nat) (e : Element) : Prop := ∀ q ∈ e.skip?, 0 ≤ q ∧ q.den ∣ common

/-- What is joined to an element goes at least as far as the element. -/
theorem exists_joinSkip {common : Nat} {e : Element} {q : Rat} (he : q ∈ e.skip?)
    {es : List Element} (moves : ∀ e ∈ es, e.Moves common) :
    ∃ e' ∈ joinSkip e es, ∃ q' ∈ e'.skip?, q ≤ q' := by
  unfold joinSkip
  split
  · cases he
    obtain ⟨nonneg, -⟩ := moves _ List.mem_cons_self _ rfl
    exact ⟨_, List.mem_cons_self, _, rfl, le_add_of_nonneg_right nonneg⟩
  · cases he
    obtain ⟨nonneg, -⟩ := moves _ List.mem_cons_self _ rfl
    exact ⟨_, List.mem_cons_self, _, rfl, le_add_of_nonneg_right nonneg⟩
  · exact ⟨e, List.mem_cons_self, q, he, le_refl q⟩

theorem moves_mergeSkips {common : Nat} {es : List Element} (moves : ∀ e ∈ es, e.Moves common) :
    ∀ e ∈ mergeSkips es, e.Moves common := by
  have sum {p q : Rat} (hp : 0 ≤ p ∧ p.den ∣ common) (hq : 0 ≤ q ∧ q.den ∣ common) :
      0 ≤ p + q ∧ (p + q).den ∣ common :=
    ⟨add_nonneg hp.1 hq.1, den_add_dvd hp.2 hq.2⟩
  have join {e : Element} {es : List Element} (here : e.Moves common)
      (moves : ∀ e ∈ es, e.Moves common) : ∀ e' ∈ joinSkip e es, e'.Moves common := by
    unfold joinSkip
    split
    · obtain ⟨first, rest⟩ := List.forall_mem_cons.mp moves
      refine List.forall_mem_cons.mpr ⟨?_, rest⟩
      rintro q ⟨⟩
      exact sum (here _ rfl) (first _ rfl)
    · obtain ⟨first, rest⟩ := List.forall_mem_cons.mp moves
      refine List.forall_mem_cons.mpr ⟨?_, rest⟩
      rintro q ⟨⟩
      exact sum (here _ rfl) (first _ rfl)
    · exact List.forall_mem_cons.mpr ⟨here, moves⟩
  induction es with
  | nil => exact List.forall_mem_nil _
  | cons e es ih =>
    obtain ⟨first, rest⟩ := List.forall_mem_cons.mp moves
    exact join first (ih rest)

namespace Machine

variable {common : Nat} (held : HeldDenominator common)
include held

/-- No sum on the way is larger than the backup or forward that it becomes part of. -/
theorem fits_mergeBehind_of_short {last : Element} {es : List Element}
    (moves : ∀ e ∈ last :: es, e.Moves common)
    (short : ∀ e ∈ LinearScore.mergeSkips (last :: es), ∀ q ∈ e.skip?, q * common < limit64) :
    (mergeBehind last es).fits = true := by
  induction es generalizing last with
  | nil => rfl
  | cons e es ih =>
    obtain ⟨first, later⟩ := List.forall_mem_cons.mp moves
    obtain ⟨second, rest⟩ := List.forall_mem_cons.mp later
    have merged : LinearScore.mergeSkips (last :: e :: es) =
        joinSkip last (joinSkip e (LinearScore.mergeSkips es)) := rfl
    rw [mergeBehind]
    split
    · rename_i sum joined
      obtain ⟨move, p, q, ways, rfl, rfl, hs, fits⟩ := sumSkips?_eq_some joined
      have lasts (r : Rat) : (move r).skip? = some r := by
        rcases ways with rfl | rfl
        · rfl
        · rfl
      obtain ⟨nonneg, divides⟩ := first p (lasts p)
      obtain ⟨nonneg', over'⟩ := second q (lasts q)
      rw [merged, joinSkip_of_sum joined] at short
      have goes : p + q ∈ sum.value.skip? := hs ▸ lasts (p + q)
      obtain ⟨e', mem, t, ht, le⟩ := exists_joinSkip goes (moves_mergeSkips rest)
      have both : (|p| + |q|) * common < limit64 := by
        rw [abs_of_nonneg nonneg, abs_of_nonneg nonneg']
        exact (mul_le_mul_of_nonneg_right le (Nat.cast_nonneg _)).trans_lt (short e' mem t ht)
      have moved : sum.value.Moves common := by
        intro r hr
        obtain rfl : p + q = r := Option.some.inj (Option.mem_def.mp goes ▸ hr)
        exact ⟨add_nonneg nonneg nonneg', den_add_dvd divides over'⟩
      rw [Checked.fits_bind, fits, held.fits_add divides over' both, Bool.true_and]
      exact ih (List.forall_mem_cons.mpr ⟨moved, rest⟩) short
    · rename_i apart
      rw [merged, joinSkip_of_no_sum apart] at short
      rw [Checked.fits_bind, Checked.fits_pure, Bool.and_true]
      exact ih later (List.forall_mem_cons.mp short).2

/-- **Backups and forwards are joined** if those that they become are held. -/
theorem fits_mergeSkips_of_short {es : List Element} (moves : ∀ e ∈ es, e.Moves common)
    (short : ∀ e ∈ LinearScore.mergeSkips es, ∀ q ∈ e.skip?, q * common < limit64) :
    (mergeSkips es).fits = true := by
  cases es with
  | nil => rfl
  | cons e es => exact fits_mergeBehind_of_short held moves short

end Machine

/-- The backups and forwards that are read of valid items go somewhere, but not far. -/
theorem moves_decodeItems {items : List Item} (valid : ∀ item ∈ items, AllValid item.tokens)
    (d : DecodingState) (run : Option Attributes) :
    ∀ e ∈ (decodeItems d run items).value.1, e.Moves (commonLength 0) := by
  refine forall_mem_decodeItems (fun a => forall_mem_none) (fun item mem d => ?_) d run
  unfold DecodingState.element
  split
  · intro e he q hq
    obtain ⟨-, q', lasts, positive, brief⟩ := DecodingState.brief_skip (valid item mem) 0 _ e he
    obtain rfl : q' = q := Option.some.inj (lasts.symm.trans (duration?_of_skip? hq))
    exact ⟨positive.le, brief.divides⟩
  · rintro e ⟨⟩
    exact forall_mem_none

/-! ## Measures -/

/-- Ordering chords keeps backups and forwards. -/
theorem perm_skips_orderChords (es : List Element) :
    ((orderChords es).filterMap Element.skip?).Perm (es.filterMap Element.skip?) :=
  perm_orderChords (fun e _ => by cases e <;> rfl) (fun e => by cases e <;> rfl)
    (fun e => by cases e <;> rfl) es

/-- A measure is read back if the lengths and the beams of its notes are computed, its number is
held, and it is read back with backups and forwards that are short. -/
theorem fits_decodeMeasure_items {s : EncodingState} {es : List Element}
    (h : AlongElements EncodingState.Expressible s es) (fresh : s.sticky = {}) {d : DecodingState}
    {number : Int} (numbered : Machine.holds Machine.limit32 number = true)
    (lasts : ∀ n ∈ es.filterMap Element.note?, n.Lasts)
    (carries : d.beams.Carries (es.filterMap Element.note?))
    (short : ∀ e ∈ orderChords (mergeSkips (echoElements s { d with sticky := {} } none es).1),
      ∀ q ∈ e.skip?, q ≤ 1024) :
    (decodeMeasure d number ((elementItems s es).flatMap Item.tokens)).fits = true ∧
      (decodeMeasure d number ((elementItems s es).flatMap Item.tokens)).value.2 =
        (echoElements s { d with sticky := {} } none es).2 := by
  have items := fits_decodeItems_elementItems h (d := { d with sticky := {} }) none lasts carries
  obtain ⟨same, state⟩ := value_decodeItems_elementItems h
    (.fresh fresh { d with sticky := {} } rfl) none
  have valid : ∀ item ∈ elementItems s es, AllValid item.tokens :=
    fun item mem => allValid_of_terminals (valid_elementItems h item mem)
  have merged : (Machine.mergeSkips (decodeItems { d with sticky := {} } none
      (elementItems s es)).value.1).fits = true := by
    refine Machine.fits_mergeSkips_of_short (Machine.heldDenominator_commonLength (Nat.zero_le 25))
      (moves_decodeItems valid _ _) fun e he q hq => ?_
    rw [same] at he
    obtain ⟨e', mem, goes⟩ := List.mem_filterMap.mp
      ((perm_skips_orderChords _).mem_iff.mpr (List.mem_filterMap.mpr ⟨e, he, hq⟩))
    calc q * (commonLength 0 : Rat) ≤ 1024 * commonLength 0 :=
          mul_le_mul_of_nonneg_right (short e' mem q goes) (Nat.cast_nonneg _)
      _ < Machine.limit64 := by norm_num [commonLength, Machine.limit64_eq]
  constructor
  · simp only [decodeMeasure, Item.ofTokens_flatMap fun _ => wellformed_of_mem, Reported.fits_bind,
      Checked.fits_reported, Machine.fits_integer, numbered, Reported.fits_pure,
      Reported.value_pure, items, merged, Bool.and_self]
  · have value := congrArg Reported.value (decodeMeasure_items d number s es)
    rw [Reported.value_unbounded, Reported.value_map, Reported.value_unbounded, state] at value
    rw [value]

/-- **Measures are read back** if the lengths and the beams of their notes are computed, their
numbers are held, and they are read back with backups and forwards that are short. -/
theorem fits_decodeMeasures_items {s : EncodingState} {ms : List Measure}
    (h : AlongMeasures EncodingState.Expressible s ms) {d : DecodingState} {number : Int}
    (numbers : ∀ i < ms.length, Machine.holds Machine.limit32 (number + i) = true)
    (lasts : ∀ n ∈ ms.flatMap Measure.notes, n.Lasts)
    (carries : d.beams.Carries (ms.flatMap Measure.notes))
    (short : ∀ m ∈ echoMeasures s d number ms, ∀ e ∈ m.elements, ∀ q ∈ e.skip?, q ≤ 1024) :
    (decodeMeasures d number
      ((measureItems s ms).map fun items => items.flatMap Item.tokens)).fits = true := by
  induction ms generalizing s d number with
  | nil => rfl
  | cons m ms ih =>
    obtain ⟨first, rest⟩ := h
    rw [List.flatMap_cons] at lasts carries
    obtain ⟨lastsHere, lastsLater⟩ := List.forall_mem_append.mp lasts
    obtain ⟨carriesHere, carriesLater⟩ := BeamState.carries_append.mp carries
    obtain ⟨shortHere, shortLater⟩ := List.forall_mem_cons.mp short
    have numbered := numbers 0 (Nat.succ_pos _)
    rw [Nat.cast_zero, add_zero] at numbered
    obtain ⟨here, behind⟩ := fits_decodeMeasure_items first rfl numbered lastsHere carriesHere
      shortHere
    rw [measureItems, List.map_cons, decodeMeasures, Reported.fits_bind, here, Reported.fits_bind,
      behind, Reported.fits_pure, Bool.and_true, Bool.true_and]
    refine ih rest (fun i hi => ?_) lastsLater ?_ shortLater
    · have next := numbers (i + 1) (Nat.succ_lt_succ hi)
      rwa [Nat.cast_succ, add_comm (i : Int), ← add_assoc] at next
    · rw [beams_echoElements]
      exact carriesLater

end LinearScore
