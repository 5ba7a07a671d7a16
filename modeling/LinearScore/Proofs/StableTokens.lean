import LinearScore.Proofs.Content
import LinearScore.Proofs.HeldEcho
import LinearScore.Proofs.HeldParts

/-!
# Tokens that are stable

What was decoded without a report is decoded to the same part again once it has been written, with
its clefs in normal form.  Decoding and writing it may stop at a number that is not held, but where
they go on to the end, decoding what was written goes on to the end as well.

The main statement is `decodeTexts_encode_decodeTexts`.
-/

namespace LinearScore

/-! ## Clefs cost no arithmetic -/

namespace EncodingState

/-- Nothing that is computed at elements depends on their clefs. -/
theorem elementArithmetic_normalStep (s : EncodingState) (declared : Bool) (es : List Element) :
    elementArithmetic s (thread (onAttributes Attributes.normalStep) declared es).2 =
        elementArithmetic s es ∧
      (thread (onAttributes Attributes.normalStep) declared es).2.foldl after s =
        es.foldl after s := by
  induction es generalizing s declared with
  | nil => exact ⟨rfl, rfl⟩
  | cons e es ih =>
    obtain ⟨d, hd⟩ : ∃ d, d = (onAttributes Attributes.normalStep declared e).1 := ⟨_, rfl⟩
    obtain ⟨rest, behind⟩ := ih (s.after e) d
    have here : s.arithmetic (onAttributes Attributes.normalStep declared e).2 =
          s.arithmetic e ∧
        s.after (onAttributes Attributes.normalStep declared e).2 = s.after e := by
      cases e <;> exact ⟨rfl, rfl⟩
    rw [thread_cons, ← hd, List.foldl_cons, List.foldl_cons, here.2, elementArithmetic,
      elementArithmetic, here.1, here.2, rest]
    exact ⟨rfl, behind⟩

theorem fits_encodeMeasures_normalStep (part : String) (s : EncodingState) (declared : Bool)
    (ms : List Measure) :
    (encodeMeasures part s
        (thread (Measure.pass (onAttributes Attributes.normalStep)) declared ms).2).fits =
      (encodeMeasures part s ms).fits := by
  induction ms generalizing s declared with
  | nil => rfl
  | cons m ms ih =>
    obtain ⟨here, behind⟩ := elementArithmetic_normalStep s.startMeasure declared m.elements
    have first : (encodeMeasure part s
        (Measure.pass (onAttributes Attributes.normalStep) declared m).2).fits =
          (encodeMeasure part s m).fits := congrArg Checked.fits here
    have last : s.afterMeasure (Measure.pass (onAttributes Attributes.normalStep) declared m).2 =
        s.afterMeasure m := behind
    rw [thread_cons, encodeMeasures, encodeMeasures, Reported.fits_bind, Reported.fits_bind,
      Reported.fits_bind, Reported.fits_bind, first, last, ih]
    rfl

end EncodingState

/-- A part is written to the end or not whatever form its clefs have. -/
theorem fits_encode_normalClefs (p : Part) : p.normalClefs.encode.fits = p.encode.fits := by
  have measures := EncodingState.fits_encodeMeasures_normalStep p.id {} false p.measures
  rw [Part.encode, Part.encode, Reported.fits_bind, Reported.fits_bind]
  exact congrArg (· && true) measures

namespace Machine

section Pass

variable {τ : Type} {step : τ → Attributes → τ × Attributes}

theorem times_pass (t : τ) (cursor : Rat) (es : List Element) :
    times cursor (thread (onAttributes step) t es).2 = times cursor es := by
  induction es generalizing t cursor with
  | nil => rfl
  | cons e es ih =>
    have here : span cursor (onAttributes step t e).2 = span cursor e := by
      cases e <;> rfl
    rw [thread_cons, times, times, here]
    exact congrArg (span cursor e >>= ·) (funext fun cursor => ih _ cursor)

/-- The times of a part do not depend on its attributes, -/
theorem fits_inferAlterations_pass (t : τ) (p : Part) :
    (inferAlterations (p.pass (onAttributes step) t)).fits = (inferAlterations p).fits := by
  have measures := (@map_thread _ _ _ (Measure.pass (onAttributes step)) (fun _ => True)
    (fun m => (times 0 m.elements).fits)
    (fun t m _ => ⟨trivial, congrArg Checked.fits (times_pass t 0 m.elements)⟩) t trivial
    p.measures).2
  have all (ms : List Measure) : (forM ms fun m => times 0 m.elements).fits =
      (ms.map fun m => (times 0 m.elements).fits).all id := by
    rw [Checked.fits_forM, List.all_map]
    rfl
  rw [inferAlterations, inferAlterations, Checked.fits_bind, Checked.fits_bind, all, all,
    ← measures]
  rfl

/-- and its ticks only on whether these declare divisions. -/
theorem fits_toTicks_pass (keeps : KeepsDivisions step) (t : τ) (p : Part) :
    (toTicks (p.pass (onAttributes step) t)).fits = (toTicks p).fits := by
  have divided := hasDivisions_pass keeps t p
  cases h : p.hasDivisions with
  | true => rw [fits_toTicks_of_divided h, fits_toTicks_of_divided (divided.trans h)]
  | false =>
    rw [Bool.eq_iff_iff, fits_toTicks_iff h, fits_toTicks_iff (divided.trans h),
      leastDivisions_pass, durations_pass]

end Pass

end Machine

/-- The last steps are taken with one form of the clefs where they are taken with the other. -/
theorem fits_finish_renumbered {p : Part} (legible : ∀ a ∈ p.attributes, a.Legible) :
    (p.renumbered.finish false).fits = (p.finish false).fits := by
  rw [Part.fits_finish, Part.fits_finish, declareStaves_renumbered legible, Part.normalClefs,
    inferAlterations_pass fun _ _ => rfl, Machine.fits_inferAlterations_pass,
    Machine.fits_toTicks_pass keepsDivisions_normalStep]

/-! ## Notes, backups and forwards -/

/-- Beams do not depend on durations and alterations. -/
theorem carries_bare (s : BeamState) (ns : List Note) :
    s.Carries (ns.map Note.bare) ↔ s.Carries ns := by
  induction ns generalizing s with
  | nil => exact Iff.rfl
  | cons n ns ih => exact and_congr_right fun _ => ih _

theorem sum_ladderFrom_le (divisions : Int) (types : List NoteType) (ticks : Rat) :
    ((ladderFrom divisions types ticks).1.map NoteType.quarters).sum ≤
      (types.map NoteType.quarters).sum := by
  induction types generalizing ticks with
  | nil => exact le_refl 0
  | cons t types ih =>
    rw [ladderFrom]
    dsimp only
    rw [List.map_cons, List.sum_cons]
    split
    · rw [List.map_cons, List.sum_cons]
      exact add_le_add_right (ih _) _
    · exact (ih ticks).trans (le_add_of_nonneg_left t.quarters_pos.le)

/-- A backup or forward that splits into different note types is short. -/
theorem le_of_splits {d : Int} (positive : 0 < d) {e : Element} (splits : e.Splits d) :
    ∀ q ∈ e.skip?, q ≤ 1024 := by
  intro q hq
  obtain ⟨whole, exact⟩ := splits q hq
  have ticks : (0 : Rat) < d := by exact_mod_cast positive
  have sum := sum_ladderFrom d NoteType.all.reverse (q * d).num
  rw [ladder] at exact
  rw [exact, add_zero, Rat.coe_int_num_of_den_eq_one whole] at sum
  have all : (NoteType.all.reverse.map NoteType.quarters).sum ≤ 1024 := by decide +kernel
  rw [← mul_right_cancel₀ ticks.ne' sum]
  exact (sum_ladderFrom_le _ _ _).trans all

/-! ## Texts -/

/-- Where a stream is decoded to the end without a report, what is computed at its notes is computed
when they are read back, and so are the last steps. -/
theorem exists_measuresComputed {ts : List String}
    (clean : (decodeTexts false ts).diagnostics = []) (fits : (decodeTexts false ts).fits = true) :
    ∃ ms, MeasuresRead {} 1 ms ∧
      (decodeTexts false ts).value = ((Part.mk "P1" "" ms).finish false).value ∧
      ((Part.mk "P1" "" ms).finish false).fits = true ∧
      (∀ n ∈ ms.flatMap Measure.notes, n.Lasts) ∧
      ({} : BeamState).Carries (ms.flatMap Measure.notes) ∧
      ∀ i < ms.length, Machine.holds Machine.limit32 (1 + i) = true := by
  rw [decodeTexts, Reported.diagnostics_bind, List.append_eq_nil_iff, decodeTokens_eq,
    Reported.diagnostics_bind, List.append_eq_nil_iff, Reported.diagnostics_bind,
    List.append_eq_nil_iff] at clean
  rw [decodeTexts, Reported.fits_bind, Bool.and_eq_true, decodeTokens_eq, Reported.fits_bind,
    Bool.and_eq_true, Reported.fits_bind, Bool.and_eq_true] at fits
  obtain ⟨-, -, quiet, -⟩ := clean
  obtain ⟨-, -, measures, finish⟩ := fits
  have valid : ∀ cluster ∈ (measureClusters (Token.ofTexts ts).value).value, AllValid cluster :=
    valid_measureClusters fun t ht => Token.valid_ofTexts ht
  rw [decodeTexts, Reported.value_bind, decodeTokens_eq, Reported.value_bind, Reported.value_bind]
  exact ⟨_, measuresRead_decodeMeasures valid quiet, rfl, finish,
    computed_decodeMeasures valid quiet measures⟩

/-- The backups and forwards of a part do not depend on its attributes and alterations. -/
theorem skips_renumbered (p : Part) :
    p.renumbered.elements.filterMap Element.skip? =
      p.inferAlterations.elements.filterMap Element.skip? :=
  (filterMap_of_map_eq (map_elements_pass (onAttributes_keeps fun _ _ => rfl) false p)).trans
    (filterMap_of_map_eq (map_elements_inferAlterations (fun e => by cases e <;> rfl) p)).symm

/-- The last steps keep the notes, up to their durations and alterations. -/
theorem notes_finish (p : Part) :
    ((p.finish false).value.measures.flatMap Measure.notes).map Note.bare =
      (p.measures.flatMap Measure.notes).map Note.bare := by
  have flat (ms : List Measure) : (ms.flatMap Measure.notes).map Note.bare =
      (ms.map (Measure.shown Element.bareNotes)).flatten := by
    rw [List.map_flatMap, List.flatMap_def]
    exact congrArg List.flatten (List.map_congr_left fun m _ => (shown_bareNotes m).symm)
  rw [flat, flat, map_finish (steady_bareNotes false) p]

/-- What was decoded to the end is decoded to the end again. -/
theorem fits_decodeTexts_again {ts : List String}
    (clean : (decodeTexts false ts).diagnostics = []) (fits : (decodeTexts false ts).fits = true)
    (splits : (decodeTexts false ts).value.SkipsSplit) :
    (decodeTexts false (decodeTexts false ts).value.encode.value).fits = true := by
  obtain ⟨ms, read, value, finish, lasts, carries, numbers⟩ := exists_measuresComputed clean fits
  rw [value] at splits ⊢
  obtain ⟨spells, echo, -, d, positive, split⟩ := echo_finish read splits
  have notes := notes_finish (Part.mk "P1" "" ms)
  have count := congrArg List.length (map_finish (steady_bareNotes false) (Part.mk "P1" "" ms))
  rw [List.length_map, List.length_map] at count
  obtain ⟨p, hp⟩ : ∃ p, p = ((Part.mk "P1" "" ms).finish false).value := ⟨_, rfl⟩
  rw [← hp] at spells echo notes count ⊢
  have expressible : AlongMeasures EncodingState.Expressible {} p.measures :=
    AlongMeasures.imp (fun _ _ spells => spells.expressible) spells
  have measures : (decodeMeasures {} 1
      ((measureItems {} p.measures).map fun items => items.flatMap Item.tokens)).fits = true := by
    refine fits_decodeMeasures_items expressible ?_ (fun n hn => ?_) ?_ ?_
    · rwa [count]
    · obtain ⟨n', hn', same⟩ := List.mem_map.mp (notes ▸ List.mem_map_of_mem hn)
      have length : n'.bare.Lasts := lasts n' hn'
      rw [same] at length
      exact length
    · rw [← carries_bare, notes, carries_bare]
      exact carries
    · intro m hm e he q hq
      have mem : q ∈ (Part.mk "P1" "" ms).renumbered.elements.filterMap Element.skip? := by
        rw [← echo]
        exact List.mem_filterMap.mpr ⟨e, List.mem_flatMap.mpr ⟨m, hm, he⟩, hq⟩
      rw [skips_renumbered] at mem
      obtain ⟨e', he', goes⟩ := List.mem_filterMap.mp mem
      exact le_of_splits positive (split e' he') q goes
  rw [fits_decodeTexts_encode expressible, measures, echo, fits_finish_renumbered read.legible,
    finish]
  rfl

/-- **What is decoded without a report is written as tokens that are decoded to the same part**,
with its clefs in normal form, and this part is written as the same tokens.  Only writing the part
may stop, and of moderate texts it does not. -/
theorem decodeTexts_encode_decodeTexts {ts : List String} {p : Part}
    (decoded : (decodeTexts false ts).outcome = some (p, [])) (splits : p.SkipsSplit) :
    (∀ texts reports, p.encode.outcome = some (texts, reports) →
      (decodeTexts false texts).outcome = some (p.normalClefs, []) ∧
        p.normalClefs.encode.outcome.map Prod.fst = some texts) ∧
    ∀ dots, Moderate 17 dots ts → p.encode.outcome.isSome = true := by
  obtain ⟨fits, rfl, clean⟩ := Reported.outcome_eq_some_iff.mp decoded
  obtain ⟨again, same⟩ := value_decodeTexts_encode_decodeTexts clean splits
  have value := congrArg Reported.value again
  have silent := congrArg Reported.diagnostics again
  rw [Reported.value_unbounded, Reported.value_pure] at value
  rw [Reported.diagnostics_unbounded, Reported.diagnostics_pure] at silent
  refine ⟨fun texts reports written => ?_, fun dots moderate => ?_⟩
  · obtain ⟨wrote, rfl, -⟩ := Reported.outcome_eq_some_iff.mp written
    constructor
    · rw [Reported.outcome_of_fits (fits_decodeTexts_again clean fits splits), value, silent]
    · rw [Reported.outcome_of_fits ((fits_encode_normalClefs _).trans wrote), Option.map_some, same]
  · rw [Reported.outcome_of_fits (held_decodeTexts moderate).fits_encode]
    rfl

/-- Two staves, their clefs in descending order, with a beamed chord over a second voice, and a rest
for a measure behind another clef. -/
def grandStaff : List String :=
  ["measure", "key:fifths:1", "time", "beats:3", "beat-type:4", "clef:F4", "staff:2", "clef:G2",
    "staff:1", "E5", "voice:1", "eighth", "staff:1", "beam:begin", "chord", "G5", "eighth", "F5",
    "eighth", "beam:end", "forward", "half", "backup", "half", "backup", "quarter", "C3",
    "voice:2", "half", "dot", "staff:2", "measure", "clef:C3", "rest", "rest:measure"]

theorem stable_grandStaff :
    ∃ p texts, (decodeTexts false grandStaff).outcome = some (p, []) ∧ p.SkipsSplit ∧
      p.encode.outcome = some (texts, []) ∧
      (decodeTexts false texts).outcome = some (p.normalClefs, []) ∧
      p.normalClefs.encode.outcome.map Prod.fst = some texts := by
  obtain ⟨p, hp⟩ : ∃ p, p = (decodeTexts false grandStaff).value := ⟨_, rfl⟩
  have decoded : (decodeTexts false grandStaff).outcome = some (p, []) := by
    rw [hp]
    decide +kernel
  have splits : p.SkipsSplit := by
    rw [hp]
    decide +kernel
  have written : p.encode.outcome = some (p.encode.value, []) := by
    rw [hp]
    decide +kernel
  obtain ⟨again, same⟩ := (decodeTexts_encode_decodeTexts decoded splits).1 _ _ written
  exact ⟨p, _, decoded, splits, written, again, same⟩

/-- A rest with so many dots that its ticks are short, and a measure that is long in such ticks. -/
def shortTicks : List String :=
  ["measure", "rest", "quarter"] ++ List.replicate 57 "dot" ++
    ["measure", "rest", "maxima", "rest", "maxima"]

/-- The time behind the long measure is held in quarters, but not in ticks. -/
theorem shortTicks_unwritten :
    ∃ p, (decodeTexts false shortTicks).outcome = some (p, []) ∧ p.SkipsSplit ∧
      p.encode.outcome = none :=
  ⟨(decodeTexts false shortTicks).value, by decide +kernel, by decide +kernel, by decide +kernel⟩

end LinearScore
