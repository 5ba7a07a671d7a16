import Mathlib.Data.Rat.Floor
import Mathlib.Algebra.BigOperators.Field
import Mathlib.Algebra.Order.BigOperators.Group.Finset
import LinearScore.Proofs.HeldEncoding
import LinearScore.Proofs.HeldStreams
import LinearScore.Proofs.QuarterTokens
import LinearScore.Proofs.Words

/-!
# Ladders are binary expansions

Each note type lasts twice as long as the one before, so taking the longest type that still fits is
reading the binary digits of a length, from the highest one.  The unit is the shortest type, which
lasts the 256th part of a quarter; a length that is longer than all types together takes every one
of them, as the largest number of fourteen digits does.

The ladder that is written for a backup or forward is read as one backup or forward, which lasts
as long as its types do, whether or not something remains.

## Main definitions

* `units`: the whole units that a number of ticks holds, as far as fourteen digits go

The main statements are `ladder_eq` and `ladder_expands`.
-/

namespace LinearScore

/-- The whole units of a 256th of a quarter that some ticks hold, up to the largest number of
fourteen binary digits. -/
def units (ticks : Rat) (divisions : Int) : Nat := min ⌊256 * ticks / divisions⌋₊ (2 ^ 14 - 1)

namespace NoteType

/-- A note type lasts a power of two of units. -/
theorem quarters_eq (t : NoteType) : t.quarters = ((2 ^ t.rank : Nat) : Rat) / 256 := by
  rw [quarters]
  norm_cast

theorem mem_all (t : NoteType) : t ∈ all := by
  cases t <;> decide

theorem nodup_reverse_all : all.reverse.Nodup := by
  decide

/-- The ranks of all types descend to zero. -/
theorem map_rank_reverse_all : all.reverse.map rank = (List.range 14).reverse := by
  decide

/-- Different note types last at most as many units as all of them together. -/
theorem sum_units_le (types : Finset NoteType) : ∑ t ∈ types, 2 ^ t.rank ≤ 2 ^ 14 - 1 := by
  have all : types ⊆ NoteType.all.toFinset := fun t _ => List.mem_toFinset.mpr t.mem_all
  calc ∑ t ∈ types, 2 ^ t.rank
      ≤ ∑ t ∈ NoteType.all.toFinset, 2 ^ t.rank :=
        Finset.sum_le_sum_of_subset all
    _ = 2 ^ 14 - 1 := by decide

/-- Different note types last their units together. -/
theorem sum_quarters_eq (types : Finset NoteType) :
    ∑ t ∈ types, t.quarters = ((∑ t ∈ types, 2 ^ t.rank : Nat) : Rat) / 256 := by
  rw [Nat.cast_sum, Finset.sum_div]
  exact Finset.sum_congr rfl fun t _ => t.quarters_eq

end NoteType

/-! ## One digit -/

section Digit

variable {n k : Nat}

theorem min_digits_of_le (fits : 2 ^ k ≤ n) :
    min n (2 ^ (k + 1) - 1) = 2 ^ k + min (n - 2 ^ k) (2 ^ k - 1) := by
  have positive : 0 < 2 ^ k := Nat.two_pow_pos k
  omega

theorem min_digits_of_lt (short : n < 2 ^ k) :
    min n (2 ^ (k + 1) - 1) = min n (2 ^ k - 1) := by
  omega

theorem min_digits_lt (n k : Nat) : min n (2 ^ k - 1) < 2 ^ k := by
  have positive : 0 < 2 ^ k := Nat.two_pow_pos k
  omega

end Digit

/-! ## The ladder -/

section Ladder

variable {d : Int} (positive : 0 < d)
include positive

/-- A type fits where its units do. -/
theorem fits_iff {t : NoteType} {ticks : Rat} (h : 0 ≤ ticks) :
    (0 < ticks ∧ 0 < t.quarters * d) ∧ t.quarters * d ≤ ticks ↔
      2 ^ t.rank ≤ ⌊256 * ticks / d⌋₊ := by
  have known : (0 : Rat) < d := by exact_mod_cast positive
  have step : 0 < t.quarters * d := mul_pos t.quarters_pos known
  have held : 0 ≤ 256 * ticks / d := div_nonneg (mul_nonneg (by norm_num) h) known.le
  have scaled : ((2 ^ t.rank : Nat) : Rat) = 256 * t.quarters := by
    rw [t.quarters_eq, mul_div_cancel₀ _ (by norm_num)]
  rw [Nat.le_floor_iff held, le_div_iff₀ known, scaled, mul_assoc,
    mul_le_mul_iff_right₀ (by norm_num)]
  constructor
  · rintro ⟨-, fits⟩
    exact fits
  · intro fits
    exact ⟨⟨lt_of_lt_of_le step fits, step⟩, fits⟩

/-- Taking a type takes its units. -/
theorem floor_sub_step (t : NoteType) (ticks : Rat) :
    ⌊256 * (ticks - t.quarters * d) / d⌋₊ = ⌊256 * ticks / d⌋₊ - 2 ^ t.rank := by
  have known : (d : Rat) ≠ 0 := by exact_mod_cast positive.ne'
  have rest :
      256 * (ticks - t.quarters * d) / d = 256 * ticks / d - ((2 ^ t.rank : Nat) : Rat) := by
    rw [t.quarters_eq]
    field_simp
  rw [rest, Nat.floor_sub_natCast]

/-- **The ladder reads binary digits.**  Of types whose ranks descend to zero it takes those whose
digit is set in the units that the ticks hold, and takes these units away. -/
theorem ladderFrom_eq {k : Nat} {types : List NoteType}
    (ranks : types.map NoteType.rank = (List.range k).reverse) {ticks : Rat} (h : 0 ≤ ticks) :
    ladderFrom d types ticks =
      (types.filter fun t => (min ⌊256 * ticks / d⌋₊ (2 ^ k - 1)).testBit t.rank,
        ticks - (min ⌊256 * ticks / d⌋₊ (2 ^ k - 1) : Nat) / 256 * d) := by
  induction k generalizing types ticks with
  | zero =>
    obtain rfl : types = [] := List.map_eq_nil_iff.mp ranks
    rw [ladderFrom, pow_zero, Nat.sub_self, Nat.min_zero]
    simp
  | succ k ih =>
    obtain ⟨t, types, rfl⟩ : ∃ t rest, types = t :: rest := by
      cases types with
      | nil => simp at ranks
      | cons t types => exact ⟨t, types, rfl⟩
    rw [List.range_succ, List.reverse_append, List.map_cons] at ranks
    obtain ⟨rank, ranks⟩ : t.rank = k ∧ types.map NoteType.rank = (List.range k).reverse :=
      List.cons.inj ranks
    have below : ∀ u ∈ types, u.rank < k := by
      intro u hu
      have mem := List.mem_map_of_mem (f := NoteType.rank) hu
      rw [ranks, List.mem_reverse] at mem
      exact List.mem_range.mp mem
    have fits := fits_iff positive (t := t) h
    rw [rank] at fits
    rw [ladderFrom]
    simp only [Bool.and_eq_true, decide_eq_true_eq, fits]
    split
    · -- the digit is set, and the others are those of the rest
      rename_i set
      have rest : 0 ≤ ticks - t.quarters * d := sub_nonneg.mpr (fits.mpr set).2
      have digits := min_digits_of_le set
      rw [ih ranks rest, floor_sub_step positive, rank, digits, List.filter_cons_of_pos]
      · refine Prod.ext (congrArg (t :: ·) (List.filter_congr fun u hu => ?_)) ?_
        · rw [Nat.testBit_two_pow_add_gt (below u hu)]
        · rw [t.quarters_eq, rank]
          push_cast
          ring
      · rw [rank, Nat.testBit_two_pow_add_eq, Nat.testBit_lt_two_pow (min_digits_lt _ _)]
        rfl
    · rename_i unset
      have short := Nat.lt_of_not_le unset
      have digits := min_digits_of_lt short
      rw [ih ranks h, digits, List.filter_cons_of_neg]
      rw [rank, Nat.testBit_lt_two_pow (min_digits_lt _ _)]
      exact Bool.false_ne_true

/-- The whole ladder. -/
theorem ladder_eq {ticks : Int} (h : 0 ≤ ticks) :
    ladder ticks d =
      (NoteType.all.reverse.filter fun t => (units ticks d).testBit t.rank,
        (ticks : Rat) - (units ticks d : Rat) / 256 * d) := by
  have held : (0 : Rat) ≤ ticks := by exact_mod_cast h
  exact ladderFrom_eq positive NoteType.map_rank_reverse_all held

/-- The units do not exceed the ticks. -/
theorem remainder_nonneg {ticks : Int} (h : 0 ≤ ticks) : 0 ≤ (ladder ticks d).2 := by
  have known : (0 : Rat) < d := by exact_mod_cast positive
  have held : (0 : Rat) ≤ 256 * ticks / d :=
    div_nonneg (mul_nonneg (by norm_num) (by exact_mod_cast h)) known.le
  have bounded : (units ticks d : Rat) ≤ 256 * ticks / d :=
    (Nat.cast_le.mpr (Nat.min_le_left _ _)).trans (Nat.floor_le held)
  rw [le_div_iff₀ known] at bounded
  rw [ladder_eq positive h]
  dsimp only
  linarith

/-- Nothing remains exactly where the ticks are a sum of different note types. -/
theorem remainder_eq_zero_iff {ticks : Int} (h : 0 ≤ ticks) :
    (ladder ticks d).2 = 0 ↔
      ∃ types : Finset NoteType, ∑ t ∈ types, t.quarters = (ticks : Rat) / d := by
  have known : (d : Rat) ≠ 0 := by exact_mod_cast positive.ne'
  constructor
  · intro none
    refine ⟨(ladder ticks d).1.toFinset, ?_⟩
    have sum := sum_ladderFrom d NoteType.all.reverse ticks
    have distinct : (ladder ticks d).1.Nodup := by
      rw [ladder_eq positive h]
      dsimp only
      exact NoteType.nodup_reverse_all.filter _
    rw [List.sum_toFinset _ distinct, eq_div_iff known]
    rw [ladder] at none ⊢
    rw [none, add_zero] at sum
    exact sum
  · rintro ⟨types, sum⟩
    have held : (256 : Rat) * ticks / d = (∑ t ∈ types, 2 ^ t.rank : Nat) := by
      rw [mul_div_assoc, ← sum, NoteType.sum_quarters_eq, mul_div_cancel₀ _ (by norm_num)]
    have whole : units ticks d = ∑ t ∈ types, 2 ^ t.rank := by
      rw [units, held, Nat.floor_natCast]
      exact Nat.min_eq_left (NoteType.sum_units_le types)
    rw [ladder_eq positive h, whole, ← held]
    field_simp
    ring

end Ladder

/-! ## What a ladder is read as -/

/-- The decoded part whose one measure holds one element. -/
def Part.single (e : Element) : Part := ⟨"P1", "", [{ number := 1, elements := [e] }]⟩

section Reading

variable {marker : Terminal} (skips : marker = .backup ∨ marker = .forward)
include skips

theorem orderChords_piece (duration : Rat) :
    orderChords (mergeSkips [piece marker duration]) = [piece marker duration] := by
  rcases skips with rfl | rfl
  · rfl
  · rfl

theorem finish_single (duration : Rat) :
    ((Part.single (piece marker duration)).finish true).unbounded =
      pure (Part.single (piece marker duration)) := by
  rw [Part.unbounded_finish]
  rcases skips with rfl | rfl
  · rfl
  · rfl

variable {types : List NoteType} (some : types ≠ [])
include some

/-- Pairs of a marker and a note type are decoded to one backup or forward. -/
theorem decodeTokens_pairs :
    (decodeTokens true ((Terminal.measure :: types.flatMap fun t => [marker, .noteType t]).map
        Token.unplaced)).unbounded =
      pure (Part.single (piece marker (types.map NoteType.quarters).sum)) := by
  obtain ⟨items, hitems⟩ :
    ∃ items, items = types.map fun t => Item.spelled [marker] (.noteType t) [] := ⟨_, rfl⟩
  have tokens : (types.flatMap fun t => [marker, .noteType t]).map Token.unplaced =
      items.flatMap Item.tokens := by
    rw [hitems, List.flatMap_map, List.map_flatMap]
    rfl
  have wellformed : ∀ item ∈ items, item.Wellformed := by
    rw [hitems, List.forall_mem_map]
    intro t _
    refine ⟨rfl, List.forall_mem_singleton.mpr ?_, List.forall_mem_nil _⟩
    rcases skips with rfl | rfl
    · rfl
    · rfl
  have undelimited : ∀ t ∈ items.flatMap Item.tokens, t.terminal ≠ .measure := by
    intro t ht
    obtain ⟨item, hi, ht⟩ := List.mem_flatMap.mp ht
    exact (wellformed item hi).ne_measure t ht
  have cluster : measureClusters (Token.unplaced .measure :: items.flatMap Item.tokens) =
      pure [items.flatMap Item.tokens] := by
    have one := @measureClusters_flatMap (Token.unplaced .measure) rfl [items.flatMap Item.tokens]
      (List.forall_mem_singleton.mpr undelimited)
    rwa [List.flatMap_singleton] at one
  have read := decodeItems_pieces {} none [] skips some
  have merged := mergeSkips_pieces marker some []
  rw [List.append_nil, ← hitems] at read
  rw [List.append_nil] at merged
  have measure : (decodeMeasures {} 1 [items.flatMap Item.tokens]).unbounded =
      pure [⟨1, false, false, false, [piece marker (types.map NoteType.quarters).sum]⟩] := by
    have value := congrArg Reported.value read
    have silent := congrArg Reported.diagnostics read
    rw [Reported.value_unbounded] at value
    rw [Reported.diagnostics_unbounded] at silent
    have start : ({ ({} : DecodingState) with sticky := {} } : DecodingState) = {} := rfl
    refine Reported.ext ?_ ?_ rfl
    · rw [Reported.value_unbounded, value_decodeMeasures_cons, Item.ofTokens_flatMap wellformed,
        start, Reported.value_pure, value]
      show [Measure.mk 1 false false false (orderChords (mergeSkips
        (types.map (fun t => piece marker t.quarters) ++ [])))] = _
      rw [List.append_nil, merged, orderChords_piece skips]
      rfl
    · rw [Reported.diagnostics_unbounded, decodeMeasures, Reported.diagnostics_bind,
        diagnostics_decodeMeasure, Item.ofTokens_flatMap wellformed, start, Reported.value_pure,
        silent]
      rfl
  rw [List.map_cons, tokens, decodeTokens_eq, cluster, pure_bind, Reported.unbounded_bind, measure,
    pure_bind]
  exact finish_single skips _

/-- What is written for them is a word for each marker and each note type. -/
theorem decodeText_pairs :
    (decodeText true (" ".intercalate ((Terminal.measure ::
        types.flatMap fun t => [marker, .noteType t]).map Terminal.text))).unbounded =
      pure (Part.single (piece marker (types.map NoteType.quarters).sum)) := by
  obtain ⟨terminals, hterminals⟩ : ∃ terminals, terminals = Terminal.measure ::
    types.flatMap fun t => [marker, .noteType t] := ⟨_, rfl⟩
  have valid : ∀ t ∈ terminals, t.valid = true := by
    rw [hterminals]
    refine List.forall_mem_cons.mpr ⟨rfl, fun t ht => ?_⟩
    obtain ⟨u, -, ht⟩ := List.mem_flatMap.mp ht
    rcases List.mem_pair.mp ht with rfl | rfl
    · rcases skips with rfl | rfl
      · rfl
      · rfl
    · rfl
  have words : Text.words (" ".intercalate (terminals.map Terminal.text)) =
      terminals.map Terminal.text := by
    apply words_intercalate
    refine List.forall_mem_map.mpr fun t _ => ?_
    exact isWord_of_isSpelling (isSpelling_text t)
  have read := decodeTokens_pairs skips some
  rw [← hterminals] at read
  rw [← hterminals, decodeText, words, decodeTexts]
  have value := congrArg Reported.value read
  have silent := congrArg Reported.diagnostics read
  rw [Reported.value_unbounded] at value
  rw [Reported.diagnostics_unbounded] at silent
  refine Reported.ext ?_ ?_ rfl
  · rw [Reported.value_unbounded, Reported.value_bind, value_decodeTokens,
      Token.ofTexts_map_text valid, value]
  · rw [Reported.diagnostics_unbounded, Reported.diagnostics_bind,
      Token.diagnostics_ofTexts_map_text valid, List.nil_append]
    show _ = []
    rw [diagnostics_decodeTokens_eq_nil, Token.ofTexts_map_text valid, silent]
    rfl

/-- A ladder has few words, and no note is read of them, so they are decoded to the end. -/
theorem outcome_pairs (few : types.length ≤ 14) :
    (decodeText true (" ".intercalate ((Terminal.measure ::
        types.flatMap fun t => [marker, .noteType t]).map Terminal.text))).outcome =
      .some (Part.single (piece marker (types.map NoteType.quarters).sum), []) := by
  have read := decodeText_pairs skips some
  obtain ⟨texts, ht⟩ : ∃ texts, texts = (Terminal.measure ::
    types.flatMap fun t => [marker, .noteType t]).map Terminal.text := ⟨_, rfl⟩
  rw [← ht] at read ⊢
  have words : Text.words (" ".intercalate texts) = texts := by
    apply words_intercalate
    rw [ht]
    exact List.forall_mem_map.mpr fun t _ => isWord_of_isSpelling (isSpelling_text t)
  have value := congrArg Reported.value read
  have silent := congrArg Reported.diagnostics read
  have moderate : Moderate 25 0 (Text.words (" ".intercalate texts)) := by
    refine ⟨Nat.zero_le _, ?_, ?_⟩
    · have length : texts.length = 2 * types.length + 1 := by
        rw [ht, List.length_map, List.length_cons, List.length_flatMap]
        simp [Nat.mul_comm]
      rw [words, length]
      omega
    · show ∀ m ∈ (decodeText true (" ".intercalate texts)).value.measures, _
      rw [← Reported.value_unbounded, value]
      refine List.forall_mem_singleton.mpr fun n hn => ?_
      rcases skips with rfl | rfl
      · cases hn
      · cases hn
  refine (Reported.outcome_of_fits (moderate.fits_decodeTexts true)).trans ?_
  exact congrArg Option.some (Prod.ext value silent)

end Reading

/-- The tokens of a backup or forward that lasts positive ticks are those of its note types. -/
theorem writtenTexts_ladder {ticks d : Int} (h : 0 < ticks) {marker : Terminal}
    (skips : marker = .backup ∨ marker = .forward) :
    writtenTexts (skipEmissions (some d) marker ticks) =
      ((ladder ticks d).1.flatMap fun t => [marker, .noteType t]).map Terminal.text := by
  have pairs (types : List NoteType) :
      (types.flatMap fun t => [Emission.token marker, .token (.noteType t)]).filterMap
        Emission.terminal? = types.flatMap fun t => [marker, .noteType t] := by
    rw [List.filterMap_flatMap]
    refine List.flatMap_congr fun t _ => ?_
    rcases skips with rfl | rfl
    · rfl
    · rfl
  unfold skipEmissions
  dsimp only
  rw [if_neg (by simpa using h), writtenTexts_append, writtenTexts_faultIf, List.append_nil,
    Rat.num_intCast, writtenTexts, pairs]

/-- A ladder has no more than fourteen note types. -/
theorem length_ladder_le {ticks d : Int} (positive : 0 < d) (h : 0 ≤ ticks) :
    (ladder ticks d).1.length ≤ 14 := by
  rw [ladder_eq positive h]
  exact (List.length_filter_le _ _).trans (Nat.le_refl 14)

/-- **Ladders are binary expansions.**  The note types of some ticks, if they are computed, are,
from the longest to the shortest, those whose binary digit is set in the number of 256ths of a
quarter that the ticks hold, up to all fourteen digits.  What remains is not negative, and nothing
remains exactly where the ticks are a sum of different note types.  If there are note types, then
what is written of a backup or forward is read, without a report, as one backup or forward that
lasts as long as they do.  They are computed where the longest type is held in ticks, and the ticks
in units of the shortest type. -/
theorem ladder_expands {ticks d : Int} (h : 0 < ticks) (positive : 0 < d) :
    (∀ types remainder, (Machine.ladder ticks d).outcome = some (types, remainder) →
      types = NoteType.all.reverse.filter (fun t =>
        (min ⌊256 * (ticks : Rat) / d⌋₊ (2 ^ 14 - 1)).testBit t.rank) ∧
      remainder = ticks - (types.map NoteType.quarters).sum * d ∧
      0 ≤ remainder ∧
      (remainder = 0 ↔
        ∃ types : Finset NoteType, ∑ t ∈ types, t.quarters = (ticks : Rat) / d) ∧
      (types ≠ [] → ∀ marker, marker = .backup ∨ marker = .forward →
        (decodeText true (" ".intercalate
            (Terminal.measure.text ::
              writtenTexts (skipEmissions (some d) marker ticks)))).outcome =
          some (Part.single (piece marker ((ticks - remainder) / d)), []))) ∧
    (32 * d < Machine.limit64 → 256 * ticks < Machine.limit64 →
      (Machine.ladder ticks d).outcome.isSome = true) := by
  constructor
  · intro types remainder computed
    rw [Checked.outcome_eq_some_iff, Machine.value_ladder] at computed
    have known : (0 : Rat) < d := by exact_mod_cast positive
    have expansion := ladder_eq positive h.le
    have sum : (ladder ticks d).2 =
        ticks - ((ladder ticks d).1.map NoteType.quarters).sum * d := by
      rw [eq_sub_iff_add_eq', ladder, sum_ladderFrom]
    have kept : ((ladder ticks d).1.map NoteType.quarters).sum =
        (ticks - (ladder ticks d).2) / d := by
      rw [eq_div_iff known.ne', sum, sub_sub_cancel]
    have nonneg := remainder_nonneg positive h.le
    have exact_iff := remainder_eq_zero_iff positive h.le
    have read (some : (ladder ticks d).1 ≠ []) (marker : Terminal)
        (skips : marker = .backup ∨ marker = .forward) :
        (decodeText true (" ".intercalate (Terminal.measure.text ::
            writtenTexts (skipEmissions (.some d) marker ticks)))).outcome =
          .some (Part.single (piece marker ((ticks - (ladder ticks d).2) / d)), []) := by
      rw [writtenTexts_ladder h skips, ← List.map_cons,
        outcome_pairs skips some (length_ladder_le positive h.le), kept]
    have types_eq := congrArg Prod.fst expansion
    obtain ⟨-, value⟩ := computed
    rw [value] at sum nonneg exact_iff read types_eq
    exact ⟨types_eq, sum, nonneg, exact_iff, read⟩
  · intro longest short
    rw [Checked.outcome_of_fits (Machine.fits_ladder positive longest short)]
    rfl

/-- Seven ticks of a third of a quarter hold 597 units, and a third of a unit remains. -/
theorem ladder_sevenThirds :
    (Machine.ladder 7 3).outcome = some ([.half, .d16, .d64, .d256, .d1024], 1 / 256) ∧
      (¬ ∃ types : Finset NoteType, ∑ t ∈ types, t.quarters = ((7 : Int) : Rat) / (3 : Int)) ∧
      (decodeText true
          "measure backup half backup 16th backup 64th backup 256th backup 1024th").outcome =
        some (Part.single (.backup (597 / 256)), []) := by
  have types : (Machine.ladder 7 3).outcome =
      some ([.half, .d16, .d64, .d256, .d1024], 1 / 256) := by decide +kernel
  have text : " ".intercalate
      (Terminal.measure.text :: writtenTexts (skipEmissions (some 3) .backup (7 : Int))) =
        "measure backup half backup 16th backup 64th backup 256th backup 1024th" := by
    decide +kernel
  obtain ⟨-, -, -, exact_iff, read⟩ :=
    (@ladder_expands 7 3 (by decide) (by decide)).1 _ _ types
  refine ⟨types, fun sum => ?_, ?_⟩
  · exact absurd (exact_iff.mpr sum) (by decide +kernel)
  · have backup := read (List.cons_ne_nil _ _) .backup (.inl rfl)
    have length : (((7 : Int) : Rat) - 1 / 256) / (3 : Int) = 597 / 256 := by norm_num
    rw [text, length] at backup
    exact backup

/-- The longest note type would last more ticks than are held, although it is not taken. -/
theorem finestTicks_stop : (Machine.ladder (2 ^ 62) (5 * 2 ^ 57)).outcome = none := by
  decide +kernel

end LinearScore
