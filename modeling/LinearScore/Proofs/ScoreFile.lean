import LinearScore.RoundTrip
import LinearScore.Proofs.FileText
import LinearScore.Proofs.Systems

/-!
# The file of a score

The file of a score holds its systems, and each part has at least one.  No spelling of a token looks
like a comment or a separator, and so a file that is stored as a text and read again is the file
that was written, if there is a part.  Without parts there is no separator either: the header alone
is written, and it is read as two systems.

The main statements are `Score.writable_encode_iff` and `Score.parse_text_encode`.
-/

namespace LinearScore

/-! ## Systems of a score -/

theorem value_encodeSystems (systems : List Part) :
    (encodeSystems systems).value = systems.map fun system => system.encode.value := by
  induction systems with
  | nil => rfl
  | cons system systems ih => exact congrArg (system.encode.value :: ·) ih

theorem Score.systems_encode (s : Score) :
    s.encode.value.systems =
      (s.parts.flatMap Part.systems).map fun system => system.encode.value :=
  value_encodeSystems _

/-- A part has a system, also if it has no measures. -/
theorem Part.systems_ne_nil (p : Part) : p.systems ≠ [] := by
  intro none
  have lengths := congrArg List.length (p.map_systems fun ms => ms)
  rw [none] at lengths
  by_cases empty : p.measures = []
  · rw [if_pos empty] at lengths
    cases lengths
  · rw [if_neg empty, List.map_id'] at lengths
    refine empty (p.restatedMeasures_eq_nil.mp ?_)
    have cut := flatten_cutBefore Measure.breaks p.restatedMeasures
    rwa [List.length_eq_zero_iff.mp lengths.symm, List.flatten_nil, eq_comm] at cut

theorem Score.systems_encode_eq_nil {s : Score} :
    s.encode.value.systems = [] ↔ s.parts = [] := by
  rw [systems_encode, List.map_eq_nil_iff, List.flatMap_eq_nil_iff, List.eq_nil_iff_forall_not_mem]
  exact forall₂_congr fun p _ => iff_false_intro p.systems_ne_nil

/-! ## What is written -/

/-- A part is written in spellings, -/
theorem Part.isSpelling_of_mem_encode {p : Part} :
    ∀ token ∈ p.encode.value, isSpelling token = true := by
  intro token mem
  obtain ⟨t, -, rfl⟩ := List.mem_map.mp mem
  exact isSpelling_text t

/-- and no spelling looks like a comment or a separator. -/
theorem isPlain_of_isSpelling {token : String} (h : isSpelling token = true) :
    TokenFile.IsPlain token ∧ token ≠ TokenFile.separator := by
  refine ⟨⟨isWord_of_isSpelling h, fun hash => ?_⟩, ?_⟩
  · exact absurd (List.all_eq_true.mp (Bool.and_eq_true_iff.mp h).1 '#' hash) (by decide)
  · rintro rfl
    exact absurd h (by decide +kernel)

namespace Score

/-- The file of a score can be written, but for a score without parts. -/
theorem writable_encode_iff (s : Score) : s.encode.value.Writable ↔ s.parts ≠ [] := by
  refine ⟨fun h => mt systems_encode_eq_nil.mpr h.opened, fun parts => ?_⟩
  have written : ∀ tokens ∈ s.encode.value.systems, ∀ token ∈ tokens,
      TokenFile.IsPlain token ∧ token ≠ TokenFile.separator := by
    rw [systems_encode]
    exact List.forall_mem_map.mpr fun system _ token ht =>
      isPlain_of_isSpelling (Part.isSpelling_of_mem_encode token ht)
  refine ⟨mt systems_encode_eq_nil.mp parts, ?_, fun tokens mem token ht =>
    (written tokens mem token ht).1⟩
  rintro tokens mem rfl
  exact (written _ mem _ (List.mem_singleton_self _)).2 rfl

/-! ## What is read -/

/-- The file of a score without parts is the empty one, whatever else the score states. -/
theorem encode_of_parts_eq_nil {s : Score} (partless : s.parts = []) : s.encode.value = {} := by
  rw [encode, partless]
  rfl

/-- The words of the header are no tokens. -/
theorem diagnostics_decode_header (quarters : Bool) :
    (TokenFile.decode quarters
      { systems := [["version:", TokenFile.version], ["flavor:", Flavor.core.name]] }).diagnostics ≠
        [] := by
  cases quarters <;> decide +kernel

/-- **A score with a part is read from the text of its file.**  The text of the file of a score is
read as that file, and the file that is read denotes what the one that was written does, just if the
score has a part. -/
theorem parse_text_encode (s : Score) :
    (TokenFile.parse s.encode.value.text = .ok s.encode.value ↔ s.parts ≠ []) ∧
      ∀ quarters, (TokenFile.parse s.encode.value.text).map (TokenFile.decode quarters) =
        .ok (s.encode.value.decode quarters) ↔ s.parts ≠ [] := by
  by_cases partless : s.parts = []
  · rw [encode_of_parts_eq_nil partless, TokenFile.parse_text_of_nil rfl]
    refine ⟨iff_of_false (fun same => ?_) (absurd partless),
      fun quarters => iff_of_false (fun same => ?_) (absurd partless)⟩
    · cases congrArg TokenFile.systems (Except.ok.inj same)
    · exact diagnostics_decode_header quarters (congrArg Reported.diagnostics (Except.ok.inj same))
  · have same := TokenFile.parse_text_of_writable (s.writable_encode_iff.mpr partless)
    rw [same]
    exact ⟨iff_of_true rfl partless, fun quarters => iff_of_true rfl partless⟩

/-- Without parts the two lines of the header come back as systems. -/
theorem parse_text_encode_without_parts :
    TokenFile.parse ({} : Score).encode.value.text =
        .ok { systems := [["version:", "1.0"], ["flavor:", "core"]] } ∧
      TokenFile.parse ({} : Score).encode.value.text ≠ .ok ({} : Score).encode.value := by
  decide +kernel

end Score

end LinearScore
