import Mathlib.Data.List.SplitLengths
import LinearScore.Proofs.SystemsOfFile

/-!
# What the check of a part checks

The check decodes the tokens of each system as they are.  A file goes another way: it joins the
tokens of each system to one text, cuts this text into words again, marks and numbers the measures
that they are decoded to, and puts them behind those of the other systems.  What a file contributes
for a system has the same elements nevertheless, so the check of a part says of the file of this
part what it says of its systems.

## Main definitions

* `TokenFile.decodedMeasures`: the measures that each system of a file is decoded to on its own
* `TokenFile.contributions`: the measures that each system contributes to the part of a file

The main statement is `check_agrees_iff`.
-/

namespace LinearScore

/-! ## Checks in a row -/

/-- Where a function succeeds on all members of a list, it succeeds on each of them. -/
theorem getElem?_of_mapM {ε α β : Type} {f : α → Except ε β} {as : List α} {bs : List β}
    (h : as.mapM f = .ok bs) :
    bs.length = as.length ∧
      ∀ (k : Nat) (b : β), bs[k]? = some b → ∃ a, as[k]? = some a ∧ f a = .ok b := by
  induction as generalizing bs with
  | nil =>
    obtain rfl : [] = bs := Except.ok.inj h
    exact ⟨rfl, fun k b hk => nomatch hk⟩
  | cons a as ih =>
    rw [List.mapM_cons] at h
    cases first : f a with
    | error e =>
      rw [first] at h
      cases h
    | ok b =>
      cases others : as.mapM f with
      | error e =>
        rw [first, others] at h
        cases h
      | ok rest =>
        rw [first, others] at h
        obtain rfl : b :: rest = bs := Except.ok.inj h
        obtain ⟨length, each⟩ := ih others
        refine ⟨congrArg (· + 1) length, fun k c hk => ?_⟩
        cases k with
        | zero => exact ⟨a, rfl, first.trans (congrArg Except.ok (Option.some.inj hk))⟩
        | succ k => exact each k c hk

/-- The check of a system that can be converted. -/
theorem checkSystem_eq_ok {index : Nat} {system : Part} {check : SystemCheck}
    (h : checkSystem index system = .ok check) :
    system.toQuarters.outcome = .ok () ∧ check.system = index ∧
      check.agrees = system.toQuarters.part.dropEmptyAttributes.sameContent
        (decodeTexts true system.encode.value).value := by
  unfold checkSystem at h
  dsimp only at h
  cases outcome : system.toQuarters.outcome with
  | error fault =>
    rw [outcome] at h
    cases h
  | ok =>
    rw [outcome] at h
    obtain rfl := Except.ok.inj h
    exact ⟨rfl, rfl, rfl⟩

/-- There is a check for each system, at the place of the system. -/
theorem getElem?_check {p : Part} {checks : List SystemCheck} (h : p.check = .ok checks) :
    checks.length = p.systems.length ∧
      ∀ (k : Nat) (check : SystemCheck), checks[k]? = some check →
        ∃ system, p.systems[k]? = some system ∧ checkSystem k system = .ok check := by
  obtain ⟨length, each⟩ := getElem?_of_mapM h
  rw [List.length_zipIdx] at length
  refine ⟨length, fun k check hk => ?_⟩
  obtain ⟨⟨system, index⟩, place, checked⟩ := each k check hk
  rw [List.getElem?_zipIdx, Option.map_eq_some_iff] at place
  obtain ⟨other, found, pair⟩ := place
  obtain ⟨rfl, rfl⟩ := Prod.mk.inj pair
  rw [Nat.zero_add] at checked
  exact ⟨_, found, checked⟩

/-! ## What a file contributes for each system -/

namespace TokenFile

/-- The measures that each system of a file is decoded to on its own. -/
def decodedMeasures (quarters : Bool) (file : TokenFile) : List (List Measure) :=
  file.systems.map fun tokens =>
    (decodeText quarters (String.intercalate " " tokens)).value.measures

/-- The measures of the part that a file denotes, in runs for its systems: each system contributes
as many as it is decoded to on its own. -/
def contributions (quarters : Bool) (file : TokenFile) : List (List Measure) :=
  ((file.decodedMeasures quarters).map List.length).splitLengths
    (file.decode quarters).value.measures

end TokenFile

theorem joinSystems_eq (systems : List (List Measure)) :
    joinSystems true systems = (markedSystems false systems).flatten := by
  have others (systems : List (List Measure)) :
      joinSystems false systems = (systems.map (markSystem true)).flatten := by
    induction systems with
    | nil => rfl
    | cons ms systems ih => exact congrArg (_ ++ ·) ih
  cases systems with
  | nil => rfl
  | cons ms systems => exact congrArg (_ ++ ·) (others systems)

section Numbered

variable {β : Type} {f : Measure → β} (unplaced : ∀ m number, f { m with number } = f m)
  (unmarked : ∀ m starts, f { m with newSystem := starts } = f m)
include unplaced unmarked

/-- Numbers and marks of systems are all that changes when systems are joined. -/
theorem map_numbered (systems : List (List Measure)) :
    (thread numberSystem 1 (markedSystems false systems)).2.map (List.map f) =
      systems.map (List.map f) := by
  have numbered (number : Int) (ms : List Measure) :
      (renumber number ms).map f = ms.map f := by
    induction ms generalizing number with
    | nil => rfl
    | cons m ms ih => exact congrArg₂ List.cons (unplaced m number) (ih (number + 1))
  have marked (starts : Bool) (ms : List Measure) : (markSystem starts ms).map f = ms.map f := by
    cases ms with
    | nil => rfl
    | cons m ms => exact congrArg (· :: ms.map f) (unmarked m starts)
  rw [@map_thread_keeps _ _ _ _ numberSystem (List.map f) (List.map f)
    fun number ms => numbered number ms]
  cases systems with
  | nil => rfl
  | cons ms systems =>
    rw [markedSystems, List.map_cons, marked, List.map_map, List.map_cons]
    exact congrArg (_ :: ·) (List.map_congr_left fun ms _ => marked true ms)

end Numbered

/-- The part of a file is what its systems are decoded to, marked and numbered. -/
theorem measures_decode_eq (quarters : Bool) (file : TokenFile) :
    (file.decode quarters).value.measures =
      (thread numberSystem 1 (markedSystems false (file.decodedMeasures quarters))).2.flatten := by
  rw [← renumber_flatten, ← joinSystems_eq]
  show renumber 1 (TokenFile.decodeSystems quarters true file.systems).value = _
  rw [value_decodeSystems]
  rfl

theorem contributions_eq (quarters : Bool) (file : TokenFile) :
    file.contributions quarters =
      (thread numberSystem 1 (markedSystems false (file.decodedMeasures quarters))).2 := by
  have lengths : (file.decodedMeasures quarters).map List.length =
      (thread numberSystem 1 (markedSystems false (file.decodedMeasures quarters))).2.map
        List.length := by
    have same := congrArg (List.map List.length) (@map_numbered Unit (fun _ => ())
      (fun _ _ => rfl) (fun _ _ => rfl) (file.decodedMeasures quarters))
    simpa [Function.comp_def] using same.symm
  rw [TokenFile.contributions, measures_decode_eq, lengths, splitLengths_flatten]

/-- The runs put together are the part. -/
theorem flatten_contributions (quarters : Bool) (file : TokenFile) :
    (file.contributions quarters).flatten = (file.decode quarters).value.measures := by
  rw [contributions_eq, measures_decode_eq]

/-- The elements of a run are those that the system is decoded to. -/
theorem map_elements_contributions (quarters : Bool) (file : TokenFile) :
    (file.contributions quarters).map (List.map (·.elements)) =
      (file.decodedMeasures quarters).map (List.map (·.elements)) := by
  rw [contributions_eq]
  exact map_numbered (fun _ _ => rfl) (fun _ _ => rfl) _

/-- The words of the file of a score are the tokens of its systems. -/
theorem decodedMeasures_encode (quarters : Bool) (s : Score) :
    s.encode.value.decodedMeasures quarters = (s.parts.flatMap Part.systems).map fun system =>
      (decodeTexts quarters system.encode.value).value.measures := by
  rw [TokenFile.decodedMeasures, s.systems_encode, List.map_map]
  refine List.map_congr_left fun system _ => ?_
  rw [Function.comp_apply, decodeText, words_intercalate fun w hw =>
    isWord_of_isSpelling (Part.isSpelling_of_mem_encode w hw)]

/-! ## The check and the file -/

/-- **The check of a part checks the file of the part.**  If the check of a part ends, there is one
check for each of its systems.  The file of a score with this part alone contributes a run of
measures for each of them, and the check of a system agrees just if the measures of its run have the
elements of the system in quarters without attributes that state nothing. -/
theorem check_agrees_iff {p : Part} {checks : List SystemCheck} (ended : p.check = .ok checks)
    {s : Score} (alone : s.parts = [p]) :
    checks.length = p.systems.length ∧
      (s.encode.value.contributions true).length = p.systems.length ∧
      (s.encode.value.contributions true).flatten = (s.encode.value.decode true).value.measures ∧
      ∀ (k : Nat) (check : SystemCheck), checks[k]? = some check → check.system = k ∧
        ∃ system run, p.systems[k]? = some system ∧
        (s.encode.value.contributions true)[k]? = some run ∧
        system.toQuarters.outcome = .ok () ∧
        (check.agrees = true ↔ run.map (·.elements) =
          system.toQuarters.part.dropEmptyAttributes.measures.map (·.elements)) := by
  have elements := map_elements_contributions true s.encode.value
  rw [decodedMeasures_encode, alone, List.flatMap_singleton, List.map_map] at elements
  obtain ⟨length, each⟩ := getElem?_check ended
  refine ⟨length, ?_, flatten_contributions true _, fun k check hk => ?_⟩
  · simpa using congrArg List.length elements
  · obtain ⟨system, found, checked⟩ := each k check hk
    obtain ⟨converted, place, agrees⟩ := checkSystem_eq_ok checked
    have there := congrArg (·[k]?) elements
    rw [List.getElem?_map, List.getElem?_map, found, Option.map_some,
      Option.map_eq_some_iff] at there
    obtain ⟨run, contributed, same⟩ := there
    refine ⟨place, system, run, found, contributed, converted, ?_⟩
    rw [agrees, same, Part.sameContent, decide_eq_true_iff]
    exact eq_comm

/-- A system with a quarter note, and a system with a third of a quarter, which is no sum of note
types. -/
def Part.thirds : Part where
  id := "P1"
  measures :=
    [{ number := 1
       elements := [.attributes { divisions := some 3 }, .note (.pitched .c 4 .quarter 3)] },
     { number := 2, newSystem := true, elements := [.forward 1] }]

theorem check_agrees_thirds :
    ∃ checks, Part.thirds.check = .ok checks ∧ checks.map (·.agrees) = [true, false] ∧
      (({ parts := [.thirds] } : Score).encode.value.contributions true).map
          (List.map (·.elements)) =
        [[[.note (.pitched .c 4 .quarter 1)]], [[.forward (85 / 256)]]] ∧
      ∃ system, Part.thirds.systems[1]? = some system ∧
        system.toQuarters.part.dropEmptyAttributes.measures.map (·.elements) ≠
          [[.forward (85 / 256)]] := by
  have agrees : Part.thirds.check.map (List.map (·.agrees)) = .ok [true, false] := by
    decide +kernel
  have runs : (({ parts := [.thirds] } : Score).encode.value.contributions true).map
      (List.map (·.elements)) =
        [[[.note (.pitched .c 4 .quarter 1)]], [[.forward (85 / 256)]]] := by
    decide +kernel
  obtain ⟨checks, ended, agree⟩ : ∃ checks, Part.thirds.check = .ok checks ∧
      checks.map (·.agrees) = [true, false] := by
    cases ended : Part.thirds.check with
    | error failure =>
      rw [ended] at agrees
      cases agrees
    | ok checks =>
      rw [ended] at agrees
      exact ⟨checks, rfl, Except.ok.inj agrees⟩
  obtain ⟨-, -, -, each⟩ := @check_agrees_iff _ _ ended { parts := [.thirds] } rfl
  have second := congrArg (·[1]?) agree
  rw [List.getElem?_map] at second
  obtain ⟨check, place, differs⟩ := Option.map_eq_some_iff.mp second
  obtain ⟨-, system, run, found, contributed, -, same⟩ := each 1 check place
  have there := congrArg (·[1]?) runs
  rw [List.getElem?_map, contributed] at there
  refine ⟨checks, ended, agree, runs, system, found, fun equal => ?_⟩
  exact Bool.noConfusion (differs.symm.trans
    (same.mpr ((Option.some.inj there).trans equal.symm)))

end LinearScore
