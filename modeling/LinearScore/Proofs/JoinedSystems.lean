import LinearScore.Proofs.Inference
import LinearScore.Proofs.KeyTokens
import LinearScore.Proofs.ScoreFile
import LinearScore.Proofs.WellFormed

/-!
# Files of a whole score

A score is written and read system by system, and the alterations of each system are inferred
before the systems are joined.  Key signatures are restated and so they do no harm; a tie over the
end of a system is what the inference of one system does not see.

## Main definitions

* `joinSystems`: the measures of systems in a row, every system but the first marked
* `Score.reread`: the part that the file of a score is read as

The main statement is `inferAlterations_reread`.
-/

namespace LinearScore

/-! ## Systems in a row -/

/-- The measures of systems in a row, the first measure of every system marked, but for the first
system if it is the first one of the file. -/
def joinSystems (first : Bool) : List (List Measure) → List Measure
  | [] => []
  | ms :: systems => markSystem (!first) ms ++ joinSystems false systems

/-- The systems of a file are joined as they are decoded, one by one. -/
theorem value_decodeSystems (quarters first : Bool) (systems : List (List String)) :
    (TokenFile.decodeSystems quarters first systems).value =
      joinSystems first (systems.map fun tokens =>
        (decodeText quarters (String.intercalate " " tokens)).value.measures) := by
  induction systems generalizing first with
  | nil => rfl
  | cons tokens systems ih => exact congrArg (_ ++ ·) (ih false)

/-- The file of a score is read as its systems are. -/
theorem value_decodeSystems_encode (first : Bool) (systems : List Part) :
    (TokenFile.decodeSystems false first (systems.map fun system => system.encode.value)).value =
      joinSystems first (systems.map Part.reread) := by
  rw [value_decodeSystems, List.map_map]
  refine congrArg (joinSystems first) (List.map_congr_left fun system _ => ?_)
  rw [Function.comp_apply, decodeText, words_intercalate fun w hw =>
    isWord_of_isSpelling (Part.isSpelling_of_mem_encode w hw), Part.reread]

/-- The part that the file of a score is read as. -/
def Score.reread (s : Score) : Part := (s.encode.value.decode false).value

theorem Score.reread_eq (s : Score) :
    s.reread =
      ⟨"P1", "Piano",
        renumber 1 (joinSystems true ((s.parts.flatMap Part.systems).map Part.reread))⟩ := by
  show Part.mk _ _ (renumber 1 (TokenFile.decodeSystems false true s.encode.value.systems).value) = _
  rw [s.systems_encode, value_decodeSystems_encode]

section Alone

variable {own : AlterationState} {ms : List Measure} {systems : List (List Measure)}

/-- A system whose alterations have been inferred on its own. -/
structure Inferred (ms : List Measure) : Prop where
  fixed : (thread AlterationState.measure {} ms).2 = ms
  unmarked : ∀ m ∈ ms, m.newSystem = false

/-- Numbers do not matter for alterations. -/
theorem fixed_renumber (number : Int) (h : (thread AlterationState.alone own ms).2 = ms) :
    (thread AlterationState.alone own (renumber number ms)).2 = renumber number ms := by
  induction ms generalizing own number with
  | nil => rfl
  | cons m ms ih =>
    rw [thread_cons, List.cons_eq_cons] at h
    show (own.alone { m with number }).2 :: _ = { m with number } :: _
    exact congr (congrArg List.cons (congrArg (fun m : Measure => { m with number }) h.1))
      (ih (number + 1) h.2)

theorem thread_alone (unmarked : ∀ m ∈ ms, m.newSystem = false) :
    thread AlterationState.alone own ms = thread AlterationState.measure own ms := by
  induction ms generalizing own with
  | nil => rfl
  | cons m ms ih =>
    obtain ⟨here, later⟩ := List.forall_mem_cons.mp unmarked
    have same : own.alone m = own.measure m := by
      rw [AlterationState.alone, restarting, here]
      rfl
    rw [thread_cons, thread_cons, same, ih later]

/-- A system that is marked is inferred as it is on its own, whatever stands before it. -/
theorem fixed_markSystem (inferred : Inferred ms) (starts : Bool)
    (fresh : starts = false → own = {}) :
    (thread AlterationState.alone own (markSystem starts ms)).2 = markSystem starts ms := by
  cases ms with
  | nil => rfl
  | cons m ms =>
    have fixed := inferred.fixed
    rw [thread_cons, List.cons_eq_cons] at fixed
    have start : own.alone { m with newSystem := starts } =
        ((AlterationState.measure {} m).1,
          { (AlterationState.measure {} m).2 with newSystem := starts }) := by
      unfold AlterationState.alone restarting
      cases starts with
      -- a marked measure starts afresh, whatever has been seen
      | true => rfl
      | false =>
        rw [fresh rfl]
        rfl
    rw [markSystem, thread_cons, start, fixed.1,
      thread_alone fun m' mem => inferred.unmarked m' (List.mem_cons_of_mem m mem), fixed.2]

theorem fixed_joinSystems (inferred : ∀ ms ∈ systems, Inferred ms) (first : Bool)
    (fresh : first = true → own = {}) :
    (thread AlterationState.alone own (joinSystems first systems)).2 =
      joinSystems first systems := by
  induction systems generalizing own first with
  | nil => rfl
  | cons ms systems ih =>
    obtain ⟨here, later⟩ := List.forall_mem_cons.mp inferred
    rw [joinSystems, thread_append, ih later false fun h => Bool.noConfusion h,
      fixed_markSystem here (!first) fun h => fresh (by simpa using h)]

end Alone

/-! ## Key signatures over systems -/

theorem mem_renumber {m : Measure} {number : Int} {ms : List Measure}
    (h : m ∈ renumber number ms) : ∃ m' ∈ ms, ∃ number, m = { m' with number } := by
  induction ms generalizing number with
  | nil => cases h
  | cons m' ms ih =>
    rcases List.mem_cons.mp h with rfl | h
    · exact ⟨m', List.mem_cons_self, number, rfl⟩
    · obtain ⟨m'', mem, eq⟩ := ih h
      exact ⟨m'', List.mem_cons_of_mem m' mem, eq⟩

/-- Numbers do not matter for key signatures. -/
theorem pairwise_renumber (number : Int) {ms : List Measure} (h : ms.Pairwise KeyRestated) :
    (renumber number ms).Pairwise KeyRestated := by
  induction ms generalizing number with
  | nil => exact .nil
  | cons m ms ih =>
    obtain ⟨first, rest⟩ := List.pairwise_cons.mp h
    refine .cons (fun m' hm' => ?_) (ih (number + 1) rest)
    obtain ⟨m'', hm'', number', rfl⟩ := mem_renumber hm'
    exact first m'' hm''

/-- Only the first measure of a system is marked, and its elements are those of the system. -/
theorem mem_markSystem {ms : List Measure} {starts : Bool} {m : Measure}
    (h : m ∈ markSystem starts ms) : (∃ m' ∈ ms, m'.elements = m.elements) ∧
      (m ∈ ms ∨ ∃ m' ms', ms = m' :: ms' ∧ m'.elements = m.elements) := by
  cases ms with
  | nil => cases h
  | cons m' ms =>
    rcases List.mem_cons.mp h with rfl | h
    · exact ⟨⟨m', List.mem_cons_self, rfl⟩, .inr ⟨m', ms, rfl, rfl⟩⟩
    · have mem := List.mem_cons_of_mem m' h
      exact ⟨⟨m, mem, rfl⟩, .inl mem⟩

theorem begins_of_mem_joinSystems {systems : List (List Measure)}
    (inferred : ∀ ms ∈ systems, Inferred ms) {first : Bool} {m : Measure}
    (h : m ∈ joinSystems first systems) (starts : m.newSystem = true) :
    ∃ ms ∈ systems, ∃ m' ms', ms = m' :: ms' ∧ m'.elements = m.elements := by
  induction systems generalizing first with
  | nil => cases h
  | cons ms systems ih =>
    obtain ⟨here, later⟩ := List.forall_mem_cons.mp inferred
    rcases List.mem_append.mp h with h | h
    · rcases (mem_markSystem h).2 with mem | begins
      · exact absurd starts (by rw [here.unmarked m mem]; exact Bool.false_ne_true)
      · exact ⟨ms, List.mem_cons_self, begins⟩
    · obtain ⟨ms', mem, begins⟩ := ih later h
      exact ⟨ms', List.mem_cons_of_mem ms mem, begins⟩

/-- Systems of which each one behind a key signature begins with one restate their keys when they
are joined. -/
theorem pairwise_joinSystems {systems : List (List Measure)}
    (inferred : ∀ ms ∈ systems, Inferred ms)
    (keys : systems.Pairwise fun ms ms' => (∀ m ∈ ms, keysOf m.elements = []) ∨ BeginsWithKey ms')
    (first : Bool) : (joinSystems first systems).Pairwise KeyRestated := by
  induction systems generalizing first with
  | nil => exact .nil
  | cons ms systems ih =>
    obtain ⟨here, later⟩ := List.forall_mem_cons.mp inferred
    obtain ⟨behind, rest⟩ := List.pairwise_cons.mp keys
    refine List.pairwise_append.mpr ⟨?_, ih later rest false, ?_⟩
    -- within a system nothing behind its first measure is marked
    · cases ms with
      | nil => exact .nil
      | cons m ms =>
        have unmarked {l m' : Measure} (mem : m' ∈ ms) : KeyRestated l m' := by
          intro starts
          rw [here.unmarked m' (List.mem_cons_of_mem m mem)] at starts
          cases starts
        refine .cons (fun m' mem => unmarked mem) ?_
        exact List.pairwise_of_forall_mem_list fun _ _ m' mem => unmarked mem
    -- a marked measure behind the system is the first one of its own system
    · intro l hl m hm starts
      obtain ⟨l', hl', same⟩ := (mem_markSystem hl).1
      obtain ⟨ms', mem, m', rest, begins, elements⟩ := begins_of_mem_joinSystems later hm starts
      rw [← same, ← elements]
      refine (behind ms' mem).imp (fun keyless => keyless l' hl') ?_
      rintro ⟨m'', ms'', eq, opens⟩
      rw [begins] at eq
      cases eq
      exact opens

/-! ## Systems that are read -/

/-- The last steps of decoding leave alterations that another run leaves as they are. -/
theorem inferAlterations_finish {p : Part} (legible : ∀ a ∈ p.attributes, a.Legible) :
    (p.finish false).value.inferAlterations = (p.finish false).value := by
  obtain ⟨staves, d, positive, finished, -, -⟩ := finish_eq legible
  have key (t : Bool) (a : Attributes) : (Attributes.declareStep staves t a).2.key = a.key := by
    obtain ⟨v, eq⟩ := exists_declareStep staves t a
    rw [eq]
  have value : (p.finish false).value =
      (p.inferAlterations.tallied staves d).declareDivisions d :=
    congrArg Reported.value finished
  rw [value, inferAlterations_declareDivisions, tallied_eq,
    inferAlterations_mapDurations (by exact_mod_cast positive), inferAlterations_pass key,
    inferAlterations_twice]

/-- The alterations of what any texts are decoded to have been inferred. -/
theorem inferAlterations_decodeTexts (ts : List String) :
    (decodeTexts false ts).value.inferAlterations = (decodeTexts false ts).value := by
  have valid : AllValid (Token.ofTexts ts).value := fun t ht => Token.valid_ofTexts ht
  have start : ({} : DecodingState).Sound false :=
    ⟨⟨forall_mem_none, forall_mem_none⟩, forall_mem_none, rfl⟩
  have sound := allSound_decodeMeasures (valid_measureClusters valid) start 1
  rw [decodeTexts, Reported.value_bind, decodeTokens_eq, Reported.value_bind, Reported.value_bind]
  exact @inferAlterations_finish (Part.mk "P1" "" _) sound.legible

theorem inferred_decodeTexts (ts : List String) :
    Inferred (decodeTexts false ts).value.measures := by
  have measures {p : Part} (h : p.inferAlterations = p) :
      (thread AlterationState.measure {} p.measures).2 = p.measures := congrArg Part.measures h
  exact ⟨measures (inferAlterations_decodeTexts ts),
    fun m hm => (unmarked_decodeTexts false ts m hm).1⟩

/-- **Only ties are lost between the systems of a file.**  When a score with one part is written to
a file and read again, the inference of alterations leaves the part that is read as it is just if
each tie over the end of a system is taken by a note with the pitch of the note that started it,
provided that all key signatures lie in the vocabulary. -/
theorem inferAlterations_reread {s : Score} {p : Part} (single : s.parts = [p])
    (valid : ∀ k ∈ p.keys, (Terminal.key k).valid = true) :
    s.reread.inferAlterations = s.reread ↔ s.reread.measures.IsChain TiesCarried := by
  have inferred : ∀ ms ∈ p.systems.map Part.reread, Inferred ms := by
    intro ms mem
    obtain ⟨system, -, rfl⟩ := List.mem_map.mp mem
    exact inferred_decodeTexts _
  have systems : s.parts.flatMap Part.systems = p.systems := by
    rw [single, List.flatMap_singleton]
  rw [s.reread_eq, systems]
  refine inferAlterations_eq_self_iff ?_ ?_
  · exact fixed_renumber 1 (fixed_joinSystems inferred true fun _ => rfl)
  · exact pairwise_renumber 1 (pairwise_joinSystems inferred (pairwise_reread_systems valid) true)

/-- An F sharp that is tied over the end of a system, by the key signature or by an accidental that
the note at the start of the tie shows. -/
def Score.tiedOver (fifths : Int) (accidental : Option Accidental) : Score where
  parts :=
    [{ id := "P1"
       measures :=
         [{ number := 1
            elements :=
              [.attributes { divisions := some 1, key := some ⟨fifths⟩ },
               .note { content := .pitch ⟨.f, 4, 1⟩, duration := some 4, noteType := some .whole,
                       accidental, ties := [.start] }] },
          { number := 2, newSystem := true
            elements :=
              [.note { content := .pitch ⟨.f, 4, 1⟩, duration := some 4, noteType := some .whole,
                       ties := [.stop] }] }] }]

/-- By the key signature the tie is carried. -/
theorem tiesCarried_tiedOver :
    (∀ p ∈ (Score.tiedOver 1 none).parts, ∀ k ∈ p.keys, (Terminal.key k).valid = true) ∧
      (Score.tiedOver 1 none).reread.measures.IsChain TiesCarried := by
  have valid : ∀ p ∈ (Score.tiedOver 1 none).parts, ∀ k ∈ p.keys,
      (Terminal.key k).valid = true := by decide +kernel
  have unchanged : (Score.tiedOver 1 none).reread.inferAlterations =
      (Score.tiedOver 1 none).reread := by decide +kernel
  exact ⟨valid, (inferAlterations_reread rfl (valid _ List.mem_cons_self)).mp unchanged⟩

/-- By an accidental it is not: the note that ends the tie is read as an F. -/
theorem tiedOver_changed :
    (Score.tiedOver 0 (some .sharp)).encode.diagnostics = [] ∧
      (Score.tiedOver 0 (some .sharp)).reread.inferAlterations ≠
        (Score.tiedOver 0 (some .sharp)).reread := by
  decide +kernel

end LinearScore
