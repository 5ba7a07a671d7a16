import LinearScore.Proofs.Emitted
import LinearScore.Proofs.HeldEncoding

/-!
# What is written stays in the language

Every part is written, with whatever faults it has, as texts of the vocabulary that are parted into
its measures again.  Inside a measure modifiers may lack a root, but only if something was
reported: the items of a part of which nothing is reported have all their modifiers.

## Main definitions

* `clustersOfTexts`: the measures that texts are parted into
* `Diagnostic.Dangling`: a modifier without a root is reported
* `Part.StaysInLanguage`: the promises that hold of what is written

The main statement is `staysInLanguage_encode`.
-/

namespace LinearScore

/-! ## Texts -/

namespace Token

/-- Where no text is unknown each text is read as a token at its place. -/
theorem map_ofTexts {texts : List String} (h : (ofTexts texts).diagnostics = []) :
    (ofTexts texts).value.map (fun t => (t.terminal.text, t.position)) = texts.zipIdx 1 := by
  have read : ∀ entry ∈ texts.zipIdx 1,
      Option.map (fun t : Token => (t.terminal.text, t.position)) ( ofEntry? entry) =
        some entry := by
    intro entry mem
    have known := List.filterMap_eq_nil_iff.mp h entry mem
    cases read : Terminal.ofText? entry.1 with
    | none => simp [unknown?, read] at known
    | some t => simp [ ofEntry?, read, Terminal.text_of_ofText? read]
  rw [ofTexts, List.map_filterMap, List.filterMap_congr read, List.filterMap_some]

end Token

/-! ## Measures -/

/-- Tokens that spell measures, each behind one `measure`, are parted into these measures. -/
theorem clusters_of_terminals {tokens : List Token} {bodies : List (List Terminal)}
    (h : tokens.map Token.terminal = bodies.flatMap (.measure :: ·))
    (undivided : ∀ body ∈ bodies, ∀ t ∈ body, t.role ≠ .delimiter) :
    (measureClusters tokens).diagnostics = [] ∧
      (measureClusters tokens).value.map (List.map Token.terminal) = bodies := by
  have stream : (bodies.flatMap (.measure :: ·)).map Token.unplaced =
      (bodies.map (List.map Token.unplaced)).flatMap (Token.unplaced .measure :: ·) := by
    rw [List.map_flatMap, List.flatMap_map]
    rfl
  have unmeasured : ∀ body ∈ bodies.map (List.map Token.unplaced),
      ∀ t ∈ body, t.terminal ≠ .measure := by
    intro unplaced hb t ht eq
    obtain ⟨body, mem, rfl⟩ := List.mem_map.mp hb
    obtain ⟨u, hu, rfl⟩ := List.mem_map.mp ht
    exact undivided body mem u hu (congrArg Terminal.role eq)
  -- the positions of the tokens do not matter
  have moved := measureClusters_move (fun _ => 0) tokens
  rw [Token.map_move_zero, h, stream, measureClusters_flatMap rfl unmeasured] at moved
  constructor
  · simpa using congrArg Reported.diagnostics moved
  · have value := congrArg (fun r => r.value.map (List.map Token.terminal)) moved
    simpa [Function.comp_def] using value.symm

/-! ## Items -/

/-- A modifier without a root is reported. -/
def Diagnostic.Dangling (d : Diagnostic) : Prop :=
  ∃ position t, d = .atToken position (.danglingLeading t) ∨
    d = .atToken position (.danglingTrailing t)

namespace Item

theorem dangling_reportDangling (leading : List Token) :
    ∀ d ∈ (reportDangling leading).diagnostics, d.Dangling := by
  induction leading with
  | nil => exact List.forall_mem_nil _
  | cons t leading ih => exact List.forall_mem_cons.mpr ⟨⟨t.position, t.terminal, .inl rfl⟩, ih⟩

/-- Without a delimiter all that can be wrong with the items is a modifier that lacks its root. -/
theorem dangling_ofTokensFrom {tokens : List Token}
    (h : ∀ t ∈ tokens, t.terminal.role ≠ .delimiter) (current : Option Item)
    (leading : List Token) :
    ∀ d ∈ (ofTokensFrom current leading tokens).diagnostics, d.Dangling := by
  induction tokens generalizing current leading with
  | nil =>
    rw [ofTokensFrom, Reported.diagnostics_bind, Reported.diagnostics_pure, List.append_nil]
    exact dangling_reportDangling leading
  | cons t tokens ih =>
    obtain ⟨here, later⟩ := List.forall_mem_cons.mp h
    cases role : t.terminal.role with
    | delimiter => exact absurd role here
    | leading =>
      rw [ofTokensFrom_leading _ _ _ role]
      exact ih later _ _
    | root =>
      rw [ofTokensFrom_root _ _ _ role, Reported.diagnostics_map]
      exact ih later _ _
    | trailing =>
      cases current with
      | some item =>
        rw [ofTokensFrom_trailing _ _ role]
        exact ih later _ _
      | none =>
        rw [ofTokensFrom_trailing_none _ _ role, Reported.diagnostics_bind]
        exact List.forall_mem_cons.mpr ⟨⟨t.position, t.terminal, .inr rfl⟩, ih later _ _⟩

/-- Whether anything is reported of the items only depends on the terminals of the tokens. -/
theorem diagnostics_ofTokens_eq_nil (tokens : List Token) :
    (ofTokens tokens).diagnostics = [] ↔
      (ofTokens ((tokens.map Token.terminal).map Token.unplaced)).diagnostics = [] := by
  rw [← Token.map_move_zero, ofTokens_move, Reported.diagnostics_move, List.map_eq_nil_iff]

end Item

/-- The measures of a part that is written in full are its items. -/
theorem writtenMeasures_eq {s : EncodingState} {ms : List Measure}
    (h : AlongMeasures EncodingState.Expressible s ms) :
    writtenMeasures s ms = (measureItems s ms).map (List.flatMap Item.terminals) := by
  induction ms generalizing s with
  | nil => rfl
  | cons m ms ih =>
    rw [writtenMeasures, measureItems, List.map_cons, filterMap_elementEmissions h.1, ih h.2]

/-- Each of the items of the measures is one of the items of some elements. -/
theorem of_mem_measureItems {s : EncodingState} {ms : List Measure} {items : List Item}
    (h : items ∈ measureItems s ms) : ∃ s es, items = elementItems s es := by
  induction ms generalizing s with
  | nil => cases h
  | cons m ms ih =>
    rcases List.mem_cons.mp h with rfl | later
    · exact ⟨_, _, rfl⟩
    · exact ih later

/-- Nothing is reported of tokens that spell the items of elements. -/
theorem diagnostics_ofTokens_elementItems {tokens : List Token} {s : EncodingState}
    {es : List Element}
    (h : tokens.map Token.terminal = (elementItems s es).flatMap Item.terminals) :
    (Item.ofTokens tokens).diagnostics = [] := by
  rw [Item.diagnostics_ofTokens_eq_nil, h, ← flatMap_tokens,
    Item.ofTokens_flatMap fun _ => wellformed_of_mem, Reported.diagnostics_pure]

/-! ## Parts -/

/-- The measures that texts are parted into when they are read. -/
def clustersOfTexts (texts : List String) : Reported (List (List Token)) :=
  measureClusters (Token.ofTexts texts).value

namespace Part

/-- The texts that are written of the part stay in the language that is read. -/
structure StaysInLanguage (p : Part) (texts : List String) (reports : List Diagnostic) : Prop where
  known : (Token.ofTexts texts).diagnostics = []
  kept : (Token.ofTexts texts).value.map (fun t => (t.terminal.text, t.position)) = texts.zipIdx 1
  opened : (clustersOfTexts texts).diagnostics = []
  /-- There is one cluster for each measure, in order, -/
  count : (clustersOfTexts texts).value.length = p.measures.length
  /-- and it holds what is written in this measure. -/
  bodies : (clustersOfTexts texts).value.map (List.map Token.terminal) =
    writtenMeasures {} p.measures
  undivided : ∀ cluster ∈ (clustersOfTexts texts).value, ∀ position t,
    .atToken position (.unexpectedItem t) ∉ (Item.ofTokens cluster).diagnostics
  /-- No modifier is left without its root unless something was reported. -/
  rooted : reports = [] →
    ∀ cluster ∈ (clustersOfTexts texts).value, (Item.ofTokens cluster).diagnostics = []

theorem value_encode_eq (p : Part) :
    p.encode.value = p.encodeTerminals.value.map Terminal.text := rfl

theorem diagnostics_ofTexts_encode (p : Part) :
    (Token.ofTexts p.encode.value).diagnostics = [] := by
  rw [value_encode_eq]
  exact Token.diagnostics_ofTexts_map_text p.valid_encodeTerminals

theorem terminal_ofTexts_encode (p : Part) :
    (Token.ofTexts p.encode.value).value.map Token.terminal =
      (writtenMeasures {} p.measures).flatMap (.measure :: ·) := by
  rw [value_encode_eq, Token.ofTexts_map_text p.valid_encodeTerminals, encodeTerminals,
    value_encodeMeasures_written]

end Part

/-- **What is written of any part stays in the language that is read**, if it is written to the end.
No text of it is unknown and nothing stands in front of its first measure; it is parted into the
measures of the part; and if nothing was reported of the part, nothing is reported of its items.  A
part of which all numbers are held is written to the end. -/
theorem staysInLanguage_encode (p : Part) :
    (∀ texts reports, p.encode.outcome = some (texts, reports) →
      p.StaysInLanguage texts reports) ∧
    ∀ common, p.Held common → p.encode.outcome.isSome = true := by
  refine ⟨fun texts reports written => ?_, fun common held => ?_⟩
  · obtain ⟨-, rfl, rfl⟩ := Reported.outcome_eq_some_iff.mp written
    obtain ⟨opened, bodies⟩ :=
      clusters_of_terminals p.terminal_ofTexts_encode role_of_mem_writtenMeasures
    -- a cluster spells the body of one measure
    have body : ∀ cluster ∈ (clustersOfTexts p.encode.value).value,
        cluster.map Token.terminal ∈ writtenMeasures {} p.measures := by
      intro cluster mem
      rw [← bodies]
      exact List.mem_map_of_mem mem
    refine ⟨p.diagnostics_ofTexts_encode, Token.map_ofTexts p.diagnostics_ofTexts_encode, opened,
      ?_, bodies, ?_, ?_⟩
    · rw [← length_writtenMeasures {} p.measures, ← bodies, List.length_map]
      rfl
    · intro cluster mem position t reported
      have undivided : ∀ u ∈ cluster, u.terminal.role ≠ .delimiter := fun u hu =>
        role_of_mem_writtenMeasures _ (body cluster mem) _ (List.mem_map_of_mem hu)
      obtain ⟨_, _, eq | eq⟩ := Item.dangling_ofTokensFrom undivided none [] _ reported
      · cases eq
      · cases eq
    · intro clean cluster mem
      have expressible : AlongMeasures EncodingState.Expressible {} p.measures :=
        (along_of_diagnostics_eq_nil clean).imp fun _ _ => EncodingState.Clean.expressible
      have spelled := body cluster mem
      rw [writtenMeasures_eq expressible] at spelled
      obtain ⟨items, ofMeasure, eq⟩ := List.mem_map.mp spelled
      obtain ⟨s, es, rfl⟩ := of_mem_measureItems ofMeasure
      exact diagnostics_ofTokens_elementItems eq.symm
  · rw [Reported.outcome_of_fits held.fits_encode]
    rfl

/-- Two measures, a note with modifiers on both sides of its type in the first one. -/
def Part.typed (noteType : Option NoteType) : Part where
  id := "P1"
  measures :=
    [{ number := 1
       elements :=
        [.attributes { divisions := some 1, time := some ⟨4, 4⟩ },
         .note { Note.pitched .c 4 .whole 4 with
           noteType, voice := some 1, stem := some .up, markings := { fermata := true } }] },
     { number := 2, elements := [.forward 4] }]

theorem staysInLanguage_typed :
    (∃ texts, (Part.typed (some .whole)).encode.outcome = some (texts, []) ∧
      ∀ cluster ∈ (clustersOfTexts texts).value, (Item.ofTokens cluster).diagnostics = []) ∧
    ∃ texts reports, (Part.typed none).encode.outcome = some (texts, reports) ∧ reports ≠ [] ∧
      (clustersOfTexts texts).diagnostics = [] ∧ (clustersOfTexts texts).value.length = 2 := by
  have clean : (Part.typed (some .whole)).encode.outcome =
      some ((Part.typed (some .whole)).encode.value, []) := by decide +kernel
  have typeless : (Part.typed none).encode.outcome =
      some ((Part.typed none).encode.value, (Part.typed none).encode.diagnostics) :=
    Reported.outcome_of_fits (by decide +kernel)
  have stays := (staysInLanguage_encode _).1 _ _ typeless
  exact ⟨⟨_, clean, ((staysInLanguage_encode _).1 _ _ clean).rooted rfl⟩,
    _, _, typeless, by decide +kernel, stays.opened, stays.count⟩

/-- A quarter rest of two ticks with so many dots that its exact length is not computed. -/
def Part.finelyDotted : Part where
  id := "P1"
  measures := [{ number := 1, elements :=
    [.attributes { divisions := some 1 }, .note { Note.plainRest .quarter 2 with dots := 62 }] }]

/-- No texts are arrived at. -/
theorem finelyDotted_unwritten : Part.finelyDotted.encode.outcome = none := by
  decide +kernel

end LinearScore
