import LinearScore.Proofs.Emitted
import LinearScore.Proofs.RestatedKeys
import LinearScore.Proofs.SoundElements

/-!
# Key signatures in tokens

The tokens of a system that opens with a key signature begin with it, and what they are decoded to
opens with it, if it lies in the vocabulary.  Where there is no key signature, none is written and
none is read.

## Main definitions

* `Terminal.key?`: the key signature that a terminal states
* `Part.reread`: the measures that the tokens of a system are decoded to

The main statement is `pairwise_reread_systems`.
-/

namespace LinearScore

/-- The key signature that a terminal states. -/
def Terminal.key? : Terminal → Option KeySignature
  | key fifths => some ⟨fifths⟩
  | _ => none

/-- The measures that the tokens of a system are decoded to. -/
def Part.reread (system : Part) : List Measure :=
  (decodeTexts false system.encode.value).value.measures

/-- The first of the measures holds a key signature in front of all notes. -/
def BeginsWithKey (ms : List Measure) : Prop :=
  ∃ m ms', ms = m :: ms' ∧ OpensWithKey m.elements

/-! ## What is written -/

theorem Terminal.OfNote.key? {t : Terminal} (h : t.OfNote) : t.key? = none := by
  cases t with
  | key fifths => exact absurd h.root Bool.true_eq_false.mp
  | _ => rfl

namespace EncodingState

/-- Attributes without a key signature are written without one. -/
theorem key?_attributesEmissions (s : EncodingState) {a : Attributes} (h : a.key = none) :
    ∀ t ∈ emitted (s.attributesEmissions a), t.key? = none := by
  intro t ht
  rw [emitted_attributesEmissions, Attributes.items, h] at ht
  obtain ⟨item, mem, ht⟩ := List.mem_flatMap.mp ht
  rcases List.mem_append.mp mem with mem | mem
  · obtain ⟨time, -, rfl⟩ := List.mem_map.mp mem
    rw [TimeSignature.item, Item.terminals_spelled] at ht
    simp only [List.nil_append, List.mem_cons, List.not_mem_nil, or_false] at ht
    rcases ht with rfl | rfl | rfl
    · rfl
    · rfl
    · rfl
  · obtain ⟨entry, table, rfl⟩ := List.mem_map.mp mem
    obtain ⟨sign, line, eq⟩ := clef_of_mem_clefTable table
    rw [clefItem, Item.terminals_spelled, eq] at ht
    rcases List.mem_cons.mp ht with rfl | ht
    · rfl
    · obtain rfl := eq_of_mem_flagged ht
      rfl

/-- Elements without key signatures are written without them. -/
theorem key?_elementEmissions {es : List Element} (h : keysOf es = []) (s : EncodingState) :
    ∀ t ∈ emitted (elementEmissions s es), t.key? = none := by
  induction es generalizing s with
  | nil => exact List.forall_mem_nil _
  | cons e es ih =>
    rw [keysOf_cons, List.append_eq_nil_iff] at h
    obtain ⟨here, later⟩ := h
    rw [elementEmissions, emitted_append]
    refine List.forall_mem_append.mpr ⟨?_, ih later _⟩
    cases e with
    | attributes a =>
      refine s.key?_attributesEmissions ?_
      cases stated : a.key with
      | none => rfl
      | some k => simp [Element.cues, stated] at here
    | note n => exact fun t ht => (s.ofNote_noteEmissions n t ht).key?
    | backup d => exact fun t ht => (s.ofNote_backupEmissions d t ht).key?
    | forward d => exact fun t ht => (s.ofNote_forwardEmissions d t ht).key?

end EncodingState

namespace Part

/-- A part without key signatures is written without them. -/
theorem key?_encodeTerminals {p : Part} (h : ∀ m ∈ p.measures, keysOf m.elements = []) :
    ∀ t ∈ p.encodeTerminals.value, t.key? = none := by
  intro t ht
  obtain ⟨-, rfl | ⟨m, hm, s, mem⟩⟩ := mem_encodeMeasures ht
  · rfl
  · exact EncodingState.key?_elementEmissions (h m hm) s t mem

/-- A part that opens with a key signature of the vocabulary is written with it behind the first
token. -/
theorem encodeTerminals_of_key {p : Part} {m : Measure} {ms : List Measure}
    (hm : p.measures = m :: ms) {k : KeySignature} (hk : m.head.key = some k)
    (valid : (Terminal.key k.fifths).valid = true) :
    ∃ rest, p.encodeTerminals.value = .measure :: .key k.fifths :: rest := by
  have opens : m.elements = .attributes m.head :: m.body := by
    rcases m.elements_eq with eq | ⟨-, none⟩
    · exact eq
    · rw [none] at hk
      cases hk
  have divisions : (divisionsEmissions m.head.divisions).filterMap Emission.terminal? = [] := by
    unfold divisionsEmissions faultIf
    split
    · split <;> rfl
    · rfl
  have stated : [Emission.token (.key k.fifths)].filterMap Emission.terminal? =
      [.key k.fifths] := List.filterMap_cons_some (if_pos valid)
  have head : ∃ rest, (EncodingState.attributesEmissions {} m.head).filterMap Emission.terminal? =
      .key k.fifths :: rest := by
    rw [EncodingState.attributesEmissions, hk]
    simp only [List.filterMap_append, divisions, List.nil_append, List.append_assoc, emitSome,
      stated]
    exact ⟨_, rfl⟩
  obtain ⟨rest, head⟩ := head
  have first : (measureEmissions {} m).filterMap Emission.terminal? = .measure :: .key k.fifths ::
      (rest ++ (elementEmissions (({} : EncodingState).afterAttributes m.head) m.body).filterMap
        Emission.terminal?) := by
    rw [measureEmissions, opens, elementEmissions]
    show Terminal.measure :: List.filterMap _ (_ ++ _) = _
    rw [List.filterMap_append]
    exact congrArg (fun written => Terminal.measure :: (written ++ _)) head
  rw [encodeTerminals, hm]
  exact ⟨_, congrArg (· ++ _) first⟩

end Part

/-! ## What is read -/

namespace DecodingState

variable (d : DecodingState)

/-- The first key signature of a run counts. -/
theorem key_attributes (a : Attributes) (item : Item) :
    (d.attributes a item).value.1.key = a.key.or item.root.terminal.key? := by
  unfold attributes
  split
  · rename_i fifths eq
    rw [eq, Reported.value_bind]
    cases stated : a.key with
    | none => rfl
    | some k => exact stated
  · rename_i eq
    rw [eq]
    exact Option.or_none.symm
  · rename_i sign line eq
    rw [eq]
    exact Option.or_none.symm
  · rename_i notKey _ _
    have silent : item.root.terminal.key? = none := by
      unfold Terminal.key?
      split
      · rename_i fifths eq
        exact absurd eq (notKey fifths)
      · rfl
    rw [silent, Option.or_none]
    rfl

/-- An item that is no attribute item says nothing of the key signature. -/
theorem keysOf_element (item : Item) : keysOf (d.element item).value.1.toList = [] := by
  cases read : (d.element item).value.1 with
  | none => rfl
  | some e =>
    obtain ⟨l, rfl | rfl⟩ | rfl := d.eq_of_mem_element item e read
    · rfl
    · rfl
    · rfl

end DecodingState

theorem opensWithKey_append {es : List Element} (h : OpensWithKey es) (es' : List Element) :
    OpensWithKey (es ++ es') := by
  obtain ⟨k, head⟩ := h
  refine ⟨k, ?_⟩
  rw [List.flatMap_append, List.head?_append, head]
  rfl

/-- Attributes with a key signature open with it. -/
theorem opensWithKey_closeRun {run : Option Attributes} (h : (run.getD {}).key ≠ none) :
    OpensWithKey (closeRun run) := by
  cases run with
  | none => exact absurd rfl h
  | some a =>
    obtain ⟨k, hk⟩ := Option.ne_none_iff_exists'.mp h
    exact ⟨k.fifths, by simp [closeRun, Element.cues, show a.key = some k from hk]⟩

theorem keysOf_closeRun {run : Option Attributes} (h : (run.getD {}).key = none) :
    keysOf (closeRun run) = [] := by
  cases run with
  | none => rfl
  | some a => simp [keysOf, closeRun, Element.cues, show a.key = none from h]

/-- What is read in a run of attributes with a key signature opens with it. -/
theorem opensWithKey_decodeItems {d : DecodingState} {run : Option Attributes} {items : List Item}
    (h : (run.getD {}).key ≠ none) : OpensWithKey (decodeItems d run items).value.1 := by
  induction items generalizing d run with
  | nil => exact opensWithKey_closeRun h
  | cons item items ih =>
    cases root : item.root.terminal.isAttributeRoot with
    | true =>
      -- later items do not replace the key signature of the run
      rw [decodeItems_attribute d run items root, Reported.value_bind]
      refine ih fun none => h ?_
      rw [Option.getD_some, DecodingState.key_attributes] at none
      exact (Option.or_eq_none_iff.mp none).1
    | false =>
      rw [decodeItems_element d run items root, Reported.value_bind, Reported.value_map,
        List.append_assoc]
      exact opensWithKey_append (opensWithKey_closeRun h) _

/-- What is read without key signatures holds none. -/
theorem keysOf_decodeItems {d : DecodingState} {run : Option Attributes} {items : List Item}
    (h : (run.getD {}).key = none) (silent : ∀ item ∈ items, item.root.terminal.key? = none) :
    keysOf (decodeItems d run items).value.1 = [] := by
  induction items generalizing d run with
  | nil => exact keysOf_closeRun h
  | cons item items ih =>
    obtain ⟨here, later⟩ := List.forall_mem_cons.mp silent
    cases root : item.root.terminal.isAttributeRoot with
    | true =>
      rw [decodeItems_attribute d run items root, Reported.value_bind]
      refine ih ?_ later
      rw [Option.getD_some, DecodingState.key_attributes, h, here]
      rfl
    | false =>
      rw [decodeItems_element d run items root, Reported.value_bind, Reported.value_map,
        keysOf_append, keysOf_append, keysOf_closeRun h,
        DecodingState.keysOf_element]
      exact ih rfl later

/-- Putting a measure in order keeps what it says of key signatures. -/
theorem cues_orderChords (es : List Element) :
    (orderChords (mergeSkips es)).flatMap Element.cues = es.flatMap Element.cues := by
  rw [List.flatMap_def, map_orderChords fun _ _ => rfl, ← List.flatMap_def]
  exact flatMap_mergeSkips (fun _ => rfl) (fun _ => rfl) es

theorem steady_cues : Steady false Element.cues where
  staves _ _ := rfl
  alter _ _ _ _ := rfl
  divisions _ _ _ := rfl
  durations _ _ e := by cases e <;> rfl
  empty _ := rfl

/-- The measures before the last steps of decoding say the same of key signatures. -/
theorem cues_decodeTokens (tokens : List Token) :
    (decodeTokens false tokens).value.measures.map (Measure.shown Element.cues) =
      (decodeMeasures {} 1 (measureClusters tokens).value).value.map
        (Measure.shown Element.cues) := shown_decodeTokens steady_cues tokens

/-- Clusters without key signatures are decoded to measures without them. -/
theorem keysOf_decodeMeasures {clusters : List (List Token)}
    (silent : ∀ cluster ∈ clusters, ∀ t ∈ cluster, t.terminal.key? = none) (d : DecodingState)
    (number : Int) : ∀ m ∈ (decodeMeasures d number clusters).value,
      (m.shown Element.cues).reduceOption = [] := by
  induction clusters generalizing d number with
  | nil => exact List.forall_mem_nil _
  | cons cluster clusters ih =>
    obtain ⟨here, later⟩ := List.forall_mem_cons.mp silent
    rw [value_decodeMeasures_cons]
    refine List.forall_mem_cons.mpr ⟨?_, ih later _ _⟩
    show List.reduceOption ((orderChords (mergeSkips _)).flatMap _) = []
    rw [cues_orderChords]
    refine keysOf_decodeItems rfl fun item mem => ?_
    exact Item.forall_mem_ofTokens here item mem item.root
      (List.mem_append_right _ List.mem_cons_self)

/-- Tokens without key signatures are decoded to measures without them. -/
theorem keysOf_decodeTokens {tokens : List Token}
    (silent : ∀ t ∈ tokens, t.terminal.key? = none) :
    ∀ m ∈ (decodeTokens false tokens).value.measures, keysOf m.elements = [] := by
  intro m hm
  have shown : m.shown Element.cues ∈ (decodeTokens false tokens).value.measures.map
      (Measure.shown Element.cues) := List.mem_map_of_mem hm
  rw [cues_decodeTokens] at shown
  obtain ⟨m', hm', same⟩ := List.mem_map.mp shown
  show (m.shown Element.cues).reduceOption = []
  rw [← same]
  exact keysOf_decodeMeasures (forall_mem_measureClusters silent) {} 1 m' hm'

/-- The pending item is the first one, whatever follows. -/
theorem exists_ofTokensFrom_some (item : Item) (leading tokens : List Token) : ∃ item' items,
    (Item.ofTokensFrom (some item) leading tokens).value = item' :: items ∧
      item'.root = item.root := by
  induction tokens generalizing item leading with
  | nil => exact ⟨item, [], rfl, rfl⟩
  | cons t tokens ih =>
    cases role : t.terminal.role with
    | leading =>
      rw [Item.ofTokensFrom_leading _ _ _ role]
      exact ih item _
    | trailing =>
      rw [Item.ofTokensFrom_trailing _ _ role]
      exact ih { item with trailing := item.trailing ++ [t] } _
    | root =>
      rw [Item.ofTokensFrom_root _ _ _ role]
      exact ⟨item, _, rfl, rfl⟩
    | delimiter =>
      rw [Item.ofTokensFrom_delimiter _ _ _ role]
      exact ih item _

/-- The first item of tokens that start with a root has this root. -/
theorem exists_ofTokens_root {t : Token} (h : t.terminal.role = .root) (tokens : List Token) :
    ∃ item items, (Item.ofTokens (t :: tokens)).value = item :: items ∧ item.root = t := by
  rw [Item.ofTokens, Item.ofTokensFrom_root _ _ _ h]
  exact exists_ofTokensFrom_some ⟨t, [], []⟩ [] tokens

/-- The first cluster is what follows the first measure token. -/
theorem exists_measureClusters {opening t : Token} (ho : opening.terminal = .measure)
    (ht : t.terminal ≠ .measure) (tokens : List Token) : ∃ cluster clusters,
    (measureClusters (opening :: t :: tokens)).value = (t :: cluster) :: clusters := by
  cases split : tokens.splitOnP (·.terminal = .measure) with
  | nil => exact absurd split (List.splitOnP_ne_nil _ _)
  | cons cluster clusters =>
    refine ⟨cluster, clusters, ?_⟩
    rw [measureClusters, List.splitOnP_cons_eq_if_modifyHead,
      List.splitOnP_cons_eq_if_modifyHead, split]
    simp [ho, ht]

/-- Tokens that begin with a key signature are decoded to measures that do. -/
theorem beginsWithKey_decodeTokens {opening stated : Token} {rest : List Token} {k : KeySignature}
    (ho : opening.terminal = .measure) (hs : stated.terminal = .key k.fifths) :
    BeginsWithKey (decodeTokens false (opening :: stated :: rest)).value.measures := by
  obtain ⟨cluster, clusters, hc⟩ := exists_measureClusters ho (t := stated) (by simp [hs]) rest
  obtain ⟨item, items, hi, root⟩ := exists_ofTokens_root (t := stated) (by rw [hs]; rfl) cluster
  have read (d : DecodingState) : OpensWithKey (decodeItems d none (item :: items)).value.1 := by
    rw [decodeItems_attribute d none items (by rw [root, hs]; rfl), Reported.value_bind]
    refine opensWithKey_decodeItems ?_
    rw [Option.getD_some, DecodingState.key_attributes, root, hs]
    exact Option.some_ne_none k
  have shown := cues_decodeTokens (opening :: stated :: rest)
  rw [hc, value_decodeMeasures_cons] at shown
  obtain ⟨m, ms, eq, first, -⟩ := List.map_eq_cons_iff.mp shown
  refine ⟨m, ms, eq, ?_⟩
  obtain ⟨k, head⟩ := read { ({} : DecodingState) with sticky := {} }
  refine ⟨k, ?_⟩
  show (m.shown Element.cues).head? = _
  rw [first, ← head, ← hi]
  exact congrArg List.head? (cues_orderChords _)

/-- The tokens of a system are decoded as they stand. -/
theorem Part.reread_eq (system : Part) :
    system.reread =
      (decodeTokens false (system.encodeTerminals.value.map Token.unplaced)).value.measures := by
  have texts : system.encode.value = system.encodeTerminals.value.map Terminal.text := rfl
  rw [reread, decodeTexts, Reported.value_bind, value_decodeTokens, texts,
    Token.ofTexts_map_text system.valid_encodeTerminals]

/-- **A system behind a key signature is read with one in front of all notes**, if the key
signatures lie in the vocabulary; the systems before the first one are read without. -/
theorem pairwise_reread_systems {p : Part} (valid : ∀ k ∈ p.keys, (Terminal.key k).valid = true) :
    (p.systems.map Part.reread).Pairwise fun ms ms' =>
      (∀ m ∈ ms, keysOf m.elements = []) ∨ BeginsWithKey ms' := by
  have heads : ∀ m ∈ p.restatedMeasures, ∀ k ∈ m.head.key,
      (Terminal.key k.fifths).valid = true := by
    refine forall_mem_restatedMeasures fun m hm k hk => valid k ?_
    rw [keysOf, List.reduceOption_mem_iff] at hk
    rw [Part.keys, keysOf, List.reduceOption_mem_iff, Part.elements, List.flatMap_assoc]
    exact List.mem_flatMap.mpr ⟨m, hm, hk⟩
  rw [List.pairwise_map]
  refine (pairwise_systems p).imp_of_mem ?_
  rintro system system' - mem (keyless | ⟨m, ms, hm, stated⟩)
  · left
    rw [Part.reread_eq]
    refine keysOf_decodeTokens fun t ht => ?_
    obtain ⟨terminal, written, rfl⟩ := List.mem_map.mp ht
    exact Part.key?_encodeTerminals keyless terminal written
  · right
    obtain ⟨k, hk⟩ := Option.ne_none_iff_exists'.mp stated
    have first : m ∈ p.restatedMeasures := by
      rw [← p.flatMap_measures_systems]
      exact List.mem_flatMap.mpr ⟨system', mem, by rw [hm]; exact List.mem_cons_self⟩
    obtain ⟨rest, written⟩ := Part.encodeTerminals_of_key hm hk (heads m first k hk)
    rw [Part.reread_eq, written, List.map_cons, List.map_cons]
    exact beginsWithKey_decodeTokens rfl rfl

end LinearScore
