import Mathlib.Data.List.Basic
import LinearScore.Proofs.Echo
import LinearScore.Proofs.Ladder

/-!
# Elements read back

Reading the items of the elements of a measure gives elements again.  Notes come back one for one.
Attributes add to the run of attributes they stand in, and those that wrote nothing leave no
trace.  A backup or forward comes back in pieces, which add up to its duration in quarters.

## Main definitions

* `Attributes.shown`: what attributes say in tokens
* `addToRun`: a run of attributes with more of them
* `echoElements`, `echoMeasures`: the elements and measures that are read back
* `Part.DotsFit`: counts of dots fit into one byte

The main statement is `value_decodeTexts_encode`: what a part that is written in full is decoded
to.
-/

namespace LinearScore

/-! ## Attributes -/

/-- The clef that a terminal is read as. -/
def Terminal.clef? (number : Option Nat) : Terminal → Option Clef
  | .clef sign line => some ⟨number, sign.name, line⟩
  | _ => none

/-- The clefs that the entries of a table are read as. -/
def shownClefs (numbered : Bool) (entries : List (Nat × Terminal)) : List Clef :=
  entries.filterMap fun entry => entry.2.clef? (if numbered then some entry.1 else none)

/-- What attributes say in tokens. -/
def Attributes.shown (numbered : Bool) (a : Attributes) : Attributes where
  key := a.key
  time := a.time
  clefs := shownClefs numbered (clefTable a.clefs)

/-- What two attributes of one run say together: the first key, the last time signature and all
clefs. -/
def Attributes.joined (a b : Attributes) : Attributes :=
  { a with key := a.key.or b.key, time := b.time.or a.time, clefs := a.clefs ++ b.clefs }

/-- A run of attributes with more of them, unless they say nothing. -/
def addToRun (run : Option Attributes) (a : Attributes) : Option Attributes :=
  if a = {} then run else some ((run.getD {}).joined a)

/-- The state behind attributes that are read back. -/
def DecodingState.afterShown (d : DecodingState) (a : Attributes) : DecodingState :=
  { d with fullMeasure := (a.time.map measureLength).or d.fullMeasure }

/-- The element of a run that ends. -/
def closeRun (run : Option Attributes) : List Element := (run.map Element.attributes).toList

/-- Nothing is remembered at the start of a measure and behind a backup. -/
theorem Synced.fresh {s : EncodingState} (hs : s.sticky = {}) (d : DecodingState)
    (hd : d.sticky = {}) : Synced s d := by
  constructor
  · rw [hs, hd]
  · rw [hs, hd]
  · rw [hs, hd]

theorem Synced.attributes {s : EncodingState} {d : DecodingState} (h : Synced s d)
    (a : Attributes) : Synced (s.afterAttributes a) (d.afterShown a) :=
  ⟨h.voice, h.stem, h.staff⟩

theorem terminal?_eq_clef {c : Clef} {t : Terminal} (h : c.terminal? = some t) :
    ∃ sign, t = .clef sign (clefLine c.line) := by
  obtain ⟨sign, -, rfl⟩ := Option.map_eq_some_iff.mp h
  exact ⟨sign, rfl⟩

theorem mem_putStaff {staff : Nat} {t : Terminal} {table : List (Nat × Terminal)}
    {entry : Nat × Terminal} (h : entry ∈ putStaff staff t table) :
    entry = (staff, t) ∨ entry ∈ table := by
  induction table with
  | nil => exact .inl (List.mem_singleton.mp h)
  | cons head rest ih =>
    rw [putStaff] at h
    split at h
    · rcases List.mem_cons.mp h with rfl | h
      · exact .inl rfl
      · exact .inr h
    · split at h
      · rcases List.mem_cons.mp h with rfl | h
        · exact .inl rfl
        · exact .inr (List.mem_cons_of_mem _ h)
      · rcases List.mem_cons.mp h with rfl | h
        · exact .inr List.mem_cons_self
        · exact (ih h).imp_right (List.mem_cons_of_mem _)

/-- A table holds terminals of clefs only. -/
theorem clef_of_mem_clefTable {clefs : List Clef} {entry : Nat × Terminal}
    (h : entry ∈ clefTable clefs) : ∃ sign line, entry.2 = .clef sign line := by
  unfold clefTable at h
  have start : ∀ e ∈ ([] : List (Nat × Terminal)), ∃ sign line, e.2 = .clef sign line :=
    List.forall_mem_nil _
  generalize ([] : List (Nat × Terminal)) = table at h start
  induction clefs generalizing table with
  | nil => exact start entry h
  | cons c clefs ih =>
    rw [List.foldl_cons] at h
    refine ih _ h ?_
    cases hc : c.terminal? with
    | none => exact start
    | some t =>
      intro e he
      rcases mem_putStaff he with rfl | he
      · obtain ⟨sign, rfl⟩ := terminal?_eq_clef hc
        exact ⟨sign, _, rfl⟩
      · exact start e he

/-! ## Runs of attributes -/

/-- What is added to a run one after the other is added together. -/
theorem addToRun_addToRun (run : Option Attributes) (a : Attributes) {b : Attributes}
    (divisions : b.divisions = none) (staves : b.staves = none) :
    addToRun (addToRun run a) b = addToRun run (a.joined b) := by
  have assoc (r : Attributes) : (r.joined a).joined b = r.joined (a.joined b) := by
    simp [Attributes.joined, Option.or_assoc]
  by_cases hb : b = {}
  · have joined : a.joined b = a := by
      rw [hb]
      simp [Attributes.joined]
    rw [joined, addToRun, if_pos hb]
  · by_cases ha : a = {}
    · have joined : a.joined b = b := by
        obtain ⟨_, _, _, _, _⟩ := b
        cases divisions
        cases staves
        rw [ha]
        simp [Attributes.joined]
      rw [joined, addToRun, addToRun, if_pos ha, addToRun]
    · have joined : a.joined b ≠ {} := by
        intro empty
        simp only [Attributes.joined, Attributes.mk.injEq, Option.or_eq_none_iff,
          List.append_eq_nil_iff] at empty
        obtain ⟨h1, ⟨h2, -⟩, ⟨-, h3⟩, h4, h5, -⟩ := empty
        refine ha ?_
        obtain ⟨_, _, _, _, _⟩ := a
        cases h1; cases h2; cases h3; cases h4; cases h5
        rfl
      rw [addToRun, if_neg hb, addToRun, if_neg ha, addToRun, if_neg joined, Option.getD_some,
        assoc]

section Attributes

variable (d : DecodingState) (run : Option Attributes) (rest : List Item)

/-- An attribute item adds to its run. -/
theorem decodeItems_attribute {item : Item} (h : item.root.terminal.isAttributeRoot = true) :
    decodeItems d run (item :: rest) =
      d.attributes (run.getD {}) item >>= fun r => decodeItems r.2 (some r.1) rest := by
  rw [decodeItems, if_pos h]

theorem decodeItems_time (time : TimeSignature) :
    (decodeItems d run (time.item :: rest)).unbounded =
      (decodeItems { d with fullMeasure := some (measureLength time) }
        (addToRun run { time := some time }) rest).unbounded := by
  have read : (d.attributes (run.getD {}) time.item).unbounded =
      pure ({ run.getD {} with time := some time },
        { d with fullMeasure := some (measureLength time) }) := by
    have signature : DecodingState.timeSignature time.item = pure time := rfl
    show (DecodingState.timeSignature time.item >>= fun time =>
      (Machine.measureLength time).reported >>= fun length => pure ({ run.getD {} with time := some time },
        { d with fullMeasure := some length })).unbounded = _
    rw [signature, pure_bind, Reported.unbounded_bind, Checked.unbounded_reported, pure_bind,
      Machine.value_measureLength, Reported.unbounded_pure]
  rw [decodeItems_attribute d run rest rfl, Reported.unbounded_bind, read, pure_bind, addToRun,
    if_neg (by simp)]
  simp only [Attributes.joined, Option.or_none, List.append_nil]
  rfl

theorem decodeItems_clef (numbered : Bool) (staff : Nat) (sign : ClefSign) (line : Nat) :
    decodeItems d run (clefItem numbered (staff, .clef sign line) :: rest) =
      decodeItems d (addToRun run
        { clefs := [⟨if numbered then some staff else none, sign.name, line⟩] }) rest := by
  rw [decodeItems_attribute d run rest rfl, addToRun, if_neg (by simp)]
  simp only [Attributes.joined, Option.or_none, Option.none_or]
  cases numbered with
  | false => rfl
  | true => rfl

/-- The first key of a run counts; -/
theorem value_decodeItems_key (k : KeySignature) :
    (decodeItems d run (k.item :: rest)).value =
      (decodeItems d (addToRun run { key := some k }) rest).value := by
  rw [decodeItems_attribute d run rest rfl, addToRun, if_neg (by simp)]
  simp only [Attributes.joined, Option.none_or, List.append_nil]
  unfold DecodingState.attributes
  cases hk : (run.getD {}).key with
  | none => simp [KeySignature.item, Item.spelled]
  | some old =>
    have same : run.getD {} = { run.getD {} with key := some old } := by rw [← hk]
    simp [KeySignature.item, Item.spelled, ← same]

/-- nothing is reported where it is the only one. -/
theorem decodeItems_key {k : KeySignature} (h : (run.getD {}).key = none) :
    decodeItems d run (k.item :: rest) = decodeItems d (addToRun run { key := some k }) rest := by
  rw [decodeItems_attribute d run rest rfl, addToRun, if_neg (by simp)]
  simp only [Attributes.joined, Option.none_or, List.append_nil]
  unfold DecodingState.attributes
  simp [KeySignature.item, Item.spelled, h, Item.reportKeyModifiers, Item.reportAll]

/-- Clefs add to their run in the order of the table. -/
theorem decodeItems_clefs (numbered : Bool) {entries : List (Nat × Terminal)}
    (h : ∀ entry ∈ entries, ∃ sign line, entry.2 = .clef sign line) :
    decodeItems d run (entries.map (clefItem numbered) ++ rest) =
      decodeItems d (addToRun run { clefs := shownClefs numbered entries }) rest := by
  induction entries generalizing run with
  | nil => rfl
  | cons entry entries ih =>
    obtain ⟨staff, t⟩ := entry
    obtain ⟨sign, line, rfl⟩ := h _ List.mem_cons_self
    rw [List.map_cons, List.cons_append, decodeItems_clef,
      ih _ fun e he => h e (List.mem_cons_of_mem _ he), addToRun_addToRun _ _ rfl rfl]
    rfl

/-- The time signature and the clefs of attributes add to their run. -/
theorem decodeItems_time_clefs (numbered : Bool) (a : Attributes) :
    (decodeItems d run (a.time.toList.map TimeSignature.item ++
        ((clefTable a.clefs).map (clefItem numbered) ++ rest))).unbounded =
      (decodeItems (d.afterShown a)
        (addToRun run { a.shown numbered with key := none }) rest).unbounded := by
  have clefs (d : DecodingState) (run : Option Attributes) :=
    congrArg Reported.unbounded (@decodeItems_clefs d run rest numbered (clefTable a.clefs)
      fun _ => clef_of_mem_clefTable)
  cases ht : a.time with
  | none =>
    refine (clefs d run).trans ?_
    rw [DecodingState.afterShown, Attributes.shown, ht]
    rfl
  | some time =>
    refine (decodeItems_time ..).trans ((clefs ..).trans ?_)
    rw [addToRun_addToRun _ _ rfl rfl, DecodingState.afterShown, Attributes.shown, ht]
    rfl

/-- What attributes say adds to their run. -/
theorem value_decodeItems_attributes (numbered : Bool) (a : Attributes) :
    (decodeItems d run (a.items numbered ++ rest)).value =
      (decodeItems (d.afterShown a) (addToRun run (a.shown numbered)) rest).value := by
  rw [Attributes.items, List.append_assoc, List.append_assoc]
  cases hk : a.key with
  | none =>
    refine (congrArg Reported.value (decodeItems_time_clefs d run rest numbered a)).trans ?_
    rw [Reported.value_unbounded, Attributes.shown, hk]
  | some k =>
    refine (value_decodeItems_key ..).trans ?_
    refine (congrArg Reported.value (decodeItems_time_clefs d _ rest numbered a)).trans ?_
    rw [Reported.value_unbounded, addToRun_addToRun _ _ rfl rfl, Attributes.shown, hk]
    simp [Attributes.joined]

/-- Nothing is reported where the run has no key yet. -/
theorem decodeItems_attributes (numbered : Bool) {a : Attributes}
    (h : (run.getD {}).key = none) :
    (decodeItems d run (a.items numbered ++ rest)).unbounded =
      (decodeItems (d.afterShown a) (addToRun run (a.shown numbered)) rest).unbounded := by
  rw [Attributes.items, List.append_assoc, List.append_assoc]
  cases hk : a.key with
  | none =>
    refine (decodeItems_time_clefs d run rest numbered a).trans ?_
    rw [Attributes.shown, hk]
  | some k =>
    refine (congrArg Reported.unbounded (decodeItems_key d run _ h)).trans ?_
    refine (decodeItems_time_clefs d _ rest numbered a).trans ?_
    rw [addToRun_addToRun _ _ rfl rfl, Attributes.shown, hk]
    simp [Attributes.joined]

end Attributes

/-! ## Notes and moves of the cursor -/

section Others

variable (d : DecodingState) (run : Option Attributes) (rest : List Item)

/-- An item that is no attribute item ends the run. -/
theorem decodeItems_element {item : Item} (h : item.root.terminal.isAttributeRoot = false) :
    decodeItems d run (item :: rest) =
      d.element item >>= fun r =>
        (fun r' => (closeRun run ++ r.1.toList ++ r'.1, r'.2)) <$> decodeItems r.2 none rest := by
  rw [decodeItems, if_neg (by simp [h])]
  rfl

/-- The item of a note is read as a note. -/
theorem element_noteItem (s : EncodingState) (n : Note) :
    d.element (s.noteItem n) =
      (fun r => (some (.note r.1), r.2)) <$> d.note (s.noteItem n) := by
  have marker : (s.noteItem n).marker? = none := by
    rw [Item.marker?, List.find?_eq_none]
    intro t ht
    simp only [EncodingState.noteItem, Item.spelled, List.map_reverse, List.mem_reverse,
      List.map_map, List.mem_map, Function.comp_apply, Token.unplaced_terminal,
      exists_eq_right] at ht
    obtain ⟨-, backup, forward⟩ := NoteFields.mem_leading ht
    simp [backup, forward]
  rw [DecodingState.element, marker]
  rfl

theorem decodeItems_note (s : EncodingState) (n : Note) :
    decodeItems d run (s.noteItem n :: rest) =
      d.note (s.noteItem n) >>= fun r =>
        (fun r' => (closeRun run ++ .note r.1 :: r'.1, r'.2)) <$> decodeItems r.2 none rest := by
  have root : (s.noteItem n).root.terminal.isAttributeRoot = false := by
    show n.root.isAttributeRoot = false
    unfold Note.root
    cases n.noteType <;> rfl
  rw [decodeItems_element d run rest root, element_noteItem, bind_map_left]
  simp

/-- The state behind a marker that is read back. -/
def DecodingState.afterPiece (d : DecodingState) (marker : Terminal) : DecodingState :=
  if marker = .backup then { d with sticky := {} } else d

@[simp] theorem DecodingState.afterPiece_afterPiece (marker : Terminal) :
    (d.afterPiece marker).afterPiece marker = d.afterPiece marker := by
  unfold afterPiece
  split
  · rfl
  · rfl

/-- A backup or forward with a note type lasts as long as a note. -/
theorem DecodingState.skip_noteType {item : Item} {t : NoteType}
    (root : item.root.terminal = .noteType t) (marker : Terminal) :
    d.skip item marker = (do
      let ratio ← item.skipRatio marker
      let length ← (Machine.noteLength t 0 ratio).reported
      return (some (piece marker length), d.afterPiece marker)) := by
  unfold skip piece afterPiece
  rw [root]
  by_cases backup : marker = .backup
  · simp only [if_pos backup]
  · simp only [if_neg backup]

/-- A marker and a note type are read as a backup or forward. -/
theorem element_piece {marker : Terminal} (h : marker = .backup ∨ marker = .forward)
    (t : NoteType) :
    (d.element (Item.spelled [marker] (.noteType t) [])).unbounded =
      pure (some (piece marker t.quarters), d.afterPiece marker) := by
  let item := Item.spelled [marker] (.noteType t) []
  have marked : item.marker? = some marker := by
    rcases h with rfl | rfl
    · rfl
    · rfl
  have ratio : item.skipRatio marker = pure none := by
    rcases h with rfl | rfl
    · rfl
    · rfl
  have read : d.element item = d.skip item marker := by
    rw [DecodingState.element, marked]
  rw [read, d.skip_noteType rfl, ratio, pure_bind, Reported.unbounded_bind,
    Checked.unbounded_reported, pure_bind, Machine.value_noteLength, noteLength_plain,
    Reported.unbounded_pure]

/-- The items of a backup or forward are read as its pieces. -/
theorem decodeItems_pieces {marker : Terminal} (h : marker = .backup ∨ marker = .forward)
    {types : List NoteType} (ht : types ≠ []) :
    (decodeItems d run
        (types.map (fun t => Item.spelled [marker] (.noteType t) []) ++ rest)).unbounded =
      (fun r => (closeRun run ++ types.map (fun t => piece marker t.quarters) ++ r.1, r.2)) <$>
        (decodeItems (d.afterPiece marker) none rest).unbounded := by
  induction types generalizing d run with
  | nil => exact absurd rfl ht
  | cons t types ih =>
    rw [List.map_cons, List.cons_append, decodeItems_element d run _ rfl, Reported.unbounded_bind,
      element_piece d h, pure_bind, Reported.unbounded_map]
    cases types with
    | nil => simp
    | cons u types =>
      rw [ih _ _ (List.cons_ne_nil _ _)]
      simp [closeRun]

end Others

/-! ## All elements of a measure -/

/-- The elements that are read back, and the state behind them. -/
def echoElements (s : EncodingState) (d : DecodingState) (run : Option Attributes) :
    List Element → List Element × DecodingState
  | [] => (closeRun run, d)
  | .attributes a :: es =>
    echoElements (s.afterAttributes a) (d.afterShown a)
      (addToRun run (a.shown (s.afterAttributes a).staves.isSome)) es
  | .note n :: es =>
    let r := echoElements (s.afterNote n) (d.afterEcho n) none es
    (closeRun run ++ .note (d.echo n) :: r.1, r.2)
  | .backup t :: es =>
    let r := echoElements (s.after (.backup t)) { d with sticky := {} } none es
    (closeRun run ++ .backup (t / (s.divisions.getD 1 : Int)) :: r.1, r.2)
  | .forward t :: es =>
    let r := echoElements (s.after (.forward t)) d none es
    (closeRun run ++ .forward (t / (s.divisions.getD 1 : Int)) :: r.1, r.2)

/-- The items of a backup or forward, read and merged, are one of its duration in quarters. -/
theorem value_decodeItems_skipItems {marker : Terminal} (h : marker = .backup ∨ marker = .forward)
    {divisions : Option Int} {duration : Rat} (splits : Splits divisions duration)
    (d : DecodingState) (run : Option Attributes) (rest : List Item) :
    ∃ pieces : List Element,
      (∀ es, mergeSkips (closeRun run ++ pieces ++ es) =
        mergeSkips (closeRun run ++ piece marker (duration / (divisions.getD 1 : Int)) :: es)) ∧
      (decodeItems d run (skipItems divisions marker duration ++ rest)).unbounded =
        (fun r => (closeRun run ++ pieces ++ r.1, r.2)) <$>
          (decodeItems (d.afterPiece marker) none rest).unbounded := by
  obtain ⟨divisions, rfl⟩ := Option.isSome_iff_exists.mp splits.declared
  refine ⟨_, fun es => ?_, decodeItems_pieces d run rest h splits.types_ne_nil⟩
  rw [Option.getD_some, ← splits.sum_quarters, List.append_assoc]
  exact mergeSkips_congr (mergeSkips_pieces marker splits.types_ne_nil es) _

/-- **The items of the elements of a measure are read as these elements**, up to the way in which
backups and forwards are cut into pieces. -/
theorem value_decodeItems_elementItems {s : EncodingState} {d : DecodingState} {es : List Element}
    (h : AlongElements EncodingState.Expressible s es) (synced : Synced s d)
    (run : Option Attributes) :
    mergeSkips (decodeItems d run (elementItems s es)).value.1 =
        mergeSkips (echoElements s d run es).1 ∧
      (decodeItems d run (elementItems s es)).value.2 = (echoElements s d run es).2 := by
  induction es generalizing s d run with
  | nil => exact ⟨rfl, rfl⟩
  | cons e es ih =>
    obtain ⟨first, along⟩ := h
    rw [elementItems]
    cases e with
    | attributes a =>
      rw [EncodingState.items, value_decodeItems_attributes]
      exact ih along (synced.attributes a) _
    | note n =>
      obtain ⟨same, state⟩ := ih along (synced.note n) none
      rw [EncodingState.items, List.singleton_append, decodeItems_note, Reported.value_bind,
        DecodingState.value_note_noteItem first.formed synced, Reported.value_map]
      refine ⟨?_, state⟩
      exact mergeSkips_congr (mergeSkips_congr same [_]) (closeRun run)
    | backup t =>
      obtain ⟨pieces, merge, read⟩ := value_decodeItems_skipItems (.inl rfl) first.formed d run
        (elementItems (s.after (.backup t)) es)
      obtain ⟨same, state⟩ := ih along (.fresh rfl { d with sticky := {} } rfl) none
      rw [EncodingState.items, ← Reported.value_unbounded, read, Reported.value_map,
        Reported.value_unbounded]
      refine ⟨?_, state⟩
      rw [merge]
      exact mergeSkips_congr (mergeSkips_congr same [_]) (closeRun run)
    | forward t =>
      obtain ⟨pieces, merge, read⟩ := value_decodeItems_skipItems (.inr rfl) first.formed d run
        (elementItems (s.after (.forward t)) es)
      obtain ⟨same, state⟩ := ih along ⟨synced.voice, synced.stem, synced.staff⟩ none
      rw [EncodingState.items, ← Reported.value_unbounded, read, Reported.value_map,
        Reported.value_unbounded]
      refine ⟨?_, state⟩
      rw [merge]
      exact mergeSkips_congr (mergeSkips_congr same [_]) (closeRun run)

/-! ## Notes among the elements -/

theorem filterMap_note?_closeRun (run : Option Attributes) :
    (closeRun run).filterMap Element.note? = [] := by
  cases run with
  | none => rfl
  | some a => rfl

/-- Merging backups and forwards keeps what is seen of other elements. -/
theorem flatMap_mergeSkips {β : Type} {f : Element → List β} (backup : ∀ d, f (.backup d) = [])
    (forward : ∀ d, f (.forward d) = []) (es : List Element) :
    (mergeSkips es).flatMap f = es.flatMap f := by
  have join (e : Element) (es : List Element) :
      (joinSkip e es).flatMap f = (e :: es).flatMap f := by
    unfold joinSkip
    split
    · simp only [List.flatMap_cons, backup]
      rfl
    · simp only [List.flatMap_cons, forward]
      rfl
    · rfl
  induction es with
  | nil => rfl
  | cons e es ih =>
    show (joinSkip e (mergeSkips es)).flatMap f = _
    rw [join, List.flatMap_cons, List.flatMap_cons, ih]

/-- Merging backups and forwards keeps the notes. -/
theorem filterMap_note?_mergeSkips (es : List Element) :
    (mergeSkips es).filterMap Element.note? = es.filterMap Element.note? := by
  rw [List.filterMap_eq_flatMap_toList, List.filterMap_eq_flatMap_toList]
  exact flatMap_mergeSkips (fun _ => rfl) (fun _ => rfl) es

/-! ## Measures -/

/-- The items of an element have their modifiers on the right sides and no positions. -/
theorem items_spelled {s : EncodingState} {e : Element} {item : Item} (h : item ∈ s.items e) :
    ∃ leading root trailing, item = Item.spelled leading root trailing ∧ root.role = .root ∧
      (∀ t ∈ leading, t.role = .leading) ∧ ∀ t ∈ trailing, t.role = .trailing := by
  have pieces (divisions : Option Int) {marker : Terminal} (hm : marker.role = .leading)
      (duration : Rat) (h : item ∈ skipItems divisions marker duration) :
      ∃ leading root trailing, item = Item.spelled leading root trailing ∧ root.role = .root ∧
        (∀ t ∈ leading, t.role = .leading) ∧ ∀ t ∈ trailing, t.role = .trailing := by
    cases divisions with
    | none => cases h
    | some d =>
      obtain ⟨t, -, rfl⟩ := List.mem_map.mp h
      exact ⟨_, _, _, rfl, rfl, by simpa using hm, List.forall_mem_nil _⟩
  cases e with
  | note n =>
    obtain rfl := List.mem_singleton.mp h
    refine ⟨_, _, _, rfl, ?_, fun t ht => (NoteFields.mem_leading ht).1,
      fun t ht => NoteFields.mem_trailing ht⟩
    unfold Note.root
    cases n.noteType <;> rfl
  | backup d => exact pieces s.divisions rfl d h
  | forward d => exact pieces s.divisions rfl d h
  | attributes a =>
    rw [EncodingState.items, Attributes.items, List.mem_append, List.mem_append] at h
    rcases h with (h | h) | h
    · obtain ⟨k, -, rfl⟩ := List.mem_map.mp h
      exact ⟨_, _, _, rfl, rfl, List.forall_mem_nil _, List.forall_mem_nil _⟩
    · obtain ⟨t, -, rfl⟩ := List.mem_map.mp h
      exact ⟨_, _, _, rfl, rfl, List.forall_mem_nil _, by simp [Terminal.role]⟩
    · obtain ⟨⟨staff, t⟩, mem, rfl⟩ := List.mem_map.mp h
      obtain ⟨sign, line, rfl⟩ := clef_of_mem_clefTable mem
      refine ⟨_, _, _, rfl, rfl, List.forall_mem_nil _, fun t ht => ?_⟩
      obtain rfl := eq_of_mem_flagged ht
      rfl

theorem mem_elementItems {s : EncodingState} {es : List Element} {item : Item}
    (h : item ∈ elementItems s es) : ∃ s e, item ∈ EncodingState.items s e := by
  induction es generalizing s with
  | nil => cases h
  | cons e es ih =>
    rcases List.mem_append.mp h with h | h
    · exact ⟨s, e, h⟩
    · exact ih h

theorem wellformed_of_mem {s : EncodingState} {es : List Element} {item : Item}
    (h : item ∈ elementItems s es) : item.Wellformed := by
  obtain ⟨s, e, h⟩ := mem_elementItems h
  obtain ⟨leading, root, trailing, rfl, hr, hl, ht⟩ := items_spelled h
  exact ⟨hr, by simpa [Item.spelled] using hl, by simpa [Item.spelled] using ht⟩

/-- No token of the items has a position. -/
theorem flatMap_tokens (s : EncodingState) (es : List Element) :
    (elementItems s es).flatMap Item.tokens =
      ((elementItems s es).flatMap Item.terminals).map Token.unplaced := by
  rw [List.map_flatMap]
  refine List.flatMap_congr fun item h => ?_
  obtain ⟨s, e, h⟩ := mem_elementItems h
  obtain ⟨leading, root, trailing, rfl, -⟩ := items_spelled h
  rw [Item.terminals_spelled]
  simp [Item.spelled, Item.tokens]

/-- The measures that are read back. -/
def echoMeasures (s : EncodingState) (d : DecodingState) (number : Int) :
    List Measure → List Measure
  | [] => []
  | m :: ms =>
    let r := echoElements s.startMeasure { d with sticky := {} } none m.elements
    { number, elements := orderChords (mergeSkips r.1) } ::
      echoMeasures (s.afterMeasure m) r.2 (number + 1) ms

/-- The tokens of the items of a measure are decoded item by item. -/
theorem decodeMeasure_items (d : DecodingState) (number : Int) (s : EncodingState)
    (es : List Element) :
    (decodeMeasure d number ((elementItems s es).flatMap Item.tokens)).unbounded =
      (fun r => ({ number, elements := orderChords (mergeSkips r.1) }, r.2)) <$>
        (decodeItems { d with sticky := {} } none (elementItems s es)).unbounded := by
  rw [decodeMeasure, Item.ofTokens_flatMap fun _ => wellformed_of_mem]
  simp only [Reported.unbounded_bind, Checked.unbounded_reported, pure_bind,
    Machine.value_integer, Machine.value_mergeSkips, Reported.unbounded_pure, map_eq_pure_bind]

theorem value_decodeMeasures {s : EncodingState} {ms : List Measure}
    (h : AlongMeasures EncodingState.Expressible s ms) (d : DecodingState) (number : Int) :
    (decodeMeasures d number
      ((measureItems s ms).map fun items => items.flatMap Item.tokens)).value =
      echoMeasures s d number ms := by
  induction ms generalizing s d number with
  | nil => rfl
  | cons m ms ih =>
    obtain ⟨first, rest⟩ := h
    obtain ⟨same, state⟩ := value_decodeItems_elementItems first
      (.fresh rfl { d with sticky := {} } rfl) none
    have read := congrArg Reported.value (decodeMeasure_items d number s.startMeasure m.elements)
    rw [Reported.value_unbounded, Reported.value_map, Reported.value_unbounded, same, state] at read
    rw [measureItems, List.map_cons, decodeMeasures, Reported.value_bind, read, Reported.value_bind,
      Reported.value_pure, ih rest]
    rfl

/-! ## Parts -/

/-- Each note has at most as many dots as one byte can count. -/
def Part.DotsFit (p : Part) : Prop := ∀ m ∈ p.measures, ∀ n ∈ m.notes, n.dots ≤ countLimit

instance (p : Part) : Decidable p.DotsFit :=
  inferInstanceAs (Decidable (∀ m ∈ p.measures, ∀ n ∈ m.notes, n.dots ≤ countLimit))

/-- The last steps of decoding. -/
def Part.finish (quarters : Bool) (p : Part) : Reported Part := do
  let p ← (Machine.inferAlterations p.declareStaves).reported
  if quarters then return p else ticksOf p

/-- The last steps of decoding with integers of any size. -/
theorem Part.unbounded_finish (quarters : Bool) (p : Part) :
    (p.finish quarters).unbounded =
      if quarters then pure p.declareStaves.inferAlterations
      else (ticksOf p.declareStaves.inferAlterations).unbounded := by
  rw [finish, Reported.unbounded_bind, Checked.unbounded_reported, pure_bind,
    Machine.value_inferAlterations]
  split
  · rfl
  · rfl

theorem Part.value_finish (quarters : Bool) (p : Part) :
    (p.finish quarters).value =
      if quarters then p.declareStaves.inferAlterations
      else (ticksOf p.declareStaves.inferAlterations).value := by
  rw [← Reported.value_unbounded, unbounded_finish, apply_ite Reported.value]
  rfl

theorem decodeTokens_eq (quarters : Bool) (tokens : List Token) :
    decodeTokens quarters tokens = (do
      let clusters ← measureClusters tokens
      let measures ← decodeMeasures {} 1 clusters
      (Part.mk "P1" "" measures).finish quarters) := by
  unfold decodeTokens decodeQuarters Part.finish
  simp only [bind_assoc]

/-- The stream of items is decoded item by item. -/
theorem decodeTokens_stream (quarters : Bool) (s : EncodingState) (ms : List Measure) :
    decodeTokens quarters ((streamOf (measureItems s ms)).map Token.unplaced) = (do
      let measures ← decodeMeasures {} 1
        ((measureItems s ms).map fun items => items.flatMap Item.tokens)
      (Part.mk "P1" "" measures).finish quarters) := by
  have clusters : (streamOf (measureItems s ms)).map Token.unplaced =
      ((measureItems s ms).map fun items => items.flatMap Item.tokens).flatMap
        (Token.unplaced .measure :: ·) := by
    induction ms generalizing s with
    | nil => rfl
    | cons m ms ih =>
      rw [measureItems, streamOf, List.flatMap_cons, List.map_append, List.map_cons,
        List.map_cons, List.flatMap_cons, flatMap_tokens]
      exact congrArg (_ ++ ·) (ih (s.afterMeasure m))
  have bodies (s : EncodingState) (ms : List Measure) :
      ∀ body ∈ (measureItems s ms).map (fun items => items.flatMap Item.tokens),
        ∀ t ∈ body, t.terminal ≠ .measure := by
    induction ms generalizing s with
    | nil => exact List.forall_mem_nil _
    | cons m ms ih =>
      rw [measureItems, List.map_cons, List.forall_mem_cons]
      refine ⟨fun t ht => ?_, ih _⟩
      obtain ⟨item, mem, ht⟩ := List.mem_flatMap.mp ht
      exact (wellformed_of_mem mem).ne_measure t ht
  rw [decodeTokens_eq, clusters, measureClusters_flatMap rfl (bodies s ms), pure_bind]

section Parts

variable {p : Part} (h : p.Along EncodingState.Expressible) (quarters : Bool)
include h

theorem value_encode :
    p.encode.value = (streamOf (measureItems {} p.measures)).map Terminal.text := by
  rw [Part.encode, Reported.value_bind, Part.encodeTerminals, value_encodeMeasures _ h]
  rfl

/-- **What a part that is written in full is decoded to.** -/
theorem value_decodeTexts_encode :
    (decodeTexts quarters p.encode.value).value =
      ((Part.mk "P1" "" (echoMeasures {} {} 1 p.measures)).finish quarters).value := by
  rw [value_encode h, decodeTexts, Reported.value_bind, value_decodeTokens,
    Token.ofTexts_map_text (valid_streamOf h), decodeTokens_stream, Reported.value_bind,
    value_decodeMeasures h]

/-- Nothing is reported of it if nothing is reported of its items. -/
theorem diagnostics_decodeTexts_encode
    (items : (decodeMeasures {} 1
      ((measureItems {} p.measures).map fun items => items.flatMap Item.tokens)).diagnostics = [])
    (finish : ((Part.mk "P1" "" (echoMeasures {} {} 1 p.measures)).finish quarters).diagnostics =
      []) :
    (decodeTexts quarters p.encode.value).diagnostics = [] := by
  rw [value_encode h, decodeTexts, Reported.diagnostics_bind,
    Token.diagnostics_ofTexts_map_text (valid_streamOf h), List.nil_append,
    diagnostics_decodeTokens_eq_nil, Token.ofTexts_map_text (valid_streamOf h),
    decodeTokens_stream, Reported.diagnostics_bind, items, value_decodeMeasures h, finish]
  rfl

/-- It is decoded to the end if all numbers of its items and of the last steps are held. -/
theorem fits_decodeTexts_encode :
    (decodeTexts quarters p.encode.value).fits =
      ((decodeMeasures {} 1
        ((measureItems {} p.measures).map fun items => items.flatMap Item.tokens)).fits &&
        ((Part.mk "P1" "" (echoMeasures {} {} 1 p.measures)).finish quarters).fits) := by
  rw [value_encode h, decodeTexts, Reported.fits_bind, fits_decodeTokens_unplaced,
    Token.ofTexts_map_text (valid_streamOf h), decodeTokens_stream, Reported.fits_bind,
    value_decodeMeasures h]
  rfl

end Parts

end LinearScore
