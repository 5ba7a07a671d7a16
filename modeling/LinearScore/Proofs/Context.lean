import LinearScore.Proofs.ChordOrder
import LinearScore.Proofs.ClefTable
import LinearScore.Proofs.HeldStreams
import LinearScore.Proofs.Passes

/-!
# Key, time signature and clefs in force

Attributes hold until others take their place.  On the way to tokens and back the time signature in
force stays the same at each note.  Clefs are numbered behind a declaration of staves only, so the
clefs that come back are those of the part in normal form: they are the same as long as only the
first staff has clefs or a number of staves has been declared.  The key stays the same where the
attributes that state it stand behind no other key in their row.  A second key in a row is written,
and the decoder refuses it.

## Main definitions

* `Context`: what is in force
* `SourceContext`: what is in force in a part that is written, and what tokens say of it
* `ContextKept`: what is in force at a note that comes back

The main statements are `contexts_eq_seen` and `contexts_decodeTexts_encode`.
-/

namespace LinearScore

variable {σ : Type}

/-- A clef without its number, the letter of its sign in upper case. -/
def Clef.kind (c : Clef) : String × Int := (c.sign.toUpper, c.line)

/-- The clef of a staff among clefs, without its number. -/
def clefKind (staff : Nat) (clefs : List Clef) : Option (String × Int) :=
  (lastClef staff clefs).map Clef.kind

/-- The key, the time signature and the clef of each staff in force. -/
@[ext]
structure Context where
  key : Option KeySignature := none
  time : Option TimeSignature := none
  clef : Nat → Option (String × Int) := fun _ => none

/-- What is in force behind an element. -/
def Context.after (c : Context) : Element → Context
  | .attributes a =>
    { key := a.key.or c.key
      time := a.time.or c.time
      clef := fun staff => (clefKind staff a.clefs).or (c.clef staff) }
  | _ => c

/-- The states at the notes among elements. -/
def atNotes (after : σ → Element → σ) (s : σ) : List Element → List σ
  | [] => []
  | e :: es => (e.note?.map fun _ => s).toList ++ atNotes after (after s e) es

/-- What is in force behind elements, and at each note among them. -/
def Context.elements (c : Context) (es : List Element) : Context × List Context :=
  (es.foldl after c, atNotes after c es)

/-- What is in force at each note of each measure. -/
def Part.contexts (p : Part) : List (List Context) :=
  (thread Context.elements {} (p.measures.map Measure.elements)).2

/-- What is in force in a part that is written, and what tokens say of it. -/
structure SourceContext extends Context where
  /-- The first key that the attributes in a row have stated. -/
  runKey : Option KeySignature := none
  /-- The key in force when only the first one of the attributes in a row counts. -/
  firstKey : Option KeySignature := none
  /-- The attributes that stated the key in force stand behind no other key in their row. -/
  keyFirst : Bool := true
  /-- A number of staves has been declared. -/
  declared : Bool := false
  /-- Each clef was stated behind such a declaration or for the first staff. -/
  clefsPlaced : Bool := true
  /-- The clefs in force when those of all attributes are in normal form. -/
  normalClef : Nat → Option (String × Int) := fun _ => none

namespace SourceContext

/-- What is in force behind an element. -/
def after (c : SourceContext) : Element → SourceContext
  | .attributes a =>
    let declared := c.declared || a.staves.isSome
    { c.toContext.after (.attributes a) with
      runKey := c.runKey.or a.key
      firstKey := (c.runKey.or a.key).or c.firstKey
      keyFirst := a.key.elim c.keyFirst fun k => c.runKey.getD k = k
      declared
      clefsPlaced := c.clefsPlaced && (declared || a.clefs.all (·.staff = 1))
      normalClef := fun staff =>
        (clefKind staff (normalClefs declared a.clefs)).or (c.normalClef staff) }
  | _ => { c with runKey := none }

/-- What is in force behind the elements of a measure, and at each note among them. -/
def elements (c : SourceContext) (es : List Element) : SourceContext × List SourceContext :=
  let start := { c with runKey := none }
  (es.foldl after start, atNotes after start es)

/-- What tokens say is in force. -/
def seen (c : SourceContext) : Context where
  key := c.firstKey
  time := c.time
  clef := c.normalClef

end SourceContext

/-- What is in force at each note of each measure of a part that is written. -/
def Part.sourceContexts (p : Part) : List (List SourceContext) :=
  (thread SourceContext.elements {} (p.measures.map Measure.elements)).2

/-- What is in force at a note that comes back, beside what was in force at the note. -/
structure ContextKept (source : SourceContext) (c : Context) : Prop where
  time : c.time = source.time
  key : source.keyFirst = true → c.key = source.key
  normalClef : c.clef = source.normalClef
  clef : source.clefsPlaced = true → c.clef = source.clef

/-! ## The states at notes -/

theorem atNotes_append (after : σ → Element → σ) (s : σ) (as bs : List Element) :
    atNotes after s (as ++ bs) = atNotes after s as ++ atNotes after (as.foldl after s) bs := by
  induction as generalizing s with
  | nil => rfl
  | cons a as ih =>
    rw [List.cons_append, atNotes, ih, atNotes, List.append_assoc]
    rfl

/-- What holds at the start and is kept by each element holds at each note. -/
theorem forall_atNotes {after : σ → Element → σ} {I : σ → Prop}
    (step : ∀ s e, I s → I (after s e)) {s : σ} (hs : I s) (es : List Element) :
    (∀ c ∈ atNotes after s es, I c) ∧ I (es.foldl after s) := by
  induction es generalizing s with
  | nil => exact ⟨List.forall_mem_nil _, hs⟩
  | cons e es ih =>
    obtain ⟨notes, last⟩ := ih (step s e hs)
    refine ⟨List.forall_mem_append.mpr ⟨fun c hc => ?_, notes⟩, last⟩
    obtain ⟨-, -, rfl⟩ := Option.map_eq_some_iff.mp (Option.mem_toList.mp hc)
    exact hs

/-- The states on one side are seen in those on the other if each element keeps them so. -/
theorem map_atNotes {τ : Type} {after : σ → Element → σ} {after' : τ → Element → τ} {f : σ → τ}
    (step : ∀ s e, f (after s e) = after' (f s) e) (s : σ) (es : List Element) :
    (atNotes after s es).map f = atNotes after' (f s) es ∧
      f (es.foldl after s) = es.foldl after' (f s) := by
  induction es generalizing s with
  | nil => exact ⟨rfl, rfl⟩
  | cons e es ih =>
    obtain ⟨notes, last⟩ := ih (after s e)
    rw [step] at notes last
    refine ⟨?_, last⟩
    rw [atNotes, atNotes, List.map_append, notes]
    cases e.note? with
    | none => rfl
    | some n => rfl

/-! ## The part that is written -/

theorem clefKind_normalClefs_true (staff : Nat) (clefs : List Clef) :
    clefKind staff (normalClefs true clefs) = clefKind staff clefs := by
  rw [clefKind, lastClef_normalClefs_true, Option.map_map]
  rfl

theorem clefKind_normalClefs_false {clefs : List Clef} (first : ∀ c ∈ clefs, c.staff = 1)
    (staff : Nat) : clefKind staff (normalClefs false clefs) = clefKind staff clefs := by
  rw [clefKind, lastClef_normalClefs_false first, Option.map_map]
  rfl

namespace SourceContext

/-- Where the keys and clefs are unambiguous, tokens say what is in force. -/
structure Coherent (c : SourceContext) : Prop where
  run : c.runKey.or c.firstKey = c.firstKey
  key : c.keyFirst = true → c.firstKey = c.key
  clef : c.clefsPlaced = true → c.normalClef = c.clef

theorem Coherent.fresh {c : SourceContext} (h : c.Coherent) :
    Coherent { c with runKey := none } := ⟨rfl, h.key, h.clef⟩

theorem Coherent.after {c : SourceContext} (h : c.Coherent) (e : Element) :
    (c.after e).Coherent := by
  cases e with
  | note n => exact h.fresh
  | backup d => exact h.fresh
  | forward d => exact h.fresh
  | attributes a =>
    refine ⟨?_, fun first => ?_, fun placed => ?_⟩
    · show (c.runKey.or a.key).or ((c.runKey.or a.key).or c.firstKey) = _
      rw [← Option.or_assoc, Option.or_self]
      rfl
    · show (c.runKey.or a.key).or c.firstKey = a.key.or c.key
      cases ha : a.key with
      | none =>
        have same : c.keyFirst = true := by simpa [SourceContext.after, ha] using first
        rw [Option.or_none, h.run, h.key same]
        rfl
      | some k =>
        have same : c.runKey.getD k = k := by simpa [SourceContext.after, ha] using first
        cases hr : c.runKey with
        | none => rfl
        | some r =>
          rw [hr] at same
          exact congrArg some same
    · obtain ⟨before, here⟩ := Bool.and_eq_true_iff.mp placed
      funext staff
      show (clefKind staff (normalClefs _ a.clefs)).or (c.normalClef staff) =
        (clefKind staff a.clefs).or (c.clef staff)
      rw [h.clef before]
      cases hd : (c.declared || a.staves.isSome) with
      | true => rw [clefKind_normalClefs_true]
      | false =>
        rw [hd, Bool.false_or, List.all_eq_true] at here
        rw [clefKind_normalClefs_false fun c hc => by simpa using here c hc]

end SourceContext

/-- What is in force in a part that is written is what is in force in it. -/
theorem map_sourceContexts (p : Part) :
    p.sourceContexts.map (List.map SourceContext.toContext) = p.contexts := by
  have step (c : SourceContext) (e : Element) :
      (c.after e).toContext = c.toContext.after e := by
    cases e <;> rfl
  have measures (c : SourceContext) (ms : List (List Element)) :
      (thread SourceContext.elements c ms).2.map (List.map SourceContext.toContext) =
        (thread Context.elements c.toContext ms).2 := by
    induction ms generalizing c with
    | nil => rfl
    | cons es ms ih =>
      obtain ⟨notes, last⟩ := map_atNotes step { c with runKey := none } es
      rw [thread_cons, thread_cons, List.map_cons, ih]
      exact congr (congrArg _ notes) (congrArg (fun c => (thread Context.elements c ms).2) last)
  exact measures {} _

theorem coherent_of_mem_sourceContexts {p : Part} {cs : List SourceContext}
    (hcs : cs ∈ p.sourceContexts) {c : SourceContext} (hc : c ∈ cs) : c.Coherent := by
  have measures (s : SourceContext) (hs : s.Coherent) (ms : List (List Element)) :
      ∀ cs ∈ (thread SourceContext.elements s ms).2, ∀ c ∈ cs, c.Coherent := by
    induction ms generalizing s with
    | nil => exact List.forall_mem_nil _
    | cons es ms ih =>
      obtain ⟨notes, last⟩ := @forall_atNotes _ SourceContext.after SourceContext.Coherent
        (fun _ e h => h.after e) _ hs.fresh es
      rw [thread_cons]
      exact List.forall_mem_cons.mpr ⟨notes, ih _ last⟩
  exact measures {} ⟨rfl, fun _ => rfl, fun _ => rfl⟩ _ cs hcs c hc

/-! ## Elements that are read back -/

/-- What is in force behind a run of attributes. -/
def Context.afterRun (c : Context) (run : Option Attributes) : Context :=
  c.after (.attributes (run.getD {}))

theorem Context.after_empty (c : Context) : c.after (.attributes {}) = c := rfl

theorem Context.foldl_closeRun (c : Context) (run : Option Attributes) :
    (closeRun run).foldl after c = c.afterRun run := by
  cases run with
  | none => exact (c.after_empty).symm
  | some a => rfl

theorem getD_addToRun (run : Option Attributes) (a : Attributes) :
    (addToRun run a).getD {} = if a = {} then run.getD {} else (run.getD {}).joined a := by
  unfold addToRun
  split
  · rfl
  · rfl

/-- More attributes in a run count like attributes behind it, but for the key. -/
theorem Context.afterRun_addToRun (c : Context) (run : Option Attributes) (a : Attributes) :
    c.afterRun (addToRun run a) =
      { (c.afterRun run).after (.attributes a) with
        key := ((run.getD {}).key.or a.key).or c.key } := by
  unfold afterRun
  rw [getD_addToRun]
  split
  · rename_i empty
    rw [empty, after_empty]
    simp only [after, Option.or_none]
  · simp only [after, Attributes.joined, Option.or_assoc, clefKind, lastClef_append,
      Option.map_or]

theorem key_addToRun (run : Option Attributes) (a : Attributes) :
    ((addToRun run a).getD {}).key = (run.getD {}).key.or a.key := by
  rw [getD_addToRun]
  split
  · rename_i empty
    rw [empty, Option.or_none]
  · rfl

theorem kind_upper {c : Clef} (h : c.terminal?.isSome = true) : c.upper.kind = c.kind := by
  obtain ⟨t, ht⟩ := Option.isSome_iff_exists.mp h
  obtain ⟨sign, named, -⟩ := Option.map_eq_some_iff.mp ht
  show (c.sign.toUpper.toUpper, c.line) = (c.sign.toUpper, c.line)
  rw [← toUpper_of_ofName? named, toUpper_name]

theorem valid_of_mem_clefTable {s : EncodingState} {a : Attributes}
    (h : s.Expressible (.attributes a)) : ∀ entry ∈ clefTable a.clefs, entry.2.valid = true := by
  intro entry mem
  have item : clefItem (s.afterAttributes a).staves.isSome entry ∈ s.items (.attributes a) :=
    List.mem_append_right _ (List.mem_map_of_mem mem)
  exact h.valid _ item entry.2 (by simp [clefItem])

/-- The clef of each staff that comes back is the one in normal form. -/
theorem clefKind_shown {s : EncodingState} {a : Attributes} (h : s.Expressible (.attributes a))
    (numbered : Bool) (staff : Nat) :
    clefKind staff (a.shown numbered).clefs = clefKind staff (normalClefs numbered a.clefs) := by
  have clefs : (a.shown numbered).clefs = (normalClefs numbered a.clefs).map Clef.upper :=
    shownClefs_clefTable h.formed (valid_of_mem_clefTable h) numbered
  have filtered : ((normalClefs numbered a.clefs).map Clef.upper).filter (·.staff = staff) =
      ((normalClefs numbered a.clefs).filter (·.staff = staff)).map Clef.upper := by
    rw [List.filter_map]
    rfl
  rw [clefs, clefKind, clefKind, lastClef, lastClef, filtered, List.getLast?_map, Option.map_map]
  refine Option.map_congr fun c hc => ?_
  obtain ⟨c', mem, number, rfl⟩ :=
    exists_of_mem_normalClefs (List.mem_of_mem_filter (List.mem_of_getLast? hc))
  exact kind_upper (c := { c' with number }) (h.formed c' mem)

/-- The reader is where the writer is: behind the pending run `run` of attributes, what is in force
is what tokens say. -/
structure Tracks (source : SourceContext) (s : EncodingState) (c : Context)
    (run : Option Attributes) : Prop where
  declared : source.declared = s.staves.isSome
  key : (run.getD {}).key = source.runKey
  seen : c.afterRun run = source.seen

theorem Tracks.attributes {source : SourceContext} {s : EncodingState} {c : Context}
    {run : Option Attributes} (h : Tracks source s c run) {a : Attributes}
    (expressible : s.Expressible (.attributes a)) :
    Tracks (source.after (.attributes a)) (s.afterAttributes a) c
      (addToRun run (a.shown (s.afterAttributes a).staves.isSome)) where
  declared := by
    show (source.declared || a.staves.isSome) = (a.staves.or s.staves).isSome
    rw [h.declared, Option.isSome_or, Bool.or_comm]
  key := by
    rw [key_addToRun, h.key]
    rfl
  seen := by
    have declared : (s.afterAttributes a).staves.isSome =
        (source.declared || a.staves.isSome) := by
      show (a.staves.or s.staves).isSome = _
      rw [h.declared, Option.isSome_or, Bool.or_comm]
    rw [Context.afterRun_addToRun, h.seen, h.key, declared]
    refine Context.ext ?_ rfl (funext fun staff => ?_)
    · -- a key of the run hides the one before, which the run has already replaced
      have firstKey : source.firstKey = source.runKey.or c.key := by
        rw [← h.key]
        exact congrArg Context.key h.seen.symm
      show (source.runKey.or a.key).or c.key = (source.runKey.or a.key).or source.firstKey
      rw [firstKey]
      cases source.runKey with
      | none => rfl
      | some k => rfl
    · exact congrArg (Option.or · _) (clefKind_shown expressible _ staff)

/-- At an element that is no attributes, what is in force comes back. -/
theorem Tracks.closed {source : SourceContext} {s s' : EncodingState} {c : Context}
    {run : Option Attributes} (h : Tracks source s c run) (staves : s'.staves = s.staves) :
    Tracks { source with runKey := none } s' (c.afterRun run) none where
  declared := by rw [staves, ← h.declared]
  key := rfl
  seen := h.seen

/-- At the notes that come back the same is in force as tokens say of the notes that were
written. -/
theorem atNotes_echoElements {s : EncodingState} {es : List Element}
    (expressible : AlongElements EncodingState.Expressible s es) (d : DecodingState)
    {source : SourceContext} {c : Context} {run : Option Attributes} (h : Tracks source s c run) :
    atNotes Context.after c (echoElements s d run es).1 =
        (atNotes SourceContext.after source es).map SourceContext.seen ∧
      (echoElements s d run es).1.foldl Context.after c =
        (es.foldl SourceContext.after source).seen ∧
      (es.foldl SourceContext.after source).declared =
        (es.foldl EncodingState.after s).staves.isSome := by
  have closeRun_notes (c : Context) (run : Option Attributes) :
      atNotes Context.after c (closeRun run) = [] := by
    cases run with
    | none => rfl
    | some a => rfl
  induction es generalizing s d source c run with
  | nil => exact ⟨closeRun_notes c run, (c.foldl_closeRun run).trans h.seen, h.declared⟩
  | cons e es ih =>
    obtain ⟨first, along⟩ := expressible
    cases e with
    | attributes a => exact ih along _ (h.attributes first)
    | note n =>
      obtain ⟨notes, last, declared⟩ := ih along (d.afterEcho n) (h.closed rfl)
      rw [echoElements, atNotes_append, closeRun_notes, List.foldl_append, c.foldl_closeRun]
      refine ⟨?_, last, declared⟩
      exact congrArg₂ List.cons h.seen notes
    | backup t =>
      rw [echoElements, atNotes_append, closeRun_notes, List.foldl_append, c.foldl_closeRun]
      exact ih along _ (h.closed rfl)
    | forward t =>
      rw [echoElements, atNotes_append, closeRun_notes, List.foldl_append, c.foldl_closeRun]
      exact ih along _ (h.closed rfl)

/-! ## Parts that are read back -/

/-- What an element tells of keys, time signatures and clefs, and that it is a note. -/
def Element.frame : Element → List Element
  | .attributes a =>
    let told : Attributes := { key := a.key, time := a.time, clefs := a.clefs }
    if told = {} then [] else [.attributes told]
  | .note _ => [.note {}]
  | _ => []

theorem steady_frame (quarters : Bool) : Steady quarters Element.frame where
  staves _ _ := rfl
  alter _ _ _ _ := rfl
  divisions _ _ _ := rfl
  durations _ g e := by
    cases e with
    | note n => rfl
    | attributes a => rfl
    | backup d => rfl
    | forward d => rfl
  empty _ := rfl

theorem Context.elements_append (c : Context) (as bs : List Element) :
    c.elements (as ++ bs) =
      (((c.elements as).1.elements bs).1, (c.elements as).2 ++ ((c.elements as).1.elements bs).2) :=
  Prod.ext (List.foldl_append ..) (atNotes_append ..)

/-- What is in force depends on what elements tell of it. -/
theorem Context.elements_frame (c : Context) (es : List Element) :
    c.elements (es.flatMap Element.frame) = c.elements es := by
  have one (c : Context) (e : Element) : c.elements e.frame = c.elements [e] := by
    cases e with
    | attributes a =>
      rw [Element.frame]
      split
      · rename_i empty
        obtain ⟨key, time, clefs⟩ : a.key = none ∧ a.time = none ∧ a.clefs = [] := by
          simpa using empty
        show (c, []) = (c.after (.attributes a), [])
        rw [after, key, time, clefs]
        rfl
      · rfl
    | note n => rfl
    | backup d => rfl
    | forward d => rfl
  induction es generalizing c with
  | nil => rfl
  | cons e es ih =>
    rw [List.flatMap_cons, elements_append, one, ih, ← elements_append]
    rfl

theorem contexts_congr {p q : Part}
    (h : p.measures.map (Measure.shown Element.frame) =
      q.measures.map (Measure.shown Element.frame)) : p.contexts = q.contexts := by
  have framed (p : Part) : p.contexts =
      (thread Context.elements {} (p.measures.map (Measure.shown Element.frame))).2 := by
    unfold Part.contexts
    generalize ({} : Context) = c
    induction p.measures generalizing c with
    | nil => rfl
    | cons m ms ih =>
      rw [List.map_cons, List.map_cons, thread_cons, thread_cons, Measure.shown,
        c.elements_frame, ih]
  rw [framed, framed, h]

theorem contexts_echoMeasures {s : EncodingState} {ms : List Measure}
    (clean : AlongMeasures EncodingState.Clean s ms) (d : DecodingState) {source : SourceContext}
    (declared : source.declared = s.staves.isSome) (number : Int) :
    (thread Context.elements source.seen ((echoMeasures s d number ms).map Measure.elements)).2 =
      (thread SourceContext.elements source (ms.map Measure.elements)).2.map
        (List.map SourceContext.seen) := by
  induction ms generalizing s d source number with
  | nil => rfl
  | cons m ms ih =>
    obtain ⟨here, along⟩ := clean
    have start : Tracks { source with runKey := none } s.startMeasure source.seen none :=
      ⟨declared, rfl, rfl⟩
    obtain ⟨notes, last, next⟩ := atNotes_echoElements
      (here.imp fun _ _ clean => clean.expressible) { d with sticky := {} } start
    have merged (c : Context) (es : List Element) : c.elements (mergeSkips es) = c.elements es := by
      rw [← c.elements_frame, flatMap_mergeSkips (fun _ => rfl) (fun _ => rfl), c.elements_frame]
    rw [echoMeasures, List.map_cons, List.map_cons, thread_cons, thread_cons, List.map_cons,
      orderChords_echoElements here, merged]
    refine congrArg₂ List.cons notes ?_
    show (thread Context.elements (List.foldl _ _ _) _).2 = _
    rw [last]
    exact ih along _ next _

/-- What tokens say is in force comes back. -/
theorem contexts_eq_seen {p : Part} (clean : p.encode.diagnostics = []) (quarters : Bool) :
    (decodeTexts quarters p.encode.value).value.contexts =
      p.sourceContexts.map (List.map SourceContext.seen) := by
  have along := along_of_diagnostics_eq_nil clean
  have same := map_finish (steady_frame quarters)
    (Part.mk "P1" "" (echoMeasures {} {} 1 p.measures))
  have seen : (Part.mk "P1" "" (echoMeasures {} {} 1 p.measures)).contexts =
      p.sourceContexts.map (List.map SourceContext.seen) :=
    @contexts_echoMeasures _ _ along {} {} rfl 1
  rw [value_decodeTexts_encode (along.imp fun _ _ clean => clean.expressible),
    contexts_congr same, seen]

/-- **The attributes in force** in a part of which nothing is reported come back: the time
signature, the clefs in normal form, and the key where the attributes that state it stand behind no
other one in their row. -/
theorem contexts_decodeTexts_encode {p : Part} {texts : List String}
    (written : p.encode.outcome = some (texts, [])) (quarters : Bool) :
    (∀ q reports, (decodeTexts quarters texts).outcome = some (q, reports) →
      List.Forall₂ (List.Forall₂ ContextKept) p.sourceContexts q.contexts) ∧
    ∀ dots, Moderate 25 dots texts → (decodeTexts quarters texts).outcome.isSome = true := by
  refine ⟨fun q reports read => ?_, fun dots moderate => ?_⟩
  · obtain ⟨-, rfl, clean⟩ := Reported.outcome_eq_some_iff.mp written
    obtain ⟨-, rfl, -⟩ := Reported.outcome_eq_some_iff.mp read
    rw [contexts_eq_seen clean, List.forall₂_map_right_iff]
    refine List.forall₂_same.mpr fun cs hcs => ?_
    rw [List.forall₂_map_right_iff]
    refine List.forall₂_same.mpr fun c hc => ?_
    have coherent := coherent_of_mem_sourceContexts hcs hc
    exact ⟨rfl, coherent.key, rfl, coherent.clef⟩
  · rw [Reported.outcome_of_fits (moderate.fits_decodeTexts quarters)]
    rfl

/-- A key and clefs for two staves in the wrong order, then another time signature and another
clef for the second staff in front of a note. -/
def Part.changingClefs : Part where
  id := "P1"
  measures :=
    [{ number := 1
       elements :=
        [.attributes
           { divisions := some 1, key := some ⟨2⟩, time := some ⟨4, 4⟩, staves := some 2
             clefs := [⟨some 2, "F", 4⟩, ⟨some 1, "g", 2⟩] },
         .note (Note.pitched .e 4 .half 2),
         .attributes { clefs := [⟨some 2, "C", 3⟩, ⟨some 2, "C", 4⟩] },
         .note (Note.pitched .e 3 .half 2)] },
     { number := 2
       elements :=
        [.attributes { key := some ⟨-1⟩, time := some ⟨2, 4⟩ },
         .note (Note.pitched .e 4 .half 2)] }]

theorem contexts_changingClefs :
    ∃ texts q, Part.changingClefs.encode.outcome = some (texts, []) ∧
      (decodeTexts false texts).outcome = some (q, []) ∧
      List.Forall₂ (List.Forall₂ ContextKept) Part.changingClefs.sourceContexts q.contexts := by
  have written : Part.changingClefs.encode.outcome =
      some (Part.changingClefs.encode.value, []) := by decide +kernel
  have read : (decodeTexts false Part.changingClefs.encode.value).outcome =
      some ((decodeTexts false Part.changingClefs.encode.value).value, []) := by decide +kernel
  exact ⟨_, _, written, read, (contexts_decodeTexts_encode written false).1 _ _ read⟩

/-- A second key in a row of attributes, and a clef for a staff that has not been declared. -/
def Part.restated : Part where
  id := "P1"
  measures :=
    [{ number := 1
       elements :=
        [.attributes { key := some ⟨1⟩ },
         .attributes { key := some ⟨2⟩, clefs := [⟨some 2, "F", 4⟩] },
         .note { grace := some ⟨false⟩, noteType := some .quarter }] }]

/-- Nothing is reported of them, and the first key and no clef for the second staff come back. -/
theorem restated_not_kept :
    ∃ texts q reports, Part.restated.encode.outcome = some (texts, []) ∧
      (decodeTexts false texts).outcome = some (q, reports) ∧ q.contexts ≠ Part.restated.contexts ∧
      Part.restated.contexts.map (List.map fun c => (c.key, c.clef 2)) =
        [[(some ⟨2⟩, some ("F", 4))]] ∧
      q.contexts.map (List.map fun c => (c.key, c.clef 2)) = [[(some ⟨1⟩, none)]] := by
  have written : Part.restated.contexts.map (List.map fun c => (c.key, c.clef 2)) =
      [[(some ⟨2⟩, some ("F", 4))]] := by decide +kernel
  have read : (decodeTexts false Part.restated.encode.value).value.contexts.map
      (List.map fun c => (c.key, c.clef 2)) = [[(some ⟨1⟩, none)]] := by decide +kernel
  have encoded : Part.restated.encode.outcome = some (Part.restated.encode.value, []) := by
    decide +kernel
  refine ⟨_, _, _, encoded, Reported.outcome_of_fits (by decide +kernel), fun same => ?_, written,
    read⟩
  rw [same, written] at read
  exact absurd read (by decide)

end LinearScore
