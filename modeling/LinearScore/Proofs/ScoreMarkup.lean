import LinearScore.Proofs.ReadValues
import LinearScore.Proofs.Rewritten

/-!
# Reading a written score

The document of a score is read again: the front of the document is passed over, the list of parts
announces each part, and the measures of each part are found again behind the parts before it.  A
part behind another one of the same identifier has no measures of its own, so all measures come back
to where they were.  What is not kept of a score that was read is what is not kept of its parts.

## Main definitions

* `Score.Writable`: a score whose document is read as its parts are rewritten
* `Score.Carried`: a score whose texts and durations a document can carry
* `Markup.Reader.ReadsHeaded`: what is asked of a reader of documents

The main statements are `readScore_written` and `readScore_toMarkup`.
-/

namespace LinearScore

open Markup Markup.Outline
open Text (FitsRatio)

/-! ## The front of a document -/

namespace Markup

/-- The end of a line is passed over. -/
theorem skipAsides_feed (fuel : Nat) (cs : List Char) :
    skipAsides fuel ('\n' :: cs) = skipAsides fuel cs := by
  cases fuel <;> rfl

/-- A document with a declaration and a document type is read as its root. -/
theorem readTree_of_front {text : String} {type tail : List Char} {c : Char}
    (unmarked : ∀ d ∈ text.toList.head?, d ≠ '\uFEFF')
    (declared : skipDeclaration text.toList = some ('\n' :: ("<!DOCTYPE".toList ++ type)))
    (typed : takeDocumentType type = some ([], '\n' :: '<' :: c :: tail))
    (bang : c ≠ '!') (question : c ≠ '?') :
    readTree true text = rootTree [] ('<' :: c :: tail) := by
  have front (fuel : Nat) : skipAsides (fuel + 1) ('\n' :: ("<!DOCTYPE".toList ++ type)) =
      some ("<!DOCTYPE".toList ++ type) := by
    rw [skipAsides_feed]
    rfl
  have behind (fuel : Nat) : skipAsides (fuel + 1) ('\n' :: '<' :: c :: tail) =
      some ('<' :: c :: tail) := by
    rw [skipAsides_feed]
    exact skipAsides_margin tail 0 bang question fuel
  have found : after? "<!DOCTYPE".toList ("<!DOCTYPE".toList ++ type) = some type := by
    rfl
  unfold readTree
  dsimp only
  split
  · rename_i mark
    rw [mark] at unmarked
    exact absurd rfl (unmarked _ rfl)
  · simp only [Option.bind_eq_bind, Option.bind_some, declared, front, found, typed, behind]
    rfl

end Markup

section Front

variable (rest : List Char)

theorem toList_documentHead : documentHead.toList =
    "<?xml version=\"1.0\" encoding=\"UTF-8\"?>\n".toList ++
      ("<!DOCTYPE score-partwise PUBLIC \"-//Recordare//DTD MusicXML 4.0 Partwise//EN\" ".toList ++
        "\"http://www.musicxml.org/dtds/partwise.dtd\">\n".toList) := by
  unfold documentHead
  have parts (a b c : String) : (a ++ b ++ c).toList = a.toList ++ (b.toList ++ c.toList) := by
    rw [String.toList_append, String.toList_append, List.append_assoc]
  exact parts _ _ _

theorem skipDeclaration_written :
    skipDeclaration ("<?xml version=\"1.0\" encoding=\"UTF-8\"?>\n".toList ++ rest) =
      some ('\n' :: rest) := by
  rfl

theorem toList_documentType :
    "<!DOCTYPE score-partwise PUBLIC \"-//Recordare//DTD MusicXML 4.0 Partwise//EN\" ".toList =
      "<!DOCTYPE".toList ++
        " score-partwise PUBLIC \"-//Recordare//DTD MusicXML 4.0 Partwise//EN\" ".toList := by
  decide

theorem takeDocumentType_written :
    takeDocumentType
        (" score-partwise PUBLIC \"-//Recordare//DTD MusicXML 4.0 Partwise//EN\" ".toList ++
          ("\"http://www.musicxml.org/dtds/partwise.dtd\">\n".toList ++ rest)) =
      some ([], '\n' :: rest) := by
  rfl

end Front

/-- A reader passes over the front of a document, where a document type is allowed, and takes the
text of the element behind it for what it means in the markup. -/
def Markup.Reader.ReadsHeaded (reader : Reader) : Prop :=
  ∀ {name : String} {attributes : List (String × String)} {children : List Outline},
    (block name attributes children).Sound →
      reader true (documentHead ++ (block name attributes children).text 0) =
        some ((block name attributes children).laidTree 0)

/-- **A written element behind the front of a document is read as this element.** -/
theorem readsHeaded_readTree : Reader.ReadsHeaded readTree := by
  intro name attributes children h
  obtain ⟨c, cs, eq, start⟩ := h.1.name.exists_cons
  obtain ⟨-, bang, question, -, -⟩ := ne_of_isNameStart start
  have written := rootTree_written 0 h
  obtain ⟨tail, root⟩ : ∃ tail, (block name attributes children).chars 0 ++ ['\n'] =
      '<' :: c :: tail := by
    rw [chars, eq]
    exact ⟨_, rfl⟩
  rw [root] at written
  have text : (documentHead ++ (block name attributes children).text 0).toList =
      "<?xml version=\"1.0\" encoding=\"UTF-8\"?>\n".toList ++
        ("<!DOCTYPE".toList ++
          (" score-partwise PUBLIC \"-//Recordare//DTD MusicXML 4.0 Partwise//EN\" ".toList ++
            ("\"http://www.musicxml.org/dtds/partwise.dtd\">\n".toList ++ '<' :: c :: tail))) := by
    rw [String.toList_append, toList_documentHead, toList_documentType, toList_text, root]
    simp only [List.append_assoc]
    rfl
  refine (readTree_of_front ?_ ?_ (takeDocumentType_written _) bang question).trans written
  · rw [text]
    rintro _ ⟨⟩
    decide
  · rw [text]
    exact skipDeclaration_written _

/-! ## Scores that can be written -/

/-- A document can carry the texts of the score, its rewritten parts can be written, and a part
behind another one of its identifier has no measures. -/
structure Score.Writable (s : Score) : Prop where
  version : ∀ v ∈ s.version, CarriedValue v
  title : ∀ t ∈ s.title, CarriedText t
  composer : ∀ c ∈ s.composer, CarriedText c
  names : ∀ p ∈ s.parts, CarriedText p.name ∧ Text.trim p.name = p.name
  parts : ∀ p ∈ s.parts, p.rewritten.Writable
  overshadowed : s.parts.Pairwise Overshadows

theorem Part.sound_listing {p : Part} (id : CarriedValue p.id) (name : CarriedText p.name) :
    p.listing.Sound :=
  sound_block (.single rfl (by decide) id) (sound_singleton ⟨.bare rfl, name⟩)

/-- A document can carry all names and texts of a score that can be written. -/
theorem Score.sound_outline {s : Score} (h : s.Writable) : s.outline.Sound := by
  have version : CarriedValue (s.version.getD "4.0") :=
    getD_of_forall_mem (P := CarriedValue) h.version (by decide)
  refine sound_block (.single rfl (by decide) version) ?_
  simp only [List.forall_mem_append, and_assoc]
  refine ⟨?title, ?composer, ?list, ?parts⟩
  case title =>
    refine sound_ofOption fun title mem => ?_
    exact sound_block (.bare rfl) (sound_singleton ⟨.bare rfl, h.title title mem⟩)
  case composer =>
    refine sound_ofOption fun composer mem => ?_
    have creator : SoundTag "creator" [("type", "composer")] :=
      .single rfl (by decide) (by decide)
    exact sound_block (.bare rfl) (sound_singleton ⟨creator, h.composer composer mem⟩)
  case list =>
    refine sound_singleton (sound_block (.bare rfl) (sound_map fun p hp => ?_))
    exact p.sound_listing (h.parts p hp).id (h.names p hp).1
  case parts =>
    exact sound_map fun p hp => p.sound_of_rewritten (p.rewritten.sound_outline (h.parts p hp))

/-! ## The list of parts -/

/-- The part as the list of parts announces it. -/
def Part.announced (p : Part) : Part := { p with measures := [] }

/-- A text without blanks at its ends is read as it was written, the empty one too. -/
theorem trimmed_written {s : String} (h : Text.trim s = s) (depth : Nat) (name : String)
    (attributes : List (String × String)) :
    (laidTree depth (leaf name attributes s)).trimmed = s := by
  by_cases empty : s = ""
  · subst empty
    rfl
  · rw [Tree.trimmed, Tree.trimmed?, Tree.text?, laidTree, if_neg empty]
    exact h

theorem readListedPart_listing {p : Part} (name : Text.trim p.name = p.name) (depth : Nat) :
    readListedPart (p.listing.laidTree depth) = p.announced := by
  have children := children_laidTree depth "score-part" [("id", p.id)] [field "part-name" p.name]
  have listed : (p.listing.laidTree depth).children.filter (·.name = "part-name") =
      [laidTree (depth + 1) (field "part-name" p.name)] := by
    rw [Part.listing, children]
    rfl
  have written := trimmed_written name (depth + 1) "part-name" []
  rw [readListedPart, listed]
  exact congrArg (fun name => Part.mk p.id name []) written

/-- The list of parts announces all parts in their order. -/
theorem readScoreChild_partList (s : Score) {parts : List Part}
    (names : ∀ p ∈ parts, Text.trim p.name = p.name) (depth : Nat) :
    readScoreChild s ((block "part-list" [] (parts.map Part.listing)).laidTree depth) =
      pure { s with parts := s.parts ++ parts.map Part.announced } := by
  have all : ((parts.map Part.listing).map (laidTree (depth + 1))).filter (·.name = "score-part") =
      (parts.map Part.listing).map (laidTree (depth + 1)) := by
    refine List.filter_eq_self.mpr ?_
    simp only [List.forall_mem_map]
    exact fun p _ => rfl
  have listed : (((block "part-list" [] (parts.map Part.listing)).laidTree depth).children.filter
      (·.name = "score-part")).map readListedPart = parts.map Part.announced := by
    rw [children_laidTree, all, List.map_map, List.map_map]
    exact List.map_congr_left fun p hp => readListedPart_listing (names p hp) (depth + 1)
  let put (listed : List Part) : Reported Score := pure { s with parts := s.parts ++ listed }
  exact congrArg put listed

/-! ## The parts -/

theorem addMeasures_nil (id : String) (ps : List Part) : addMeasures id [] ps = ps := by
  induction ps with
  | nil => rfl
  | cons p ps ih =>
    rw [addMeasures, ih, List.append_nil]
    exact ite_self _

/-- Measures pass by the parts of other identifiers. -/
theorem addMeasures_append {id : String} {before : List Part} (other : ∀ q ∈ before, q.id ≠ id)
    (ms : List Measure) (ps : List Part) :
    addMeasures id ms (before ++ ps) = before ++ addMeasures id ms ps := by
  induction before with
  | nil => rfl
  | cons q before ih =>
    obtain ⟨here, later⟩ := List.forall_mem_cons.mp other
    rw [List.cons_append, addMeasures, if_neg here, ih later]
    rfl

/-- The measures of a part come to the part that was announced, since a part in front that has its
identifier takes all measures of both. -/
theorem addMeasures_announced {p : Part} {before : List Part}
    (overshadowed : ∀ q ∈ before, Overshadows q p) (later : List Part) :
    addMeasures p.id p.measures (before ++ p.announced :: later) = before ++ p :: later := by
  by_cases taken : ∃ q ∈ before, q.id = p.id
  · obtain ⟨q, hq, same⟩ := taken
    have bare : p.measures = [] := overshadowed q hq same
    have announced : p.announced = p := by
      rw [Part.announced, ← bare]
    rw [bare, addMeasures_nil, announced]
  · have other : ∀ q ∈ before, q.id ≠ p.id := fun q hq same => taken ⟨q, hq, same⟩
    rw [addMeasures_append other, addMeasures]
    exact congrArg (before ++ ·) (if_pos rfl)

/-- Each part is read into its place. -/
theorem readPart_outline {p : Part} (h : p.rewritten.Writable) {before : List Part}
    (overshadowed : ∀ q ∈ before, Overshadows q p.rewritten) (later : List Part) (s : Score)
    (depth : Nat) :
    readPart { s with parts := before ++ p.announced :: later } (p.outline.laidTree depth) =
      pure { s with parts := before ++ p.rewritten :: later } := by
  have listed : (before ++ p.announced :: later).any (·.id = p.id) = true := by
    refine List.any_eq_true.mpr ⟨p.announced, List.mem_append_right _ List.mem_cons_self, ?_⟩
    exact decide_eq_true rfl
  have measures : readMeasures (p.outline.laidTree depth).children = pure p.rewritten.measures := by
    rw [Part.outline, children_laidTree]
    exact readMeasures_written (List.forall_mem_map.mp h.measures) (depth + 1)
  have id : ((p.outline.laidTree depth).attribute? "id").getD "" = p.id := rfl
  have added := addMeasures_announced overshadowed later
  rw [readPart, id]
  dsimp only
  rw [listed, measures]
  let put (parts : List Part) : Reported Score := pure { s with parts }
  exact congrArg put added

/-- All parts are read into their places, one after the other. -/
theorem reads_parts (s : Score) {later : List Part} (h : ∀ p ∈ later, p.rewritten.Writable)
    {before : List Part} (overshadowed : (before ++ later.map Part.rewritten).Pairwise Overshadows)
    (depth : Nat) :
    Reads readScoreChild depth { s with parts := before ++ later.map Part.announced }
      (later.map Part.outline) { s with parts := before ++ later.map Part.rewritten } := by
  induction later generalizing before with
  | nil => rfl
  | cons p later ih =>
    obtain ⟨first, others⟩ := List.forall_mem_cons.mp h
    have place : ∀ q ∈ before, Overshadows q p.rewritten := fun q hq =>
      (List.pairwise_append.mp overshadowed).2.2 q hq _ List.mem_cons_self
    have read : Reads readScoreChild depth
        { s with parts := before ++ p.announced :: later.map Part.announced } [p.outline]
        { s with parts := before ++ p.rewritten :: later.map Part.announced } :=
      .one (readPart_outline first place _ s depth)
    have rest := @ih others (before ++ [p.rewritten])
    simp only [List.append_assoc, List.singleton_append] at rest
    exact read.append (rest overshadowed)

/-- The title and the composer change neither the version nor the parts. -/
theorem exists_reads_head (s : Score) (title composer : Option String) (depth : Nat) :
    ∃ title' composer', Reads readScoreChild depth s
      (ofOption (fun title => block "work" [] [field "work-title" title]) title ++
        ofOption (fun composer => block "identification" []
          [leaf "creator" [("type", "composer")] composer]) composer)
      { s with title := title', composer := composer' } := by
  obtain ⟨title', work⟩ : ∃ title', Reads readScoreChild depth s
      (ofOption (fun title => block "work" [] [field "work-title" title]) title)
      { s with title := title' } := by
    cases title with
    | none => exact ⟨s.title, rfl⟩
    | some title => exact ⟨_, .one rfl⟩
  obtain ⟨composer', identification⟩ : ∃ composer', Reads readScoreChild depth
      { s with title := title' }
      (ofOption (fun composer => block "identification" []
        [leaf "creator" [("type", "composer")] composer]) composer)
      { s with title := title', composer := composer' } := by
    cases composer with
    | none => exact ⟨s.composer, rfl⟩
    | some composer => exact ⟨_, .one rfl⟩
  exact ⟨title', composer', work.append identification⟩

/-- **The document of a score that can be written is read as the rewritten parts, with nothing to
report.** -/
theorem readScore_written {reader : Reader} (reads : reader.ReadsHeaded) {s : Score}
    (h : s.Writable) :
    ∃ title composer, readScore reader s.toMarkup =
      .ok (pure
        { title, composer
          version := some (s.version.getD "4.0")
          parts := s.parts.map Part.rewritten }) := by
  have root : readRoot reader s.toMarkup = .ok (s.outline.laidTree 0) := by
    have read : reader true s.toMarkup = some (s.outline.laidTree 0) :=
      reads (s.sound_outline h)
    rw [readRoot, read]
  let start : Score := { version := some (s.version.getD "4.0") }
  obtain ⟨title, composer, head⟩ := exists_reads_head start s.title s.composer 1
  have list : Reads readScoreChild 1 { start with title, composer }
      [block "part-list" [] (s.parts.map Part.listing)]
      { start with title, composer, parts := s.parts.map Part.announced } :=
    .one (readScoreChild_partList _ (fun p hp => (h.names p hp).2) 1)
  have overshadowed : (s.parts.map Part.rewritten).Pairwise Overshadows := by
    refine List.pairwise_map.mpr (h.overshadowed.imp fun {p q} hpq same => ?_)
    rw [Part.rewritten, hpq same]
    rfl
  have parts := @reads_parts { start with title, composer } s.parts h.parts [] overshadowed 1
  have all := head.append list |>.append parts
  refine ⟨title, composer, ?_⟩
  rw [readScore, root]
  exact congrArg Except.ok (all.children "score-partwise" _)

/-! ## Scores that were read -/

/-- A document can carry the signs of clefs as they are, and durations fit into their type. -/
def Element.Carried : Element → Prop
  | .attributes a => ∀ c ∈ a.clefs, CarriedText c.sign
  | .note n => ∀ d ∈ n.duration, FitsRatio d
  | .backup d => FitsRatio d
  | .forward d => FitsRatio d

/-- A document can carry the texts of the part as they are. -/
structure Part.Carried (p : Part) : Prop where
  id : CarriedValue p.id
  name : CarriedText p.name
  elements : ∀ m ∈ p.measures, ∀ e ∈ m.elements, e.Carried

/-- A document can carry the texts of the score as they are.  It changes line feeds and tabs in the
values of attributes, and carriage returns everywhere; and it is refused with a character that is
not allowed, which only an entity can bring into the value of an attribute. -/
structure Score.Carried (s : Score) : Prop where
  version : ∀ v ∈ s.version, CarriedValue v
  title : ∀ t ∈ s.title, CarriedText t
  composer : ∀ c ∈ s.composer, CarriedText c
  parts : ∀ p ∈ s.parts, p.Carried

section Decidable

instance : DecidablePred Element.Carried := fun e =>
  match e with
  | .attributes a => inferInstanceAs (Decidable (∀ c ∈ a.clefs, CarriedText c.sign))
  | .note n => inferInstanceAs (Decidable (∀ d ∈ n.duration, FitsRatio d))
  | .backup d => inferInstanceAs (Decidable (FitsRatio d))
  | .forward d => inferInstanceAs (Decidable (FitsRatio d))

instance : DecidablePred Part.Carried := fun p =>
  decidable_of_iff (CarriedValue p.id ∧ CarriedText p.name ∧
      ∀ m ∈ p.measures, ∀ e ∈ m.elements, e.Carried)
    ⟨fun ⟨a, b, c⟩ => ⟨a, b, c⟩, fun h => ⟨h.id, h.name, h.elements⟩⟩

instance : DecidablePred Score.Carried := fun s =>
  decidable_of_iff ((∀ v ∈ s.version, CarriedValue v) ∧ (∀ t ∈ s.title, CarriedText t) ∧
      (∀ c ∈ s.composer, CarriedText c) ∧ ∀ p ∈ s.parts, p.Carried)
    ⟨fun ⟨a, b, c, d⟩ => ⟨a, b, c, d⟩, fun h => ⟨h.version, h.title, h.composer, h.parts⟩⟩

end Decidable

/-- A clef that is read has a sign once it is rewritten. -/
theorem Clef.Readable.writable_rewritten {c : Clef} (h : c.Readable)
    (carried : CarriedText c.sign) : c.rewritten.Writable := by
  refine ⟨h.number, ?_, h.line⟩
  by_cases unsigned : c.sign = ""
  · have treble : c.rewritten.sign = "G" := if_pos unsigned
    rw [treble]
    decide
  · rw [c.rewritten_eq_self_iff.mpr unsigned]
    exact ⟨unsigned, h.sign, carried⟩

theorem Attributes.Readable.writable_rewritten {a : Attributes} (h : a.Readable)
    (ascending : a.clefs.Pairwise fun c d => c.staff ≤ d.staff)
    (carried : ∀ c ∈ a.clefs, CarriedText c.sign) : a.rewritten.Writable where
  divisions := h.divisions
  key := h.key
  time := h.time
  staves := h.staves
  clefs := List.forall_mem_map.mpr fun c hc => (h.clefs c hc).writable_rewritten (carried c hc)
  ascending := List.pairwise_map.mpr ascending

/-- Of a note that is read only the duration is left to be looked at. -/
theorem Note.Readable.writable {n : Note} (h : n.Readable)
    (ascending : n.beams.Pairwise fun a b => a.number ≤ b.number)
    (duration : ∀ d ∈ n.duration, FitsRatio d) : n.Writable :=
  { h with duration, ascending }

theorem Element.Readable.writable_rewritten {e : Element} (h : e.Readable) (carried : e.Carried) :
    e.rewritten.Writable := by
  cases e with
  | attributes a => exact h.1.writable_rewritten h.2 carried
  | note n => exact h.1.writable h.2 carried
  | backup d => exact carried
  | forward d => exact carried

theorem Measure.Readable.writable_rewritten {m : Measure} (h : m.Readable)
    (carried : ∀ e ∈ m.elements, e.Carried) : m.rewritten.Writable where
  number := h.number
  breaks := by
    rintro ⟨system, page⟩
    have alone : (m.newSystem && !m.newPage) = true := system
    have both : m.newPage = true := page
    rw [both, Bool.not_true, Bool.and_false] at alone
    cases alone
  elements :=
    List.forall_mem_map.mpr fun e he => (h.elements e he).writable_rewritten (carried e he)

/-- **A score that was read can be written, if a document can carry its texts.** -/
theorem Score.Readable.writable {s : Score} (h : s.Readable) (carried : s.Carried) :
    s.Writable where
  version := carried.version
  title := carried.title
  composer := carried.composer
  names p hp := ⟨(carried.parts p hp).name, (h.parts p hp).name⟩
  parts p hp := by
    refine ⟨(carried.parts p hp).id, List.forall_mem_map.mpr fun m hm => ?_⟩
    exact ((h.parts p hp).measures m hm).writable_rewritten ((carried.parts p hp).elements m hm)
  overshadowed := h.overshadowed

/-- **Every score that was read, if a document can carry its texts, is written to a document that
is read again, with nothing to report**, by any reader of documents that reads them as they are
written.  Its parts come back in their order, whatever their identifiers, with two changes: the
start of a page is not marked as that of a system, and a clef without a sign is a treble clef.  So
they come back as they were if and only if no measure has both marks and every clef has a sign. -/
theorem readScore_toMarkup {reader : Reader} (reads : reader.ReadsHeaded) {text : String}
    {r : Reported Score} (read : readScore reader text = .ok r) (carried : r.value.Carried) :
    ∃ again, readScore reader r.value.toMarkup = .ok again ∧ again.diagnostics = [] ∧
      again.value.parts = r.value.parts.map Part.rewritten ∧
      (again.value.parts = r.value.parts ↔ ∀ p ∈ r.value.parts, ∀ m ∈ p.measures,
        ¬ (m.newSystem = true ∧ m.newPage = true) ∧
        ∀ e ∈ m.elements, ∀ a ∈ e.attributes?, ∀ c ∈ a.clefs, c.sign ≠ "") := by
  have writable := (readable_of_readScore read).writable carried
  obtain ⟨title, composer, written⟩ := readScore_written reads writable
  refine ⟨_, written, rfl, rfl, ?_⟩
  refine map_eq_self_iff.trans ?_
  exact forall₂_congr fun p _ => p.rewritten_eq_self_iff

/-- What the evaluation of a document says of its reading. -/
theorem exists_of_evaluated {reader : Reader} {text : String} {s : Score}
    (evaluated : (readScore reader text).map Reported.value = .ok s) :
    ∃ r, readScore reader text = .ok r ∧ r.value = s := by
  cases read : readScore reader text with
  | error failure =>
    rw [read] at evaluated
    cases evaluated
  | ok r =>
    rw [read] at evaluated
    exact ⟨r, rfl, Except.ok.inj evaluated⟩

/-- Two parts that are announced under one identifier and one that is not announced, with a measure
that starts a page and a system. -/
def doubledDocument : String :=
  "<score-partwise><part-list><score-part id=\"P1\"/><score-part id=\"P1\"/></part-list>" ++
  "<part id=\"P1\"><measure><print new-page=\"yes\" new-system=\"yes\"/></measure></part>" ++
  "<part><measure/></part></score-partwise>"

/-- The score of the document. -/
def doubledScore : Score where
  parts :=
    [{ id := "P1", measures := [{ number := 0, newSystem := true, newPage := true }] },
     { id := "P1" }, { id := "", measures := [{ number := 0 }] }]

theorem readScore_toMarkup_doubled :
    Reader.ReadsHeaded readTree ∧ ∃ r again, readScore readTree doubledDocument = .ok r ∧
      r.value = doubledScore ∧ r.value.Carried ∧
      readScore readTree r.value.toMarkup = .ok again ∧ again.diagnostics = [] ∧
      again.value.parts =
        [{ id := "P1", measures := [{ number := 0, newPage := true }] },
         { id := "P1" }, { id := "", measures := [{ number := 0 }] }] := by
  have evaluated : (readScore readTree doubledDocument).map Reported.value = .ok doubledScore := by
    decide +kernel
  obtain ⟨r, read, value⟩ := exists_of_evaluated evaluated
  have carried : r.value.Carried := by
    rw [value]
    decide +kernel
  obtain ⟨again, written, quiet, parts, -⟩ := readScore_toMarkup readsHeaded_readTree read carried
  refine ⟨readsHeaded_readTree, r, again, read, value, carried, written, quiet, parts.trans ?_⟩
  rw [value]
  rfl

/-- A document whose parts are others once they are written and read again. -/
def ChangesParts (reader : Reader) (text : String) : Prop :=
  ∃ r again, readScore reader text = .ok r ∧ readScore reader r.value.toMarkup = .ok again ∧
    again.value.parts ≠ r.value.parts

theorem changesParts_of_rewritten {reader : Reader} (reads : reader.ReadsHeaded) {text : String}
    {s : Score} (evaluated : (readScore reader text).map Reported.value = .ok s)
    (carried : s.Carried) (changed : s.parts.map Part.rewritten ≠ s.parts) :
    ChangesParts reader text := by
  obtain ⟨r, read, rfl⟩ := exists_of_evaluated evaluated
  have writable := (readable_of_readScore read).writable carried
  obtain ⟨title, composer, written⟩ := readScore_written reads writable
  exact ⟨r, _, read, written, changed⟩

/-- Two marks at one measure, and a clef whose sign is blank. -/
theorem changesParts_marked :
    Reader.ReadsHeaded readTree ∧
    ChangesParts readTree ("<score-partwise><part id=\"P1\"><measure>" ++
      "<print new-page=\"yes\" new-system=\"yes\"/></measure></part></score-partwise>") ∧
    ChangesParts readTree ("<score-partwise><part id=\"P1\"><measure><attributes><clef>" ++
      "<sign> </sign></clef></attributes></measure></part></score-partwise>") := by
  let marked : Measure := { number := 0, newSystem := true, newPage := true }
  let unsigned : Measure :=
    { number := 0, elements := [.attributes { clefs := [⟨none, "", 2⟩] }] }
  refine ⟨readsHeaded_readTree, ?_, ?_⟩
  · apply @changesParts_of_rewritten readTree readsHeaded_readTree _
      { parts := [{ id := "P1", measures := [marked] }] }
    all_goals decide +kernel
  · apply @changesParts_of_rewritten readTree readsHeaded_readTree _
      { parts := [{ id := "P1", measures := [unsigned] }] }
    all_goals decide +kernel

end LinearScore
