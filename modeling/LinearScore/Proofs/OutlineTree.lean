import LinearScore.Markup.Document
import LinearScore.Proofs.OutlineEvents

/-!
# The tree of written markup

The events of a written element build the element again, with the margins of its lines as runs of
text between its children.  So a document that consists of a written element is read as this
element.

## Main definitions

* `Outline.laid`: the element that an outline is read as
* `Builder.opened`: the builder among open elements, with nothing pending
* `Reader.ReadsElements`: what is asked of a reader of documents

The main statement is `readsElements_readTree`.
-/

namespace LinearScore.Markup

/-! ## References -/

/-- The piece that a character is written as. -/
def pieceOf (c : Char) : Piece :=
  if c = '&' || c = '<' || c = '>' || c = '"' || c = '\'' then .referred c else .char c

/-- A reference ends at its semicolon. -/
theorem piecesFrom_some (read name rest : List Char) (h : ';' ∉ name) :
    piecesFrom (some read) (name ++ ';' :: rest) =
      (reference? (read.reverse ++ name)).bind fun piece =>
        (piecesFrom none rest).map (piece :: ·) := by
  induction name generalizing read with
  | nil =>
    rw [List.append_nil]
    show (reference? read.reverse).bind
      (fun piece => (piecesFrom none rest).bind fun rest => some (piece :: rest)) = _
    exact congrArg _ (funext fun piece => Option.map_eq_bind.symm)
  | cons c cs ih =>
    rw [List.mem_cons, not_or] at h
    show (if c = ';' then _ else piecesFrom (some (c :: read)) (cs ++ ';' :: rest)) = _
    rw [if_neg (Ne.symm h.1), ih _ h.2, List.reverse_cons, List.append_assoc]
    rfl

theorem piecesFrom_reference (name : List Char) {c : Char} (h : ';' ∉ name)
    (known : reference? name = some (.referred c)) (rest : List Char) :
    piecesFrom none ('&' :: (name ++ ';' :: rest)) =
      (piecesFrom none rest).map (.referred c :: ·) := by
  show piecesFrom (some []) (name ++ ';' :: rest) = _
  rw [piecesFrom_some _ _ _ h, List.reverse_nil, List.nil_append, known]
  rfl

theorem piecesFrom_escapedChar (c : Char) (rest : List Char) :
    piecesFrom none (escapedChar c ++ rest) = (piecesFrom none rest).map (pieceOf c :: ·) := by
  unfold escapedChar
  split
  · exact piecesFrom_reference ['a', 'm', 'p'] (by decide) (by decide) rest
  · exact piecesFrom_reference ['l', 't'] (by decide) (by decide) rest
  · exact piecesFrom_reference ['g', 't'] (by decide) (by decide) rest
  · exact piecesFrom_reference ['q', 'u', 'o', 't'] (by decide) (by decide) rest
  · exact piecesFrom_reference ['a', 'p', 'o', 's'] (by decide) (by decide) rest
  · rename_i ampersand less greater quote apostrophe
    have plain : pieceOf c = .char c := by
      simp_all [pieceOf]
    rw [plain]
    show (if c = '&' then _ else _) = _
    rw [if_neg ampersand]
    rfl

/-- A text as it is written is read piece by piece. -/
theorem pieces_escapedChars (s : String) :
    pieces (escapedChars s) = some (s.toList.map pieceOf) := by
  unfold pieces escapedChars
  induction s.toList with
  | nil => rfl
  | cons c cs ih =>
    rw [List.flatMap_cons, piecesFrom_escapedChar, ih]
    rfl

/-! ## Attributes -/

/-- The value of an attribute is read as it was written. -/
theorem attributeValue_map_pieceOf (expand : Nat → List Char → Option (List Char × Nat))
    (entities : Entities) (followed : Nat) {cs : List Char}
    (h : ∀ c ∈ cs, c ≠ '\r' ∧ c ≠ '\n' ∧ c ≠ '\t') :
    attributeValue expand entities true followed (cs.map pieceOf) = some (cs, followed) := by
  induction cs with
  | nil => rfl
  | cons c cs ih =>
    obtain ⟨⟨return_, feed, tab⟩, rest⟩ := List.forall_mem_cons.mp h
    have plain : plainSpace c = c := by simp [plainSpace, return_, feed, tab]
    rw [List.map_cons, pieceOf]
    split
    · rw [attributeValue, ih rest]
      rfl
    · rw [attributeValue, ih rest]
      simp [return_, plain]

/-- An attribute as it is read. -/
def readAttribute (a : String × String) : Attribute := ⟨⟨"", a.1⟩, a.2⟩

theorem expandAttributes_map (entities : Entities) (followed : Nat)
    {attributes : List (String × String)} (values : ∀ a ∈ attributes, CarriedValue a.2) :
    expandAttributes entities depthLimit followed (attributes.map rawAttribute) =
      some (attributes.map readAttribute, followed) := by
  induction attributes with
  | nil => rfl
  | cons a as ih =>
    obtain ⟨value, values⟩ := List.forall_mem_cons.mp values
    have read := attributeValue_map_pieceOf (expandAttribute entities depthLimit) entities followed
      fun c hc => (value c hc).2
    rw [List.map_cons, expandAttributes, rawAttribute, pieces_escapedChars]
    simp only [Option.bind_eq_bind, Option.bind_some, beq_self_eq_true, read, ih values]
    rw [String.ofList_toList]
    rfl

/-- Attributes without prefixes bind nothing. -/
theorem add_map_readAttribute (s : SortedAttributes) {attributes : List (String × String)}
    (names : ∀ a ∈ attributes, a.1 ≠ "xmlns") :
    s.add (attributes.map readAttribute) =
      some { s with plain := s.plain ++ attributes.map readAttribute } := by
  induction attributes generalizing s with
  | nil => simp [SortedAttributes.add]
  | cons a as ih =>
    obtain ⟨name, names⟩ := List.forall_mem_cons.mp names
    have binds (own : Scope) : (readAttribute a).binding own = .none := by
      simp [Attribute.binding, readAttribute, name]
    rw [List.map_cons, SortedAttributes.add, binds]
    dsimp only
    rw [ih _ names]
    simp

/-- Attributes of different names without prefixes are accepted. -/
theorem accepts_map_readAttribute (scope : Scope) (seen : List (Option String × String))
    {attributes : List (String × String)} (distinct : (attributes.map Prod.fst).Nodup)
    (new : ∀ a ∈ attributes, (none, a.1) ∉ seen) :
    scope.accepts seen (attributes.map readAttribute) = true := by
  induction attributes generalizing seen with
  | nil => rfl
  | cons a as ih =>
    rw [List.map_cons, List.nodup_cons] at distinct
    obtain ⟨first, new⟩ := List.forall_mem_cons.mp new
    have others : scope.accepts ((none, a.1) :: seen) (as.map readAttribute) = true := by
      refine ih _ distinct.2 ?_
      intro b hb mem
      rcases List.mem_cons.mp mem with same | mem
      · refine distinct.1 (List.mem_map.mpr ⟨b, hb, ?_⟩)
        exact (Prod.mk.inj same).2
      · exact new b hb mem
    show (!seen.contains (none, a.1) && scope.accepts ((none, a.1) :: seen) _) = true
    rw [others]
    simpa using first

theorem resolve_map_readAttribute {name : String} {attributes : List (String × String)}
    (h : SoundTag name attributes) (outer : Scope) :
    ({ plain := attributes.map readAttribute } : SortedAttributes).resolve outer =
      some (outer, attributes) := by
  have accepted := accepts_map_readAttribute outer [] h.distinct fun _ _ => List.not_mem_nil
  have all : (attributes.map readAttribute).filter (·.name.space = "") =
      attributes.map readAttribute := by
    rw [List.filter_eq_self]
    intro a ha
    obtain ⟨b, _, rfl⟩ := List.mem_map.mp ha
    rfl
  have back : (attributes.map readAttribute).map (fun a => (a.name.name, a.value)) =
      attributes := by
    rw [List.map_map]
    exact List.map_id' attributes
  rw [SortedAttributes.resolve]
  dsimp only
  rw [List.nil_append, if_pos accepted, all, back]

/-! ## Open elements -/

namespace Builder

/-- The builder among open elements, with nothing pending. -/
def opened (started parted : Bool) (es : List OpenElement) : Builder :=
  { openElements := es, parted, started }

end Builder

/-- An open element without a scope of its own. -/
def openOf (name : String) (attributes : List (String × String)) (reversed : List Node) :
    OpenElement := ⟨⟨"", name⟩, attributes, [], reversed⟩

/-- No element binds a prefix. -/
def Unscoped (es : List OpenElement) : Prop := ∀ e ∈ es, e.scope = []

theorem unscoped_nil : Unscoped [] := by
  intro e he
  cases he

theorem Unscoped.openOf {es : List OpenElement} (h : Unscoped es) (name : String)
    (attributes : List (String × String)) (reversed : List Node) :
    Unscoped (openOf name attributes reversed :: es) :=
  List.forall_mem_cons.mpr ⟨rfl, h⟩

theorem scope_opened {es : List OpenElement} (h : Unscoped es) (started parted : Bool) :
    (Builder.opened started parted es).scope = [] := by
  cases es with
  | nil => rfl
  | cons e es => exact h e List.mem_cons_self

section Tags

variable {name : String} {attributes : List (String × String)} (h : SoundTag name attributes)
  {es : List OpenElement} (unscoped : Unscoped es) (started parted : Bool)
include h unscoped

theorem resolve_opened :
    ({ Builder.opened started parted es with
        pending := { plain := attributes.map readAttribute } } : Builder).resolve =
      some ([], attributes, .opened started parted es) := by
  have scope : ({ Builder.opened started parted es with
      pending := { plain := attributes.map readAttribute } } : Builder).scope = [] :=
    scope_opened unscoped started parted
  rw [Builder.resolve, scope]
  show (SortedAttributes.resolve { plain := attributes.map readAttribute } []).bind _ = _
  rw [resolve_map_readAttribute h]
  rfl

/-- A whole start tag opens an element, or puts it in its place if it is empty. -/
theorem start_opened {ending : TagEnd} (whole : ending ≠ .cut) :
    (Builder.opened started parted es).start ⟨"", name⟩ (attributes.map readAttribute) ending =
      some (if ending = .empty then (Builder.opened true true es).finish ⟨name, attributes, []⟩
        else .opened true true (openOf name attributes [] :: es)) := by
  have pending : (Builder.opened started parted es).pending = {} := rfl
  have resolved := resolve_opened h unscoped true true
  have added := add_map_readAttribute {} fun a ha => (h.names a ha).2
  unfold Builder.start
  rw [if_neg (show ¬ "" = "xmlns" by decide), pending, added]
  simp only [Option.bind_eq_bind, Option.bind_some, if_neg whole, List.nil_append]
  show (Builder.resolve { Builder.opened true true es with pending := _ }).bind _ = _
  rw [resolved]
  show (if ending = .empty then _ else _) = _
  split
  · rfl
  · rfl

end Tags

/-- An end tag closes the element that it names. -/
theorem stop_opened (name : String) (attributes : List (String × String)) (nodes : List Node)
    (es : List OpenElement) (parted : Bool) :
    (Builder.opened true parted (openOf name attributes nodes :: es)).stop ⟨"", name⟩ =
      some ((Builder.opened true parted es).finish ⟨name, attributes, nodes.reverse⟩) := by
  have resolved : (Builder.opened true parted (openOf name attributes nodes :: es)).resolve =
      some ([], [], .opened true parted (openOf name attributes nodes :: es)) := rfl
  unfold Builder.stop
  rw [resolved]
  simp [Builder.opened, openOf, Builder.close]

/-! ## Text -/

/-- A character that is no carriage return goes behind the run as it is. -/
theorem reversed_add (buffer : TextBuffer) {c : Char} (isLast : Bool) (hc : c ≠ '\r')
    (before : '\r' ∉ buffer.reversed) : (buffer.add c isLast).reversed = c :: buffer.reversed := by
  unfold TextBuffer.add
  split
  · rfl
  · unfold TextBuffer.addText
    have plain : (if (isLast && decide (c = '\r')) = true then '\n' else c) = c :=
      if_neg (by simp [hc])
    rw [plain]
    dsimp only
    split
    · rename_i eq
      rw [eq] at before
      exact (before List.mem_cons_self).elim
    · rfl

/-- A text as it is written comes back as one run. -/
theorem addPieces_map_pieceOf (expand : Builder → List Char → Option Builder) (entities : Entities)
    (b : Builder) (buffer : TextBuffer) {cs : List Char} (h : '\r' ∉ cs)
    (before : '\r' ∉ buffer.reversed) :
    b.addPieces expand entities true buffer (cs.map pieceOf) =
      some (b.flush ⟨cs.reverse ++ buffer.reversed, false⟩) := by
  induction cs generalizing buffer with
  | nil => rfl
  | cons c cs ih =>
    rw [List.mem_cons, not_or] at h
    obtain ⟨hc, hcs⟩ := h
    have next (buffer' : TextBuffer) (eq : buffer'.reversed = c :: buffer.reversed) :
        b.addPieces expand entities true buffer' (cs.map pieceOf) =
          some (b.flush ⟨(c :: cs).reverse ++ buffer.reversed, false⟩) := by
      have clean : '\r' ∉ buffer'.reversed := by
        rw [eq, List.mem_cons, not_or]
        exact ⟨hc, before⟩
      rw [ih buffer' hcs clean, eq, List.reverse_cons, List.append_assoc]
      rfl
    rw [List.map_cons, pieceOf]
    split
    · exact next _ rfl
    · exact next _ (reversed_add buffer _ (Ne.symm hc) before)

/-- The content so far does not end with text, so that text behind it is a run of its own. -/
def Settled (reversed : List Node) : Prop := ∀ s, reversed.head? ≠ some (.text s)

theorem settled_nil : Settled [] := by
  intro s eq
  cases eq

theorem settled_cons {node : Node} (h : ∀ s, node ≠ .text s) (reversed : List Node) :
    Settled (node :: reversed) := by
  intro s eq
  exact h s (Option.some.inj eq)

theorem withText_settled {reversed : List Node} (h : Settled reversed) (parted : Bool) (s : String) :
    Builder.withText parted s reversed = .text s :: reversed := by
  unfold Builder.withText
  split
  · rename_i before _
    exact (h before rfl).elim
  · rfl

section Run

variable (expand : Builder → List Char → Option Builder) (entities : Entities) (depth : Nat)

theorem run_chars {s : String} (carried : CarriedText s) (some : s ≠ "") (parted : Bool)
    (e : OpenElement) (es : List OpenElement) (settled : Settled e.reversed) (rest : List Event) :
    Builder.run expand entities depthLimit depth (.opened true parted (e :: es))
        (.chars (escapedChars s) :: rest) =
      Builder.run expand entities depthLimit depth
        (.opened true false ({ e with reversed := .text s :: e.reversed } :: es)) rest := by
  have clean : '\r' ∉ s.toList := fun mem => (carried _ mem).2 rfl
  have added := addPieces_map_pieceOf expand entities (.opened true parted (e :: es)) {} clean
    List.not_mem_nil
  have flushed : (Builder.opened true parted (e :: es)).flush
      ⟨s.toList.reverse ++ [], false⟩ =
        .opened true false ({ e with reversed := .text s :: e.reversed } :: es) := by
    have nonempty : s.toList.reverse.isEmpty = false := by
      simpa using some
    unfold Builder.flush
    rw [List.append_nil, nonempty, List.reverse_reverse, String.ofList_toList]
    rw [if_neg Bool.false_ne_true]
    unfold Builder.addText
    dsimp only [Builder.opened]
    rw [withText_settled settled]
  rw [flushed] at added
  rw [Builder.run, pieces_escapedChars]
  simp only [Option.bind_eq_bind, Option.bind_some, beq_self_eq_true, added]

theorem run_start {name : String} {attributes : List (String × String)}
    (h : SoundTag name attributes) {es : List OpenElement} (unscoped : Unscoped es) (parted : Bool)
    {ending : TagEnd} (whole : ending ≠ .cut) (rest : List Event) :
    Builder.run expand entities depthLimit depth (.opened true parted es)
        (.start ⟨"", name⟩ (attributes.map rawAttribute) ending :: rest) =
      Builder.run expand entities depthLimit (if ending = .content then depth + 1 else depth)
        (if ending = .empty then (Builder.opened true true es).finish ⟨name, attributes, []⟩
          else .opened true true (openOf name attributes [] :: es)) rest := by
  have started : (Builder.opened true parted es).start ⟨"", name⟩ _ ending = _ :=
    start_opened h unscoped true parted whole
  rw [Builder.run, expandAttributes_map _ _ h.values]
  simp only [Option.bind_eq_bind, Option.bind_some]
  show (Builder.start (.opened true parted es) _ _ _).bind _ = _
  rw [started]
  rfl

theorem run_content {name : String} {attributes : List (String × String)}
    (h : SoundTag name attributes) {es : List OpenElement} (unscoped : Unscoped es) (parted : Bool)
    (rest : List Event) :
    Builder.run expand entities depthLimit depth (.opened true parted es)
        (.start ⟨"", name⟩ (attributes.map rawAttribute) .content :: rest) =
      Builder.run expand entities depthLimit (depth + 1)
        (.opened true true (openOf name attributes [] :: es)) rest :=
  run_start expand entities depth h unscoped parted (by decide) rest

theorem run_empty {name : String} {attributes : List (String × String)}
    (h : SoundTag name attributes) {e : OpenElement} {es : List OpenElement}
    (unscoped : Unscoped (e :: es)) (parted : Bool) (rest : List Event) :
    Builder.run expand entities depthLimit depth (.opened true parted (e :: es))
        (.start ⟨"", name⟩ (attributes.map rawAttribute) .empty :: rest) =
      Builder.run expand entities depthLimit depth
        (.opened true true
          ({ e with reversed := .element name attributes [] :: e.reversed } :: es)) rest :=
  run_start expand entities depth h unscoped parted (by decide) rest

theorem run_stop (name : String) (attributes : List (String × String)) (nodes : List Node)
    (e : OpenElement) (es : List OpenElement) (parted : Bool) (rest : List Event) :
    Builder.run expand entities depthLimit (depth + 1)
        (.opened true parted (openOf name attributes nodes :: e :: es)) (.stop ⟨"", name⟩ :: rest) =
      Builder.run expand entities depthLimit depth
        (.opened true parted
          ({ e with reversed := .element name attributes nodes.reverse :: e.reversed } :: es))
        rest := by
  rw [Builder.run, stop_opened]
  rfl

end Run

/-! ## Written elements -/

/-- The end of a line and a margin, as a text. -/
def marginText (depth : Nat) : String := String.ofList (margin depth)

theorem carriedText_marginText (depth : Nat) : CarriedText (marginText depth) := by
  intro c hc
  rw [marginText, String.toList_ofList] at hc
  rcases List.mem_cons.mp hc with rfl | hc
  · decide
  · obtain rfl := List.eq_of_mem_replicate hc
    decide

theorem marginText_ne_empty (depth : Nat) : marginText depth ≠ "" := by
  intro empty
  have chars := congrArg String.toList empty
  rw [marginText, String.toList_ofList] at chars
  cases chars

/-- A margin is written as it is. -/
theorem escapedChars_marginText (depth : Nat) : escapedChars (marginText depth) = margin depth := by
  have spaces (n : Nat) : (List.replicate n ' ').flatMap escapedChar = List.replicate n ' ' := by
    induction n with
    | zero => rfl
    | succ n ih =>
      rw [List.replicate_succ, List.flatMap_cons, ih]
      rfl
  rw [escapedChars, marginText, String.toList_ofList, margin, List.flatMap_cons, spaces]
  rfl

namespace Outline

mutual

/-- The element that is read at a level: the margins of its lines are runs of text. -/
def laid (depth : Nat) : Outline → Node
  | empty name attributes => .element name attributes []
  | leaf name attributes s => .element name attributes (if s = "" then [] else [.text s])
  | block name attributes children =>
    .element name attributes (laidOf (depth + 1) children ++ [.text (marginText depth)])

/-- The elements that are read at a level, each behind its margin. -/
def laidOf (depth : Nat) : List Outline → List Node
  | [] => []
  | e :: es => .text (marginText depth) :: e.laid depth :: laidOf depth es

end

theorem laid_ne_text (depth : Nat) (e : Outline) : ∀ s, e.laid depth ≠ .text s := by
  cases e <;> exact fun s => nofun

theorem settled_laidOf (depth : Nat) (es : List Outline) {reversed : List Node}
    (settled : Settled reversed) : Settled ((laidOf depth es).reverse ++ reversed) := by
  induction es generalizing reversed with
  | nil => exact settled
  | cons e es ih =>
    rw [laidOf, List.reverse_cons, List.reverse_cons, List.append_assoc, List.append_assoc]
    exact ih (settled_cons (laid_ne_text depth e) _)

variable (expand : Builder → List Char → Option Builder) (entities : Entities)

mutual

/-- **The events of an element put the element behind the content of the element around it.** -/
theorem run_events (depth level : Nat) {e : Outline} (h : e.Sound) (parted : Bool) (o : OpenElement)
    (os : List OpenElement) (unscoped : Unscoped (o :: os)) (rest : List Event) :
    ∃ parted', Builder.run expand entities depthLimit level (.opened true parted (o :: os))
        (e.events depth ++ rest) =
      Builder.run expand entities depthLimit level
        (.opened true parted' ({ o with reversed := e.laid depth :: o.reversed } :: os)) rest := by
  match e with
  | empty name attributes =>
    refine ⟨true, ?_⟩
    exact run_empty expand entities level h unscoped parted rest
  | leaf name attributes s =>
    obtain ⟨tag, text⟩ := h
    rw [events, List.cons_append, run_content expand entities level tag unscoped parted, laid]
    by_cases none : s = ""
    · refine ⟨true, ?_⟩
      rw [if_pos none, if_pos none]
      exact run_stop expand entities level name attributes [] o os true rest
    · refine ⟨false, ?_⟩
      rw [if_neg none, if_neg none]
      refine (run_chars expand entities (level + 1) text none true (openOf name attributes [])
        (o :: os) settled_nil _).trans ?_
      exact run_stop expand entities level name attributes [.text s] o os false rest
  | block name attributes children =>
    obtain ⟨tag, all⟩ := h
    refine ⟨false, ?_⟩
    obtain ⟨parted', inner⟩ := run_eventsOf (depth + 1) (level + 1) all true
      (openOf name attributes []) (o :: os) (unscoped.openOf name attributes []) settled_nil
      ([.chars (margin depth), .stop ⟨"", name⟩] ++ rest)
    rw [events, List.cons_append, run_content expand entities level tag unscoped parted,
      List.append_assoc, inner, ← escapedChars_marginText]
    refine (run_chars expand entities (level + 1) (carriedText_marginText depth)
      (marginText_ne_empty depth) parted' _ _
      (settled_laidOf (depth + 1) children settled_nil) _).trans ?_
    refine (run_stop expand entities level name attributes _ o os false rest).trans ?_
    simp [laid, openOf]

theorem run_eventsOf (depth level : Nat) {es : List Outline} (h : AllSound es) (parted : Bool)
    (o : OpenElement) (os : List OpenElement) (unscoped : Unscoped (o :: os))
    (settled : Settled o.reversed) (rest : List Event) :
    ∃ parted', Builder.run expand entities depthLimit level (.opened true parted (o :: os))
        (eventsOf depth es ++ rest) =
      Builder.run expand entities depthLimit level
        (.opened true parted'
          ({ o with reversed := (laidOf depth es).reverse ++ o.reversed } :: os)) rest := by
  match es with
  | [] => exact ⟨parted, rfl⟩
  | e :: es =>
    obtain ⟨first, all⟩ := h
    have text := run_chars expand entities level (carriedText_marginText depth)
      (marginText_ne_empty depth) parted o os settled (e.events depth ++ (eventsOf depth es ++ rest))
    obtain ⟨parted', element⟩ := run_events depth level first false
      { o with reversed := .text (marginText depth) :: o.reversed } os
      (List.forall_mem_cons.mpr (List.forall_mem_cons.mp unscoped)) (eventsOf depth es ++ rest)
    obtain ⟨parted'', others⟩ := run_eventsOf depth level all parted'
      { o with reversed := e.laid depth :: .text (marginText depth) :: o.reversed } os
      (List.forall_mem_cons.mpr (List.forall_mem_cons.mp unscoped))
      (settled_cons (laid_ne_text depth e) _) rest
    refine ⟨parted'', ?_⟩
    rw [eventsOf, List.cons_append, List.append_assoc, ← escapedChars_marginText]
    refine text.trans (element.trans (others.trans ?_))
    simp [laidOf]

end

/-! ## Documents -/

/-- The element that is read at a level, as a tree. -/
def laidTree (depth : Nat) : Outline → Tree
  | empty name attributes => ⟨name, attributes, []⟩
  | leaf name attributes s => ⟨name, attributes, if s = "" then [] else [.text s]⟩
  | block name attributes children =>
    ⟨name, attributes, laidOf (depth + 1) children ++ [.text (marginText depth)]⟩

theorem tree?_laid (depth : Nat) (e : Outline) : (e.laid depth).tree? = some (e.laidTree depth) := by
  cases e <;> rfl

/-- The margins are no children. -/
theorem children_laidTree (depth : Nat) (name : String) (attributes : List (String × String))
    (children : List Outline) :
    (laidTree depth (block name attributes children)).children =
      children.map (laidTree (depth + 1)) := by
  have inner (es : List Outline) :
      (laidOf (depth + 1) es).filterMap Node.tree? = es.map (laidTree (depth + 1)) := by
    induction es with
    | nil => rfl
    | cons e es ih =>
      rw [laidOf, List.filterMap_cons_none rfl, List.filterMap_cons_some (tree?_laid ..), ih]
      rfl
  rw [Tree.children, laidTree, List.filterMap_append, inner]
  exact List.append_nil _

/-- The events of a written document are those of its root and the end of its last line. -/
theorem events_document (depth : Nat) {e : Outline} (h : e.Sound) :
    Markup.events (e.chars depth ++ ['\n']) = e.events depth ++ [.chars ['\n']] := by
  have last : IsRun ['\n'] := ⟨List.cons_ne_nil _ _, List.forall_mem_singleton.mpr (by decide)⟩
  have behind : Lexes (['\n'] ++ []) [.chars ['\n']] := .run last (by simp) .nil
  exact (e.lexes depth h behind).events_eq

/-- The end tag of the root ends the content. -/
theorem run_stop_root (expand : Builder → List Char → Option Builder) (entities : Entities)
    (name : String) (attributes : List (String × String)) (nodes : List Node) (parted : Bool)
    (rest : List Event) :
    Builder.run expand entities depthLimit 0 (.opened true parted [openOf name attributes nodes])
        (.stop ⟨"", name⟩ :: rest) =
      some (rest, { Builder.opened true parted [] with
        root := some ⟨name, attributes, nodes.reverse⟩ }) := by
  rw [Builder.run, stop_opened]
  rfl

theorem rootTree_written (depth : Nat) {name : String} {attributes : List (String × String)}
    {children : List Outline} (h : (block name attributes children).Sound) :
    rootTree [] ((block name attributes children).chars depth ++ ['\n']) =
      some ((block name attributes children).laidTree depth) := by
  obtain ⟨tag, all⟩ := h
  have start : ({} : Builder).start ⟨"", name⟩ (attributes.map readAttribute) .content =
      some (.opened true true [openOf name attributes []]) :=
    start_opened tag unscoped_nil false false (by decide)
  obtain ⟨parted, inner⟩ := run_eventsOf (Builder.addEntity [] depthLimit) [] (depth + 1) 0 all
    true (openOf name attributes []) [] (List.forall_mem_singleton.mpr rfl) settled_nil
    ([.chars (margin depth), .stop ⟨"", name⟩] ++ [.chars ['\n']])
  have margin := run_chars (Builder.addEntity [] depthLimit) [] 0 (carriedText_marginText depth)
    (marginText_ne_empty depth) parted
    (openOf name attributes ((laidOf (depth + 1) children).reverse ++ [])) []
    (settled_laidOf (depth + 1) children settled_nil) [.stop ⟨"", name⟩, .chars ['\n']]
  have stop := run_stop_root (Builder.addEntity [] depthLimit) [] name attributes
    (.text (marginText depth) :: ((laidOf (depth + 1) children).reverse ++ [])) false
    [.chars ['\n']]
  rw [escapedChars_marginText] at margin
  have run := inner.trans (margin.trans stop)
  have document : (block name attributes children).Sound := ⟨tag, all⟩
  rw [rootTree, events_document depth document, events, List.cons_append, List.append_assoc]
  dsimp only
  rw [expandAttributes_map [] 0 tag.values]
  simp only [Option.bind_eq_bind, Option.bind_some, start, if_true]
  rw [run]
  simp [onlyAsides, isSpace, Builder.opened, laidTree]

section Front

variable {c : Char} (tail : List Char) (n : Nat)

/-- A start tag behind a margin is no other kind of markup. -/
theorem after?_eq_none {d : Char} (h : c ≠ d) (beginning : List Char) :
    after? ('<' :: d :: beginning) (List.replicate n ' ' ++ '<' :: c :: tail) = none := by
  rw [after?, if_neg]
  cases n with
  | zero => simp [Ne.symm h]
  | succ n => simp [List.replicate_succ]

theorem skipDeclaration_margin (question : c ≠ '?') :
    skipDeclaration (List.replicate n ' ' ++ '<' :: c :: tail) =
      some (List.replicate n ' ' ++ '<' :: c :: tail) := by
  have none := after?_eq_none tail n question ['x', 'm', 'l', ' ']
  unfold skipDeclaration
  rw [show "<?xml ".toList = ['<', '?', 'x', 'm', 'l', ' '] by decide, none]

/-- The margin in front of a document is passed over. -/
theorem skipAsides_margin (bang : c ≠ '!') (question : c ≠ '?') (fuel : Nat) :
    skipAsides (fuel + 1) (List.replicate n ' ' ++ '<' :: c :: tail) = some ('<' :: c :: tail) := by
  have skipped : skipSpaces (List.replicate n ' ' ++ '<' :: c :: tail) = '<' :: c :: tail := by
    rw [skipSpaces, List.dropWhile_append_of_pos, List.dropWhile_cons_of_neg (by decide)]
    intro d hd
    obtain rfl := List.eq_of_mem_replicate hd
    decide
  unfold skipAsides
  rw [skipped, show "<!--".toList = ['<', '!', '-', '-'] by decide,
    show "<?".toList = ['<', '?'] by decide]
  simp [Ne.symm bang, Ne.symm question]

end Front

end Outline

/-- A reader takes the text of an element for what it means in the markup: tags with the names and
values in them, references as the characters that they stand for, and the margins between tags as
text. -/
def Reader.ReadsElements (reader : Reader) : Prop :=
  ∀ (depth : Nat) {name : String} {attributes : List (String × String)} {children : List Outline},
    (Outline.block name attributes children).Sound →
      reader true ((Outline.block name attributes children).text depth) =
        some ((Outline.block name attributes children).laidTree depth)

open Outline in
/-- **A document that consists of a written element is read as this element.** -/
theorem readsElements_readTree : Reader.ReadsElements readTree := by
  intro depth name attributes children h
  obtain ⟨c, cs, eq, start⟩ := h.1.name.exists_cons
  obtain ⟨-, bang, question, -, -⟩ := ne_of_isNameStart start
  have written := rootTree_written depth h
  have document := toList_text depth (block name attributes children)
  -- the document starts with its margin and the tag of its root
  obtain ⟨tail, root⟩ : ∃ tail, (block name attributes children).chars depth ++ ['\n'] =
      '<' :: c :: tail := by
    rw [chars, eq]
    exact ⟨_, rfl⟩
  rw [root] at written document
  have untyped : after? "<!DOCTYPE".toList ('<' :: c :: tail) = none :=
    after?_eq_none tail 0 bang ['D', 'O', 'C', 'T', 'Y', 'P', 'E']
  unfold readTree
  rw [document]
  dsimp only
  split
  · rename_i mark
    -- no byte order mark stands in front
    cases depth with
    | zero => exact absurd (List.cons.inj mark).1 (by decide)
    | succ depth => exact absurd (List.cons.inj mark).1 (by decide)
  · simp only [Option.bind_eq_bind, Option.bind_some, skipDeclaration_margin tail _ question,
      skipAsides_margin tail _ bang question, untyped]
    exact written

end LinearScore.Markup
