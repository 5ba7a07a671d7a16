import Mathlib.Data.List.TakeDrop
import Mathlib.Data.List.TakeWhile
import LinearScore.Markup.Event
import LinearScore.Markup.Outline
import LinearScore.Proofs.Pieces

/-!
# The events of written markup

The text of an outline is cut into the tags and the runs of characters that it was written from.
What names and texts may hold for this is what a document can carry: names are plain, and characters
are allowed.

## Main definitions

* `PlainName`: a name that needs no prefix
* `Outline.Sound`: an outline with names and texts that can be carried
* `Outline.chars`, `Outline.events`: the text of an outline between its margins, and its events
* `Lexes`: a text is cut into events

The main statement is `Outline.lexes`.
-/

namespace LinearScore.Markup

/-! ## Names and texts -/

/-- The characters are those of a name without a prefix. -/
def plainChars (cs : List Char) : Bool :=
  cs.head?.any isNameStart && cs.all fun c => isNameChar c && c ≠ ':'

/-- A name without a prefix. -/
def PlainName (name : String) : Prop := plainChars name.toList = true

instance : DecidablePred PlainName := fun _ => inferInstanceAs (Decidable (_ = true))

/-- All characters of a text come back as they were written. -/
def CarriedText (s : String) : Prop := ∀ c ∈ s.toList, isAllowed c = true ∧ c ≠ '\r'

/-- All characters of the value of an attribute come back as they were written. -/
def CarriedValue (s : String) : Prop :=
  ∀ c ∈ s.toList, isAllowed c = true ∧ c ≠ '\r' ∧ c ≠ '\n' ∧ c ≠ '\t'

-- the characters of the text are looked at, not all that there are
instance : DecidablePred CarriedText := fun s =>
  List.decidableBAll (fun c => isAllowed c = true ∧ c ≠ '\r') s.toList

instance : DecidablePred CarriedValue := fun s =>
  List.decidableBAll (fun c => isAllowed c = true ∧ c ≠ '\r' ∧ c ≠ '\n' ∧ c ≠ '\t') s.toList

/-- A name and attributes that a tag can carry. -/
structure SoundTag (name : String) (attributes : List (String × String)) : Prop where
  name : PlainName name
  names : ∀ a ∈ attributes, PlainName a.1 ∧ a.1 ≠ "xmlns"
  values : ∀ a ∈ attributes, CarriedValue a.2
  distinct : (attributes.map Prod.fst).Nodup

namespace Outline

mutual

/-- All names and texts can be carried. -/
def Sound : Outline → Prop
  | empty name attributes => SoundTag name attributes
  | leaf name attributes s => SoundTag name attributes ∧ CarriedText s
  | block name attributes children => SoundTag name attributes ∧ AllSound children

/-- All names and texts of some elements can be carried. -/
def AllSound : List Outline → Prop
  | [] => True
  | e :: es => e.Sound ∧ AllSound es

end

theorem allSound_iff {es : List Outline} : AllSound es ↔ ∀ e ∈ es, e.Sound := by
  induction es with
  | nil => exact ⟨fun _ _ h => (nomatch h), fun _ => trivial⟩
  | cons e es ih =>
    rw [List.forall_mem_cons, ← ih]
    exact Iff.rfl

end Outline

/-! ## Written text -/

/-- The characters of a text as it is written. -/
def escapedChars (s : String) : List Char := s.toList.flatMap escapedChar

/-- The characters of attributes as they are written. -/
def attributesChars : List (String × String) → List Char
  | [] => []
  | (name, value) :: rest =>
    ' ' :: (name.toList ++ '=' :: '"' :: (escapedChars value ++ '"' :: attributesChars rest))

/-- The end of a line, and the margin of the next one. -/
def margin (depth : Nat) : List Char := '\n' :: List.replicate (2 * depth) ' '

namespace Outline

mutual

/-- The text of an element without the margin in front and the end of its last line. -/
def chars (depth : Nat) : Outline → List Char
  | empty name attributes => '<' :: (name.toList ++ (attributesChars attributes ++ ['/', '>']))
  | leaf name attributes s =>
    '<' :: (name.toList ++ (attributesChars attributes ++
      '>' :: (escapedChars s ++ '<' :: '/' :: (name.toList ++ ['>']))))
  | block name attributes children =>
    '<' :: (name.toList ++ (attributesChars attributes ++
      '>' :: (charsOf (depth + 1) children ++
        (margin depth ++ '<' :: '/' :: (name.toList ++ ['>'])))))

/-- The text of some elements, each with its margin in front. -/
def charsOf (depth : Nat) : List Outline → List Char
  | [] => []
  | e :: es => margin depth ++ (e.chars depth ++ charsOf depth es)

end

end Outline

theorem toList_attributesText (attributes : List (String × String)) :
    (attributesText attributes).toList = attributesChars attributes := by
  induction attributes with
  | nil => rfl
  | cons a rest ih =>
    simp [attributesText, attributesChars, ih, escaped, escapedChars]

theorem toList_line (depth : Nat) (content : String) :
    (line depth content).toList = List.replicate (2 * depth) ' ' ++ (content.toList ++ ['\n']) := by
  simp [line]

namespace Outline

mutual

/-- The lines of an element are its text with the margin in front and the end of the last line. -/
theorem toList_text (depth : Nat) (e : Outline) :
    (e.text depth).toList = List.replicate (2 * depth) ' ' ++ (e.chars depth ++ ['\n']) := by
  match e with
  | empty name attributes => simp [text, chars, toList_line, toList_attributesText]
  | leaf name attributes s =>
    simp [text, chars, toList_line, toList_attributesText, escaped, escapedChars]
  | block name attributes children =>
    -- the end of the first line belongs to the margin of what follows
    have inner (rest : List Char) : '\n' :: ((textOf (depth + 1) children).toList ++ rest) =
        charsOf (depth + 1) children ++ '\n' :: rest := by
      rw [← List.cons_append, toList_textOf (depth + 1) children, List.append_assoc]
      rfl
    simp [text, chars, toList_line, toList_attributesText, inner, margin]

theorem toList_textOf (depth : Nat) (es : List Outline) :
    '\n' :: (textOf depth es).toList = charsOf depth es ++ ['\n'] := by
  match es with
  | [] => rfl
  | e :: es =>
    have first := toList_text depth e
    have others := toList_textOf depth es
    simp [textOf, charsOf, first, others, margin]

end

end Outline

/-! ## Characters of names and texts -/

/-- Escaped characters end neither a text nor a value, and they are allowed where the characters
are. -/
theorem of_mem_escapedChar {c d : Char} (h : d ∈ escapedChar c) :
    d ≠ '<' ∧ d ≠ '>' ∧ d ≠ '"' ∧ (isAllowed c = true → isAllowed d = true) := by
  have named (name : List Char) (mem : d ∈ name)
      (fine : (name.all fun x => x ≠ '<' && x ≠ '>' && x ≠ '"' && isAllowed x) = true) :
      d ≠ '<' ∧ d ≠ '>' ∧ d ≠ '"' ∧ (isAllowed c = true → isAllowed d = true) := by
    have char := List.all_eq_true.mp fine d mem
    simp only [Bool.and_eq_true, decide_eq_true_eq] at char
    obtain ⟨⟨⟨less, greater⟩, quote⟩, allowed⟩ := char
    exact ⟨less, greater, quote, fun _ => allowed⟩
  unfold escapedChar at h
  split at h
  · exact named _ h (by decide)
  · exact named _ h (by decide)
  · exact named _ h (by decide)
  · exact named _ h (by decide)
  · exact named _ h (by decide)
  · rename_i ampersand less greater quote apostrophe
    obtain rfl := List.mem_singleton.mp h
    exact ⟨less, greater, quote, id⟩

theorem of_mem_escapedChars {s : String} {d : Char} (allowed : ∀ c ∈ s.toList, isAllowed c = true)
    (h : d ∈ escapedChars s) : d ≠ '<' ∧ d ≠ '>' ∧ d ≠ '"' ∧ isAllowed d = true := by
  obtain ⟨c, hc, hd⟩ := List.mem_flatMap.mp h
  obtain ⟨less, greater, quote, keeps⟩ := of_mem_escapedChar hd
  exact ⟨less, greater, quote, keeps (allowed c hc)⟩

theorem CarriedText.allowed {s : String} (h : CarriedText s) : ∀ c ∈ s.toList, isAllowed c = true :=
  fun c hc => (h c hc).1

theorem CarriedValue.allowed {s : String} (h : CarriedValue s) :
    ∀ c ∈ s.toList, isAllowed c = true :=
  fun c hc => (h c hc).1

namespace PlainName

variable {name : String} (h : PlainName name)
include h

theorem exists_cons : ∃ c cs, name.toList = c :: cs ∧ isNameStart c = true := by
  have first := (Bool.and_eq_true_iff.mp h).1
  cases eq : name.toList with
  | nil =>
    rw [eq] at first
    cases first
  | cons c cs =>
    rw [eq] at first
    exact ⟨c, cs, rfl, by simpa using first⟩

theorem of_mem {c : Char} (hc : c ∈ name.toList) : isNameChar c = true ∧ c ≠ ':' := by
  have all := List.all_eq_true.mp (Bool.and_eq_true_iff.mp h).2 c hc
  simpa using all

end PlainName

theorem qualify_plain {name : String} (h : PlainName name) :
    qualify name.toList = some ⟨"", name⟩ := by
  obtain ⟨c, cs, eq, start⟩ := h.exists_cons
  have noColon : ∀ c ∈ name.toList, decide (c ≠ ':') = true := by
    intro c hc
    exact decide_eq_true (h.of_mem hc).2
  have whole : name.toList.span (· ≠ ':') = (name.toList, []) := by
    rw [List.span_eq_takeWhile_dropWhile, List.takeWhile_eq_self_iff.mpr noColon,
      List.dropWhile_eq_nil_iff.mpr noColon]
  have part : namePart? name.toList = some name := by
    rw [eq, namePart?, if_pos start, ← eq, String.ofList_toList]
  unfold qualify
  rw [whole]
  show (namePart? name.toList).map _ = _
  rw [part]
  rfl

/-- A name is taken up to the first character that is not one of a name. -/
theorem takeQualified_plain {name : String} (h : PlainName name) {c : Char} {rest : List Char}
    (hc : isNameChar c = false) :
    takeQualified (name.toList ++ c :: rest) = some (⟨"", name⟩, c :: rest) := by
  have all : ∀ c ∈ name.toList, isNameChar c = true := fun c hc => (h.of_mem hc).1
  have cut := span_append_cons all hc rest
  rw [List.span_eq_takeWhile_dropWhile, Prod.mk.injEq] at cut
  rw [takeQualified, cut.1, cut.2, qualify_plain h]
  rfl

/-- A name starts like no white space, no sign and no end of a tag. -/
theorem ne_of_isNameStart {c : Char} (h : isNameStart c = true) :
    isSpace c = false ∧ c ≠ '!' ∧ c ≠ '?' ∧ c ≠ '/' ∧ c ≠ '>' := by
  have apart (d : Char) (hd : isNameStart d = false) : c ≠ d := by
    rintro rfl
    rw [h] at hd
    cases hd
  refine ⟨?_, apart _ (by decide), apart _ (by decide), apart _ (by decide), apart _ (by decide)⟩
  simp [isSpace, apart ' ' (by decide), apart '\t' (by decide), apart '\n' (by decide),
    apart '\r' (by decide)]

/-! ## Tags -/

/-- An attribute as it is written. -/
def rawAttribute (a : String × String) : RawAttribute := ⟨⟨"", a.1⟩, escapedChars a.2⟩

theorem takeValue_escaped {value : String} (h : CarriedValue value) (rest : List Char) :
    takeValue ('"' :: (escapedChars value ++ '"' :: rest)) = some (escapedChars value, rest) := by
  have inside : ∀ c ∈ escapedChars value, (c ≠ '"' && c ≠ '<') = true := by
    intro c hc
    obtain ⟨less, _, quote, _⟩ := of_mem_escapedChars h.allowed hc
    simp [less, quote]
  have allowed : (escapedChars value).all isAllowed = true :=
    List.all_eq_true.mpr fun c hc => (of_mem_escapedChars h.allowed hc).2.2.2
  have cut := span_append_cons (b := '"') inside (by decide) rest
  simp only [takeValue, takeQuote, Option.bind_eq_bind, Option.bind_some]
  rw [cut]
  simp [allowed]

theorem takeAttribute_written {a : String × String} (name : PlainName a.1)
    (value : CarriedValue a.2) (rest : List Char) :
    takeAttribute (a.1.toList ++ '=' :: '"' :: (escapedChars a.2 ++ '"' :: rest)) =
      some (rawAttribute a, rest) := by
  have equals (cs : List Char) : takeEquals ('=' :: '"' :: cs) = some ('"' :: cs) := rfl
  rw [takeAttribute, takeQualified_plain name (by decide)]
  simp only [Option.bind_eq_bind, Option.bind_some, equals, takeValue_escaped value]
  rfl

/-- Attributes are taken up to the end of the tag. -/
theorem takeAttributes_written {attributes : List (String × String)}
    (names : ∀ a ∈ attributes, PlainName a.1) (values : ∀ a ∈ attributes, CarriedValue a.2)
    {closing rest : List Char} {ending : TagEnd}
    (closes : ∀ fuel, takeAttributes (fuel + 1) (closing ++ rest) = some ([], ending, rest))
    (fuel : Nat) (enough : attributes.length < fuel) :
    takeAttributes fuel (attributesChars attributes ++ (closing ++ rest)) =
      some (attributes.map rawAttribute, ending, rest) := by
  induction attributes generalizing fuel with
  | nil =>
    obtain ⟨fuel, rfl⟩ := Nat.exists_eq_add_one_of_ne_zero (Nat.ne_of_gt enough)
    exact closes fuel
  | cons a as ih =>
    obtain ⟨name, names⟩ := List.forall_mem_cons.mp names
    obtain ⟨value, values⟩ := List.forall_mem_cons.mp values
    obtain ⟨fuel, rfl⟩ := Nat.exists_eq_add_one_of_ne_zero (Nat.ne_zero_of_lt enough)
    obtain ⟨c, cs, eq, start⟩ := name.exists_cons
    obtain ⟨space, -, -, slash, greater⟩ := ne_of_isNameStart start
    have others := ih names values fuel (Nat.lt_of_succ_lt_succ enough)
    have first := takeAttribute_written name value
      (attributesChars as ++ (closing ++ rest))
    have skipped (cs : List Char) : skipSpaces (' ' :: c :: cs) = c :: cs := by
      rw [skipSpaces, List.dropWhile_cons_of_pos (by decide),
        List.dropWhile_cons_of_neg (by simp [space])]
    simp only [attributesChars, List.cons_append, List.append_assoc]
    rw [eq, List.cons_append] at first ⊢
    unfold takeAttributes
    rw [skipped]
    split
    · rename_i heq
      exact (slash (List.cons.inj heq).1).elim
    · rename_i heq
      exact (greater (List.cons.inj heq).1).elim
    · rw [if_pos (by decide), first]
      simp only [Option.bind_eq_bind, Option.bind_some, others]
      rfl

theorem length_le_attributesChars (attributes : List (String × String)) :
    attributes.length ≤ (attributesChars attributes).length := by
  induction attributes with
  | nil => exact Nat.le_refl _
  | cons a as ih =>
    simp only [attributesChars, List.length_cons, List.length_append]
    omega

/-- A start tag is taken with its attributes, whether content follows or not. -/
theorem takeEvent_start {name : String} {attributes : List (String × String)}
    (h : SoundTag name attributes) (closing : List Char) {rest : List Char} {ending : TagEnd}
    (closes : ∀ fuel, takeAttributes (fuel + 1) (closing ++ rest) = some ([], ending, rest))
    (apart : ∀ c ∈ (attributesChars attributes ++ (closing ++ rest)).head?, isNameChar c = false)
    (some : attributesChars attributes ++ (closing ++ rest) ≠ []) :
    takeEvent ('<' :: (name.toList ++ (attributesChars attributes ++ (closing ++ rest)))) =
      .some (.start ⟨"", name⟩ (attributes.map rawAttribute) ending, rest) := by
  obtain ⟨c, cs, eq, start⟩ := h.name.exists_cons
  obtain ⟨-, bang, question, slash, -⟩ := ne_of_isNameStart start
  have enough : attributes.length <
      (attributesChars attributes ++ (closing ++ rest)).length + 1 := by
    have := length_le_attributesChars attributes
    simp only [List.length_append]
    omega
  have taken := takeAttributes_written (fun a ha => (h.names a ha).1) h.values closes _ enough
  have tag : takeStart (name.toList ++ (attributesChars attributes ++ (closing ++ rest))) =
      .some (.start ⟨"", name⟩ (attributes.map rawAttribute) ending, rest) := by
    cases behind : attributesChars attributes ++ (closing ++ rest) with
    | nil => exact (some behind).elim
    | cons d ds =>
      rw [behind] at taken apart
      rw [takeStart, takeQualified_plain h.name (apart d rfl)]
      simp only [Option.bind_eq_bind, Option.bind_some, taken]
      rfl
  rw [eq, List.cons_append] at tag ⊢
  unfold takeEvent
  split
  · rename_i heq
    exact (bang (List.cons.inj (List.cons.inj heq).2).1).elim
  · rename_i heq
    exact (question (List.cons.inj (List.cons.inj heq).2).1).elim
  · rename_i heq
    exact (slash (List.cons.inj (List.cons.inj heq).2).1).elim
  · rename_i heq
    rw [← (List.cons.inj heq).2]
    exact tag
  · rename_i absurd
    exact (absurd _ rfl).elim

/-- What stands behind the name of a tag ends the name. -/
theorem isNameChar_head_attributesChars (attributes : List (String × String)) {c : Char}
    (hc : isNameChar c = false) (rest : List Char) :
    ∀ d ∈ (attributesChars attributes ++ c :: rest).head?, isNameChar d = false := by
  intro d hd
  cases attributes with
  | nil =>
    obtain rfl := Option.some.inj hd
    exact hc
  | cons a as =>
    obtain rfl := Option.some.inj hd
    decide

theorem takeEvent_content {name : String} {attributes : List (String × String)}
    (h : SoundTag name attributes) (rest : List Char) :
    takeEvent ('<' :: (name.toList ++ (attributesChars attributes ++ '>' :: rest))) =
      some (.start ⟨"", name⟩ (attributes.map rawAttribute) .content, rest) :=
  takeEvent_start h ['>'] (fun _ => rfl)
    (isNameChar_head_attributesChars attributes (by decide) rest) (by simp)

theorem takeEvent_empty {name : String} {attributes : List (String × String)}
    (h : SoundTag name attributes) (rest : List Char) :
    takeEvent ('<' :: (name.toList ++ (attributesChars attributes ++ '/' :: '>' :: rest))) =
      some (.start ⟨"", name⟩ (attributes.map rawAttribute) .empty, rest) :=
  takeEvent_start h ['/', '>'] (fun _ => rfl)
    (isNameChar_head_attributesChars attributes (by decide) ('>' :: rest)) (by simp)

theorem takeEvent_stop {name : String} (h : PlainName name) (rest : List Char) :
    takeEvent ('<' :: '/' :: (name.toList ++ '>' :: rest)) = some (.stop ⟨"", name⟩, rest) := by
  show takeStop (name.toList ++ '>' :: rest) = _
  rw [takeStop, takeQualified_plain h (by decide)]
  rfl

/-! ## Runs of characters -/

/-- Without a `>` there is no end of a section. -/
theorem breakAt_eq_none {cs : List Char} (h : ∀ c ∈ cs, c ≠ '>') :
    breakAt [']', ']', '>'] cs = none := by
  induction cs with
  | nil => rfl
  | cons c cs ih =>
    obtain ⟨_, rest⟩ := List.forall_mem_cons.mp h
    have absent : after? [']', ']', '>'] (c :: cs) = none := by
      rw [after?, if_neg]
      intro front
      rw [List.isPrefixOf_iff_prefix] at front
      exact h '>' (front.subset (by simp)) rfl
    rw [breakAt, absent]
    show (breakAt _ cs).map _ = none
    rw [ih rest]
    rfl

/-- A run of characters can be taken as one event. -/
def IsRun (run : List Char) : Prop :=
  run ≠ [] ∧ ∀ c ∈ run, c ≠ '<' ∧ c ≠ '>' ∧ isAllowed c = true

theorem isRun_margin (depth : Nat) : IsRun (margin depth) := by
  refine ⟨List.cons_ne_nil _ _, ?_⟩
  intro c hc
  rcases List.mem_cons.mp hc with rfl | hc
  · decide
  · obtain rfl := List.eq_of_mem_replicate hc
    decide

theorem isRun_escapedChars {s : String} (h : CarriedText s) (some : s ≠ "") :
    IsRun (escapedChars s) := by
  constructor
  · intro none
    have empty : ∀ c ∈ s.toList, escapedChar c = [] := List.flatMap_eq_nil_iff.mp none
    cases eq : s.toList with
    | nil => exact some (String.toList_eq_nil_iff.mp eq)
    | cons c cs =>
      rw [eq] at empty
      have first := empty c List.mem_cons_self
      unfold escapedChar at first
      split at first <;> cases first
  · intro c hc
    obtain ⟨less, greater, _, allowed⟩ := of_mem_escapedChars h.allowed hc
    exact ⟨less, greater, allowed⟩

namespace IsRun

variable {run : List Char} (h : IsRun run)
include h

/-- A run ends where a tag begins or the text ends. -/
theorem takeEvent_eq {rest : List Char} (apart : ∀ c ∈ rest.head?, c = '<') :
    takeEvent (run ++ rest) = some (.chars run, rest) := by
  have inside : ∀ c ∈ run, decide (c ≠ '<') = true := fun c hc => decide_eq_true (h.2 c hc).1
  have allowed : run.all isAllowed = true := List.all_eq_true.mpr fun c hc => (h.2 c hc).2.2
  have none := breakAt_eq_none fun c hc => (h.2 c hc).2.1
  have cut : (run ++ rest).span (· ≠ '<') = (run, rest) := by
    cases rest with
    | nil =>
      rw [List.append_nil, List.span_eq_takeWhile_dropWhile, List.takeWhile_eq_self_iff.mpr inside,
        List.dropWhile_eq_nil_iff.mpr inside]
    | cons c rest =>
      refine span_append_cons inside ?_ rest
      rw [apart c rfl]
      rfl
  have taken : takeChars (run ++ rest) = some (.chars run, rest) := by
    rw [takeChars, cut]
    simp [allowed, none]
  cases eq : run with
  | nil => exact (h.1 eq).elim
  | cons c cs =>
    have less : c ≠ '<' := (h.2 c (eq ▸ List.mem_cons_self)).1
    rw [eq, List.cons_append] at taken
    rw [List.cons_append]
    unfold takeEvent
    split
    · rename_i heq
      exact (less (List.cons.inj heq).1).elim
    · rename_i heq
      exact (less (List.cons.inj heq).1).elim
    · rename_i heq
      exact (less (List.cons.inj heq).1).elim
    · rename_i heq
      exact (less (List.cons.inj heq).1).elim
    · exact taken

end IsRun

/-! ## Events -/

/-- A text is cut into events. -/
inductive Lexes : List Char → List Event → Prop where
  | nil : Lexes [] []
  | cons {c : Char} {cs rest : List Char} {event : Event} {events : List Event}
      (first : takeEvent (c :: cs) = some (event, rest)) (shorter : rest.length ≤ cs.length)
      (others : Lexes rest events) : Lexes (c :: cs) (event :: events)

theorem Lexes.eventsWithin_eq {cs : List Char} {es : List Event} (h : Lexes cs es) {fuel : Nat}
    (enough : cs.length ≤ fuel) : eventsWithin fuel cs = es := by
  induction h generalizing fuel with
  | nil => cases fuel <;> rfl
  | @cons c cs rest event events first shorter others ih =>
    cases fuel with
    | zero => exact (Nat.not_succ_le_zero _ enough).elim
    | succ fuel =>
      rw [eventsWithin, first]
      dsimp only
      rw [ih (Nat.le_trans shorter (Nat.le_of_succ_le_succ enough))]

/-- The events of a text that is cut into events. -/
theorem Lexes.events_eq {cs : List Char} {es : List Event} (h : Lexes cs es) : events cs = es :=
  h.eventsWithin_eq (Nat.le_refl _)

/-- A run in front of a tag, or at the end of a text, is an event. -/
theorem Lexes.run {run rest : List Char} {es : List Event} (h : IsRun run)
    (apart : ∀ c ∈ rest.head?, c = '<') (others : Lexes rest es) :
    Lexes (run ++ rest) (.chars run :: es) := by
  have first := h.takeEvent_eq apart
  cases run with
  | nil => exact (h.1 rfl).elim
  | cons c cs => exact .cons first (by simp) others

namespace Outline

mutual

/-- The events of an element at a level. -/
def events (depth : Nat) : Outline → List Event
  | empty name attributes => [.start ⟨"", name⟩ (attributes.map rawAttribute) .empty]
  | leaf name attributes s =>
    .start ⟨"", name⟩ (attributes.map rawAttribute) .content ::
      ((if s = "" then [] else [.chars (escapedChars s)]) ++ [.stop ⟨"", name⟩])
  | block name attributes children =>
    .start ⟨"", name⟩ (attributes.map rawAttribute) .content ::
      (eventsOf (depth + 1) children ++ [.chars (margin depth), .stop ⟨"", name⟩])

/-- The events of some elements at a level, each behind its margin. -/
def eventsOf (depth : Nat) : List Outline → List Event
  | [] => []
  | e :: es => .chars (margin depth) :: (e.events depth ++ eventsOf depth es)

end

/-- A run ends where a tag begins. -/
theorem eq_of_mem_head? (rest : List Char) : ∀ c ∈ ('<' :: rest).head?, c = '<' := by
  rintro c ⟨⟩
  rfl

theorem head?_chars (depth : Nat) (e : Outline) (rest : List Char) :
    (e.chars depth ++ rest).head? = some '<' := by
  cases e <;> rfl

theorem lexes_stop {name : String} (h : PlainName name) {rest : List Char} {es : List Event}
    (others : Lexes rest es) :
    Lexes ('<' :: '/' :: (name.toList ++ '>' :: rest)) (.stop ⟨"", name⟩ :: es) :=
  .cons (takeEvent_stop h rest) (by simp; omega) others

mutual

/-- **The text of an element is cut into the events of the element.** -/
theorem lexes (depth : Nat) {e : Outline} (h : e.Sound) {rest : List Char} {es : List Event}
    (others : Lexes rest es) : Lexes (e.chars depth ++ rest) (e.events depth ++ es) := by
  match e with
  | empty name attributes =>
    simp only [chars, events, List.cons_append, List.append_assoc, List.nil_append]
    exact .cons (takeEvent_empty h rest) (by simp; omega) others
  | leaf name attributes s =>
    obtain ⟨tag, text⟩ := h
    have stop := lexes_stop tag.name others
    simp only [chars, events, List.cons_append, List.append_assoc, List.nil_append]
    refine .cons (takeEvent_content tag _) (by simp; omega) ?_
    split
    · rename_i none
      rw [none]
      exact stop
    · rename_i some
      exact .run (isRun_escapedChars text some) (eq_of_mem_head? _) stop
  | block name attributes children =>
    obtain ⟨tag, all⟩ := h
    have stop := lexes_stop tag.name others
    have last := Lexes.run (isRun_margin depth) (eq_of_mem_head? _) stop
    simp only [chars, events, List.cons_append, List.append_assoc, List.nil_append]
    exact .cons (takeEvent_content tag _) (by simp; omega) (lexesOf (depth + 1) all last)

theorem lexesOf (depth : Nat) {es : List Outline} (h : AllSound es) {rest : List Char}
    {others : List Event} (behind : Lexes rest others) :
    Lexes (charsOf depth es ++ rest) (eventsOf depth es ++ others) := by
  match es with
  | [] => exact behind
  | e :: es =>
    obtain ⟨first, all⟩ := h
    have inner := lexes depth first (lexesOf depth all behind)
    simp only [charsOf, eventsOf, List.cons_append, List.append_assoc]
    refine .run (isRun_margin depth) ?_ inner
    rw [head?_chars]
    exact fun c hc => (Option.some.inj hc).symm

end

end Outline

end LinearScore.Markup
