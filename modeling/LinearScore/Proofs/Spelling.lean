import LinearScore.Token

/-!
# Spelling and reading

The spelling of every valid terminal is read as that terminal, so a list of valid terminals written
as texts gives the same terminals again, and no text of it is unknown.

## Main definitions

* `words`: the texts that stand for a terminal as a whole
* `Form.Apart`: two beginnings of which no text has both

The main statements are `ofText?_text` for one terminal and `ofTexts_map_text` for a stream.
-/

namespace LinearScore

namespace Text

/-! ## Numbers -/

/-- The digits of a number have the number as their value. -/
theorem digits?_toDigits (n : Nat) : digits? (Nat.toDigits 10 n) = some n := by
  have digit : (Nat.toDigits 10 n).all Char.isDigit = true :=
    List.all_eq_true.mpr fun c hc => Nat.isDigit_of_mem_toDigits (by decide) (by decide) hc
  have nonempty : (Nat.toDigits 10 n).isEmpty = false := by simp
  rw [digits?, digit, nonempty, if_pos (by rfl)]
  exact congrArg some Nat.ofDigitChars_ten_toDigits

/-- The digits of a number begin with a digit. -/
theorem toDigits_eq_cons (n : Nat) :
    ∃ c cs, Nat.toDigits 10 n = c :: cs ∧ c.isDigit = true := by
  cases h : Nat.toDigits 10 n with
  | nil => exact absurd h Nat.toDigits_ne_nil
  | cons c cs =>
    refine ⟨c, cs, rfl, Nat.isDigit_of_mem_toDigits (b := 10) (n := n) (by decide) (by decide) ?_⟩
    rw [h]
    exact List.mem_cons_self

/-- Reading a written number gives the number. -/
theorem readNat_toString {n max : Nat} (h : n ≤ max) : readNat max (toString n) = some n := by
  obtain ⟨c, cs, eq, digit⟩ := toDigits_eq_cons n
  have plus : c ≠ '+' := fun hc => by subst hc; exact absurd digit (by decide)
  have value := digits?_toDigits n
  rw [eq] at value
  rw [readNat, Nat.toString_eq_repr, Nat.toList_repr, eq]
  split
  · rename_i heq
    exact absurd (List.cons.inj heq).1 plus
  · rw [value]
    simpa using h

/-- Reading a written integer gives the integer. -/
theorem readInt_toString {n min max : Int} (h : min ≤ n ∧ n ≤ max) :
    readInt min max (toString n) = some n := by
  unfold readInt
  cases n with
  | ofNat n =>
    obtain ⟨c, cs, eq, digit⟩ := toDigits_eq_cons n
    have value := digits?_toDigits n
    have list : (toString (Int.ofNat n)).toList = c :: cs := eq ▸ Nat.toList_repr
    have plus : c ≠ '+' := fun hc => by subst hc; exact absurd digit (by decide)
    have minus : c ≠ '-' := fun hc => by subst hc; exact absurd digit (by decide)
    rw [eq] at value
    rw [list]
    split
    · rename_i heq
      exact absurd (List.cons.inj heq).1 plus
    · rename_i heq
      exact absurd (List.cons.inj heq).1 minus
    · rw [value]
      simpa using h
  | negSucc n =>
    have list : (toString (Int.negSucc n)).toList = '-' :: Nat.toDigits 10 (n + 1) := by
      rw [show toString (Int.negSucc n) = "-" ++ (n + 1).repr from rfl, String.toList_append,
        Nat.toList_repr]
      rfl
    rw [list]
    simpa [digits?_toDigits, Int.negSucc_eq] using h

end Text

namespace Terminal

/-! ## Texts as a whole and texts with a payload -/

/-- The texts that stand for a terminal as a whole. -/
def words : List String :=
  plain.map text ++ NoteType.all.map NoteType.name ++ Accidental.all.map Accidental.name

/-- A text that is no word is read by its beginning. -/
theorem interpret_eq_interpretForm {s : String} (h : s ∉ words) :
    interpret s = interpretForm s.toList := by
  simp only [words, List.mem_append, List.mem_map, not_or, not_exists, not_and] at h
  have plainNone : plain.find? (·.text = s) = none := by simpa using h.1.1
  have typeNone : NoteType.ofName? s = none := by simpa [NoteType.ofName?] using h.1.2
  have accidentalNone : Accidental.ofName? s = none := by simpa [Accidental.ofName?] using h.2
  rw [interpret, plainNone, typeNone, accidentalNone]
  rfl

theorem after?_append (beginning s : String) :
    after? beginning (beginning ++ s).toList = some s := by
  rw [after?, String.toList_append, if_pos (by simp), ← String.length_toList,
    List.drop_left, String.ofList_toList]

/-- No text has both beginnings. -/
def Form.Apart (f g : Form) : Prop :=
  f.beginning.toList.isPrefixOf g.beginning.toList = false ∧
    g.beginning.toList.isPrefixOf f.beginning.toList = false

instance : DecidableRel Form.Apart := fun _ _ => inferInstanceAs (Decidable (_ ∧ _))

theorem after?_eq_none {f g : Form} (h : f.Apart g) (s : String) :
    after? f.beginning (g.beginning ++ s).toList = none := by
  rw [after?, String.toList_append, if_neg]
  intro both
  rw [List.isPrefixOf_iff_prefix] at both
  have apart := h
  simp only [Form.Apart, Bool.eq_false_iff, ne_eq, List.isPrefixOf_iff_prefix] at apart
  rcases List.prefix_or_prefix_of_prefix both (List.prefix_append _ _) with first | second
  · exact apart.1 first
  · exact apart.2 second

/-- Among beginnings that are apart each one is found at the texts that begin with it. -/
theorem findSome?_after? {l : List Form} (apart : l.Pairwise Form.Apart) {f : Form} (hf : f ∈ l)
    (s : String) :
    (l.findSome? fun g => (after? g.beginning (f.beginning ++ s).toList).map g.build) =
      some (f.build s) := by
  induction l with
  | nil => cases hf
  | cons g l ih =>
    obtain ⟨head, rest⟩ := List.pairwise_cons.mp apart
    rw [List.findSome?_cons]
    rcases List.mem_cons.mp hf with rfl | later
    · rw [after?_append]
      rfl
    · rw [after?_eq_none (head f later)]
      exact ih rest later

/--
The tables of beginnings and words are clear: a text has one beginning at most, and a word none;
every beginning starts with a lower-case letter; no word starts with a capital letter, and none
that starts with a digit has an `i`.
-/
theorem tables_clear :
    forms.Pairwise Form.Apart ∧
      (∀ f ∈ forms, f.beginning.toList.head?.any Char.isLower = true ∧
        ∀ w ∈ words, f.beginning.toList.isPrefixOf w.toList = false) ∧
      ∀ w ∈ words, w.toList.head?.any Char.isUpper = false ∧
        (w.toList.head?.any Char.isDigit = true → 'i' ∉ w.toList) := by
  decide +kernel

/-- A text with one of the beginnings is read by its form. -/
theorem interpret_form {f : Form} (hf : f ∈ forms) (s : String) :
    interpret (f.beginning ++ s) = f.build s := by
  have noWord : f.beginning ++ s ∉ words := by
    intro word
    have apart := (tables_clear.2.1 f hf).2 _ word
    rw [String.toList_append, Bool.eq_false_iff] at apart
    exact apart (List.isPrefixOf_iff_prefix.mpr (List.prefix_append _ _))
  rw [interpret_eq_interpretForm noWord, interpretForm, findSome?_after? tables_clear.1 hf]

/-! ## Pitches and ratios -/

/-- The text begins with none of the beginnings. -/
theorem findSome?_eq_none {text : List Char}
    (h : ∀ f ∈ forms, f.beginning.toList.isPrefixOf text = false) :
    (forms.findSome? fun f => (after? f.beginning text).map f.build) = none := by
  rw [List.findSome?_eq_none_iff]
  intro f hf
  rw [after?, h f hf]
  rfl

/-- Every beginning starts with a lower-case letter. -/
theorem forms_lower : ∀ f ∈ forms, ∀ c cs, c.isLower = false →
    f.beginning.toList.isPrefixOf (c :: cs) = false := by
  intro f hf c cs hc
  have first := (tables_clear.2.1 f hf).1
  cases eq : f.beginning.toList with
  | nil => simp [eq] at first
  | cons b bs =>
    rw [eq] at first
    have ne : b ≠ c := fun h => by
      subst h
      exact absurd first (by simp [hc])
    simp [List.isPrefixOf, ne]

theorem splitRatio_append {left : List Char} (h : 'i' ∉ left) (right : List Char) :
    splitRatio (left ++ 'i' :: 'n' :: right) = some (left, right) := by
  induction left with
  | nil => rfl
  | cons c left ih =>
    have ne : c ≠ 'i' := fun hc => h (hc ▸ List.mem_cons_self)
    rw [List.cons_append, splitRatio]
    · rw [ih fun hc => h (List.mem_cons_of_mem _ hc)]
      rfl
    · intro tail hc
      exact absurd hc ne

theorem splitRatio_eq_none {text : List Char} (h : 'i' ∉ text) : splitRatio text = none := by
  induction text with
  | nil => rfl
  | cons c text ih =>
    have ne : c ≠ 'i' := fun hc => h (hc ▸ List.mem_cons_self)
    rw [splitRatio]
    · rw [ih fun hc => h (List.mem_cons_of_mem _ hc)]
      rfl
    · intro tail hc
      exact absurd hc ne

theorem i_not_mem_toDigits (n : Nat) : 'i' ∉ Nat.toDigits 10 n := fun h =>
  absurd (Nat.isDigit_of_mem_toDigits (by decide) (by decide) h) (by decide)

theorem interpret_pitch (step : Step) {octave : Nat} (h : octave ≤ 255) :
    interpret (text (pitch step octave)) = some (pitch step octave) := by
  have list : (text (pitch step octave)).toList = step.letter :: Nat.toDigits 10 octave := by
    rw [text, Step.name, String.toList_append, Nat.toString_eq_repr, Nat.toList_repr,
      String.toList_singleton, List.singleton_append]
  have upper : step.letter.isUpper = true := by cases step <;> rfl
  have lower : step.letter.isLower = false := by cases step <;> rfl
  have noWord : text (pitch step octave) ∉ words := by
    intro word
    have none := (tables_clear.2.2 _ word).1
    rw [list] at none
    simp [upper] at none
  have noRatio : 'i' ∉ step.letter :: Nat.toDigits 10 octave := by
    have first : 'i' ≠ step.letter := by cases step <;> decide
    simpa [first] using i_not_mem_toDigits octave
  have read : Text.readByte (String.ofList (Nat.toDigits 10 octave)) = some octave := by
    rw [← Nat.toString_eq_ofList_toDigits]
    exact Text.readNat_toString h
  have letter : Step.ofLetter? step.letter = some step := by cases step <;> rfl
  rw [interpret_eq_interpretForm noWord, list, interpretForm,
    findSome?_eq_none fun f hf => forms_lower f hf _ _ lower, splitRatio_eq_none noRatio]
  simp [readPitch, uncons?, letter, read]

theorem interpret_ratio {r : TupletRatio} (ha : r.actual ≤ 4294967295)
    (hn : r.normal ≤ 4294967295) : interpret (text (ratio r)) = some (ratio r) := by
  have list : (text (ratio r)).toList =
      Nat.toDigits 10 r.actual ++ 'i' :: 'n' :: Nat.toDigits 10 r.normal := by
    simp [text, String.toList_append, Nat.toString_eq_repr]
  obtain ⟨c, cs, eq, digit⟩ := Text.toDigits_eq_cons r.actual
  have lower : c.isLower = false := by
    simp only [Char.isDigit, Bool.and_eq_true, decide_eq_true_eq] at digit
    show (decide (c.val ≥ 'a'.val) && decide (c.val ≤ 'z'.val)) = false
    rw [Bool.and_eq_false_iff, decide_eq_false_iff_not]
    exact .inl fun h => absurd (UInt32.le_trans h digit.2) (by decide)
  have noWord : text (ratio r) ∉ words := by
    intro word
    refine (tables_clear.2.2 _ word).2 ?_ ?_
    · rw [list, eq]
      simpa using digit
    · rw [list]
      simp
  have noForm (f : Form) (hf : f ∈ forms) :
      f.beginning.toList.isPrefixOf (text (ratio r)).toList = false := by
    rw [list, eq, List.cons_append]
    exact forms_lower f hf _ _ lower
  have actual : Text.readCount (String.ofList (Nat.toDigits 10 r.actual)) = some r.actual := by
    rw [← Nat.toString_eq_ofList_toDigits]
    exact Text.readNat_toString ha
  have normal : Text.readCount (String.ofList (Nat.toDigits 10 r.normal)) = some r.normal := by
    rw [← Nat.toString_eq_ofList_toDigits]
    exact Text.readNat_toString hn
  rw [interpret_eq_interpretForm noWord, interpretForm, findSome?_eq_none noForm, list,
    splitRatio_append (i_not_mem_toDigits _)]
  simp [readRatio, actual, normal]

/-! ## Every terminal -/

theorem readClef_name (sign : ClefSign) {line : Nat} (h : line ≤ 255) :
    readClef (sign.name ++ toString line) = some (clef sign line) := by
  have read : Text.readByte (toString line) = some line := Text.readNat_toString h
  have parts (c : Char) :
      uncons? (String.singleton c ++ toString line).toList = some (c, toString line) := by
    rw [String.toList_append, String.toList_singleton, List.singleton_append]
    exact congrArg (fun s => some (c, s)) String.ofList_toList
  obtain ⟨c, name, named⟩ : ∃ c, sign.name = String.singleton c ∧
      ClefSign.ofName? (String.singleton c) = some sign := by
    cases sign with
    | g => exact ⟨'G', rfl, rfl⟩
    | f => exact ⟨'F', rfl, rfl⟩
    | c => exact ⟨'C', rfl, rfl⟩
  rw [readClef, name, parts]
  simp only [Option.bind_eq_bind, Option.bind_some, named, read, Option.pure_def]

/-- A text is read by the form whose beginning it has. -/
theorem interpret_nth (i : Fin 12) (s : String) :
    interpret ((forms.get i).beginning ++ s) = (forms.get i).build s :=
  interpret_form (List.get_mem forms i) s

/-- The terminals that are spelled by a word. -/
def worded : List Terminal :=
  plain ++ NoteType.all.map noteType ++ Accidental.all.map accidental

theorem interpret_worded : ∀ t ∈ worded, interpret t.text = some t := by decide +kernel

/-- The texts of valid terminals stand for them. -/
theorem interpret_text {t : Terminal} (h : t.valid = true) : interpret t.text = some t := by
  cases t with
  | noteType t => exact interpret_worded _ (by cases t <;> decide)
  | accidental a => exact interpret_worded _ (by cases a <;> decide)
  | pitch step octave =>
    simp only [valid, decide_eq_true_eq] at h
    exact interpret_pitch step (by omega)
  | ratio r =>
    simp only [valid, Bool.and_eq_true, decide_eq_true_eq] at h
    exact interpret_ratio (by omega) (by omega)
  | key fifths =>
    simp only [valid, Bool.and_eq_true, decide_eq_true_eq] at h
    refine (interpret_nth 0 (toString fifths)).trans (Option.map_eq_some_iff.mpr ⟨fifths, ?_, rfl⟩)
    exact Text.readInt_toString (by omega)
  | beats n =>
    simp only [valid, Bool.and_eq_true, decide_eq_true_eq] at h
    refine (interpret_nth 1 (toString n)).trans (Option.map_eq_some_iff.mpr ⟨n, ?_, rfl⟩)
    exact Text.readNat_toString (by omega)
  | beatType n =>
    simp only [valid, beatTypes, List.contains_iff_mem, List.mem_cons, List.not_mem_nil,
      or_false] at h
    refine (interpret_nth 2 (toString n)).trans (Option.map_eq_some_iff.mpr ⟨n, ?_, rfl⟩)
    exact Text.readNat_toString (by omega)
  | clef sign line =>
    simp only [valid, Bool.and_eq_true, decide_eq_true_eq] at h
    refine (interpret_nth 3 (sign.name ++ toString line)).trans ?_
    have five : line ≤ 5 := by cases sign <;> exact Nat.le_trans h.2 (by decide)
    exact readClef_name sign (by omega)
  | voice n =>
    simp only [valid, Bool.and_eq_true, decide_eq_true_eq] at h
    refine (interpret_nth 4 (toString n)).trans (Option.map_eq_some_iff.mpr ⟨n, ?_, rfl⟩)
    exact Text.readNat_toString (by omega)
  | staff n =>
    simp only [valid, Bool.and_eq_true, decide_eq_true_eq] at h
    refine (interpret_nth 5 (toString n)).trans (Option.map_eq_some_iff.mpr ⟨n, ?_, rfl⟩)
    exact Text.readNat_toString (by omega)
  | stem s =>
    refine (interpret_nth 6 s.name).trans (Option.map_eq_some_iff.mpr ⟨s, ?_, rfl⟩)
    cases s <;> rfl
  | beam b =>
    refine (interpret_nth 7 b.name).trans (Option.map_eq_some_iff.mpr ⟨b, ?_, rfl⟩)
    cases b <;> rfl
  | tied e =>
    refine (interpret_nth 8 e.name).trans (Option.map_eq_some_iff.mpr ⟨e, ?_, rfl⟩)
    cases e <;> rfl
  | tuplet e =>
    refine (interpret_nth 9 e.name).trans (Option.map_eq_some_iff.mpr ⟨e, ?_, rfl⟩)
    cases e <;> rfl
  | slur e =>
    refine (interpret_nth 10 e.name).trans (Option.map_eq_some_iff.mpr ⟨e, ?_, rfl⟩)
    cases e <;> rfl
  | tremoloKind k =>
    refine (interpret_nth 11 k.name).trans ?_
    cases k <;> rfl
  | tremoloMarks n =>
    simp only [valid, Bool.and_eq_true, decide_eq_true_eq] at h
    refine (interpret_nth 11 (toString n)).trans ?_
    obtain rfl | rfl | rfl | rfl : n = 1 ∨ n = 2 ∨ n = 3 ∨ n = 4 := by omega
    all_goals rfl
  | _ => exact interpret_worded _ (by decide)

/-- **Every valid terminal is read from its spelling.** -/
theorem ofText?_text {t : Terminal} (h : t.valid = true) : ofText? t.text = some t := by
  rw [ofText?, interpret_text h, Option.filter_some, if_pos (by simp [h])]

/-- What is read from a text is valid. -/
theorem valid_of_ofText? {s : String} {t : Terminal} (h : ofText? s = some t) :
    t.valid = true := by
  have kept := (Option.filter_eq_some_iff.mp h).2
  simp only [Bool.and_eq_true] at kept
  exact kept.1

/-- A terminal is only read from its spelling. -/
theorem text_of_ofText? {s : String} {t : Terminal} (h : ofText? s = some t) : t.text = s := by
  have kept := (Option.filter_eq_some_iff.mp h).2
  simp only [Bool.and_eq_true, decide_eq_true_eq] at kept
  exact kept.2

end Terminal

/-! ## Streams -/

namespace Token

theorem terminal_of_entry {entry : String × Nat} {t : Token} (h : ofEntry? entry = some t) :
    Terminal.ofText? entry.1 = some t.terminal := by
  obtain ⟨terminal, read, rfl⟩ := Option.map_eq_some_iff.mp h
  exact read

/-- Every token of a stream is valid. -/
theorem valid_ofTexts {texts : List String} {t : Token} (h : t ∈ (ofTexts texts).value) :
    t.terminal.valid = true := by
  obtain ⟨entry, -, eq⟩ := List.mem_filterMap.mp h
  exact Terminal.valid_of_ofText? (terminal_of_entry eq)

section Written

variable {terminals : List Terminal} (h : ∀ t ∈ terminals, t.valid = true)
include h

/-- **A stream of valid terminals written as texts is read as these terminals.** -/
theorem ofTexts_map_text :
    (ofTexts (terminals.map Terminal.text)).value.map Token.terminal = terminals := by
  suffices read : ∀ k, (((terminals.map Terminal.text).zipIdx k).filterMap ofEntry?).map
      Token.terminal = terminals from read 1
  induction terminals with
  | nil => exact fun _ => rfl
  | cons t terminals ih =>
    intro k
    have entry : ofEntry? (t.text, k) = some ⟨t, k⟩ := by
      rw [ ofEntry?, Terminal.ofText?_text (h t List.mem_cons_self)]
      rfl
    rw [List.map_cons, List.zipIdx_cons, List.filterMap_cons, entry]
    exact congrArg (t :: ·) (ih (fun u hu => h u (List.mem_cons_of_mem _ hu)) (k + 1))

/-- No text of the stream is unknown. -/
theorem diagnostics_ofTexts_map_text :
    (ofTexts (terminals.map Terminal.text)).diagnostics = [] := by
  rw [ofTexts, List.filterMap_eq_nil_iff]
  intro entry mem
  obtain ⟨t, ht, text⟩ := List.mem_map.mp (List.fst_mem_of_mem_zipIdx mem)
  rw [unknown?, ← text, Terminal.ofText?_text (h t ht)]
  rfl

end Written

end Token

end LinearScore
