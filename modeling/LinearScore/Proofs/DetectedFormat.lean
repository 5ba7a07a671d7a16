import Mathlib.Data.List.Basic
import LinearScore.Document

/-!
# Formats that are detected

A file of an unknown extension is a plain document if it starts with a tag behind blanks.  Every
document that can be read does, unless it has a byte order mark: the reader passes over the mark,
but the mark is no blank.  So a plain document that can be read is read the same under every
extension but that of an archive, except that one with a byte order mark is taken for an archive
where its extension is not known.

## Main definitions

* `byteOrderMark`: the mark, in bytes
* `Markup.dropMark`: a text without its mark
* `Markup.Reader.WantsTag`: what is asked of a reader of documents

The main statement is `readBytes_of_plain`.
-/

namespace LinearScore

/-- The byte order mark in front of a text in UTF-8. -/
def byteOrderMark : List UInt8 := [0xEF, 0xBB, 0xBF]

/-! ## What a document starts with -/

namespace Markup

/-- The characters of a text behind its byte order mark, if it has one. -/
def dropMark : List Char → List Char
  | '\uFEFF' :: cs => cs
  | cs => cs

/-- A text that starts as a given beginning does starts with its first character. -/
theorem head?_of_isPrefixOf {c : Char} {beginning cs : List Char}
    (h : (c :: beginning).isPrefixOf cs = true) : cs.head? = some c := by
  obtain ⟨rest, rfl⟩ := List.isPrefixOf_iff_prefix.mp h
  rfl

theorem isPrefixOf_of_after? {beginning cs rest : List Char}
    (h : after? beginning cs = some rest) : beginning.isPrefixOf cs = true := by
  unfold after? at h
  split at h
  · assumption
  · cases h

/-- What is no tag or aside is a run of characters. -/
theorem takeEvent_of_ne {c : Char} (cs : List Char) (plain : c ≠ '<') :
    takeEvent (c :: cs) = takeChars (c :: cs) := by
  unfold takeEvent
  split
  all_goals first | rfl | (rename_i eq; exact absurd (List.cons.inj eq).1 plain)

/-- A run of characters starts no element. -/
theorem takeChars_ne_start {cs : List Char} {name : QualifiedName}
    {attributes : List RawAttribute} {ending : TagEnd} {rest : List Char} :
    takeChars cs ≠ some (.start name attributes ending, rest) := by
  unfold takeChars
  dsimp only
  split <;> simp

/-- The root element starts with a tag. -/
theorem head?_of_rootTree {entities : Entities} {cs : List Char} {t : Tree}
    (h : rootTree entities cs = some t) : cs.head? = some '<' := by
  unfold rootTree at h
  split at h
  · rename_i eq
    cases cs with
    | nil => cases eq
    | cons c cs =>
      by_cases tag : c = '<'
      · rw [tag]
        rfl
      · rw [events, List.length_cons, eventsWithin, takeEvent_of_ne cs tag] at eq
        split at eq
        · rename_i event rest taken
          rw [(List.cons.inj eq).1] at taken
          exact absurd taken takeChars_ne_start
        · cases eq
  · cases h

/-- Behind comments, processing instructions and white space there is a tag only if there is one
behind white space. -/
theorem head?_of_skipAsides {fuel : Nat} {cs rest : List Char}
    (h : skipAsides fuel cs = some rest) (tag : rest.head? = some '<') :
    (skipSpaces cs).head? = some '<' := by
  cases fuel with
  | zero => cases h
  | succ fuel =>
    unfold skipAsides at h
    dsimp only at h
    split at h
    · rename_i aside
      rcases Bool.or_eq_true_iff.mp aside with comment | instruction
      · exact head?_of_isPrefixOf comment
      · exact head?_of_isPrefixOf instruction
    · rw [Option.some.inj h]
      exact tag

theorem head?_of_skipDeclaration {cs rest : List Char} (h : skipDeclaration cs = some rest)
    (tag : (skipSpaces rest).head? = some '<') : (skipSpaces cs).head? = some '<' := by
  unfold skipDeclaration at h
  split at h
  · rw [Option.some.inj h]
    exact tag
  · rename_i declared
    have first := head?_of_isPrefixOf (isPrefixOf_of_after? declared)
    obtain ⟨tail, rfl⟩ := List.head?_eq_some_iff.mp first
    rfl

/-- A reader takes only documents that start with a tag, behind a byte order mark and white
space. -/
def Reader.WantsTag (reader : Reader) : Prop :=
  ∀ {allowType : Bool} {text : String} {t : Tree}, reader allowType text = some t →
    (skipSpaces (dropMark text.toList)).head? = some '<'

/-- **A document that can be read starts with a tag.** -/
theorem wantsTag_readTree : Reader.WantsTag readTree := by
  intro allowType text t h
  unfold readTree at h
  obtain ⟨cs, declared, h⟩ := Option.bind_eq_some_iff.mp h
  obtain ⟨cs', asides, h⟩ := Option.bind_eq_some_iff.mp h
  have declared : skipDeclaration (dropMark text.toList) = some cs := declared
  refine head?_of_skipDeclaration declared (head?_of_skipAsides asides ?_)
  split at h
  · rename_i typed
    exact head?_of_isPrefixOf (isPrefixOf_of_after? typed)
  · exact head?_of_rootTree h

end Markup

/-! ## The mark in bytes -/

/-- What a result is the image of. -/
theorem exists_of_map_eq_ok {ε α β : Type} {f : α → β} {x : Except ε α} {b : β}
    (h : x.map f = .ok b) : ∃ a, x = .ok a ∧ f a = b := by
  cases x with
  | error e => cases h
  | ok a => exact ⟨a, rfl, Except.ok.inj h⟩

namespace Text

/-- The characters that are read before stand in front. -/
theorem decodeUtf8From_acc (index : Nat) (pending : Option Utf8Pending) (acc : List Char)
    (bytes : List UInt8) :
    decodeUtf8From index pending acc bytes =
      (decodeUtf8From index pending [] bytes).map (acc.reverse ++ ·) := by
  induction bytes generalizing index pending acc with
  | nil =>
    unfold decodeUtf8From
    split
    · simp [Except.map]
    · rfl
  | cons b bs ih =>
    -- a character that is complete goes in front of what follows it
    have complete (index : Nat) (c : Char) :
        decodeUtf8From index none (c :: acc) bs =
          (decodeUtf8From index none [c] bs).map (acc.reverse ++ ·) := by
      rw [ih _ _ (c :: acc), ih _ _ [c]]
      cases decodeUtf8From index none [] bs <;> simp [Except.map]
    unfold decodeUtf8From
    split
    · split
      · exact complete ..
      · split
        · exact ih ..
        · rfl
    · dsimp only
      split
      · split
        · exact complete ..
        · exact ih ..
      · rfl

/-- A character that is read before comes first. -/
theorem eq_of_decodeUtf8From {index : Nat} {c d : Char} {bytes : List UInt8} {cs : List Char}
    (h : decodeUtf8From index none [c] bytes = .ok (d :: cs)) : d = c := by
  rw [decodeUtf8From_acc] at h
  obtain ⟨ds, -, eq⟩ := exists_of_map_eq_ok h
  exact (List.cons.inj eq).1.symm

/-- What a character of more than one byte is read from: `later` further bytes behind the one that
has to lie in the range of its first byte. -/
structure TakenBy (p : Utf8Pending) (c : Char) (b : UInt8) (later : List UInt8) : Prop where
  missing : later.length + 1 = p.missing
  low : p.low ≤ b
  high : b ≤ p.high
  tails : ∀ d ∈ later, 0x80 ≤ d ∧ d ≤ 0xBF
  value : c = Char.ofNat ((b :: later).foldl (fun v d => v * 64 + (d.toNat - 0x80)) p.bits)

/-- A character that is open is read from the bytes that it misses. -/
theorem exists_takenBy {index : Nat} {p : Utf8Pending} {bytes : List UInt8} {c : Char}
    {cs : List Char} (h : decodeUtf8From index (some p) [] bytes = .ok (c :: cs))
    (unfinished : 0 < p.missing) :
    ∃ b later rest, bytes = b :: (later ++ rest) ∧ TakenBy p c b later := by
  induction bytes generalizing index p with
  | nil => cases h
  | cons b bs ih =>
    unfold decodeUtf8From at h
    dsimp only at h
    split at h
    · rename_i range
      obtain ⟨low, high⟩ := Bool.and_eq_true_iff.mp range
      have low := of_decide_eq_true low
      have high := of_decide_eq_true high
      split at h
      · rename_i last
        exact ⟨b, [], bs, rfl, last.symm, low, high, List.forall_mem_nil _,
          eq_of_decodeUtf8From h⟩
      · rename_i more
        have missing : 1 < p.missing := by omega
        obtain ⟨b', later, rest, rfl, taken⟩ := ih h (Nat.sub_pos_of_lt missing)
        have rest' : later.length + 1 = p.missing - 1 := taken.missing
        have length : (b' :: later).length + 1 = p.missing := by
          rw [List.length_cons, rest']
          omega
        have value : c = Char.ofNat
            ((b :: b' :: later).foldl (fun v d => v * 64 + (d.toNat - 0x80)) p.bits) := by
          rw [List.foldl_cons]
          exact taken.value
        exact ⟨b, b' :: later, rest, rfl, length, low, high,
          List.forall_mem_cons.mpr ⟨⟨taken.low, taken.high⟩, taken.tails⟩, value⟩
    · cases h

/-- The mark is the character of its number. -/
theorem eq_of_ofNat_eq_mark {v : Nat} (h : Char.ofNat v = '\uFEFF') : v = 0xFEFF := by
  unfold Char.ofNat at h
  by_cases valid : v.isValidChar
  · rw [dif_pos valid] at h
    exact congrArg Char.toNat h
  · rw [dif_neg valid] at h
    exact absurd h (by decide)

/-- The three lengths of a character of more than one byte.  Only characters of three bytes can
have the number of the mark, and only if they start as it does. -/
theorem utf8Lead_cases {b : UInt8} {missing bits : Nat} {low high : UInt8}
    (h : utf8Lead b = some (missing, bits, low, high)) :
    high ≤ 0xBF ∧
      ((missing = 1 ∧ bits < 0x20) ∨
        (missing = 2 ∧ bits < 0x10 ∧ (bits = 0xF → b = 0xEF)) ∨
        (missing = 3 ∧ (0 < bits ∨ 0x90 ≤ low))) := by
  simp only [utf8Lead, Bool.and_eq_true, decide_eq_true_eq, UInt8.le_iff_toNat_le,
    UInt8.reduceToNat] at h
  -- the first bytes in the order of `utf8Lead`
  split at h
  · simp only [Option.some.injEq, Prod.mk.injEq] at h
    obtain ⟨rfl, rfl, rfl, rfl⟩ := h
    exact ⟨by decide, .inl ⟨rfl, by omega⟩⟩
  split at h
  · cases h
    exact ⟨by decide, .inr (.inl ⟨rfl, by decide, nofun⟩)⟩
  split at h
  · cases h
    exact ⟨by decide, .inr (.inl ⟨rfl, by decide, nofun⟩)⟩
  split at h
  · simp only [Option.some.injEq, Prod.mk.injEq] at h
    obtain ⟨rfl, rfl, rfl, rfl⟩ := h
    exact ⟨by decide, .inr (.inl ⟨rfl, by omega,
      fun last => UInt8.toNat_inj.mp (show b.toNat = 0xEF by omega)⟩)⟩
  split at h
  · cases h
    exact ⟨by decide, .inr (.inr ⟨rfl, .inr (by decide)⟩)⟩
  split at h
  · simp only [Option.some.injEq, Prod.mk.injEq] at h
    obtain ⟨rfl, rfl, rfl, rfl⟩ := h
    exact ⟨by decide, .inr (.inr ⟨rfl, .inl (by omega)⟩)⟩
  split at h
  · cases h
    exact ⟨by decide, .inr (.inr ⟨rfl, .inl (by decide)⟩)⟩
  · cases h

/-- **A text starts with the mark only if its bytes do.** -/
theorem byteOrderMark_isPrefix {bytes : List UInt8} {cs : List Char}
    (h : decodeUtf8 bytes = .ok ('\uFEFF' :: cs)) : byteOrderMark <+: bytes := by
  cases bytes with
  | nil => cases h
  | cons b bs =>
    unfold decodeUtf8 decodeUtf8From at h
    dsimp only at h
    split at h
    · -- one byte is too few
      have number : b.toNat = 0xFEFF := eq_of_ofNat_eq_mark (eq_of_decodeUtf8From h).symm
      have := b.toNat_lt
      omega
    · split at h
      · rename_i missing bits low high lead
        have ⟨top, lengths⟩ := utf8Lead_cases lead
        have unfinished : 0 < missing := by omega
        obtain ⟨d, later, rest, rfl, taken⟩ := exists_takenBy h unfinished
        have number := eq_of_ofNat_eq_mark taken.value.symm
        have length : later.length + 1 = missing := taken.missing
        have above : low.toNat ≤ d.toNat := UInt8.le_iff_toNat_le.mp taken.low
        have below : d.toNat ≤ 0xBF := UInt8.le_iff_toNat_le.mp (UInt8.le_trans taken.high top)
        dsimp only at number
        rcases lengths with ⟨rfl, two⟩ | ⟨rfl, three, first⟩ | ⟨rfl, four⟩
        · obtain rfl := List.length_eq_zero_iff.mp (Nat.succ_inj.mp length)
          rw [List.foldl_cons, List.foldl_nil] at number
          omega
        · obtain ⟨e, rfl⟩ := List.length_eq_one_iff.mp (Nat.succ_inj.mp length)
          have tail : e.toNat ≤ 0xBF :=
            UInt8.le_iff_toNat_le.mp (taken.tails e (List.mem_singleton.mpr rfl)).2
          rw [List.foldl_cons, List.foldl_cons, List.foldl_nil] at number
          have last : e = 0xBF := UInt8.toNat_inj.mp (show e.toNat = 0xBF by omega)
          have middle : d = 0xBB := UInt8.toNat_inj.mp (show d.toNat = 0xBB by omega)
          rw [first (by omega), middle, last]
          exact ⟨rest, rfl⟩
        · obtain ⟨e, e', rfl⟩ := List.length_eq_two.mp (Nat.succ_inj.mp length)
          rw [List.foldl_cons, List.foldl_cons, List.foldl_cons, List.foldl_nil] at number
          rcases four with top | bottom
          · omega
          · have bottom : 0x90 ≤ low.toNat := UInt8.le_iff_toNat_le.mp bottom
            omega
      · cases h

/-- The mark in bytes is the mark in front of the characters. -/
theorem byteOrderMark_isPrefix_iff {bytes : List UInt8} {cs : List Char}
    (decoded : decodeUtf8 bytes = .ok cs) :
    byteOrderMark <+: bytes ↔ cs.head? = some '\uFEFF' := by
  constructor
  · rintro ⟨rest, rfl⟩
    have behind : decodeUtf8 (byteOrderMark ++ rest) =
        (decodeUtf8From 3 none [] rest).map ('\uFEFF' :: ·) :=
      decodeUtf8From_acc 3 none ['\uFEFF'] rest
    rw [behind] at decoded
    obtain ⟨ds, -, rfl⟩ := exists_of_map_eq_ok decoded
    rfl
  · intro marked
    obtain ⟨ds, rfl⟩ := List.head?_eq_some_iff.mp marked
    exact byteOrderMark_isPrefix decoded

/-- White space in markup is blank. -/
theorem isBlank_of_isSpace {c : Char} (h : Markup.isSpace c = true) : isBlank c = true := by
  simp only [Markup.isSpace, Bool.or_eq_true, decide_eq_true_eq] at h
  obtain ((rfl | rfl) | rfl) | rfl := h <;> decide

/-- A tag behind white space stands behind blanks. -/
theorem head?_trimLeft {cs : List Char} (h : (Markup.skipSpaces cs).head? = some '<') :
    (trimLeft cs).head? = some '<' := by
  unfold Markup.skipSpaces at h
  unfold trimLeft
  induction cs with
  | nil => cases h
  | cons c cs ih =>
    by_cases space : Markup.isSpace c = true
    · rw [List.dropWhile_cons_of_pos space] at h
      rw [List.dropWhile_cons_of_pos (isBlank_of_isSpace space)]
      exact ih h
    · rw [List.dropWhile_cons_of_neg space] at h
      obtain rfl := Option.some.inj h
      rw [List.dropWhile_cons_of_neg (by decide)]
      rfl

end Text

/-! ## Detection -/

section Detection

variable {readers : Readers}

theorem tree_of_readScore {reader : Markup.Reader} {text : String} {r : Reported Score}
    (h : readScore reader text = .ok r) : ∃ t, reader true text = some t := by
  unfold readScore readRoot at h
  cases tree : reader true text with
  | none =>
    rw [tree] at h
    cases h
  | some t => exact ⟨t, rfl⟩

/-- **What is recognised as a plain document** among those that can be read: what has no byte
order mark. -/
theorem looksPlain_iff (wants : readers.document.WantsTag) {bytes : List UInt8}
    {r : Reported Score} (plain : readPlain readers bytes = .ok r) :
    looksPlain bytes = true ↔ ¬ byteOrderMark <+: bytes := by
  unfold readPlain at plain
  unfold looksPlain
  cases decoded : Text.decodeUtf8 bytes with
  | error fault =>
    rw [decoded] at plain
    cases plain
  | ok cs =>
    rw [decoded] at plain
    obtain ⟨t, read⟩ := tree_of_readScore plain
    have tag := wants read
    rw [String.toList_ofList] at tag
    dsimp only
    rw [decide_eq_true_iff, Text.byteOrderMark_isPrefix_iff decoded]
    constructor
    · -- the mark is no blank and no tag
      intro recognised marked
      obtain ⟨ds, rfl⟩ := List.head?_eq_some_iff.mp marked
      cases recognised
    · intro unmarked
      unfold Markup.dropMark at tag
      split at tag
      · exact absurd rfl unmarked
      · exact Text.head?_trimLeft tag

/-- **A plain document that can be read is read the same under every extension** but that of an
archive, with one exception: behind a byte order mark it is recognised by its extension only, and
read as an archive where that is not known.  So it is whatever reads the archives, and whatever
reads the documents among those that want a tag. -/
theorem readBytes_of_plain (wants : readers.document.WantsTag) {bytes : List UInt8}
    {r : Reported Score} (plain : readBytes readers bytes (some "xml") = .ok r)
    {extension : Option String} (unpacked : extension ≠ some "mxl") :
    readBytes readers bytes extension =
      if byteOrderMark <+: bytes ∧ extension ∉ [some "musicxml", some "xml"] then
        readArchive readers bytes
      else .ok r := by
  have plain : readPlain readers bytes = .ok r := plain
  unfold readBytes
  split
  · exact absurd rfl unpacked
  · rw [if_neg (by simp), plain]
  · rw [if_neg (by simp), plain]
  · rename_i musicxml xml
    have unknown : extension ∉ [some "musicxml", some "xml"] := by
      simp only [List.mem_cons, List.not_mem_nil, or_false, not_or]
      exact ⟨musicxml, xml⟩
    by_cases marked : byteOrderMark <+: bytes
    · rw [if_neg fun recognised => (looksPlain_iff wants plain).mp recognised marked,
        if_pos ⟨marked, unknown⟩]
    · rw [if_pos ((looksPlain_iff wants plain).mpr marked), if_neg fun h => marked h.1, plain]

end Detection

/-- The bytes of a document without content. -/
def bareDocument : List UInt8 := "<score-partwise/>".toUTF8.data.toList

/-- Without a mark it is read the same where the extension is not known. -/
theorem readBytes_of_plain_bare :
    ∃ r, programReaders.document.WantsTag ∧
      readBytes programReaders bareDocument (some "xml") = .ok r ∧
      (none : Option String) ≠ some "mxl" ∧
      readBytes programReaders bareDocument none = .ok r := by
  have evaluated : (readBytes programReaders bareDocument (some "xml")).map Reported.value =
      .ok {} := by
    decide +kernel
  obtain ⟨r, plain, -⟩ := exists_of_map_eq_ok evaluated
  have wants : programReaders.document.WantsTag := Markup.wantsTag_readTree
  have unpacked : (none : Option String) ≠ some "mxl" := nofun
  have read := readBytes_of_plain wants plain unpacked
  rw [if_neg (by decide +kernel)] at read
  exact ⟨r, wants, plain, unpacked, read⟩

/-- Behind a mark it is read where the extension is known, and otherwise is taken for an archive,
which it is not. -/
theorem readBytes_marked_unknown :
    programReaders.document.WantsTag ∧
      (readBytes programReaders (byteOrderMark ++ bareDocument) (some "xml")).map Reported.value =
        .ok {} ∧
      (readBytes programReaders (byteOrderMark ++ bareDocument) none).map Reported.value =
        .error (.archive .malformed) :=
  ⟨Markup.wantsTag_readTree, by decide +kernel⟩

end LinearScore
