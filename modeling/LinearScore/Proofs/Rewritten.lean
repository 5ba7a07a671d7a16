import LinearScore.Proofs.PartMarkup

/-!
# What writing does not keep

Two marks do not survive in the text of a part: a measure that starts a page is not marked as the
start of a system any more, and a clef without a sign is read as a treble clef.  A reader cannot
tell the text of such a part from that of the part that it is rewritten to, so all that holds for
parts that can be written holds for the rewritten ones.

## Main definitions

* `Part.rewritten`: the part that the text of a part is read as

The main statements are `readMeasures_written` and `Part.rewritten_eq_self_iff`.
-/

namespace LinearScore

open Markup Markup.Outline

variable {σ α : Type}

/-- The clef as it is read again: without a sign it is a treble clef. -/
def Clef.rewritten (c : Clef) : Clef := { c with sign := if c.sign = "" then "G" else c.sign }

/-- The attributes as they are read again. -/
def Attributes.rewritten (a : Attributes) : Attributes :=
  { a with clefs := a.clefs.map Clef.rewritten }

/-- The element as it is read again. -/
def Element.rewritten : Element → Element
  | .attributes a => .attributes a.rewritten
  | e => e

/-- The measure as it is read again: the start of a page is not marked as that of a system too. -/
def Measure.rewritten (m : Measure) : Measure :=
  { m with
    newSystem := m.newSystem && !m.newPage
    elements := m.elements.map Element.rewritten }

/-- The part as it is read again. -/
def Part.rewritten (p : Part) : Part := { p with measures := p.measures.map Measure.rewritten }

/-! ## What is kept -/

theorem Clef.rewritten_eq_self_iff (c : Clef) : c.rewritten = c ↔ c.sign ≠ "" := by
  constructor
  · intro kept unsigned
    have sign : "G" = c.sign := by
      have written := congrArg Clef.sign kept
      rw [rewritten, if_pos unsigned] at written
      exact written
    exact absurd (sign.trans unsigned) (by decide)
  · intro signed
    rw [rewritten, if_neg signed]

/-- A list is kept by a map that keeps its members, and only then. -/
theorem map_eq_self_iff {f : α → α} {as : List α} : as.map f = as ↔ ∀ a ∈ as, f a = a := by
  refine Iff.trans ?_ List.map_inj_left
  rw [List.map_id']

theorem Attributes.rewritten_eq_self_iff (a : Attributes) :
    a.rewritten = a ↔ ∀ c ∈ a.clefs, c.sign ≠ "" := by
  have clefs : a.rewritten = a ↔ a.clefs.map Clef.rewritten = a.clefs := by
    constructor
    · exact congrArg Attributes.clefs
    · intro kept
      rw [rewritten, kept]
  rw [clefs, map_eq_self_iff]
  exact forall₂_congr fun c _ => c.rewritten_eq_self_iff

theorem Element.rewritten_eq_self_iff (e : Element) :
    e.rewritten = e ↔ ∀ a ∈ e.attributes?, ∀ c ∈ a.clefs, c.sign ≠ "" := by
  cases e with
  | attributes a =>
    have inner : (Element.attributes a).rewritten = .attributes a ↔ a.rewritten = a :=
      ⟨Element.attributes.inj, congrArg Element.attributes⟩
    rw [inner, a.rewritten_eq_self_iff]
    constructor
    · rintro signed _ ⟨⟩
      exact signed
    · intro signed
      exact signed a rfl
  | note n => exact iff_of_true rfl nofun
  | backup d => exact iff_of_true rfl nofun
  | forward d => exact iff_of_true rfl nofun

theorem Measure.rewritten_eq_self_iff (m : Measure) :
    m.rewritten = m ↔ ¬ (m.newSystem = true ∧ m.newPage = true) ∧
      ∀ e ∈ m.elements, ∀ a ∈ e.attributes?, ∀ c ∈ a.clefs, c.sign ≠ "" := by
  obtain ⟨number, implicit, newSystem, newPage, elements⟩ := m
  have fields : Measure.rewritten ⟨number, implicit, newSystem, newPage, elements⟩ =
      ⟨number, implicit, newSystem, newPage, elements⟩ ↔
      (newSystem && !newPage) = newSystem ∧ elements.map Element.rewritten = elements := by
    simp [rewritten]
  have breaks : (newSystem && !newPage) = newSystem ↔ ¬ (newSystem = true ∧ newPage = true) := by
    cases newSystem <;> cases newPage <;> decide
  rw [fields, breaks, map_eq_self_iff]
  exact and_congr_right fun _ => forall₂_congr fun e _ => e.rewritten_eq_self_iff

/-- **A part is kept if none of its measures starts a system and a page, and all of its clefs have
a sign.** -/
theorem Part.rewritten_eq_self_iff (p : Part) :
    p.rewritten = p ↔ ∀ m ∈ p.measures, ¬ (m.newSystem = true ∧ m.newPage = true) ∧
      ∀ e ∈ m.elements, ∀ a ∈ e.attributes?, ∀ c ∈ a.clefs, c.sign ≠ "" := by
  have measures : p.rewritten = p ↔ p.measures.map Measure.rewritten = p.measures := by
    constructor
    · exact congrArg Part.measures
    · intro kept
      rw [rewritten, kept]
  rw [measures, map_eq_self_iff]
  exact forall₂_congr fun m _ => m.rewritten_eq_self_iff

/-! ## Texts that are read alike -/

/-- The sign of a clef comes from the child that states it, if this holds a text. -/
theorem readClef_laidTree (c : Clef) (depth : Nat) :
    readClef (c.outline.laidTree depth) =
      { number := ((c.outline.laidTree depth).attribute? "number").bind Text.readByte
        sign := (laidTree (depth + 1) (field "sign" c.sign)).trimmed?.getD "G"
        line := ((laidTree (depth + 1) (intField "line" c.line)).value? Text.readSigned).getD 2 } :=
  rfl

theorem readClef_rewritten (c : Clef) (depth : Nat) :
    readClef (c.rewritten.outline.laidTree depth) = readClef (c.outline.laidTree depth) := by
  by_cases unsigned : c.sign = ""
  · have treble : (laidTree (depth + 1) (field "sign" "G")).trimmed? = some "G" :=
      trimmed?_leaf (by decide) (depth + 1) "sign" []
    have written : c.rewritten.sign = "G" := if_pos unsigned
    rw [readClef_laidTree, readClef_laidTree, written, unsigned, treble]
    rfl
  · rw [c.rewritten_eq_self_iff.mpr unsigned]

/-- Where a step cannot tell the last children of an element from others, the element is read as
with the others. -/
theorem foldlM_children_congr {f : σ → Tree → Reported σ} {build : α → Outline} {rewrite : α → α}
    {depth : Nat} (h : ∀ s a, f s ((build (rewrite a)).laidTree (depth + 1)) =
      f s ((build a).laidTree (depth + 1)))
    (name : String) (attributes : List (String × String)) (es : List Outline) (as : List α)
    (s : σ) :
    (laidTree depth
        (block name attributes (es ++ (as.map rewrite).map build))).children.foldlM f s =
      (laidTree depth (block name attributes (es ++ as.map build))).children.foldlM f s := by
  rw [children_laidTree, children_laidTree, List.map_append, List.map_append, List.foldlM_append,
    List.foldlM_append]
  refine bind_congr fun s => ?_
  simp only [List.foldlM_map, h]

theorem readAttributes_rewritten (measure : Int) (a : Attributes) (depth : Nat) :
    readAttributes measure (a.rewritten.outline.laidTree depth) =
      readAttributes measure (a.outline.laidTree depth) := by
  have clef (s : Attributes) (c : Clef) :
      readAttributesChild measure s (c.rewritten.outline.laidTree (depth + 1)) =
        readAttributesChild measure s (c.outline.laidTree (depth + 1)) :=
    congrArg (fun c => pure { s with clefs := s.clefs ++ [c] }) (readClef_rewritten c (depth + 1))
  let sorted (a : Attributes) : Reported Attributes :=
    pure { a with clefs := Attributes.sortClefs a.clefs }
  refine congrArg (· >>= sorted) ?_
  exact foldlM_children_congr clef "attributes" [] _ a.clefs {}

theorem readMeasureChild_rewritten (m : Measure) (e : Element) (depth : Nat) :
    readMeasureChild m (e.rewritten.outline.laidTree depth) =
      readMeasureChild m (e.outline.laidTree depth) := by
  cases e with
  | attributes a =>
    let put (e : Element) : Measure := { m with elements := m.elements ++ [e] }
    exact congrArg (· >>= fun a => pure (put (.attributes a)))
      (readAttributes_rewritten m.number a depth)
  | note n => rfl
  | backup d => rfl
  | forward d => rfl

theorem Measure.breakOutline_rewritten (m : Measure) :
    m.rewritten.breakOutline = m.breakOutline := by
  obtain ⟨number, implicit, newSystem, newPage, elements⟩ := m
  cases newPage with
  | false =>
    show onlyIf (newSystem && true) _ = onlyIf newSystem _
    rw [Bool.and_true]
  | true => rfl

theorem readMeasure_rewritten (m : Measure) (depth : Nat) :
    readMeasure (m.rewritten.outline.laidTree depth) =
      readMeasure (m.outline.laidTree depth) := by
  rw [Measure.outline, m.breakOutline_rewritten, Measure.outline]
  exact foldlM_children_congr (fun s e => readMeasureChild_rewritten s e (depth + 1)) "measure"
    (("number", toString m.number) :: if m.implicit then [("implicit", "yes")] else [])
    m.breakOutline m.elements _

/-- **Measures are read from their text as they are rewritten.** -/
theorem readMeasures_written {ms : List Measure} (h : ∀ m ∈ ms, m.rewritten.Writable)
    (depth : Nat) :
    readMeasures ((ms.map Measure.outline).map (laidTree depth)) =
      pure (ms.map Measure.rewritten) :=
  readMeasures_map fun m hm =>
    (readMeasure_rewritten m depth).symm.trans (readMeasure_outline (h m hm) depth)

/-! ## Texts that can be carried alike -/

theorem Clef.sound_of_rewritten {c : Clef} (h : c.rewritten.outline.Sound) : c.outline.Sound := by
  by_cases unsigned : c.sign = ""
  · obtain ⟨tag, -, rest⟩ := h
    refine ⟨tag, ⟨.bare rfl, ?_⟩, rest⟩
    rw [unsigned]
    exact fun _ => nofun
  · rwa [c.rewritten_eq_self_iff.mpr unsigned] at h

theorem Attributes.sound_of_rewritten {a : Attributes} (h : a.rewritten.outline.Sound) :
    a.outline.Sound := by
  obtain ⟨tag, all⟩ := h
  obtain ⟨others, clefs⟩ := List.forall_mem_append.mp (allSound_iff.mp all)
  refine sound_block tag (List.forall_mem_append.mpr ⟨others, sound_map fun c hc => ?_⟩)
  refine c.sound_of_rewritten (clefs _ ?_)
  exact List.mem_map_of_mem (List.mem_map_of_mem hc)

theorem Element.sound_of_rewritten {e : Element} (h : e.rewritten.outline.Sound) :
    e.outline.Sound := by
  cases e with
  | attributes a => exact a.sound_of_rewritten h
  | note n => exact h
  | backup d => exact h
  | forward d => exact h

theorem Measure.sound_of_rewritten {m : Measure} (h : m.rewritten.outline.Sound) :
    m.outline.Sound := by
  obtain ⟨tag, all⟩ := h
  obtain ⟨breaks, elements⟩ := List.forall_mem_append.mp (allSound_iff.mp all)
  rw [m.breakOutline_rewritten] at breaks
  refine sound_block tag (List.forall_mem_append.mpr ⟨breaks, sound_map fun e he => ?_⟩)
  refine e.sound_of_rewritten (elements _ ?_)
  exact List.mem_map_of_mem (List.mem_map_of_mem he)

/-- **A document can carry the names and texts of a part if it can those of the rewritten part.** -/
theorem Part.sound_of_rewritten {p : Part} (h : p.rewritten.outline.Sound) : p.outline.Sound := by
  obtain ⟨tag, all⟩ := h
  refine sound_block tag (sound_map fun m hm => m.sound_of_rewritten (allSound_iff.mp all _ ?_))
  exact List.mem_map_of_mem (List.mem_map_of_mem hm)

end LinearScore
