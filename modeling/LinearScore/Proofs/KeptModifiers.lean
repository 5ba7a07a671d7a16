import LinearScore.Proofs.Fields

/-!
# Modifiers are kept or reported

An item offers its modifiers one by one to its fields.  Each of them ends up in one place: its
field keeps it, or it is reported.  Three things decide which: the field that the item has for it,
how much this field holds, and what was offered before it.

## Main definitions

* `ModifierField`, `Capacity`: the fields of items, and how much they hold
* `FieldTable`: which field of an item takes which modifiers, with a table for each kind of item
* `keptOf`, `refusedOf`: the offers that are kept, and the others
* `Item.outward`, `Item.inOrder`: the offers of an item
* `KeepsOrReports`: what a reading of modifiers promises

A reading is a loop over offers, so a step is shown to do what the room in a field allows
(`Settles`), and from this what a run has settled (`Settled`).  The main statement is
`Item.keepsOrReports`.
-/

namespace LinearScore

/-- A field of an item. -/
inductive ModifierField where
  | unprinted | grace | graceSlash | chord | rest | pitch | voice
  /-- The marker of a backup or forward. -/
  | marker
  | ratio | dots | accidental | stem | staff | beams | ties | tuplets | slurs
  | fermata | arpeggiate | staccato | accent | strongAccent | tenuto | trillMark
  | tremoloKind | tremoloMarks
  | beats | beatType
  deriving DecidableEq

/-- What a field holds of a modifier: its terminal, and its position where that is used later. -/
structure Holding where
  terminal : Terminal
  position? : Option Nat := none
  deriving DecidableEq

/-- How much a field holds: one modifier, one of each kind, or all that it is offered. -/
inductive Capacity where
  | one | oneOfEach | all
  deriving DecidableEq

namespace Capacity

/-- There is no room for a modifier behind those that were offered before. -/
def isFull : Capacity → List Holding → Holding → Bool
  | one, before, _ => !before.isEmpty
  | oneOfEach, before, h => before.contains h
  | all, _, _ => false

/-- What is held of all that is offered: the first, the first of each kind, or all of it. -/
def select : Capacity → List Holding → List Holding
  | one, offered => offered.take 1
  | oneOfEach, offered => offered.eraseDups
  | all, offered => offered

end Capacity

namespace ModifierField

/-- How much a field holds. -/
def capacity : ModifierField → Capacity
  | ties | tuplets => .oneOfEach
  | dots | beams | slurs => .all
  | _ => .one

/-- The field holds the positions of its modifiers. -/
def placed : ModifierField → Bool
  | rest | pitch | beams => true
  | _ => false

/-- What a field holds of a modifier. -/
def holding (field : ModifierField) (t : Token) : Holding :=
  ⟨t.terminal, if field.placed then some t.position else none⟩

end ModifierField

/-- Which field of an item takes a modifier on a side, if the item has one for it. -/
abbrev FieldTable := Side → Terminal → Option ModifierField

/-- The fields of a note or rest. -/
def noteField? : FieldTable
  | .leading, .unprinted => some .unprinted
  | .leading, .grace => some .grace
  | .leading, .graceSlash => some .graceSlash
  | .leading, .chord => some .chord
  | .leading, .rest => some .rest
  | .leading, .pitch _ _ => some .pitch
  | .leading, .voice _ => some .voice
  | .trailing, .ratio _ => some .ratio
  | .trailing, .dot => some .dots
  | .trailing, .accidental _ => some .accidental
  | .trailing, .stem _ => some .stem
  | .trailing, .staff _ => some .staff
  | .trailing, .beam _ => some .beams
  | .trailing, .tied _ => some .ties
  | .trailing, .tuplet _ => some .tuplets
  | .trailing, .slur _ => some .slurs
  | .trailing, .fermata => some .fermata
  | .trailing, .arpeggiate => some .arpeggiate
  | .trailing, .staccato => some .staccato
  | .trailing, .accent => some .accent
  | .trailing, .strongAccent => some .strongAccent
  | .trailing, .tenuto => some .tenuto
  | .trailing, .trillMark => some .trillMark
  | .trailing, .tremoloKind _ => some .tremoloKind
  | .trailing, .tremoloMarks _ => some .tremoloMarks
  | _, _ => none

/-- The fields of a backup or forward with a given marker. -/
def skipField? (marker : Terminal) : FieldTable
  | .leading, t => if t = marker then some .marker else none
  | .trailing, .ratio _ => some .ratio
  | .trailing, _ => none

/-- The fields of a time signature. -/
def timeField? : FieldTable
  | .trailing, .beats _ => some .beats
  | .trailing, .beatType _ => some .beatType
  | _, _ => none

/-- The field of a clef. -/
def clefField? : FieldTable
  | .trailing, .staff _ => some .staff
  | _, _ => none

/-- A key has no fields. -/
def keyField? : FieldTable := fun _ _ => none

/-! ## Offers -/

section Offers

variable (table : FieldTable)

/-- The field that an item has for an offer. -/
def Offer.field? (o : Offer) : Option ModifierField := table o.side o.token.terminal

/-- The report of an offer that is not kept: the item has no field for it, or the field is taken. -/
def Offer.refusal (o : Offer) : Diagnostic :=
  .atToken o.token.position
    (if (o.field? table).isSome then .additional o.side o.token.terminal o.root
    else .unexpected o.side o.token.terminal o.root)

/-- What a field is offered, in the order of the offers. -/
def offeredTo (offers : List Offer) (field : ModifierField) : List Holding :=
  (offers.filter fun o => o.field? table = some field).map fun o => field.holding o.token

/-- An offer is kept if there is a field for it, and the field has room behind what it has. -/
def keeps (has : ModifierField → List Holding) (o : Offer) : Bool :=
  (o.field? table).any fun field => !field.capacity.isFull (has field) (field.holding o.token)

/-- Each of some offers behind others, and whether it is kept. -/
def judged (before : List Offer) : List Offer → List (Offer × Bool)
  | [] => []
  | o :: later => (o, keeps table (offeredTo table before) o) :: judged (before ++ [o]) later

/-- The offers that are kept. -/
def keptOf (offers : List Offer) : List Offer :=
  ((judged table [] offers).filter (·.2)).map Prod.fst

/-- The offers that are not kept. -/
def refusedOf (offers : List Offer) : List Offer :=
  ((judged table [] offers).filter (!·.2)).map Prod.fst

end Offers

namespace Item

/-- A modifier of an item on a side. -/
def offer (item : Item) (side : Side) (t : Token) : Offer := ⟨t, side, item.root.terminal⟩

/-- The modifiers of an item: the leading ones from the root outward, then the trailing ones. -/
def outward (item : Item) : List Offer :=
  item.leading.reverse.map (item.offer .leading) ++ item.trailing.map (item.offer .trailing)

/-- The modifiers of an item in the order of the stream. -/
def inOrder (item : Item) : List Offer :=
  item.leading.map (item.offer .leading) ++ item.trailing.map (item.offer .trailing)

end Item

/-- Each offer is kept or reported, where `held` is what the fields of a result hold.  A marker is
only looked for, so it is no part of a result. -/
structure KeepsOrReports {α : Type} (table : FieldTable) (offers : List Offer)
    (held : α → ModifierField → List Holding) (r : Reported α) : Prop where
  /-- No offer is lost, and none is both kept and refused. -/
  once : (keptOf table offers ++ refusedOf table offers).Perm offers
  /-- There is one report for each offer that is not kept. -/
  reported : r.diagnostics = (refusedOf table offers).map (Offer.refusal table)
  grammar : ∀ d ∈ r.diagnostics, d.kind = .grammar
  /-- A field holds what is kept for it. -/
  kept : ∀ field ≠ .marker, held r.value field = offeredTo table (keptOf table offers) field
  /-- This is the first offer for it, the first of each kind, or all of them. -/
  selected : ∀ field ≠ .marker,
    held r.value field = field.capacity.select (offeredTo table offers field)

/-! ## Room in a field -/

namespace Capacity

variable (c : Capacity) (offered : List Holding) (h : Holding)

theorem select_append :
    c.select (offered ++ [h]) =
      if c.isFull offered h then c.select offered else c.select offered ++ [h] := by
  cases c with
  | one => cases offered <;> simp [select, isFull]
  | oneOfEach =>
    rw [select, List.eraseDups_append]
    by_cases mem : h ∈ offered <;> simp [isFull, List.removeAll, List.eraseDups_cons, mem, select]
  | all => rfl

/-- What is held tells whether there is room. -/
@[simp] theorem isFull_select : c.isFull (c.select offered) h = c.isFull offered h := by
  cases c with
  | one => cases offered <;> rfl
  | oneOfEach => simp [isFull, select]
  | all => rfl

end Capacity

section Offers

variable {table : FieldTable} {o : Offer} {field : ModifierField}

theorem offeredTo_append (before offers : List Offer) (field : ModifierField) :
    offeredTo table (before ++ offers) field =
      offeredTo table before field ++ offeredTo table offers field := by
  rw [offeredTo, List.filter_append, List.map_append]
  rfl

theorem offeredTo_singleton (o : Offer) (field : ModifierField) :
    offeredTo table [o] field =
      if o.field? table = some field then [field.holding o.token] else [] := by
  by_cases h : o.field? table = some field <;> simp [offeredTo, h]

theorem judged_append (before offers later : List Offer) :
    judged table before (offers ++ later) =
      judged table before offers ++ judged table (before ++ offers) later := by
  induction offers generalizing before with
  | nil => rw [List.append_nil]; rfl
  | cons o offers ih => rw [List.cons_append, judged, ih, ← List.append_cons]; rfl

/-- The offers are judged one by one. -/
theorem map_fst_judged (before offers : List Offer) :
    (judged table before offers).map Prod.fst = offers := by
  induction offers generalizing before with
  | nil => rfl
  | cons o offers ih => exact congrArg (o :: ·) (ih _)

theorem keptOf_append (offers : List Offer) (o : Offer) :
    keptOf table (offers ++ [o]) =
      keptOf table offers ++ if keeps table (offeredTo table offers) o then [o] else [] := by
  rw [keptOf, judged_append, List.filter_append, List.map_append]
  refine congrArg _ ?_
  show (List.filter _ [(o, keeps table (offeredTo table offers) o)]).map Prod.fst = _
  cases keeps table (offeredTo table offers) o <;> rfl

theorem refusedOf_append (offers : List Offer) (o : Offer) :
    refusedOf table (offers ++ [o]) =
      refusedOf table offers ++ if keeps table (offeredTo table offers) o then [] else [o] := by
  rw [refusedOf, judged_append, List.filter_append, List.map_append]
  refine congrArg _ ?_
  show (List.filter _ [(o, keeps table (offeredTo table offers) o)]).map Prod.fst = _
  cases keeps table (offeredTo table offers) o <;> rfl

theorem keptOf_append_refusedOf (offers : List Offer) :
    (keptOf table offers ++ refusedOf table offers).Perm offers := by
  rw [keptOf, refusedOf, ← List.map_append]
  refine ((List.filter_append_perm _ _).map Prod.fst).trans (.of_eq ?_)
  exact map_fst_judged [] offers

/-- Fields that hold what they select of their offers have the room that the offers leave. -/
theorem keeps_select (offers : List Offer) (o : Offer) :
    keeps table (fun field => field.capacity.select (offeredTo table offers field)) o =
      keeps table (offeredTo table offers) o := by
  unfold keeps
  simp only [Capacity.isFull_select]

/-- One more offer changes what its field holds if it is kept. -/
theorem select_offeredTo_append (offers : List Offer) (o : Offer) (field : ModifierField) :
    field.capacity.select (offeredTo table (offers ++ [o]) field) =
      field.capacity.select (offeredTo table offers field) ++
        if keeps table (offeredTo table offers) o then offeredTo table [o] field else [] := by
  rw [offeredTo_append, offeredTo_singleton]
  by_cases mine : o.field? table = some field
  · rw [if_pos mine, Capacity.select_append, keeps, mine, Option.any_some]
    cases field.capacity.isFull (offeredTo table offers field) (field.holding o.token) with
    | false => rfl
    | true => exact (List.append_nil _).symm
  · rw [if_neg mine, List.append_nil, ite_self, List.append_nil]

/-- What is kept for a field is what the field selects. -/
theorem offeredTo_keptOf (offers : List Offer) (field : ModifierField) :
    offeredTo table (keptOf table offers) field =
      field.capacity.select (offeredTo table offers field) := by
  induction offers using List.reverseRecOn with
  | nil => cases field <;> rfl
  | append_singleton offers o ih =>
    rw [keptOf_append, offeredTo_append, ih, select_offeredTo_append]
    split
    · rfl
    · rfl

theorem kind_refusal (o : Offer) : (o.refusal table).kind = .grammar := by
  unfold Offer.refusal
  split
  · rfl
  · rfl

end Offers

/-! ## Steps -/

section Steps

variable {σ τ β : Type} {table : FieldTable} {held : σ → ModifierField → List Holding}
  {o : Offer} {field : ModifierField}

/-- An offer to a state does what the room in its field allows: it is kept, or it is reported. -/
structure Settles (table : FieldTable) (held : σ → ModifierField → List Holding) (s : σ)
    (o : Offer) (r : Reported σ) : Prop where
  holds : ∀ field, held r.value field =
    held s field ++ if keeps table (held s) o then offeredTo table [o] field else []
  diagnostics : r.diagnostics = if keeps table (held s) o then [] else [o.refusal table]

theorem settles_unexpected (none : o.field? table = none) (s : σ) :
    Settles table held s o (do o.unexpected; return s) := by
  have refused : keeps table (held s) o = false := by rw [keeps, none, Option.any_none]
  refine ⟨fun field => ?_, ?_⟩
  · rw [refused]
    exact (List.append_nil _).symm
  · rw [refused, Offer.refusal, none]
    rfl

/-- The states `put y` differ in one field only, which shows `y`. -/
structure Writes (held : σ → ModifierField → List Holding) (field : ModifierField) (put : β → σ)
    (shown : β → List Holding) : Prop where
  mine : ∀ y, held (put y) field = shown y
  others : ∀ y z other, other ≠ field → held (put y) other = held (put z) other := by
    intro y z other ne
    cases other <;> first | rfl | contradiction

namespace Writes

variable {put : β → σ} {shown : β → List Holding} (w : Writes held field put shown)
  (mine : o.field? table = some field) {y : β}
include w mine

/-- What there is room for is put behind what the field has. -/
theorem settles_kept (room : field.capacity.isFull (shown y) (field.holding o.token) = false)
    {y' : β} (grown : shown y' = shown y ++ [field.holding o.token]) :
    Settles table held (put y) o (pure (put y')) := by
  have kept : keeps table (held (put y)) o = true := by
    rw [keeps, mine, Option.any_some, w.mine, room]
    rfl
  refine ⟨fun other => ?_, by rw [kept]; rfl⟩
  rw [kept, if_pos rfl, offeredTo_singleton, mine]
  by_cases same : field = other
  · rw [if_pos (congrArg some same), ← same, w.mine]
    exact (w.mine y').trans grown
  · rw [if_neg (same ∘ Option.some.inj), List.append_nil]
    exact w.others y' y other (Ne.symm same)

/-- What there is no room for is reported. -/
theorem settles_additional
    (full : field.capacity.isFull (shown y) (field.holding o.token) = true) {y' : β}
    (same : shown y' = shown y) :
    Settles table held (put y) o (do o.additional; return put y') := by
  have refused : keeps table (held (put y)) o = false := by
    rw [keeps, mine, Option.any_some, w.mine, full]
    rfl
  refine ⟨fun other => ?_, ?_⟩
  · rw [refused, if_neg Bool.false_ne_true, List.append_nil]
    by_cases eq : other = field
    · rw [eq, w.mine]
      exact (w.mine y').trans same
    · exact w.others y' y other eq
  · rw [refused, Offer.refusal, mine]
    rfl

end Writes

section Kinds

variable (mine : o.field? table = some field)
include mine

theorem Writes.fill {put : Option β → σ} {build : β → Holding}
    (w : Writes held field put fun y => y.toList.map build) (one : field.capacity = .one) {b : β}
    (same : build b = field.holding o.token) (y : Option β) :
    Settles table held (put y) o (put <$> o.fill y b) := by
  cases y with
  | none => exact w.settles_kept mine (by rw [one]; rfl) (congrArg ([·]) same)
  | some old => exact w.settles_additional mine (by rw [one]; rfl) rfl

theorem Writes.raise {put : Bool → σ} {h : Holding}
    (w : Writes held field put fun flag => if flag then [h] else [])
    (one : field.capacity = .one) (same : h = field.holding o.token) (flag : Bool) :
    Settles table held (put flag) o (put <$> o.raise flag) := by
  cases flag with
  | false => exact w.settles_kept mine (by rw [one]; rfl) (congrArg ([·]) same)
  | true => exact w.settles_additional mine (by rw [one]; rfl) rfl

theorem Writes.addEnd {put : List StartStop → σ} {build : StartStop → Holding}
    (w : Writes held field put fun ends => ends.map build) (each : field.capacity = .oneOfEach)
    (injective : Function.Injective build) {e : StartStop} (same : build e = field.holding o.token)
    (ends : List StartStop) : Settles table held (put ends) o (put <$> o.addEnd ends e) := by
  have room : field.capacity.isFull (ends.map build) (field.holding o.token) =
      ends.contains e := by
    rw [each, ← same, Bool.eq_iff_iff]
    simp [Capacity.isFull, injective.eq_iff]
  rw [Offer.addEnd]
  by_cases mem : ends.contains e = true
  · rw [if_pos mem]
    exact w.settles_additional mine (room.trans mem) rfl
  · rw [if_neg mem]
    have grown : (ends ++ [e]).map build = ends.map build ++ [field.holding o.token] := by
      rw [List.map_append, ← same]
      rfl
    exact w.settles_kept mine (room.trans (Bool.eq_false_iff.mpr mem)) grown

theorem Writes.add {put : β → σ} {shown : β → List Holding} (w : Writes held field put shown)
    (all : field.capacity = .all) {y y' : β}
    (grown : shown y' = shown y ++ [field.holding o.token]) :
    Settles table held (put y) o (pure (put y')) :=
  w.settles_kept mine (by rw [all]; rfl) grown

end Kinds

/-! ## Runs -/

/-- What a run has settled of the offers so far. -/
structure Settled (table : FieldTable) (held : σ → ModifierField → List Holding)
    (offers : List Offer) (r : Reported σ) : Prop where
  holds : ∀ field, held r.value field = field.capacity.select (offeredTo table offers field)
  diagnostics : r.diagnostics = (refusedOf table offers).map (Offer.refusal table)

namespace Settled

variable {before : List Offer} {x : Reported σ}

theorem step (h : Settled table held before x) {next : σ → Reported σ}
    (settles : Settles table held x.value o (next x.value)) :
    Settled table held (before ++ [o]) (x >>= next) := by
  have room : keeps table (held x.value) o = keeps table (offeredTo table before) o := by
    rw [← keeps_select before o]
    exact congrArg (keeps table · o) (funext h.holds)
  refine ⟨fun field => ?_, ?_⟩
  · rw [Reported.value_bind, settles.holds, room, h.holds, select_offeredTo_append]
  · rw [Reported.diagnostics_bind, settles.diagnostics, room, h.diagnostics, refusedOf_append,
      List.map_append]
    split
    · rfl
    · rfl

/-- A run settles all offers, if each step settles its own one behind those before it. -/
theorem foldlM (h : Settled table held before x) (offer : Token → Offer)
    {next : σ → Token → Reported σ} (tokens : List Token)
    (settles : ∀ earlier t later, tokens = earlier ++ t :: later → ∀ s,
      (∀ field, held s field =
        field.capacity.select (offeredTo table (before ++ earlier.map offer) field)) →
        Settles table held s (offer t) (next s t)) :
    Settled table held (before ++ tokens.map offer) (x >>= fun s => tokens.foldlM next s) := by
  induction tokens generalizing before x with
  | nil => simpa using h
  | cons t tokens ih =>
    have first : Settled table held (before ++ [offer t]) (x >>= fun s => next s t) :=
      h.step (settles [] t tokens rfl x.value (by simpa using h.holds))
    have rest := ih first fun earlier u later eq s holds =>
      settles (t :: earlier) u later (congrArg (t :: ·) eq) s (by simpa using holds)
    simpa using rest

/-- A run goes on from another state that shows the same. -/
theorem restart (h : Settled table held before x) {held' : τ → ModifierField → List Holding}
    {s : τ} (shows : ∀ field, held' s field = held x.value field) :
    Settled table held' before (x >>= fun _ => pure s) :=
  ⟨fun field => (shows field).trans (h.holds field), (List.append_nil _).trans h.diagnostics⟩

theorem toKeepsOrReports (h : Settled table held before x)
    {held' : σ → ModifierField → List Holding}
    (shows : ∀ field ≠ .marker, held' x.value field = held x.value field) :
    KeepsOrReports table before held' x where
  once := keptOf_append_refusedOf before
  reported := h.diagnostics
  grammar d mem := by
    rw [h.diagnostics] at mem
    obtain ⟨o, -, rfl⟩ := List.mem_map.mp mem
    exact kind_refusal o
  kept field ne := by rw [shows field ne, h.holds, offeredTo_keptOf]
  selected field ne := by rw [shows field ne, h.holds]

end Settled

end Steps

/-! ## What the fields of items hold -/

/-- What a flag holds. -/
def heldByFlag (t : Terminal) (flag : Bool) : List Holding :=
  if flag then [{ terminal := t }] else []

/-- What a field with a value holds. -/
def heldByValue {α : Type} (build : α → Terminal) (value : Option α) : List Holding :=
  value.toList.map fun a => { terminal := build a }

/-- What a field with a list of values holds. -/
def heldByList {α : Type} (build : α → Terminal) (values : List α) : List Holding :=
  values.map fun a => { terminal := build a }

/-- What the fields of a note hold. -/
def NoteFields.held (f : NoteFields) : ModifierField → List Holding
  | .unprinted => heldByFlag .unprinted f.unprinted
  | .grace => heldByFlag .grace f.grace
  | .graceSlash => heldByFlag .graceSlash f.graceSlash
  | .chord => heldByFlag .chord f.chord
  | .rest => f.rest.toList.map fun position => ⟨.rest, some position⟩
  | .pitch => f.pitch.toList.map fun (step, octave, position) => ⟨.pitch step octave, some position⟩
  | .voice => heldByValue .voice f.voice
  | .ratio => heldByValue .ratio f.ratio
  | .dots => List.replicate f.dots { terminal := .dot }
  | .accidental => heldByValue .accidental f.accidental
  | .stem => heldByValue .stem f.stem
  | .staff => heldByValue .staff f.staff
  | .beams => f.beams.map fun (mark, position) => ⟨.beam mark, some position⟩
  | .ties => heldByList .tied f.ties
  | .tuplets => heldByList .tuplet f.markings.tuplets
  | .slurs => heldByList .slur f.markings.slurs
  | .fermata => heldByFlag .fermata f.markings.fermata
  | .arpeggiate => heldByFlag .arpeggiate f.markings.arpeggiate
  | .staccato => heldByFlag .staccato f.markings.staccato
  | .accent => heldByFlag .accent f.markings.accent
  | .strongAccent => heldByFlag .strongAccent f.markings.strongAccent
  | .tenuto => heldByFlag .tenuto f.markings.tenuto
  | .trillMark => heldByFlag .trillMark f.markings.trillMark
  | .tremoloKind => heldByValue .tremoloKind f.tremoloKind
  | .tremoloMarks => heldByValue .tremoloMarks f.tremoloMarks
  | .marker | .beats | .beatType => []

/-- What the field of a backup or forward holds. -/
def heldBySkip (ratio : Option TupletRatio) : ModifierField → List Holding
  | .ratio => heldByValue .ratio ratio
  | _ => []

/-- What the fields of a time signature hold. -/
def heldByTime (fields : Option Nat × Option Nat) : ModifierField → List Holding
  | .beats => heldByValue .beats fields.1
  | .beatType => heldByValue .beatType fields.2
  | _ => []

/-- What the field of a clef holds. -/
def heldByClef (staff : Option Nat) : ModifierField → List Holding
  | .staff => heldByValue .staff staff
  | _ => []

/-- A key holds nothing. -/
def heldByKey (_ : Unit) (_ : ModifierField) : List Holding := []

/-! ## Notes -/

namespace NoteFields

theorem settles_addLeading (root : Terminal) (f : NoteFields) (t : Token) :
    Settles noteField? held f ⟨t, .leading, root⟩ (f.addLeading root t) := by
  obtain ⟨terminal, position⟩ := t
  cases terminal with
  | unprinted =>
    have w : Writes held .unprinted (fun y => { f with unprinted := y })
      (heldByFlag .unprinted) := { mine _ := rfl }
    exact w.raise rfl rfl rfl f.unprinted
  | grace =>
    have w : Writes held .grace (fun y => { f with grace := y })
      (heldByFlag .grace) := { mine _ := rfl }
    exact w.raise rfl rfl rfl f.grace
  | graceSlash =>
    have w : Writes held .graceSlash (fun y => { f with graceSlash := y })
      (heldByFlag .graceSlash) := { mine _ := rfl }
    exact w.raise rfl rfl rfl f.graceSlash
  | chord =>
    have w : Writes held .chord (fun y => { f with chord := y })
      (heldByFlag .chord) := { mine _ := rfl }
    exact w.raise rfl rfl rfl f.chord
  | rest =>
    have w : Writes held .rest (fun y => { f with rest := y })
      fun y => y.toList.map fun position => ⟨.rest, some position⟩ := { mine _ := rfl }
    exact w.fill rfl rfl rfl f.rest
  | pitch step octave =>
    have w : Writes held .pitch (fun y => { f with pitch := y })
      fun y => y.toList.map fun (step, octave, position) =>
        ⟨.pitch step octave, some position⟩ := { mine _ := rfl }
    exact w.fill rfl rfl rfl f.pitch
  | voice n =>
    have w : Writes held .voice (fun y => { f with voice := y })
      (heldByValue .voice) := { mine _ := rfl }
    exact w.fill rfl rfl rfl f.voice
  | _ => exact settles_unexpected rfl f

/-- A marking that has a field in the markings of a note. -/
theorem settles_addMarking (root : Terminal) (f : NoteFields) {t : Token} {x : Reported Markings}
    (marking : addMarking ⟨t, .trailing, root⟩ f.markings t.terminal = some x) :
    Settles noteField? held f ⟨t, .trailing, root⟩
      (x >>= fun markings => pure { f with markings }) := by
  obtain ⟨terminal, position⟩ := t
  cases terminal with
  | tuplet e =>
    have w : Writes held .tuplets (fun y => { f with markings.tuplets := y })
      (heldByList .tuplet) := { mine _ := rfl }
    cases marking
    rw [bind_assoc]
    exact w.addEnd rfl rfl (fun _ _ eq => by cases eq; rfl) rfl f.markings.tuplets
  | slur e =>
    have w : Writes held .slurs (fun y => { f with markings.slurs := y }) (heldByList .slur) :=
      { mine _ := rfl }
    cases marking
    exact w.add rfl rfl List.map_append
  | fermata =>
    have w : Writes held .fermata (fun y => { f with markings.fermata := y })
      (heldByFlag .fermata) := { mine _ := rfl }
    cases marking
    rw [bind_assoc]
    exact w.raise rfl rfl rfl f.markings.fermata
  | arpeggiate =>
    have w : Writes held .arpeggiate (fun y => { f with markings.arpeggiate := y })
      (heldByFlag .arpeggiate) := { mine _ := rfl }
    cases marking
    rw [bind_assoc]
    exact w.raise rfl rfl rfl f.markings.arpeggiate
  | staccato =>
    have w : Writes held .staccato (fun y => { f with markings.staccato := y })
      (heldByFlag .staccato) := { mine _ := rfl }
    cases marking
    rw [bind_assoc]
    exact w.raise rfl rfl rfl f.markings.staccato
  | accent =>
    have w : Writes held .accent (fun y => { f with markings.accent := y })
      (heldByFlag .accent) := { mine _ := rfl }
    cases marking
    rw [bind_assoc]
    exact w.raise rfl rfl rfl f.markings.accent
  | strongAccent =>
    have w : Writes held .strongAccent (fun y => { f with markings.strongAccent := y })
      (heldByFlag .strongAccent) := { mine _ := rfl }
    cases marking
    rw [bind_assoc]
    exact w.raise rfl rfl rfl f.markings.strongAccent
  | tenuto =>
    have w : Writes held .tenuto (fun y => { f with markings.tenuto := y })
      (heldByFlag .tenuto) := { mine _ := rfl }
    cases marking
    rw [bind_assoc]
    exact w.raise rfl rfl rfl f.markings.tenuto
  | trillMark =>
    have w : Writes held .trillMark (fun y => { f with markings.trillMark := y })
      (heldByFlag .trillMark) := { mine _ := rfl }
    cases marking
    rw [bind_assoc]
    exact w.raise rfl rfl rfl f.markings.trillMark
  | _ => cases marking

/-- A dot behind as many as are counted is not counted, so there has to be room for it. -/
theorem settles_addTrailing (root : Terminal) {f : NoteFields} {t : Token}
    (room : t.terminal = .dot → f.dots < countLimit) :
    Settles noteField? held f ⟨t, .trailing, root⟩ (f.addTrailing root t) := by
  obtain ⟨terminal, position⟩ := t
  cases terminal with
  | ratio r =>
    have w : Writes held .ratio (fun y => { f with ratio := y })
      (heldByValue .ratio) := { mine _ := rfl }
    exact w.fill rfl rfl rfl f.ratio
  | dot =>
    have w : Writes held .dots (fun y => { f with dots := y })
      (List.replicate · { terminal := .dot }) := { mine _ := rfl }
    have counted : min countLimit (f.dots + 1) = f.dots + 1 := Nat.min_eq_right (room rfl)
    have grown := List.replicate_succ' (n := f.dots) (a := ({ terminal := .dot } : Holding))
    rw [← counted] at grown
    exact w.add rfl rfl grown
  | accidental a =>
    have w : Writes held .accidental (fun y => { f with accidental := y })
      (heldByValue .accidental) := { mine _ := rfl }
    exact w.fill rfl rfl rfl f.accidental
  | stem s =>
    have w : Writes held .stem (fun y => { f with stem := y })
      (heldByValue .stem) := { mine _ := rfl }
    exact w.fill rfl rfl rfl f.stem
  | staff n =>
    have w : Writes held .staff (fun y => { f with staff := y })
      (heldByValue .staff) := { mine _ := rfl }
    exact w.fill rfl rfl rfl f.staff
  | beam mark =>
    have w : Writes held .beams (fun y => { f with beams := y })
      (List.map fun (mark, position) => ⟨.beam mark, some position⟩) := { mine _ := rfl }
    exact w.add rfl rfl List.map_append
  | tied e =>
    have w : Writes held .ties (fun y => { f with ties := y })
      (heldByList .tied) := { mine _ := rfl }
    exact w.addEnd rfl rfl (fun _ _ eq => by cases eq; rfl) rfl f.ties
  | tuplet _ | slur _ | fermata | arpeggiate | staccato | accent | strongAccent | tenuto
  | trillMark => exact settles_addMarking root f rfl
  | tremoloKind k =>
    have w : Writes held .tremoloKind (fun y => { f with tremoloKind := y })
      (heldByValue .tremoloKind) := { mine _ := rfl }
    exact w.fill rfl rfl rfl f.tremoloKind
  | tremoloMarks n =>
    have w : Writes held .tremoloMarks (fun y => { f with tremoloMarks := y })
      (heldByValue .tremoloMarks) := { mine _ := rfl }
    exact w.fill rfl rfl rfl f.tremoloMarks
  | _ => exact settles_unexpected rfl f

end NoteFields

/-! ## Other items -/

section Others

variable {σ : Type} {table : FieldTable} {held : σ → ModifierField → List Holding}

theorem settled_nil {s : σ} (empty : ∀ field, held s field = []) :
    Settled table held [] (pure s) := by
  refine ⟨fun field => (empty field).trans ?_, rfl⟩
  rw [offeredTo, List.filter_nil, List.map_nil]
  cases field.capacity <;> rfl

/-- Modifiers that an item has no field for are reported one by one. -/
theorem Settled.reportAll {before : List Offer} {x : Reported σ} (h : Settled table held before x)
    (root : Terminal) (side : Side) (none : ∀ t, table side t = none) (tokens : List Token) :
    Settled table held (before ++ tokens.map (⟨·, side, root⟩))
      (x >>= fun s => do Item.reportAll root side tokens; return s) := by
  induction tokens generalizing before x with
  | nil => simpa [Item.reportAll] using h
  | cons t tokens ih =>
    have first : Settled table held (before ++ [⟨t, side, root⟩])
        (x >>= fun s => do Offer.unexpected ⟨t, side, root⟩; return s) :=
      have fieldless : Offer.field? table ⟨t, side, root⟩ = .none := none t.terminal
      h.step (settles_unexpected fieldless x.value)
    simpa [Item.reportAll] using ih first

/-- The marker that a backup or forward has seen. -/
def heldByMarker (marker : Terminal) (seen : Bool) : ModifierField → List Holding
  | .marker => heldByFlag marker seen
  | _ => []

/-- What a backup or forward holds behind what stands in its field for the marker. -/
def heldBehindMarker (seen : List Holding) (ratio : Option TupletRatio) :
    ModifierField → List Holding
  | .marker => seen
  | field => heldBySkip ratio field

theorem settles_addMarker (root marker : Terminal) (seen : Bool) (t : Token) :
    Settles (skipField? marker) (heldByMarker marker) seen ⟨t, .leading, root⟩
      (Item.addMarker root marker seen t) := by
  rw [Item.addMarker]
  split
  · rename_i mine
    have w : Writes (heldByMarker marker) .marker id (heldByFlag marker) := { mine _ := rfl }
    have field : Offer.field? (skipField? marker) ⟨t, .leading, root⟩ = some .marker := if_pos mine
    have raised := w.raise field rfl (congrArg (Holding.mk · none) mine.symm) seen
    rwa [id_map] at raised
  · rename_i other
    have fieldless : Offer.field? (skipField? marker) ⟨t, .leading, root⟩ = none := if_neg other
    exact settles_unexpected fieldless seen

theorem settles_addSkipRatio (root marker : Terminal) (seen : List Holding)
    (ratio : Option TupletRatio) (t : Token) :
    Settles (skipField? marker) (heldBehindMarker seen) ratio ⟨t, .trailing, root⟩
      (Item.addSkipRatio root ratio t) := by
  have w : Writes (heldBehindMarker seen) .ratio id (heldByValue .ratio) := { mine _ := rfl }
  obtain ⟨terminal, position⟩ := t
  cases terminal with
  | ratio r =>
    have field : Offer.field? (skipField? marker) ⟨⟨.ratio r, position⟩, .trailing, root⟩ =
      some .ratio := rfl
    have filled := w.fill field rfl rfl ratio
    rwa [id_map] at filled
  | _ => exact settles_unexpected rfl ratio

theorem settles_addTimeField (root : Terminal) (fields : Option Nat × Option Nat) (t : Token) :
    Settles timeField? heldByTime fields ⟨t, .trailing, root⟩
      (Item.addTimeField root fields t) := by
  obtain ⟨terminal, position⟩ := t
  cases terminal with
  | beats n =>
    have w : Writes heldByTime .beats (fun y => (y, fields.2)) (heldByValue .beats) :=
      { mine _ := rfl }
    exact w.fill rfl rfl rfl fields.1
  | beatType n =>
    have w : Writes heldByTime .beatType (fun y => (fields.1, y)) (heldByValue .beatType) :=
      { mine _ := rfl }
    exact w.fill rfl rfl rfl fields.2
  | _ => exact settles_unexpected rfl fields

theorem settles_addClefStaff (root : Terminal) (staff : Option Nat) (t : Token) :
    Settles clefField? heldByClef staff ⟨t, .trailing, root⟩
      (Item.addClefStaff root staff t) := by
  have w : Writes heldByClef .staff id (heldByValue .staff) := { mine _ := rfl }
  obtain ⟨terminal, position⟩ := t
  cases terminal with
  | staff n =>
    have field : Offer.field? clefField? ⟨⟨.staff n, position⟩, .trailing, root⟩ = some .staff :=
      rfl
    have filled := w.fill field rfl rfl staff
    rwa [id_map] at filled
  | _ => exact settles_unexpected rfl staff

end Others

namespace Item

variable (item : Item)

/-! ## Items -/

/-- The dots among the offers of a note are its trailing dots. -/
theorem length_offeredTo_dots (leading trailing : List Token) :
    (offeredTo noteField?
      (leading.map (item.offer .leading) ++ trailing.map (item.offer .trailing)) .dots).length =
      trailing.countP (·.terminal = .dot) := by
  have front (t : Token) : (item.offer .leading t).field? noteField? ≠ some .dots := by
    show noteField? .leading t.terminal ≠ some .dots
    cases t.terminal <;> exact nofun
  have back (t : Token) :
      (item.offer .trailing t).field? noteField? = some .dots ↔ t.terminal = .dot := by
    show noteField? .trailing t.terminal = some .dots ↔ _
    cases t.terminal <;> simp [noteField?]
  rw [offeredTo_append, List.length_append, offeredTo, offeredTo, List.filter_map, List.filter_map,
    List.filter_eq_nil_iff.mpr fun t _ => by simpa using front t, List.countP_eq_length_filter]
  simp [Function.comp_def, back]

theorem keepsOrReports_noteFields
    (dots : item.trailing.countP (·.terminal = .dot) ≤ countLimit) :
    KeepsOrReports noteField? item.outward NoteFields.held item.noteFields := by
  have start : Settled noteField? NoteFields.held [] (pure {}) :=
    settled_nil fun field => by cases field <;> rfl
  have leading := start.foldlM (item.offer .leading) item.leading.reverse
    fun _ t _ _ f _ => f.settles_addLeading item.root.terminal t
  have all := leading.foldlM (item.offer .trailing) item.trailing
    fun earlier t later eq f holds => f.settles_addTrailing item.root.terminal fun dot => by
      have counted : f.dots = earlier.countP (·.terminal = .dot) := by
        have held := congrArg List.length (holds .dots)
        rw [List.nil_append] at held
        exact List.length_replicate.symm.trans
          (held.trans (item.length_offeredTo_dots item.leading.reverse earlier))
      rw [eq, List.countP_append, List.countP_cons_of_pos (by simpa using dot)] at dots
      omega
  exact all.toKeepsOrReports fun _ _ => rfl

theorem keepsOrReports_skipRatio (marker : Terminal) :
    KeepsOrReports (skipField? marker) item.outward heldBySkip (item.skipRatio marker) := by
  have start : Settled (skipField? marker) (heldByMarker marker) [] (pure false) :=
    settled_nil fun field => by cases field <;> rfl
  have leading := start.foldlM (item.offer .leading) item.leading.reverse
    fun _ t _ _ seen _ => settles_addMarker item.root.terminal marker seen t
  simp only [List.nil_append, pure_bind] at leading
  obtain ⟨markers, found⟩ : ∃ markers, markers = heldByMarker marker
    (item.leading.reverse.foldlM (addMarker item.root.terminal marker) false).value .marker :=
      ⟨_, rfl⟩
  -- no trailing modifier goes into the field for the marker, so that stays as it was found
  have marked : Settled (skipField? marker) (heldBehindMarker markers)
      (item.leading.reverse.map (item.offer .leading))
      (item.leading.reverse.foldlM (addMarker item.root.terminal marker) false >>= fun _ =>
        pure none) := leading.restart fun field => by
    cases field with
    | marker => exact found
    | _ => rfl
  have all := marked.foldlM (item.offer .trailing) item.trailing
    fun _ t _ _ ratio _ => settles_addSkipRatio item.root.terminal marker markers ratio t
  simp only [bind_assoc, pure_bind] at all
  refine all.toKeepsOrReports fun field ne => ?_
  cases field with
  | marker => exact absurd rfl ne
  | _ => rfl

/-- A reader without leading fields reports the leading modifiers before it reads the others. -/
theorem keepsOrReports_trailing {σ : Type} {table : FieldTable}
    {held : σ → ModifierField → List Holding} {step : σ → Token → Reported σ} {s : σ}
    (fresh : ∀ field, held s field = []) (none : ∀ t, table .leading t = none)
    (settles : ∀ s t, Settles table held s (item.offer .trailing t) (step s t)) :
    KeepsOrReports table item.inOrder held
      (reportAll item.root.terminal .leading item.leading >>= fun _ =>
        item.trailing.foldlM step s) := by
  have leading := (settled_nil fresh).reportAll item.root.terminal .leading none item.leading
  have all := leading.foldlM (item.offer .trailing) item.trailing fun _ t _ _ s _ => settles s t
  simp only [List.nil_append, bind_assoc, pure_bind] at all
  exact all.toKeepsOrReports fun _ _ => rfl

theorem keepsOrReports_timeFields :
    KeepsOrReports timeField? item.inOrder heldByTime item.timeFields :=
  item.keepsOrReports_trailing (fun field => by cases field <;> rfl) (fun _ => rfl)
    (settles_addTimeField item.root.terminal)

theorem keepsOrReports_clefStaff :
    KeepsOrReports clefField? item.inOrder heldByClef item.clefStaff :=
  item.keepsOrReports_trailing (fun field => by cases field <;> rfl) (fun _ => rfl)
    (settles_addClefStaff item.root.terminal)

theorem keepsOrReports_reportKeyModifiers :
    KeepsOrReports keyField? item.inOrder heldByKey item.reportKeyModifiers := by
  have start : Settled keyField? heldByKey [] (pure ()) := settled_nil fun _ => rfl
  have leading := start.reportAll item.root.terminal .leading (fun _ => rfl) item.leading
  have all := leading.reportAll item.root.terminal .trailing (fun _ => rfl) item.trailing
  simp only [List.nil_append, pure_bind, bind_pure_unit] at all
  exact all.toKeepsOrReports fun _ _ => rfl

end Item

/-- **Every modifier of an item is kept or reported**, whatever the root and the modifiers are. -/
theorem Item.keepsOrReports (item : Item)
    (dots : item.trailing.countP (·.terminal = .dot) ≤ countLimit) :
    KeepsOrReports noteField? item.outward NoteFields.held item.noteFields ∧
      (∀ marker,
        KeepsOrReports (skipField? marker) item.outward heldBySkip (item.skipRatio marker)) ∧
      KeepsOrReports timeField? item.inOrder heldByTime item.timeFields ∧
      KeepsOrReports clefField? item.inOrder heldByClef item.clefStaff ∧
      KeepsOrReports keyField? item.inOrder heldByKey item.reportKeyModifiers :=
  ⟨item.keepsOrReports_noteFields dots, item.keepsOrReports_skipRatio,
    item.keepsOrReports_timeFields, item.keepsOrReports_clefStaff,
    item.keepsOrReports_reportKeyModifiers⟩

/-- A note with two pitches, a voice behind its root, and repeated accidentals, ties and beams. -/
def Item.overfull : Item where
  root := ⟨.noteType .quarter, 5⟩
  leading := [⟨.backup, 1⟩, ⟨.pitch .c 4, 2⟩, ⟨.grace, 3⟩, ⟨.pitch .d 4, 4⟩]
  trailing :=
    [⟨.dot, 6⟩, ⟨.voice 1, 7⟩, ⟨.accidental .flat, 8⟩, ⟨.tied .stop, 9⟩, ⟨.dot, 10⟩,
     ⟨.accidental .sharp, 11⟩, ⟨.tied .start, 12⟩, ⟨.beam .start, 13⟩, ⟨.tied .stop, 14⟩,
     ⟨.beam .start, 15⟩]

theorem Item.keepsOrReports_overfull :
    Item.overfull.trailing.countP (·.terminal = .dot) ≤ countLimit ∧
      KeepsOrReports noteField? Item.overfull.outward NoteFields.held Item.overfull.noteFields ∧
      Item.overfull.noteFields.diagnostics.map (·.position) =
        [some 2, some 1, some 7, some 11, some 14] ∧
      Item.overfull.noteFields.value.held .pitch = [⟨.pitch .d 4, some 4⟩] := by
  have dots : Item.overfull.trailing.countP (·.terminal = .dot) ≤ countLimit := by decide
  exact ⟨dots, (Item.keepsOrReports _ dots).1, by decide, by decide⟩

end LinearScore
