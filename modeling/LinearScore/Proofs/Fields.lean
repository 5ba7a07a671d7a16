import LinearScore.Proofs.Position

/-!
# Fields written and read

The fields of a note can be written as the modifiers of an item: those with a value, in a fixed
order, on their sides of the root.  Reading the item gives the fields back.  Two fields lose
something on the way: of ties and of tuplets each end is kept once, and dots stop at the count
limit.

## Main definitions

* `NoteFields.leading`, `NoteFields.trailing`: the modifiers that write the fields of a note
* `Item.spelled`: the item of terminals whose positions do not matter
* `readEnds`: the ends of ties or tuplets that reading keeps

The main statement is `noteFields_spelled`.
-/

namespace LinearScore

variable {α β σ : Type}

/-- The item of a root with its modifiers where positions do not matter. -/
def Item.spelled (leading : List Terminal) (root : Terminal) (trailing : List Terminal) : Item where
  root := .unplaced root
  leading := leading.map .unplaced
  trailing := trailing.map .unplaced

/-! ## Modifiers of one field -/

/-- The modifier of a flag. -/
def flagged (t : Terminal) (flag : Bool) : List Terminal := if flag then [t] else []

/-- The modifier of a value. -/
def valued (build : α → Terminal) (value : Option α) : List Terminal := value.toList.map build

@[simp] theorem reverse_flagged (t : Terminal) (flag : Bool) :
    (flagged t flag).reverse = flagged t flag := by
  cases flag with
  | false => rfl
  | true => rfl

@[simp] theorem reverse_valued (build : α → Terminal) (value : Option α) :
    (valued build value).reverse = valued build value := by
  cases value with
  | none => rfl
  | some a => rfl

theorem eq_of_mem_flagged {t u : Terminal} {flag : Bool} (h : u ∈ flagged t flag) : u = t := by
  cases flag with
  | false => cases h
  | true => exact List.mem_singleton.mp h

theorem eq_of_mem_valued {build : α → Terminal} {value : Option α} {u : Terminal}
    (h : u ∈ valued build value) : ∃ a, u = build a := by
  obtain ⟨a, -, rfl⟩ := List.mem_map.mp h
  exact ⟨a, rfl⟩

theorem forall_mem_flagged {P : Terminal → Prop} {t : Terminal} (flag : Bool) (h : P t) :
    ∀ u ∈ flagged t flag, P u := fun _ hu => eq_of_mem_flagged hu ▸ h

theorem forall_mem_valued {P : Terminal → Prop} {build : α → Terminal} {value : Option α}
    (h : ∀ a ∈ value, P (build a)) : ∀ u ∈ valued build value, P u := by
  intro u hu
  obtain ⟨a, ha, rfl⟩ := List.mem_map.mp hu
  exact h a (Option.mem_toList.mp ha)

theorem forall_mem_none {P : α → Prop} : ∀ a ∈ (none : Option α), P a := by
  intro a ha
  cases ha

theorem forall_mem_or {P : α → Prop} {new old : Option α} (hn : ∀ a ∈ new, P a)
    (ho : ∀ a ∈ old, P a) : ∀ a ∈ new.or old, P a := by
  cases new with
  | none => exact ho
  | some b => exact hn

section Reading

variable {step : σ → Terminal → Reported σ} {s : σ} {rest : List Terminal}

/-- Reading past the modifier of a flag, where `put` puts the flag into the fields. -/
theorem foldlM_flagged (put : Bool → σ → σ) {t : Terminal} (clear : put false s = s)
    (h : step s t = pure (put true s)) (flag : Bool) :
    (flagged t flag ++ rest).foldlM step s = rest.foldlM step (put flag s) := by
  cases flag with
  | false => rw [clear]; rfl
  | true => rw [flagged, if_pos rfl, List.singleton_append, List.foldlM_cons, h, pure_bind]

/-- Reading past the modifier of a value, where `put` puts the value into the fields. -/
theorem foldlM_valued (put : Option α → σ → σ) {build : α → Terminal} (clear : put none s = s)
    (h : ∀ a, step s (build a) = pure (put (some a) s)) (value : Option α) :
    (valued build value ++ rest).foldlM step s = rest.foldlM step (put value s) := by
  cases value with
  | none => rw [clear]; rfl
  | some a =>
    rw [valued, Option.toList_some, List.map_singleton, List.singleton_append, List.foldlM_cons,
      h, pure_bind]

/-- Reading past modifiers that add up to a list behind the list `l`. -/
theorem foldlM_listed_from (put : List β → σ → σ) {build : α → Terminal} {g : α → β}
    (h : ∀ l a, step (put l s) (build a) = pure (put (l ++ [g a]) s)) (values : List α)
    (l : List β) :
    (values.map build ++ rest).foldlM step (put l s) =
      rest.foldlM step (put (l ++ values.map g) s) := by
  induction values generalizing l with
  | nil => simp
  | cons a values ih =>
    rw [List.map_cons, List.cons_append, List.foldlM_cons, h, pure_bind, ih]
    simp

/-- Reading past modifiers that add up to a list, where `put` puts the list into the fields. -/
theorem foldlM_listed (put : List β → σ → σ) {build : α → Terminal} (g : α → β)
    (clear : put [] s = s)
    (h : ∀ l a, step (put l s) (build a) = pure (put (l ++ [g a]) s)) (values : List α) :
    (values.map build ++ rest).foldlM step s = rest.foldlM step (put (values.map g) s) := by
  have read := @foldlM_listed_from _ _ _ _ _ rest put _ _ h values []
  rwa [clear, List.nil_append] at read

/-- Reading past dots when `n` of them have been read. -/
theorem foldlM_dots_from (put : Nat → σ → σ)
    (h : ∀ n, step (put n s) .dot = pure (put (min countLimit (n + 1)) s)) (dots n : Nat)
    (hn : n ≤ countLimit) :
    (List.replicate dots Terminal.dot ++ rest).foldlM step (put n s) =
      rest.foldlM step (put (min countLimit (n + dots)) s) := by
  induction dots generalizing n with
  | zero => rw [Nat.add_zero, Nat.min_eq_right hn, List.replicate_zero, List.nil_append]
  | succ dots ih =>
    rw [List.replicate_succ, List.cons_append, List.foldlM_cons, h, pure_bind,
      ih _ (Nat.min_le_left ..)]
    congr 2
    omega

/-- Reading past dots, where `put` puts their number into the fields. -/
theorem foldlM_dots (put : Nat → σ → σ) (clear : put 0 s = s)
    (h : ∀ n, step (put n s) .dot = pure (put (min countLimit (n + 1)) s)) (dots : Nat) :
    (List.replicate dots Terminal.dot ++ rest).foldlM step s =
      rest.foldlM step (put (min countLimit dots) s) := by
  have read := @foldlM_dots_from _ _ _ rest put h dots 0 (Nat.zero_le _)
  rwa [clear, Nat.zero_add] at read

end Reading

/-! ## Ends that are kept once -/

/-- The ends of a list of ties or tuplets that reading keeps, with a report for each other one. -/
def readEnds (build : StartStop → Terminal) (root : Terminal) (ends kept : List StartStop) :
    Reported (List StartStop) :=
  ends.foldlM (fun kept e => Offer.addEnd ⟨.unplaced (build e), .trailing, root⟩ kept e) kept

section Ends

variable {step : σ → Terminal → Reported σ} {s : σ} {rest : List Terminal}
variable (root : Terminal) (put : List StartStop → σ → σ) {build : StartStop → Terminal}

/-- Reading past ends when `kept` have been read. -/
theorem foldlM_ends_from
    (h : ∀ kept e, step (put kept s) (build e) =
      (put · s) <$> Offer.addEnd ⟨.unplaced (build e), .trailing, root⟩ kept e)
    (ends kept : List StartStop) :
    (ends.map build ++ rest).foldlM step (put kept s) =
      readEnds build root ends kept >>= fun kept => rest.foldlM step (put kept s) := by
  induction ends generalizing kept with
  | nil => rfl
  | cons e ends ih =>
    rw [List.map_cons, List.cons_append, List.foldlM_cons, h, readEnds, List.foldlM_cons,
      bind_map_left, bind_assoc]
    exact congrArg _ (funext ih)

/-- Reading past ends, where `put` puts those that are kept into the fields. -/
theorem foldlM_ends (clear : put [] s = s)
    (h : ∀ kept e, step (put kept s) (build e) =
      (put · s) <$> Offer.addEnd ⟨.unplaced (build e), .trailing, root⟩ kept e)
    (ends : List StartStop) :
    (ends.map build ++ rest).foldlM step s =
      readEnds build root ends [] >>= fun kept => rest.foldlM step (put kept s) := by
  have read := @foldlM_ends_from _ _ _ rest root put _ h ends []
  rwa [clear] at read

end Ends

theorem value_addEnd (o : Offer) (kept : List StartStop) (e : StartStop) :
    (o.addEnd kept e).value = if e ∈ kept then kept else kept ++ [e] := by
  unfold Offer.addEnd
  simp only [List.contains_iff_mem]
  split
  · rfl
  · rfl

/-- What is kept is the list without its repetitions. -/
theorem value_readEnds (build : StartStop → Terminal) (root : Terminal)
    (ends kept : List StartStop) :
    (readEnds build root ends kept).value = kept ++ (ends.filter (· ∉ kept)).eraseDups := by
  induction ends generalizing kept with
  | nil => simp [readEnds]
  | cons e ends ih =>
    rw [readEnds, List.foldlM_cons, Reported.value_bind, value_addEnd]
    by_cases h : e ∈ kept
    · rw [if_pos h]
      exact (ih kept).trans (by simp [h])
    · rw [if_neg h]
      refine (ih (kept ++ [e])).trans ?_
      rw [List.filter_cons_of_pos (by simpa using h), List.eraseDups_cons, List.append_assoc,
        List.singleton_append, List.filter_filter]
      congr 4
      funext x
      by_cases hx : x = e <;> simp [hx]

/-- Nothing is reported where no end is repeated. -/
theorem diagnostics_readEnds (build : StartStop → Terminal) (root : Terminal)
    {ends kept : List StartStop} (h : (kept ++ ends).Nodup) :
    (readEnds build root ends kept).diagnostics = [] := by
  induction ends generalizing kept with
  | nil => rfl
  | cons e ends ih =>
    have fresh : e ∉ kept := fun mem =>
      (List.nodup_append.mp h).2.2 e mem e List.mem_cons_self rfl
    have add : Offer.addEnd ⟨.unplaced (build e), .trailing, root⟩ kept e = pure (kept ++ [e]) := by
      simp [Offer.addEnd, fresh]
    rw [readEnds, List.foldlM_cons, add, pure_bind]
    exact ih (by simpa using h)

/-! ## All fields of a note -/

namespace NoteFields

/-- The modifiers in front of the root that write the fields of a note. -/
def leading (f : NoteFields) : List Terminal :=
  [flagged .unprinted f.unprinted,
   flagged .grace f.grace,
   flagged .graceSlash f.graceSlash,
   flagged .chord f.chord,
   valued (fun _ => .rest) f.rest,
   valued (fun p => .pitch p.1 p.2.1) f.pitch,
   valued .voice f.voice].flatten

/-- The modifiers behind the root that write the fields of a note. -/
def trailing (f : NoteFields) : List Terminal :=
  [valued .ratio f.ratio,
   List.replicate f.dots .dot,
   valued .accidental f.accidental,
   valued .stem f.stem,
   valued .staff f.staff,
   f.beams.map fun b => .beam b.1,
   f.ties.map .tied,
   f.markings.tuplets.map .tuplet,
   f.markings.slurs.map .slur,
   flagged .fermata f.markings.fermata,
   flagged .arpeggiate f.markings.arpeggiate,
   flagged .staccato f.markings.staccato,
   flagged .accent f.markings.accent,
   flagged .strongAccent f.markings.strongAccent,
   flagged .tenuto f.markings.tenuto,
   valued .tremoloKind f.tremoloKind,
   valued .tremoloMarks f.tremoloMarks,
   flagged .trillMark f.markings.trillMark].flatten

/-- Modifiers in front of the root of a note are leading ones, and none moves the cursor. -/
theorem mem_leading {f : NoteFields} {t : Terminal} (h : t ∈ f.leading) :
    t.role = .leading ∧ t ≠ .backup ∧ t ≠ .forward := by
  simp only [leading, List.flatten_cons, List.flatten_nil, List.mem_append, List.not_mem_nil,
    or_false] at h
  rcases h with h | h | h | h | h | h | h
  · obtain rfl := eq_of_mem_flagged h
    simp [Terminal.role]
  · obtain rfl := eq_of_mem_flagged h
    simp [Terminal.role]
  · obtain rfl := eq_of_mem_flagged h
    simp [Terminal.role]
  · obtain rfl := eq_of_mem_flagged h
    simp [Terminal.role]
  · obtain ⟨_, rfl⟩ := eq_of_mem_valued h
    simp [Terminal.role]
  · obtain ⟨_, rfl⟩ := eq_of_mem_valued h
    simp [Terminal.role]
  · obtain ⟨_, rfl⟩ := eq_of_mem_valued h
    simp [Terminal.role]

/-- Modifiers behind the root of a note are trailing ones. -/
theorem mem_trailing {f : NoteFields} {t : Terminal} (h : t ∈ f.trailing) :
    t.role = .trailing := by
  have value {β : Type} {build : β → Terminal} (v : Option β)
      (role : ∀ b, (build b).role = .trailing) (h : t ∈ valued build v) :
      t.role = .trailing := by
    obtain ⟨b, rfl⟩ := eq_of_mem_valued h
    exact role b
  have flag {u : Terminal} (b : Bool) (role : u.role = .trailing) (h : t ∈ flagged u b) :
      t.role = .trailing := by
    obtain rfl := eq_of_mem_flagged h
    exact role
  have list {β : Type} {build : β → Terminal} (l : List β)
      (role : ∀ b, (build b).role = .trailing) (h : t ∈ l.map build) :
      t.role = .trailing := by
    obtain ⟨b, -, rfl⟩ := List.mem_map.mp h
    exact role b
  simp only [trailing, List.flatten_cons, List.flatten_nil, List.mem_append, List.not_mem_nil,
    or_false] at h
  rcases h with h | h | h | h | h | h | h | h | h | h | h | h | h | h | h | h | h | h
  · exact value _ (fun _ => rfl) h
  · obtain rfl := List.eq_of_mem_replicate h
    rfl
  · exact value _ (fun _ => rfl) h
  · exact value _ (fun _ => rfl) h
  · exact value _ (fun _ => rfl) h
  · exact list _ (fun _ => rfl) h
  · exact list _ (fun _ => rfl) h
  · exact list _ (fun _ => rfl) h
  · exact list _ (fun _ => rfl) h
  · exact flag _ rfl h
  · exact flag _ rfl h
  · exact flag _ rfl h
  · exact flag _ rfl h
  · exact flag _ rfl h
  · exact flag _ rfl h
  · exact value _ (fun _ => rfl) h
  · exact value _ (fun _ => rfl) h
  · exact flag _ rfl h

/-- The fields that have their modifiers in front of the root. -/
def leadingPart (f : NoteFields) : NoteFields where
  unprinted := f.unprinted
  grace := f.grace
  graceSlash := f.graceSlash
  chord := f.chord
  rest := f.rest.map fun _ => 0
  pitch := f.pitch.map fun p => (p.1, p.2.1, 0)
  voice := f.voice

/-- Leading modifiers are read from the root outward. -/
theorem foldlM_leading (root : Terminal) (f : NoteFields) :
    (f.leading.map Token.unplaced).reverse.foldlM (addLeading root) {} = pure f.leadingPart := by
  rw [← List.map_reverse, List.foldlM_map, leading, List.reverse_flatten]
  simp only [List.map_cons, List.map_nil, reverse_flagged, reverse_valued, List.reverse_cons,
    List.reverse_nil, List.nil_append, List.cons_append, List.flatten_cons, List.flatten_nil]
  refine (foldlM_valued (fun x (g : NoteFields) => { g with voice := x })
    rfl (fun _ => rfl) _).trans ?_
  refine (foldlM_valued
    (fun x (g : NoteFields) => { g with pitch := x.map fun p => (p.1, p.2.1, 0) })
    rfl (fun _ => rfl) _).trans ?_
  refine (foldlM_valued (fun x (g : NoteFields) => { g with rest := x.map fun _ => 0 })
    rfl (fun _ => rfl) _).trans ?_
  refine (foldlM_flagged (fun x (g : NoteFields) => { g with chord := x }) rfl rfl _).trans ?_
  refine (foldlM_flagged (fun x (g : NoteFields) => { g with graceSlash := x })
    rfl rfl _).trans ?_
  refine (foldlM_flagged (fun x (g : NoteFields) => { g with grace := x }) rfl rfl _).trans ?_
  exact foldlM_flagged (fun x (g : NoteFields) => { g with unprinted := x }) rfl rfl _

/-- The fields that reading the modifiers behind the root adds to those in front of it, where
`ties` and `tuplets` are the ends that are kept. -/
def withTrailing (g f : NoteFields) (ties tuplets : List StartStop) : NoteFields :=
  { g with
    ratio := f.ratio
    dots := min countLimit f.dots
    accidental := f.accidental
    stem := f.stem
    staff := f.staff
    beams := f.beams.map fun b => (b.1, 0)
    ties
    markings := { f.markings with tuplets, tremolo := none }
    tremoloKind := f.tremoloKind
    tremoloMarks := f.tremoloMarks }

/-- Trailing modifiers are read in the order of the stream. -/
theorem foldlM_trailing (root : Terminal) (f g : NoteFields) :
    (f.trailing.map Token.unplaced).foldlM (addTrailing root) g.leadingPart = (do
      let ties ← readEnds .tied root f.ties []
      let tuplets ← readEnds .tuplet root f.markings.tuplets []
      return g.leadingPart.withTrailing f ties tuplets) := by
  rw [List.foldlM_map, trailing]
  simp only [List.flatten_cons, List.flatten_nil, leadingPart]
  refine (foldlM_valued (fun x (g : NoteFields) => { g with ratio := x })
    rfl (fun _ => rfl) _).trans ?_
  dsimp only
  refine (foldlM_dots (fun x (g : NoteFields) => { g with dots := x })
    rfl (fun _ => rfl) _).trans ?_
  dsimp only
  refine (foldlM_valued (fun x (g : NoteFields) => { g with accidental := x })
    rfl (fun _ => rfl) _).trans ?_
  dsimp only
  refine (foldlM_valued (fun x (g : NoteFields) => { g with stem := x })
    rfl (fun _ => rfl) _).trans ?_
  dsimp only
  refine (foldlM_valued (fun x (g : NoteFields) => { g with staff := x })
    rfl (fun _ => rfl) _).trans ?_
  dsimp only
  refine (foldlM_listed (fun x (g : NoteFields) => { g with beams := x }) (fun b => (b.1, 0))
    rfl (fun _ _ => rfl) _).trans ?_
  dsimp only
  refine (foldlM_ends root (fun x (g : NoteFields) => { g with ties := x }) rfl
    (fun _ _ => by simp [addTrailing, Token.unplaced]) _).trans ?_
  refine congrArg _ (funext fun ties => ?_)
  dsimp only
  refine (foldlM_ends root
    (fun x (g : NoteFields) => { g with markings := { g.markings with tuplets := x } }) rfl
    (fun _ _ => by simp [addTrailing, addMarking, Token.unplaced]) _).trans ?_
  refine congrArg _ (funext fun tuplets => ?_)
  dsimp only
  refine (foldlM_listed
    (fun x (g : NoteFields) => { g with markings := { g.markings with slurs := x } }) id rfl
    (fun _ _ => rfl) _).trans ?_
  dsimp only
  refine (foldlM_flagged
    (fun x (g : NoteFields) => { g with markings := { g.markings with fermata := x } })
    rfl rfl _).trans ?_
  dsimp only
  refine (foldlM_flagged
    (fun x (g : NoteFields) => { g with markings := { g.markings with arpeggiate := x } })
    rfl rfl _).trans ?_
  dsimp only
  refine (foldlM_flagged
    (fun x (g : NoteFields) => { g with markings := { g.markings with staccato := x } })
    rfl rfl _).trans ?_
  dsimp only
  refine (foldlM_flagged
    (fun x (g : NoteFields) => { g with markings := { g.markings with accent := x } })
    rfl rfl _).trans ?_
  dsimp only
  refine (foldlM_flagged
    (fun x (g : NoteFields) => { g with markings := { g.markings with strongAccent := x } })
    rfl rfl _).trans ?_
  dsimp only
  refine (foldlM_flagged
    (fun x (g : NoteFields) => { g with markings := { g.markings with tenuto := x } })
    rfl rfl _).trans ?_
  dsimp only
  refine (foldlM_valued (fun x (g : NoteFields) => { g with tremoloKind := x })
    rfl (fun _ => rfl) _).trans ?_
  dsimp only
  refine (foldlM_valued (fun x (g : NoteFields) => { g with tremoloMarks := x })
    rfl (fun _ => rfl) _).trans ?_
  dsimp only
  refine (foldlM_flagged
    (fun x (g : NoteFields) => { g with markings := { g.markings with trillMark := x } })
    rfl rfl _).trans ?_
  rw [List.map_id]
  rfl

end NoteFields

/-- **Reading what has been written gives the fields back**, each end of ties and of tuplets
once. -/
theorem noteFields_spelled (root : Terminal) (f : NoteFields) :
    (Item.spelled f.leading root f.trailing).noteFields = (do
      let ties ← readEnds .tied root f.ties []
      let tuplets ← readEnds .tuplet root f.markings.tuplets []
      return f.leadingPart.withTrailing f ties tuplets) := by
  unfold Item.noteFields
  dsimp only [Item.spelled, Token.unplaced_terminal]
  rw [NoteFields.foldlM_leading, pure_bind, NoteFields.foldlM_trailing]

end LinearScore
