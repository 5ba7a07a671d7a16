import Mathlib.Data.List.DropRight
import Mathlib.Data.List.Forall2
import LinearScore.Proofs.Grouping
import LinearScore.Proofs.Pieces

/-!
# Grouping loses and doubles nothing

Whatever the order of the tokens of a stream, the grouping puts each of them but the `measure`
tokens in exactly one place: in front of the first measure, in one item, or among the modifiers
that no root takes, which are reported one by one.

## Main definitions

* `Item.ofStream`: the items of each measure of a stream
* `frontOf`, `clustersOf`: a stream cut at its `measure` tokens
* `danglingIn`: the modifiers of a measure that no root takes
* `Item.Grouped`: the tokens of a measure beside the items made of them
* `Item.GroupsOnce`: what the grouping of a stream promises

The loop keeps an item and leading modifiers open.  So each statement about it speaks of a run that
starts with some of both, and the measure is the run that starts with none.  The main statement is
`Item.groupsOnce_ofStream`.
-/

namespace LinearScore

/-- The token stands in front of another one. -/
def Token.Before (a b : Token) : Prop := a.position < b.position

instance (a b : Token) : Decidable (a.Before b) := inferInstanceAs (Decidable (_ < _))

/-- The tokens in front of the first measure. -/
def frontOf (tokens : List Token) : List Token := tokens.takeWhile (·.terminal ≠ .measure)

/-- The tokens of each measure. -/
def clustersOf (tokens : List Token) : List (List Token) :=
  (tokens.splitOnP (·.terminal = .measure)).tail

/-- The report of the tokens in front of the first measure, if there are any. -/
def frontReport : List Token → List Diagnostic
  | [] => []
  | first :: others => [.atToken first.position (.beforeFirstMeasure (others.length + 1))]

/-- The trailing modifiers in front of the first root. -/
def rootlessTrailing (tokens : List Token) : List Token :=
  (tokens.takeWhile (·.terminal.role ≠ .root)).filter (·.terminal.role = .trailing)

/-- The leading modifiers behind the last root. -/
def rootlessLeading (tokens : List Token) : List Token :=
  (tokens.rtakeWhile (·.terminal.role ≠ .root)).filter (·.terminal.role = .leading)

/-- The modifiers of a measure that no root takes. -/
def danglingIn (tokens : List Token) : List Token :=
  rootlessTrailing tokens ++ rootlessLeading tokens

/-- The report of a modifier that no root takes. -/
def Token.danglingReport (t : Token) : Diagnostic :=
  .atToken t.position
    (if t.terminal.role = .leading then .danglingLeading t.terminal
    else .danglingTrailing t.terminal)

namespace Item

/-- The items of each measure of a stream. -/
def ofStream (tokens : List Token) : Reported (List (List Item)) := do
  let clusters ← measureClusters tokens
  clusters.mapM ofTokens

/-- An item behind another one: its root stands behind the other root, with its leading modifiers
between them, and so do the trailing modifiers of the other one. -/
structure Follows (item next : Item) : Prop where
  root : item.root.Before next.root
  leading : ∀ t ∈ next.leading, item.root.Before t
  trailing : ∀ t ∈ item.trailing, t.Before next.root

/-- The tokens of a measure beside the items made of them. -/
structure Grouped (tokens : List Token) (items : List Item) : Prop where
  /-- Each token is in exactly one item, or it dangles. -/
  once : (items.flatMap Item.tokens ++ danglingIn tokens).Perm tokens
  /-- Roots and modifiers stand on the sides they belong to. -/
  wellformed : ∀ item ∈ items, item.Wellformed
  /-- The tokens of an item are in the order of the stream. -/
  ordered : ∀ item ∈ items, item.tokens.Pairwise Token.Before

/-- The grouping of a stream puts each token that opens no measure in one place. -/
structure GroupsOnce (tokens : List Token) : Prop where
  /-- What is left out is reported, token by token but for the front. -/
  reported : (ofStream tokens).diagnostics =
    frontReport (frontOf tokens) ++
      ((clustersOf tokens).flatMap danglingIn).map Token.danglingReport
  /-- Each token is in front, in one item, or it dangles. -/
  once : (frontOf tokens ++ ((ofStream tokens).value.flatten.flatMap Item.tokens ++
    (clustersOf tokens).flatMap danglingIn)).Perm (tokens.filter (·.terminal ≠ .measure))
  /-- So it is in each measure. -/
  measures : List.Forall₂ Grouped (clustersOf tokens) (ofStream tokens).value
  /-- The items come in the order of their roots, with their modifiers between the roots. -/
  follow : (ofStream tokens).value.flatten.Pairwise Follows

end Item

/-! ## Modifiers without a root -/

section Rootless

variable {t : Token} {tokens : List Token}

theorem role_of_ne_measure (h : t.terminal ≠ .measure) : t.terminal.role ≠ .delimiter := by
  cases hm : t.terminal with
  | measure => exact absurd hm h
  | _ => exact nofun

@[simp] theorem rootlessTrailing_nil : rootlessTrailing [] = [] := rfl

theorem rootlessTrailing_leading (h : t.terminal.role = .leading) :
    rootlessTrailing (t :: tokens) = rootlessTrailing tokens := by
  simp [rootlessTrailing, h]

theorem rootlessTrailing_trailing (h : t.terminal.role = .trailing) :
    rootlessTrailing (t :: tokens) = t :: rootlessTrailing tokens := by
  simp [rootlessTrailing, h]

theorem rootlessTrailing_root (h : t.terminal.role = .root) :
    rootlessTrailing (t :: tokens) = [] := by
  simp [rootlessTrailing, h]

theorem rootlessLeading_of_leading (h : ∀ t ∈ tokens, t.terminal.role = .leading) :
    rootlessLeading tokens = tokens := by
  have all : tokens.rtakeWhile (·.terminal.role ≠ .root) = tokens :=
    List.rtakeWhile_eq_self_iff.mpr fun t ht => by simp [h t ht]
  rw [rootlessLeading, all, List.filter_eq_self]
  exact fun t ht => decide_eq_true (h t ht)

/-- What stands behind a root decides alone. -/
theorem rootlessLeading_root (h : t.terminal.role = .root) (leading : List Token) :
    rootlessLeading (leading ++ t :: tokens) = rootlessLeading tokens := by
  rw [rootlessLeading, rootlessLeading, List.append_cons, rtakeWhile_append,
    List.rtakeWhile_concat_neg _ _ _ (by simp [h])]
  split
  · rename_i modifiers
    rw [List.rtakeWhile_eq_self_iff.mpr (List.all_eq_true.mp modifiers), List.nil_append]
  · rfl

theorem rootlessLeading_trailing (h : t.terminal.role = .trailing) (leading : List Token) :
    rootlessLeading (leading ++ t :: tokens) = rootlessLeading (leading ++ tokens) := by
  rw [rootlessLeading, rootlessLeading, List.append_cons, rtakeWhile_append,
    List.rtakeWhile_concat_pos _ _ _ (by simp [h]), rtakeWhile_append]
  split
  · simp [h]
  · rfl

end Rootless

namespace Item

/-! ## The state of the loop -/

/-- The state of the loop in front of tokens: an item that is open, if there is one, and leading
modifiers that wait for the next root. -/
structure Waiting (current : Option Item) (leading tokens : List Token) : Prop where
  wellformed : ∀ item ∈ current, item.Wellformed
  leads : ∀ t ∈ leading, t.terminal.role = .leading
  noMeasure : ∀ t ∈ tokens, t.terminal ≠ .measure

/-- The state of the loop, its tokens in the order of the stream. -/
structure WaitingInOrder (current : Option Item) (leading tokens : List Token) : Prop
    extends Waiting current leading tokens where
  current_tokens : ∀ item ∈ current, (item.tokens ++ tokens).Pairwise Token.Before
  leading_tokens : (leading ++ tokens).Pairwise Token.Before
  root_leading : ∀ item ∈ current, ∀ t ∈ leading, item.root.Before t

section Steps

variable {current : Option Item} {item : Item} {t : Token} {leading tokens : List Token}

namespace Waiting

theorem step_leading (h : Waiting current leading (t :: tokens))
    (role : t.terminal.role = .leading) : Waiting current (leading ++ [t]) tokens where
  wellformed := h.wellformed
  leads := List.forall_mem_append.mpr ⟨h.leads, List.forall_mem_singleton.mpr role⟩
  noMeasure := (List.forall_mem_cons.mp h.noMeasure).2

theorem step_trailing (h : Waiting (some item) leading (t :: tokens))
    (role : t.terminal.role = .trailing) :
    Waiting (some { item with trailing := item.trailing ++ [t] }) leading tokens where
  wellformed := by
    intro _ eq
    cases eq
    have whole := h.wellformed item rfl
    exact ⟨whole.root, whole.leading,
      List.forall_mem_append.mpr ⟨whole.trailing, List.forall_mem_singleton.mpr role⟩⟩
  leads := h.leads
  noMeasure := (List.forall_mem_cons.mp h.noMeasure).2

theorem step_dangling (h : Waiting none leading (t :: tokens)) : Waiting none leading tokens where
  wellformed := nofun
  leads := h.leads
  noMeasure := (List.forall_mem_cons.mp h.noMeasure).2

theorem step_root (h : Waiting current leading (t :: tokens)) (role : t.terminal.role = .root) :
    Waiting (some ⟨t, leading, []⟩) [] tokens where
  wellformed := by
    intro _ eq
    cases eq
    exact ⟨role, h.leads, List.forall_mem_nil _⟩
  leads := List.forall_mem_nil _
  noMeasure := (List.forall_mem_cons.mp h.noMeasure).2

/-- No token opens another measure. -/
theorem role_ne_delimiter (h : Waiting current leading (t :: tokens)) :
    t.terminal.role ≠ .delimiter :=
  role_of_ne_measure (h.noMeasure t List.mem_cons_self)

end Waiting

namespace WaitingInOrder

theorem behind (h : WaitingInOrder current leading (t :: tokens)) :
    tokens.Pairwise Token.Before :=
  h.leading_tokens.sublist ((List.sublist_cons_self t tokens).trans (List.sublist_append_right ..))

theorem step_leading (h : WaitingInOrder current leading (t :: tokens))
    (role : t.terminal.role = .leading) : WaitingInOrder current (leading ++ [t]) tokens where
  toWaiting := h.toWaiting.step_leading role
  current_tokens item eq :=
    (h.current_tokens item eq).sublist ((List.sublist_cons_self t tokens).append_left _)
  leading_tokens := by
    rw [← List.append_cons]
    exact h.leading_tokens
  root_leading := by
    intro item eq
    have first := (List.pairwise_append.mp (h.current_tokens item eq)).2.2 item.root
      (by simp [Item.tokens]) t List.mem_cons_self
    exact List.forall_mem_append.mpr
      ⟨h.root_leading item eq, List.forall_mem_singleton.mpr first⟩

theorem step_trailing (h : WaitingInOrder (some item) leading (t :: tokens))
    (role : t.terminal.role = .trailing) :
    WaitingInOrder (some { item with trailing := item.trailing ++ [t] }) leading tokens where
  toWaiting := h.toWaiting.step_trailing role
  current_tokens := by
    intro _ eq
    cases eq
    simpa [Item.tokens] using h.current_tokens item rfl
  leading_tokens := h.leading_tokens.sublist ((List.sublist_cons_self t tokens).append_left _)
  root_leading := by
    intro _ eq
    cases eq
    exact h.root_leading item rfl

theorem step_dangling (h : WaitingInOrder none leading (t :: tokens)) :
    WaitingInOrder none leading tokens where
  toWaiting := h.toWaiting.step_dangling
  current_tokens := nofun
  leading_tokens := h.leading_tokens.sublist ((List.sublist_cons_self t tokens).append_left _)
  root_leading := nofun

theorem step_root (h : WaitingInOrder current leading (t :: tokens))
    (role : t.terminal.role = .root) : WaitingInOrder (some ⟨t, leading, []⟩) [] tokens where
  toWaiting := h.toWaiting.step_root role
  current_tokens := by
    intro _ eq
    cases eq
    simpa [Item.tokens] using h.leading_tokens
  leading_tokens := h.behind
  root_leading _ _ := List.forall_mem_nil _

end WaitingInOrder

end Steps

/-! ## What a run makes of its tokens -/

section Run

variable {current : Option Item} {leading tokens : List Token}

/-- What dangles behind an open item, if there is one, and leading modifiers. -/
def danglingFrom (current : Option Item) (leading tokens : List Token) : List Token :=
  (if current.isSome then [] else rootlessTrailing tokens) ++ rootlessLeading (leading ++ tokens)

theorem diagnostics_reportDangling {leading : List Token}
    (h : ∀ t ∈ leading, t.terminal.role = .leading) :
    (reportDangling leading).diagnostics = leading.map Token.danglingReport := by
  induction leading with
  | nil => rfl
  | cons t leading ih =>
    obtain ⟨first, others⟩ := List.forall_mem_cons.mp h
    rw [reportDangling, Reported.diagnostics_bind, ih others, List.map_cons, Token.danglingReport,
      if_pos first]
    rfl

/-- What dangles is reported, one report for each. -/
theorem diagnostics_ofTokensFrom (h : Waiting current leading tokens) :
    (ofTokensFrom current leading tokens).diagnostics =
      (danglingFrom current leading tokens).map Token.danglingReport := by
  induction tokens generalizing current leading with
  | nil =>
    rw [danglingFrom, List.append_nil, rootlessLeading_of_leading h.leads]
    cases current <;> simp [ofTokensFrom, diagnostics_reportDangling h.leads]
  | cons t tokens ih =>
    cases role : t.terminal.role with
    | delimiter => exact absurd role h.role_ne_delimiter
    | leading =>
      rw [ofTokensFrom_leading _ _ _ role, ih (h.step_leading role), danglingFrom, danglingFrom,
        rootlessTrailing_leading role, ← List.append_cons]
    | trailing =>
      cases current with
      | some item =>
        rw [ofTokensFrom_trailing _ _ role, ih (h.step_trailing role), danglingFrom, danglingFrom,
          rootlessLeading_trailing role]
        rfl
      | none =>
        rw [ofTokensFrom_trailing_none _ _ role, Reported.diagnostics_bind, ih h.step_dangling,
          danglingFrom, danglingFrom, rootlessLeading_trailing role, rootlessTrailing_trailing role]
        simp [report, Token.danglingReport, role]
    | root =>
      rw [ofTokensFrom_root _ _ _ role, Reported.diagnostics_map, ih (h.step_root role),
        danglingFrom, danglingFrom, rootlessLeading_root role, rootlessTrailing_root role]
      simp

/-- The items and what dangles hold each token once. -/
theorem perm_ofTokensFrom (h : Waiting current leading tokens) :
    ((ofTokensFrom current leading tokens).value.flatMap Item.tokens ++
      danglingFrom current leading tokens).Perm
      (current.toList.flatMap Item.tokens ++ (leading ++ tokens)) := by
  induction tokens generalizing current leading with
  | nil =>
    rw [danglingFrom, List.append_nil, rootlessLeading_of_leading h.leads]
    cases current <;> exact .refl _
  | cons t tokens ih =>
    cases role : t.terminal.role with
    | delimiter => exact absurd role h.role_ne_delimiter
    | leading =>
      have rest := ih (h.step_leading role)
      rw [danglingFrom, ← List.append_cons] at rest
      rw [ofTokensFrom_leading _ _ _ role, danglingFrom, rootlessTrailing_leading role]
      exact rest
    | trailing =>
      cases current with
      | some item =>
        -- the token goes from its place among the others to the end of the open item
        have moved : (item.tokens ++ [t] ++ (leading ++ tokens)).Perm
            (item.tokens ++ (leading ++ t :: tokens)) := by
          rw [List.append_assoc, List.singleton_append]
          exact List.perm_middle.symm.append_left _
        rw [ofTokensFrom_trailing _ _ role, danglingFrom, rootlessLeading_trailing role]
        refine (ih (h.step_trailing role)).trans (.trans (.of_eq ?_) (moved.trans (.of_eq ?_)))
        · simp [Item.tokens]
        · simp
      | none =>
        have rest := (ih h.step_dangling).cons t
        rw [ofTokensFrom_trailing_none _ _ role, danglingFrom, rootlessLeading_trailing role,
          rootlessTrailing_trailing role]
        simp only [Option.toList_none, List.flatMap_nil, List.nil_append] at rest ⊢
        exact List.perm_middle.trans (rest.trans List.perm_middle.symm)
    | root =>
      have rest := ih (h.step_root role)
      have mine : (if current.isSome then [] else rootlessTrailing (t :: tokens)) = [] := by
        rw [rootlessTrailing_root role, ite_self]
      rw [ofTokensFrom_root _ _ _ role, danglingFrom, rootlessLeading_root role, mine]
      rw [danglingFrom] at rest
      simp only [Reported.value_map, List.flatMap_append, List.append_assoc]
      refine List.Perm.append_left _ (rest.trans (.of_eq ?_))
      simp [Item.tokens]

/-- What each step of the loop keeps of its state. -/
structure KeptBySteps (inv : Option Item → List Token → List Token → Prop) : Prop where
  noDelimiter {current t leading tokens} : inv current leading (t :: tokens) →
    t.terminal.role ≠ .delimiter
  leading {current t leading tokens} : inv current leading (t :: tokens) →
    t.terminal.role = .leading → inv current (leading ++ [t]) tokens
  trailing {item t leading tokens} : inv (some item) leading (t :: tokens) →
    t.terminal.role = .trailing →
      inv (some { item with trailing := item.trailing ++ [t] }) leading tokens
  dangling {t leading tokens} : inv none leading (t :: tokens) → inv none leading tokens
  root {current t leading tokens} : inv current leading (t :: tokens) →
    t.terminal.role = .root → inv (some ⟨t, leading, []⟩) [] tokens

theorem keptBySteps_waiting : KeptBySteps Waiting where
  noDelimiter := Waiting.role_ne_delimiter
  leading := Waiting.step_leading
  trailing := Waiting.step_trailing
  dangling := Waiting.step_dangling
  root := Waiting.step_root

theorem keptBySteps_waitingInOrder : KeptBySteps WaitingInOrder where
  noDelimiter h := h.role_ne_delimiter
  leading := WaitingInOrder.step_leading
  trailing := WaitingInOrder.step_trailing
  dangling := WaitingInOrder.step_dangling
  root := WaitingInOrder.step_root

/-- What holds of the items of a run: they grow only where a root closes the open item, and at the
end. -/
theorem items_ofTokensFrom {inv : Option Item → List Token → List Token → Prop}
    (holds : List Item → Prop) (kept : KeptBySteps inv)
    (last : ∀ {current leading}, inv current leading [] → holds current.toList)
    (closed : ∀ {current t leading tokens}, inv current leading (t :: tokens) →
      t.terminal.role = .root → holds (ofTokensFrom (some ⟨t, leading, []⟩) [] tokens).value →
        holds (current.toList ++ (ofTokensFrom (some ⟨t, leading, []⟩) [] tokens).value))
    (h : inv current leading tokens) : holds (ofTokensFrom current leading tokens).value := by
  induction tokens generalizing current leading with
  | nil => exact last h
  | cons t tokens ih =>
    cases role : t.terminal.role with
    | delimiter => exact absurd role (kept.noDelimiter h)
    | leading =>
      rw [ofTokensFrom_leading _ _ _ role]
      exact ih (kept.leading h role)
    | trailing =>
      cases current with
      | some item =>
        rw [ofTokensFrom_trailing _ _ role]
        exact ih (kept.trailing h role)
      | none =>
        rw [ofTokensFrom_trailing_none _ _ role]
        exact ih (kept.dangling h)
    | root =>
      rw [ofTokensFrom_root _ _ _ role]
      exact closed h role (ih (kept.root h role))

theorem wellformed_ofTokensFrom (h : Waiting current leading tokens) :
    ∀ item ∈ (ofTokensFrom current leading tokens).value, item.Wellformed := by
  refine items_ofTokensFrom (fun items => ∀ item ∈ items, item.Wellformed) keptBySteps_waiting
    (fun h => ?_) (fun h _ rest => ?_) h
  · simpa using h.wellformed
  · exact List.forall_mem_append.mpr ⟨by simpa using h.wellformed, rest⟩

/-- The tokens of each item are in the order of the stream. -/
theorem ordered_ofTokensFrom (h : WaitingInOrder current leading tokens) :
    ∀ item ∈ (ofTokensFrom current leading tokens).value, item.tokens.Pairwise Token.Before := by
  refine items_ofTokensFrom (fun items => ∀ item ∈ items, item.tokens.Pairwise Token.Before)
    keptBySteps_waitingInOrder (fun h => ?_) (fun h _ rest => ?_) h
  · simpa using h.current_tokens
  · refine List.forall_mem_append.mpr ⟨fun item mem => ?_, rest⟩
    exact (h.current_tokens item (by simpa using mem)).sublist (List.sublist_append_left ..)

/-- An item that a root closes is followed by all items of this root and the tokens behind it. -/
theorem follows_of_mem {t : Token} {item next : Item}
    (h : WaitingInOrder (some item) leading (t :: tokens)) (role : t.terminal.role = .root)
    (mem : next ∈ (ofTokensFrom (some ⟨t, leading, []⟩) [] tokens).value) : item.Follows next := by
  have rooted := h.toWaiting.step_root role
  have stood (u : Token) (hu : u ∈ next.tokens) : u ∈ leading ++ t :: tokens := by
    have := (perm_ofTokensFrom rooted).subset
      (List.mem_append_left _ (List.mem_flatMap.mpr ⟨next, mem, hu⟩))
    simpa [Item.tokens] using this
  have apart := (List.pairwise_append.mp (h.current_tokens item rfl)).2.2
  have root : next.root ∈ t :: tokens := by
    -- what waits for a root is none
    refine (List.mem_append.mp (stood next.root (by simp [Item.tokens]))).resolve_left
      fun waits => ?_
    have := (wellformed_ofTokensFrom rooted next mem).root
    rw [h.leads _ waits] at this
    cases this
  have behind (u : Token) (hu : u ∈ next.tokens) : item.root.Before u := by
    rcases List.mem_append.mp (stood u hu) with waits | comes
    · exact h.root_leading item rfl u waits
    · exact apart item.root (by simp [Item.tokens]) u comes
  exact ⟨behind next.root (by simp [Item.tokens]), fun u hu => behind u (by simp [Item.tokens, hu]),
    fun u hu => apart u (by simp [Item.tokens, hu]) next.root root⟩

theorem follow_ofTokensFrom (h : WaitingInOrder current leading tokens) :
    (ofTokensFrom current leading tokens).value.Pairwise Follows := by
  have alone (current : Option Item) : current.toList.Pairwise Follows := by
    cases current with
    | none => exact .nil
    | some item => exact List.pairwise_singleton _ _
  refine items_ofTokensFrom (List.Pairwise Follows) keptBySteps_waitingInOrder (fun _ => alone _)
    (fun h role rest => ?_) h
  refine List.pairwise_append.mpr ⟨alone _, rest, fun item mem next hnext => ?_⟩
  obtain rfl := Option.mem_toList.mp mem
  exact follows_of_mem h role hnext

end Run

/-! ## Measures and streams -/

theorem waiting_start {tokens : List Token} (noMeasure : ∀ t ∈ tokens, t.terminal ≠ .measure) :
    Waiting none [] tokens := ⟨nofun, nofun, noMeasure⟩

theorem waitingInOrder_start {tokens : List Token}
    (noMeasure : ∀ t ∈ tokens, t.terminal ≠ .measure) (ordered : tokens.Pairwise Token.Before) :
    WaitingInOrder none [] tokens := ⟨waiting_start noMeasure, nofun, ordered, nofun⟩

theorem grouped_ofTokens {tokens : List Token} (noMeasure : ∀ t ∈ tokens, t.terminal ≠ .measure)
    (ordered : tokens.Pairwise Token.Before) : Grouped tokens (ofTokens tokens).value where
  once := perm_ofTokensFrom (waiting_start noMeasure)
  wellformed := wellformed_ofTokensFrom (waiting_start noMeasure)
  ordered := ordered_ofTokensFrom (waitingInOrder_start noMeasure ordered)

/-- The items of each measure, measure by measure. -/
theorem mapM_ofTokens (clusters : List (List Token)) :
    clusters.mapM ofTokens =
      ⟨clusters.map fun c => (ofTokens c).value,
        clusters.flatMap fun c => (ofTokens c).diagnostics,
        clusters.all fun c => (ofTokens c).fits⟩ := by
  induction clusters with
  | nil => rfl
  | cons cluster clusters ih =>
    rw [List.mapM_cons, ih]
    refine Reported.ext rfl ?_ ?_
    · simp
    · simp

theorem splitOnP_measure (tokens : List Token) :
    tokens.splitOnP (·.terminal = .measure) = frontOf tokens :: clustersOf tokens := by
  have first := head?_splitOnP (·.terminal = .measure) tokens
  obtain ⟨clusters, eq⟩ := List.head?_eq_some_iff.mp first
  rw [clustersOf, eq, List.tail_cons, frontOf]
  simp

theorem measureClusters_eq (tokens : List Token) :
    measureClusters tokens = ⟨clustersOf tokens, frontReport (frontOf tokens), true⟩ := by
  rw [measureClusters, splitOnP_measure]
  cases frontOf tokens <;> rfl

theorem front_append_clusters (tokens : List Token) :
    frontOf tokens ++ (clustersOf tokens).flatten = tokens.filter (·.terminal ≠ .measure) := by
  have pieces := flatten_splitOnP (·.terminal = .measure) tokens
  rw [splitOnP_measure, List.flatten_cons] at pieces
  simpa using pieces

theorem ne_measure_of_mem_clusters {tokens cluster : List Token} (h : cluster ∈ clustersOf tokens) :
    ∀ t ∈ cluster, t.terminal ≠ .measure :=
  fun t ht => of_decide_eq_false (of_mem_splitOnP (List.mem_of_mem_tail h) t ht).2

/-- The tokens of the items of a measure stand in the measure. -/
theorem Grouped.mem {tokens : List Token} {items : List Item} (h : Grouped tokens items)
    {item : Item} (mem : item ∈ items) : ∀ t ∈ item.tokens, t ∈ tokens :=
  fun _ ht => h.once.subset (List.mem_append_left _ (List.mem_flatMap.mpr ⟨item, mem, ht⟩))

/-- Items of tokens that stand in front of others follow each other. -/
theorem follows_of_before {item next : Item}
    (h : ∀ t ∈ item.tokens, ∀ u ∈ next.tokens, t.Before u) : item.Follows next := by
  have root (item : Item) : item.root ∈ item.tokens := by simp [Item.tokens]
  exact ⟨h _ (root item) _ (root next), fun u hu => h _ (root item) u (by simp [Item.tokens, hu]),
    fun t ht => h t (by simp [Item.tokens, ht]) _ (root next)⟩

/-- What is in exactly one place in each measure is so in all of them. -/
theorem perm_of_groups {clusters : List (List Token)} {items : List (List Item)}
    (h : List.Forall₂ Grouped clusters items) :
    (items.flatten.flatMap Item.tokens ++ clusters.flatMap danglingIn).Perm clusters.flatten := by
  induction h with
  | nil => exact .refl _
  | cons group _ ih =>
    rw [List.flatten_cons, List.flatten_cons, List.flatMap_append, List.flatMap_cons]
    refine .trans ?_ (group.once.append ih)
    rw [List.append_assoc, List.append_assoc]
    exact (List.perm_append_comm_assoc ..).append_left _

end Item

/-- **Each token is grouped once.** -/
theorem Item.groupsOnce_ofStream {tokens : List Token} (ordered : tokens.Pairwise Token.Before) :
    Item.GroupsOnce tokens := by
  have value : (ofStream tokens).value = (clustersOf tokens).map fun c => (ofTokens c).value := by
    rw [ofStream, measureClusters_eq, Reported.value_bind, mapM_ofTokens]
  have kept : (tokens.filter (·.terminal ≠ .measure)).Pairwise Token.Before :=
    ordered.sublist List.filter_sublist
  rw [← front_append_clusters] at kept
  obtain ⟨within, across⟩ := List.pairwise_flatten.mp (List.pairwise_append.mp kept).2.1
  have group {cluster : List Token} (mem : cluster ∈ clustersOf tokens) :
      Grouped cluster (ofTokens cluster).value :=
    grouped_ofTokens (ne_measure_of_mem_clusters mem) (within cluster mem)
  have measures : List.Forall₂ Grouped (clustersOf tokens) (ofStream tokens).value := by
    rw [value, List.forall₂_map_right_iff, List.forall₂_same]
    exact fun cluster mem => group mem
  refine ⟨?_, ?_, measures, ?_⟩
  · rw [ofStream, measureClusters_eq, Reported.diagnostics_bind, mapM_ofTokens, List.map_flatMap]
    refine congrArg _ (List.flatMap_congr fun cluster mem => ?_)
    exact diagnostics_ofTokensFrom (waiting_start (ne_measure_of_mem_clusters mem))
  · rw [← front_append_clusters]
    exact (perm_of_groups measures).append_left _
  · rw [value, List.pairwise_flatten, List.pairwise_map]
    constructor
    · refine List.forall_mem_map.mpr fun cluster mem => ?_
      exact follow_ofTokensFrom
        (waitingInOrder_start (ne_measure_of_mem_clusters mem) (within cluster mem))
    · refine across.imp_of_mem fun hc hd before item mem next hnext => ?_
      exact follows_of_before fun t ht u hu =>
        before t ((group hc).mem mem t ht) u ((group hd).mem hnext u hu)

/-- Tokens in front of the first measure, a measure with modifiers on all sides of its two roots,
and one without a root. -/
def strayTokens : List Token :=
  ([.dot, .rest, .measure, .dot, .pitch .c 4, .noteType .quarter, .chord, .dot, .pitch .e 4,
    .stem .up, .noteType .half, .voice 2, .tied .start, .measure, .grace, .dot].zipIdx 1).map
    fun (terminal, position) => ⟨terminal, position⟩

theorem groupsOnce_strayTokens :
    strayTokens.Pairwise Token.Before ∧ Item.GroupsOnce strayTokens ∧
      (Item.ofStream strayTokens).value.map List.length = [2, 0] ∧
      (Item.ofStream strayTokens).diagnostics.map (·.position) =
        [some 1, some 4, some 12, some 16, some 15] := by
  have ordered : strayTokens.Pairwise Token.Before := by decide
  exact ⟨ordered, Item.groupsOnce_ofStream ordered, by decide, by decide⟩

end LinearScore
