import LinearScore.Item.Basic

/-!
# Grouping

The tokens of a stream written item by item, measure by measure, group into these items and
measures again, and nothing is reported.

## Main definitions

* `Item.tokens`: the tokens of an item in the order of the stream
* `Item.Wellformed`: the root is a root, and the modifiers stand on their sides

The main statements are `Item.ofTokens_flatMap` for one measure and `measureClusters_flatMap` for
a stream of measures.
-/

namespace LinearScore

namespace Item

/-! ## One step of the grouping -/

section Step

variable {t : Token} (current : Option Item) (leading tokens : List Token)

theorem ofTokensFrom_leading (h : t.terminal.role = .leading) :
    ofTokensFrom current leading (t :: tokens) =
      ofTokensFrom current (leading ++ [t]) tokens := by
  simp only [ofTokensFrom, h]

theorem ofTokensFrom_root (h : t.terminal.role = .root) :
    ofTokensFrom current leading (t :: tokens) =
      (current.toList ++ ·) <$> ofTokensFrom (some ⟨t, leading, []⟩) [] tokens := by
  simp only [ofTokensFrom, h, bind_pure_comp]

theorem ofTokensFrom_trailing (h : t.terminal.role = .trailing) (item : Item) :
    ofTokensFrom (some item) leading (t :: tokens) =
      ofTokensFrom (some { item with trailing := item.trailing ++ [t] }) leading tokens := by
  simp only [ofTokensFrom, h]

theorem ofTokensFrom_trailing_none (h : t.terminal.role = .trailing) :
    ofTokensFrom none leading (t :: tokens) = (do
      report t.position (.danglingTrailing t.terminal)
      ofTokensFrom none leading tokens) := by
  simp only [ofTokensFrom, h]

theorem ofTokensFrom_delimiter (h : t.terminal.role = .delimiter) :
    ofTokensFrom current leading (t :: tokens) = (do
      report t.position (.unexpectedItem t.terminal)
      ofTokensFrom current leading tokens) := by
  simp only [ofTokensFrom, h]

end Step

/-! ## Whole items -/

/-- The tokens of an item in the order of the stream. -/
def tokens (item : Item) : List Token := item.leading ++ item.root :: item.trailing

/-- The root of the item is a root, and its modifiers stand on the sides they belong to. -/
structure Wellformed (item : Item) : Prop where
  root : item.root.terminal.role = .root
  leading : ∀ t ∈ item.leading, t.terminal.role = .leading
  trailing : ∀ t ∈ item.trailing, t.terminal.role = .trailing

/-- No token of an item starts a measure. -/
theorem Wellformed.ne_measure {item : Item} (h : item.Wellformed) :
    ∀ t ∈ item.tokens, t.terminal ≠ .measure := by
  intro t ht starts
  rcases List.mem_append.mp ht with leads | rest
  · exact absurd (h.leading t leads) (by rw [starts]; decide)
  · rcases List.mem_cons.mp rest with rfl | trails
    · exact absurd h.root (by rw [starts]; decide)
    · exact absurd (h.trailing t trails) (by rw [starts]; decide)

/-- Leading modifiers wait for the next root. -/
theorem ofTokensFrom_append_leading (current : Option Item) {more : List Token}
    (h : ∀ t ∈ more, t.terminal.role = .leading) (leading rest : List Token) :
    ofTokensFrom current leading (more ++ rest) =
      ofTokensFrom current (leading ++ more) rest := by
  induction more generalizing leading with
  | nil => simp
  | cons t more ih =>
    rw [List.cons_append, ofTokensFrom_leading _ _ _ (h t List.mem_cons_self),
      ih fun u hu => h u (List.mem_cons_of_mem _ hu)]
    simp

/-- Trailing modifiers go to the root before them. -/
theorem ofTokensFrom_append_trailing {more : List Token}
    (h : ∀ t ∈ more, t.terminal.role = .trailing) (item : Item) (leading rest : List Token) :
    ofTokensFrom (some item) leading (more ++ rest) =
      ofTokensFrom (some { item with trailing := item.trailing ++ more }) leading rest := by
  induction more generalizing item with
  | nil => simp
  | cons t more ih =>
    rw [List.cons_append, ofTokensFrom_trailing _ _ (h t List.mem_cons_self),
      ih fun u hu => h u (List.mem_cons_of_mem _ hu)]
    simp

/-- An item in front of a stream closes the item before it and waits for its own end. -/
theorem ofTokensFrom_item {item : Item} (h : item.Wellformed) (current : Option Item)
    (rest : List Token) :
    ofTokensFrom current [] (item.tokens ++ rest) =
      (current.toList ++ ·) <$> ofTokensFrom (some item) [] rest := by
  rw [tokens, List.append_assoc, ofTokensFrom_append_leading _ h.leading, List.cons_append,
    ofTokensFrom_root _ _ _ h.root, ofTokensFrom_append_trailing h.trailing]
  simp

theorem ofTokensFrom_flatMap {items : List Item} (h : ∀ item ∈ items, item.Wellformed)
    (current : Option Item) :
    ofTokensFrom current [] (items.flatMap tokens) = pure (current.toList ++ items) := by
  induction items generalizing current with
  | nil => simp [ofTokensFrom, reportDangling]
  | cons item items ih =>
    rw [List.flatMap_cons, ofTokensFrom_item (h item List.mem_cons_self),
      ih fun i hi => h i (List.mem_cons_of_mem _ hi)]
    simp

/-- The tokens of items, one item after the other, group into these items. -/
theorem ofTokens_flatMap {items : List Item} (h : ∀ item ∈ items, item.Wellformed) :
    ofTokens (items.flatMap tokens) = pure items := by
  rw [ofTokens, ofTokensFrom_flatMap h]
  simp

end Item

/-! ## Measures -/

section Measures

variable {delimiter : Token} (hd : delimiter.terminal = .measure)
include hd

/-- What stands behind a `measure` token is cut off at the next one. -/
theorem splitOnP_body {bodies : List (List Token)}
    (h : ∀ body ∈ bodies, ∀ t ∈ body, t.terminal ≠ .measure) {body : List Token}
    (hb : ∀ t ∈ body, t.terminal ≠ .measure) :
    (body ++ bodies.flatMap (delimiter :: ·)).splitOnP (·.terminal = .measure) =
      body :: bodies := by
  induction bodies generalizing body with
  | nil => simpa using List.splitOnP_eq_singleton (by simpa using hb)
  | cons next bodies ih =>
    rw [List.flatMap_cons, List.cons_append,
      List.splitOnP_append_cons_of_forall_mem (by simpa using hb) _ (by simpa using hd),
      ih (fun b hb => h b (List.mem_cons_of_mem _ hb)) (h next List.mem_cons_self)]

/-- Measures put one after the other, each behind a `measure` token, are the clusters of the
stream. -/
theorem measureClusters_flatMap {bodies : List (List Token)}
    (h : ∀ body ∈ bodies, ∀ t ∈ body, t.terminal ≠ .measure) :
    measureClusters (bodies.flatMap (delimiter :: ·)) = pure bodies := by
  have split := @splitOnP_body _ hd _ h [] (List.forall_mem_nil _)
  rw [List.nil_append] at split
  rw [measureClusters, split]

end Measures

end LinearScore
