import LinearScore.Checked

/-!
# Passes over lists and cuts of lists

A pass visits the members of a list in order and carries a state along.  A cut divides a list into
runs at the members where a run has to start.

## Main definitions

* `thread`: the final state and the changed members of a pass
* `threadChecked`: a pass with arithmetic by the integers of the machine
* `cutBefore`: the runs of a list, a new one starting at each member with a given property

A pass keeps the number of members, as `length_thread` shows, and a pass over two lists is the pass
over the first followed by the pass over the second, as `thread_append` shows.  The runs of a cut
put together again give the list, as `flatten_cutBefore` shows.
-/

namespace LinearScore

variable {σ α β : Type}

/-- Changes the members of a list in order while a state is carried along. -/
def thread (f : σ → α → σ × β) (s : σ) : List α → σ × List β
  | [] => (s, [])
  | a :: as =>
    let (s, b) := f s a
    let (s, bs) := thread f s as
    (s, b :: bs)

@[simp] theorem thread_nil (f : σ → α → σ × β) (s : σ) : thread f s [] = (s, []) := rfl

theorem thread_cons (f : σ → α → σ × β) (s : σ) (a : α) (as : List α) :
    thread f s (a :: as) =
      ((thread f (f s a).1 as).1, (f s a).2 :: (thread f (f s a).1 as).2) := rfl

@[simp] theorem length_thread (f : σ → α → σ × β) (s : σ) (as : List α) :
    (thread f s as).2.length = as.length := by
  induction as generalizing s with
  | nil => rfl
  | cons a as ih => simp [thread_cons, ih]

theorem thread_append (f : σ → α → σ × β) (s : σ) (as bs : List α) :
    thread f s (as ++ bs) =
      ((thread f (thread f s as).1 bs).1,
        (thread f s as).2 ++ (thread f (thread f s as).1 bs).2) := by
  induction as generalizing s with
  | nil => rfl
  | cons a as ih => simp [thread_cons, ih]

/-- What a pass makes of a member depends on the state behind those in front of it. -/
theorem getElem?_thread (f : σ → α → σ × β) (s : σ) (as : List α) (k : Nat) :
    (thread f s as).2[k]? = as[k]?.map fun a => (f (thread f s (as.take k)).1 a).2 := by
  induction as generalizing s k with
  | nil => rfl
  | cons a as ih =>
    cases k with
    | zero => rfl
    | succ k => exact ih (f s a).1 k

/-- A pass whose steps compute with the integers of the machine. -/
def threadChecked (f : σ → α → Checked (σ × β)) (s : σ) : List α → Checked (σ × List β)
  | [] => return (s, [])
  | a :: as => do
    let (s, b) ← f s a
    let (s, bs) ← threadChecked f s as
    return (s, b :: bs)

@[simp] theorem value_threadChecked (f : σ → α → Checked (σ × β)) (s : σ) (as : List α) :
    (threadChecked f s as).value = thread (fun s a => (f s a).value) s as := by
  induction as generalizing s with
  | nil => rfl
  | cons a as ih => simp [threadChecked, thread_cons, ih]

/-- Puts a member in front of a list of runs: into the first run, unless that starts with a member
at which a run has to start. -/
def joinRun (starts : α → Bool) (a : α) : List (List α) → List (List α)
  | (b :: run) :: runs => if starts b then [a] :: (b :: run) :: runs else (a :: b :: run) :: runs
  | runs => [a] :: runs

/-- The runs of a list, a new one starting at each member that satisfies `starts`. -/
def cutBefore (starts : α → Bool) (as : List α) : List (List α) :=
  as.foldr (joinRun starts) []

@[simp] theorem flatten_joinRun (starts : α → Bool) (a : α) (runs : List (List α)) :
    (joinRun starts a runs).flatten = a :: runs.flatten := by
  unfold joinRun
  split
  · split <;> simp
  · simp

@[simp] theorem flatten_cutBefore (starts : α → Bool) (as : List α) :
    (cutBefore starts as).flatten = as := by
  induction as with
  | nil => rfl
  | cons a as ih => simpa [cutBefore] using ih

end LinearScore
