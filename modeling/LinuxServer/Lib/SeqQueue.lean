/-
A FIFO queue with one caller: what each operation may answer, and what a run
of operations says about the values put in and taken out.

An operation is written with its answer, so a list of them is the history of
a queue, and `Run` says which histories a sequential queue has. Nothing is
asked of the values, which need not be comparable.
-/
import Mathlib.Tactic.TypeStar

namespace SeqQueue

/-- An operation and its answer: `take` delivered `a`, `miss` found nothing
to take, `isEmpty` answered `b`, `copy` read the contents. -/
inductive Op (α : Type*)
  | put (a : α)
  | take (a : α)
  | miss
  | isEmpty (b : Bool)
  | copy (contents : List α)
  deriving DecidableEq, Repr

variable {α : Type*} {q q' : List α} {op : Op α} {ops pre : List (Op α)}

/-- What an operation does to the contents, front first, and when it may answer so. -/
inductive Step : List α → Op α → List α → Prop
  | put : ∀ q a, Step q (.put a) (q ++ [a])
  | take : ∀ a q, Step (a :: q) (.take a) q
  | miss : Step [] .miss []
  | isEmpty : ∀ q, Step q (.isEmpty q.isEmpty) q
  | copy : ∀ q, Step q (.copy q) q

/-- The operations in turn, from the contents `q` to the contents at the end. -/
inductive Run (q : List α) : List (Op α) → List α → Prop
  | nil : Run q [] q
  | snoc : ∀ {ops q' op q''}, Run q ops q' → Step q' op q'' → Run q (ops ++ [op]) q''

/-- The values put in, in order. -/
def puts (ops : List (Op α)) : List α :=
  ops.filterMap fun
    | .put a => some a
    | .take _ | .miss | .isEmpty _ | .copy _ => none

/-- The values taken out, in order. -/
def takes (ops : List (Op α)) : List α :=
  ops.filterMap fun
    | .take a => some a
    | .put _ | .miss | .isEmpty _ | .copy _ => none

theorem puts_append (l m : List (Op α)) : puts (l ++ m) = puts l ++ puts m := List.filterMap_append

theorem takes_append (l m : List (Op α)) : takes (l ++ m) = takes l ++ takes m := List.filterMap_append

/-- **FIFO.** What was taken out, followed by what is there, is what was
there at first, followed by what was put in. -/
theorem Run.balance (h : Run q ops q') : takes ops ++ q' = q ++ puts ops := by
  induction h with
  | nil => simp [takes, puts]
  | snoc _ hs ih =>
    rw [takes_append, puts_append, ← List.append_assoc, ← ih]
    cases hs <;> simp [takes, puts]

/-- What the answer of `op` says about the history `pre` before it. -/
def Answers (pre : List (Op α)) : Op α → Prop
  | .put _ => True
  | .take a => ∃ rest, takes pre ++ a :: rest = puts pre
  | .miss => takes pre = puts pre
  | .isEmpty b => b = true ↔ takes pre = puts pre
  | .copy contents => takes pre ++ contents = puts pre

theorem Step.answers (hs : Step q op q') (hr : Run [] pre q) : Answers pre op := by
  have hb : takes pre ++ q = puts pre := by simpa using hr.balance
  cases hs with
  | put => trivial
  | take a q' => exact ⟨q', hb⟩
  | miss => simpa [Answers] using hb
  | isEmpty =>
    show q.isEmpty = true ↔ takes pre = puts pre
    rw [← hb, List.isEmpty_iff]
    simp
  | copy => exact hb

/-- Every answer in the history of a queue that was empty at first. -/
theorem Run.answers (h : Run [] ops q) : ∀ pre op post, ops = pre ++ op :: post → Answers pre op := by
  induction h with
  | nil => intro pre op post he; simp at he
  | @snoc ops q' last q'' hr hs ih =>
    intro pre op post he
    rcases List.eq_nil_or_concat post with rfl | ⟨post', last', rfl⟩
    · obtain ⟨rfl, hop⟩ := List.append_inj' he rfl
      cases hop
      exact hs.answers hr
    · rw [← List.concat_cons, List.concat_eq_append, ← List.append_assoc] at he
      exact ih pre op post' (List.append_inj' he rfl).1

end SeqQueue
