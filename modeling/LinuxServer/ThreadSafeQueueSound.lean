/-
What holds of `ThreadSafeQueue` under any interleaving of any number of
threads. The operations, in the order of their locks, are a history of a
sequential FIFO queue that ends with the present contents
(`queue_sequential`); and while some thread sleeps in `pop`, at least as many
threads are on their way to test the queue as there are elements in it
(`no_lost_wakeup`).

The second is a count that every step keeps: a push adds an element and
wakes a thread, a woken thread that tests the queue takes an element or
finds none, and what is stolen only makes the queue shorter.
-/
import Mathlib.Data.Finset.Card
import Mathlib.Data.Fintype.Basic
import LinuxServer.ThreadSafeQueue

namespace LinuxServer.ThreadSafeQueue

open Lts

variable {ι α : Type} [DecidableEq ι] {s s' : St ι α} {a : Act ι α} {i j : ι} {p : Place α}

/-! ## The history -/

/-- The operations of the history, without the threads. -/
def St.ops (s : St ι α) : List (SeqQueue.Op α) := s.history.map (·.2)

/-- A step does nothing to the queue, or one operation that it records. -/
theorem step_ops (h : Step s a s') :
    (s'.ops = s.ops ∧ s'.queue = s.queue) ∨
      ∃ op, s'.ops = s.ops ++ [op] ∧ SeqQueue.Step s.queue.dataQueue op s'.queue.dataQueue := by
  cases h with
  | call _ | lock _ | relock _ | wait _ _ _ | unlock _ | spurious _ => exact .inl ⟨rfl, rfl⟩
  | pushAlone _ _ _ | pushWake _ _ _ =>
    exact .inr ⟨_, List.map_append, .put _ _⟩
  | take _ _ hq =>
    refine .inr ⟨_, List.map_append, ?_⟩
    rw [hq]
    exact .take _ _
  | answer _ _ hop => exact .inr ⟨_, List.map_append, hop⟩

theorem ops_run [Fintype ι] (h : Reach step Any init s) : SeqQueue.Run [] s.ops s.queue.dataQueue := by
  refine h.invariant (I := fun s => SeqQueue.Run [] s.ops s.queue.dataQueue) .nil fun s a s' hs _ hstep => ?_
  obtain ⟨hops, hqueue⟩ | ⟨op, hops, hop⟩ := step_ops (step_sound hstep)
  · rw [hops, hqueue]
    exact hs
  · rw [hops]
    exact .snoc hs hop

/-- **The queue is a sequential FIFO queue in lock order.** Whatever the
threads, their calls and their interleaving: the values taken by `pop` and
`try_pop` in lock order, followed by the contents, are the values pushed in
lock order; each value taken was at the front of what was pushed and not
taken; a failed `try_pop`, and an `empty()` that answers true, found
everything taken; and a copy is what was pushed and not taken. -/
theorem queue_sequential [Fintype ι] (s : St ι α) (h : Reach step Any init s) :
    SeqQueue.Run [] s.ops s.queue.dataQueue ∧
    SeqQueue.takes s.ops ++ s.queue.dataQueue = SeqQueue.puts s.ops ∧
    ∀ pre op post, s.ops = pre ++ op :: post → SeqQueue.Answers pre op := by
  have hrun := ops_run h
  exact ⟨hrun, by simpa using hrun.balance, hrun.answers⟩

/-! ## Wake-ups -/

theorem waiting_goto (hp : p ≠ .waiting) (h : (s.goto i p).place j = .waiting) : s.place j = .waiting := by
  by_cases hji : j = i
  · subst hji
    rw [goto_place_self] at h
    exact absurd h hp
  · rwa [goto_place_of_ne s p hji] at h

/-- The threads woken in `pop` that have not tested the queue again. -/
def unchecked [Fintype ι] (s : St ι α) : Finset ι := Finset.univ.filter fun i => (s.place i).unchecked = true

omit [DecidableEq ι] in
theorem mem_unchecked [Fintype ι] : i ∈ unchecked s ↔ (s.place i).unchecked = true := by simp [unchecked]

variable [Fintype ι]

theorem unchecked_insert (hp : p.unchecked = true) : unchecked (s.goto i p) = insert i (unchecked s) := by
  ext j
  rw [mem_unchecked, Finset.mem_insert, mem_unchecked]
  by_cases hji : j = i
  · subst hji; simp [hp]
  · simp [goto_place_of_ne s p hji, hji]

theorem unchecked_erase (hp : p.unchecked = false) : unchecked (s.goto i p) = (unchecked s).erase i := by
  ext j
  rw [mem_unchecked, Finset.mem_erase, mem_unchecked]
  by_cases hji : j = i
  · subst hji; simp [hp]
  · simp [goto_place_of_ne s p hji, hji]

theorem unchecked_same (hp : p.unchecked = false) (hi : (s.place i).unchecked = false) :
    unchecked (s.goto i p) = unchecked s := by
  rw [unchecked_erase hp, Finset.erase_eq_of_notMem]
  rw [mem_unchecked, hi]
  exact Bool.false_ne_true

/-- While a thread sleeps in `pop`, the elements are no more than the
threads on their way to test the queue. -/
def NoLostWakeup (s : St ι α) : Prop :=
  (∃ i, s.place i = .waiting) → s.queue.dataQueue.length ≤ (unchecked s).card

theorem NoLostWakeup.move (h : NoLostWakeup s) (hp : p ≠ .waiting) (hpu : p.unchecked = false)
    (hi : (s.place i).unchecked = false) : NoLostWakeup (s.goto i p) := by
  intro ⟨j, hj⟩
  rw [unchecked_same hpu hi]
  exact h ⟨j, waiting_goto hp hj⟩

theorem NoLostWakeup.wake (h : NoLostWakeup s) (hp : p ≠ .waiting) (hpu : p.unchecked = true) :
    NoLostWakeup (s.goto i p) := by
  intro ⟨j, hj⟩
  rw [unchecked_insert hpu]
  exact (h ⟨j, waiting_goto hp hj⟩).trans (Finset.card_le_card (Finset.subset_insert _ _))

/-- A push with a sleeper adds one element and one thread that will test the queue. -/
theorem NoLostWakeup.pushWake {newVal : α} {call : Call α} (h : NoLostWakeup s) (hi : s.place i = .inside call)
    (hj : s.place j = .waiting) :
    NoLostWakeup ((s.done i (.put newVal) (s.queue.push newVal)).goto j .woken) := by
  intro _
  have hnew : j ∉ unchecked s := by
    rw [mem_unchecked, hj]
    exact Bool.false_ne_true
  have hset : unchecked ((s.done i (.put newVal) (s.queue.push newVal)).goto j .woken) =
      insert j (unchecked s) := by
    rw [unchecked_insert rfl]
    show insert j (unchecked (s.goto i .leaving)) = _
    rw [unchecked_same rfl (by rw [hi]; rfl)]
  rw [hset, Finset.card_insert_of_notMem hnew]
  show (s.queue.dataQueue ++ [newVal]).length ≤ _
  rw [List.length_append, List.length_singleton]
  exact Nat.succ_le_succ (h ⟨j, hj⟩)

theorem NoLostWakeup.take {queue : ThreadSafeQueue α} {x : α} (h : NoLostWakeup s)
    (hq : s.queue.dataQueue = x :: queue.dataQueue) : NoLostWakeup (s.done i (.take x) queue) := by
  intro ⟨j, hj⟩
  have hold := h ⟨j, waiting_goto (p := .leaving) (by simp) hj⟩
  rw [hq, List.length_cons] at hold
  show queue.dataQueue.length ≤ (unchecked (s.goto i .leaving)).card
  rw [unchecked_erase rfl]
  have := Finset.pred_card_le_card_erase (s := unchecked s) (a := i)
  omega

theorem step_noLostWakeup (h : NoLostWakeup s) (hs : Step s a s') : NoLostWakeup s' := by
  cases hs with
  | call hi => exact h.move (by simp) rfl (by rw [hi]; rfl)
  | lock hi => exact h.move (by simp) rfl (by rw [hi]; rfl)
  | unlock hi => exact h.move (by simp) rfl (by rw [hi]; rfl)
  | relock hi => exact h.wake (by simp) rfl
  | spurious hi => exact h.wake (by simp) rfl
  | pushAlone _ hi hnone =>
    intro ⟨j, hj⟩
    exact absurd (waiting_goto (p := .leaving) (by simp) hj) (hnone j)
  | pushWake _ hi hj => exact h.pushWake hi hj
  | wait _ _ hq =>
    intro _
    show s.queue.dataQueue.length ≤ _
    rw [hq]
    exact Nat.zero_le _
  | take _ _ hq => exact h.take hq
  | answer _ hi _ => exact h.move (by simp) rfl (by rw [hi]; rfl)

/-- **No lost wake-up.** In every reachable state in which some thread
sleeps in `pop`, the threads that were woken and have not tested the queue
again are at least as many as its elements; so no element is in the queue
while every thread that could take it sleeps. -/
theorem no_lost_wakeup (s : St ι α) (h : Reach step Any init s) (hsleep : ∃ i, s.place i = .waiting) :
    s.queue.dataQueue.length ≤ (unchecked s).card ∧
    (s.queue.dataQueue ≠ [] → ∃ i, s.place i = .woken ∨ s.place i = .rechecking) := by
  have hinv : NoLostWakeup s :=
    h.invariant (by intro ⟨i, hi⟩; cases hi) fun _ _ _ hs _ hstep => step_noLostWakeup hs (step_sound hstep)
  have hcount := hinv hsleep
  refine ⟨hcount, fun hne => ?_⟩
  have hpos := List.length_pos_iff.mpr hne
  obtain ⟨i, hi⟩ := Finset.card_pos.mp (Nat.lt_of_lt_of_le hpos hcount)
  rw [mem_unchecked] at hi
  refine ⟨i, ?_⟩
  cases hp : s.place i <;> rw [hp] at hi <;> simp_all [Place.unchecked]

/-- Threads 0 and 1 sleep in `pop`, thread 2 pushes 7 and wakes thread 0,
which has not taken the lock yet. -/
def demoRun : List (Act (Fin 3) Nat) :=
  [.call 0 .pop, .lock 0, .body 0, .call 1 .pop, .lock 1, .body 1,
   .call 2 (.push 7), .lock 2, .push 2 (some 0), .unlock 2]

/-- Thread 2 takes the 7 back before thread 0 gets the lock, and pushes 8. -/
def stealRun : List (Act (Fin 3) Nat) :=
  demoRun ++ [.call 2 .tryPop, .lock 2, .body 2, .unlock 2, .lock 0, .body 0, .spurious 1,
    .call 2 (.pushMove 8), .lock 2, .push 2 (some 0), .unlock 2, .lock 1, .body 1, .unlock 1,
    .call 1 .empty, .lock 1, .body 1, .unlock 1, .call 1 .copy, .lock 1, .body 1]

theorem demoRun_run : (run step init demoRun).isSome := by decide

theorem stealRun_run : (run step init stealRun).isSome := by decide

/-- `queue_sequential` at the end of `stealRun`. -/
theorem queue_sequential_steal :
    let s := (run step init stealRun).get stealRun_run
    SeqQueue.Run [] s.ops s.queue.dataQueue ∧
    SeqQueue.takes s.ops ++ s.queue.dataQueue = SeqQueue.puts s.ops ∧
    ∀ pre op post, s.ops = pre ++ op :: post → SeqQueue.Answers pre op :=
  queue_sequential _ (reach_get stealRun_run)

/-- `no_lost_wakeup` at the end of `demoRun`, where thread 1 sleeps. -/
theorem no_lost_wakeup_demo :
    let s := (run step init demoRun).get demoRun_run
    s.queue.dataQueue.length ≤ (unchecked s).card ∧
    (s.queue.dataQueue ≠ [] → ∃ i, s.place i = .woken ∨ s.place i = .rechecking) :=
  no_lost_wakeup _ (reach_get demoRun_run) ⟨1, by decide⟩

end LinuxServer.ThreadSafeQueue
