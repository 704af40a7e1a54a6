/-
`ThreadSafeQueue` (thread_safe_queue.hpp): the queue, and the threads that
use it with its mutex and its condition variable.

An operation is a call, the lock, its body and the unlock. The body runs with
the mutex held, so it is one step; `pop` is the exception, for its wait gives
the mutex up. A waiting thread is woken by the `notify_one` of a push or for
no reason, takes the lock again when it can, and then tests the queue again.
`history` lists the operations in the order of their bodies, which is the
order of their locks.
-/
import Mathlib.Data.Fintype.Defs
import Mathlib.Logic.Function.Basic
import LinuxServer.Lib.Lts
import LinuxServer.Lib.SeqQueue

namespace LinuxServer

/-- `ThreadSafeQueue`, whose every operation holds its mutex. -/
structure ThreadSafeQueue (α : Type) where
  dataQueue : List α
  deriving DecidableEq, Repr

namespace ThreadSafeQueue

variable {α : Type}

def push (q : ThreadSafeQueue α) (newVal : α) : ThreadSafeQueue α := ⟨q.dataQueue ++ [newVal]⟩

def tryPop (q : ThreadSafeQueue α) : Option (α × ThreadSafeQueue α) :=
  match q.dataQueue with
  | [] => none
  | front :: rest => some (front, ⟨rest⟩)

def empty (q : ThreadSafeQueue α) : Bool := q.dataQueue.isEmpty

theorem tryPop_none {q : ThreadSafeQueue α} (h : q.tryPop = none) : q.dataQueue = [] := by
  unfold tryPop at h
  split at h
  · assumption
  · cases h

theorem tryPop_some {q q' : ThreadSafeQueue α} {a : α} (h : q.tryPop = some (a, q')) :
    q.dataQueue = a :: q'.dataQueue := by
  unfold tryPop at h
  split at h
  · cases h
  · next front rest hq => cases h; exact hq

/-! ## The threads -/

/-- What a thread calls. `push` is `push(const T&)`, `pushMove` is
`push(T&&)`; `copy` constructs another queue from this one. -/
inductive Call (α : Type)
  | push (newVal : α)
  | pushMove (newVal : α)
  | pop
  | tryPop
  | empty
  | copy
  deriving DecidableEq, Repr

/-- The value pushed: both overloads have the same body. -/
def Call.pushed : Call α → Option α
  | .push newVal | .pushMove newVal => some newVal
  | .pop | .tryPop | .empty | .copy => none

/-- Where a thread is: not in the queue's code; before the lock of its call;
with the mutex, before the body; in `pop` asleep in `wait`, woken there and
without the mutex yet, or with it again, before it tests the queue again;
with the mutex, after the body. -/
inductive Place (α : Type)
  | outside
  | calling (call : Call α)
  | inside (call : Call α)
  | waiting
  | woken
  | rechecking
  | leaving
  deriving DecidableEq, Repr

/-- Asleep in `wait`. -/
def Place.asleep : Place α → Bool
  | .waiting => true
  | .outside | .calling _ | .inside _ | .woken | .rechecking | .leaving => false

/-- Woken, and the condition not tested again yet. -/
def Place.unchecked : Place α → Bool
  | .woken | .rechecking => true
  | .outside | .calling _ | .inside _ | .waiting | .leaving => false

/-- The threads `ι`, the queue they use and the holder of its mutex. -/
structure St (ι α : Type) where
  queue : ThreadSafeQueue α
  mutex : Option ι
  place : ι → Place α
  history : List (ι × SeqQueue.Op α)

variable {ι : Type}

def init : St ι α where
  queue := ⟨[]⟩
  mutex := none
  place _ := .outside
  history := []

variable [DecidableEq ι]

/-- Thread `i` goes to `place`. -/
def St.goto (s : St ι α) (i : ι) (place : Place α) : St ι α :=
  { s with place := Function.update s.place i place }

@[simp] theorem goto_place_self (s : St ι α) (i : ι) (place : Place α) : (s.goto i place).place i = place := by
  simp [St.goto]

theorem goto_place_of_ne (s : St ι α) {i j : ι} (place : Place α) (h : j ≠ i) :
    (s.goto i place).place j = s.place j := by
  simp [St.goto, h]

/-- Thread `i` takes the lock. -/
def St.lock (s : St ι α) (i : ι) (place : Place α) : St ι α := { s.goto i place with mutex := some i }

/-- The body of thread `i`'s operation is done, with the answer `op`; the queue is now `queue`. -/
def St.done (s : St ι α) (i : ι) (op : SeqQueue.Op α) (queue : ThreadSafeQueue α) : St ι α :=
  { s.goto i .leaving with queue, history := s.history ++ [(i, op)] }

/-- `_queue_cond.wait` on an empty queue: asleep, and the mutex given up. -/
def St.wait (s : St ι α) (i : ι) : St ι α := { s.goto i .waiting with mutex := none }

/-- `pop`'s test of the queue, before the wait and after each wake-up, and
what follows: the wait, or the element at the front. -/
def St.popBody (s : St ι α) (i : ι) : St ι α :=
  match s.queue.tryPop with
  | none => s.wait i
  | some (front, rest) => s.done i (.take front) rest

/-- The bodies but those of the pushes. -/
def St.body (s : St ι α) (i : ι) : Call α → Option (St ι α)
  | .push _ | .pushMove _ => none
  | .pop => some (s.popBody i)
  | .tryPop =>
    match s.queue.tryPop with
    | none => some (s.done i .miss s.queue)
    | some (front, rest) => some (s.done i (.take front) rest)
  | .empty => some (s.done i (.isEmpty s.queue.empty) s.queue)
  | .copy => some (s.done i (.copy s.queue.dataQueue) s.queue)

/-- `notify_one`: one of the threads asleep is woken, if there is any. -/
def St.notifyOne [Fintype ι] (s : St ι α) : Option ι → Option (St ι α)
  | none => if ∀ j, (s.place j).asleep = false then some s else none
  | some j => if (s.place j).asleep then some (s.goto j .woken) else none

inductive Act (ι α : Type)
  | call (i : ι) (call : Call α)
  | lock (i : ι)
  /-- the body of a push; `wake` is the thread its `notify_one` wakes -/
  | push (i : ι) (wake : Option ι)
  | body (i : ι)
  | unlock (i : ι)
  /-- thread `i` wakes up though nothing notified it -/
  | spurious (i : ι)
  deriving DecidableEq, Repr

/-- A step of one thread; what needs the mutex is done by its holder only. -/
def step [Fintype ι] (s : St ι α) (a : Act ι α) : Option (St ι α) :=
  match a with
  | .call i call =>
    match s.place i with
    | .outside => some (s.goto i (.calling call))
    | _ => none
  | .lock i =>
    match s.mutex, s.place i with
    | none, .calling call => some (s.lock i (.inside call))
    | none, .woken => some (s.lock i .rechecking)
    | _, _ => none
  | .push i wake =>
    match s.place i with
    | .inside call =>
      if s.mutex = some i then
        call.pushed.bind fun newVal => (s.done i (.put newVal) (s.queue.push newVal)).notifyOne wake
      else none
    | _ => none
  | .body i =>
    if s.mutex = some i then
      match s.place i with
      | .inside call => s.body i call
      | .rechecking => some (s.popBody i)
      | _ => none
    else none
  | .unlock i =>
    match s.place i with
    | .leaving => if s.mutex = some i then some { s.goto i .outside with mutex := none } else none
    | _ => none
  | .spurious i => if (s.place i).asleep then some (s.goto i .woken) else none

/-! ## What a step can do -/

/-- The steps, each with what it requires and changes (`step_sound`). -/
inductive Step (s : St ι α) : Act ι α → St ι α → Prop
  | call {i call} : s.place i = .outside → Step s (.call i call) (s.goto i (.calling call))
  | lock {i call} : s.place i = .calling call → Step s (.lock i) (s.lock i (.inside call))
  | relock {i} : s.place i = .woken → Step s (.lock i) (s.lock i .rechecking)
  | pushAlone {i call newVal} : s.mutex = some i → s.place i = .inside call → (∀ j, s.place j ≠ .waiting) →
      Step s (.push i none) (s.done i (.put newVal) (s.queue.push newVal))
  | pushWake {i j call newVal} : s.mutex = some i → s.place i = .inside call → s.place j = .waiting →
      Step s (.push i (some j)) ((s.done i (.put newVal) (s.queue.push newVal)).goto j .woken)
  | wait {i} : s.mutex = some i → s.place i ≠ .waiting → s.queue.dataQueue = [] → Step s (.body i) (s.wait i)
  | take {i a queue} : s.mutex = some i → s.place i ≠ .waiting → s.queue.dataQueue = a :: queue.dataQueue →
      Step s (.body i) (s.done i (.take a) queue)
  | answer {i call op} : s.mutex = some i → s.place i = .inside call →
      SeqQueue.Step s.queue.dataQueue op s.queue.dataQueue → Step s (.body i) (s.done i op s.queue)
  | unlock {i} : s.place i = .leaving → Step s (.unlock i) { s.goto i .outside with mutex := none }
  | spurious {i} : s.place i = .waiting → Step s (.spurious i) (s.goto i .woken)

theorem asleep_iff {p : Place α} : p.asleep = true ↔ p = .waiting := by cases p <;> simp [Place.asleep]

theorem popBody_sound {s : St ι α} {i : ι} (hm : s.mutex = some i) (hp : s.place i ≠ .waiting) :
    Step s (.body i) (s.popBody i) := by
  unfold St.popBody
  split
  · next hq => exact .wait hm hp (tryPop_none hq)
  · next hq => exact .take hm hp (tryPop_some hq)

theorem body_sound {s s' : St ι α} {i : ι} {call : Call α} (hm : s.mutex = some i)
    (hp : s.place i = .inside call) (h : s.body i call = some s') : Step s (.body i) s' := by
  have hawake : s.place i ≠ .waiting := by simp [hp]
  unfold St.body at h
  split at h
  · cases h
  · cases h
  · cases h; exact popBody_sound hm hawake
  · split at h
    · next hq =>
      cases h
      have hnil := tryPop_none hq
      refine .answer hm hp ?_
      rw [hnil]
      exact .miss
    · next hq => cases h; exact .take hm hawake (tryPop_some hq)
  · cases h; exact .answer hm hp (.isEmpty _)
  · cases h; exact .answer hm hp (.copy _)

theorem push_sound [Fintype ι] {s s' : St ι α} {i : ι} {wake : Option ι} {call : Call α} {newVal : α}
    (hm : s.mutex = some i) (hp : s.place i = .inside call)
    (h : (s.done i (.put newVal) (s.queue.push newVal)).notifyOne wake = some s') : Step s (.push i wake) s' := by
  have hplace : ∀ j, (s.done i (.put newVal) (s.queue.push newVal)).place j = .waiting ↔ s.place j = .waiting := by
    intro j
    show (s.goto i .leaving).place j = .waiting ↔ _
    by_cases hji : j = i
    · subst hji; simp [hp]
    · rw [goto_place_of_ne s _ hji]
  unfold St.notifyOne at h
  split at h
  · split at h
    · next hnone =>
      cases h
      refine .pushAlone hm hp fun j hj => ?_
      have := hnone j
      rw [asleep_iff.mpr ((hplace j).mpr hj)] at this
      cases this
    · cases h
  · split at h
    · next hj => cases h; exact .pushWake hm hp ((hplace _).mp (asleep_iff.mp hj))
    · cases h

theorem step_sound [Fintype ι] {s s' : St ι α} {a : Act ι α} (h : step s a = some s') : Step s a s' := by
  unfold step at h
  split at h
  · split at h
    · next hp => cases h; exact .call hp
    · cases h
  · split at h
    · next hp => cases h; exact .lock hp
    · next hp => cases h; exact .relock hp
    · cases h
  · split at h
    · next call hp =>
      split at h
      · next hm =>
        obtain ⟨newVal, -, h⟩ := Option.bind_eq_some_iff.mp h
        exact push_sound hm hp h
      · cases h
    · cases h
  · split at h
    · next hm =>
      split at h
      · next hp => exact body_sound hm hp h
      · next hp => cases h; exact popBody_sound hm (by simp [hp])
      · cases h
    · cases h
  · split at h
    · next hp =>
      split at h
      · cases h; exact .unlock hp
      · cases h
    · cases h
  · split at h
    · next hp => cases h; exact .spurious (asleep_iff.mp hp)
    · cases h

end ThreadSafeQueue

end LinuxServer
