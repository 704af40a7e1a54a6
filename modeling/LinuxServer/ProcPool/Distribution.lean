/-
The process pool as a whole: the parent and its children around the
listening socket they share.

A connection that arrives waits at that socket until a child accepts it. The
parent never accepts. For a listen event it writes a notification to the
pipe of one child, which reads it and then calls `accept`: two steps here,
with anything in between. The socket is registered level-triggered, so
`epoll_wait` can report it again and again while a connection waits.
-/
import LinuxServer.Lib.RoundRobin
import LinuxServer.ProcPool.Child
import LinuxServer.ProcPool.ParentSelect

namespace LinuxServer.ProcPool.Pool

open Lts

/-- The parent, child `k` for each `k`, and the number of notifications a pipe holds. -/
structure Cfg where
  parent : Parent.Cfg
  child : Nat → Child.Cfg
  pipeCap : Nat

/-- `pipe k` is the number of notifications unread in the pipe of child `k`,
and `toAccept k` is set while it has read one and not called `accept`.
`backlog` connections wait at the listening socket, of the `arrived`;
`accepted k` were returned by the `accept` of child `k`. -/
structure St where
  parent : Parent.St
  child : Nat → Child.St
  pipe : Nat → Nat
  toAccept : Nat → Bool
  backlog : Nat
  arrived : Nat
  accepted : Nat → Nat

def init : St where
  parent := Parent.init
  child _ := Child.init
  pipe _ := 0
  toAccept _ := false
  backlog := 0
  arrived := 0
  accepted _ := 0

inductive Act
  /-- a connection is established -/
  | arrive
  | parent (a : Parent.Act)
  /-- child `k` handles its pipe's event: the `recv` -/
  | recv (k : Nat)
  /-- then the `accept`, with what it returns -/
  | accept (k : Nat) (acc : Option (Int × Child.SockAddrIn))
  /-- any other step of child `k` -/
  | child (k : Nat) (a : Child.Act)
  deriving DecidableEq, Repr

/-- `sizeof(new_con)`. -/
def notificationLen : Int := 4

/-- The parent's `send` on the pipe of a child, or another call; full pipes take nothing. -/
def sendTo (cap : Nat) (pipe : Nat → Nat) : Parent.Call → Nat → Nat
  | .notify k true => if pipe k < cap then Function.update pipe k (pipe k + 1) else pipe
  | .notify _ false | .kill _ _ => pipe

/-- The calls of the parent's step to `p`. -/
def newCalls (s : St) (p : Parent.St) : List Parent.Call := p.calls.drop s.parent.calls.length

/-- Child `k` is forked and in its loop. -/
def Up (s : St) (k : Nat) : Prop := s.parent.status k = .alive ∧ (s.child k).pc = .running

/-- The next event of the batch is the pipe's. -/
def atPipe (c : Child.Cfg) (s : Child.St) : Bool :=
  match s.batch with
  | ev :: _ => ev.sockfd == c.pipefd && ev.epollin
  | [] => false

/-- The parent's `epoll_wait` reports the listening socket only while a connection waits there. -/
def ParentSees (c : Cfg) (s : St) : Parent.Act → Prop
  | .epollWait events => c.parent.listenfd ∈ events.map (·.1) → 0 < s.backlog
  | _ => True

/-- A child's `epoll_wait` reports its pipe only with something in it; the pipe's event is for `recv`. -/
def ChildSees (c : Cfg) (s : St) (k : Nat) : Child.Act → Prop
  | .epollWait events => (c.child k).pipefd ∈ events.map (·.1) → 0 < s.pipe k
  | .handle _ => atPipe (c.child k) (s.child k) = false
  | .epollIntr | .epollFail | .leave => True

instance (s : St) (k : Nat) : Decidable (Up s k) := inferInstanceAs (Decidable (_ ∧ _))

instance (c : Cfg) (s : St) (a : Parent.Act) : Decidable (ParentSees c s a) := by
  unfold ParentSees
  split <;> infer_instance

instance (c : Cfg) (s : St) (k : Nat) (a : Child.Act) : Decidable (ChildSees c s k a) := by
  unfold ChildSees
  split <;> infer_instance

def parentStep (c : Cfg) (s : St) (a : Parent.Act) : Option St :=
  if ParentSees c s a then
    (Parent.step c.parent s.parent a).map fun p =>
      { s with parent := p, pipe := (newCalls s p).foldl (sendTo c.pipeCap) s.pipe }
  else none

/-- Child `k` takes its own step `a`. -/
def childStep (c : Cfg) (s : St) (k : Nat) (a : Child.Act) : Option St :=
  (Child.step (c.child k) (s.child k) a).map fun ch => { s with child := Function.update s.child k ch }

/-- The `recv` on the pipe; an empty pipe ends the event. -/
def recvPipe (c : Cfg) (s : St) (k : Nat) : Option St :=
  match s.pipe k with
  | 0 => childStep c s k (.handle (.pipe (-1) none))
  | n + 1 => some { s with pipe := Function.update s.pipe k n, toAccept := Function.update s.toAccept k true }

/-- The rest of the event, from the `accept` on. -/
def acceptNext (c : Cfg) (s : St) (k : Nat) (acc : Option (Int × Child.SockAddrIn)) : Option St :=
  let s := { s with toAccept := Function.update s.toAccept k false }
  match acc with
  | none => childStep c s k (.handle (.pipe notificationLen none))
  | some acc =>
    if 0 < s.backlog then
      childStep c { s with backlog := s.backlog - 1, accepted := Function.update s.accepted k (s.accepted k + 1) } k
        (.handle (.pipe notificationLen (some acc)))
    else none

def step (c : Cfg) (s : St) (a : Act) : Option St :=
  match a with
  | .arrive => some { s with backlog := s.backlog + 1, arrived := s.arrived + 1 }
  | .parent a => parentStep c s a
  | .recv k =>
    if Up s k ∧ s.toAccept k = false ∧ atPipe (c.child k) (s.child k) = true then recvPipe c s k else none
  | .accept k acc => if Up s k ∧ s.toAccept k = true then acceptNext c s k acc else none
  | .child k a => if Up s k ∧ s.toAccept k = false ∧ ChildSees c s k a then childStep c s k a else none

/-! ## What a step can do -/

/-- The steps, each with what it requires and changes (`step_sound`), but
for what a child does with its own state. -/
inductive Step (c : Cfg) (s : St) : Act → St → Prop
  | arrive : Step c s .arrive { s with backlog := s.backlog + 1, arrived := s.arrived + 1 }
  | parent {a p} : Parent.step c.parent s.parent a = some p → Step c s (.parent a)
      { s with parent := p, pipe := (newCalls s p).foldl (sendTo c.pipeCap) s.pipe }
  | recv {k n} : s.parent.status k = .alive → s.toAccept k = false → s.pipe k = n + 1 → Step c s (.recv k)
      { s with pipe := Function.update s.pipe k n, toAccept := Function.update s.toAccept k true }
  | refused {k} (child) : s.parent.status k = .alive → s.toAccept k = true → Step c s (.accept k none)
      { s with toAccept := Function.update s.toAccept k false, child := child }
  | accept {k acc} (child) : s.parent.status k = .alive → s.toAccept k = true → 0 < s.backlog →
      Step c s (.accept k (some acc))
        { s with
          toAccept := Function.update s.toAccept k false
          backlog := s.backlog - 1
          accepted := Function.update s.accepted k (s.accepted k + 1)
          child := child }
  | child {a} (child) : (∀ a', a ≠ .parent a') → Step c s a { s with child := child }

variable {c : Cfg} {s s' : St} {a : Act} {k : Nat}

theorem childStep_eq {a : Child.Act} (h : childStep c s k a = some s') :
    ∃ child, s' = { s with child := child } := by
  obtain ⟨ch, -, rfl⟩ := Option.map_eq_some_iff.mp h
  exact ⟨_, rfl⟩

theorem parentStep_sound {a : Parent.Act} (h : parentStep c s a = some s') : Step c s (.parent a) s' := by
  unfold parentStep at h
  split at h
  · obtain ⟨p, hp, rfl⟩ := Option.map_eq_some_iff.mp h
    exact .parent hp
  · cases h

theorem recvPipe_sound (hup : s.parent.status k = .alive) (hk : s.toAccept k = false)
    (h : recvPipe c s k = some s') : Step c s (.recv k) s' := by
  unfold recvPipe at h
  split at h
  · obtain ⟨child, rfl⟩ := childStep_eq h
    exact .child child (by simp)
  · next n hn =>
    cases h
    exact .recv hup hk hn

theorem acceptNext_sound {acc : Option (Int × Child.SockAddrIn)} (hup : s.parent.status k = .alive)
    (hk : s.toAccept k = true) (h : acceptNext c s k acc = some s') : Step c s (.accept k acc) s' := by
  unfold acceptNext at h
  simp only at h
  split at h
  · obtain ⟨child, rfl⟩ := childStep_eq h
    exact .refused child hup hk
  · split at h
    · next hpos =>
      obtain ⟨child, rfl⟩ := childStep_eq h
      exact .accept child hup hk hpos
    · cases h

theorem step_sound (h : step c s a = some s') : Step c s a s' := by
  unfold step at h
  split at h
  · cases h; exact .arrive
  · exact parentStep_sound h
  · split at h
    · next hg => exact recvPipe_sound hg.1.1 hg.2.1 h
    · cases h
  · split at h
    · next hg => exact acceptNext_sound hg.1.1 hg.2 h
    · cases h
  · split at h
    · obtain ⟨child, rfl⟩ := childStep_eq h
      exact .child child (by simp)
    · cases h

end LinuxServer.ProcPool.Pool
