/-
Who gets the connections: with one notification for each connection the
children get them Round Robin.

A connection is accepted some time after its notification was sent, and
until then the level-triggered socket is reported again. In a run with
`OncePerConnection` the parent handles no such report. Then each child is
notified of its share of the connections in turn, and has accepted all of
that but what it still holds (`Shared`); and the first report it does handle
is one notification too many (`renotified`).
-/
import LinuxServer.ProcPool.ChildSound
import LinuxServer.ProcPool.Distribution
import LinuxServer.ProcPool.ParentTable

namespace LinuxServer.ProcPool

open Lts RoundRobin

/-! ## The parent, while no child exits -/

namespace Parent

variable {c : Cfg} {s s' : St} {a : Act}

/-- No child has exited. -/
def NoneGone (s : St) : Prop := ∀ k, s.status k = .unborn ∨ s.status k = .alive

theorem NoneGone.listed (h : NoneGone s) (hi : Inv c s) (hp : InParent s) {k : Nat} (hk : k < c.processNumber) :
    listed s k = true := by
  rw [hi.listed_iff]
  rcases h k with hu | ha
  · exact absurd hu (hi.forked hp k hk)
  · rw [ha]
    rfl

/-- With all children in the table the search ends where it starts. -/
theorem onListen_turn (h : NoneGone s) (hi : Inv c s) (hp : InParent s) (events : List (Int × Bool)) :
    (onListen c s events).subProcessCounter = (s.subProcessCounter + 1) % c.processNumber ∧
      (onListen c s events).calls = s.calls ++ [.notify s.subProcessCounter true] ∧
      (onListen c s events).status = s.status := by
  have hl := h.listed hi hp hi.counter
  have hsearch : cyclicSearch c.processNumber (Parent.listed s) s.subProcessCounter = s.subProcessCounter := by
    rcases cyclicSearch_spec (p := Parent.listed s) hi.counter with ⟨hstart, -⟩ | ⟨d, -, hres, -, hbefore⟩
    · exact hstart
    · cases d with
      | zero => rw [hres, Nat.add_zero, Nat.mod_eq_of_lt hi.counter]
      | succ d =>
        have := hbefore 0 (by omega)
        rw [Nat.add_zero, Nat.mod_eq_of_lt hi.counter, hl] at this
        cases this
  have hne : (s.subProcess s.subProcessCounter).mPid ≠ -1 := by simpa [Parent.listed] using hl
  have hopen : (s.subProcess s.subProcessCounter).pipeOpen = true := by
    rw [hi.listed_iff] at hl
    rw [(hi.live _ hl).2.2.1]
  simp [onListen, hsearch, hne, hopen]

/-- What a step of the parent does to the turn: nothing, or it notifies the
child whose turn it is. -/
inductive Turn (c : Cfg) (s s' : St) (a : Act) : Prop
  | rest (calls) : s'.subProcessCounter = s.subProcessCounter → s'.calls = s.calls ++ calls → notified calls = [] →
      Turn c s s' a
  | notify : AtListen c s a → s'.subProcessCounter = (s.subProcessCounter + 1) % c.processNumber →
      s'.calls = s.calls ++ [.notify s.subProcessCounter true] → Turn c s s' a

theorem Turn.quiet (hcounter : s'.subProcessCounter = s.subProcessCounter) (hcalls : s'.calls = s.calls) :
    Turn c s s' a :=
  .rest [] hcounter (by rw [hcalls, List.append_nil]) rfl

theorem step_turn (h : NoneGone s) (hi : Inv c s) (ha : ∀ k, a ≠ .childExit k) (hs : Step c s a s') :
    NoneGone s' ∧ Turn c s s' a := by
  cases hs with
  | @fork i pid _ _ _ _ =>
    refine ⟨fun k => ?_, .quiet rfl rfl⟩
    by_cases hk : k = i
    · subst hk
      exact .inr (Function.update_self ..)
    · show (forkChild s i pid).status k = _ ∨ (forkChild s i pid).status k = _
      simp only [forkChild, Function.update_of_ne hk]
      exact h k
  | childExit _ _ => exact absurd rfl (ha _)
  | @waitpid k _ _ _ _ hz =>
    rcases h k with hu | ha
    · rw [hz] at hu; cases hu
    · rw [hz] at ha; cases ha
  | @listen ev events n hpc hev =>
    have hp : InParent s := by simp [InParent, hpc]
    obtain ⟨hcounter, hcalls, hstatus⟩ := onListen_turn h hi hp events
    refine ⟨fun k => hstatus ▸ h k, .notify ?_ hcounter hcalls⟩
    simpa only [AtListen, hpc] using hev
  | @byte sig _ _ _ =>
    cases sig with
    | sigterm | sigint => exact ⟨h, .rest (killAll c s) rfl rfl (notified_killAll c s)⟩
    | sigchld | sigpipe | sigurg | sigalrm => exact ⟨h, .quiet rfl rfl⟩
  | raise _ =>
    unfold raiseSignal
    split
    · exact ⟨h, .quiet rfl rfl⟩
    split
    · exact ⟨h, .quiet rfl rfl⟩
    · exact ⟨h, .quiet rfl rfl⟩
  | setup _ | addsig _ | enter _ | deliver _ | epollWait _ _ _ | epollFail _ | leave _ _ | skip _ | recv _ _
  | bytesDone _ | waitpidNone _ _ => exact ⟨h, .quiet rfl rfl⟩

theorem handle_turn {n : Nat} (h : NoneGone s) (hi : Inv c s) (ha : AtListen c s (.handle n))
    (hs : step c s (.handle n) = some s') : s'.calls = s.calls ++ [.notify s.subProcessCounter true] := by
  obtain ⟨ev, events, hpc, heq⟩ := ha.handle
  obtain rfl : onListen c s events = s' := Option.some.inj (heq.symm.trans hs)
  exact (onListen_turn h hi (by simp [InParent, hpc]) events).2.1

end Parent

/-! ## The pool -/

namespace Pool

variable {c : Cfg} {s s' : St} {a : Act} {k : Nat}

/-- The number of notifications the parent has sent. -/
def sent (s : St) : Nat := (Parent.notified s.parent.calls).length

/-- The notifications child `k` has not called `accept` for. -/
def held (s : St) (k : Nat) : Nat := s.pipe k + (s.toAccept k).toNat

/-- The notifications no `accept` was called for. -/
def outstanding (c : Cfg) (s : St) : Nat := total c.parent.processNumber (held s)

/-- No child exits. -/
def NoExit (_ : St) : Act → Prop
  | .parent (.childExit _) => False
  | _ => True

/-- At a listen event more connections wait than notifications are
outstanding, and the pipe of the child whose turn it is has room; and
`accept` fails only when no connection waits. -/
def OncePerConnection (c : Cfg) (s : St) : Act → Prop
  | .parent a => Parent.AtListen c.parent s.parent a →
      outstanding c s < s.backlog ∧ s.pipe s.parent.subProcessCounter < c.pipeCap
  | .accept _ none => s.backlog = 0
  | _ => True

/-- Both conditions. -/
def InTurn (c : Cfg) (s : St) (a : Act) : Prop := NoExit s a ∧ OncePerConnection c s a

instance (s : St) (a : Act) : Decidable (NoExit s a) := by
  unfold NoExit
  split <;> infer_instance

instance (c : Cfg) (s : St) (a : Act) : Decidable (InTurn c s a) := by
  unfold InTurn OncePerConnection
  split <;> infer_instance

/-- Child `k` has accepted its share of the notifications in turn, but for
those it holds; and for each of these a connection waits. -/
structure Shared (c : Cfg) (s : St) : Prop where
  parent : Parent.Inv c.parent s.parent
  alive : Parent.NoneGone s.parent
  counter : s.parent.subProcessCounter = sent s % c.parent.processNumber
  lane : ∀ k < c.parent.processNumber,
    s.accepted k + held s k = (share c.parent.processNumber (sent s) k).length
  arrived : s.arrived = s.backlog + total c.parent.processNumber s.accepted
  covered : outstanding c s ≤ s.backlog

theorem Shared.lt (h : Shared c s) (hk : s.parent.status k = .alive) : k < c.parent.processNumber :=
  (h.parent.live k (by rw [hk]; rfl)).1

/-- Every notification was answered or is outstanding. -/
theorem Shared.sent_eq (h : Shared c s) :
    sent s = total c.parent.processNumber s.accepted + outstanding c s := by
  calc sent s
    _ = total c.parent.processNumber fun k => (share c.parent.processNumber (sent s) k).length :=
        (total_share c.parent.pos).symm
    _ = total c.parent.processNumber fun k => s.accepted k + held s k :=
        total_congr fun k hk => (h.lane k hk).symm
    _ = _ := total_add _ _ _

theorem Shared.frame (h : Shared c s) (hparent : s'.parent = s.parent) (hheld : ∀ k, held s' k = held s k)
    (haccepted : s'.accepted = s.accepted) (hcounts : s'.arrived + s.backlog = s.arrived + s'.backlog)
    (hle : s.backlog ≤ s'.backlog) : Shared c s' := by
  have hout : outstanding c s' = outstanding c s := total_congr fun k _ => hheld k
  have harr := h.arrived
  have hcov := h.covered
  refine ⟨hparent ▸ h.parent, hparent ▸ h.alive, ?_, fun k hk => ?_, ?_, ?_⟩
  · unfold sent
    rw [hparent]
    exact h.counter
  · unfold sent
    rw [hparent, haccepted, hheld]
    exact h.lane k hk
  · rw [haccepted]
    omega
  · omega

theorem foldl_sendTo (cap : Nat) {calls : List Parent.Call} (h : Parent.notified calls = []) (pipe : Nat → Nat) :
    calls.foldl (sendTo cap) pipe = pipe := by
  induction calls with
  | nil => rfl
  | cons call calls ih =>
    cases call with
    | notify k isOpen => simp [Parent.notified] at h
    | kill pid unreaped => exact ih h

theorem Shared.rest {p : Parent.St} {calls : List Parent.Call} (h : Shared c s)
    (hinv : Parent.Inv c.parent p) (halive : Parent.NoneGone p)
    (hcounter : p.subProcessCounter = s.parent.subProcessCounter) (hcalls : p.calls = s.parent.calls ++ calls)
    (hnone : Parent.notified calls = []) :
    Shared c { s with parent := p, pipe := (newCalls s p).foldl (sendTo c.pipeCap) s.pipe } := by
  have hnew : newCalls s p = calls := by simp [newCalls, hcalls]
  have hsent : Parent.notified p.calls = Parent.notified s.parent.calls := by
    rw [hcalls, Parent.notified_append, hnone, List.append_nil]
  rw [hnew, foldl_sendTo _ hnone]
  refine ⟨hinv, halive, ?_, fun k hk => ?_, h.arrived, h.covered⟩
  · show p.subProcessCounter = (Parent.notified p.calls).length % _
    rw [hcounter, hsent]
    exact h.counter
  · show s.accepted k + held s k = (share _ (Parent.notified p.calls).length k).length
    rw [hsent]
    exact h.lane k hk

theorem Shared.notify {p : Parent.St} (h : Shared c s) (hinv : Parent.Inv c.parent p) (halive : Parent.NoneGone p)
    (hcounter : p.subProcessCounter = (s.parent.subProcessCounter + 1) % c.parent.processNumber)
    (hcalls : p.calls = s.parent.calls ++ [.notify s.parent.subProcessCounter true])
    (hmore : outstanding c s < s.backlog) (hroom : s.pipe s.parent.subProcessCounter < c.pipeCap) :
    Shared c { s with parent := p, pipe := (newCalls s p).foldl (sendTo c.pipeCap) s.pipe } := by
  have hnew : (newCalls s p).foldl (sendTo c.pipeCap) s.pipe =
      Function.update s.pipe s.parent.subProcessCounter (s.pipe s.parent.subProcessCounter + 1) := by
    simp [newCalls, hcalls, sendTo, hroom]
  have hsent : (Parent.notified p.calls).length = sent s + 1 := by
    rw [hcalls, Parent.notified_append, List.length_append]
    rfl
  have hj := h.parent.counter
  rw [hnew]
  generalize hs' : { s with parent := p, pipe := _ } = s'
  have hself : held s' s.parent.subProcessCounter = held s s.parent.subProcessCounter + 1 := by
    rw [← hs']
    simp only [held, Function.update_self]
    omega
  have hother : ∀ k ≠ s.parent.subProcessCounter, held s' k = held s k := by
    intro k hk
    rw [← hs']
    simp only [held, Function.update_of_ne hk]
  have hsent' : sent s' = sent s + 1 := by
    rw [← hs']
    exact hsent
  have hout : outstanding c s' + 0 = outstanding c s + 1 := total_change hj hself hother
  subst hs'
  refine ⟨hinv, halive, ?_, fun k hk => ?_, h.arrived, by show outstanding c _ ≤ s.backlog; omega⟩
  · rw [hsent']
    show p.subProcessCounter = _
    rw [hcounter, h.counter, Nat.mod_add_mod]
  · rw [hsent']
    have hlane := h.lane k hk
    show s.accepted k + held _ k = _
    by_cases heq : k = s.parent.subProcessCounter
    · subst heq
      rw [hself]
      rw [h.counter] at hlane ⊢
      rw [share_succ_self, List.length_append, List.length_singleton]
      omega
    · rw [hother k heq, share_succ_of_ne (h.counter ▸ heq)]
      exact hlane

theorem Shared.accept (h : Shared c s) (hup : s.parent.status k = .alive) (hk : s.toAccept k = true)
    (hpos : 0 < s.backlog) (child : Nat → Child.St) :
    Shared c { s with
      toAccept := Function.update s.toAccept k false
      backlog := s.backlog - 1
      accepted := Function.update s.accepted k (s.accepted k + 1)
      child := child } := by
  have hlt := h.lt hup
  have harr := h.arrived
  have hcov := h.covered
  generalize hs' : { s with toAccept := _, backlog := _, accepted := _, child := child } = s'
  have hself : held s' k + 1 = held s k := by
    rw [← hs']
    simp only [held, Function.update_self, hk]
    rfl
  have hother : ∀ k' ≠ k, held s' k' = held s k' := by
    intro k' hne
    rw [← hs']
    simp only [held, Function.update_of_ne hne]
  have hout : outstanding c s' + 1 = outstanding c s + 0 := total_change hlt hself hother
  have hacc : total c.parent.processNumber s'.accepted + 0 = total c.parent.processNumber s.accepted + 1 := by
    refine total_change hlt ?_ fun k' hne => ?_
    · rw [← hs']
      exact Function.update_self ..
    · rw [← hs']
      exact Function.update_of_ne hne ..
  have hlane : ∀ k', s'.accepted k' + held s' k' = s.accepted k' + held s k' := by
    intro k'
    by_cases heq : k' = k
    · subst heq
      rw [← hself, ← hs']
      simp only [Function.update_self]
      omega
    · rw [hother k' heq, ← hs']
      simp only [Function.update_of_ne heq]
  subst hs'
  refine ⟨h.parent, h.alive, h.counter, fun k' hk' => ?_, ?_, ?_⟩
  · rw [hlane]
    exact h.lane k' hk'
  · show s.arrived = s.backlog - 1 + total _ _
    omega
  · show outstanding c _ ≤ s.backlog - 1
    omega

/-- A child that is to call `accept` finds a connection. -/
theorem Shared.waits (h : Shared c s) (hup : s.parent.status k = .alive) (hk : s.toAccept k = true) :
    0 < s.backlog := by
  have hlt := h.lt hup
  have hheld : held s k ≤ outstanding c s := le_total _ hlt
  have hpos : 0 < held s k := by simp [held, hk]
  have := h.covered
  omega

theorem step_shared (h : Shared c s) (hok : InTurn c s a) (hs : Step c s a s') : Shared c s' := by
  cases hs with
  | arrive =>
    refine h.frame rfl (fun _ => rfl) rfl ?_ (Nat.le_succ _)
    show s.arrived + 1 + s.backlog = s.arrived + (s.backlog + 1)
    omega
  | @parent a p hp =>
    have hps := Parent.step_sound hp
    have hexit : ∀ k, a ≠ .childExit k := fun k hk => by
      subst hk
      exact hok.1
    obtain ⟨halive, hturn⟩ := Parent.step_turn h.alive h.parent hexit hps
    have hinv := Parent.step_inv h.parent hps
    cases hturn with
    | rest calls hcounter hcalls hnone => exact h.rest hinv halive hcounter hcalls hnone
    | notify hat hcounter hcalls =>
      obtain ⟨hmore, hroom⟩ := hok.2 hat
      exact h.notify hinv halive hcounter hcalls hmore hroom
  | @recv k n _ hk hn =>
    refine h.frame rfl (fun k' => ?_) rfl rfl (Nat.le_refl _)
    by_cases heq : k' = k
    · subst heq
      simp [held, hn, hk]
    · simp only [held, Function.update_of_ne heq]
  | refused _ hup hk =>
    have := h.waits hup hk
    have hz : s.backlog = 0 := hok.2
    omega
  | accept child hup hk hpos => exact h.accept hup hk hpos child
  | child _ _ => exact h.frame rfl (fun _ => rfl) rfl rfl (Nat.le_refl _)

theorem init_shared (c : Cfg) : Shared c init := by
  refine ⟨Parent.init_inv _, fun _ => .inl rfl, ?_, fun _ _ => rfl, ?_, ?_⟩
  · exact (Nat.zero_mod _).symm
  · simp [init, total]
  · simp [init, outstanding, total, held]

theorem reach_shared (h : Reach (step c) (InTurn c) init s) : Shared c s :=
  h.invariant (init_shared c) fun _ _ _ hi hok hs => step_shared hi hok (step_sound hs)

/-- **Round Robin of connections.** For every number of children, in a run
where no child exits and with `OncePerConnection`: no more notifications were
sent than connections arrived; and when all are consumed and no connection
waits, no child has accepted two connections more than another. -/
theorem distribution_fair (h : Reach (step c) (InTurn c) init s) :
    sent s ≤ s.arrived ∧
    (s.backlog = 0 → (∀ k < c.parent.processNumber, s.pipe k = 0) →
      ∀ j < c.parent.processNumber, ∀ k < c.parent.processNumber, s.accepted j ≤ s.accepted k + 1) := by
  have hs := reach_shared h
  have hsent := hs.sent_eq
  have harr := hs.arrived
  have hcov := hs.covered
  refine ⟨by omega, fun hzero _ j hj k hk => ?_⟩
  have hheld : held s k = 0 := by
    have := le_total (held s) hk
    unfold outstanding at hcov
    omega
  calc s.accepted j
    _ ≤ (share c.parent.processNumber (sent s) j).length := by
        rw [← hs.lane j hj]
        exact Nat.le_add_right _ _
    _ ≤ (share c.parent.processNumber (sent s) k).length + 1 := length_share_le hj hk
    _ = s.accepted k + 1 := by rw [← hs.lane k hk, hheld, Nat.add_zero]

/-- The first listen event with no more connections waiting than
notifications outstanding is one notification too many. -/
theorem renotified {n : Nat} (h : Reach (step c) (InTurn c) init s)
    (ha : Parent.AtListen c.parent s.parent (.handle n)) (hout : ¬ outstanding c s < s.backlog)
    (hs : step c s (.parent (.handle n)) = some s') : s'.arrived < sent s' := by
  have hsh := reach_shared h
  have hsent := hsh.sent_eq
  have harr := hsh.arrived
  cases step_sound hs with
  | parent hp =>
    show s.arrived < (Parent.notified _).length
    rw [Parent.handle_turn hsh.alive hsh.parent ha hp, Parent.notified_append, List.length_append]
    show s.arrived < sent s + 1
    omega
  | child _ hne => exact absurd rfl (hne _)

/-- Two children, with room for 8 notifications in a pipe. -/
def demoCfg : Cfg := ⟨Parent.demoCfg, fun _ => Child.demoCfg, 8⟩

/-- The parent forks its children and comes to its loop. -/
def start : List Act :=
  [.parent (.fork 100), .parent (.fork 101), .parent .setup, .parent .addsig, .parent .addsig, .parent .addsig,
   .parent .enter]

/-- A round of the parent that finds a connection waiting. -/
def listenRound : List Act := [.parent (.epollWait [(3, true)]), .parent (.handle 0)]

/-- Child `k` takes a notification, and a connection as descriptor `fd` if one waits. -/
def childRound (k : Nat) (fd : Option Int) : List Act :=
  [.child k (.epollWait [(7, true)]), .recv k, .accept k (fd.map fun fd => (fd, ⟨1, 80⟩))]

/-- Two connections arrive one after the other, and each is reported once. -/
def onceEach : List Act :=
  start ++ [.arrive] ++ listenRound ++ [.arrive] ++ listenRound ++ childRound 1 (some 11) ++ childRound 0 (some 11)

theorem onceEach_run : (runWhere (step demoCfg) (InTurn demoCfg) init onceEach).isSome := by decide +kernel

/-- `distribution_fair` at the end of `onceEach`. -/
theorem distribution_fair_onceEach :
    let s := (runWhere (step demoCfg) (InTurn demoCfg) init onceEach).get onceEach_run
    s.backlog = 0 ∧ s.accepted 0 = 1 ∧ s.accepted 1 = 1 ∧ sent s ≤ s.arrived ∧
    (s.backlog = 0 → (∀ k < demoCfg.parent.processNumber, s.pipe k = 0) →
      ∀ j < demoCfg.parent.processNumber, ∀ k < demoCfg.parent.processNumber, s.accepted j ≤ s.accepted k + 1) :=
  ⟨by decide +kernel, by decide +kernel, by decide +kernel, distribution_fair (reachWhere_get onceEach_run)⟩

/-- Each of two connections is reported twice before a child accepts it. -/
def reportedTwice : List Act :=
  start ++ [.arrive] ++ listenRound ++ listenRound ++ childRound 0 (some 11) ++ childRound 1 none ++
  [.arrive] ++ listenRound ++ listenRound ++ childRound 0 (some 12) ++ childRound 1 none

theorem reportedTwice_run : (runWhere (step demoCfg) NoExit init reportedTwice).isSome := by decide +kernel

/-- **A connection that waits is notified again.** Two connections arrived
and four notifications were sent; all are consumed and no connection waits,
and child 0 has both connections and child 1 none. -/
theorem reported_twice_unfair :
    ∃ s, Reach (step demoCfg) NoExit init s ∧ s.arrived = 2 ∧ sent s = 4 ∧
      s.backlog = 0 ∧ s.pipe 0 = 0 ∧ s.pipe 1 = 0 ∧ s.accepted 0 = 2 ∧ s.accepted 1 = 0 :=
  ⟨_, reachWhere_get reportedTwice_run, by decide +kernel⟩

end Pool

end LinuxServer.ProcPool
