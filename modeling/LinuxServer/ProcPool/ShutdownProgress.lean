/-
The shutdown comes to its end: where the pool's own steps are over, every
child is reaped and the parent has left its loop; and they are soon over.

`work` adds up what is left: each signal pending, in a pipe or in hand, each
child not reaped, and where the parent is. A signal costs less at each place
than at the one before, a child less than the SIGCHLD it dies with, and a
byte of SIGTERM in the parent's hand as much as the signals it sends.
-/
import Mathlib.Algebra.Order.BigOperators.Group.Finset
import LinuxServer.Lib.RoundRobin
import LinuxServer.ProcPool.Shutdown

namespace LinuxServer.ProcPool.Shutdown

open Lts Parent RoundRobin

/-- The pool's own steps on the way to its end: those that take a signal
further. The parent's `epoll_wait` counts when it has the signal pipe to
report. -/
def Own (c : Cfg) (s : Pool) : Act → Prop
  | .parent (.deliver _) | .parent (.handle _) | .parent .nextByte | .parent (.waitpid _) | .parent .waitpidNone
  | .parent .leave => True
  | .parent (.epollWait events) => events = [(c.sigPipefd, true)] ∧ s.parent.sigPipe ≠ []
  | .child _ .addsig | .child _ (.deliver _) | .child _ .read | .child _ .exit => True
  | .parent (.fork _) | .parent .setup | .parent .addsig | .parent .enter | .parent (.childExit _)
  | .parent (.raise _) | .parent .epollFail | .child _ (.raise _) | .child _ .die => False

instance (c : Cfg) (s : Pool) (a : Act) : Decidable (Own c s a) := by
  unfold Own; split <;> infer_instance

variable {c : Cfg} {s s' : Pool} {a : Act} {k : Nat} {sig : Signal} {p p' : Parent.St}

/-! ## Where no step is left -/

/-- A child on its way out can go on. -/
theorem child_moves (hst : s.parent.status k = .alive) (hk : k < c.processNumber) (h : Coming (s.child k)) :
    ∃ a, Own c s (.child k a) ∧ (step c s (.child k a)).isSome := by
  have hstep : ∀ a, step c s (.child k a) = childStep c s k a := fun a => if_pos ⟨hk, hst⟩
  cases hh : (s.child k).handlers with
  | cons sig handlers => exact ⟨.addsig, trivial, by simp [hstep, childStep, hh]⟩
  | nil =>
    rcases h with hp | ⟨b, hb, -⟩ | hstop
    · refine ⟨.deliver .sigterm, trivial, ?_⟩
      rw [hstep, childStep, if_pos hp]
      simp only
      split
      · rfl
      · rfl
    · have hne : (s.child k).sigPipe ≠ [] := List.ne_nil_of_mem hb
      exact ⟨.read, trivial, by simp [hstep, childStep, hh, hne]⟩
    · exact ⟨.exit, trivial, by simp [hstep, childStep, hh, hstop]⟩

/-- In its loop the parent can go on, unless it waits with nothing in its signal pipe. -/
theorem parent_moves (hloop : InLoop s.parent.pc = true)
    (hbusy : s.parent.pc = .events [] → s.parent.stop = true ∨ s.parent.sigPipe ≠ []) :
    ∃ a, Own c s (.parent a) ∧ (step c s (.parent a)).isSome := by
  have hstep : ∀ a, (∀ k, a ≠ .childExit k) → (Parent.step c s.parent a).isSome →
      (step c s (.parent a)).isSome := by
    intro a ha h
    cases a with
    | childExit k => exact absurd rfl (ha k)
    | _ => exact Option.isSome_map.trans h
  cases hpc : s.parent.pc with
  | forking i | setup handlers | left e => simp [hpc, InLoop] at hloop
  | sigBytes bytes events =>
    refine ⟨.nextByte, trivial, hstep _ (by simp) ?_⟩
    cases bytes <;> simp [Parent.step, hpc]
  | reaping bytes events =>
    by_cases hz : ∀ k < c.processNumber, s.parent.status k ≠ .zombie
    · exact ⟨.waitpidNone, trivial, hstep _ (by simp) (by simpa [Parent.step, hpc] using hz)⟩
    · simp only [not_forall, not_not] at hz
      obtain ⟨k, hk, hz⟩ := hz
      exact ⟨.waitpid k, trivial, hstep _ (by simp) (by simp [Parent.step, hpc, hk, hz])⟩
  | events events =>
    cases events with
    | nil =>
      cases hstop : s.parent.stop with
      | true => exact ⟨.leave, trivial, hstep _ (by simp) (by simp [Parent.step, hpc, hstop])⟩
      | false =>
        have hne := (hbusy hpc).resolve_left (by simp [hstop])
        exact ⟨.epollWait [(c.sigPipefd, true)], ⟨rfl, hne⟩, hstep _ (by simp)
          (by simp [Parent.step, hpc, hstop, Reportable])⟩
    | cons ev events =>
      -- one byte is read when it is the signal pipe's event and there is one
      refine ⟨.handle (if s.parent.sigPipe = [] then 0 else 1), trivial, hstep _ (by simp) ?_⟩
      simp only [Parent.step, hpc, handleEvent]
      split
      · rfl
      split
      · by_cases he : s.parent.sigPipe = []
        · simp [he]
        · have := List.length_pos_iff.mpr he
          simp [he]
          omega
      · rfl

/-- **Where no step is left the shutdown is complete.** -/
theorem complete_of_stuck (h : Reach (step c) (Orderly c) init s) (hk : s.killed = true)
    (hstuck : ∀ a, Own c s a → step c s a = none) :
    s.parent.pc = .left .stopped ∧ ∀ k < c.processNumber, s.parent.status k = .reaped := by
  have hr := reach_parent h
  have hp := Parent.reach_inv hr.any
  have hsig := Parent.reach_sigInv hr
  have hinv := reach_inv h
  have hno : ∀ a, Own c s a → ¬ (step c s a).isSome := by
    intro a ho hs
    rw [hstuck a ho] at hs
    cases hs
  have hdead : ∀ k, s.parent.status k ≠ .alive := by
    intro k hst
    have hkN := (hp.live k (by simp [hst, Status.unreaped])).1
    obtain ⟨a, ho, hs⟩ := child_moves hst hkN (hinv.coming hk k hst)
    exact hno _ ho hs
  rcases (hinv.down hk).1 with hloop | hleft
  swap
  · exact ⟨hleft, hp.stop (hp.stopped hleft)⟩
  exfalso
  have hidle : s.parent.pc = .events [] ∧ s.parent.stop = false ∧ s.parent.sigPipe = [] := by
    by_contra hbusy
    obtain ⟨a, ho, hs⟩ := parent_moves (c := c) hloop fun hpc => by
      by_contra hno
      simp only [not_or, Bool.not_eq_true, not_not] at hno
      exact hbusy ⟨hpc, hno.1, hno.2⟩
    exact hno _ ho hs
  obtain ⟨hpc, hstop, hpipe⟩ := hidle
  have hpend : ¬ s.parent.pending .sigchld = true := fun hpend =>
    hno (.parent (.deliver .sigchld)) trivial (by simp [step, Parent.step, hpend])
  have hreaped : ∀ k < c.processNumber, s.parent.status k = .reaped := by
    intro k hkN
    cases hst : s.parent.status k with
    | reaped => rfl
    | alive => exact absurd hst (hdead k)
    | unborn => exact absurd hst (hp.forked (by simp [InParent, hpc]) k hkN)
    | zombie =>
      rcases hsig.reported (by simp [hpc]) k hst with h | h | h
      · exact absurd h hpend
      · rw [hpipe] at h; cases h
      · rw [hpc] at h; cases h
  have := hsig.stop (.inl ⟨_, hpc⟩) hreaped
  rw [hstop] at this
  cases this

/-! ## How much is left -/

/-- Every signal there is. -/
def signals : List Signal := [.sigchld, .sigterm, .sigint, .sigpipe, .sigurg, .sigalrm]

/-- How many signals are pending. -/
def countPending (pending : Signal → Bool) : Nat := signals.countP pending

theorem countPending_clear {pending : Signal → Bool} (h : pending sig = true) :
    countPending (Function.update pending sig false) + 1 = countPending pending := by
  unfold countPending signals
  cases sig <;> simp [List.countP_cons, h] <;> omega

theorem countPending_set (pending : Signal → Bool) (sig : Signal) :
    countPending (Function.update pending sig true) ≤ countPending pending + 1 := by
  unfold countPending signals
  cases sig <;> simp [List.countP_cons] <;> omega

/-- A byte in the parent's hand may be SIGTERM's, and leave one signal pending in each child. -/
def handWork (c : Cfg) : Nat := 2 * c.processNumber + 2

/-- A byte in the parent's signal pipe. -/
def byteWork (c : Cfg) : Nat := handWork c + 3

/-- A signal pending in the parent. -/
def pendingWork (c : Cfg) : Nat := byteWork c + 4

/-- An event of the signal pipe, and any other. -/
def eventWork (c : Cfg) (ev : Int × Bool) : Nat :=
  if ev.1 ≠ c.listenfd ∧ ev.1 = c.sigPipefd ∧ ev.2 = true then 2 else 4

def batchWork (c : Cfg) (events : List (Int × Bool)) : Nat := (events.map (eventWork c)).sum

/-- At the top of the loop there is an `epoll_wait` to make if the signal pipe has something. -/
def idleWork (p : Parent.St) : Nat := if p.sigPipe = [] then 0 else 3

def pcWork (c : Cfg) (p : Parent.St) : Pc → Nat
  | .events [] => 1 + idleWork p
  | .events (ev :: events) => 1 + batchWork c (ev :: events)
  | .sigBytes bytes events => 5 + batchWork c events + handWork c * bytes.length
  | .reaping bytes events => 6 + batchWork c events + handWork c * bytes.length
  | .forking _ | .setup _ | .left _ => 0

def parentWork (c : Cfg) (p : Parent.St) : Nat :=
  pcWork c p p.pc + pendingWork c * countPending p.pending + byteWork c * p.sigPipe.length

/-- What the signals of a child still have to go through. -/
def childWork (ch : Child) : Nat :=
  2 * countPending ch.pending + ch.handlers.length + if ch.sigPipe = [] then 0 else 1

/-- A child alive will be a SIGCHLD, and a zombie is to be reaped. -/
def statusWork (c : Cfg) (ch : Child) : Status → Nat
  | .alive => pendingWork c + 2 + childWork ch
  | .zombie => 1
  | .unborn | .reaped => 0

/-- What is left for the pool to do. -/
def work (c : Cfg) (s : Pool) : Nat :=
  total c.processNumber (fun k => statusWork c (s.child k) (s.parent.status k)) + parentWork c s.parent

/-! ## What each step uses up -/

theorem pcWork_events (c : Cfg) (p : Parent.St) (events : List (Int × Bool)) :
    1 ≤ pcWork c p (.events events) ∧ pcWork c p (.events events) ≤ 1 + batchWork c events + idleWork p := by
  cases events with
  | nil => simp [pcWork, batchWork]
  | cons ev events =>
    simp only [pcWork]
    omega

theorem idleWork_le (p : Parent.St) : idleWork p ≤ 3 := by
  unfold idleWork
  split <;> omega

theorem pcWork_pop (c : Cfg) (p p' : Parent.St) (ev : Int × Bool) (events : List (Int × Bool))
    (h : idleWork p' < eventWork c ev) : pcWork c p' (.events events) < pcWork c p (.events (ev :: events)) := by
  have := (pcWork_events c p' events).2
  simp only [pcWork, batchWork, List.map_cons, List.sum_cons] at this ⊢
  omega

theorem parentWork_deliver (h : p.pending sig = true) : parentWork c (sigHandler c p sig) < parentWork c p := by
  have hcount := countPending_clear h
  have hlen : (Fifo.trySend c.sigPipeCap sig p.sigPipe).length ≤ p.sigPipe.length + 1 := by
    unfold Fifo.trySend
    split <;> simp
  have hpc : pcWork c (sigHandler c p sig) p.pc ≤ pcWork c p p.pc + 3 := by
    have := idleWork_le (sigHandler c p sig)
    cases p.pc with
    | events events =>
      cases events with
      | nil =>
        simp only [pcWork]
        omega
      | cons ev events => exact Nat.le_add_right _ _
    | forking _ | setup _ | sigBytes _ _ | reaping _ _ | left _ => exact Nat.le_add_right _ _
  have hbytes := Nat.mul_le_mul_left (byteWork c) hlen
  rw [Nat.mul_add_one] at hbytes
  show pcWork c (sigHandler c p sig) p.pc +
      pendingWork c * countPending (Function.update p.pending sig false) +
      byteWork c * (Fifo.trySend c.sigPipeCap sig p.sigPipe).length < _
  rw [parentWork, ← hcount, Nat.mul_add_one]
  have : pendingWork c = byteWork c + 4 := rfl
  omega

theorem parentWork_same (hpend : p'.pending = p.pending) (hpipe : p'.sigPipe = p.sigPipe)
    (h : pcWork c p' p'.pc < pcWork c p p.pc) : parentWork c p' < parentWork c p := by
  unfold parentWork
  rw [hpend, hpipe]
  omega

theorem parentWork_pop {ev : Int × Bool} {events : List (Int × Bool)} (hpc : p.pc = .events (ev :: events))
    (hpc' : p'.pc = .events events ∨ p'.pc = .events []) (hpend : p'.pending = p.pending)
    (hpipe : p'.sigPipe = p.sigPipe) (hev : eventWork c ev = 4 ∨ p.sigPipe = []) :
    parentWork c p' < parentWork c p := by
  have hidle : idleWork p' < eventWork c ev := by
    rcases hev with hev | hnil
    · have := idleWork_le p'
      omega
    · have : 0 < eventWork c ev := by
        unfold eventWork
        split <;> omega
      simpa [idleWork, hpipe, hnil] using this
  have hbatch : batchWork c (ev :: events) = eventWork c ev + batchWork c events := by
    simp [batchWork]
  refine parentWork_same hpend hpipe ?_
  rcases hpc' with hpc' | hpc'
  · rw [hpc, hpc']
    exact pcWork_pop c p p' ev events hidle
  · rw [hpc, hpc']
    simp only [pcWork, hbatch]
    omega

theorem handle_pc {n : Nat} (h : Parent.step c p (.handle n) = some p') :
    ∃ ev events, p.pc = .events (ev :: events) ∧ handleEvent c p ev events n = some p' := by
  unfold Parent.step at h
  cases hpc : p.pc with
  | events events =>
    cases events with
    | nil => simp [hpc] at h
    | cons ev events =>
      simp only [hpc] at h
      exact ⟨ev, events, rfl, h⟩
  | forking _ | setup _ | sigBytes _ _ | reaping _ _ | left _ => simp [hpc] at h

/-- Handling an event leaves less to do: of the signal pipe's it reads a byte, or finds none. -/
theorem parentWork_handle {n : Nat} (h : Parent.step c p (.handle n) = some p') :
    parentWork c p' < parentWork c p ∧ p'.status = p.status := by
  obtain ⟨ev, events, hpc, h⟩ := handle_pc h
  unfold handleEvent at h
  split at h
  · next hl =>
    have hev : eventWork c ev = 4 := if_neg fun he => he.1 hl
    cases h
    unfold onListen
    simp only
    split
    · exact ⟨parentWork_pop hpc (.inr rfl) rfl rfl (.inl hev), rfl⟩
    · exact ⟨parentWork_pop hpc (.inl rfl) rfl rfl (.inl hev), rfl⟩
  next hl =>
  split at h
  · next hsig =>
    split at h
    · split at h
      · next hnil =>
        cases h
        exact ⟨parentWork_pop hpc (.inl rfl) rfl rfl (.inr hnil), rfl⟩
      · cases h
    next hn =>
    split at h
    · next hle =>
      cases h
      refine ⟨?_, rfl⟩
      have hev : eventWork c ev = 2 := if_pos ⟨hl, hsig⟩
      have hbatch : batchWork c (ev :: events) = 2 + batchWork c events := by
        rw [← hev]
        rfl
      have htake : (p.sigPipe.take n).length = n := by simpa using hle.2
      have hsplit : byteWork c * p.sigPipe.length = byteWork c * n + byteWork c * (p.sigPipe.length - n) := by
        rw [← Nat.mul_add]
        congr 1
        omega
      have hbytes : byteWork c * n = handWork c * n + 3 * n := Nat.add_mul ..
      simp only [parentWork, hpc, pcWork, hbatch, htake, List.length_drop]
      omega
    · cases h
  · next hsig =>
    have hev : eventWork c ev = 4 := if_neg fun he => hsig he.2
    cases h
    exact ⟨parentWork_pop hpc (.inl rfl) rfl rfl (.inl hev), rfl⟩

theorem work_parent (hstatus : p.status = s.parent.status) (h : parentWork c p < parentWork c s.parent) :
    work c { s with parent := p } < work c s := by
  unfold work
  simp only [hstatus]
  omega

theorem parentWork_byte {bytes : List Signal} {events : List (Int × Bool)}
    (hpc : p.pc = .sigBytes (sig :: bytes) events) (hpend : p'.pending = p.pending) (hpipe : p'.sigPipe = p.sigPipe)
    (h : p'.pc = .sigBytes bytes events ∨ p'.pc = .reaping bytes events) :
    parentWork c p' + 2 * c.processNumber < parentWork c p := by
  have hlen : handWork c * (sig :: bytes).length = handWork c * bytes.length + (2 * c.processNumber + 2) := by
    rw [List.length_cons, Nat.mul_add_one]
    rfl
  unfold parentWork
  rw [hpend, hpipe, hpc]
  rcases h with h | h <;> rw [h] <;> simp only [pcWork, hlen] <;> omega

theorem tell_work (k : Nat) : statusWork c (tell c s k) (s.parent.status k) ≤
    statusWork c (s.child k) (s.parent.status k) + 2 := by
  unfold tell
  split
  · next h =>
    have := countPending_set (s.child k).pending .sigterm
    simp only [h.2, statusWork, childWork]
    omega
  · exact Nat.le_add_right _ _

theorem total_tell : total c.processNumber (fun k => statusWork c (tell c s k) (s.parent.status k)) ≤
    total c.processNumber (fun k => statusWork c (s.child k) (s.parent.status k)) + 2 * c.processNumber := by
  unfold total
  calc ∑ k ∈ Finset.range c.processNumber, statusWork c (tell c s k) (s.parent.status k)
      ≤ ∑ k ∈ Finset.range c.processNumber, (statusWork c (s.child k) (s.parent.status k) + 2) :=
        Finset.sum_le_sum fun k _ => tell_work k
    _ = _ := by
        rw [Finset.sum_add_distrib, Finset.sum_const, Finset.card_range, Nat.mul_comm]
        rfl

theorem work_child {ch : Child} (hk : k < c.processNumber) (hst : s.parent.status k = .alive)
    (h : childWork ch < childWork (s.child k)) : work c (s.setChild k ch) < work c s := by
  have hchange := total_change (m := c.processNumber) (w := k)
    (f := fun k => statusWork c (s.child k) (s.parent.status k))
    (g := fun j => statusWork c (Function.update s.child k ch j) (s.parent.status j))
    (a := statusWork c ch .alive) (b := statusWork c (s.child k) .alive) hk
    (by simp [hst, Nat.add_comm]) (fun j hj => by simp [hj])
  have hlt : statusWork c ch .alive < statusWork c (s.child k) .alive := by
    simp only [statusWork]
    omega
  simp only [work, Pool.setChild]
  omega

theorem childWork_deliver {ch : Child} (h : ch.pending sig = true) (sigPipe : List Signal) :
    childWork { ch with pending := Function.update ch.pending sig false, sigPipe } < childWork ch := by
  have := countPending_clear h
  simp only [childWork]
  split <;> split <;> omega

theorem work_dead (hk : k < c.processNumber) (hst : s.parent.status k = .alive) : work c (s.dead k) < work c s := by
  have hchange := total_change (m := c.processNumber) (w := k)
    (f := fun k => statusWork c (s.child k) (s.parent.status k))
    (g := fun j => statusWork c (s.child j) (Function.update s.parent.status k .zombie j))
    (a := 1) (b := statusWork c (s.child k) .alive) hk
    (by simp [hst, statusWork, Nat.add_comm]) (fun j hj => by simp [hj])
  have hparent : parentWork c (childExit s.parent k) ≤ parentWork c s.parent + pendingWork c := by
    have hset := countPending_set s.parent.pending .sigchld
    have hmul := Nat.mul_le_mul_left (pendingWork c) hset
    rw [Nat.mul_add_one] at hmul
    have hpc : pcWork c (childExit s.parent k) s.parent.pc = pcWork c s.parent s.parent.pc := by
      cases s.parent.pc with
      | events events => cases events <;> rfl
      | forking _ | setup _ | sigBytes _ _ | reaping _ _ | left _ => rfl
    show pcWork c (childExit s.parent k) s.parent.pc +
      pendingWork c * countPending (childExit s.parent k).pending + byteWork c * s.parent.sigPipe.length ≤ _
    rw [hpc, childExit, parentWork]
    simp only
    split <;> omega
  have hlt : 1 + pendingWork c < statusWork c (s.child k) .alive := by
    simp only [statusWork]
    omega
  show total c.processNumber (fun j => statusWork c (s.child j) (Function.update s.parent.status k .zombie j)) +
    parentWork c (childExit s.parent k) < _
  unfold work
  omega

/-- **Every step of the pool's own leaves less to do.** -/
theorem own_work (hfd : c.listenfd ≠ c.sigPipefd) (ho : Own c s a) (hs : Step c s a s') : work c s' < work c s := by
  cases hs with
  | addsig hst hk hh =>
    refine work_child hk hst ?_
    simp only [childWork, hh, List.length_cons]
    omega
  | deliver hst hk hp _ => exact work_child hk hst (childWork_deliver hp _)
  | ignored hst hk hp => exact work_child hk hst (childWork_deliver hp _)
  | read hst hk hne =>
    refine work_child hk hst ?_
    simp only [childWork, if_neg hne, if_true]
    omega
  | dead hst hk _ => exact work_dead hk hst
  | raise _ _ => exact ho.elim
  | @kill _ p hk hstep =>
    obtain ⟨rfl, sig, bytes, events, hpc, hsig⟩ := kills_eq hk
    obtain rfl : p = handleByte c s.parent sig bytes events := by simpa [Parent.step, hpc] using hstep.symm
    have hparent : parentWork c (handleByte c s.parent sig bytes events) + 2 * c.processNumber <
        parentWork c s.parent := by
      cases sig with
      | sigterm | sigint => exact parentWork_byte hpc rfl rfl (.inl rfl)
      | sigchld | sigpipe | sigurg | sigalrm => cases hsig
    have hstatus : (handleByte c s.parent sig bytes events).status = s.parent.status := by cases sig <;> rfl
    have htell := total_tell (c := c) (s := s)
    unfold work
    simp only [hstatus]
    omega
  | @parent a p hne hk hstep =>
    have hst := Parent.step_sound hstep
    cases hst with
    | fork _ _ _ _ | setup _ | addsig _ | enter _ | childExit _ _ | raise _ | epollFail _ => exact ho.elim
    | deliver hp => exact work_parent rfl (parentWork_deliver hp)
    | epollWait hpc _ _ =>
      obtain ⟨rfl, hpipe⟩ := ho
      have hidle : idleWork s.parent = 3 := if_neg hpipe
      have hev : eventWork c (c.sigPipefd, true) = 2 := if_pos ⟨hfd.symm, rfl, rfl⟩
      refine work_parent rfl (parentWork_same rfl rfl ?_)
      simp only [hpc, pcWork, batchWork, List.map_cons, List.map_nil, List.sum_cons, List.sum_nil, hev, hidle]
      omega
    | leave hpc _ =>
      refine work_parent rfl (parentWork_same rfl rfl ?_)
      rw [hpc]
      exact (pcWork_events c s.parent []).1
    | listen _ _ | skip _ | recv _ _ =>
      obtain ⟨hlt, hstatus⟩ := parentWork_handle hstep
      exact work_parent hstatus hlt
    | @bytesDone events hpc =>
      have hle := (pcWork_events c s.parent events).2
      have hidle := idleWork_le s.parent
      refine work_parent rfl (parentWork_same rfl rfl ?_)
      rw [hpc]
      show pcWork c s.parent (.events events) < 5 + batchWork c events + handWork c * 0
      omega
    | @byte sig bytes events hpc =>
      have hlt : parentWork c (handleByte c s.parent sig bytes events) + 2 * c.processNumber <
          parentWork c s.parent := by
        cases sig with
        | sigchld => exact parentWork_byte hpc rfl rfl (.inr rfl)
        | sigterm | sigint | sigpipe | sigurg | sigalrm => exact parentWork_byte hpc rfl rfl (.inl rfl)
      refine work_parent ?_ (by omega)
      cases sig <;> rfl
    | @waitpid k bytes events hpc hkN hz =>
      have hchange := total_change (m := c.processNumber) (w := k)
        (f := fun k => statusWork c (s.child k) (s.parent.status k))
        (g := fun j => statusWork c (s.child j) (Function.update s.parent.status k .reaped j))
        (a := 0) (b := 1) hkN (by simp [hz, statusWork]) (fun j hj => by simp [hj])
      have hparent : parentWork c (reapChild c s.parent k) = parentWork c s.parent := by
        simp only [parentWork, reapChild, hpc, pcWork]
      show total c.processNumber (fun j => statusWork c (s.child j) (Function.update s.parent.status k .reaped j)) +
        parentWork c (reapChild c s.parent k) < _
      unfold work
      omega
    | waitpidNone hpc _ =>
      refine work_parent rfl (parentWork_same rfl rfl ?_)
      rw [hpc]
      simp only [pcWork]
      omega

/-- Both children are in their loops when SIGTERM comes to the parent, which
sends it on; the first has taken it and left, and the parent has reaped it. -/
def demoRun : List Act :=
  [.parent (.fork 100), .parent (.fork 101), .parent .setup, .parent .addsig, .parent .addsig, .parent .addsig,
   .parent .enter, .child 0 .addsig, .child 0 .addsig, .child 0 .addsig, .child 1 .addsig,
   .parent (.raise .sigterm), .parent (.deliver .sigterm), .parent (.epollWait [(4, true)]), .parent (.handle 1),
   .parent .nextByte, .child 0 (.deliver .sigterm), .child 0 .read, .child 0 .exit, .parent .nextByte,
   .parent (.deliver .sigchld), .parent (.epollWait [(4, true)]), .parent (.handle 1), .parent .nextByte,
   .parent (.waitpid 0)]

theorem demoRun_run : (runWhere (step demoCfg) (Orderly demoCfg) init demoRun).isSome := by decide

end LinuxServer.ProcPool.Shutdown
