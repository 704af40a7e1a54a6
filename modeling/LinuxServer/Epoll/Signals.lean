/-
How the server stops: a signal's byte goes through the signal pipe and a
pool task to `running`, and the main thread leaves its loop at the next test.

The handler also interrupts an `epoll_wait` of the thread it runs in, whether
SA_RESTART is set or not, and the main loop takes every failure of
`epoll_wait` for a fatal one. `Uninterrupted` is the condition under which
the way through the pipe is the only one; `interrupted_exit` is the other.

Out of the loop the main thread closes `ep_fds` number by number, and no
longer takes the mutex. `Unerased` is the condition under which the set stays
what it was, and every number in it is closed.
-/
import LinuxServer.Epoll.Stale

namespace LinuxServer.Epoll

open Lts

/-- `epoll_wait` does not fail by itself. -/
def OnlyEintr (_ : St) : Act → Prop
  | .main .epollFail => False
  | _ => True

/-- No handler runs in the main thread while it is in `epoll_wait`. -/
def Uninterrupted (s : St) : Act → Prop
  | .signal _ true => s.main ≠ .waiting
  | _ => True

/-- No worker erases a number from `ep_fds` once the main thread is out of its loop. -/
def Unerased (s : St) : Act → Prop
  | .worker w .erase => s.main.past = true → ∀ fd ∈ (s.workers w).closingFd, fd ∉ s.epFds
  | _ => True

/-- All three conditions. -/
def OnlyByPipe (s : St) (a : Act) : Prop := OnlyEintr s a ∧ Uninterrupted s a ∧ Unerased s a

instance : ∀ s a, Decidable (OnlyEintr s a) := by
  intro s a
  unfold OnlyEintr
  split <;> infer_instance

instance : ∀ s a, Decidable (Uninterrupted s a) := by
  intro s a
  unfold Uninterrupted
  split <;> infer_instance

instance : ∀ s a, Decidable (Unerased s a) := by
  intro s a
  unfold Unerased
  split <;> infer_instance

instance (s : St) (a : Act) : Decidable (OnlyByPipe s a) := inferInstanceAs (Decidable (_ ∧ _ ∧ _))

/-- The numbers the iterator over `ep_fds` has come to. -/
def MainPc.walked : MainPc → List Nat
  | .closing closed => closed
  | .visiting fd closed => fd :: closed
  | .top | .toWait | .waiting | .batch _ | .accepted _ _ _ | .locked _ _ _ | .added _ _ _ | .exited _ | .crashed =>
    []

/-- The loop over `ep_fds` is not over, and has not closed the number. -/
def MainPc.Pending (fd : Nat) : MainPc → Prop
  | .closing closed | .visiting _ closed => fd ∉ closed
  | .top | .toWait | .waiting | .batch _ | .accepted _ _ _ | .locked _ _ _ | .added _ _ _ | .exited _ | .crashed =>
    False

section
variable {c : Cfg} {s s' : St} {a : Act} {w : Nat} {past past' : List (St × Act)}

/-! ## What a step does to the way out -/

theorem addClient_frame (s : St) (fd : Nat) (conn : Option Nat) (events : List Event) :
    (addClient s fd conn events).running = s.running ∧ (addClient s fd conn events).workers = s.workers ∧
      (addClient s fd conn events).main.past = false := by
  unfold addClient epollAdd
  split
  · split <;> exact ⟨rfl, rfl, rfl⟩
  · exact ⟨rfl, rfl, rfl⟩

/-- What a step of the main thread does to its way out of the loop. -/
inductive WayOut (s s' : St) : MainAct → Prop
  | inside {act} : s'.main.past = false → WayOut s s' act
  | loop : s.main = .top → s.running = false → s'.main = .closing [] → WayOut s s' .loop
  | advance {fd closed} : s.main = .closing closed → fd ∈ s.epFds → s'.main = .visiting fd closed →
      WayOut s s' (.advance fd)
  | closeNext {fd closed} : s.main = .visiting fd closed → s'.main = .closing (fd :: closed) →
      WayOut s s' (.closeNext fd)
  | exit {closed} : s.main = .closing closed → (∀ fd ∈ s.epFds, fd ∈ closed) → s'.main = .exited 0 →
      WayOut s s' .exit

theorem not_dangling {closed : List Nat} (h : ∀ fd ∈ closed, fd ∈ s.epFds) : dangling s closed = false := by
  cases closed with
  | nil => rfl
  | cons fd closed => simpa [dangling] using h fd List.mem_cons_self

/-- The main thread does not touch `running` or the pool, and out of its loop
it does not touch `ep_fds`; its iterator is valid while nothing it came to was erased. -/
theorem mainStep_wayOut {a : MainAct} (ha : a ≠ .epollFail) (hvalid : ∀ fd ∈ s.main.walked, fd ∈ s.epFds)
    (h : mainStep c s a = some s') :
    s'.running = s.running ∧ s'.workers = s.workers ∧ (s'.main.past = true → s'.epFds = s.epFds) ∧
      WayOut s s' a := by
  unfold mainStep at h
  split at h
  · next hm =>
    cases h
    cases hr : s.running with
    | true => exact ⟨rfl, rfl, fun _ => rfl, .inside rfl⟩
    | false => exact ⟨rfl, rfl, fun _ => rfl, .loop hm hr rfl⟩
  · split at h
    · cases h; exact ⟨rfl, rfl, fun _ => rfl, .inside rfl⟩
    · cases h
  · split at h
    · cases h; exact ⟨rfl, rfl, fun _ => rfl, .inside rfl⟩
    · cases h
  · exact absurd rfl ha
  · cases h; exact ⟨rfl, rfl, fun _ => rfl, .inside rfl⟩
  · cases h; exact ⟨rfl, rfl, fun _ => rfl, .inside rfl⟩
  · split at h
    · cases h; exact ⟨rfl, rfl, fun _ => rfl, .inside rfl⟩
    · cases h
  · cases h; exact ⟨rfl, rfl, fun _ => rfl, .inside rfl⟩
  · cases h; exact ⟨rfl, rfl, fun _ => rfl, .inside rfl⟩
  · split at h
    · cases h; exact ⟨rfl, rfl, fun _ => rfl, .inside rfl⟩
    · cases h
  · cases h
    obtain ⟨hrun, hworkers, hpast⟩ := addClient_frame s _ _ _
    exact ⟨hrun, hworkers, fun hp => (by rw [hpast] at hp; cases hp), .inside hpast⟩
  · cases h; exact ⟨rfl, rfl, fun hp => (Bool.false_ne_true hp).elim, .inside rfl⟩
  · next hm =>
    rw [not_dangling (by rwa [hm] at hvalid), if_neg Bool.false_ne_true] at h
    split at h
    · next hg => cases h; exact ⟨rfl, rfl, fun _ => rfl, .advance hm hg.1 rfl⟩
    · cases h
  · next hm =>
    split at h
    · cases h
    next heq =>
    obtain rfl := not_not.mp heq
    rw [if_pos (hvalid _ (by simp [hm, MainPc.walked]))] at h
    cases h
    exact ⟨rfl, rfl, fun _ => rfl, .closeNext hm rfl⟩
  · next hm =>
    rw [not_dangling (by rwa [hm] at hvalid), if_neg Bool.false_ne_true] at h
    split at h
    · next hall => cases h; exact ⟨rfl, rfl, fun _ => rfl, .exit hm hall rfl⟩
    · cases h
  · cases h

/-- Clients and signals touch none of these, unless a handler interrupts `epoll_wait`. -/
theorem envStep_frame (hok : Uninterrupted s a) (h : envStep c s a = some s') :
    s'.main = s.main ∧ s'.epFds = s.epFds ∧ s'.running = s.running ∧ s'.workers = s.workers := by
  unfold envStep at h
  split at h
  · obtain ⟨n, -, h⟩ := Option.bind_eq_some_iff.mp h
    simp only at h
    split at h
    · cases h; exact ⟨rfl, rfl, rfl, rfl⟩
    · cases h
  · obtain ⟨n, -, rfl⟩ := Option.map_eq_some_iff.mp h
    exact ⟨rfl, rfl, rfl, rfl⟩
  · obtain ⟨n, -, rfl⟩ := Option.map_eq_some_iff.mp h
    exact ⟨rfl, rfl, rfl, rfl⟩
  · next sig onMain =>
    split at h
    · cases h
      refine ⟨?_, rfl, rfl, rfl⟩
      cases onMain with
      | false => simp
      | true => exact if_neg fun hm => hok hm.2
    · cases h
  · cases h
  · cases h

/-- What a pool thread does with the bytes of the signal pipe. -/
inductive ByteStep (s s' : St) (w : Nat) : WorkerAct → Prop
  | read {sig rest} : s.sigPipe = sig :: rest → s'.workers = (s.setWorker w (.sigGot sig)).workers →
      s'.running = s.running → ByteStep s s' w .sigRecv
  | stop {sig} : s.workers w = .sigGot sig → sig = .sigterm ∨ sig = .sigint →
      s'.workers = (s.setWorker w .sigRecv).workers → ByteStep s s' w .sigHandle
  | other {act} (pc : WorkerPc) : (∀ sig, pc ≠ .sigGot sig) → s'.workers = (s.setWorker w pc).workers →
      s'.running = s.running → ByteStep s s' w act

theorem nextPc_ne_sigGot (c : Cfg) (t : Task) (out : RecvOut) (errno : Errno) (sig : Signal) :
    nextPc c t out errno ≠ .sigGot sig := by
  rcases nextPc_cases c t out errno with h | h | h <;> rw [h] <;> simp

/-- A pool thread does not move the main thread, nor, once that is out of its loop, change `ep_fds`. -/
theorem workerStep_byte {a : WorkerAct} (hok : Unerased s (.worker w a)) (h : workerStep c s w a = some s') :
    s'.main = s.main ∧ (s.main.past = true → s'.epFds = s.epFds) ∧ ByteStep s s' w a := by
  have hrefl : s.main.past = true → s.epFds = s.epFds := fun _ => rfl
  unfold workerStep at h
  split at h
  · split at h
    · cases h; exact ⟨rfl, hrefl, .other (.msgRecv _) (by simp) rfl rfl⟩
    · cases h; exact ⟨rfl, hrefl, .other .sigRecv (by simp) rfl rfl⟩
    · cases h
    · cases h
  · cases h; exact ⟨rfl, hrefl, .other (.msgRead _ _ _ _) (by simp) rfl rfl⟩
  · cases h; exact ⟨rfl, hrefl, .other _ (nextPc_ne_sigGot _ _ _ _) rfl rfl⟩
  · cases h; exact ⟨rfl, hrefl, .other (.toLock _) (by simp) rfl rfl⟩
  · split at h
    · cases h; exact ⟨rfl, hrefl, .other (.toDel _) (by simp) rfl rfl⟩
    · cases h
  · cases h; exact ⟨rfl, hrefl, .other (.toErase _) (by simp) rfl rfl⟩
  · next hpc =>
    cases h
    refine ⟨rfl, fun hp => Finset.erase_eq_of_notMem ?_, .other .idle (by simp) rfl rfl⟩
    exact hok hp _ (by rw [hpc]; rfl)
  · split at h
    · cases h; exact ⟨rfl, hrefl, .other .idle (by simp) rfl rfl⟩
    · next hq => cases h; exact ⟨rfl, hrefl, .read hq rfl rfl⟩
  · next hpc =>
    split at h
    · cases h; exact ⟨rfl, hrefl, .stop hpc (.inl rfl) rfl⟩
    · cases h; exact ⟨rfl, hrefl, .stop hpc (.inr rfl) rfl⟩
    all_goals cases h; exact ⟨rfl, hrefl, .other .sigRecv (by simp) rfl rfl⟩
  · cases h

/-! ## Runs -/

/-- In these steps worker `w` read the byte of `sig` from the signal pipe. -/
def ByteRead (past : List (St × Act)) (w : Nat) (sig : Signal) : Prop :=
  ∃ s rest, (s, .worker w .sigRecv) ∈ past ∧ s.sigPipe = sig :: rest

/-- In these steps a worker cleared `running` for the byte of SIGTERM or SIGINT, which it had read. -/
def Stopped (past : List (St × Act)) : Prop :=
  ∃ pre s w sig post, past = pre ++ (s, .worker w .sigHandle) :: post ∧ s.workers w = .sigGot sig ∧
    (sig = .sigterm ∨ sig = .sigint) ∧ ByteRead pre w sig

/-- The main thread left its loop in one of these steps, `s₁`, with `running`
cleared; `ep_fds` is what it was then, and all of it is closed but what the
main thread is still to close. -/
def Left (s : St) (past : List (St × Act)) : Prop :=
  ∃ pre s₁ post, past = pre ++ (s₁, .main .loop) :: post ∧ s₁.running = false ∧ Stopped pre ∧ s.epFds = s₁.epFds ∧
    ∀ fd ∈ s₁.epFds, s.main.Pending fd ∨ ∃ s₂, (s₂, .main (.closeNext fd)) ∈ post

structure WayOutOk (s : St) (past : List (St × Act)) : Prop where
  read : ∀ w sig, s.workers w = .sigGot sig → ByteRead past w sig
  stopped : s.running = false → Stopped past
  left : s.main.past = true → Left s past
  valid : ∀ fd ∈ s.main.walked, fd ∈ s.epFds
  code : s.main ≠ .crashed ∧ ∀ code, s.main = .exited code → code = 0

theorem walked_inside {pc : MainPc} (h : pc.past = false) : pc.walked = [] := by
  cases pc with
  | closing _ | visiting _ _ => cases h
  | top | toWait | waiting | batch _ | accepted _ _ _ | locked _ _ _ | added _ _ _ | exited _ | crashed => rfl

theorem ByteRead.next {sig : Signal} {x : St × Act} (h : ByteRead past w sig) : ByteRead (past ++ [x]) w sig := by
  obtain ⟨s, rest, hmem, hpipe⟩ := h
  exact ⟨s, rest, List.mem_append_left _ hmem, hpipe⟩

theorem Stopped.next {x : St × Act} (h : Stopped past) : Stopped (past ++ [x]) := by
  obtain ⟨pre, s, w, sig, post, rfl, h⟩ := h
  exact ⟨pre, s, w, sig, post ++ [x], by simp, h⟩

theorem Left.next {x : St × Act} (h : Left s past) (hfds : s'.epFds = s.epFds)
    (hstill : ∀ fd ∈ s.epFds, s.main.Pending fd → s'.main.Pending fd ∨ ∃ s₂, x = (s₂, .main (.closeNext fd))) :
    Left s' (past ++ [x]) := by
  obtain ⟨pre, s₁, post, rfl, hrun, hstop, hsame, hall⟩ := h
  refine ⟨pre, s₁, post ++ [x], by simp, hrun, hstop, hfds.trans hsame, fun fd hfd => ?_⟩
  rcases hall fd hfd with hleft | ⟨s₂, hclosed⟩
  · rcases hstill fd (hsame ▸ hfd) hleft with hleft | ⟨s₂, rfl⟩
    · exact .inl hleft
    · exact .inr ⟨s₂, by simp⟩
  · exact .inr ⟨s₂, List.mem_append_left _ hclosed⟩

theorem Left.main {a : MainAct} (h : WayOutOk s past) (hs : WayOut s s' a)
    (hfds : s'.main.past = true → s'.epFds = s.epFds) (hp : s'.main.past = true) :
    Left s' (past ++ [(s, .main a)]) := by
  cases hs with
  | inside hin =>
    rw [hin] at hp
    cases hp
  | loop hm hrun hm' =>
    refine ⟨past, s, [], rfl, hrun, h.stopped hrun, hfds hp, fun fd _ => .inl ?_⟩
    rw [hm']
    exact List.not_mem_nil
  | advance hm _ hm' =>
    refine (h.left (by simp [hm, MainPc.past])).next (hfds hp) fun fd _ hpend => .inl ?_
    rw [hm] at hpend
    rw [hm']
    exact hpend
  | @closeNext fd closed hm hm' =>
    refine (h.left (by simp [hm, MainPc.past])).next (hfds hp) fun f _ hpend => ?_
    rw [hm] at hpend
    rw [hm']
    by_cases heq : f = fd
    · exact .inr ⟨s, by rw [heq]⟩
    · exact .inl fun hmem => (List.mem_cons.mp hmem).elim heq hpend
  | exit hm hall _ =>
    refine (h.left (by simp [hm, MainPc.past])).next (hfds hp) fun f hf hpend => ?_
    rw [hm] at hpend
    exact absurd (hall f hf) hpend

theorem WayOutOk.read_next {x : St × Act} (h : WayOutOk s past) (hworkers : s'.workers = s.workers) (w : Nat)
    (sig : Signal) (hw : s'.workers w = .sigGot sig) : ByteRead (past ++ [x]) w sig := by
  rw [hworkers] at hw
  exact (h.read w sig hw).next

theorem WayOutOk.stopped_next {x : St × Act} (h : WayOutOk s past) (hrun : s'.running = s.running)
    (hr : s'.running = false) : Stopped (past ++ [x]) := by
  rw [hrun] at hr
  exact (h.stopped hr).next

theorem WayOutOk.main {a : MainAct} (h : WayOutOk s past) (ha : a ≠ .epollFail) (hs : mainStep c s a = some s') :
    WayOutOk s' (past ++ [(s, .main a)]) := by
  obtain ⟨hrun, hworkers, hfds, hway⟩ := mainStep_wayOut ha h.valid hs
  refine ⟨h.read_next hworkers, h.stopped_next hrun, Left.main h hway hfds, ?_, ?_⟩
  · cases hway with
    | inside hin =>
      rw [walked_inside hin]
      exact List.forall_mem_nil _
    | loop _ _ hm' =>
      rw [hm']
      exact List.forall_mem_nil _
    | advance hm hfd hm' =>
      rw [hfds (by rw [hm']; rfl), hm']
      have hvalid := h.valid
      rw [hm] at hvalid
      exact List.forall_mem_cons.mpr ⟨hfd, hvalid⟩
    | closeNext hm hm' =>
      rw [hfds (by rw [hm']; rfl), hm']
      have hvalid := h.valid
      rwa [hm] at hvalid
    | exit _ _ hm' =>
      rw [hm']
      exact List.forall_mem_nil _
  · cases hway with
    | inside hin =>
      refine ⟨fun hm' => ?_, fun code hm' => ?_⟩
      · rw [hm'] at hin
        cases hin
      · rw [hm'] at hin
        cases hin
    | loop _ _ hm' | advance _ _ hm' | closeNext _ hm' =>
      rw [hm']
      exact ⟨by simp, by simp⟩
    | exit _ _ hm' =>
      rw [hm']
      exact ⟨by simp, fun code hcode => (MainPc.exited.inj hcode).symm⟩

theorem WayOutOk.setWorker {pc : WorkerPc} {x : St × Act} (h : WayOutOk s past)
    (hworkers : s'.workers = (s.setWorker w pc).workers)
    (hself : ∀ sig, pc = .sigGot sig → ByteRead (past ++ [x]) w sig) (w' : Nat) :
    ∀ sig, s'.workers w' = .sigGot sig → ByteRead (past ++ [x]) w' sig := by
  rw [hworkers]
  exact forall_setWorker (P := fun w pc => ∀ sig, pc = .sigGot sig → ByteRead (past ++ [x]) w sig) hself
    (fun w' _ sig hw => (h.read w' sig hw).next) w'

theorem WayOutOk.worker {a : WorkerAct} (h : WayOutOk s past) (hok : Unerased s (.worker w a))
    (hs : workerStep c s w a = some s') : WayOutOk s' (past ++ [(s, .worker w a)]) := by
  obtain ⟨hmain, hfds, hbyte⟩ := workerStep_byte hok hs
  have hleft : s'.main.past = true → Left s' (past ++ [(s, .worker w a)]) := by
    intro hp
    rw [hmain] at hp
    exact (h.left hp).next (hfds hp) fun fd _ hpend => .inl (by rwa [hmain])
  have hvalid : ∀ fd ∈ s'.main.walked, fd ∈ s'.epFds := by
    rw [hmain]
    cases hp : s.main.past with
    | true =>
      rw [hfds hp]
      exact h.valid
    | false =>
      rw [walked_inside hp]
      exact List.forall_mem_nil _
  have hcode : s'.main ≠ .crashed ∧ ∀ code, s'.main = .exited code → code = 0 := by
    rw [hmain]
    exact h.code
  cases hbyte with
  | read hpipe hworkers hrun =>
    refine ⟨h.setWorker hworkers fun sig hsig => ?_, h.stopped_next hrun, hleft, hvalid, hcode⟩
    cases hsig
    exact ⟨s, _, by simp, hpipe⟩
  | @stop sig hgot hsig hworkers =>
    refine ⟨h.setWorker hworkers fun sig hsig => ?_, fun _ => ?_, hleft, hvalid, hcode⟩
    · cases hsig
    · exact ⟨past, s, w, sig, [], rfl, hgot, hsig, h.read w sig hgot⟩
  | other pc hpc hworkers hrun =>
    exact ⟨h.setWorker hworkers fun sig hsig => absurd hsig (hpc sig), h.stopped_next hrun, hleft, hvalid, hcode⟩

theorem WayOutOk.env (h : WayOutOk s past) (hok : Uninterrupted s a) (hs : envStep c s a = some s') :
    WayOutOk s' (past ++ [(s, a)]) := by
  obtain ⟨hmain, hfds, hrun, hworkers⟩ := envStep_frame hok hs
  refine ⟨h.read_next hworkers, h.stopped_next hrun, fun hp => ?_, ?_, hmain ▸ h.code⟩
  · exact (h.left (hmain ▸ hp)).next hfds fun fd _ hpend => .inl (by rwa [hmain])
  · rw [hmain, hfds]
    exact h.valid

theorem step_wayOutOk (h : WayOutOk s past) (hok : OnlyByPipe s a) (hs : step c s a = some s') :
    WayOutOk s' (past ++ [(s, a)]) := by
  unfold step at hs
  split at hs
  · cases hs
  split at hs
  · next a => exact h.main (fun ha => by simp [OnlyByPipe, OnlyEintr, ha] at hok) hs
  · split at hs
    · exact h.worker hok.2.2 hs
    · cases hs
  · exact h.env hok.2.1 hs

theorem init_wayOutOk (c : Cfg) : WayOutOk (init c) [] := by
  refine ⟨fun w sig hw => ?_, fun hr => ?_, fun hp => ?_, fun fd hfd => ?_, fun hm => ?_, fun code hcode => ?_⟩
  · cases hw
  · cases hr
  · cases hp
  · cases hfd
  · cases hm
  · cases hcode

end

/-- A client connects. SIGTERM comes before the main thread's
`epoll_wait`, and SIGURG during it, to another thread. -/
def stopRun : List Act :=
  acceptRound 7 ++
  [.signal .sigterm true, .main .loop, .main .lockWait, .signal .sigurg false, .main (.epollWait [4]),
   .main .dispatch, .main .batchDone, .worker 0 .take, .worker 0 .sigRecv, .worker 0 .sigHandle,
   .main .loop, .main (.advance 7), .main (.closeNext 7), .main (.advance 4), .main (.closeNext 4),
   .main (.advance 3), .main (.closeNext 3), .main .exit]

theorem stopRun_run : (runWhere (recorded (step demoCfg)) (Now OnlyByPipe) ⟨[], init demoCfg⟩ stopRun).isSome := by
  decide +kernel

/-- SIGALRM comes while the main thread is in `epoll_wait`. -/
def interrupted : List Act := [.main .loop, .main .lockWait, .signal .sigalrm true]

theorem interrupted_run : (runWhere (step demoCfg) OnlyEintr (init demoCfg) interrupted).isSome := by decide +kernel

/-- A client leaves, and SIGTERM comes. The worker that closed the client
comes to its erase when the main thread's iterator stands at the number. -/
def erasedNode : List Act :=
  acceptRound 7 ++ [.fin 7] ++ dispatchRound 7 ++
  [.worker 0 .take, .worker 0 (.recv .eagain), .worker 0 .test, .worker 0 .close, .signal .sigterm false,
   .main .loop, .main .lockWait, .main (.epollWait [4]), .main .dispatch, .main .batchDone, .worker 1 .take,
   .worker 1 .sigRecv, .worker 1 .sigHandle, .main .loop, .main (.advance 7), .main (.closeNext 7),
   .worker 0 .lock, .worker 0 .del, .worker 0 .erase, .main (.advance 4)]

theorem erasedNode_run : (runWhere (step twoThreads) (fun s a => OnlyEintr s a ∧ Uninterrupted s a)
    (init twoThreads) erasedNode).isSome := by
  decide +kernel

end LinuxServer.Epoll
