/-
The way out on SIGINT: `signal_event_cb` sends COMM_TERMINATE to every
worker, each worker leaves its loop, and `pool.join()` waits for them.

Two things can go wrong. The send finds the pipe full and is dropped, so a
worker is never told (`Room` excludes it), and a worker leaves its loop with
connections registered or queued, which nothing closes (`Emptied` excludes
it).
-/
import LinuxServer.ThreadPool.Wakeups

namespace LinuxServer.ThreadPool

open Lts RoundRobin

/-! ## Telling the workers to stop -/

/-- The worker has asked its loop to exit, or has COMM_TERMINATE to read. -/
def Worker.Told (x : Worker) : Prop := x.exitAsked = true ∨ .commTerminate ∈ x.commPipe

instance (x : Worker) : Decidable x.Told := inferInstanceAs (Decidable (_ ∨ _))

/-- COMM_TERMINATE is sent to a worker only with room in its pipe, or when it has been told already. -/
def Room (c : Cfg) (s : St) : Act → Prop
  | .main .sendTerm =>
    ∀ k < c.concur, s.main = .signalling k → (s.workers k).commPipe.length < c.pipeCap ∨ (s.workers k).Told
  | _ => True

instance (c : Cfg) (s : St) (a : Act) : Decidable (Room c s a) := by
  unfold Room; split <;> infer_instance

theorem Worker.Told.send {c : Cfg} {n : Nat} {msg : CommMsgType} {x : Worker} (h : x.Told) :
    (x.send c n msg).Told := h.imp id Fifo.mem_trySend

theorem Worker.Told.recvMsg {x : Worker} (h : x.Told) : x.recvMsg.Told := by
  rcases h with he | ht
  · left
    unfold Worker.recvMsg
    split
    · exact he
    · exact he
    · rfl
  · unfold Worker.recvMsg
    split
    · next hp => rw [hp] at ht; cases ht
    · next hp =>
      rw [hp, List.mem_cons] at ht
      exact .inr (ht.resolve_left (by simp))
    · exact .inl rfl

theorem sendComm_told {c : Cfg} {s : St} {w w' cur : Nat} {msg : CommMsgType} {main : MainPc}
    (h : (s.workers w').Told) : ((sendComm c s w msg main cur).workers w').Told := by
  unfold sendComm
  split
  · exact h
  · exact forall_setWorker (P := fun w' y => (s.workers w').Told → y.Told) Worker.Told.send (fun _ _ => id) w' h

theorem setWorker_told {s : St} {w w' : Nat} {x : Worker} (h : (s.workers w').Told)
    (hx : (s.workers w).Told → x.Told) : ((s.setWorker w x).workers w').Told :=
  forall_setWorker (P := fun w' y => (s.workers w').Told → y.Told) hx (fun _ _ => id) w' h

theorem step_told {c : Cfg} {s s' : St} {a : Act} {w' : Nat} (hs : Step c s a s') (h : (s.workers w').Told) :
    (s'.workers w').Told := by
  cases hs with
  | accept _ _ | sigint _ | loopexit _ | mainLeave _ _ | join _ _ | peerClose _ => exact h
  | push _ => exact setWorker_told h id
  | sendConn _ | sendTerm _ _ => exact sendComm_told h
  | mainMsg _ _ _ | popNone _ _ _ | popSome _ _ _ | register _ _ | leave _ _ _ => exact setWorker_told h id
  | recv _ _ => exact setWorker_told h Worker.Told.recvMsg
  | client _ _ _ _ _ _ _ _ hx _ =>
    simp only [Worker.shared, Prod.mk.injEq] at hx
    refine setWorker_told h fun ht => ?_
    unfold Worker.Told
    rw [hx.1, hx.2.2.2.1]
    exact ht
  | close _ _ _ => exact setWorker_told h id

/-- How far the signal's handler has come with telling the workers. -/
structure Telling (c : Cfg) (s : St) : Prop where
  signalling : ∀ k, s.main = .signalling k → ∀ w < k, (s.workers w).Told
  asked : s.exitAsked = true → ∀ w < c.concur, (s.workers w).Told
  joining : s.main = .joining → s.exitAsked = true

theorem Telling.move {c : Cfg} {s s' : St} {a : Act} (h : Telling c s) (hs : Step c s a s')
    (hmain : s'.main = s.main ∨ (∀ k, s'.main ≠ .signalling k) ∧ s'.main ≠ .joining)
    (hexit : s'.exitAsked = s.exitAsked) : Telling c s' := by
  refine ⟨fun k hk w hw => ?_, fun he w hw => ?_, fun hj => ?_⟩
  · rcases hmain with hm | hm
    · exact step_told hs (h.signalling k (hm ▸ hk) w hw)
    · exact absurd hk (hm.1 k)
  · exact step_told hs (h.asked (hexit ▸ he) w hw)
  · rcases hmain with hm | hm
    · rw [hexit]; exact h.joining (hm ▸ hj)
    · exact absurd hj hm.2

theorem sendComm_main {c : Cfg} {s : St} {w cur : Nat} {msg : CommMsgType} {main : MainPc} :
    (sendComm c s w msg main cur).main = s.main ∨ (sendComm c s w msg main cur).main = main := by
  unfold sendComm
  split
  · exact .inl rfl
  · exact .inr rfl

theorem sendComm_exitAsked {c : Cfg} {s : St} {w cur : Nat} {msg : CommMsgType} {main : MainPc} :
    (sendComm c s w msg main cur).exitAsked = s.exitAsked := by
  unfold sendComm
  split <;> rfl

/-- With room for it, COMM_TERMINATE tells the worker it is sent to; a
worker that closed its end had been told. -/
theorem sendTerm_told {c : Cfg} {s : St} {k cur : Nat} {main : MainPc}
    (hroom : (s.workers k).commPipe.length < c.pipeCap ∨ (s.workers k).Told)
    (hmain : (sendComm c s k .commTerminate main cur).main ≠ s.main) :
    ((sendComm c s k .commTerminate main cur).workers k).Told := by
  rcases hroom with hroom | htold
  · unfold sendComm at hmain ⊢
    split
    · next hleft => simp [hleft] at hmain
    · simp only [setWorker_self]
      exact .inr (Fifo.mem_trySend_of_room hroom)
  · exact sendComm_told htold

theorem step_telling {c : Cfg} {s s' : St} {a : Act} (h : Telling c s) (hok : Room c s a) (hs : Step c s a s') :
    Telling c s' := by
  have hmove := h.move hs
  cases hs with
  | accept _ _ | push _ | join _ _ => exact hmove (.inr ⟨by simp [pushConn], by simp [pushConn]⟩) rfl
  | sendConn _ => exact hmove (sendComm_main.imp id fun hm => by simp [hm]) sendComm_exitAsked
  | sigint _ =>
    refine ⟨fun k hk w hw => ?_, h.asked, by simp⟩
    cases hk
    omega
  | @sendTerm k hm hk =>
    rcases sendComm_main with hsame | hnew
    · exact hmove (.inl hsame) sendComm_exitAsked
    refine ⟨fun k' hk' w hw => ?_, fun he w hw => ?_, by simp [hnew]⟩
    · rw [hnew] at hk'
      cases hk'
      rcases Nat.lt_succ_iff_lt_or_eq.mp hw with hlt | rfl
      · exact sendComm_told (h.signalling k hm w hlt)
      · exact sendTerm_told (hok w hk hm) (by rw [hnew, hm]; simp)
    · exact sendComm_told (h.asked (sendComm_exitAsked ▸ he) w hw)
  | loopexit hm => exact ⟨by simp, fun _ => h.signalling _ hm, by simp⟩
  | mainLeave _ he => exact ⟨by simp, h.asked, fun _ => he⟩
  | mainMsg _ _ _ | recv _ _ | popNone _ _ _ | popSome _ _ _ | register _ _ | leave _ _ _
  | client _ _ _ _ _ _ _ _ _ _ | close _ _ _ | peerClose _ => exact hmove (.inl rfl) rfl

theorem init_telling (c : Cfg) : Telling c init := by
  constructor <;> simp [init]

/-- **With room in the pipes every worker is told.** In a run that sends
COMM_TERMINATE only into pipes with room for it: once `signal_event_cb` has
finished, and so in `pool.join()`, each worker has asked its loop to exit or
has a COMM_TERMINATE to read. -/
theorem room_told {c : Cfg} {s : St} (h : Reach (step c) (Room c) init s)
    (hdone : s.exitAsked = true ∨ s.main = .joining) : ∀ w < c.concur, (s.workers w).Told := by
  have htelling : Telling c s := by
    refine h.invariant (init_telling c) fun _ _ _ hs hok hstep => ?_
    exact step_telling hs hok (step_sound hstep)
  rcases hdone with he | hj
  · exact htelling.asked he
  · exact htelling.asked (htelling.joining hj)

/-- Both workers are told to stop with their pipes empty, the first once it took a connection. -/
def toldRun : List Act :=
  [.main (.accept 7), .main .push, .main .sendConn, .worker 0 .mainMsg, .worker 0 .recv, .worker 0 .tryPop,
   .worker 0 .register, .worker 0 .tryPop, .worker 0 .recv, .main .sigint, .main .sendTerm, .main .sendTerm,
   .main .loopexit, .main .leave]

theorem toldRun_run : (runWhere (step demoCfg) (Room demoCfg) init toldRun).isSome := by decide +kernel

/-- `room_told` at the end of `toldRun`, in `pool.join()`. -/
theorem room_told_demo :
    let s := (runWhere (step demoCfg) (Room demoCfg) init toldRun).get toldRun_run
    (s.workers 0).Told ∧ (s.workers 1).Told :=
  have h := room_told (reachWhere_get toldRun_run) (.inr (by decide +kernel))
  ⟨h 0 (by decide), h 1 (by decide)⟩

/-- One worker, with a pipe of one byte. -/
def oneWorker : Cfg := ⟨1, 1, Nat.one_pos, Nat.one_pos⟩

/-- SIGINT comes while the byte of the connection before is unread. -/
def fullPipe : List Act :=
  [.main (.accept 7), .main .push, .main .sendConn, .main .sigint, .main .sendTerm, .main .loopexit,
   .main .leave, .worker 0 .mainMsg, .worker 0 .recv, .worker 0 .tryPop, .worker 0 .register,
   .worker 0 .tryPop, .worker 0 .recv]

theorem fullPipe_run : (run (step oneWorker) init fullPipe).isSome := by decide +kernel

/-- **A COMM_TERMINATE into a full pipe is lost.** The main thread is in
`pool.join()`, and its only worker is back in its loop, never told. -/
theorem fullPipe_untold : ∃ s, Reach (step oneWorker) Any init s ∧ s.exitAsked = true ∧ s.main = .joining ∧
    (s.workers 0).pc = .loop ∧ ¬ (s.workers 0).Told :=
  ⟨_, reach_get fullPipe_run, by decide +kernel⟩

/-! ## Closing the connections -/

/-- A worker leaves its loop only with nothing registered or queued. -/
def Emptied (s : St) : Act → Prop
  | .worker w .leave => (s.workers w).fds = [] ∧ (s.workers w).queued = []
  | _ => True

/-- A worker that left holds nothing, but for a connection pushed for it
whose send is about to kill the process. -/
structure Emptying (s : St) : Prop where
  base : ∀ w, (s.workers w).pc = .left → (s.workers w).fds = []
  queue : ∀ w, (s.workers w).pc = .left →
    (s.workers w).queued = [] ∨ ∃ fd, s.main = .pushed fd ∧ s.curWorkerInd = w

theorem init_emptying : Emptying init := by
  constructor <;> simp [init, Worker.init]

theorem Emptying.setWorker {s : St} {w : Nat} {x : Worker} (h : Emptying s)
    (hx : x.pc = .left → x.fds = [] ∧ x.queued = []) : Emptying (s.setWorker w x) := by
  constructor
  · exact forall_setWorker (P := fun _ y => y.pc = .left → y.fds = []) (fun hl => (hx hl).1)
      fun w' _ => h.base w'
  · exact forall_setWorker (P := fun w' y => y.pc = .left →
      y.queued = [] ∨ ∃ fd, s.main = .pushed fd ∧ s.curWorkerInd = w') (fun hl => .inl (hx hl).2)
      fun w' _ => h.queue w'

theorem Emptying.moveMain {s s' : St} (h : Emptying s) (hworkers : s'.workers = s.workers)
    (hno : ∀ fd, s.main ≠ .pushed fd) : Emptying s' := by
  refine ⟨fun w hl => ?_, fun w hl => ?_⟩
  · rw [hworkers] at hl ⊢
    exact h.base w hl
  · rw [hworkers] at hl ⊢
    rcases h.queue w hl with hq | ⟨fd, hm, -⟩
    · exact .inl hq
    · exact absurd hm (hno fd)

theorem Emptying.push {s : St} {fd : Nat} (h : Emptying s) (hm : s.main = .hand fd) :
    Emptying (pushConn s fd) := by
  refine ⟨fun w hl => ?_, fun w hl => ?_⟩
  · by_cases hw : w = s.curWorkerInd
    · subst hw
      simp only [pushConn, setWorker_self] at hl ⊢
      exact h.base _ hl
    · simp only [pushConn, setWorker_of_ne hw] at hl ⊢
      exact h.base w hl
  · by_cases hw : w = s.curWorkerInd
    · exact .inr ⟨fd, rfl, hw.symm⟩
    · simp only [pushConn, setWorker_of_ne hw] at hl ⊢
      rcases h.queue w hl with hq | ⟨g, hg, -⟩
      · exact .inl hq
      · rw [hm] at hg; cases hg

theorem Emptying.sendComm {c : Cfg} {s : St} {w cur : Nat} {msg : CommMsgType} {main : MainPc}
    (h : Emptying s) (hcur : ∀ fd, s.main = .pushed fd → s.curWorkerInd = w) :
    Emptying (sendComm c s w msg main cur) := by
  unfold ThreadPool.sendComm
  split
  · exact ⟨h.base, h.queue⟩
  · next hpc =>
    constructor
    · exact forall_setWorker (P := fun _ y => y.pc = .left → y.fds = []) (fun hl => absurd hl hpc)
        fun w' _ => h.base w'
    · refine forall_setWorker (P := fun w' y => y.pc = .left →
        y.queued = [] ∨ ∃ fd, main = .pushed fd ∧ cur = w') (fun hl => absurd hl hpc) fun w' hw hl => ?_
      rcases h.queue w' hl with hq | ⟨fd, hm, hw'⟩
      · exact .inl hq
      · exact absurd (hw'.symm.trans (hcur fd hm)) hw

theorem step_emptying {c : Cfg} {s s' : St} {a : Act} (h : Emptying s) (hok : Emptied s a)
    (hs : Step c s a s') : Emptying s' := by
  cases hs with
  | accept _ hm | sigint hm | loopexit hm | mainLeave hm _ | join hm _ => exact h.moveMain rfl (by simp [hm])
  | peerClose _ => exact ⟨h.base, h.queue⟩
  | push hm => exact h.push hm
  | sendConn _ => exact h.sendComm fun _ _ => rfl
  | sendTerm hm _ => exact h.sendComm (by simp [hm])
  | mainMsg _ _ _ | popNone _ _ _ | popSome _ _ _ | register _ _ =>
    exact h.setWorker (by simp [Worker.register])
  | recv _ hpc =>
    refine h.setWorker fun hl => ?_
    unfold Worker.recvMsg at hl
    split at hl <;> cases hl
  | @client w _ x _ _ _ _ _ _ _ hpc' _ _ =>
    have hset : Emptying (s.setWorker w x) := by
      refine h.setWorker fun hl => ?_
      rw [hl] at hpc'; cases hpc'
    exact ⟨hset.base, hset.queue⟩
  | @close w fd _ _ _ hpc _ =>
    have hset : Emptying (s.setWorker w ((s.workers w).freed fd)) := h.setWorker (by simp [Worker.freed, hpc])
    exact ⟨hset.base, hset.queue⟩
  | leave _ _ _ => exact h.setWorker fun _ => hok

/-- The main thread returns after every worker has left. -/
theorem reach_left {c : Cfg} {s : St} (h : Reach (step c) Any init s) (hm : s.main = .returned) :
    ∀ w < c.concur, (s.workers w).pc = .left := by
  induction h with
  | refl => cases hm
  | @tail s a s' _ _ hstep ih =>
    cases step_sound hstep with
    | accept _ _ | push _ | sigint _ | loopexit _ | mainLeave _ _ => cases hm
    | join _ hl => exact hl
    | peerClose _ => exact ih hm
    | sendConn hp | sendTerm hp _ =>
      rcases sendComm_main with hm' | hm'
      · rw [hm', hp] at hm; cases hm
      · rw [hm'] at hm; cases hm
    | mainMsg hw hpc _ | recv hw hpc | popNone hw hpc _ | popSome hw hpc _ | register hw hpc | close hw hpc _
    | leave hw hpc _ =>
      have hl := ih hm _ hw
      rw [hpc] at hl; cases hl
    | client _ _ _ _ hw _ hpc _ _ _ =>
      have hl := ih hm _ hw
      rw [hl] at hpc; cases hpc

/-- At the end, the connections closed are those in no event base or queue. -/
theorem returned_closed_iff {c : Cfg} {s : St} (h : Reach (step c) Any init s) (hm : s.main = .returned) :
    (∀ n < s.kern.opened, s.kern.closes n = 1) ↔
      ∀ w < c.concur, (s.workers w).fds = [] ∧ (s.workers w).queued = [] := by
  obtain ⟨t, ht, hr⟩ := reach_refines h
  have hleft := reach_left h hm
  constructor
  · intro hall w _
    have hnone : ∀ fd n, s.kern.ofd fd ≠ some n := by
      intro fd n hopen
      have := hall n (FdTable.lt_opened hopen)
      rw [FdTable.closes_of_open hopen] at this
      cases this
    constructor
    · refine List.eq_nil_iff_forall_not_mem.mpr fun fd hfd => ?_
      obtain ⟨n, -, hopen⟩ := hr.baseOpen w fd hfd
      exact hnone fd n hopen
    · refine List.eq_nil_iff_forall_not_mem.mpr fun fd hfd => ?_
      obtain ⟨n, -, hopen⟩ := hr.queued_open hfd
      exact hnone fd n hopen
  · intro hempty n hn
    refine (FdTable.closes_eq_one_iff hn).mpr fun fd hopen => ?_
    obtain ⟨p, hat⟩ := hr.at_exists ht hopen
    have hlt : ∀ w, p.worker = some w → w < c.concur := by
      intro w hw
      rw [hr.at_worker ht hat hw]
      exact Nat.mod_lt n c.concur_pos
    cases p with
    | hand =>
      obtain ⟨g, hg, -⟩ := hat
      rw [hm] at hg; cases hg
    | queue w =>
      obtain ⟨g, hg, -⟩ := hat
      rw [(hempty w (hlt w rfl)).2] at hg; cases hg
    | popped w =>
      obtain ⟨g, hg, -⟩ := hat
      rw [hleft w (hlt w rfl)] at hg; cases hg
    | base w =>
      obtain ⟨g, hg, -⟩ := hat
      rw [(hempty w (hlt w rfl)).1] at hg; cases hg

/-- Worker `w` left its loop with a connection registered or queued. -/
def LeftBehind (s : St) (w : Nat) : Prop :=
  (s.workers w).pc = .left ∧ ((s.workers w).fds ≠ [] ∨ (s.workers w).queued ≠ [])

theorem setWorker_leftBehind {s : St} {w w' : Nat} {x : Worker} (h : LeftBehind s w)
    (hpc : (s.workers w').pc ≠ .left) : LeftBehind (s.setWorker w' x) w := by
  have hw : w ≠ w' := fun he => hpc (he ▸ h.1)
  unfold LeftBehind
  rw [setWorker_of_ne hw]
  exact h

theorem step_leftBehind {c : Cfg} {s s' : St} {a : Act} {w : Nat} (hs : Step c s a s') (h : LeftBehind s w) :
    LeftBehind s' w := by
  have hsend : ∀ k msg main cur, LeftBehind (sendComm c s k msg main cur) w := by
    intro k msg main cur
    unfold sendComm
    split
    · exact h
    · next hpc => exact setWorker_leftBehind h hpc
  cases hs with
  | accept _ _ | sigint _ | loopexit _ | mainLeave _ _ | join _ _ | peerClose _ => exact h
  | push _ =>
    by_cases hw : w = s.curWorkerInd
    · subst hw
      refine ⟨by simpa [pushConn] using h.1, .inr ?_⟩
      simp [pushConn, Worker.queued, ThreadSafeQueue.push]
    · unfold LeftBehind
      simp only [pushConn, setWorker_of_ne hw]
      exact h
  | sendConn _ | sendTerm _ _ => exact hsend _ _ _ _
  | mainMsg _ hpc _ | recv _ hpc | popNone _ hpc _ | popSome _ hpc _ | register _ hpc | close _ hpc _
  | leave _ hpc _ => exact setWorker_leftBehind h (by simp [hpc])
  | client _ _ _ _ _ _ hpc _ _ _ =>
    refine setWorker_leftBehind h fun hl => ?_
    rw [hl] at hpc; cases hpc

/-- A run either meets `Emptied` throughout or has left a connection behind. -/
theorem emptied_or_leftBehind {c : Cfg} {s : St} (h : Reach (step c) Any init s) :
    Reach (step c) Emptied init s ∨ ∃ w < c.concur, LeftBehind s w := by
  induction h with
  | refl => exact .inl .refl
  | @tail s a s' _ _ hstep ih =>
    have hs := step_sound hstep
    rcases ih with hr | ⟨w, hw, hl⟩
    · by_cases hok : Emptied s a
      · exact .inl (.tail hr hok hstep)
      · cases hs with
        | @leave w hw hpc _ =>
          refine .inr ⟨w, hw, by simp, ?_⟩
          rw [setWorker_self]
          exact not_and_or.mp hok
        | @client w a _ _ _ _ _ _ ha _ _ _ _ =>
          cases a with
          | leave => exact absurd rfl ha
          | _ => exact absurd trivial hok
        | _ => exact absurd trivial hok
    · exact .inr ⟨w, hw, step_leftBehind hs hl⟩

/-- **Every connection is closed exactly if none was left behind.** When
`start_libev_adv_server` returns, every connection ever accepted has been
closed exactly once if and only if the run got there with each worker
leaving its loop with nothing registered or queued. -/
theorem returned_closed {c : Cfg} {s : St} (h : Reach (step c) Any init s) (hm : s.main = .returned) :
    (∀ n < s.kern.opened, s.kern.closes n = 1) ↔ Reach (step c) Emptied init s := by
  rw [returned_closed_iff h hm]
  constructor
  · intro hempty
    rcases emptied_or_leftBehind h with hr | ⟨w, hw, -, hl⟩
    · exact hr
    · rcases hl with hl | hl
      · exact absurd (hempty w hw).1 hl
      · exact absurd (hempty w hw).2 hl
  · intro hr w hw
    have hemptying : Emptying s := by
      refine hr.invariant init_emptying fun _ _ _ hs hok hstep => ?_
      exact step_emptying hs hok (step_sound hstep)
    have hleft := reach_left h hm w hw
    refine ⟨hemptying.base w hleft, ?_⟩
    rcases hemptying.queue w hleft with hq | ⟨fd, hp, -⟩
    · exact hq
    · rw [hm] at hp; cases hp

/-- The only client leaves before SIGINT comes. -/
def emptiedRun : List Act :=
  [.main (.accept 7), .main .push, .main .sendConn, .worker 0 .mainMsg, .worker 0 .recv, .worker 0 .tryPop,
   .worker 0 .register, .worker 0 .tryPop, .worker 0 .recv, .peerClose 0, .worker 0 (.clientEvent 7 true false),
   .main .sigint, .main .sendTerm, .main .loopexit, .main .leave, .worker 0 .mainMsg, .worker 0 .recv,
   .worker 0 .leave, .main .join]

theorem emptiedRun_run : (run (step oneWorker) init emptiedRun).isSome := by decide +kernel

/-- `returned_closed` at the end of `emptiedRun`. -/
theorem returned_closed_demo :
    let s := (run (step oneWorker) init emptiedRun).get emptiedRun_run
    (∀ n < s.kern.opened, s.kern.closes n = 1) ↔ Reach (step oneWorker) Emptied init s :=
  returned_closed (reach_get emptiedRun_run) (by decide +kernel)

/-- SIGINT comes while a client is connected. -/
def connectedRun : List Act :=
  [.main (.accept 7), .main .push, .main .sendConn, .worker 0 .mainMsg, .worker 0 .recv, .worker 0 .tryPop,
   .worker 0 .register, .worker 0 .tryPop, .worker 0 .recv, .main .sigint, .main .sendTerm, .main .loopexit,
   .main .leave, .worker 0 .mainMsg, .worker 0 .recv, .worker 0 .leave, .main .join]

theorem connectedRun_run : (run (step oneWorker) init connectedRun).isSome := by decide +kernel

/-- **A connected client is never closed.** The server has returned, and the
one connection it accepted is still open. -/
theorem connected_unclosed : ∃ s, Reach (step oneWorker) Any init s ∧ s.main = .returned ∧
    0 < s.kern.opened ∧ s.kern.closes 0 = 0 :=
  ⟨_, reach_get connectedRun_run, by decide +kernel⟩

end LinuxServer.ThreadPool
