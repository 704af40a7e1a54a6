/-
The wake-up bytes: a worker looks at its queue only after a
COMM_NEW_CONNECTED byte, and the send of that byte does nothing when the
pipe is full.

`WorkerComm` says why no connection is stranded all the same: a full pipe
with no COMM_TERMINATE in it starts with a COMM_NEW_CONNECTED, and one byte
drains the whole queue.
-/
import LinuxServer.ThreadPool.Dispatch

namespace LinuxServer.ThreadPool

open Lts RoundRobin

/-- In the drain loop of a COMM_NEW_CONNECTED byte, before the failing `try_pop`. -/
def WorkerPc.draining : WorkerPc → Bool
  | .tryPop | .popped _ => true
  | _ => false

/-- In `main_msg_cb`. -/
def WorkerPc.inMainMsg : WorkerPc → Bool
  | .recv | .tryPop | .popped _ => true
  | _ => false

/-- Connection `n` was accepted, and so pushed, before a COMM_TERMINATE went
into the worker's pipe. -/
def Worker.beforeTerm (x : Worker) (n : Nat) : Prop := ∀ m, x.termSent = some m → n < m

/-- The pipe holds a COMM_NEW_CONNECTED ahead of any COMM_TERMINATE. -/
def ConnAhead (pipe : List CommMsgType) : Prop :=
  ∃ pre post, pipe = pre ++ .commNewConnected :: post ∧ .commTerminate ∉ pre

/-- What worker `x` has been sent, and what it will look at. -/
structure WorkerComm (s : St) (x : Worker) : Prop where
  busy : x.pc.inMainMsg = true → x.exitAsked = false
  term : .commTerminate ∈ x.commPipe → x.termSent ≠ none
  termUnread : x.termSent ≠ none → x.exitAsked = false → .commTerminate ∈ x.commPipe
  termLe : ∀ m, x.termSent = some m → m ≤ s.kern.opened
  signalled : x.exitAsked = false → ∀ fd ∈ x.queued, ∀ n, s.kern.ofd fd = some n → x.beforeTerm n →
    s.main = .pushed fd ∨ x.commPipe.head? = some .commNewConnected ∨ x.pc.draining = true

/-- The connection in hand is the latest: every COMM_TERMINATE sent was sent before it. -/
structure Comm (s : St) : Prop where
  worker : ∀ w, WorkerComm s (s.workers w)
  current : ∀ fd n, s.main = .hand fd ∨ s.main = .pushed fd → s.kern.ofd fd = some n →
    s.kern.opened = n + 1 ∧ ∀ w m, (s.workers w).termSent = some m → m ≤ n

theorem init_comm : Comm init := by
  constructor
  · intro w
    constructor <;> simp [init, Worker.init, WorkerPc.inMainMsg, Worker.queued]
  · simp [init]

/-- A pipe without COMM_TERMINATE that holds something starts with COMM_NEW_CONNECTED. -/
theorem head_of_no_term {pipe : List CommMsgType} (hne : pipe ≠ []) (hno : .commTerminate ∉ pipe) :
    pipe.head? = some .commNewConnected := by
  cases pipe with
  | nil => exact absurd rfl hne
  | cons msg pipe =>
    cases msg with
    | commNewConnected => rfl
    | commTerminate => simp at hno

/-! ## Steps -/

/-- What other threads do to a worker's queue and pipe aside, they only open
and close descriptors and move the main thread on. -/
theorem WorkerComm.mono {s s' : St} {x : Worker} (h : WorkerComm s x)
    (hopened : s.kern.opened ≤ s'.kern.opened)
    (hofd : ∀ fd ∈ x.queued, ∀ n, s'.kern.ofd fd = some n → s.kern.ofd fd = some n)
    (hmain : ∀ fd ∈ x.queued, s.main = .pushed fd → s'.main = .pushed fd) : WorkerComm s' x := by
  refine ⟨h.busy, h.term, h.termUnread, fun m hm => Nat.le_trans (h.termLe m hm) hopened,
    fun he fd hq n hn hb => ?_⟩
  rcases h.signalled he fd hq n (hofd fd hq n hn) hb with hm | hpipe | hdrain
  · exact .inl (hmain fd hq hm)
  · exact .inr (.inl hpipe)
  · exact .inr (.inr hdrain)

theorem Comm.setWorker {s : St} {w : Nat} {x : Worker} (h : Comm s) (hterm : x.termSent = (s.workers w).termSent)
    (hx : WorkerComm s x) : Comm (s.setWorker w x) := by
  have hsame : ∀ {y}, WorkerComm s y → WorkerComm (s.setWorker w x) y :=
    fun hy => hy.mono (Nat.le_refl _) (fun _ _ _ hn => hn) fun _ _ hm => hm
  refine ⟨?_, fun fd n hm hn => ⟨(h.current fd n hm hn).1, ?_⟩⟩
  · exact forall_setWorker (P := fun _ y => WorkerComm (s.setWorker w x) y) (hsame hx)
      fun w' _ => hsame (h.worker w')
  · refine forall_setWorker (P := fun _ y => ∀ m, y.termSent = some m → m ≤ n) ?_ fun w' _ => ?_
    · rw [hterm]
      exact (h.current fd n hm hn).2 w
    · exact (h.current fd n hm hn).2 w'

theorem Comm.moveMain {s s' : St} (h : Comm s) (hsame : (s'.workers, s'.kern) = (s.workers, s.kern))
    (hno : ∀ fd, s.main ≠ .pushed fd) (hno' : ∀ fd, s'.main ≠ .hand fd ∧ s'.main ≠ .pushed fd) : Comm s' := by
  simp only [Prod.mk.injEq] at hsame
  obtain ⟨hworkers, hkern⟩ := hsame
  refine ⟨fun w => ?_, fun fd n hm => ?_⟩
  · rw [hworkers]
    exact (h.worker w).mono (by rw [hkern]) (fun _ _ _ hn => hkern ▸ hn) fun fd _ hm => absurd hm (hno fd)
  · rcases hm with hm | hm
    · exact absurd hm (hno' fd).1
    · exact absurd hm (hno' fd).2

theorem Comm.accept {c : Cfg} {s : St} {t : Lanes} {fd : Nat} (h : Comm s) (hr : Refines c s t)
    (hm : s.main = .loop) (hf : s.kern.ofd fd = none) :
    Comm { s with main := .hand fd, kern := s.kern.alloc fd hf } := by
  refine ⟨fun w => (h.worker w).mono (Nat.le_succ _) (fun g hg n hn => ?_) (by simp [hm]), fun g n hg hn => ?_⟩
  · obtain ⟨m, -, hopen⟩ := hr.queued_open hg
    rcases FdTable.alloc_ofd_cases hf hn with ⟨rfl, -⟩ | ⟨-, hold⟩
    · rw [hf] at hopen; cases hopen
    · exact hold
  · rcases hg with hg | hg
    · cases hg
      simp only [FdTable.alloc_ofd_self, Option.some.injEq] at hn
      subst hn
      exact ⟨rfl, fun w m hm' => (h.worker w).termLe m hm'⟩
    · cases hg

theorem Comm.push {s : St} {fd : Nat} (h : Comm s) (hm : s.main = .hand fd) : Comm (pushConn s fd) := by
  have hx := h.worker s.curWorkerInd
  refine ⟨fun w => ?_, fun g n hg hn => ?_⟩
  · by_cases hw : w = s.curWorkerInd
    · subst hw
      simp only [pushConn, setWorker_self]
      refine ⟨hx.busy, hx.term, hx.termUnread, hx.termLe, fun he g hg n hn hb => ?_⟩
      simp only [Worker.queued, ThreadSafeQueue.push, List.map_append, List.map_cons, List.map_nil,
        List.mem_append, List.mem_singleton] at hg
      rcases hg with hg | rfl
      · rcases hx.signalled he g hg n hn hb with hm' | hpipe | hdrain
        · rw [hm] at hm'; cases hm'
        · exact .inr (.inl hpipe)
        · exact .inr (.inr hdrain)
      · exact .inl rfl
    · simp only [pushConn, setWorker_of_ne hw]
      exact (h.worker w).mono (Nat.le_refl _) (fun _ _ _ hn => hn) fun g _ hm' => by rw [hm] at hm'; cases hm'
  · have he : g = fd := by
      rcases hg with hg | hg
      · cases hg
      · cases hg; rfl
    subst he
    obtain ⟨hopened, hterm⟩ := h.current g n (.inl hm) hn
    refine ⟨hopened, fun w m hw => hterm w m ?_⟩
    by_cases hcur : w = s.curWorkerInd
    · subst hcur; simpa [pushConn] using hw
    · simpa [pushConn, St.setWorker, hcur] using hw

/-- The send of COMM_NEW_CONNECTED to a worker whose queue may hold the
connection just pushed. Where it finds no room, what the pipe holds is a
COMM_NEW_CONNECTED already. -/
theorem WorkerComm.sendConn {c : Cfg} {s : St} {fd : Nat} {x : Worker} (h : WorkerComm s x)
    (hm : s.main = .pushed fd)
    (hcur : ∀ n, s.kern.ofd fd = some n → ∀ m, x.termSent = some m → m ≤ n) :
    WorkerComm { s with main := .loop } (x.send c s.kern.opened .commNewConnected) := by
  have hterm : (x.send c s.kern.opened .commNewConnected).termSent = x.termSent := by simp [Worker.send]
  refine ⟨h.busy, fun ht => ?_, fun ht he => ?_, fun m hm' => ?_, fun he g hg n hn hb => ?_⟩
  · rw [hterm]
    rcases Fifo.trySend_sub ht with ht | ht
    · exact h.term ht
    · cases ht
  · rw [hterm] at ht
    exact Fifo.mem_trySend (h.termUnread ht he)
  · rw [hterm] at hm'
    exact h.termLe m hm'
  · simp only [Worker.beforeTerm, hterm] at hb
    rcases h.signalled he g hg n hn hb with hm' | hpipe | hdrain
    · rw [hm, MainPc.pushed.injEq] at hm'
      subst hm'
      have hno : .commTerminate ∉ x.commPipe := by
        intro ht
        obtain ⟨m, hsent⟩ := Option.ne_none_iff_exists'.mp (h.term ht)
        have hle := hcur n hn m hsent
        have hlt := hb m hsent
        omega
      refine .inr (.inl (head_of_no_term ?_ ?_))
      · by_cases hroom : x.commPipe.length < c.pipeCap
        · simp [Worker.send, Fifo.trySend_room hroom]
        · simpa [Worker.send, Fifo.trySend_full hroom] using Fifo.ne_nil_of_full c.pipeCap_pos hroom
      · intro ht
        rcases Fifo.trySend_sub ht with ht | ht
        · exact hno ht
        · cases ht
    · exact .inr (.inl (Fifo.head?_trySend hpipe))
    · exact .inr (.inr hdrain)

/-- The send of COMM_TERMINATE: with room for it, every connection accepted so far comes before it. -/
theorem WorkerComm.sendTerm {c : Cfg} {s : St} {x : Worker} (h : WorkerComm s x)
    (hno : ∀ fd, s.main ≠ .pushed fd) (main : MainPc) :
    WorkerComm { s with main := main } (x.send c s.kern.opened .commTerminate) := by
  have hkeep : ∀ m, x.termSent = some m → (x.send c s.kern.opened .commTerminate).termSent = some m := by
    intro m hm
    simp [Worker.send, hm]
  refine ⟨h.busy, fun ht => ?_, fun ht he => ?_, fun m hm => ?_, fun he g hg n hn hb => ?_⟩
  · cases hsent : x.termSent with
    | some m => rw [hkeep m hsent]; simp
    | none =>
      have hroom : x.commPipe.length < c.pipeCap := by
        by_contra hfull
        simp only [Worker.send, Fifo.trySend_full hfull] at ht
        exact h.term ht hsent
      simp [Worker.send, hsent, hroom]
  · by_cases hroom : x.commPipe.length < c.pipeCap
    · exact Fifo.mem_trySend_of_room hroom
    · simp only [Worker.send, hroom, and_false, if_false] at ht
      exact Fifo.mem_trySend (h.termUnread ht he)
  · simp only [Worker.send] at hm
    split at hm
    · exact Nat.le_of_eq (Option.some.inj hm).symm
    · exact h.termLe m hm
  · rcases h.signalled he g hg n hn fun m hm => hb m (hkeep m hm) with hm' | hpipe | hdrain
    · exact absurd hm' (hno g)
    · exact .inr (.inl (Fifo.head?_trySend hpipe))
    · exact .inr (.inr hdrain)

/-- The connection just pushed can only be in the queue it was pushed to. -/
theorem Comm.pushed_queue {c : Cfg} {s : St} {t : Lanes} {fd w : Nat} (h : Comm s) (hr : Refines c s t)
    (ht : Reach (RoundRobin.step c.concur) Any RoundRobin.init t) (hm : s.main = .pushed fd)
    (hq : fd ∈ (s.workers w).queued) : w = s.curWorkerInd := by
  obtain ⟨n, hwait, hopen⟩ := hr.queued_open hq
  obtain ⟨n', hdealt, hcur⟩ := hr.turnPushed fd hm
  have hlatest := (h.current fd n (.inr hm) hopen).1
  have hopened : s.kern.opened = t.dealt := hr.noHand (by simp [hm])
  have hw := ((mem_lane ht).mp (.inr hwait)).2
  obtain rfl : n' = n := by omega
  rw [hcur, hw]

theorem Comm.sendComm {c : Cfg} {s : St} {w cur : Nat} {msg : CommMsgType} {main : MainPc} (h : Comm s)
    (hmain : ∀ fd, main ≠ .hand fd ∧ main ≠ .pushed fd)
    (hother : ∀ w' fd, w' ≠ w → fd ∈ (s.workers w').queued → s.main ≠ .pushed fd)
    (hx : WorkerComm { s with main := main } ((s.workers w).send c s.kern.opened msg)) :
    Comm (sendComm c s w msg main cur) := by
  unfold ThreadPool.sendComm
  split
  · exact ⟨fun w' => (h.worker w').mono (Nat.le_refl _) (fun _ _ _ hn => hn) fun _ _ hm => hm, h.current⟩
  · refine ⟨?_, fun fd n hm => ?_⟩
    · refine forall_setWorker (P := fun _ y => WorkerComm _ y) ?_ fun w' hw => ?_
      · exact hx.mono (Nat.le_refl _) (fun _ _ _ hn => hn) fun fd _ hm => absurd hm (hmain fd).2
      · exact (h.worker w').mono (Nat.le_refl _) (fun _ _ _ hn => hn) fun fd hq hm => absurd hm (hother w' fd hw hq)
    · rcases hm with hm | hm
      · exact absurd hm (hmain fd).1
      · exact absurd hm (hmain fd).2

/-- `recv` and its `switch`: an empty pipe or a COMM_TERMINATE at its front
means that no connection is waiting for its byte. -/
theorem WorkerComm.recvMsg {s : St} {x : Worker} (h : WorkerComm s x) (hpc : x.pc = .recv) :
    WorkerComm s x.recvMsg := by
  have hexit : x.exitAsked = false := h.busy (by simp [hpc, WorkerPc.inMainMsg])
  have hdrain : x.pc.draining = false := by simp [hpc, WorkerPc.draining]
  unfold Worker.recvMsg
  split
  · refine ⟨by simp [WorkerPc.inMainMsg], h.term, h.termUnread, h.termLe, fun _ fd hq n hn hb => ?_⟩
    rcases h.signalled hexit fd hq n hn hb with hm | hpipe | hd
    · exact .inl hm
    · exact .inr (.inl hpipe)
    · rw [hdrain] at hd; cases hd
  · next pipe hpipe =>
    refine ⟨fun _ => hexit, fun ht => ?_, fun hsent _ => ?_, h.termLe, fun _ _ _ _ _ _ => .inr (.inr rfl)⟩
    · exact h.term (by rw [hpipe]; exact List.mem_cons_of_mem _ ht)
    · have := h.termUnread hsent hexit
      simpa [hpipe] using this
  · next pipe hpipe =>
    refine ⟨by simp [WorkerPc.inMainMsg], fun ht => ?_, by simp, h.termLe, by simp⟩
    exact h.term (by rw [hpipe]; exact List.mem_cons_of_mem _ ht)

theorem WorkerComm.drain {s : St} {x x' : Worker} (h : WorkerComm s x) (hpc : x.pc.inMainMsg = true)
    (hsame : (x'.commPipe, x'.exitAsked, x'.termSent) = (x.commPipe, x.exitAsked, x.termSent))
    (hdrain : x'.queued = [] ∨ x'.pc.draining = true) : WorkerComm s x' := by
  simp only [Prod.mk.injEq] at hsame
  obtain ⟨hpipe, hexit, hterm⟩ := hsame
  refine ⟨fun _ => hexit.trans (h.busy hpc), ?_, ?_, ?_, fun _ fd hq n hn hb => ?_⟩
  · rw [hpipe, hterm]; exact h.term
  · rw [hpipe, hterm, hexit]; exact h.termUnread
  · rw [hterm]; exact h.termLe
  · rcases hdrain with hnil | hd
    · rw [hnil] at hq; cases hq
    · exact .inr (.inr hd)

theorem WorkerComm.client {s : St} {x x' : Worker} (h : WorkerComm s x) (hpc : x.pc.client = true)
    (hpc' : x'.pc.client = true) (hshared : x'.shared = x.shared) : WorkerComm s x' := by
  have hidle : ∀ pc : WorkerPc, pc.client = true → pc.draining = false ∧ pc.inMainMsg = false := by
    intro pc hcl
    cases pc <;> first | exact ⟨rfl, rfl⟩ | cases hcl
  simp only [Worker.shared, Prod.mk.injEq] at hshared
  obtain ⟨hpipe, hqueued, -, hexit, -, -, hterm⟩ := hshared
  refine ⟨fun hb => ?_, ?_, ?_, ?_, fun he fd hq n hn hb => ?_⟩
  · rw [(hidle _ hpc').2] at hb; cases hb
  · rw [hpipe, hterm]; exact h.term
  · rw [hpipe, hterm, hexit]; exact h.termUnread
  · rw [hterm]; exact h.termLe
  · rw [hexit] at he
    rw [hqueued] at hq
    have hb' : x.beforeTerm n := by simpa [Worker.beforeTerm, hterm] using hb
    have hsig := h.signalled he fd hq n hn hb'
    rw [(hidle _ hpc).1] at hsig
    rw [hpipe, (hidle _ hpc').1]
    exact hsig

theorem Comm.close {s : St} {fd : Nat} (h : Comm s) : Comm { s with kern := s.kern.close fd } := by
  have hofd : ∀ g n, (s.kern.close fd).ofd g = some n → s.kern.ofd g = some n := by
    intro g n hg
    exact (FdTable.close_ofd_some.mp hg).2
  refine ⟨fun w => (h.worker w).mono (by simp) (fun g _ n hn => hofd g n hn) fun _ _ hm => hm,
    fun g n hm hn => ?_⟩
  obtain ⟨hopened, hterm⟩ := h.current g n hm (hofd g n hn)
  exact ⟨FdTable.close_opened.trans hopened, hterm⟩

theorem step_comm {c : Cfg} {s s' : St} {t : Lanes} {a : Act} (h : Comm s) (hr : Refines c s t)
    (ht : Reach (RoundRobin.step c.concur) Any RoundRobin.init t) (hs : Step c s a s') : Comm s' := by
  cases hs with
  | accept hf hm => exact h.accept hr hm hf
  | push hm => exact h.push hm
  | @sendConn fd hm =>
    refine h.sendComm (by simp) (fun w' g hw hq hm' => hw (h.pushed_queue hr ht hm' hq)) ?_
    exact (h.worker _).sendConn hm fun n hn => (h.current fd n (.inr hm) hn).2 _
  | sendTerm hm _ =>
    exact h.sendComm (by simp) (by simp [hm]) ((h.worker _).sendTerm (by simp [hm]) _)
  | sigint hm | loopexit hm | mainLeave hm _ | join hm _ => exact h.moveMain rfl (by simp [hm]) (by simp)
  | peerClose _ =>
    exact ⟨fun w => (h.worker w).mono (Nat.le_refl _) (fun _ _ _ hn => hn) fun _ _ hm => hm, h.current⟩
  | @mainMsg w _ hpc hexit =>
    have hx := h.worker w
    refine h.setWorker rfl ⟨fun _ => hexit, hx.term, hx.termUnread, hx.termLe, fun he fd hq n hn hb => ?_⟩
    simpa [hpc, WorkerPc.draining] using hx.signalled he fd hq n hn hb
  | @recv w _ hpc =>
    refine h.setWorker ?_ ((h.worker w).recvMsg hpc)
    unfold Worker.recvMsg
    split <;> rfl
  | popNone _ hpc hq =>
    exact h.setWorker rfl ((h.worker _).drain (by simp [hpc, WorkerPc.inMainMsg]) rfl (.inl hq))
  | popSome _ hpc _ | register _ hpc =>
    exact h.setWorker rfl ((h.worker _).drain (by simp [hpc, WorkerPc.inMainMsg]) rfl (.inr rfl))
  | @client w _ x _ _ _ _ _ _ hpc hpc' hshared _ =>
    have hterm : x.termSent = (s.workers w).termSent := by
      simp only [Worker.shared, Prod.mk.injEq] at hshared
      exact hshared.2.2.2.2.2.2
    have hset : Comm (s.setWorker w x) := h.setWorker hterm ((h.worker w).client hpc hpc' hshared)
    exact ⟨fun w' => (hset.worker w').mono (Nat.le_refl _) (fun _ _ _ hn => hn) fun _ _ hm => hm, hset.current⟩
  | @close w fd _ _ _ _ _ =>
    have hset : Comm (s.setWorker w ((s.workers w).freed fd)) := by
      have hx := h.worker w
      exact h.setWorker rfl ⟨hx.busy, hx.term, hx.termUnread, hx.termLe, hx.signalled⟩
    exact hset.close
  | @leave w _ _ hexit =>
    have hx := h.worker w
    refine h.setWorker rfl ⟨by simp [WorkerPc.inMainMsg], hx.term, hx.termUnread, hx.termLe, fun he => ?_⟩
    rw [hexit] at he
    cases he

theorem reach_comm {c : Cfg} {s : St} (h : Reach (step c) Any init s) : Comm s := by
  induction h with
  | refl => exact init_comm
  | tail hr _ hstep ih =>
    obtain ⟨t, ht, href⟩ := reach_refines hr
    exact step_comm ih href ht (step_sound hstep)

theorem connAhead_of_head {pipe : List CommMsgType} (h : pipe.head? = some .commNewConnected) : ConnAhead pipe := by
  obtain ⟨rest, rfl⟩ := List.head?_eq_some_iff.mp h
  exact ⟨[], rest, rfl, by simp⟩

/-- **No connection is stranded by a dropped wake-up byte.** In every run,
for every pipe capacity: a connection in the queue of a worker that has not
handled COMM_TERMINATE, pushed before one was sent to it, has its send to
come, or a COMM_NEW_CONNECTED ahead in the pipe, or the worker draining the
queue; and when the worker comes to handle COMM_TERMINATE it has registered
every connection of its own pushed before that byte was sent. -/
theorem wakeup_pending {c : Cfg} {s : St} (h : Reach (step c) Any init s) (w : Nat) :
    ((s.workers w).exitAsked = false → ∀ fd ∈ (s.workers w).queued, ∀ n, s.kern.ofd fd = some n →
      (s.workers w).beforeTerm n →
      s.main = .pushed fd ∨ ConnAhead (s.workers w).commPipe ∨ (s.workers w).pc.draining = true) ∧
    ((s.workers w).pc = .recv → (s.workers w).commPipe.head? = some .commTerminate →
      (∃ m, (s.workers w).termSent = some m) ∧
      ∀ n, (s.workers w).beforeTerm n → n % c.concur = w → n ∈ (s.workers w).registered) := by
  have hcomm := reach_comm h
  have hx := hcomm.worker w
  refine ⟨fun he fd hq n hn hb => ?_, fun hpc hhead => ?_⟩
  · rcases hx.signalled he fd hq n hn hb with hm | hpipe | hdrain
    · exact .inl hm
    · exact .inr (.inl (connAhead_of_head hpipe))
    · exact .inr (.inr hdrain)
  obtain ⟨t, ht, hr⟩ := reach_refines h
  have hexit : (s.workers w).exitAsked = false := hx.busy (by simp [hpc, WorkerPc.inMainMsg])
  obtain ⟨m, hsent⟩ := Option.ne_none_iff_exists'.mp (hx.term (List.mem_of_mem_head? hhead))
  refine ⟨⟨m, hsent⟩, fun n hb hw => ?_⟩
  have hnm := hb m hsent
  have hdealt : n < t.dealt := by
    have hle := hx.termLe m hsent
    cases hm : s.main with
    | hand fd =>
      obtain ⟨hopen, hopened⟩ := hr.hand fd hm
      have := (hcomm.current fd _ (.inl hm) hopen).2 w m hsent
      omega
    | loop | pushed fd | signalling k | joining | returned =>
      have := hr.noHand (by simp [hm])
      omega
  rcases (mem_lane ht).mpr ⟨hdealt, hw⟩ with htaken | hwait
  · rwa [hr.settled w (by simp [hpc, WorkerPc.poppedFd])] at htaken
  · obtain ⟨fd, hq, hopen⟩ := hr.waiting_queued hwait
    rcases hx.signalled hexit fd hq n hopen hb with hm | hpipe | hdrain
    · have := (hcomm.current fd n (.inr hm) hopen).2 w m hsent
      omega
    · rw [hhead] at hpipe; cases hpipe
    · simp [hpc, WorkerPc.draining] at hdrain

/-- Pipes of one byte: the byte of connection 0 is unread when connection 2
is pushed for the same worker, and that send is dropped. -/
def droppedRun : List Act :=
  [.main (.accept 7), .main .push, .main .sendConn, .main (.accept 8), .main .push, .main .sendConn,
   .main (.accept 9), .main .push, .main .sendConn]

theorem droppedRun_run : (run (step demoCfg) init droppedRun).isSome := by decide +kernel

/-- `wakeup_pending` for worker 0 at the end of `droppedRun`, where two
connections wait behind one byte. -/
theorem wakeup_pending_demo :
    let s := (run (step demoCfg) init droppedRun).get droppedRun_run
    ((s.workers 0).exitAsked = false → ∀ fd ∈ (s.workers 0).queued, ∀ n, s.kern.ofd fd = some n →
      (s.workers 0).beforeTerm n →
      s.main = .pushed fd ∨ ConnAhead (s.workers 0).commPipe ∨ (s.workers 0).pc.draining = true) ∧
    ((s.workers 0).pc = .recv → (s.workers 0).commPipe.head? = some .commTerminate →
      (∃ m, (s.workers 0).termSent = some m) ∧
      ∀ n, (s.workers 0).beforeTerm n → n % demoCfg.concur = 0 → n ∈ (s.workers 0).registered) :=
  wakeup_pending (reach_get droppedRun_run) 0

end LinuxServer.ThreadPool
