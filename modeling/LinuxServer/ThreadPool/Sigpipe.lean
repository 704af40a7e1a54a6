/-
Writes after the other end has gone. SIGPIPE has its default action in this
server, so such a write can kill it.

libevent writes a reply some time after `client_msg_cb` queued it, which is
100 ms after the message was read; meanwhile the client may go (`Owed`). And
the main thread's callbacks send on `comm_pipes` to workers that may have
left since an earlier COMM_TERMINATE (`Target`). `InTime` is the condition
under which neither happens.
-/
import LinuxServer.ThreadPool.Dispatch

namespace LinuxServer.ThreadPool

open Lts

/-- The descriptors the worker is still to write to: that of the message it
is handling, and those with output queued. One that left writes nothing. -/
def Worker.owed (x : Worker) : List Nat :=
  if x.pc = .left then []
  else x.pc.msgFd.toList ++ (x.base.filter fun b => 0 < b.output).map (·.fd)

/-- Connection `n` has a reply to come. -/
def Owed (c : Cfg) (s : St) (n : Nat) : Prop :=
  ∃ w < c.concur, ∃ fd ∈ (s.workers w).owed, s.kern.ofd fd = some n

/-- The callback the main thread is in is still to send to worker `w`. -/
def Target (c : Cfg) (s : St) (w : Nat) : Prop :=
  match s.main with
  | .hand _ | .pushed _ => w = s.curWorkerInd
  | .signalling k => k ≤ w ∧ w < c.concur
  | .loop | .joining | .returned => False

/-- A client goes only when no reply to it is to come, and no message of it
is handled afterwards; the main thread's callbacks are called with the
workers they send to in their loops, and these stay until they were sent to. -/
def InTime (c : Cfg) (s : St) : Act → Prop
  | .peerClose n => ¬ Owed c s n
  | .worker _ (.clientMsg fd _) => s.peerGone fd = false
  | .main (.accept _) => (s.workers s.curWorkerInd).pc ≠ .left
  | .main .sigint => ∀ w < c.concur, (s.workers w).pc ≠ .left
  | .worker w .leave => ¬ Target c s w
  | _ => True

instance (c : Cfg) (s : St) (n : Nat) : Decidable (Owed c s n) :=
  inferInstanceAs (Decidable (∃ w < c.concur, ∃ fd ∈ (s.workers w).owed, s.kern.ofd fd = some n))

instance (c : Cfg) (s : St) (w : Nat) : Decidable (Target c s w) := by
  unfold Target
  split <;> infer_instance

instance (c : Cfg) (s : St) (a : Act) : Decidable (InTime c s a) := by
  unfold InTime
  split <;> infer_instance

/-- What a step of worker `w` does to the replies to come, to the history of
writes and to the worker's being there. -/
inductive Serve (s : St) (w : Nat) : WorkerAct → St → Prop
  | move {a x} (succCliCount chunks) : x.pc ≠ .left →
      (∀ fd ∈ x.owed, fd ∈ (s.workers w).owed ∨ ∃ n, a = .clientMsg fd n) →
      Serve s w a { s.setWorker w x with succCliCount := succCliCount, chunks := chunks }
  | flush {fd n sigpipe x} : x.pc ≠ .left → (∀ fd ∈ x.owed, fd ∈ (s.workers w).owed) → fd ∈ (s.workers w).owed →
      (sigpipe = true → s.peerGone fd = true) → Serve s w (.flush fd n sigpipe)
        { s.setWorker w x with
          killed := sigpipe
          writes := s.writes ++ (s.kern.ofd fd).toList.map fun conn => (conn, s.gone conn) }
  | close {fd eof error x} : x.pc ≠ .left → (∀ fd ∈ x.owed, fd ∈ (s.workers w).owed) →
      Serve s w (.clientEvent fd eof error) { s.setWorker w x with kern := s.kern.close fd }
  | leave {x} : (∀ fd ∈ x.owed, fd ∈ (s.workers w).owed) → Serve s w .leave (s.setWorker w x)

section
variable {c : Cfg} {s s' : St} {a : Act} {w fd n : Nat} {x : Worker}

/-! ## Replies to come -/

theorem mem_owed (hpc : x.pc ≠ .left) :
    fd ∈ x.owed ↔ x.pc.msgFd = some fd ∨ ∃ b ∈ x.base, 0 < b.output ∧ b.fd = fd := by
  simp [Worker.owed, hpc, and_assoc]

theorem owed_of_output (hpc : x.pc ≠ .left) (h : 0 < x.output fd) : fd ∈ x.owed := by
  rw [mem_owed hpc]
  cases hfind : x.base.find? (·.fd == fd) with
  | none => simp [Worker.output, hfind] at h
  | some b =>
    have hb : 0 < b.output := by simpa [Worker.output, hfind] using h
    exact .inr ⟨b, List.mem_of_find?_eq_some hfind, hb, by simpa using List.find?_some hfind⟩

theorem owed_setOutput {y : Worker} {g : Nat} {f : Nat → Nat} (h : fd ∈ y.owed) (hx : x.pc ≠ .left)
    (hy : y.pc ≠ .left) (hbase : y.base = (x.setOutput g f).base) (hmsg : y.pc.msgFd = none) :
    fd ∈ x.owed ∨ (fd = g ∧ ∃ b, b < f b) := by
  rcases (mem_owed hy).mp h with hm | ⟨b, hb, hpos, hfd⟩
  · rw [hmsg] at hm
    cases hm
  · rw [hbase] at hb
    obtain ⟨b', hb', rfl⟩ := List.mem_map.mp hb
    split at hpos
    · next heq =>
      rw [if_pos heq] at hfd
      by_cases hzero : 0 < b'.output
      · exact .inl ((mem_owed hx).mpr (.inr ⟨b', hb', hzero, hfd⟩))
      · exact .inr ⟨hfd ▸ heq, b'.output, by simp only at hpos; omega⟩
    · next hne =>
      rw [if_neg hne] at hfd
      exact .inl ((mem_owed hx).mpr (.inr ⟨b', hb', hpos, hfd⟩))

theorem owed_mono {y : Worker} (h : fd ∈ y.owed) (hx : x.pc ≠ .left)
    (hbase : ∀ b ∈ y.base, 0 < b.output → b ∈ x.base)
    (hmsg : ∀ fd, y.pc.msgFd = some fd → x.pc.msgFd = some fd) : fd ∈ x.owed := by
  by_cases hy : y.pc = .left
  · simp [Worker.owed, hy] at h
  · rcases (mem_owed hy).mp h with hm | ⟨b, hb, hpos, hfd⟩
    · exact (mem_owed hx).mpr (.inl (hmsg fd hm))
    · exact (mem_owed hx).mpr (.inr ⟨b, hbase b hb hpos, hpos, hfd⟩)

theorem Serve.ofMove {a : WorkerAct} (hpc : x.pc ≠ .left)
    (howed : ∀ fd ∈ x.owed, fd ∈ (s.workers w).owed ∨ ∃ n, a = .clientMsg fd n) : Serve s w a (s.setWorker w x) :=
  .move s.succCliCount s.chunks hpc howed

theorem recvMsg_keeps (x : Worker) :
    x.recvMsg.base = x.base ∧ x.recvMsg.pc.msgFd = none ∧ x.recvMsg.pc ≠ .left := by
  unfold Worker.recvMsg
  split <;> exact ⟨rfl, rfl, by simp⟩

theorem popItem_keeps (x : Worker) :
    x.popItem.base = x.base ∧ x.popItem.pc.msgFd = none ∧ x.popItem.pc ≠ .left := by
  unfold Worker.popItem
  split <;> exact ⟨rfl, rfl, by simp⟩

/-- A worker that left takes no step. -/
theorem workerStep_here {a : WorkerAct} (h : workerStep s w a = some s') : (s.workers w).pc ≠ .left := by
  intro hl
  simp only [workerStep, hl] at h
  cases a <;> cases h

theorem workerStep_serve {a : WorkerAct} (h : workerStep s w a = some s') : Serve s w a s' := by
  have hl := workerStep_here h
  cases workerStep_cases h with
  | mainMsg hpc =>
    exact .ofMove (by simp) fun fd hfd => .inl (owed_mono hfd hl (fun _ hb _ => hb) (by simp [WorkerPc.msgFd]))
  | recv hpc =>
    obtain ⟨hbase, hmsg, hleft⟩ := recvMsg_keeps (s.workers w)
    exact .ofMove hleft fun fd hfd => .inl (owed_mono hfd hl (fun _ hb _ => hbase ▸ hb) (by simp [hmsg]))
  | tryPop hpc =>
    obtain ⟨hbase, hmsg, hleft⟩ := popItem_keeps (s.workers w)
    exact .ofMove hleft fun fd hfd => .inl (owed_mono hfd hl (fun _ hb _ => hbase ▸ hb) (by simp [hmsg]))
  | register hpc =>
    refine .ofMove (by simp [Worker.register]) fun fd hfd => .inl (owed_mono hfd hl (fun b hb hpos => ?_) ?_)
    · rcases List.mem_append.mp hb with hb | hb
      · exact hb
      · rw [List.mem_singleton.mp hb] at hpos
        cases hpos
    · simp [Worker.register, WorkerPc.msgFd]
  | @clientMsg fd n hpc hin =>
    refine .ofMove (by simp) fun fd' hfd => ?_
    rcases (mem_owed (by simp)).mp hfd with hm | hb
    · cases hm
      exact .inr ⟨n, rfl⟩
    · exact .inl ((mem_owed hl).mpr (.inr hb))
  | readNone hpc =>
    exact .ofMove (by simp) fun fd' hfd =>
      .inl (owed_mono hfd hl (fun _ hb _ => hb) fun _ he => by rw [hpc]; exact he)
  | readSome _ hpc | count hpc =>
    exact .move _ _ (by simp) fun fd' hfd =>
      .inl (owed_mono hfd hl (fun _ hb _ => hb) fun _ he => by rw [hpc]; exact he)
  | @reply fd hpc =>
    refine .ofMove (by simp) fun fd' hfd => .inl ?_
    rcases owed_setOutput (g := fd) (f := (· + 2)) hfd hl (by simp) rfl rfl with ho | ⟨rfl, -⟩
    · exact ho
    · exact (mem_owed hl).mpr (.inl (by rw [hpc]; rfl))
  | @flush fd n sigpipe hpc hpos hn hgone =>
    have hpc' : ((s.workers w).setOutput fd (· - n)).pc = .loop := hpc
    refine .flush (by simp [hpc']) (fun fd' hfd => ?_) (owed_of_output hl (by omega)) hgone
    rcases owed_setOutput hfd hl (by simp [hpc']) rfl (by simp [hpc', WorkerPc.msgFd]) with ho | ⟨-, b, hb⟩
    · exact ho
    · omega
  | free =>
    exact .close hl fun fd' hfd => owed_mono hfd hl (fun _ hb _ => (List.mem_filter.mp hb).1) fun _ he => he
  | @stay fd eof error =>
    have hstay : Serve s w (.clientEvent fd eof error) (s.setWorker w (s.workers w)) :=
      .ofMove hl fun _ hfd => .inl hfd
    rwa [setWorker_eq] at hstay
  | leave => exact .leave (by simp [Worker.owed])

/-! ## Runs -/

/-- No write met a closed end so far, and none will by what is on its way:
who is gone is owed nothing, and the workers to be sent to have not left. -/
structure Heard (c : Cfg) (s : St) : Prop where
  alive : s.killed = false
  writes : ∀ p ∈ s.writes, p.2 = false
  opened : ∀ n, s.gone n = true → n < s.kern.opened
  owed : ∀ n, s.gone n = true → ¬ Owed c s n
  targets : ∀ w, Target c s w → (s.workers w).pc ≠ .left

/-- The connection is not gone while a descriptor of it is owed a reply. -/
theorem Heard.peer_there (h : Heard c s) (hw : w < c.concur) (hfd : fd ∈ (s.workers w).owed)
    (hn : s.kern.ofd fd = some n) : s.gone n = false := by
  cases hg : s.gone n with
  | false => rfl
  | true => exact absurd ⟨w, hw, fd, hfd, hn⟩ (h.owed n hg)

/-- Worker `w` moves to `x`, which is owed no more than before, or a
descriptor whose client is there. -/
theorem Heard.setWorker (h : Heard c s)
    (howed : ∀ fd ∈ x.owed, fd ∈ (s.workers w).owed ∨ s.peerGone fd = false)
    (hleft : x.pc = .left → ¬ Target c s w) :
    (∀ n, s.gone n = true → ¬ Owed c (s.setWorker w x) n) ∧
      ∀ w', Target c s w' → ((s.setWorker w x).workers w').pc ≠ .left := by
  constructor
  · intro n hg ho
    obtain ⟨w', hw', fd, hfd, hn⟩ := ho
    by_cases heq : w' = w
    · subst heq
      rw [setWorker_self] at hfd
      rcases howed fd hfd with hold | hthere
      · exact h.owed n hg ⟨w', hw', fd, hold, hn⟩
      · have hn' : s.kern.ofd fd = some n := hn
        simp [St.peerGone, hn', hg] at hthere
    · rw [setWorker_of_ne heq] at hfd
      exact h.owed n hg ⟨w', hw', fd, hfd, hn⟩
  · intro w' ht
    exact forall_setWorker (P := fun w' y => Target c s w' → y.pc ≠ .left) (fun ht hl => hleft hl ht)
      (fun w' _ => h.targets w') w' ht

theorem Heard.worker {a : WorkerAct} (h : Heard c s) (hok : InTime c s (.worker w a)) (hw : w < c.concur)
    (hs : Serve s w a s') : Heard c s' := by
  cases hs with
  | @move _ x succCliCount chunks hpc howed =>
    have howed' : ∀ fd ∈ x.owed, fd ∈ (s.workers w).owed ∨ s.peerGone fd = false := by
      intro fd hfd
      rcases howed fd hfd with hold | ⟨n, rfl⟩
      · exact .inl hold
      · exact .inr hok
    obtain ⟨ho, ht⟩ := h.setWorker (w := w) howed' fun hl => absurd hl hpc
    exact ⟨h.alive, h.writes, h.opened, ho, ht⟩
  | @flush fd n sigpipe x hpc howed hfd hgone =>
    obtain ⟨ho, ht⟩ := h.setWorker (w := w) (x := x) (fun fd hfd => .inl (howed fd hfd)) fun hl => absurd hl hpc
    have hthere : s.peerGone fd = false := by
      cases hn : s.kern.ofd fd with
      | none => simp [St.peerGone, hn]
      | some n => simp [St.peerGone, hn, h.peer_there hw hfd hn]
    refine ⟨?_, fun p hp => ?_, h.opened, ho, ht⟩
    · cases sigpipe with
      | false => rfl
      | true =>
        rw [hgone rfl] at hthere
        cases hthere
    · rcases List.mem_append.mp hp with hp | hp
      · exact h.writes p hp
      · obtain ⟨n, hn, rfl⟩ := List.mem_map.mp hp
        exact h.peer_there hw hfd (Option.mem_toList.mp hn)
  | @close fd eof error x hpc howed =>
    obtain ⟨ho, ht⟩ := h.setWorker (w := w) (x := x) (fun fd hfd => .inl (howed fd hfd)) fun hl => absurd hl hpc
    refine ⟨h.alive, h.writes, fun n hg => ?_, fun n hg how => ho n hg ?_, ht⟩
    · rw [FdTable.close_opened]
      exact h.opened n hg
    · obtain ⟨w', hw', fd', hfd', hn⟩ := how
      exact ⟨w', hw', fd', hfd', (FdTable.close_ofd_some.mp hn).2⟩
  | @leave x howed =>
    obtain ⟨ho, ht⟩ := h.setWorker (w := w) (x := x) (fun fd hfd => .inl (howed fd hfd)) fun _ => hok
    exact ⟨h.alive, h.writes, h.opened, ho, ht⟩

theorem Heard.moveMain (h : Heard c s) (hkilled : s'.killed = s.killed) (hwrites : s'.writes = s.writes)
    (hgone : s'.gone = s.gone) (hkern : s'.kern = s.kern)
    (hworkers : ∀ w, (s'.workers w).pc = (s.workers w).pc ∧ (s'.workers w).base = (s.workers w).base)
    (htargets : ∀ w, Target c s' w → (s.workers w).pc ≠ .left) : Heard c s' := by
  refine ⟨hkilled ▸ h.alive, hwrites ▸ h.writes, ?_, fun n hg how => ?_, fun w ht => ?_⟩
  · rw [hgone, hkern]
    exact h.opened
  · rw [hgone] at hg
    obtain ⟨w, hw, fd, hfd, hn⟩ := how
    rw [Worker.owed, (hworkers w).1, (hworkers w).2] at hfd
    exact h.owed n hg ⟨w, hw, fd, hfd, hkern ▸ hn⟩
  · rw [(hworkers w).1]
    exact htargets w ht

theorem setWorker_keeps (hpc : x.pc = (s.workers w).pc) (hbase : x.base = (s.workers w).base) (w' : Nat) :
    ((s.setWorker w x).workers w').pc = (s.workers w').pc ∧
      ((s.setWorker w x).workers w').base = (s.workers w').base :=
  forall_setWorker (P := fun w' y => y.pc = (s.workers w').pc ∧ y.base = (s.workers w').base) ⟨hpc, hbase⟩
    (fun _ _ => ⟨rfl, rfl⟩) w'

theorem Heard.sendComm {msg : CommMsgType} {main : MainPc} {cur : Nat} (h : Heard c s)
    (hw : (s.workers w).pc ≠ .left)
    (htargets : ∀ w', Target c { s with main := main, curWorkerInd := cur } w' → (s.workers w').pc ≠ .left) :
    Heard c (sendComm c s w msg main cur) := by
  unfold ThreadPool.sendComm
  rw [if_neg hw]
  exact h.moveMain rfl rfl rfl rfl
    (setWorker_keeps (s := s) (w := w) (x := (s.workers w).send c s.kern.opened msg) rfl rfl) htargets

theorem Heard.main {a : MainAct} (h : Heard c s) (hok : InTime c s (.main a)) (hs : Step c s (.main a) s') :
    Heard c s' := by
  cases hs with
  | @accept fd hnew hm =>
    refine ⟨h.alive, h.writes, fun n hg => ?_, fun n hg how => ?_, fun w ht => ?_⟩
    · have := h.opened n hg
      simp only [FdTable.alloc_opened]
      omega
    · obtain ⟨w, hw, fd', hfd', hn⟩ := how
      rcases FdTable.alloc_ofd_cases hnew hn with ⟨-, rfl⟩ | ⟨-, hold⟩
      · exact absurd (h.opened _ hg) (Nat.lt_irrefl _)
      · exact h.owed n hg ⟨w, hw, fd', hfd', hold⟩
    · rw [show w = s.curWorkerInd from ht]
      exact hok
  | @push fd hm =>
    refine h.moveMain rfl rfl rfl rfl (setWorker_keeps (s := s) rfl rfl) fun w ht => h.targets w ?_
    have hw : w = s.curWorkerInd := ht
    simp [Target, hm, hw]
  | @sendConn fd hm => exact h.sendComm (h.targets _ (by simp [Target, hm])) fun w ht => ht.elim
  | sigint hm => exact h.moveMain rfl rfl rfl rfl (fun _ => ⟨rfl, rfl⟩) fun w ht => hok w ht.2
  | @sendTerm k hm hk =>
    have ht : ∀ w, k ≤ w → w < c.concur → (s.workers w).pc ≠ .left := fun w hle hlt =>
      h.targets w (by simp [Target, hm, hle, hlt])
    exact h.sendComm (ht k (Nat.le_refl k) hk) fun w hw => ht w (Nat.le_of_succ_le hw.1) hw.2
  | loopexit hm => exact h.moveMain rfl rfl rfl rfl (fun _ => ⟨rfl, rfl⟩) fun w ht => ht.elim
  | mainLeave hm _ => exact h.moveMain rfl rfl rfl rfl (fun _ => ⟨rfl, rfl⟩) fun w ht => ht.elim
  | join hm _ => exact h.moveMain rfl rfl rfl rfl (fun _ => ⟨rfl, rfl⟩) fun w ht => ht.elim

theorem Heard.peerClose (h : Heard c s) (hn : n < s.kern.opened) (hok : ¬ Owed c s n) :
    Heard c { s with gone := Function.update s.gone n true } := by
  refine ⟨h.alive, h.writes, fun m hg => ?_, fun m hg how => ?_, h.targets⟩
  · by_cases heq : m = n
    · exact heq ▸ hn
    · exact h.opened m (by simpa [heq] using hg)
  · by_cases heq : m = n
    · exact hok (heq ▸ how)
    · exact h.owed m (by simpa [heq] using hg) how

theorem step_heard (h : Heard c s) (hok : InTime c s a) (hs : step c s a = some s') : Heard c s' := by
  have hsound := step_sound hs
  unfold step at hs
  split at hs
  · cases hs
  split at hs
  · exact h.main hok hsound
  · split at hs
    · next hw => exact h.worker hok hw (workerStep_serve hs)
    · cases hs
  · split at hs
    · next hn =>
      cases hs
      exact h.peerClose hn hok
    · cases hs

theorem init_heard (c : Cfg) : Heard c init := by
  refine ⟨rfl, fun p hp => ?_, fun n hg => ?_, fun n hg => ?_, fun w ht => ht.elim⟩
  · cases hp
  · cases hg
  · cases hg

end

/-- **No write meets a closed end in a run that meets `InTime`**, with any
number of workers: the process is not killed, and every write of a reply was
to a client still there. -/
theorem writes_heard {c : Cfg} {s : St} (h : Reach (step c) (InTime c) init s) :
    s.killed = false ∧ ∀ p ∈ s.writes, p.2 = false := by
  have hinv : Heard c s := h.invariant (init_heard c) fun _ _ _ hi hok hs => step_heard hi hok hs
  exact ⟨hinv.alive, hinv.writes⟩

/-- Connection 0 is accepted as 7 and registered by worker 0. -/
def connect : List Act :=
  [.main (.accept 7), .main .push, .main .sendConn, .worker 0 .mainMsg, .worker 0 .recv, .worker 0 .tryPop,
   .worker 0 .register, .worker 0 .tryPop, .worker 0 .recv]

/-- A message of five bytes is read from 7, and the reply is not queued yet. -/
def message : List Act := [.worker 0 (.clientMsg 7 5), .worker 0 .read, .worker 0 .count, .worker 0 .read]

/-- SIGINT's handler tells both workers, and worker 0 leaves. -/
def interrupt : List Act :=
  [.main .sigint, .main .sendTerm, .main .sendTerm, .main .loopexit, .worker 0 .mainMsg, .worker 0 .recv,
   .worker 0 .leave]

/-- The client goes with its reply written, and SIGINT ends the server. -/
def inTime : List Act :=
  connect ++ message ++ [.worker 0 .reply, .worker 0 (.flush 7 2 false), .peerClose 0,
    .worker 0 (.clientEvent 7 true false)] ++ interrupt ++
  [.worker 1 .mainMsg, .worker 1 .recv, .worker 1 .leave, .main .leave, .main .join]

theorem inTime_run : (runWhere (step demoCfg) (InTime demoCfg) init inTime).isSome := by decide +kernel

/-- `writes_heard` at the end of `inTime`, with one reply written. -/
theorem writes_heard_inTime :
    let s := (runWhere (step demoCfg) (InTime demoCfg) init inTime).get inTime_run
    s.main = .returned ∧ s.writes = [(0, false)] ∧ s.killed = false ∧ ∀ p ∈ s.writes, p.2 = false :=
  ⟨by decide +kernel, by decide +kernel, writes_heard (reachWhere_get inTime_run)⟩

/-- The client sends twice and goes before the first reply. -/
def lateReply : List Act :=
  connect ++ message ++ [.peerClose 0, .worker 0 .reply, .worker 0 (.flush 7 2 false)] ++ message ++
  [.worker 0 .reply, .worker 0 (.flush 7 2 true)]

/-- A connection is accepted between SIGINT's handler and the end of the main loop. -/
def lateConnect : List Act := interrupt ++ [.main (.accept 7), .main .push, .main .sendConn]

theorem lateReply_run : (run (step demoCfg) init lateReply).isSome := by decide +kernel

theorem lateConnect_run : (run (step demoCfg) init lateConnect).isSome := by decide +kernel

/-- **A client that goes early kills the server, and so does one that comes
late.** Both replies of `lateReply` are written to a client that is gone, and
the second raises SIGPIPE; in `lateConnect` nothing was written to a client,
and the byte for worker 0 meets a pipe it has closed. -/
theorem late_writes_kill :
    (∃ s, Reach (step demoCfg) Any init s ∧ s.killed = true ∧ s.writes = [(0, true), (0, true)]) ∧
    ∃ s, Reach (step demoCfg) Any init s ∧ s.killed = true ∧ s.writes = [] :=
  ⟨⟨_, reach_get lateReply_run, by decide +kernel⟩, ⟨_, reach_get lateConnect_run, by decide +kernel⟩⟩

end LinuxServer.ThreadPool
