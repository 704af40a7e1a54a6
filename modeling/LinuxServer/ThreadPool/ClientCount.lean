/-
What `succ_cli_count` counts. It is incremented after every chunk that
`bufferevent_read` returns, so with no call between the two it is the number
of chunks (`Counted`), whoever sent them: a message longer than one chunk, or
in more than one piece, counts again for its client.
-/
import LinuxServer.Lib.AtomicInt
import LinuxServer.ThreadPool.Dispatch

namespace LinuxServer.ThreadPool

open Lts RoundRobin AtomicInt

/-- The connections from which at least one chunk was read. -/
def St.clients (s : St) : Finset Nat := s.chunks.toFinset

/-- 1 for a worker that read a chunk and has not incremented the counter. -/
def Worker.uncounted (x : Worker) : Nat :=
  match x.pc with
  | .msgGot _ _ => 1
  | .loop | .recv | .tryPop | .popped _ | .msgRead _ _ | .msgReply _ | .left => 0

variable {c : Cfg} {s s' : St} {w : Nat}

/-- Every chunk read was counted, or its worker is still to count it. -/
def Counted (c : Cfg) (s : St) : Prop :=
  s.succCliCount + total c.concur (fun w => (s.workers w).uncounted) = s.chunks.length

theorem mainStep_count {a : MainAct} (h : mainStep c s a = some s') :
    (∀ w, (s'.workers w).uncounted = (s.workers w).uncounted) ∧
      s'.succCliCount = s.succCliCount ∧ s'.chunks = s.chunks := by
  have hset : ∀ {k : Nat} {x : Worker}, x.pc = (s.workers k).pc →
      ∀ w, ((s.setWorker k x).workers w).uncounted = (s.workers w).uncounted := fun hx =>
    forall_setWorker (P := fun w y => y.uncounted = (s.workers w).uncounted)
      (by simp only [Worker.uncounted, hx]) fun _ _ => rfl
  cases mainStep_sound h with
  | accept | sigint | loopexit | mainLeave | join => exact ⟨fun _ => rfl, rfl, rfl⟩
  | push => exact ⟨hset rfl, rfl, rfl⟩
  | sendConn | sendTerm =>
    unfold sendComm
    split
    · exact ⟨fun _ => rfl, rfl, rfl⟩
    · exact ⟨hset rfl, rfl, rfl⟩

/-- What a worker's step does to the account. -/
structure Accounts (s : St) (w : Nat) (s' : St) : Prop where
  others : ∀ w' ≠ w, s'.workers w' = s.workers w'
  balance : s'.succCliCount + (s'.workers w).uncounted + s.chunks.length =
    s.succCliCount + (s.workers w).uncounted + s'.chunks.length

theorem Accounts.ofMove {x : Worker} (hworkers : s'.workers = (s.setWorker w x).workers)
    (hcount : s'.succCliCount = s.succCliCount) (hchunks : s'.chunks = s.chunks)
    (h0 : (s.workers w).uncounted = 0) (h1 : x.uncounted = 0) : Accounts s w s' where
  others _ hw := by rw [hworkers, setWorker_of_ne hw]
  balance := by rw [hworkers, setWorker_self, hcount, hchunks, h0, h1]

/-- Each step keeps the account, `client_msg_cb` being on an open connection. -/
theorem workerStep_accounts {a : WorkerAct} (h : workerStep s w a = some s')
    (hopen : ∀ fd, (s.workers w).pc.msgFd = some fd → ∃ n, s.kern.ofd fd = some n) : Accounts s w s' := by
  cases workerStep_cases h with
  | mainMsg hpc | register hpc | clientMsg hpc | readNone hpc | reply hpc | leave hpc =>
    exact .ofMove rfl rfl rfl (by simp [Worker.uncounted, hpc]) rfl
  | recv hpc =>
    refine .ofMove rfl rfl rfl (by simp [Worker.uncounted, hpc]) ?_
    unfold Worker.recvMsg
    split <;> rfl
  | tryPop hpc =>
    refine .ofMove rfl rfl rfl (by simp [Worker.uncounted, hpc]) ?_
    unfold Worker.popItem
    split <;> rfl
  | @readSome fd _ _ hpc =>
    have h0 : (s.workers w).uncounted = 0 := by simp [Worker.uncounted, hpc]
    obtain ⟨n, hn⟩ := hopen fd (by rw [hpc]; rfl)
    refine ⟨fun _ hw => setWorker_of_ne hw, ?_⟩
    show s.succCliCount + ((s.setWorker w _).workers w).uncounted + _ = _ + _ + (s.chunks ++ _).length
    rw [setWorker_self, h0, hn]
    simp [Worker.uncounted]
    omega
  | count hpc =>
    have h1 : (s.workers w).uncounted = 1 := by simp [Worker.uncounted, hpc]
    refine ⟨fun _ hw => setWorker_of_ne hw, ?_⟩
    show s.succCliCount + 1 + ((s.setWorker w _).workers w).uncounted + _ = _
    rw [setWorker_self, h1]
    rfl
  | flush hpc =>
    refine .ofMove rfl rfl rfl (by simp [Worker.uncounted, hpc]) ?_
    simp [Worker.setOutput, Worker.uncounted, hpc]
  | free hpc => exact .ofMove rfl rfl rfl (by simp [Worker.uncounted, hpc]) (by simp [Worker.uncounted, hpc])
  | stay => exact ⟨fun _ _ => rfl, rfl⟩

theorem step_counted {a : Act} {t : Lanes} (hr : Refines c s t) (hs : Counted c s) (h : step c s a = some s') :
    Counted c s' := by
  unfold Counted at hs ⊢
  unfold step at h
  split at h
  · cases h
  split at h
  · obtain ⟨hworkers, hcount, hchunks⟩ := mainStep_count h
    rw [hcount, hchunks, ← hs, total_congr fun w _ => hworkers w]
  · next w a =>
    split at h
    · next hw =>
      have hopen : ∀ fd, (s.workers w).pc.msgFd = some fd → ∃ n, s.kern.ofd fd = some n := fun fd hfd => by
        obtain ⟨n, -, hn⟩ := hr.baseOpen w fd (hr.msg w fd hfd)
        exact ⟨n, hn⟩
      obtain ⟨hothers, hbalance⟩ := workerStep_accounts h hopen
      have htotal := total_change (f := fun w => (s.workers w).uncounted)
        (g := fun w => (s'.workers w).uncounted) (a := (s'.workers w).uncounted) (b := (s.workers w).uncounted)
        hw (Nat.add_comm _ _) fun w' hw' => by simp only [hothers w' hw']
      omega
    · cases h
  · split at h
    · cases h; exact hs
    · cases h

theorem reach_counted (h : Reach (step c) Any init s) : Counted c s := by
  induction h with
  | refl => simp [Counted, init, Worker.uncounted, Worker.init, total]
  | tail hr _ hstep ih =>
    obtain ⟨t, -, href⟩ := reach_refines hr
    exact step_counted href ih hstep

/-- **What `succ_cli_count` counts.** In every reachable state with no call
between its read and its increment: the counter holds the number of distinct
connections from which a chunk was read exactly when there are fewer than
2^31 of them and the chunks that were not the first of their connection are
a multiple of 2^32 in number. So with fewer than 2^31 chunks read, it does
exactly when no connection was read from twice. -/
theorem succCliCount_iff (h : Reach (step c) Any init s) (hquiet : ∀ w < c.concur, (s.workers w).uncounted = 0) :
    (atomicInt s.succCliCount = s.clients.card ↔
      s.clients.card < 2 ^ 31 ∧ 2 ^ 32 ∣ s.chunks.length - s.clients.card) ∧
    (s.chunks.length < 2 ^ 31 → (atomicInt s.succCliCount = s.clients.card ↔ s.chunks.Nodup)) := by
  have hall : s.succCliCount = s.chunks.length := by
    have hsum := reach_counted h
    have hzero : total c.concur (fun w => (s.workers w).uncounted) = 0 := by
      rw [total_congr (g := fun _ => 0) hquiet]
      simp [total]
    unfold Counted at hsum
    omega
  rw [hall]
  exact ⟨atomicInt_card_iff s.chunks, atomicInt_card_nodup⟩

/-- A client connects and sends 5000 bytes, which are read in one call of `client_msg_cb`. -/
def longMessage : List Act :=
  [.main (.accept 5), .main .push, .main .sendConn, .worker 0 .mainMsg, .worker 0 .recv, .worker 0 .tryPop,
   .worker 0 .register, .worker 0 .tryPop, .worker 0 .recv, .worker 0 (.clientMsg 5 5000), .worker 0 .read,
   .worker 0 .count, .worker 0 .read, .worker 0 .count, .worker 0 .read, .worker 0 .reply]

theorem longMessage_run : (run (step demoCfg) init longMessage).isSome := by decide +kernel

/-- `succCliCount_iff` after `longMessage`. -/
theorem succCliCount_iff_long :
    let s := (run (step demoCfg) init longMessage).get longMessage_run
    (atomicInt s.succCliCount = s.clients.card ↔
      s.clients.card < 2 ^ 31 ∧ 2 ^ 32 ∣ s.chunks.length - s.clients.card) ∧
    (s.chunks.length < 2 ^ 31 → (atomicInt s.succCliCount = s.clients.card ↔ s.chunks.Nodup)) :=
  succCliCount_iff (reach_get longMessage_run) (by decide +kernel)

/-- One client is counted as two. -/
theorem long_message_counted_twice :
    let s := (run (step demoCfg) init longMessage).get longMessage_run
    Reach (step demoCfg) Any init s ∧ (∀ w < demoCfg.concur, (s.workers w).uncounted = 0) ∧
      atomicInt s.succCliCount = 2 ∧ s.clients.card = 1 := by
  exact ⟨reach_get longMessage_run, by decide +kernel, by decide +kernel, by decide +kernel⟩

end LinuxServer.ThreadPool
