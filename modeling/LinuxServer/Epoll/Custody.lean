/-
No byte is lost or reported twice, however the workers' steps interleave.

`reads` are the chunks of a connection in the order of their `recv`s, by
whatever worker. One after the other they are the stream, up to what is in
the receive buffer. What is logged of the connection, with the chunks the
workers have not logged yet, are the same chunks as often as they were read
(`Accounted`): only their order can be another one.
-/
import LinuxServer.Epoll.Chunks
import LinuxServer.Lib.Custody

namespace LinuxServer.Epoll

open Lts Custody

/-- The chunk of connection `n` that the action's `recv` takes from the buffer. -/
def chunkRead (n : Nat) (s : St) (a : Act) : Option (List UInt8) :=
  if recvConn s a = some n then
    match (recvOn (s.socket n)).1 with
    | .data bytes => some bytes
    | .eof | .error _ => none
  else none

/-- The chunks of connection `n` in the order of the `recv`s. -/
def reads (past : List (St × Act)) (n : Nat) : List (List UInt8) :=
  past.flatMap fun (s, a) => (chunkRead n s a).toList

/-- The chunks of connection `n` in the order logged. -/
def loggedOf (chunks : List (Option Nat × List UInt8)) (n : Nat) : List (List UInt8) :=
  chunks.flatMap fun (on, bytes) => if on = some n then [bytes] else []

variable {c : Cfg} {s s' : St} {a : Act} {n w : Nat} {t : Task} {past past' : List (St × Act)}

theorem flatten_loggedOf (chunks : List (Option Nat × List UInt8)) (n : Nat) :
    (loggedOf chunks n).flatten = reported chunks n := by
  induction chunks with
  | nil => rfl
  | cons chunk chunks ih =>
    obtain ⟨on, bytes⟩ := chunk
    simp only [loggedOf, reported, List.flatMap_cons, List.flatten_append] at ih ⊢
    rw [ih]
    split <;> simp

theorem reads_snoc (past : List (St × Act)) (s : St) (a : Act) (n : Nat) :
    reads (past ++ [(s, a)]) n = reads past n ++ (chunkRead n s a).toList := by
  simp [reads]

theorem chunkRead_eq_none (h : recvConn s a = none) (n : Nat) : chunkRead n s a = none := by
  simp [chunkRead, h]

theorem reads_other (past : List (St × Act)) (h : recvConn s a = none) (n : Nat) :
    reads (past ++ [(s, a)]) n = reads past n := by
  rw [reads_snoc, chunkRead_eq_none h]
  simp

theorem Act.quiet_recvConn (ha : a.quiet = true) : recvConn s a = none := by
  cases a with
  | worker w a =>
    cases a with
    | recv errno => cases ha
    | take | test | close | lock | del | erase | sigRecv | sigHandle => rfl
  | main _ | data _ _ | fin _ | rst _ | signal _ _ => rfl

theorem unlogged_recv (hpc : s.workers w = .msgRecv t) (errno : Errno) (n : Nat) :
    (WorkerPc.msgRead t (s.kern.ofd t.fd) (recvFrom s t.fd).1 errno).unlogged n =
      chunkRead n s (.worker w (.recv errno)) := by
  have hconn : recvConn s (.worker w (.recv errno)) = s.kern.ofd t.fd := by simp [recvConn, hpc]
  unfold chunkRead
  rw [hconn]
  cases hon : s.kern.ofd t.fd with
  | none => simp [recvFrom, hon, WorkerPc.unlogged]
  | some m =>
    by_cases hmn : m = n
    · subst hmn
      simp only [recvFrom, hon, if_true]
      cases (recvOn (s.socket m)).1 with
      | data bytes => simp [WorkerPc.unlogged]
      | eof => rfl
      | error e => rfl
    · rw [if_neg (by simpa using hmn)]
      simp only [recvFrom, hon]
      cases (recvOn (s.socket m)).1 with
      | data bytes => simp [WorkerPc.unlogged, hmn]
      | eof => rfl
      | error e => rfl

theorem loggedOf_logged (t : Task) (on : Option Nat) (out : RecvOut) (errno : Errno) (n : Nat) :
    loggedOf (logged on out) n = ((WorkerPc.msgRead t on out errno).unlogged n).toList := by
  cases out with
  | data bytes =>
    rw [unlogged_data]
    by_cases hon : on = some n <;> simp [loggedOf, logged, hon]
  | eof => rfl
  | error e => rfl

/-! ## Invariant -/

/-- The chunks read and what is in the buffer are the stream, and each chunk
is with a worker or logged. -/
structure Conserved (c : Cfg) (s : St) (past : List (St × Act)) : Prop where
  stream : ∀ n, (reads past n).flatten ++ (s.socket n).rcv = sent past n
  custody : ∀ n, Accounted c.concurCount (WorkerPc.unlogged n) s.workers (reads past n) (loggedOf s.chunks n)

theorem init_conserved (c : Cfg) : Conserved c (init c) [] :=
  ⟨fun _ => by simp [init, reads, sent], fun _ => .start fun _ _ => rfl⟩

theorem Conserved.frame (h : Conserved c s past) (hsocket : s'.socket = s.socket) (hchunks : s'.chunks = s.chunks)
    (hsent : ∀ n, sent past' n = sent past n) (hreads : ∀ n, reads past' n = reads past n)
    (hworkers : ∀ n w, (s'.workers w).unlogged n = (s.workers w).unlogged n) : Conserved c s' past' := by
  refine ⟨fun n => ?_, fun n => ?_⟩
  · rw [hsocket, hsent, hreads]
    exact h.stream n
  · rw [hchunks, hreads]
    exact (h.custody n).congr fun w _ => hworkers n w

theorem Conserved.arrive {fd : Nat} {k : Socket} {bytes : List UInt8} (h : Conserved c s past)
    (hrcv : k.rcv = (s.socket n).rcv ++ bytes)
    (hsent : ∀ m, sent past' m = sent past m ++ if n = m then bytes else [])
    (hreads : ∀ m, reads past' m = reads past m) : Conserved c (arrive s fd n k) past' := by
  refine ⟨fun m => ?_, fun m => ?_⟩
  · rw [hsent, hreads, ← h.stream m]
    by_cases hmn : n = m
    · subst hmn
      simp [Epoll.arrive, hrcv]
    · simp [Epoll.arrive, hmn, Ne.symm hmn]
  · rw [hreads]
    exact h.custody m

/-- A `recv` moves a chunk from the front of the buffer to the chunks read. -/
theorem stream_recv (h : Conserved c s past) (hpc : s.workers w = .msgRecv t) (errno : Errno) (n : Nat) :
    (reads past n ++ (chunkRead n s (.worker w (.recv errno))).toList).flatten ++
      ((recvTask s w t errno).socket n).rcv = sent past n := by
  have heq := h.stream n
  have hconn : recvConn s (.worker w (.recv errno)) = s.kern.ofd t.fd := by simp [recvConn, hpc]
  by_cases hon : s.kern.ofd t.fd = some n
  · simp only [recvTask, recvFrom, hon, chunkRead, hconn, if_true, Function.update_self]
    rcases recvOn_cases (s.socket n) with ⟨bytes, hout, hrcv⟩ | ⟨hout, hrcv⟩
    · rw [hrcv, ← List.append_assoc] at heq
      simp only [hout, Option.toList_some, List.flatten_append, List.flatten_singleton]
      exact heq
    · have hnone : (match (recvOn (s.socket n)).1 with
          | .data bytes => some bytes
          | .eof | .error _ => none) = none := by
        split
        · next bytes hb => exact absurd hb (hout bytes)
        · rfl
        · rfl
      rw [hnone, Option.toList_none, List.append_nil, hrcv]
      exact heq
  · have hsame : (recvTask s w t errno).socket n = s.socket n := by
      simp only [recvTask, recvFrom]
      split
      · rfl
      · next m hm =>
        have hnm : n ≠ m := by
          rintro rfl
          exact hon hm
        exact Function.update_of_ne hnm _ _
    rw [hsame]
    simpa [chunkRead, hconn, hon] using heq

theorem Conserved.recv {errno : Errno} (h : Conserved c s past) (hw : w < c.concurCount)
    (hpc : s.workers w = .msgRecv t) :
    Conserved c (recvTask s w t errno) (past ++ [(s, .worker w (.recv errno))]) := by
  refine ⟨fun n => ?_, fun n => ?_⟩
  · rw [sent_other past (by simp), reads_snoc]
    exact stream_recv h hpc errno n
  · have hhand := (h.custody n).update (q := .msgRead t (s.kern.ofd t.fd) (recvFrom s t.fd).1 errno)
      (x := (chunkRead n s (.worker w (.recv errno))).toList) (y := []) hw
      (by rw [unlogged_recv hpc, hpc]; simp [WorkerPc.unlogged])
    rw [List.append_nil] at hhand
    rw [reads_snoc]
    exact hhand

theorem Conserved.log {on : Option Nat} {out : RecvOut} {errno : Errno} (h : Conserved c s past)
    (hw : w < c.concurCount) (hpc : s.workers w = .msgRead t on out errno) :
    Conserved c { s.setWorker w (nextPc c t out errno) with chunks := s.chunks ++ logged on out }
      (past ++ [(s, .worker w .test)]) := by
  refine ⟨fun n => ?_, fun n => ?_⟩
  · rw [sent_other past (by simp), reads_other past rfl]
    exact h.stream n
  · have hhand := (h.custody n).update (q := nextPc c t out errno) (x := []) (y := loggedOf (logged on out) n)
      hw (by rw [unlogged_nextPc, loggedOf_logged t on out errno, hpc]; simp)
    rw [List.append_nil] at hhand
    rw [reads_other past rfl]
    simpa [loggedOf, St.setWorker] using hhand

theorem Conserved.quiet (h : Conserved c s past) (hs : Step c s a s') (ha : a.quiet = true)
    (hsocket : s'.socket = s.socket) : Conserved c s' (past ++ [(s, a)]) := by
  have hsent := sent_other (s := s) past (Act.quiet_ne_data ha)
  have hreads := reads_other past (Act.quiet_recvConn (s := s) ha)
  cases hs with
  | test hw hpc => exact h.log hw hpc
  | add _ _ | recv _ _ _ => cases ha
  | take _ hpc _ | takeSig _ hpc _ | lock _ hpc _ | del _ hpc | erase _ hpc =>
    exact h.frame hsocket rfl hsent hreads (unlogged_setWorker fun n => by rw [hpc]; rfl)
  | @close w t _ hpc =>
    have hsame : ∀ n w', ((s.setWorker w (.toLock t)).workers w').unlogged n = (s.workers w').unlogged n :=
      unlogged_setWorker fun n => by rw [hpc]; rfl
    exact h.frame hsocket rfl hsent hreads hsame
  | sig _ _ _ hsig hpc =>
    refine h.frame hsocket rfl hsent hreads (unlogged_setWorker fun n => ?_)
    rw [unlogged_inSig hpc, unlogged_inSig (.inr hsig)]
  | loop _ | lockWait _ _ | epollWait _ _ _ | epollFail _ _ | batchDone _ | acceptFail _ | accept _ _ _
  | dispatch _ | lockAdd _ _ | refuse _ | insert _ | advance _ | closeNext _ | exit _ | crash _ | env _ _ _ =>
    exact h.frame hsocket rfl hsent hreads fun _ _ => rfl

theorem step_conserved (h : Conserved c s past) (hs : Flow c s a s') : Conserved c s' (past ++ [(s, a)]) := by
  cases hs with
  | data hn _ => exact h.arrive rfl (sent_data past hn) (reads_other past rfl)
  | fin _ | rst _ =>
    exact h.arrive (List.append_nil _).symm (fun n => by simp [sent_other past]) (reads_other past rfl)
  | epollWait _ _ | refuse _ =>
    exact h.frame rfl rfl (sent_other past (by simp)) (reads_other past rfl) fun _ _ => rfl
  | add _ =>
    unfold epollAdd
    split
    · exact h.frame rfl rfl (sent_other past (by simp)) (reads_other past rfl) fun _ _ => rfl
    · exact h.frame rfl rfl (sent_other past (by simp)) (reads_other past rfl) fun _ _ => rfl
  | recv hw hpc => exact h.recv hw hpc
  | quiet hs ha hsocket _ => exact h.quiet hs ha hsocket

theorem oneReader_of_one (hone : c.concurCount = 1) (h : step c s a = some s') : OneReader c s a := by
  intro n hn w hw
  have hw0 : w = 0 := by omega
  subst hw0
  cases step_flow h with
  | @recv w' t errno hw' hpc =>
    have hw0 : w' = 0 := by omega
    subst hw0
    rw [hpc]
    rfl
  | quiet _ ha _ _ =>
    rw [Act.quiet_recvConn ha] at hn
    cases hn
  | data _ _ | fin _ | rst _ | epollWait _ _ | add _ | refuse _ => cases hn

/-- The client is reset behind its second chunk; a worker reads the chunk
first, and logs it before the other one. -/
def overtakenReset : List Act :=
  acceptRound 7 ++ [.data 7 [1, 2]] ++ dispatchRound 7 ++
  [.worker 0 .take, .worker 0 (.recv .eagain), .data 7 [3, 4], .rst 7] ++ dispatchRound 7 ++
  [.worker 1 .take, .worker 1 (.recv .eagain), .worker 1 .test, .worker 0 .test]

theorem overtakenReset_run :
    (run (recorded (step edgeTriggered)) ⟨[], init edgeTriggered⟩ overtakenReset).isSome := by decide +kernel

end LinuxServer.Epoll
