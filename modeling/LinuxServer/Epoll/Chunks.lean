/-
What `serv_read` reports of a connection, in the order in which it is
logged, against the stream its client sent.

A worker has its chunk from the `recv` on and logs it in a step of its own.
While it does, nothing keeps another worker from reading the next chunk of
the same connection and logging it first. `OneReader` is the condition under
which that does not happen; then what is logged, followed by the one chunk
that is not logged yet and by what is in the receive buffer, is the stream.
-/
import LinuxServer.Epoll.Edge

namespace LinuxServer.Epoll

open Lts

/-- The stream the client of connection `n` sent in these steps. -/
def sent (past : List (St × Act)) (n : Nat) : List UInt8 :=
  past.flatMap fun (s, a) =>
    match a with
    | .data fd bytes => if s.kern.ofd fd = some n then bytes else []
    | .main _ | .worker _ _ | .fin _ | .rst _ | .signal _ _ => []

/-- What was reported of connection `n`, in the order logged. -/
def reported (chunks : List (Option Nat × List UInt8)) (n : Nat) : List UInt8 :=
  chunks.flatMap fun (on, bytes) => if on = some n then bytes else []

/-- The chunk of connection `n` that the worker has read and not logged. -/
def WorkerPc.unlogged (n : Nat) : WorkerPc → Option (List UInt8)
  | .msgRead _ on (.data bytes) _ => if on = some n then some bytes else none
  | .msgRead _ _ .eof _ | .msgRead _ _ (.error _) _ | .idle | .msgRecv _ | .toClose _ | .toLock _ | .toDel _
  | .toErase _ | .sigRecv | .sigGot _ => none

/-- The connection that a worker's next step, if it is a `recv`, reads. -/
def recvConn (s : St) : Act → Option Nat
  | .worker w (.recv _) =>
    match s.workers w with
    | .msgRecv t => s.kern.ofd t.fd
    | _ => none
  | _ => none

/-- At a `recv` on a connection no worker has a chunk of it that is not logged. -/
def OneReader (c : Cfg) (s : St) (a : Act) : Prop :=
  ∀ n ∈ recvConn s a, ∀ w < c.concurCount, (s.workers w).unlogged n = none

instance (c : Cfg) (s : St) (a : Act) : Decidable (OneReader c s a) := by
  unfold OneReader
  infer_instance

section
variable {c : Cfg} {s s' : St} {a : Act} {fd n w : Nat} {t : Task} {p : List UInt8}
  {past past' : List (St × Act)}

/-! ## One worker reads a connection at a time -/

/-- What was read of connection `n`, in order: what is logged, and the chunk some worker still has. -/
inductive Read (c : Cfg) (s : St) (n : Nat) : List UInt8 → Prop
  | logged : (∀ w < c.concurCount, (s.workers w).unlogged n = none) → Read c s n (reported s.chunks n)
  | unlogged {w bytes} : w < c.concurCount → (s.workers w).unlogged n = some bytes →
      Read c s n (reported s.chunks n ++ bytes)

theorem Read.exists (c : Cfg) (s : St) (n : Nat) : ∃ p, Read c s n p ∧ reported s.chunks n <+: p := by
  by_cases h : ∀ w < c.concurCount, (s.workers w).unlogged n = none
  · exact ⟨_, .logged h, List.prefix_refl _⟩
  · simp only [not_forall] at h
    obtain ⟨w, hw, h⟩ := h
    obtain ⟨bytes, h⟩ := Option.ne_none_iff_exists'.mp h
    exact ⟨_, .unlogged hw h, List.prefix_append _ _⟩

/-- `OneReader`, as what it keeps: no two workers have chunks of one
connection; what was read and what is in the buffer are what was sent. -/
structure InOrder (c : Cfg) (s : St) (past : List (St × Act)) : Prop where
  one : ∀ n, ∀ w < c.concurCount, ∀ w' < c.concurCount, (s.workers w).unlogged n ≠ none →
    (s.workers w').unlogged n ≠ none → w = w'
  read : ∀ n p, Read c s n p → p ++ (s.socket n).rcv = sent past n

theorem init_inOrder (c : Cfg) : InOrder c (init c) [] := by
  refine ⟨by simp [init, WorkerPc.unlogged], fun n p hp => ?_⟩
  have hnil : p = [] := by
    cases hp with
    | logged _ => rfl
    | unlogged _ h => simp [init, WorkerPc.unlogged] at h
  subst hnil
  simp [init, sent]

theorem Read.congr (h : Read c s' n p) (hchunks : s'.chunks = s.chunks)
    (hworkers : ∀ w, (s'.workers w).unlogged n = (s.workers w).unlogged n) : Read c s n p := by
  cases h with
  | logged h =>
    rw [hchunks]
    exact .logged fun w hw => (hworkers w) ▸ h w hw
  | unlogged hw h =>
    rw [hchunks]
    exact .unlogged hw ((hworkers _) ▸ h)

theorem InOrder.frame (h : InOrder c s past) (hsocket : s'.socket = s.socket) (hchunks : s'.chunks = s.chunks)
    (hsent : ∀ n, sent past' n = sent past n)
    (hworkers : ∀ n w, (s'.workers w).unlogged n = (s.workers w).unlogged n) : InOrder c s' past' := by
  refine ⟨fun n w hw w' hw' h1 h2 => ?_, fun n p hp => ?_⟩
  · rw [hworkers] at h1 h2
    exact h.one n w hw w' hw' h1 h2
  · rw [hsocket, hsent]
    exact h.read n p (hp.congr hchunks (hworkers n))

theorem sent_snoc (past : List (St × Act)) (s : St) (a : Act) (n : Nat) :
    sent (past ++ [(s, a)]) n = sent past n ++ sent [(s, a)] n := by
  simp [sent]

theorem sent_data (past : List (St × Act)) {bytes : List UInt8} (hn : s.kern.ofd fd = some n) (m : Nat) :
    sent (past ++ [(s, .data fd bytes)]) m = sent past m ++ if n = m then bytes else [] := by
  rw [sent_snoc]
  simp [sent, hn]

theorem sent_other (past : List (St × Act)) (ha : ∀ fd bytes, a ≠ .data fd bytes) (m : Nat) :
    sent (past ++ [(s, a)]) m = sent past m := by
  rw [sent_snoc]
  cases a with
  | data fd bytes => exact absurd rfl (ha fd bytes)
  | main _ | worker _ _ | fin _ | rst _ | signal _ _ => simp [sent]

theorem InOrder.arrive {k : Socket} {bytes : List UInt8} (h : InOrder c s past)
    (hrcv : k.rcv = (s.socket n).rcv ++ bytes)
    (hsent : ∀ m, sent past' m = sent past m ++ if n = m then bytes else []) :
    InOrder c (arrive s fd n k) past' := by
  refine ⟨h.one, fun m p hp => ?_⟩
  have hp' : Read c s m p := hp.congr rfl fun _ => rfl
  have heq := h.read m p hp'
  rw [hsent, ← heq]
  by_cases hmn : n = m
  · subst hmn
    simp [Epoll.arrive, hrcv]
  · simp [Epoll.arrive, hmn, Ne.symm hmn]

theorem recvOn_cases (k : Socket) :
    (∃ bytes, (recvOn k).1 = .data bytes ∧ k.rcv = bytes ++ (recvOn k).2.rcv) ∨
    (∀ bytes, (recvOn k).1 ≠ .data bytes) ∧ (recvOn k).2.rcv = k.rcv := by
  unfold recvOn
  split
  · exact .inl ⟨_, rfl, (List.take_append_drop _ _).symm⟩
  split
  · exact .inr ⟨by simp, rfl⟩
  split
  · exact .inr ⟨by simp, rfl⟩
  · exact .inr ⟨by simp, rfl⟩

theorem unlogged_data (t : Task) (on : Option Nat) (bytes : List UInt8) (errno : Errno) (n : Nat) :
    (WorkerPc.msgRead t on (.data bytes) errno).unlogged n = if on = some n then some bytes else none := rfl

theorem unlogged_fail (t : Task) (on : Option Nat) {out : RecvOut} (errno : Errno) (n : Nat)
    (h : ∀ bytes, out ≠ .data bytes) : (WorkerPc.msgRead t on out errno).unlogged n = none := by
  cases out with
  | data bytes => exact absurd rfl (h bytes)
  | eof => rfl
  | error e => rfl

theorem unlogged_nextPc (c : Cfg) (t : Task) (out : RecvOut) (errno : Errno) (n : Nat) :
    (nextPc c t out errno).unlogged n = none := by
  rcases nextPc_cases c t out errno with h | h | h <;> rw [h] <;> rfl

theorem unlogged_inSig {pc : WorkerPc} (h : pc = .idle ∨ pc.inSig = true) (n : Nat) : pc.unlogged n = none := by
  cases pc <;> simp_all [WorkerPc.inSig, WorkerPc.unlogged]

theorem unlogged_setWorker {pc : WorkerPc} (hpc : ∀ n, pc.unlogged n = (s.workers w).unlogged n) (n w' : Nat) :
    ((s.setWorker w pc).workers w').unlogged n = (s.workers w').unlogged n :=
  forall_setWorker (P := fun w' p => p.unlogged n = (s.workers w').unlogged n) (hpc n) (fun _ _ => rfl) w'

theorem InOrder.recvFail {errno : Errno} {m : Nat} (h : InOrder c s past)
    (hnone : ∀ n, (s.workers w).unlogged n = none) (hon : s.kern.ofd t.fd = some m)
    (hout : ∀ bytes, (recvOn (s.socket m)).1 ≠ .data bytes)
    (hrest : (recvOn (s.socket m)).2.rcv = (s.socket m).rcv)
    (hsent : ∀ n, sent past' n = sent past n) : InOrder c (recvTask s w t errno) past' := by
  have hworkers : ∀ n w', ((recvTask s w t errno).workers w').unlogged n = (s.workers w').unlogged n := by
    refine unlogged_setWorker fun n => ?_
    rw [hnone, recvFrom, hon]
    exact unlogged_fail _ _ _ _ hout
  refine ⟨fun n w hw w' hw' h1 h2 => ?_, fun n p hp => ?_⟩
  · rw [hworkers] at h1 h2
    exact h.one n w hw w' hw' h1 h2
  have heq := h.read n p (hp.congr rfl (hworkers n))
  rw [hsent, ← heq]
  by_cases hnm : n = m
  · subst hnm
    simp [recvTask, recvFrom, hon, hrest]
  · simp [recvTask, recvFrom, hon, hnm]

/-- A `recv` that brings a chunk of connection `m`, which nobody else is reading. -/
theorem InOrder.recvData {errno : Errno} {m : Nat} {bytes : List UInt8} (h : InOrder c s past)
    (hw : w < c.concurCount) (hnone : ∀ n, (s.workers w).unlogged n = none) (hon : s.kern.ofd t.fd = some m)
    (hfree : ∀ w' < c.concurCount, (s.workers w').unlogged m = none)
    (hout : (recvOn (s.socket m)).1 = .data bytes) (hrcv : (s.socket m).rcv = bytes ++ (recvOn (s.socket m)).2.rcv)
    (hsent : ∀ n, sent past' n = sent past n) : InOrder c (recvTask s w t errno) past' := by
  have hself : ∀ n, ((recvTask s w t errno).workers w).unlogged n = if m = n then some bytes else none := by
    intro n
    show ((s.setWorker w (.msgRead t (s.kern.ofd t.fd) (recvFrom s t.fd).1 errno)).workers w).unlogged n = _
    rw [setWorker_self, recvFrom, hon]
    simp [hout, unlogged_data]
  have hothers : ∀ n w', w' ≠ w → ((recvTask s w t errno).workers w').unlogged n = (s.workers w').unlogged n :=
    fun n w' hww => congrArg _ (setWorker_of_ne hww)
  have hholder : ∀ w' < c.concurCount, ((recvTask s w t errno).workers w').unlogged m ≠ none → w' = w := by
    intro w' hw' h'
    by_contra hww
    rw [hothers m w' hww] at h'
    exact h' (hfree w' hw')
  have hsame : ∀ n, n ≠ m → ∀ w', ((recvTask s w t errno).workers w').unlogged n = (s.workers w').unlogged n := by
    intro n hnm w'
    by_cases hww : w' = w
    · subst hww
      rw [hself, if_neg (Ne.symm hnm), hnone]
    · exact hothers n w' hww
  refine ⟨fun n w₁ hw₁ w₂ hw₂ h1 h2 => ?_, fun n p hp => ?_⟩
  · by_cases hnm : n = m
    · subst hnm
      rw [hholder w₁ hw₁ h1, hholder w₂ hw₂ h2]
    · rw [hsame n hnm] at h1 h2
      exact h.one n w₁ hw₁ w₂ hw₂ h1 h2
  rw [hsent]
  by_cases hnm : n = m
  · subst hnm
    have heq := h.read n _ (.logged hfree)
    have hp' : p = reported s.chunks n ++ bytes := by
      cases hp with
      | logged hall =>
        have := hall w hw
        rw [hself, if_pos rfl] at this
        cases this
      | @unlogged w' bytes' hw' hb =>
        have hww := hholder w' hw' (by rw [hb]; simp)
        subst hww
        rw [hself, if_pos rfl] at hb
        cases hb
        rfl
    simp only [recvTask, recvFrom, hon, Function.update_self]
    rw [hp', List.append_assoc, ← hrcv]
    exact heq
  · have heq := h.read n p (hp.congr rfl (hsame n hnm))
    simpa [recvTask, recvFrom, hon, hnm] using heq

theorem InOrder.recv {errno : Errno} (h : InOrder c s past) (hw : w < c.concurCount)
    (hpc : s.workers w = .msgRecv t) (hok : OneReader c s (.worker w (.recv errno)))
    (hsent : ∀ n, sent past' n = sent past n) : InOrder c (recvTask s w t errno) past' := by
  have hnone : ∀ n, (s.workers w).unlogged n = none := fun n => by rw [hpc]; rfl
  cases hon : s.kern.ofd t.fd with
  | none =>
    refine h.frame ?_ rfl hsent (unlogged_setWorker fun n => ?_)
    · simp [recvTask, recvFrom, hon]
    · rw [hnone, recvFrom, hon]
      rfl
  | some m =>
    have hfree : ∀ w' < c.concurCount, (s.workers w').unlogged m = none := hok m (by simp [recvConn, hpc, hon])
    rcases recvOn_cases (s.socket m) with ⟨bytes, hout, hrcv⟩ | ⟨hout, hrest⟩
    · exact h.recvData hw hnone hon hfree hout hrcv hsent
    · exact h.recvFail hnone hon hout hrest hsent

theorem reported_logged (t : Task) (on : Option Nat) (out : RecvOut) (errno : Errno) (n : Nat) :
    reported (logged on out) n = ((WorkerPc.msgRead t on out errno).unlogged n).getD [] := by
  cases out with
  | data bytes =>
    rw [unlogged_data]
    by_cases hon : on = some n <;> simp [reported, logged, hon]
  | eof => rfl
  | error e => rfl

theorem InOrder.log {on : Option Nat} {out : RecvOut} {errno : Errno} (h : InOrder c s past)
    (hw : w < c.concurCount) (hpc : s.workers w = .msgRead t on out errno)
    (hsent : ∀ n, sent past' n = sent past n) :
    InOrder c { s.setWorker w (nextPc c t out errno) with chunks := s.chunks ++ logged on out } past' := by
  have hself : ∀ n, ((s.setWorker w (nextPc c t out errno)).workers w).unlogged n = none := by
    intro n
    rw [setWorker_self, unlogged_nextPc]
  have hothers : ∀ n w', w' ≠ w →
      ((s.setWorker w (nextPc c t out errno)).workers w').unlogged n = (s.workers w').unlogged n :=
    fun n w' hww => congrArg _ (setWorker_of_ne hww)
  have hholder : ∀ n w', ((s.setWorker w (nextPc c t out errno)).workers w').unlogged n ≠ none →
      w' ≠ w ∧ (s.workers w').unlogged n ≠ none := by
    intro n w' h'
    by_cases hww : w' = w
    · subst hww
      exact absurd (hself n) h'
    · exact ⟨hww, by rwa [hothers n w' hww] at h'⟩
  refine ⟨fun n w₁ hw₁ w₂ hw₂ h1 h2 => ?_, fun n p hp => ?_⟩
  · exact h.one n w₁ hw₁ w₂ hw₂ (hholder n w₁ h1).2 (hholder n w₂ h2).2
  have hreport : reported (s.chunks ++ logged on out) n =
      reported s.chunks n ++ ((s.workers w).unlogged n).getD [] := by
    rw [hpc, ← reported_logged]
    simp [reported]
  rw [hsent]
  refine h.read n p ?_
  cases hp with
  | logged hall =>
    show Read c s n (reported (s.chunks ++ logged on out) n)
    rw [hreport]
    cases hb : (s.workers w).unlogged n with
    | some bytes => exact .unlogged hw hb
    | none =>
      rw [Option.getD_none, List.append_nil]
      refine .logged fun w' hw' => ?_
      by_cases hww : w' = w
      · rw [hww, hb]
      · rw [← hothers n w' hww]
        exact hall w' hw'
  | @unlogged w' bytes hw' hb =>
    obtain ⟨hww, hold⟩ := hholder n w' (by rw [hb]; simp)
    have hnone : (s.workers w).unlogged n = none := by
      by_contra hne
      exact hww (h.one n w' hw' w hw hold hne)
    show Read c s n (reported (s.chunks ++ logged on out) n ++ bytes)
    rw [hreport, hnone, Option.getD_none, List.append_nil]
    exact .unlogged hw' (by rw [← hothers n w' hww]; exact hb)

/-! ## Runs -/

theorem Act.quiet_ne_data (ha : a.quiet = true) (fd : Nat) (bytes : List UInt8) : a ≠ .data fd bytes := by
  rintro rfl
  cases ha

theorem InOrder.quiet (h : InOrder c s past) (hs : Step c s a s') (ha : a.quiet = true)
    (hsocket : s'.socket = s.socket) : InOrder c s' (past ++ [(s, a)]) := by
  have hsent := sent_other (s := s) past (Act.quiet_ne_data ha)
  cases hs with
  | test hw hpc => exact h.log hw hpc hsent
  | add _ _ | recv _ _ _ => cases ha
  | take _ hpc _ | takeSig _ hpc _ | lock _ hpc _ | del _ hpc | erase _ hpc =>
    exact h.frame hsocket rfl hsent (unlogged_setWorker fun n => by rw [hpc]; rfl)
  | @close w t _ hpc =>
    have hsame : ∀ n w', ((s.setWorker w (.toLock t)).workers w').unlogged n = (s.workers w').unlogged n :=
      unlogged_setWorker fun n => by rw [hpc]; rfl
    exact h.frame hsocket rfl hsent hsame
  | sig _ _ _ hsig hpc =>
    refine h.frame hsocket rfl hsent (unlogged_setWorker fun n => ?_)
    rw [unlogged_inSig hpc, unlogged_inSig (.inr hsig)]
  | loop _ | lockWait _ _ | epollWait _ _ _ | epollFail _ _ | batchDone _ | acceptFail _ | accept _ _ _
  | dispatch _ | lockAdd _ _ | refuse _ | insert _ | advance _ | closeNext _ | exit _ | crash _ | env _ _ _ =>
    exact h.frame hsocket rfl hsent fun _ _ => rfl

theorem step_inOrder (h : InOrder c s past) (hok : OneReader c s a) (hs : Flow c s a s') :
    InOrder c s' (past ++ [(s, a)]) := by
  cases hs with
  | data hn _ => exact h.arrive rfl (sent_data past hn)
  | fin _ | rst _ => exact h.arrive (List.append_nil _).symm fun n => by simp [sent_other past]
  | epollWait _ _ | refuse _ => exact h.frame rfl rfl (sent_other past (by simp)) fun _ _ => rfl
  | add _ =>
    unfold epollAdd
    split
    · exact h.frame rfl rfl (sent_other past (by simp)) fun _ _ => rfl
    · exact h.frame rfl rfl (sent_other past (by simp)) fun _ _ => rfl
  | recv hw hpc => exact h.recv hw hpc hok (sent_other past (by simp))
  | quiet hs ha hsocket _ => exact h.quiet hs ha hsocket

end

/-- **The log follows the stream while one worker at a time reads a
connection.** In a run with `OneReader`, with either trigger type and any
segmentation of what the clients send: what was logged of a connection is a
prefix of what its client sent; and when no worker has a chunk of it left to
log, only what is in the receive buffer is missing. -/
theorem chunks_in_order {c : Cfg} {r : Recorded St Act}
    (h : Reach (recorded (step c)) (Now (OneReader c)) ⟨[], init c⟩ r) (n : Nat) :
    reported r.now.chunks n <+: sent r.past n ∧
    ((∀ w < c.concurCount, (r.now.workers w).unlogged n = none) →
      reported r.now.chunks n ++ (r.now.socket n).rcv = sent r.past n) := by
  have hinv : InOrder c r.now r.past :=
    h.history (init_inOrder c) fun _ _ _ _ hi hok hs => step_inOrder hi hok (step_flow hs)
  obtain ⟨p, hp, hpre⟩ := Read.exists c r.now n
  refine ⟨hpre.trans ?_, fun hall => hinv.read n _ (.logged hall)⟩
  rw [← hinv.read n p hp]
  exact List.prefix_append _ _

/-- Two chunks come while a task for the first is on its way; each worker reads and logs one. -/
def inTurn : List Act :=
  acceptRound 7 ++ [.data 7 [1, 2]] ++ dispatchRound 7 ++
  [.worker 0 .take, .worker 0 (.recv .eagain), .worker 0 .test, .data 7 [3, 4]] ++ dispatchRound 7 ++
  [.worker 1 .take, .worker 1 (.recv .eagain), .worker 1 .test]

theorem inTurn_run : (runWhere (recorded (step twoThreads)) (Now (OneReader twoThreads)) ⟨[], init twoThreads⟩
    inTurn).isSome := by decide +kernel

/-- `chunks_in_order` at the end of `inTurn`. -/
theorem chunks_in_order_inTurn :
    let r := (runWhere (recorded (step twoThreads)) (Now (OneReader twoThreads)) ⟨[], init twoThreads⟩
      inTurn).get inTurn_run
    reported r.now.chunks 0 <+: sent r.past 0 ∧
    ((∀ w < twoThreads.concurCount, (r.now.workers w).unlogged 0 = none) →
      reported r.now.chunks 0 ++ (r.now.socket 0).rcv = sent r.past 0) :=
  chunks_in_order (reachWhere_get inTurn_run) 0

/-- The worker with the first chunk logs it after the worker with the second. -/
def overtaken : List Act :=
  acceptRound 7 ++ [.data 7 [1, 2]] ++ dispatchRound 7 ++
  [.worker 0 .take, .worker 0 (.recv .eagain), .data 7 [3, 4]] ++ dispatchRound 7 ++
  [.worker 1 .take, .worker 1 (.recv .eagain), .worker 1 .test, .worker 0 .test]

theorem overtaken_level : (run (recorded (step twoThreads)) ⟨[], init twoThreads⟩ overtaken).isSome := by
  decide +kernel

theorem overtaken_edge : (run (recorded (step edgeTriggered)) ⟨[], init edgeTriggered⟩ overtaken).isSome := by
  decide +kernel

/-- **With either trigger type two workers log a client's chunks in the
wrong order**: the client sent 1, 2, 3, 4, and the log has 3, 4, 1, 2. -/
theorem chunks_overtaken :
    (∃ r, Reach (recorded (step twoThreads)) Any ⟨[], init twoThreads⟩ r ∧
      sent r.past 0 = [1, 2, 3, 4] ∧ reported r.now.chunks 0 = [3, 4, 1, 2]) ∧
    ∃ r, Reach (recorded (step edgeTriggered)) Any ⟨[], init edgeTriggered⟩ r ∧
      sent r.past 0 = [1, 2, 3, 4] ∧ reported r.now.chunks 0 = [3, 4, 1, 2] :=
  ⟨⟨_, reach_get overtaken_level, by decide +kernel⟩, ⟨_, reach_get overtaken_edge, by decide +kernel⟩⟩

end LinuxServer.Epoll
