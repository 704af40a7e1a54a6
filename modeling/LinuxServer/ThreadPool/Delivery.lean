/-
The thread-pool server with its clients: what they send, and what of it the
workers log (libev_half_sync_reactive_thread_pool_server.hpp).

`ThreadPool.step` takes from outside how many bytes libevent has for a
`bufferevent`, and when it calls `client_event_cb`. Here the connections are
kept too, so that an answer is one they can give. The bytes libevent has
read count as unread until `bufferevent_read` takes them.

Every thread's steps together are an `OpenServer` (`own_answered`). `Sys.work`
counts what there is to read, to hand over and to write, and how far each
thread is: a byte in a pipe is worth the round of `main_msg_cb` it causes,
an item in a queue its registration, a byte of a stream its share of
`client_msg_cb`.
-/
import LinuxServer.Kernel
import LinuxServer.Lib.OpenServer
import LinuxServer.ThreadPool.Dispatch

namespace LinuxServer.ThreadPool

open Lts Inbound StreamServer OpenServer

/-- The most one `bufferevent_read` takes: `BUF_SIZE - 1`. -/
def readCap : Nat := bufSize - 1

/-- The server, and its connections under the names `srv.kern` gives them. -/
structure Sys where
  srv : St
  net : Net UInt8 Errno

def Sys.init : Sys := ⟨ThreadPool.init, .empty⟩

/-- The connection open on `fd`, none being one with nothing to read. -/
def Sys.connOf (s : Sys) (fd : Nat) : Inbound UInt8 Errno :=
  match s.srv.kern.ofd fd with
  | some n => s.net.conn n
  | none => .fresh

/-- The connections' side of a step of the server's; `none` where they
cannot have come to it. -/
def netOf (s : Sys) : Act → Option (Net UInt8 Errno)
  | .main (.accept _) => s.net.accept s.srv.kern.opened
  | .worker _ (.clientMsg fd n) => if n ≤ (s.connOf fd).rcv.length then some s.net else none
  | .worker w .read =>
    match (s.srv.workers w).pc with
    | .msgRead fd (avail + 1) =>
      s.net.recv readCap (s.srv.kern.ofd fd) (.data ((s.connOf fd).rcv.take (min (avail + 1) readCap)))
    | _ => some s.net
  | .worker _ (.clientEvent fd true false) => s.net.recv readCap (s.srv.kern.ofd fd) .eof
  | .worker _ (.clientEvent fd false true) =>
    match (s.connOf fd).err with
    | some e => s.net.recv readCap (s.srv.kern.ofd fd) (.error e)
    | none => none
  | .worker _ (.clientEvent _ true true) => none
  | .peerClose n => if (s.net.conn n).fin then some s.net else none
  | _ => some s.net

/-- What can happen next: a client does something, or the server. -/
inductive SysAct
  | client (a : Client UInt8 Errno)
  | srv (a : Act)
  deriving DecidableEq, Repr

def sysStep (c : Cfg) (s : Sys) : SysAct → Option Sys
  | .client a => some { s with net := s.net.client a }
  | .srv a => (step c s.srv a).bind fun srv => (netOf s a).map fun net => ⟨srv, net⟩

/-- The server's own steps: all but the signal, what its clients do, and
`client_event_cb` without an event it looks at. -/
def Own (_ : Sys) : SysAct → Prop
  | .client _ | .srv (.main .sigint) | .srv (.peerClose _) | .srv (.worker _ (.clientEvent _ false false)) => False
  | .srv _ => True

instance (s : Sys) (a : SysAct) : Decidable (Own s a) := by
  unfold Own; split <;> infer_instance

/-! ## What there is to do -/

/-- How far a worker is from waiting in its loop with nothing more to do. -/
def Worker.pcWork (x : Worker) : Nat :=
  match x.pc with
  | .left => 0
  | .loop => 2
  | .recv => if x.commPipe = [] then 3 else 1
  | .tryPop => 4
  | .popped _ => 5
  | .msgRead _ 0 => 6
  | .msgRead _ (_ + 1) => 1
  | .msgGot _ _ => 7
  | .msgReply _ => 5

/-- The bytes queued for writing. -/
def outputs (base : List BufferEvent) : Nat := (base.map (·.output)).sum

def Worker.work (x : Worker) : Nat := 4 * x.commPipe.length + 2 * x.queued.length + outputs x.base + x.pcWork

/-- The steps the main thread is still to take, and the pushes and bytes they are. -/
def mainWork (c : Cfg) : MainPc → Nat
  | .returned => 0
  | .joining => 1
  | .loop => 2
  | .pushed _ => 7
  | .hand _ => 10
  | .signalling k => 3 + 5 * (c.concur - k)

def Sys.work (c : Cfg) (s : Sys) : Nat :=
  9 * OpenServer.work s.srv.kern s.net + (if s.srv.killed then 0 else 1) + mainWork c s.srv.main +
    RoundRobin.total c.concur fun w => (s.srv.workers w).work

section Output

variable {base : List BufferEvent} {fd : Nat} {g : Nat → Nat}

theorem outputs_other (h : fd ∉ base.map (·.fd)) :
    (base.map fun b => if b.fd = fd then { b with output := g b.output } else b) = base := by
  refine (List.map_congr_left fun b hb => ?_).trans (List.map_id base)
  have hne : b.fd ≠ fd := by
    intro he
    exact h (he ▸ List.mem_map_of_mem hb)
  rw [if_neg hne, id]

theorem outputs_set (hd : (base.map (·.fd)).Nodup) (hfd : fd ∈ base.map (·.fd)) :
    let o := ((base.find? (·.fd == fd)).map (·.output)).getD 0
    outputs (base.map fun b => if b.fd = fd then { b with output := g b.output } else b) + o =
      outputs base + g o := by
  induction base with
  | nil => cases hfd
  | cons b base ih =>
    obtain ⟨hb, hd⟩ := List.nodup_cons.mp hd
    by_cases he : b.fd = fd
    · subst he
      have hrest := outputs_other (g := g) hb
      simp only [outputs, List.map_cons, hrest, if_true, List.sum_cons, List.find?_cons, beq_self_eq_true,
        Option.map_some, Option.getD_some]
      omega
    · have hfd' : fd ∈ base.map (·.fd) := by
        rcases List.mem_cons.mp hfd with h | h
        · exact absurd h.symm he
        · exact h
      have hih := ih hd hfd'
      have hbeq : (b.fd == fd) = false := by simpa using he
      simp only [outputs, List.map_cons, if_neg he, List.sum_cons, List.find?_cons, hbeq] at hih ⊢
      omega

theorem outputs_filter (base : List BufferEvent) (p : BufferEvent → Bool) :
    outputs (base.filter p) ≤ outputs base :=
  (List.filter_sublist.map _).sum_le_sum (by simp)

end Output

variable {c : Cfg} {s s' : Sys} {srv : St} {net : Net UInt8 Errno} {w fd n : Nat} {x : Worker}

theorem total_setWorker (srv : St) (x : Worker) (hw : w < c.concur) :
    RoundRobin.total c.concur (fun v => ((srv.setWorker w x).workers v).work) + (srv.workers w).work =
      RoundRobin.total c.concur (fun v => (srv.workers v).work) + x.work :=
  RoundRobin.total_update Worker.work srv.workers x hw

/-- A byte sent to a worker is worth four, whatever the worker is at. -/
theorem send_work (msg : CommMsgType) (x : Worker) : (x.send c n msg).work ≤ x.work + 4 := by
  have hlen : (Fifo.trySend c.pipeCap msg x.commPipe).length ≤ x.commPipe.length + 1 := by
    unfold Fifo.trySend
    split
    · simp
    · omega
  have hpc : (x.send c n msg).pcWork ≤ x.pcWork := by
    unfold Worker.pcWork Worker.send
    cases x.pc with
    | recv =>
      by_cases hnil : x.commPipe = []
      · simp only [hnil]
        split <;> simp
      · have hne : Fifo.trySend c.pipeCap msg x.commPipe ≠ [] := by
          obtain ⟨b, hb⟩ := List.exists_mem_of_ne_nil _ hnil
          exact List.ne_nil_of_mem (Fifo.mem_trySend hb)
        simp [hnil, hne]
    | msgRead _ avail => cases avail <;> exact Nat.le_refl _
    | left | loop | tryPop | popped _ | msgGot _ _ | msgReply _ => exact Nat.le_refl _
  show 4 * (Fifo.trySend c.pipeCap msg x.commPipe).length + 2 * x.queued.length + outputs x.base + _ ≤
    4 * x.commPipe.length + 2 * x.queued.length + outputs x.base + x.pcWork + 4
  omega

/-! ## Every step is the stream server's, and the server's own leave less to do -/

theorem work_worker (hw : w < c.concur) (hk : s.srv.killed = false) (hmain : s'.srv.main = s.srv.main)
    (hworkers : s'.srv.workers = (s.srv.setWorker w x).workers)
    (hlt : 9 * OpenServer.work s'.srv.kern s'.net + x.work <
      9 * OpenServer.work s.srv.kern s.net + (s.srv.workers w).work) : s'.work c < s.work c := by
  have htotal := total_setWorker s.srv x hw
  have halive : (if s'.srv.killed then 0 else 1) ≤ 1 := by split <;> omega
  simp only [Sys.work, hmain, hworkers, hk]
  simp only [Bool.false_eq_true, if_false]
  omega

theorem work_move (hw : w < c.concur) (hk : s.srv.killed = false) (hmain : srv.main = s.srv.main)
    (hkern : srv.kern = s.srv.kern) (hworkers : srv.workers = (s.srv.setWorker w x).workers)
    (hlt : x.work < (s.srv.workers w).work) : Sys.work c ⟨srv, s.net⟩ < s.work c := by
  refine work_worker hw hk hmain hworkers ?_
  show 9 * OpenServer.work srv.kern s.net + _ < _
  rw [hkern]
  omega

theorem sendComm_work (msg : CommMsgType) (main : MainPc) (cur : Nat) (hw : w < c.concur)
    (hk : s.srv.killed = false) (hmain : mainWork c main + 5 ≤ mainWork c s.srv.main) :
    (sendComm c s.srv w msg main cur).kern = s.srv.kern ∧
      Sys.work c ⟨sendComm c s.srv w msg main cur, s.net⟩ < s.work c := by
  unfold sendComm
  split
  · refine ⟨rfl, ?_⟩
    simp only [Sys.work, hk, if_true, Bool.false_eq_true, if_false]
    omega
  · refine ⟨rfl, ?_⟩
    have hsend := send_work (n := s.srv.kern.opened) (c := c) msg (s.srv.workers w)
    have htotal := total_setWorker s.srv ((s.srv.workers w).send c s.srv.kern.opened msg) hw
    have hsame : (s.srv.setWorker w ((s.srv.workers w).send c s.srv.kern.opened msg)).killed = s.srv.killed := rfl
    simp only [Sys.work, hk, Bool.false_eq_true, if_false]
    simp only [St.setWorker, hk, Bool.false_eq_true, if_false] at htotal ⊢
    omega

variable {t t' : StreamServer.St UInt8 Errno} {a : SysAct}

/-- The answer of the stream server to a step, and the work it leaves. -/
def Answered (c : Cfg) (s : Sys) (t : StreamServer.St UInt8 Errno) (s' : Sys) : Prop :=
  ∃ as t', runWhere (StreamServer.step readCap) StreamServer.Own t as = some t' ∧ Shows s'.srv.kern s'.net t' ∧
    s'.work c < s.work c

theorem Answered.stay (ht : Shows s.srv.kern s.net t) (hkern : srv.kern = s.srv.kern)
    (hlt : Sys.work c ⟨srv, s.net⟩ < s.work c) : Answered c s t ⟨srv, s.net⟩ :=
  ⟨[], t, rfl, hkern ▸ ht, hlt⟩

theorem main_answered {m : MainAct} (hcur : s.srv.curWorkerInd < c.concur) (hk : s.srv.killed = false)
    (hinv : StreamServer.Inv t) (ht : Shows s.srv.kern s.net t) (hsig : m ≠ .sigint)
    (hsrv : mainStep c s.srv m = some srv) (hnet : netOf s (.main m) = some net) : Answered c s t ⟨srv, net⟩ := by
  cases mainStep_sound hsrv with
  | @accept fd hf hm =>
    obtain ⟨t', hstep, ht'⟩ := ht.accept readCap hf hnet
    have hrun : runWhere (StreamServer.step readCap) StreamServer.Own t [.accept] = some t' :=
      run_own trivial hstep
    have hle := ht.run_le ht' hinv hrun
    rw [List.length_singleton] at hle
    refine ⟨_, t', hrun, ht', ?_⟩
    simp only [Sys.work, hm, mainWork]
    omega
  | sigint _ => exact absurd rfl hsig
  | @push fd hm =>
    cases hnet
    refine .stay ht rfl ?_
    have htotal := total_setWorker s.srv { s.srv.workers s.srv.curWorkerInd with
      commQueue := (s.srv.workers s.srv.curWorkerInd).commQueue.push ⟨fd⟩
      pushes := (s.srv.workers s.srv.curWorkerInd).pushes + 1 } hcur
    have hpush : Worker.work { s.srv.workers s.srv.curWorkerInd with
          commQueue := (s.srv.workers s.srv.curWorkerInd).commQueue.push ⟨fd⟩
          pushes := (s.srv.workers s.srv.curWorkerInd).pushes + 1 } =
        (s.srv.workers s.srv.curWorkerInd).work + 2 := by
      simp only [Worker.work, Worker.queued, ThreadSafeQueue.push, List.map_append, List.length_append,
        List.map_singleton, List.length_singleton]
      simp only [Worker.pcWork]
      omega
    rw [hpush] at htotal
    simp only [Sys.work, pushConn, hm, mainWork, hk, Bool.false_eq_true, if_false]
    simp only [St.setWorker, hk, Bool.false_eq_true, if_false] at htotal ⊢
    omega
  | @sendConn fd hm =>
    cases hnet
    obtain ⟨hkern, hlt⟩ := sendComm_work .commNewConnected .loop (nextWorkerInd c s.srv.curWorkerInd) hcur hk
      (by rw [hm]; exact Nat.le_refl _)
    exact .stay ht hkern hlt
  | @sendTerm k hm hlt =>
    cases hnet
    obtain ⟨hkern, hlt⟩ := sendComm_work .commTerminate (.signalling (k + 1)) s.srv.curWorkerInd hlt hk
      (by simp only [hm, mainWork]; omega)
    exact .stay ht hkern hlt
  | loopexit hm | mainLeave hm _ | join hm _ =>
    cases hnet
    refine .stay ht rfl ?_
    simp only [Sys.work, hm, mainWork]
    omega

theorem setOutput_outputs {g : Nat → Nat} (hd : x.fds.Nodup) (hfd : fd ∈ x.fds) :
    outputs (x.setOutput fd g).base + x.output fd = outputs x.base + g (x.output fd) :=
  outputs_set hd hfd

theorem read_answered {avail : Nat} (hw : w < c.concur) (hk : s.srv.killed = false)
    (hinv : StreamServer.Inv t) (ht : Shows s.srv.kern s.net t) (hn : s.srv.kern.ofd fd = some n)
    (hpc : (s.srv.workers w).pc = .msgRead fd (avail + 1)) {bytes : List UInt8}
    (hnet : s.net.recv readCap (some n) (.data bytes) = some net) :
    Answered c s t ⟨readChunk s.srv w fd (avail + 1), net⟩ := by
  obtain ⟨t', hstep, ht'⟩ := ht.read hn hnet (rfl : ends true (.data bytes : Out UInt8 Errno) = false)
  have hrun : runWhere (StreamServer.step readCap) StreamServer.Own t [.recv n (.data bytes) true] = some t' :=
    run_own trivial hstep
  have hle := ht.run_le ht' hinv hrun
  rw [List.length_singleton] at hle
  let x : Worker := { s.srv.workers w with pc := .msgGot fd (avail + 1 - min (avail + 1) (bufSize - 1)) }
  have hwork : x.work ≤ (s.srv.workers w).work + 6 := by
    simp only [x, Worker.work, Worker.queued, Worker.pcWork, hpc]
    omega
  refine ⟨_, t', hrun, ht', work_worker hw hk rfl (rfl : _ = (s.srv.setWorker w x).workers) ?_⟩
  show 9 * OpenServer.work s.srv.kern net + x.work < _
  omega

theorem free_answered {out : Out UInt8 Errno} {eof error : Bool} (hw : w < c.concur) (hk : s.srv.killed = false)
    (hinv : StreamServer.Inv t) (ht : Shows s.srv.kern s.net t) (hn : s.srv.kern.ofd fd = some n)
    (hev : (eof || error) = true) (hends : ends false out = true)
    (hnet : s.net.recv readCap (some n) out = some net) :
    Answered c s t ⟨clientEvent s.srv w fd eof error, net⟩ := by
  obtain ⟨t', hstep, ht'⟩ := ht.close hn hnet hends
  have hrun : runWhere (StreamServer.step readCap) StreamServer.Own t [.recv n out false] = some t' :=
    run_own trivial hstep
  have hle := ht.run_le ht' hinv hrun
  rw [List.length_singleton] at hle
  let x : Worker := { s.srv.workers w with base := (s.srv.workers w).base.filter (·.fd != fd) }
  have hwork : x.work ≤ (s.srv.workers w).work := by
    have hout := outputs_filter (s.srv.workers w).base (·.fd != fd)
    simp only [x, Worker.work, Worker.queued, Worker.pcWork] at hout ⊢
    omega
  have hfree : clientEvent s.srv w fd eof error =
      { s.srv.setWorker w x with kern := s.srv.kern.close fd } := by
    rw [clientEvent, if_pos hev]
  rw [hfree]
  refine ⟨_, t', hrun, ht', work_worker hw hk rfl (rfl : _ = (s.srv.setWorker w x).workers) ?_⟩
  show 9 * OpenServer.work (s.srv.kern.close fd) net + x.work < _
  omega

theorem worker_answered {m : WorkerAct} {lanes : RoundRobin.Lanes} (hr : Refines c s.srv lanes) (hw : w < c.concur)
    (hk : s.srv.killed = false) (hinv : StreamServer.Inv t) (ht : Shows s.srv.kern s.net t)
    (hev : ∀ fd, m ≠ .clientEvent fd false false) (hsrv : workerStep s.srv w m = some srv)
    (hnet : netOf s (.worker w m) = some net) : Answered c s t ⟨srv, net⟩ := by
  have hstay : ∀ {y : Worker}, y.work < (s.srv.workers w).work → Answered c s t ⟨s.srv.setWorker w y, s.net⟩ :=
    fun hlt => .stay ht rfl (work_move hw hk rfl rfl rfl hlt)
  have hcases := workerStep_cases hsrv
  cases m with
  | mainMsg =>
    cases hnet
    cases hcases with
    | mainMsg hpc _ =>
      simp only [workerStep, hpc, Option.ite_none_right_eq_some] at hsrv
      refine hstay ?_
      simp [Worker.work, Worker.queued, Worker.pcWork, hpc, hsrv.1.2]
  | recv =>
    cases hnet
    cases hcases with
    | recv hpc =>
      refine hstay ?_
      cases hp : (s.srv.workers w).commPipe with
      | nil => simp [Worker.recvMsg, Worker.work, Worker.queued, Worker.pcWork, hpc, hp]
      | cons msg pipe =>
        cases msg <;> simp [Worker.recvMsg, Worker.work, Worker.queued, Worker.pcWork, hpc, hp] <;> omega
  | tryPop =>
    cases hnet
    cases hcases with
    | tryPop hpc =>
      refine hstay ?_
      cases hq : (s.srv.workers w).commQueue.tryPop with
      | none =>
        simp only [Worker.popItem, hq, Worker.work, Worker.queued, Worker.pcWork, hpc]
        split <;> omega
      | some p =>
        obtain ⟨item, queue⟩ := p
        have hdata := ThreadSafeQueue.tryPop_some hq
        simp only [Worker.popItem, hq, Worker.work, Worker.queued, Worker.pcWork, hpc, hdata, List.map_cons,
          List.length_cons]
        omega
  | register =>
    cases hnet
    cases hcases with
    | register hpc =>
      refine hstay ?_
      simp [Worker.register, Worker.work, Worker.queued, Worker.pcWork, hpc, outputs]
  | clientMsg fd n =>
    simp only [netOf, Option.ite_none_right_eq_some, Option.some.injEq] at hnet
    obtain ⟨-, rfl⟩ := hnet
    cases hcases with
    | clientMsg hpc _ =>
      simp only [workerStep, hpc, Option.ite_none_right_eq_some] at hsrv
      obtain ⟨k, rfl⟩ := Nat.exists_eq_succ_of_ne_zero (Nat.ne_of_gt hsrv.1.2)
      refine hstay ?_
      simp [Worker.work, Worker.queued, Worker.pcWork, hpc]
  | read =>
    have hread : ∃ fd avail, (s.srv.workers w).pc = .msgRead fd avail := by
      cases hcases with
      | readNone hpc | readSome _ hpc => exact ⟨_, _, hpc⟩
    obtain ⟨fd, avail, hpc⟩ := hread
    simp only [workerStep, hpc, Option.some.injEq] at hsrv
    subst hsrv
    cases avail with
    | zero =>
      simp only [netOf, hpc, Option.some.injEq] at hnet
      subst hnet
      refine hstay ?_
      simp [Worker.work, Worker.queued, Worker.pcWork, hpc]
    | succ avail =>
      obtain ⟨n, -, hn⟩ := hr.baseOpen w fd (hr.msg w fd (by rw [hpc]; rfl))
      simp only [netOf, hpc, hn] at hnet
      exact read_answered hw hk hinv ht hn hpc hnet
  | count =>
    cases hnet
    cases hcases with
    | @count fd avail hpc =>
      refine .stay ht rfl (work_move hw hk rfl rfl rfl ?_)
      cases avail <;> simp [Worker.work, Worker.queued, Worker.pcWork, hpc]
  | reply =>
    cases hnet
    cases hcases with
    | @reply fd hpc =>
      refine hstay ?_
      have hout := setOutput_outputs (g := (· + 2)) (hr.baseNodup w) (hr.msg w fd (by rw [hpc]; rfl))
      simp only [Worker.work, Worker.queued, Worker.pcWork, hpc, Worker.setOutput] at hout ⊢
      omega
  | flush fd n sigpipe =>
    cases hnet
    cases hcases with
    | flush hpc hpos hle _ =>
      simp only [workerStep, hpc, Option.ite_none_right_eq_some] at hsrv
      refine .stay ht rfl (work_move hw hk rfl rfl rfl ?_)
      have hout := setOutput_outputs (g := (· - n)) (hr.baseNodup w) hsrv.1.1
      simp only [Worker.work, Worker.queued, Worker.pcWork, hpc, Worker.setOutput] at hout ⊢
      omega
  | clientEvent fd eof error =>
    have hpc : (s.srv.workers w).pc = .loop := by
      cases hcases with
      | free hpc _ | stay hpc => exact hpc
    simp only [workerStep, hpc, Option.ite_none_right_eq_some, Option.some.injEq] at hsrv
    obtain ⟨hfd, rfl⟩ := hsrv
    obtain ⟨n, -, hn⟩ := hr.baseOpen w fd hfd
    cases eof with
    | true =>
      cases error with
      | true => cases hnet
      | false =>
        simp only [netOf, hn] at hnet
        exact free_answered hw hk hinv ht hn rfl rfl hnet
    | false =>
      cases error with
      | true =>
        simp only [netOf, hn] at hnet
        split at hnet
        · exact free_answered hw hk hinv ht hn rfl rfl hnet
        · cases hnet
      | false => exact absurd rfl (hev fd)
  | leave =>
    cases hnet
    cases hcases with
    | leave hpc _ =>
      refine hstay ?_
      simp [Worker.work, Worker.queued, Worker.pcWork, hpc]

theorem cur_lt {lanes : RoundRobin.Lanes} {srv : St} (hr : Refines c srv lanes) : srv.curWorkerInd < c.concur := by
  by_cases hm : ∀ fd, srv.main ≠ .pushed fd
  · rw [hr.turn hm]
    exact Nat.mod_lt _ c.concur_pos
  · push Not at hm
    obtain ⟨fd, hm⟩ := hm
    obtain ⟨n, -, hcur⟩ := hr.turnPushed fd hm
    rw [hcur]
    exact Nat.mod_lt _ c.concur_pos

theorem srv_step {m : Act} (hs : sysStep c s (.srv m) = some s') :
    step c s.srv m = some s'.srv ∧ netOf s m = some s'.net := by
  obtain ⟨srv, hsrv, hs⟩ := Option.bind_eq_some_iff.mp hs
  obtain ⟨net, hnet, rfl⟩ := Option.map_eq_some_iff.mp hs
  exact ⟨hsrv, hnet⟩

/-- Each of the server's own steps is a run of the stream server, and leaves less to do. -/
theorem own_answered {lanes : RoundRobin.Lanes} (hr : Refines c s.srv lanes) (hinv : StreamServer.Inv t)
    (ht : Shows s.srv.kern s.net t) (ho : Own s a) (hs : sysStep c s a = some s') : Answered c s t s' := by
  cases a with
  | client _ => exact ho.elim
  | srv m =>
    obtain ⟨hsrv, hnet⟩ := srv_step hs
    unfold step at hsrv
    split at hsrv
    · cases hsrv
    next hk =>
    have hk : s.srv.killed = false := Bool.not_eq_true _ ▸ hk
    split at hsrv
    · next m =>
      refine main_answered (cur_lt hr) hk hinv ht ?_ hsrv hnet
      rintro rfl
      exact ho
    · next w m =>
      simp only [Option.ite_none_right_eq_some] at hsrv
      refine worker_answered hr hsrv.1 hk hinv ht ?_ hsrv.2 hnet
      rintro fd rfl
      exact ho
    · exact ho.elim

theorem other_srv {m : Act} (ho : ¬ Own s (.srv m)) (hs : sysStep c s (.srv m) = some s') :
    s'.srv.kern = s.srv.kern ∧ s'.net = s.net := by
  obtain ⟨hsrv, hnet⟩ := srv_step hs
  obtain ⟨srv, net⟩ := s'
  unfold step at hsrv
  split at hsrv
  · cases hsrv
  split at hsrv
  · next m =>
    cases m with
    | sigint =>
      cases hnet
      cases mainStep_sound hsrv with
      | sigint _ => exact ⟨rfl, rfl⟩
    | accept _ | push | sendConn | sendTerm | loopexit | leave | join => exact absurd trivial ho
  · next w m =>
    cases m with
    | clientEvent fd eof error =>
      cases eof with
      | true => exact absurd trivial ho
      | false =>
        cases error with
        | true => exact absurd trivial ho
        | false =>
          cases hnet
          simp only [Option.ite_none_right_eq_some] at hsrv
          have hpc : (s.srv.workers w).pc = .loop := by
            cases workerStep_cases hsrv.2 with
            | free hpc _ | stay hpc => exact hpc
          simp only [workerStep, hpc, Option.ite_none_right_eq_some, Option.some.injEq] at hsrv
          obtain ⟨-, -, rfl⟩ := hsrv
          exact ⟨rfl, rfl⟩
    | mainMsg | recv | tryPop | register | clientMsg _ _ | read | count | reply | flush _ _ _ | leave =>
      exact absurd trivial ho
  · simp only [netOf, Option.ite_none_right_eq_some, Option.some.injEq] at hnet hsrv
    obtain ⟨-, rfl⟩ := hsrv
    exact ⟨rfl, hnet.2.symm⟩

theorem reach_srv {ok : Sys → SysAct → Prop} {ok' : St → Act → Prop} (hok : ∀ s m, ok s (.srv m) → ok' s.srv m)
    (h : Reach (sysStep c) ok Sys.init s) : Reach (step c) ok' ThreadPool.init s.srv := by
  induction h with
  | refl => exact .refl
  | @tail s a s' _ ho hs ih =>
    cases a with
    | client _ =>
      cases hs
      exact ih
    | srv m => exact .tail ih (hok s m ho) (srv_step hs).1

/-- Every state of the server and its clients is one of the stream server's. -/
theorem reach_shows (h : Reach (sysStep c) Any Sys.init s) :
    ∃ t, Reach (StreamServer.step readCap) Any StreamServer.init t ∧ Shows s.srv.kern s.net t := by
  refine h.simulate (R := fun s t => Shows s.srv.kern s.net t) Shows.init ?_
  intro s a s' t hr hrt ht _ hs
  obtain ⟨lanes, -, href⟩ := reach_refines (reach_srv (fun _ _ => id) hr)
  by_cases ho : Own s a
  · obtain ⟨as, t', hrun, ht', -⟩ := own_answered href (StreamServer.reach_inv hrt) ht ho hs
    exact ⟨t', (reach_of_runWhere hrun).any, ht'⟩
  · cases a with
    | client a =>
      cases hs
      obtain ⟨t', hstep, ht'⟩ := ht.client readCap a
      exact ⟨t', .tail .refl trivial hstep, ht'⟩
    | srv m =>
      obtain ⟨hkern, hnet⟩ := other_srv ho hs
      exact ⟨t, .refl, by rw [hkern, hnet]; exact ht⟩

end LinuxServer.ThreadPool
