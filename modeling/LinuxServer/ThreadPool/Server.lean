/-
The libevent thread-pool server (libev_half_sync_reactive_thread_pool_server.hpp):
the main thread's loop with `conn_listener_cb` and `signal_event_cb`, and
each worker's with `main_msg_cb`, `client_msg_cb` and `client_event_cb`.

A step is one action on shared state, so the steps of the main thread and of
the workers interleave between a push and its byte, a byte and the pops, a
pop and the registration. Connection `n` is the one accepted after `n`
others; the queues and the event bases hold descriptors, as in the source.

`event_base_loopexit` lets the callbacks already active finish: after it the
main loop may still accept and a worker's client callbacks may still run,
while `main_msg_cb`, which has returned, is not called again.
-/
import Mathlib.Logic.Function.Basic
import LinuxServer.Lib.FdTable
import LinuxServer.Lib.Fifo
import LinuxServer.Lib.Lts
import LinuxServer.ThreadSafeQueue

namespace LinuxServer

namespace ThreadPool

open Lts

/-- `BUF_SIZE`. -/
def bufSize : Nat := 4096

inductive CommMsgType
  | commNewConnected
  | commTerminate
  deriving DecidableEq, Repr

structure CommQueueItem where
  fd : Nat
  deriving DecidableEq, Repr

/-- A `bufferevent` of an event base: its socket, and how many bytes
`bufferevent_write` queued that are not written yet. -/
structure BufferEvent where
  fd : Nat
  output : Nat
  deriving DecidableEq, Repr

/-- Where a worker is: in its loop between callbacks; in `main_msg_cb`
before a `recv`, before a `try_pop`, or with the descriptor popped; in
`client_msg_cb` before a `bufferevent_read` with `avail` bytes buffered,
before `succ_cli_count++`, or before the reply; or out of `worker_func`. -/
inductive WorkerPc
  | loop
  | recv
  | tryPop
  | popped (fd : Nat)
  | msgRead (fd avail : Nat)
  | msgGot (fd avail : Nat)
  | msgReply (fd : Nat)
  | left
  deriving DecidableEq, Repr

/-- A worker with its ends of `comm_pipes` and `comm_queues`. The last three
fields are the history: the connections it registered, in order, how many
were pushed for it, and how many had been accepted when its pipe first took
a COMM_TERMINATE. -/
structure Worker where
  pc : WorkerPc
  commPipe : List CommMsgType
  commQueue : ThreadSafeQueue CommQueueItem
  base : List BufferEvent
  exitAsked : Bool
  registered : List Nat
  pushes : Nat
  termSent : Option Nat
  deriving DecidableEq, Repr

def Worker.init : Worker := ⟨.loop, [], ⟨[]⟩, [], false, [], 0, none⟩

/-- The descriptors of the queue, front first. -/
def Worker.queued (x : Worker) : List Nat := x.commQueue.dataQueue.map (·.fd)

/-- The descriptors registered with the event base. -/
def Worker.fds (x : Worker) : List Nat := x.base.map (·.fd)

/-- Where the main thread is: in its loop between callbacks, in
`conn_listener_cb` before the push or before the send, in `signal_event_cb`
before `comm_pipes[k]` is sent its byte, in `pool.join()`, or returned. -/
inductive MainPc
  | loop
  | hand (fd : Nat)
  | pushed (fd : Nat)
  | signalling (k : Nat)
  | joining
  | returned
  deriving DecidableEq, Repr

/-- The worker threads, and the pipes' capacity in bytes. -/
structure Cfg where
  concur : Nat
  pipeCap : Nat
  concur_pos : 0 < concur
  pipeCap_pos : 0 < pipeCap

/-- `gone n` is set once the client of connection `n` closed or reset it.
`succCliCount` is how often `succ_cli_count` was incremented, its
`std::atomic<int>` holding `AtomicInt.atomicInt` of that; `chunks` are the
connections `client_msg_cb` read a chunk from, `writes` those libevent wrote
to, with whether the client was gone. -/
structure St where
  main : MainPc
  exitAsked : Bool
  curWorkerInd : Nat
  workers : Nat → Worker
  kern : FdTable Nat
  gone : Nat → Bool
  killed : Bool
  succCliCount : Nat
  chunks : List Nat
  writes : List (Nat × Bool)

def init : St where
  main := .loop
  exitAsked := false
  curWorkerInd := 0
  workers _ := .init
  kern := .empty
  gone _ := false
  killed := false
  succCliCount := 0
  chunks := []
  writes := []

def St.setWorker (s : St) (w : Nat) (x : Worker) : St :=
  { s with workers := Function.update s.workers w x }

/-- The client of the connection `fd` refers to is gone. -/
def St.peerGone (s : St) (fd : Nat) : Bool := (s.kern.ofd fd).any s.gone

/-! ## Main thread -/

inductive MainAct
  /-- a connection is accepted as `fd` and `conn_listener_cb` called -/
  | accept (fd : Nat)
  | push
  | sendConn
  /-- `signal_event_cb` is called for SIGINT -/
  | sigint
  | sendTerm
  | loopexit
  | leave
  | join
  deriving DecidableEq, Repr

/-- What `send` of `msg` does to the worker's end of the pipe; `accepted`
are the connections accepted so far. -/
def Worker.send (c : Cfg) (accepted : Nat) (msg : CommMsgType) (x : Worker) : Worker :=
  { x with
    commPipe := Fifo.trySend c.pipeCap msg x.commPipe
    termSent :=
      if msg = .commTerminate ∧ x.termSent = none ∧ x.commPipe.length < c.pipeCap then some accepted
      else x.termSent }

/-- `comm_queues[cur_worker_ind].push(CommQueueItem(fd))`. -/
def pushConn (s : St) (fd : Nat) : St :=
  let x := s.workers s.curWorkerInd
  { s.setWorker s.curWorkerInd { x with commQueue := x.commQueue.push ⟨fd⟩, pushes := x.pushes + 1 } with
    main := .pushed fd }

/-- `cur_worker_ind++`, back to 0 after the last worker. -/
def nextWorkerInd (c : Cfg) (i : Nat) : Nat := if c.concur ≤ i + 1 then 0 else i + 1

/-- `send(comm_pipes[w], &msg, 1, 0)` and on to `main` and `cur`: SIGPIPE
kills the process when worker `w` has closed its end. -/
def sendComm (c : Cfg) (s : St) (w : Nat) (msg : CommMsgType) (main : MainPc) (cur : Nat) : St :=
  if (s.workers w).pc = .left then { s with killed := true }
  else
    { s.setWorker w ((s.workers w).send c s.kern.opened msg) with
      main := main
      curWorkerInd := cur }

def mainStep (c : Cfg) (s : St) (a : MainAct) : Option St :=
  match a, s.main with
  | .accept fd, .loop =>
    if h : s.kern.ofd fd = none then some { s with main := .hand fd, kern := s.kern.alloc fd h } else none
  | .push, .hand fd => some (pushConn s fd)
  | .sendConn, .pushed _ =>
    some (sendComm c s s.curWorkerInd .commNewConnected .loop (nextWorkerInd c s.curWorkerInd))
  | .sigint, .loop => some { s with main := .signalling 0 }
  | .sendTerm, .signalling k =>
    if k < c.concur then some (sendComm c s k .commTerminate (.signalling (k + 1)) s.curWorkerInd) else none
  | .loopexit, .signalling k =>
    if k = c.concur then some { s with main := .loop, exitAsked := true } else none
  | .leave, .loop => if s.exitAsked then some { s with main := .joining } else none
  | .join, .joining =>
    if ∀ w < c.concur, (s.workers w).pc = .left then some { s with main := .returned } else none
  | _, _ => none

/-! ## Workers -/

inductive WorkerAct
  /-- the pipe is readable and `main_msg_cb` is called -/
  | mainMsg
  | recv
  | tryPop
  | register
  /-- `n` bytes are in the input buffer of `fd` and `client_msg_cb` is called -/
  | clientMsg (fd n : Nat)
  | read
  | count
  | reply
  /-- libevent writes `n` bytes of the output of `fd`; with the client gone that may raise SIGPIPE -/
  | flush (fd n : Nat) (sigpipe : Bool)
  /-- `client_event_cb` is called with these of BEV_EVENT_EOF and BEV_EVENT_ERROR set -/
  | clientEvent (fd : Nat) (eof error : Bool)
  /-- the loop ends, and `worker_func` with it -/
  | leave
  deriving DecidableEq, Repr

/-- `recv(fd, &msg_type, 1, 0)` and its `switch`. The main thread never
closes its end, so an empty pipe is EAGAIN. -/
def Worker.recvMsg (x : Worker) : Worker :=
  match x.commPipe with
  | [] => { x with pc := .loop }
  | .commNewConnected :: pipe => { x with pc := .tryPop, commPipe := pipe }
  | .commTerminate :: pipe => { x with pc := .loop, commPipe := pipe, exitAsked := true }

/-- `try_pop(cq_msg)`. -/
def Worker.popItem (x : Worker) : Worker :=
  match x.commQueue.tryPop with
  | none => { x with pc := .recv }
  | some (item, queue) => { x with pc := .popped item.fd, commQueue := queue }

/-- `bufferevent_socket_new`, `bufferevent_setcb` and `bufferevent_enable`
on `fd`, which refers to `conn`. -/
def Worker.register (x : Worker) (fd : Nat) (conn : Option Nat) : Worker :=
  { x with
    pc := .tryPop
    base := x.base ++ [⟨fd, 0⟩]
    registered := x.registered ++ conn.toList }

/-- The output of the `bufferevent` of `fd` changed by `g`. -/
def Worker.setOutput (x : Worker) (fd : Nat) (g : Nat → Nat) : Worker :=
  { x with base := x.base.map fun b => if b.fd = fd then { b with output := g b.output } else b }

/-- How many bytes are queued for writing to `fd`. -/
def Worker.output (x : Worker) (fd : Nat) : Nat := ((x.base.find? (·.fd == fd)).map (·.output)).getD 0

/-- `bufferevent_read` with `avail` bytes buffered. -/
def readChunk (s : St) (w fd avail : Nat) : St :=
  if avail = 0 then s.setWorker w { s.workers w with pc := .msgReply fd }
  else
    { s.setWorker w { s.workers w with pc := .msgGot fd (avail - min avail (bufSize - 1)) } with
      chunks := s.chunks ++ (s.kern.ofd fd).toList }

/-- libevent's write of `n` queued bytes to `fd`. -/
def flushOutput (s : St) (w fd n : Nat) (sigpipe : Bool) : St :=
  { s.setWorker w ((s.workers w).setOutput fd (· - n)) with
    killed := sigpipe
    writes := s.writes ++ (s.kern.ofd fd).toList.map fun conn => (conn, s.gone conn) }

/-- `client_event_cb`: `bufferevent_free`, which closes the descriptor, on
end of stream and on an error. -/
def clientEvent (s : St) (w fd : Nat) (eof error : Bool) : St :=
  if eof || error then
    let x := s.workers w
    { s.setWorker w { x with base := x.base.filter (·.fd != fd) } with kern := s.kern.close fd }
  else s

def workerStep (s : St) (w : Nat) (a : WorkerAct) : Option St :=
  let x := s.workers w
  match a, x.pc with
  | .mainMsg, .loop =>
    if x.exitAsked = false ∧ x.commPipe ≠ [] then some (s.setWorker w { x with pc := .recv }) else none
  | .recv, .recv => some (s.setWorker w x.recvMsg)
  | .tryPop, .tryPop => some (s.setWorker w x.popItem)
  | .register, .popped fd => some (s.setWorker w (x.register fd (s.kern.ofd fd)))
  | .clientMsg fd n, .loop =>
    if fd ∈ x.fds ∧ 0 < n then some (s.setWorker w { x with pc := .msgRead fd n }) else none
  | .read, .msgRead fd avail => some (readChunk s w fd avail)
  | .count, .msgGot fd avail =>
    some { s.setWorker w { x with pc := .msgRead fd avail } with succCliCount := s.succCliCount + 1 }
  | .reply, .msgReply fd => some (s.setWorker w { x.setOutput fd (· + 2) with pc := .loop })
  | .flush fd n sigpipe, .loop =>
    if fd ∈ x.fds ∧ 0 < n ∧ n ≤ x.output fd ∧ (sigpipe = true → s.peerGone fd = true) then
      some (flushOutput s w fd n sigpipe)
    else none
  | .clientEvent fd eof error, .loop => if fd ∈ x.fds then some (clientEvent s w fd eof error) else none
  | .leave, .loop => if x.exitAsked then some (s.setWorker w { x with pc := .left }) else none
  | _, _ => none

/-! ## The process -/

inductive Act
  | main (a : MainAct)
  | worker (w : Nat) (a : WorkerAct)
  /-- the client of connection `n` closes or resets it -/
  | peerClose (n : Nat)
  deriving DecidableEq, Repr

def step (c : Cfg) (s : St) (a : Act) : Option St :=
  if s.killed then none
  else
    match a with
    | .main a => mainStep c s a
    | .worker w a => if w < c.concur then workerStep s w a else none
    | .peerClose n =>
      if n < s.kern.opened then some { s with gone := Function.update s.gone n true } else none

/-! ## What a step can do -/

/-- The descriptor `client_msg_cb` runs for. -/
def WorkerPc.msgFd : WorkerPc → Option Nat
  | .msgRead fd _ | .msgGot fd _ | .msgReply fd => some fd
  | .loop | .recv | .tryPop | .popped _ | .left => none

/-- In the loop or in `client_msg_cb`. -/
def WorkerPc.client : WorkerPc → Bool
  | .loop | .msgRead _ _ | .msgGot _ _ | .msgReply _ => true
  | .recv | .tryPop | .popped _ | .left => false

/-- Of a worker, what `client_msg_cb` and libevent's writes leave alone. -/
def Worker.shared (x : Worker) : List CommMsgType × List Nat × List Nat × Bool × List Nat × Nat × Option Nat :=
  (x.commPipe, x.queued, x.fds, x.exitAsked, x.registered, x.pushes, x.termSent)

/-- The steps, each with what it requires and changes (`step_sound`). Those
of `client_msg_cb` and libevent's writes are one, `client`. -/
inductive Step (c : Cfg) (s : St) : Act → St → Prop
  | accept {fd} (h : s.kern.ofd fd = none) : s.main = .loop →
      Step c s (.main (.accept fd)) { s with main := .hand fd, kern := s.kern.alloc fd h }
  | push {fd} : s.main = .hand fd → Step c s (.main .push) (pushConn s fd)
  | sendConn {fd} : s.main = .pushed fd → Step c s (.main .sendConn)
      (sendComm c s s.curWorkerInd .commNewConnected .loop (nextWorkerInd c s.curWorkerInd))
  | sigint : s.main = .loop → Step c s (.main .sigint) { s with main := .signalling 0 }
  | sendTerm {k} : s.main = .signalling k → k < c.concur → Step c s (.main .sendTerm)
      (sendComm c s k .commTerminate (.signalling (k + 1)) s.curWorkerInd)
  | loopexit : s.main = .signalling c.concur →
      Step c s (.main .loopexit) { s with main := .loop, exitAsked := true }
  | mainLeave : s.main = .loop → s.exitAsked = true → Step c s (.main .leave) { s with main := .joining }
  | join : s.main = .joining → (∀ w < c.concur, (s.workers w).pc = .left) →
      Step c s (.main .join) { s with main := .returned }
  | mainMsg {w} : w < c.concur → (s.workers w).pc = .loop → (s.workers w).exitAsked = false →
      Step c s (.worker w .mainMsg) (s.setWorker w { s.workers w with pc := .recv })
  | recv {w} : w < c.concur → (s.workers w).pc = .recv →
      Step c s (.worker w .recv) (s.setWorker w (s.workers w).recvMsg)
  | popNone {w} : w < c.concur → (s.workers w).pc = .tryPop → (s.workers w).queued = [] →
      Step c s (.worker w .tryPop) (s.setWorker w { s.workers w with pc := .recv })
  | popSome {w fd queue} : w < c.concur → (s.workers w).pc = .tryPop →
      (s.workers w).queued = fd :: queue.dataQueue.map (·.fd) →
      Step c s (.worker w .tryPop)
        (s.setWorker w { s.workers w with pc := .popped fd, commQueue := queue })
  | register {w fd} : w < c.concur → (s.workers w).pc = .popped fd →
      Step c s (.worker w .register) (s.setWorker w ((s.workers w).register fd (s.kern.ofd fd)))
  | client {w a x} (killed succCliCount chunks writes) : w < c.concur → a ≠ .leave →
      (s.workers w).pc.client = true → x.pc.client = true → x.shared = (s.workers w).shared →
      (∀ fd, x.pc.msgFd = some fd → fd ∈ (s.workers w).fds ∨ (s.workers w).pc.msgFd = some fd) →
      Step c s (.worker w a)
        { s.setWorker w x with
          killed := killed, succCliCount := succCliCount, chunks := chunks, writes := writes }
  | close {w fd eof error} : w < c.concur → (s.workers w).pc = .loop → fd ∈ (s.workers w).fds →
      Step c s (.worker w (.clientEvent fd eof error))
        { s.setWorker w { s.workers w with base := (s.workers w).base.filter (·.fd != fd) } with
          kern := s.kern.close fd }
  | leave {w} : w < c.concur → (s.workers w).pc = .loop → (s.workers w).exitAsked = true →
      Step c s (.worker w .leave) (s.setWorker w { s.workers w with pc := .left })
  | peerClose {n} : n < s.kern.opened →
      Step c s (.peerClose n) { s with gone := Function.update s.gone n true }

/-- The steps of a worker, with `client_msg_cb` and libevent's writes apart (`workerStep_cases`). -/
inductive WorkerStep (s : St) (w : Nat) : WorkerAct → St → Prop
  | mainMsg : (s.workers w).pc = .loop → (s.workers w).exitAsked = false →
      WorkerStep s w .mainMsg (s.setWorker w { s.workers w with pc := .recv })
  | recv : (s.workers w).pc = .recv → WorkerStep s w .recv (s.setWorker w (s.workers w).recvMsg)
  | tryPop : (s.workers w).pc = .tryPop → WorkerStep s w .tryPop (s.setWorker w (s.workers w).popItem)
  | register {fd} : (s.workers w).pc = .popped fd →
      WorkerStep s w .register (s.setWorker w ((s.workers w).register fd (s.kern.ofd fd)))
  | clientMsg {fd n} : (s.workers w).pc = .loop → fd ∈ (s.workers w).fds →
      WorkerStep s w (.clientMsg fd n) (s.setWorker w { s.workers w with pc := .msgRead fd n })
  | readNone {fd} : (s.workers w).pc = .msgRead fd 0 →
      WorkerStep s w .read (s.setWorker w { s.workers w with pc := .msgReply fd })
  | readSome {fd avail} (rest) : (s.workers w).pc = .msgRead fd avail → WorkerStep s w .read
      { s.setWorker w { s.workers w with pc := .msgGot fd rest } with chunks := s.chunks ++ (s.kern.ofd fd).toList }
  | count {fd avail} : (s.workers w).pc = .msgGot fd avail → WorkerStep s w .count
      { s.setWorker w { s.workers w with pc := .msgRead fd avail } with succCliCount := s.succCliCount + 1 }
  | reply {fd} : (s.workers w).pc = .msgReply fd →
      WorkerStep s w .reply (s.setWorker w { (s.workers w).setOutput fd (· + 2) with pc := .loop })
  | flush {fd n sigpipe} : (s.workers w).pc = .loop → 0 < n → n ≤ (s.workers w).output fd →
      (sigpipe = true → s.peerGone fd = true) → WorkerStep s w (.flush fd n sigpipe) (flushOutput s w fd n sigpipe)
  | free {fd eof error} : (s.workers w).pc = .loop → fd ∈ (s.workers w).fds →
      WorkerStep s w (.clientEvent fd eof error)
        { s.setWorker w { s.workers w with base := (s.workers w).base.filter (·.fd != fd) } with
          kern := s.kern.close fd }
  | stay {fd eof error} : (s.workers w).pc = .loop → WorkerStep s w (.clientEvent fd eof error) s
  | leave : (s.workers w).pc = .loop → (s.workers w).exitAsked = true →
      WorkerStep s w .leave (s.setWorker w { s.workers w with pc := .left })

theorem workerStep_cases {s s' : St} {w : Nat} {a : WorkerAct} (h : workerStep s w a = some s') :
    WorkerStep s w a s' := by
  unfold workerStep at h
  simp only at h
  split at h
  · next hpc =>
    split at h
    · next hg => cases h; exact .mainMsg hpc hg.1
    · cases h
  · next hpc => cases h; exact .recv hpc
  · next hpc => cases h; exact .tryPop hpc
  · next hpc => cases h; exact .register hpc
  · next hpc =>
    split at h
    · next hg => cases h; exact .clientMsg hpc hg.1
    · cases h
  · next fd avail hpc =>
    cases h
    unfold readChunk
    split
    · next h0 => subst h0; exact .readNone hpc
    · exact .readSome _ hpc
  · next hpc => cases h; exact .count hpc
  · next hpc => cases h; exact .reply hpc
  · next hpc =>
    split at h
    · next hg => cases h; exact .flush hpc hg.2.1 hg.2.2.1 hg.2.2.2
    · cases h
  · next hpc =>
    split at h
    · next hfd =>
      cases h
      unfold clientEvent
      split
      · exact .free hpc hfd
      · exact .stay hpc
    · cases h
  · next hpc =>
    split at h
    · next he => cases h; exact .leave hpc he
    · cases h
  · cases h

@[simp] theorem setWorker_self (s : St) (w : Nat) (x : Worker) : (s.setWorker w x).workers w = x := by
  simp [St.setWorker]

theorem setWorker_of_ne {s : St} {w w' : Nat} {x : Worker} (h : w' ≠ w) :
    (s.setWorker w x).workers w' = s.workers w' := by
  simp [St.setWorker, h]

theorem forall_setWorker {s : St} {w : Nat} {x : Worker} {P : Nat → Worker → Prop} (hself : P w x)
    (hother : ∀ w', w' ≠ w → P w' (s.workers w')) (w' : Nat) : P w' ((s.setWorker w x).workers w') :=
  (Function.forall_update_iff s.workers P).mpr ⟨hself, hother⟩ w'

theorem setWorker_eq {s : St} {w : Nat} : s.setWorker w (s.workers w) = s := by
  simp [St.setWorker]

theorem setOutput_fds (x : Worker) (fd : Nat) (g : Nat → Nat) : (x.setOutput fd g).fds = x.fds := by
  simp only [Worker.fds, Worker.setOutput, List.map_map]
  refine List.map_congr_left fun b _ => ?_
  simp only [Function.comp]
  split <;> rfl

theorem setOutput_shared (x : Worker) (fd : Nat) (g : Nat → Nat) : (x.setOutput fd g).shared = x.shared := by
  have hfds := setOutput_fds x fd g
  simpa [Worker.shared, Worker.queued, Worker.setOutput, Worker.fds] using hfds

theorem mainStep_sound {c : Cfg} {s s' : St} {a : MainAct} (h : mainStep c s a = some s') :
    Step c s (.main a) s' := by
  unfold mainStep at h
  split at h
  · next hm =>
    split at h
    · next hf => cases h; exact .accept hf hm
    · cases h
  · next hm => cases h; exact .push hm
  · next hm => cases h; exact .sendConn hm
  · next hm => cases h; exact .sigint hm
  · next hm =>
    split at h
    · next hk => cases h; exact .sendTerm hm hk
    · cases h
  · next hm =>
    split at h
    · next hk => cases h; exact .loopexit (hk ▸ hm)
    · cases h
  · next hm =>
    split at h
    · next he => cases h; exact .mainLeave hm he
    · cases h
  · next hm =>
    split at h
    · next hl => cases h; exact .join hm hl
    · cases h
  · cases h

/-- A step of `client_msg_cb` or a write: only worker `w`'s place and output
change, and what is kept of the run. -/
theorem Step.ofClient {c : Cfg} {s : St} {w : Nat} {a : WorkerAct} {x : Worker} (hw : w < c.concur)
    (ha : a ≠ .leave) (hpc : (s.workers w).pc.client = true) (hpc' : x.pc.client = true)
    (hx : x.shared = (s.workers w).shared)
    (hmsg : ∀ fd, x.pc.msgFd = some fd → fd ∈ (s.workers w).fds ∨ (s.workers w).pc.msgFd = some fd) :
    Step c s (.worker w a) (s.setWorker w x) :=
  .client s.killed s.succCliCount s.chunks s.writes hw ha hpc hpc' hx hmsg

theorem popItem_sound {c : Cfg} {s : St} {w : Nat} (hw : w < c.concur) (hpc : (s.workers w).pc = .tryPop) :
    Step c s (.worker w .tryPop) (s.setWorker w (s.workers w).popItem) := by
  cases hq : (s.workers w).commQueue.tryPop with
  | none =>
    have hnil : (s.workers w).queued = [] := by simp [Worker.queued, ThreadSafeQueue.tryPop_none hq]
    simpa [Worker.popItem, hq] using Step.popNone hw hpc hnil
  | some p =>
    obtain ⟨item, queue⟩ := p
    have hcons : (s.workers w).queued = item.fd :: queue.dataQueue.map (·.fd) := by
      simp [Worker.queued, ThreadSafeQueue.tryPop_some hq]
    simpa [Worker.popItem, hq] using Step.popSome hw hpc hcons

theorem workerStep_sound {c : Cfg} {s s' : St} {w : Nat} {a : WorkerAct} (hw : w < c.concur)
    (h : workerStep s w a = some s') : Step c s (.worker w a) s' := by
  cases workerStep_cases h with
  | mainMsg hpc he => exact .mainMsg hw hpc he
  | recv hpc => exact .recv hw hpc
  | tryPop hpc => exact popItem_sound hw hpc
  | register hpc => exact .register hw hpc
  | clientMsg hpc hfd =>
    refine .ofClient hw (by simp) (by simp [hpc, WorkerPc.client]) rfl rfl fun fd' he => ?_
    cases he
    exact .inl hfd
  | readNone hpc =>
    refine .ofClient hw (by simp) (by simp [hpc, WorkerPc.client]) rfl rfl fun fd' he => .inr ?_
    rw [hpc]
    exact he
  | readSome _ hpc | count hpc =>
    refine .client s.killed _ _ _ hw (by simp) (by simp [hpc, WorkerPc.client]) rfl rfl fun fd' he => .inr ?_
    rw [hpc]
    exact he
  | @reply fd hpc =>
    refine .ofClient hw (by simp) (by simp [hpc, WorkerPc.client]) rfl ?_ (by simp [WorkerPc.msgFd])
    exact setOutput_shared (s.workers w) fd (· + 2)
  | @flush fd n sigpipe hpc =>
    refine .client sigpipe _ _ _ hw (by simp) (by simp [hpc, WorkerPc.client]) ?_ ?_ ?_
    · simp [Worker.setOutput, hpc, WorkerPc.client]
    · exact setOutput_shared (s.workers w) fd (· - n)
    · simp [Worker.setOutput, hpc, WorkerPc.msgFd]
  | free hpc hfd => exact .close hw hpc hfd
  | @stay fd eof error hpc =>
    have hcl : (s.workers w).pc.client = true := by simp [hpc, WorkerPc.client]
    have hstay : Step c s (.worker w (.clientEvent fd eof error)) (s.setWorker w (s.workers w)) :=
      .ofClient hw (by simp) hcl hcl rfl (by simp [hpc, WorkerPc.msgFd])
    rwa [setWorker_eq] at hstay
  | leave hpc he => exact .leave hw hpc he

theorem step_sound {c : Cfg} {s s' : St} {a : Act} (h : step c s a = some s') : Step c s a s' := by
  unfold step at h
  split at h
  · cases h
  split at h
  · exact mainStep_sound h
  · split at h
    · next hw => exact workerStep_sound hw h
    · cases h
  · split at h
    · next hn => cases h; exact .peerClose hn
    · cases h

end ThreadPool

end LinuxServer
