/-
`serv_epoll` (multi_connection_server.hpp): the main thread's loop with
`ep_accept_worker_func`, and a pool of threads that runs
`ep_msg_worker_func` and `ep_sig_worker_func`.

A step is one system call or one access to what the threads share, so the
close of a descriptor, the two lines of its CLOSE_FD section and an accept
that returns the same number can come in any order. `kern` is the kernel's
table of accepted connections, `epoll` what is registered in `epfd`. The
kernel drops a registration when its descriptor is closed, and hands a
closed number out again.

A task carries the descriptor it was created with, as in the source, and
beside it the connection that number referred to when `epoll_wait` reported
it.

The loop that closes `ep_fds` at the end walks over the set without the
mutex, while the pool threads go on erasing from it. Its iterator stands at
a node of the set; once that node was erased, the next use of the iterator
is undefined behaviour (`crashed`).
-/
import Mathlib.Data.Finset.Card
import LinuxServer.Kernel
import LinuxServer.Lib.FdTable
import LinuxServer.Lib.Fifo
import LinuxServer.Lib.Lts

namespace LinuxServer.Epoll

open Lts

/-- `EPOLL_FDS_LEN`. -/
def epollFdsLen : Nat := 1024

/-- `BUF_SIZE`. -/
def bufSize : Nat := 4096

inductive EpollTriggerType
  | epLt
  | epEt
  deriving DecidableEq, Repr

/-- The server: its trigger type, the number of pool threads, its listening
socket, the read end of the signal pipe and that pipe's capacity. `own` are
the descriptors it has open besides its clients, which `accept` does not
return. -/
structure Cfg where
  trigger : EpollTriggerType
  concurCount : Nat
  listenFd : Nat
  sigPipeFd : Nat
  sigPipeCap : Nat
  own : Nat → Bool
  listen_own : own listenFd = true
  sigPipe_own : own sigPipeFd = true
  listen_ne : listenFd ≠ sigPipeFd

/-- `fd` in the lambda of a dispatched task. -/
structure Task where
  fd : Nat
  conn : Option Nat
  deriving DecidableEq, Repr

/-- An entry of `events`, or what is dispatched for it. -/
inductive Event
  | listen
  | sig
  | msg (t : Task)
  deriving DecidableEq, Repr

/-- Where the main thread is, `events` being those of the batch still to be
handled: at the loop's test; before the lock of `epoll_wait`, or in it; in
the `for` over the batch; in `ep_accept_worker_func` with `fd` accepted,
before the lock, before the size test, or before the insert; in the `for`
over `ep_fds`, the numbers of `closed` done, whose head is the iterator's
node, or with the iterator at the next node and before its `close`; or ended,
by `exit` or with an iterator that is no longer valid. -/
inductive MainPc
  | top
  | toWait
  | waiting
  | batch (events : List Event)
  | accepted (fd : Nat) (conn : Option Nat) (events : List Event)
  | locked (fd : Nat) (conn : Option Nat) (events : List Event)
  | added (fd : Nat) (conn : Option Nat) (events : List Event)
  | closing (closed : List Nat)
  | visiting (fd : Nat) (closed : List Nat)
  | exited (code : Nat)
  | crashed
  deriving DecidableEq

/-- Where a pool thread is: waiting for a task; in `serv_read` before the
`recv`, or with its outcome, the connection it was made on and what `errno`
holds after the logging; before `close(cli_fd)`; in CLOSE_FD before the
lock, before EPOLL_CTL_DEL, or before the erase; or in
`ep_sig_worker_func` before a `recv` or with a byte. -/
inductive WorkerPc
  | idle
  | msgRecv (t : Task)
  | msgRead (t : Task) (on : Option Nat) (out : RecvOut) (errno : Errno)
  | toClose (t : Task)
  | toLock (t : Task)
  | toDel (t : Task)
  | toErase (t : Task)
  | sigRecv
  | sigGot (sig : Signal)
  deriving DecidableEq, Repr

inductive Holder
  | main
  | worker (w : Nat)
  deriving DecidableEq, Repr

/-- The kernel's side of an accepted connection. -/
structure Socket where
  rcv : List UInt8
  fin : Bool
  rst : Bool
  deriving DecidableEq, Repr

/-- `rst` is set until a `recv` reports the reset, which comes after the data. -/
def Socket.readable (k : Socket) : Bool := k.rst || !k.rcv.isEmpty || k.fin

/-- A system call made for connection `conn` on a number that referred to `on`. -/
inductive Call
  | recv (conn on : Option Nat)
  | close (conn on : Option Nat)
  deriving DecidableEq, Repr

/-- `edge fd` is set when an edge of `fd` is pending in `epfd`; `chunks` are
what `serv_read` reported, in the order logged, with the connection each was
read from. The line logged has the chunk's length, and its text up to the
first NUL. -/
structure St where
  main : MainPc
  running : Bool
  mutex : Option Holder
  epFds : Finset Nat
  epoll : Finset Nat
  edge : Nat → Bool
  kern : FdTable Nat
  socket : Nat → Socket
  sigPipe : List Signal
  tasks : List Event
  workers : Nat → WorkerPc
  calls : List Call
  chunks : List (Option Nat × List UInt8)

/-- The state at the loop, with the two descriptors of its own registered. -/
def init (c : Cfg) : St where
  main := .top
  running := true
  mutex := none
  epFds := {c.listenFd, c.sigPipeFd}
  epoll := {c.listenFd, c.sigPipeFd}
  edge _ := false
  kern := .empty
  socket _ := ⟨[], false, false⟩
  sigPipe := []
  tasks := []
  workers _ := .idle
  calls := []
  chunks := []

def St.setWorker (s : St) (w : Nat) (pc : WorkerPc) : St :=
  { s with workers := Function.update s.workers w pc }

/-! ## Kernel -/

/-- The connection under `fd` has something to report. -/
def readable (s : St) (fd : Nat) : Bool := (s.kern.ofd fd).any fun n => (s.socket n).readable

/-- `epoll_wait` may report `fd` while it is readable, edge-triggered only
when an edge is pending too. The server's own two descriptors are
level-triggered. -/
def reportable (c : Cfg) (s : St) (fd : Nat) : Bool :=
  if fd = c.listenFd then true
  else if fd = c.sigPipeFd then !s.sigPipe.isEmpty
  else
    match c.trigger with
    | .epLt => readable s fd
    | .epEt => s.edge fd && readable s fd

/-- `epoll_ctl(epfd, EPOLL_CTL_ADD, fd, &event)`: an edge is pending if there is data already. -/
def epollAdd (s : St) (fd : Nat) : St :=
  if s.kern.ofd fd = none then s
  else { s with epoll := insert fd s.epoll, edge := Function.update s.edge fd (readable s fd) }

/-- `close(fd)` made for connection `conn`; the registration goes with the descriptor. -/
def closeFd (s : St) (fd : Nat) (conn : Option Nat) : St :=
  { s with
    kern := s.kern.close fd
    epoll := s.epoll.erase fd
    calls := s.calls ++ [.close conn (s.kern.ofd fd)] }

/-- What `recv(fd, buf, BUF_SIZE - 1, 0)` returns, and leaves of the socket. -/
def recvOn (k : Socket) : RecvOut × Socket :=
  if k.rcv ≠ [] then (.data (k.rcv.take (bufSize - 1)), { k with rcv := k.rcv.drop (bufSize - 1) })
  else if k.rst then (.error .econnreset, { k with rst := false })
  else if k.fin then (.eof, k)
  else (.error .eagain, k)

/-- Something arrived on the connection under `fd`. -/
def arrive (s : St) (fd n : Nat) (k : Socket) : St :=
  { s with
    socket := Function.update s.socket n k
    edge := if fd ∈ s.epoll then Function.update s.edge fd true else s.edge }

/-! ## Main thread -/

inductive MainAct
  /-- `while (running)` -/
  | loop
  | lockWait
  /-- `epoll_wait` reports `fds`, none at a timeout -/
  | epollWait (fds : List Nat)
  | epollFail
  | batchDone
  /-- `accept` returns a descriptor or fails -/
  | accept (fd : Option Nat)
  | dispatch
  | lockAdd
  | add
  | insert
  /-- the iterator over `ep_fds` goes to the node of `fd` -/
  | advance (fd : Nat)
  | closeNext (fd : Nat)
  | exit
  deriving DecidableEq, Repr

/-- The event for the number `fd`. -/
def toEvent (c : Cfg) (s : St) (fd : Nat) : Event :=
  if fd = c.listenFd then .listen
  else if fd = c.sigPipeFd then .sig
  else .msg ⟨fd, s.kern.ofd fd⟩

/-- The size test under the lock, with EPOLL_CTL_ADD or the refusal. -/
def addClient (s : St) (fd : Nat) (conn : Option Nat) (events : List Event) : St :=
  if s.epFds.card < epollFdsLen then { epollAdd s fd with main := .added fd conn events }
  else { closeFd s fd conn with main := .batch events, mutex := none }

/-- The node of the iterator over `ep_fds` was erased. -/
def dangling (s : St) (closed : List Nat) : Bool := closed.head?.any (· ∉ s.epFds)

def mainStep (c : Cfg) (s : St) (a : MainAct) : Option St :=
  match a, s.main with
  | .loop, .top => some { s with main := if s.running then .toWait else .closing [] }
  | .lockWait, .toWait =>
    if s.mutex = none then some { s with main := .waiting, mutex := some .main } else none
  | .epollWait fds, .waiting =>
    if fds.Nodup ∧ fds.length ≤ epollFdsLen ∧ ∀ fd ∈ fds, fd ∈ s.epoll ∧ reportable c s fd = true then
      some { s with
        main := .batch (fds.map (toEvent c s))
        mutex := none
        edge := fun fd => s.edge fd && !fds.contains fd }
    else none
  | .epollFail, .waiting => some { s with main := .exited 1 }
  | .batchDone, .batch [] => some { s with main := .top }
  | .accept none, .batch (.listen :: events) => some { s with main := .batch events }
  | .accept (some fd), .batch (.listen :: events) =>
    if h : s.kern.ofd fd = none ∧ c.own fd = false then
      some { s with main := .accepted fd (some s.kern.opened) events, kern := s.kern.alloc fd h.1 }
    else none
  | .dispatch, .batch (.sig :: events) => some { s with main := .batch events, tasks := s.tasks ++ [.sig] }
  | .dispatch, .batch (.msg t :: events) => some { s with main := .batch events, tasks := s.tasks ++ [.msg t] }
  | .lockAdd, .accepted fd conn events =>
    if s.mutex = none then some { s with main := .locked fd conn events, mutex := some .main } else none
  | .add, .locked fd conn events => some (addClient s fd conn events)
  | .insert, .added fd _ events =>
    some { s with main := .batch events, mutex := none, epFds := insert fd s.epFds }
  | .advance fd, .closing closed =>
    if dangling s closed then some { s with main := .crashed }
    else if fd ∈ s.epFds ∧ fd ∉ closed then some { s with main := .visiting fd closed }
    else none
  | .closeNext fd, .visiting fd' closed =>
    if fd ≠ fd' then none
    else if fd ∈ s.epFds then some { closeFd s fd (s.kern.ofd fd) with main := .closing (fd :: closed) }
    else some { s with main := .crashed }
  | .exit, .closing closed =>
    if dangling s closed then some { s with main := .crashed }
    else if ∀ fd ∈ s.epFds, fd ∈ closed then some { s with main := .exited 0 }
    else none
  | _, _ => none

/-! ## Pool threads -/

inductive WorkerAct
  /-- the next task is taken from the queue -/
  | take
  /-- `recv`, and then the logging, which leaves `errno` with this value -/
  | recv (errno : Errno)
  | test
  | close
  | lock
  | del
  | erase
  | sigRecv
  | sigHandle
  deriving DecidableEq, Repr

/-- The tests of `ep_msg_worker_func` on what `serv_read` returned. -/
def nextPc (c : Cfg) (t : Task) (out : RecvOut) (errno : Errno) : WorkerPc :=
  match out with
  | .data _ =>
    match c.trigger with
    | .epEt => .msgRecv t
    | .epLt => .idle
  | .eof => .toClose t
  | .error _ => if errno.wouldBlock then .idle else .toClose t

/-- What `recv` on the number `fd` returns, and leaves of the sockets. -/
def recvFrom (s : St) (fd : Nat) : RecvOut × (Nat → Socket) :=
  match s.kern.ofd fd with
  | none => (.error .ebadf, s.socket)
  | some n => ((recvOn (s.socket n)).1, Function.update s.socket n (recvOn (s.socket n)).2)

def recvTask (s : St) (w : Nat) (t : Task) (errno : Errno) : St :=
  let on := s.kern.ofd t.fd
  { s.setWorker w (.msgRead t on (recvFrom s t.fd).1 errno) with
    socket := (recvFrom s t.fd).2
    calls := s.calls ++ [.recv t.conn on] }

/-- What is logged of a `serv_read`. -/
def logged (on : Option Nat) : RecvOut → List (Option Nat × List UInt8)
  | .data bytes => [(on, bytes)]
  | .eof | .error _ => []

def workerStep (c : Cfg) (s : St) (w : Nat) (a : WorkerAct) : Option St :=
  match a, s.workers w with
  | .take, .idle =>
    match s.tasks with
    | .msg t :: tasks => some { s.setWorker w (.msgRecv t) with tasks := tasks }
    | .sig :: tasks => some { s.setWorker w .sigRecv with tasks := tasks }
    | .listen :: _ | [] => none
  | .recv errno, .msgRecv t => some (recvTask s w t errno)
  | .test, .msgRead t on out errno =>
    some { s.setWorker w (nextPc c t out errno) with chunks := s.chunks ++ logged on out }
  | .close, .toClose t => some ((closeFd s t.fd t.conn).setWorker w (.toLock t))
  | .lock, .toLock t =>
    if s.mutex = none then some { s.setWorker w (.toDel t) with mutex := some (.worker w) } else none
  | .del, .toDel t => some { s.setWorker w (.toErase t) with epoll := s.epoll.erase t.fd }
  | .erase, .toErase t =>
    some { s.setWorker w .idle with epFds := s.epFds.erase t.fd, mutex := none }
  | .sigRecv, .sigRecv =>
    match s.sigPipe with
    | [] => some (s.setWorker w .idle)
    | sig :: sigPipe => some { s.setWorker w (.sigGot sig) with sigPipe := sigPipe }
  | .sigHandle, .sigGot sig =>
    match sig with
    | .sigterm | .sigint => some { s.setWorker w .sigRecv with running := false }
    | .sigchld | .sigpipe | .sigurg | .sigalrm => some (s.setWorker w .sigRecv)
  | _, _ => none

/-! ## The process -/

/-- The signals `start_multi_con_server` installs `sig_handler` for. -/
def handled : List Signal := [.sigterm, .sigint, .sigpipe, .sigurg, .sigalrm]

inductive Act
  | main (a : MainAct)
  | worker (w : Nat) (a : WorkerAct)
  /-- the client of the connection under `fd` sends `bytes`, closes or resets -/
  | data (fd : Nat) (bytes : List UInt8)
  | fin (fd : Nat)
  | rst (fd : Nat)
  /-- a signal's handler runs, in the main thread or another; it interrupts an `epoll_wait` of its own thread -/
  | signal (sig : Signal) (onMain : Bool)
  deriving DecidableEq, Repr

def envStep (c : Cfg) (s : St) (a : Act) : Option St :=
  match a with
  | .data fd bytes =>
    (s.kern.ofd fd).bind fun n =>
      let k := s.socket n
      if bytes ≠ [] ∧ k.fin = false ∧ k.rst = false then some (arrive s fd n { k with rcv := k.rcv ++ bytes })
      else none
  | .fin fd => (s.kern.ofd fd).map fun n => arrive s fd n { s.socket n with fin := true }
  | .rst fd => (s.kern.ofd fd).map fun n => arrive s fd n { s.socket n with fin := true, rst := true }
  | .signal sig onMain =>
    if sig ∈ handled then
      some { s with
        sigPipe := Fifo.trySend c.sigPipeCap sig s.sigPipe
        main := if onMain ∧ s.main = .waiting then .exited 1 else s.main }
    else none
  | .main _ | .worker _ _ => none

/-- Nothing more happens. -/
def MainPc.ended : MainPc → Bool
  | .exited _ | .crashed => true
  | .top | .toWait | .waiting | .batch _ | .accepted _ _ _ | .locked _ _ _ | .added _ _ _ | .closing _
  | .visiting _ _ => false

def step (c : Cfg) (s : St) (a : Act) : Option St :=
  if s.main.ended then none
  else
    match a with
    | .main a => mainStep c s a
    | .worker w a => if w < c.concurCount then workerStep c s w a else none
    | a => envStep c s a

/-! ## What a step can do -/

/-- Out of the loop. -/
def MainPc.past : MainPc → Bool
  | .closing _ | .visiting _ _ | .exited _ | .crashed => true
  | .top | .toWait | .waiting | .batch _ | .accepted _ _ _ | .locked _ _ _ | .added _ _ _ => false

/-- In `ep_sig_worker_func`. -/
def WorkerPc.inSig : WorkerPc → Bool
  | .sigRecv | .sigGot _ => true
  | _ => false

/-- The steps, each with what it requires and changes (`step_sound`), but
for the contents of the sockets and of the signal pipe. -/
inductive Step (c : Cfg) (s : St) : Act → St → Prop
  | loop : s.main = .top →
      Step c s (.main .loop) { s with main := if s.running then .toWait else .closing [] }
  | lockWait : s.main = .toWait → s.mutex = none →
      Step c s (.main .lockWait) { s with main := .waiting, mutex := some .main }
  | epollWait {fds} (edge) : s.main = .waiting → (∀ fd ∈ fds, fd ∈ s.epoll) → Step c s (.main (.epollWait fds))
      { s with main := .batch (fds.map (toEvent c s)), mutex := none, edge := edge }
  | epollFail {a} (sigPipe) : s.main = .waiting → Step c s a { s with main := .exited 1, sigPipe := sigPipe }
  | batchDone : s.main = .batch [] → Step c s (.main .batchDone) { s with main := .top }
  | acceptFail {events} : s.main = .batch (.listen :: events) →
      Step c s (.main (.accept none)) { s with main := .batch events }
  | accept {fd events} (h : s.kern.ofd fd = none) : s.main = .batch (.listen :: events) → c.own fd = false →
      Step c s (.main (.accept (some fd)))
        { s with main := .accepted fd (some s.kern.opened) events, kern := s.kern.alloc fd h }
  | dispatch {ev events} : s.main = .batch (ev :: events) →
      Step c s (.main .dispatch) { s with main := .batch events, tasks := s.tasks ++ [ev] }
  | lockAdd {fd conn events} : s.main = .accepted fd conn events → s.mutex = none →
      Step c s (.main .lockAdd) { s with main := .locked fd conn events, mutex := some .main }
  | add {fd conn events} : s.main = .locked fd conn events → s.epFds.card < epollFdsLen →
      Step c s (.main .add) { epollAdd s fd with main := .added fd conn events }
  | refuse {fd conn events} : s.main = .locked fd conn events →
      Step c s (.main .add) { closeFd s fd conn with main := .batch events, mutex := none }
  | insert {fd conn events} : s.main = .added fd conn events → Step c s (.main .insert)
      { s with main := .batch events, mutex := none, epFds := insert fd s.epFds }
  | advance {fd closed} : s.main = .closing closed →
      Step c s (.main (.advance fd)) { s with main := .visiting fd closed }
  | closeNext {fd closed} : s.main = .visiting fd closed → Step c s (.main (.closeNext fd))
      { closeFd s fd (s.kern.ofd fd) with main := .closing (fd :: closed) }
  | exit {closed} : s.main = .closing closed → Step c s (.main .exit) { s with main := .exited 0 }
  | crash {a} : s.main.past = true → Step c s a { s with main := .crashed }
  | take {w t tasks} : w < c.concurCount → s.workers w = .idle → s.tasks = .msg t :: tasks →
      Step c s (.worker w .take) { s.setWorker w (.msgRecv t) with tasks := tasks }
  | takeSig {w tasks} : w < c.concurCount → s.workers w = .idle → s.tasks = .sig :: tasks →
      Step c s (.worker w .take) { s.setWorker w .sigRecv with tasks := tasks }
  | recv {w t out errno} (socket) : w < c.concurCount → s.workers w = .msgRecv t →
      Step c s (.worker w (.recv errno)) { s.setWorker w (.msgRead t (s.kern.ofd t.fd) out errno) with
        socket := socket, calls := s.calls ++ [.recv t.conn (s.kern.ofd t.fd)] }
  | test {w t on out errno} : w < c.concurCount → s.workers w = .msgRead t on out errno →
      Step c s (.worker w .test)
        { s.setWorker w (nextPc c t out errno) with chunks := s.chunks ++ logged on out }
  | close {w t} : w < c.concurCount → s.workers w = .toClose t →
      Step c s (.worker w .close) ((closeFd s t.fd t.conn).setWorker w (.toLock t))
  | lock {w t} : w < c.concurCount → s.workers w = .toLock t → s.mutex = none →
      Step c s (.worker w .lock) { s.setWorker w (.toDel t) with mutex := some (.worker w) }
  | del {w t} : w < c.concurCount → s.workers w = .toDel t →
      Step c s (.worker w .del) { s.setWorker w (.toErase t) with epoll := s.epoll.erase t.fd }
  | erase {w t} : w < c.concurCount → s.workers w = .toErase t → Step c s (.worker w .erase)
      { s.setWorker w .idle with epFds := s.epFds.erase t.fd, mutex := none }
  | sig {w a pc} (running sigPipe) : w < c.concurCount → (s.workers w).inSig = true → pc = .idle ∨ pc.inSig = true →
      Step c s (.worker w a) { s.setWorker w pc with running := running, sigPipe := sigPipe }
  | env {a} (socket edge sigPipe) :
      Step c s a { s with socket := socket, edge := edge, sigPipe := sigPipe }

@[simp] theorem setWorker_self (s : St) (w : Nat) (pc : WorkerPc) : (s.setWorker w pc).workers w = pc := by
  simp [St.setWorker]

theorem setWorker_of_ne {s : St} {w w' : Nat} {pc : WorkerPc} (h : w' ≠ w) :
    (s.setWorker w pc).workers w' = s.workers w' := by
  simp [St.setWorker, h]

theorem forall_setWorker {s : St} {w : Nat} {pc : WorkerPc} {P : Nat → WorkerPc → Prop} (hself : P w pc)
    (hother : ∀ w', w' ≠ w → P w' (s.workers w')) (w' : Nat) : P w' ((s.setWorker w pc).workers w') :=
  (Function.forall_update_iff s.workers P).mpr ⟨hself, hother⟩ w'

/-- The tests after `serv_read` end the task, go on reading, or go to the `close`. -/
theorem nextPc_cases (c : Cfg) (t : Task) (out : RecvOut) (errno : Errno) :
    nextPc c t out errno = .idle ∨ nextPc c t out errno = .msgRecv t ∨ nextPc c t out errno = .toClose t := by
  unfold nextPc
  split
  · split <;> simp
  · simp
  · split <;> simp

theorem mainStep_sound {c : Cfg} {s s' : St} {a : MainAct} (h : mainStep c s a = some s') :
    Step c s (.main a) s' := by
  unfold mainStep at h
  split at h
  · next hm => cases h; exact .loop hm
  · next hm =>
    split at h
    · next hx => cases h; exact .lockWait hm hx
    · cases h
  · next hm =>
    split at h
    · next hg => cases h; exact .epollWait _ hm fun fd hfd => (hg.2.2 fd hfd).1
    · cases h
  · next hm => cases h; exact .epollFail s.sigPipe hm
  · next hm => cases h; exact .batchDone hm
  · next hm => cases h; exact .acceptFail hm
  · next hm =>
    split at h
    · next hg => cases h; exact .accept hg.1 hm hg.2
    · cases h
  · next hm => cases h; exact .dispatch hm
  · next hm => cases h; exact .dispatch hm
  · next hm =>
    split at h
    · next hx => cases h; exact .lockAdd hm hx
    · cases h
  · next hm =>
    cases h
    unfold addClient
    split
    · next hlt => exact .add hm hlt
    · exact .refuse hm
  · next hm => cases h; exact .insert hm
  · next hm =>
    split at h
    · cases h; exact .crash (by rw [hm]; rfl)
    split at h
    · cases h; exact .advance hm
    · cases h
  · next hm =>
    split at h
    · cases h
    next heq =>
    obtain rfl := not_not.mp heq
    split at h
    · cases h; exact .closeNext hm
    · cases h; exact .crash (by rw [hm]; rfl)
  · next hm =>
    split at h
    · cases h; exact .crash (by rw [hm]; rfl)
    split at h
    · cases h; exact .exit hm
    · cases h
  · cases h

theorem workerStep_sound {c : Cfg} {s s' : St} {w : Nat} {a : WorkerAct} (hw : w < c.concurCount)
    (h : workerStep c s w a = some s') : Step c s (.worker w a) s' := by
  unfold workerStep at h
  split at h
  · next hpc =>
    split at h
    · next hq => cases h; exact .take hw hpc hq
    · next hq => cases h; exact .takeSig hw hpc hq
    · cases h
    · cases h
  · next hpc => cases h; exact .recv _ hw hpc
  · next hpc => cases h; exact .test hw hpc
  · next hpc => cases h; exact .close hw hpc
  · next hpc =>
    split at h
    · next hx => cases h; exact .lock hw hpc hx
    · cases h
  · next hpc => cases h; exact .del hw hpc
  · next hpc => cases h; exact .erase hw hpc
  · next hpc =>
    have hsig : (s.workers w).inSig = true := by simp [hpc, WorkerPc.inSig]
    split at h
    · cases h; exact .sig s.running s.sigPipe hw hsig (.inl rfl)
    · cases h; exact .sig s.running _ hw hsig (.inr rfl)
  · next hpc =>
    have hsig : (s.workers w).inSig = true := by simp [hpc, WorkerPc.inSig]
    split at h
    · cases h; exact .sig false s.sigPipe hw hsig (.inr rfl)
    · cases h; exact .sig false s.sigPipe hw hsig (.inr rfl)
    all_goals cases h; exact .sig s.running s.sigPipe hw hsig (.inr rfl)
  · cases h

theorem envStep_sound {c : Cfg} {s s' : St} {a : Act} (h : envStep c s a = some s') : Step c s a s' := by
  unfold envStep at h
  split at h
  · obtain ⟨n, -, h⟩ := Option.bind_eq_some_iff.mp h
    simp only at h
    split at h
    · cases h; exact .env _ _ s.sigPipe
    · cases h
  · obtain ⟨n, -, rfl⟩ := Option.map_eq_some_iff.mp h
    exact .env _ _ s.sigPipe
  · obtain ⟨n, -, rfl⟩ := Option.map_eq_some_iff.mp h
    exact .env _ _ s.sigPipe
  · split at h
    · cases h
      split
      · next hm => exact .epollFail _ hm.2
      · exact .env s.socket s.edge _
    · cases h
  · cases h
  · cases h

theorem step_sound {c : Cfg} {s s' : St} {a : Act} (h : step c s a = some s') : Step c s a s' := by
  unfold step at h
  split at h
  · cases h
  split at h
  · exact mainStep_sound h
  · split at h
    · next hw => exact workerStep_sound hw h
    · cases h
  · exact envStep_sound h

end LinuxServer.Epoll
