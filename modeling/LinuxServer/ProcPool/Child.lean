/-
A process-pool child (`SrvProcessPool::run_child` and `TestConn`,
epoll_half_sync_reactive_proc_pool_server.hpp).

The child is one thread, so the handling of one event is one step; what the
kernel answers meanwhile (the result of `recv` and `accept`, the signal
bytes read, the outcomes `process` sees) is the step's input. An event
keeps, beside its descriptor, the connection that descriptor named when
`epoll_wait` reported it; nothing the child does reads it.
-/
import Mathlib.Data.Finset.Basic
import LinuxServer.Kernel
import LinuxServer.Lib.FdTable
import LinuxServer.Lib.Lts

namespace LinuxServer.ProcPool.Child

open Lts

/-- `USER_PER_PROCESS`, the length of the `users` array. -/
def userPerProcess : Int := 65536

/-- `MAX_EVENT_NUMBER`, the most events one `epoll_wait` reports. -/
def maxEventNumber : Nat := 10000

/-- The peer's address as `accept` fills it in. -/
structure SockAddrIn where
  sinAddr : Nat
  sinPort : Nat
  deriving DecidableEq, Repr

/-- `TestConn`. -/
structure TestConn where
  epollfd : Int
  cliFd : Int
  cliAddr : SockAddrIn
  deriving DecidableEq, Repr

/-- `TestConn::TestConn()`. -/
def TestConn.new : TestConn := ⟨-1, -1, ⟨0, 0⟩⟩

/-- `TestConn::init`. -/
def TestConn.init (epollfd cliFd : Int) (cliAddr : SockAddrIn) : TestConn := ⟨epollfd, cliFd, cliAddr⟩

/-- What one call of `TestConn::process` did: the chunks it logged, whether
it sent `"OK"`, and whether it went to `CLOSE_FD`. -/
structure ProcessOut where
  logged : List (List UInt8)
  replied : Bool
  closed : Bool
  deriving DecidableEq, Repr

/-- `TestConn::process` on the outcomes of its `recv` calls, in order;
`none` while it has not seen the outcome that ends its loop. -/
def TestConn.process : List RecvOut → Option ProcessOut
  | [] => none
  | .data bytes :: recvs => (process recvs).map fun o => { o with logged := bytes :: o.logged }
  | .eof :: _ => some ⟨[], false, true⟩
  | .error e :: _ => if e.wouldBlock then some ⟨[], true, false⟩ else some ⟨[], false, true⟩

/-- The descriptors the child has when it enters its loop. `own` are all it
has open besides its clients, the inherited ones included. -/
structure Cfg where
  listenfd : Int
  epollfd : Int
  pipefd : Int
  sigPipefd : Int
  own : Int → Bool
  pipe_own : own pipefd = true
  sig_own : own sigPipefd = true
  own_nonneg : ∀ f, own f = true → 0 ≤ f

/-- An entry of `events`: `data.fd`, whether `EPOLLIN` is set, and the
connection the descriptor named when it was reported. -/
structure Event where
  sockfd : Int
  epollin : Bool
  conn : Option Nat
  deriving DecidableEq, Repr

/-- Where the child is: in its loop, past it, or past the end of `users`. -/
inductive Pc
  | running
  | left
  | outOfBounds
  deriving DecidableEq, Repr

structure St where
  pc : Pc
  stop : Bool
  /-- the events of the batch still to be handled -/
  batch : List Event
  /-- the client descriptors registered in `_epollfd` -/
  epoll : Finset Int
  users : Int → TestConn
  kern : FdTable Int
  /-- the peer address `accept` reported for each connection -/
  addr : Nat → SockAddrIn
  /-- the `close` calls made on client descriptors, with the connection closed -/
  closeCalls : List (Option Nat)

def init : St where
  pc := .running
  stop := false
  batch := []
  epoll := ∅
  users _ := .new
  kern := .empty
  addr _ := ⟨0, 0⟩
  closeCalls := []

/-- `epoll_ctl(epollfd, EPOLL_CTL_DEL, fd, 0)`. -/
def epollDel (c : Cfg) (s : St) (epollfd fd : Int) : St :=
  if epollfd = c.epollfd then { s with epoll := s.epoll.erase fd } else s

/-- `close(fd)`, which also takes `fd` out of the epoll set. -/
def closeFd (s : St) (fd : Int) : St :=
  { s with
    kern := s.kern.close fd
    epoll := s.epoll.erase fd
    closeCalls := s.closeCalls ++ [s.kern.ofd fd] }

/-- `removefd`. -/
def removefd (c : Cfg) (s : St) (epollfd fd : Int) : St := closeFd (epollDel c s epollfd fd) fd

/-- A notification was read and `accept` returned `connfd`: `addfd`, then
`users[connfd].init`. `none` where `accept` cannot have returned it. -/
def acceptClient (c : Cfg) (s : St) (connfd : Int) (addr : SockAddrIn) : Option St :=
  if h : s.kern.ofd connfd = none ∧ c.own connfd = false ∧ 0 ≤ connfd then
    if connfd < userPerProcess then
      some { s with
        kern := s.kern.alloc connfd h.1
        addr := Function.update s.addr s.kern.opened addr
        epoll := insert connfd s.epoll
        users := Function.update s.users connfd (.init c.epollfd connfd addr) }
    else some { s with pc := .outOfBounds }
  else none

/-- A signal byte: `SIGCHLD` reaps children the child does not have. -/
def handleSignal (s : St) : Signal → St
  | .sigterm | .sigint => { s with stop := true }
  | .sigchld | .sigpipe | .sigurg | .sigalrm => s

/-- `users[sockfd].process()` on the outcomes of its reads; `none` while the
call has not returned. -/
def processUser (c : Cfg) (s : St) (sockfd : Int) (recvs : List RecvOut) : Option St :=
  let user := s.users sockfd
  (TestConn.process recvs).map fun o => if o.closed then removefd c s user.epollfd user.cliFd else s

/-- What the kernel answers while one event is handled: the results of
`recv` on the pipe and of `accept` after it, the bytes read from the signal
pipe, or the outcomes of the reads in `process`. -/
inductive Answer
  | pipe (ret : Int) (acc : Option (Int × SockAddrIn))
  | signals (bytes : List Signal)
  | client (recvs : List RecvOut)
  deriving DecidableEq, Repr

/-- The body of the loop over `events`, for the event `ev` and the batch
`s.batch` after it. A failing `accept` breaks out of the loop. -/
def handleEvent (c : Cfg) (s : St) (ev : Event) (ans : Answer) : Option St :=
  if ev.sockfd = c.pipefd ∧ ev.epollin = true then
    match ans with
    | .pipe ret acc =>
      if ret ≤ 0 then some s
      else match acc with
        | none => some { s with batch := [] }
        | some (connfd, addr) => acceptClient c s connfd addr
    | _ => none
  else if ev.sockfd = c.sigPipefd ∧ ev.epollin = true then
    match ans with
    | .signals bytes => some (bytes.foldl handleSignal s)
    | _ => none
  else if ev.epollin = true then
    match ans with
    | .client recvs => processUser c s ev.sockfd recvs
    | _ => none
  else some s

/-- What can happen next: `epoll_wait` reports a batch, is interrupted or
fails, the next event of the batch is handled, or the loop ends. -/
inductive Act
  | epollWait (events : List (Int × Bool))
  | epollIntr
  | epollFail
  | handle (ans : Answer)
  | leave
  deriving DecidableEq, Repr

/-- `epoll_wait` reports registered descriptors, each at most once. -/
def Reportable (c : Cfg) (s : St) (events : List (Int × Bool)) : Prop :=
  (events.map (·.1)).Nodup ∧ events.length ≤ maxEventNumber ∧
    ∀ e ∈ events, e.1 = c.pipefd ∨ e.1 = c.sigPipefd ∨ e.1 ∈ s.epoll

instance (c : Cfg) (s : St) (events : List (Int × Bool)) : Decidable (Reportable c s events) :=
  inferInstanceAs (Decidable (_ ∧ _ ∧ _))

def step (c : Cfg) (s : St) (a : Act) : Option St :=
  match s.pc with
  | .left | .outOfBounds => none
  | .running =>
    match s.batch, a with
    | ev :: rest, .handle ans => handleEvent c { s with batch := rest } ev ans
    | [], .epollWait events =>
      if s.stop = false ∧ Reportable c s events then
        some { s with batch := events.map fun e => ⟨e.1, e.2, s.kern.ofd e.1⟩ }
      else none
    | [], .epollIntr => if s.stop then none else some s
    | [], .epollFail => if s.stop then none else some { s with pc := .left }
    | [], .leave => if s.stop then some { s with pc := .left } else none
    | _, _ => none

/-! ## What a step can do -/

/-- What handling `ev` can come to, `rest` being the batch after it. -/
inductive Handled (c : Cfg) (s : St) (ev : Event) (rest : List Event) : Answer → St → Prop
  | noNotification {ret acc} : ev.sockfd = c.pipefd → ev.epollin = true → ret ≤ 0 →
      Handled c s ev rest (.pipe ret acc) { s with batch := rest }
  | acceptFailed {ret} : ev.sockfd = c.pipefd → ev.epollin = true → 0 < ret →
      Handled c s ev rest (.pipe ret none) { s with batch := [] }
  | accept {ret connfd addr} (h : s.kern.ofd connfd = none) : ev.sockfd = c.pipefd → ev.epollin = true →
      0 < ret → c.own connfd = false → 0 ≤ connfd → connfd < userPerProcess →
      Handled c s ev rest (.pipe ret (some (connfd, addr)))
        { s with
          batch := rest
          kern := s.kern.alloc connfd h
          addr := Function.update s.addr s.kern.opened addr
          epoll := insert connfd s.epoll
          users := Function.update s.users connfd (.init c.epollfd connfd addr) }
  | overrun {ret connfd addr} : ev.sockfd = c.pipefd → ev.epollin = true → 0 < ret → userPerProcess ≤ connfd →
      Handled c s ev rest (.pipe ret (some (connfd, addr))) { s with batch := rest, pc := .outOfBounds }
  | signals {bytes} : ev.sockfd ≠ c.pipefd → ev.sockfd = c.sigPipefd → ev.epollin = true →
      Handled c s ev rest (.signals bytes) (bytes.foldl handleSignal { s with batch := rest })
  | client {recvs s'} : ev.sockfd ≠ c.pipefd → ev.sockfd ≠ c.sigPipefd → ev.epollin = true →
      processUser c { s with batch := rest } ev.sockfd recvs = some s' → Handled c s ev rest (.client recvs) s'
  | skip {ans} : ev.epollin = false → Handled c s ev rest ans { s with batch := rest }

/-- The steps, each with what it requires and changes (`step_sound`). -/
inductive Step (c : Cfg) (s : St) : Act → St → Prop
  | handle {ev rest ans s'} : s.batch = ev :: rest → Handled c s ev rest ans s' → Step c s (.handle ans) s'
  | epollWait {events} : s.batch = [] → s.stop = false → Reportable c s events → Step c s (.epollWait events)
      { s with batch := events.map fun e => ⟨e.1, e.2, s.kern.ofd e.1⟩ }
  | epollIntr : s.batch = [] → s.stop = false → Step c s .epollIntr s
  | epollFail : s.batch = [] → s.stop = false → Step c s .epollFail { s with pc := .left }
  | leave : s.batch = [] → s.stop = true → Step c s .leave { s with pc := .left }

variable {c : Cfg} {s s' : St} {ev : Event} {rest : List Event}

theorem acceptClient_sound {ret connfd : Int} {addr : SockAddrIn} (hev : ev.sockfd = c.pipefd)
    (hin : ev.epollin = true) (hret : 0 < ret) (h : acceptClient c { s with batch := rest } connfd addr = some s') :
    Handled c s ev rest (.pipe ret (some (connfd, addr))) s' := by
  unfold acceptClient at h
  split at h
  · next hg =>
    have hfree : s.kern.ofd connfd = none := hg.1
    split at h
    · next hlt => cases h; exact .accept hfree hev hin hret hg.2.1 hg.2.2 hlt
    · next hlt => cases h; exact .overrun hev hin hret (Int.not_lt.mp hlt)
  · cases h

theorem handleEvent_sound {ans : Answer} (h : handleEvent c { s with batch := rest } ev ans = some s') :
    Handled c s ev rest ans s' := by
  unfold handleEvent at h
  split at h
  · next hp =>
    split at h
    · next ret acc =>
      split at h
      · next hret => cases h; exact .noNotification hp.1 hp.2 hret
      · next hret =>
        have hpos : 0 < ret := Int.not_le.mp hret
        split at h
        · cases h; exact .acceptFailed hp.1 hp.2 hpos
        · exact acceptClient_sound hp.1 hp.2 hpos h
    · cases h
  · next hp =>
    split at h
    · next hsig =>
      split at h
      · cases h; exact .signals (fun he => hp ⟨he, hsig.2⟩) hsig.1 hsig.2
      · cases h
    · next hsig =>
      split at h
      · next hin =>
        split at h
        · exact .client (fun he => hp ⟨he, hin⟩) (fun he => hsig ⟨he, hin⟩) hin h
        · cases h
      · next hin => cases h; exact .skip (Bool.not_eq_true _ ▸ hin)

theorem step_sound {a : Act} (h : step c s a = some s') :
    s.pc = .running ∧ Step c s a s' := by
  unfold step at h
  split at h
  · cases h
  · cases h
  next hpc =>
  refine ⟨hpc, ?_⟩
  split at h
  · next hb => exact .handle hb (handleEvent_sound h)
  · next hb =>
    split at h
    · next hg => cases h; exact .epollWait hb hg.1 hg.2
    · cases h
  · next hb =>
    split at h
    · cases h
    · next hstop => cases h; exact .epollIntr hb (Bool.not_eq_true _ ▸ hstop)
  · next hb =>
    split at h
    · cases h
    · next hstop => cases h; exact .epollFail hb (Bool.not_eq_true _ ▸ hstop)
  · next hb =>
    split at h
    · next hstop => cases h; exact .leave hb hstop
    · cases h
  · cases h

theorem signals_stop (bytes : List Signal) (s : St) :
    ∃ stop, bytes.foldl handleSignal s = { s with stop := stop } := by
  induction bytes generalizing s with
  | nil => exact ⟨s.stop, rfl⟩
  | cons sig bytes ih =>
    obtain ⟨stop, h⟩ := ih (handleSignal s sig)
    refine ⟨stop, ?_⟩
    rw [List.foldl_cons, h]
    cases sig <;> rfl

end LinuxServer.ProcPool.Child
