/-
The single-threaded libevent server (`start_libev_multi_server`,
libev_multi_con_server.hpp) with its clients.

libevent is the caller: it calls `accept_cb` when a connection waits, reads
what a client sent and calls `be_msg_cb`, calls `be_event_cb` at the end of
a stream and on an error, and writes what `bufferevent_write` queued. With
one thread a callback is one step. The bytes libevent has read for a
`bufferevent` count as unread until `bufferevent_read` takes them, which
`be_msg_cb` does with all of them.

`event_base_loopexit` lets the callbacks already active finish, so steps can
follow it before the loop is left.
-/
import LinuxServer.Kernel
import LinuxServer.Lib.AtomicInt
import LinuxServer.Lib.OpenServer

namespace LinuxServer.Libev

open Lts Inbound StreamServer AtomicInt

/-- `BUF_SIZE`. -/
def bufSize : Nat := 4096

/-- The most one `bufferevent_read` takes: `BUF_SIZE - 1`. -/
def readCap : Nat := bufSize - 1

/-- Where `start_libev_multi_server` is: before `tcp_server_init`, in
`event_base_dispatch`, or returned. -/
inductive Pc
  | start
  | dispatch
  | returned
  deriving DecidableEq, Repr

/-- The listening socket's number, and the most libevent reads at once. -/
structure Cfg where
  srvFd : Int
  maxRead : Nat
  maxRead_pos : 0 < maxRead

/-- `base` are the sockets with a `bufferevent`, `output fd` how many bytes
`bufferevent_write` queued for one that are not written yet. `replies n` and
`written n` are the history of connection `n`: how often `be_msg_cb` replied
to it, and how many bytes were written. -/
structure St where
  pc : Pc
  /-- `srv_fd` is open -/
  listening : Bool
  exitAsked : Bool
  killed : Bool
  base : Finset Int
  output : Int → Nat
  kern : FdTable Int
  net : Net UInt8 Errno
  /-- a `std::atomic<int>` -/
  succCliCount : Int
  replies : Nat → Nat
  written : Nat → Nat

def init : St where
  pc := .start
  listening := false
  exitAsked := false
  killed := false
  base := ∅
  output _ := 0
  kern := .empty
  net := .empty
  succCliCount := 0
  replies _ := 0
  written _ := 0

/-! ## The callbacks -/

/-- `tcp_server_init` with the results of `bind` and `listen`, and what
follows it: on -1 the socket is closed and the server returns. -/
def tcpServerInit (s : St) (bindRet listenRet : Int) : St :=
  if bindRet = -1 then { s with pc := .returned }
  else if listenRet = -1 then { s with pc := .returned }
  else { s with pc := .dispatch, listening := true }

/-- `accept_cb`, with the result of `accept`. -/
def acceptCb (c : Cfg) (s : St) (cliFd : Int) : Option St :=
  if cliFd < 0 then some s
  else if h : s.kern.ofd cliFd = none ∧ cliFd ≠ c.srvFd then
    (s.net.accept s.kern.opened).map fun net => { s with
      net
      kern := s.kern.alloc cliFd h.1
      base := insert cliFd s.base
      output := Function.update s.output cliFd 0 }
  else none

/-- The `while (true)` of `be_msg_cb`, with `avail` bytes in the input
buffer; `fuel` bounds the calls of `bufferevent_read`. -/
def msgLoop (conn : Nat) : Nat → Nat → St → Option St
  | _, 0, s => some s
  | 0, _ + 1, _ => none
  | fuel + 1, avail + 1, s =>
    let n := min (avail + 1) readCap
    let buf := (s.net.conn conn).rcv.take n
    (s.net.recv readCap (some conn) (.data buf)).bind fun net =>
      msgLoop conn fuel (avail + 1 - n) { s with net, succCliCount := atomicIncr s.succCliCount }

/-- `be_msg_cb`, with `avail` bytes read from the connection of `fd`. -/
def beMsgCb (s : St) (fd : Int) (avail : Nat) : Option St :=
  match s.kern.ofd fd with
  | none => none
  | some conn => (msgLoop conn avail avail s).map fun s => { s with
      output := Function.update s.output fd (s.output fd + 2)
      replies := Function.update s.replies conn (s.replies conn + 1) }

/-- `bufferevent_free`, which closes the socket and drops the output. -/
def buffereventFree (s : St) (fd : Int) : St :=
  { s with base := s.base.erase fd, kern := s.kern.close fd }

/-- `be_event_cb`, with BEV_EVENT_EOF and BEV_EVENT_ERROR of `event`. -/
def beEventCb (s : St) (fd : Int) (eof error : Bool) : St :=
  if eof then buffereventFree s fd else if error then buffereventFree s fd else s

/-- libevent writes `n` of the bytes queued for `fd`. -/
def writeOutput (s : St) (fd : Int) (n : Nat) : Option St :=
  match s.kern.ofd fd with
  | none => none
  | some conn => some { s with
      output := Function.update s.output fd (s.output fd - n)
      written := Function.update s.written conn (s.written conn + n) }

/-! ## The process -/

inductive Act
  /-- `tcp_server_init`, with the results of `bind` and `listen` -/
  | start (bindRet listenRet : Int)
  | client (a : Client UInt8 Errno)
  /-- a connection waits and `accept_cb` is called -/
  | acceptCb (cliFd : Int)
  /-- libevent reads `n` bytes and calls `be_msg_cb` -/
  | msgCb (fd : Int) (n : Nat)
  /-- libevent's read comes to the end of the stream and it calls `be_event_cb` -/
  | eofCb (fd : Int)
  /-- libevent's read, or its write, fails and it calls `be_event_cb` -/
  | errorCb (fd : Int) (e : Errno) (writing : Bool)
  /-- libevent writes `n` bytes -/
  | write (fd : Int) (n : Nat)
  /-- libevent's write to a broken connection raises SIGPIPE -/
  | sigpipe (fd : Int)
  /-- SIGINT: `signal_cb` calls `event_base_loopexit` -/
  | sigint
  /-- the loop ends; `event_base_free`, `close(srv_fd)` -/
  | leave
  deriving DecidableEq, Repr

/-- The connection of `fd` comes to `out`, its end or an error. -/
def recvEnd (s : St) (fd : Int) (out : Out UInt8 Errno) : Option St :=
  (s.net.recv readCap (s.kern.ofd fd) out).map fun net => { s with net }

/-- The connection of `fd` was reset. -/
def St.broken (s : St) (fd : Int) : Bool := (s.kern.ofd fd).any fun n => (s.net.conn n).broken

/-- Bytes unread on `fd`. -/
def St.unread (s : St) (fd : Int) : Nat := ((s.kern.ofd fd).map fun n => (s.net.conn n).rcv.length).getD 0

/-- A callback, or libevent's write. -/
def dispatchStep (c : Cfg) (s : St) : Act → Option St
  | .acceptCb cliFd => if s.net.backlog ≠ [] then acceptCb c s cliFd else none
  | .msgCb fd n => if fd ∈ s.base ∧ 0 < n ∧ n ≤ c.maxRead ∧ n ≤ s.unread fd then beMsgCb s fd n else none
  | .eofCb fd => if fd ∈ s.base then (recvEnd s fd .eof).map fun s => beEventCb s fd true false else none
  | .errorCb fd e writing =>
    if fd ∈ s.base ∧ (writing = true → 0 < s.output fd) then
      (recvEnd s fd (.error e)).map fun s => beEventCb s fd false true
    else none
  | .write fd n => if fd ∈ s.base ∧ 0 < n ∧ n ≤ s.output fd then writeOutput s fd n else none
  | .sigpipe fd =>
    if fd ∈ s.base ∧ 0 < s.output fd ∧ s.broken fd = true then some { s with killed := true } else none
  | .sigint => some { s with exitAsked := true }
  | .leave => if s.exitAsked then some { s with pc := .returned, listening := false } else none
  | .start _ _ | .client _ => none

def step (c : Cfg) (s : St) (a : Act) : Option St :=
  if s.killed then none
  else
    match a, s.pc with
    | .start bindRet listenRet, .start => some (tcpServerInit s bindRet listenRet)
    | .client a, .dispatch => some { s with net := s.net.client a }
    | a, .dispatch => dispatchStep c s a
    | _, _ => none

end LinuxServer.Libev
