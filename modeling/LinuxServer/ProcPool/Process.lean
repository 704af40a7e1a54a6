/-
`TestConn::process` call by call (epoll_half_sync_reactive_proc_pool_server.hpp).

`TestConn.process` says what a call comes to; here are the lines it logs, its
`send` and its `removefd` in the order they are made. The reply stands after
the loop, where only an empty buffer leads: it is sent whether or not
anything was received, and the end of the stream goes to `CLOSE_FD` past it.
-/
import LinuxServer.ProcPool.ChildSound

namespace LinuxServer.ProcPool.Child

/-- A call `process` makes. A log line has the length of the chunk and its
text, which `<<` and `%s` print up to the first NUL. -/
inductive ProcessCall
  | log (len : Nat) (msg : List UInt8)
  | send (fd : Int) (msg : String)
  | epollDel (epollfd fd : Int)
  | close (fd : Int)
  deriving DecidableEq, Repr

/-- The log line of a chunk. -/
def logLine (bytes : List UInt8) : ProcessCall := .log bytes.length (bytes.takeWhile (· ≠ 0))

/-- `send(_cli_fd, "OK", 2, 0)`. -/
def TestConn.reply (user : TestConn) : List ProcessCall := [.send user.cliFd "OK"]

/-- `CLOSE_FD`: `removefd(_epollfd, _cli_fd)`. -/
def TestConn.closeFd (user : TestConn) : List ProcessCall := [.epollDel user.epollfd user.cliFd, .close user.cliFd]

/-- The calls of `process` on the outcomes of its `recv` calls; `none` while
it has not seen the outcome that ends its loop. -/
def TestConn.calls (user : TestConn) : List RecvOut → Option (List ProcessCall)
  | [] => none
  | .data bytes :: recvs => (user.calls recvs).map (logLine bytes :: ·)
  | .eof :: _ => some user.closeFd
  | .error e :: _ => some (if e.wouldBlock then user.reply else user.closeFd)

/-- The calls in the order in which an outcome of `process` implies them. -/
def ProcessOut.calls (user : TestConn) (o : ProcessOut) : List ProcessCall :=
  o.logged.map logLine ++ (if o.replied then user.reply else []) ++ if o.closed then user.closeFd else []

/-- What a call does to the child. -/
def ProcessCall.apply (c : Cfg) (s : St) : ProcessCall → St
  | .log _ _ | .send _ _ => s
  | .epollDel epollfd fd => Child.epollDel c s epollfd fd
  | .close fd => Child.closeFd s fd

variable {c : Cfg} {s s' : St} {user : TestConn} {recvs : List RecvOut} {calls : List ProcessCall}

theorem calls_process (user : TestConn) (recvs : List RecvOut) :
    user.calls recvs = (TestConn.process recvs).map (ProcessOut.calls user) := by
  induction recvs with
  | nil => rfl
  | cons r recvs ih =>
    cases r with
    | data bytes =>
      simp only [TestConn.calls, TestConn.process, ih, Option.map_map]
      rfl
    | eof => rfl
    | error e =>
      simp only [TestConn.calls, TestConn.process]
      split <;> rfl

theorem apply_logs (c : Cfg) (chunks : List (List UInt8)) (s : St) :
    (chunks.map logLine).foldl (ProcessCall.apply c) s = s := by
  induction chunks with
  | nil => rfl
  | cons bytes chunks ih => exact ih

theorem processUser_calls (c : Cfg) (s : St) (sockfd : Int) (recvs : List RecvOut) :
    processUser c s sockfd recvs =
      ((s.users sockfd).calls recvs).map fun calls => calls.foldl (ProcessCall.apply c) s := by
  rw [calls_process]
  unfold processUser
  cases TestConn.process recvs with
  | none => rfl
  | some o =>
    obtain ⟨logged, replied, closed⟩ := o
    simp only [Option.map_some, ProcessOut.calls, List.foldl_append, apply_logs]
    cases replied <;> cases closed <;> rfl

/-- After the chunks, the calls are those of the outcome that ends the loop. -/
theorem calls_chunks (user : TestConn) (chunks : List (List UInt8)) (recvs : List RecvOut) :
    user.calls (chunks.map .data ++ recvs) = (user.calls recvs).map (chunks.map logLine ++ ·) := by
  induction chunks with
  | nil => simp
  | cons bytes chunks ih =>
    simp only [List.map_cons, List.cons_append, TestConn.calls, ih, Option.map_map]
    rfl

/-- The outcome leads to `CLOSE_FD`. -/
def closing : RecvOut → Bool
  | .data _ => false
  | .eof => true
  | .error e => !e.wouldBlock

/-- **What `process` does**, for any chunks and the outcome that ends its
loop: it logs the chunks in order, each with its length and its text up to
the first NUL. After end-of-file or a hard error it removes the descriptor
from the epoll set, closes it and sends nothing, whatever it received; after
an empty buffer it sends one "OK", whether or not it received anything. -/
theorem process_calls {ending : RecvOut} (hend : ∀ bytes, ending ≠ .data bytes) (chunks : List (List UInt8))
    (c : Cfg) (s : St) (sockfd : Int) :
    let user := s.users sockfd
    user.calls (chunks.map .data ++ [ending]) = some (chunks.map logLine ++
      if closing ending then [.epollDel user.epollfd user.cliFd, .close user.cliFd] else [.send user.cliFd "OK"]) ∧
    processUser c s sockfd (chunks.map .data ++ [ending]) =
      some (if closing ending then removefd c s user.epollfd user.cliFd else s) := by
  intro user
  have hlast : user.calls [ending] = some (if closing ending then user.closeFd else user.reply) := by
    cases ending with
    | data bytes => exact absurd rfl (hend bytes)
    | eof => rfl
    | error e => cases he : e.wouldBlock <;> simp [TestConn.calls, closing, he]
  have hcalls : user.calls (chunks.map .data ++ [ending]) =
      some (chunks.map logLine ++ if closing ending then user.closeFd else user.reply) := by
    rw [calls_chunks, hlast]
    rfl
  refine ⟨hcalls, ?_⟩
  rw [processUser_calls, hcalls, Option.map_some, List.foldl_append, apply_logs]
  split <;> rfl

/-- A child with one client, on descriptor 11. -/
def demoClient : St :=
  { init with users := Function.update init.users 11 (.init 8 11 ⟨1, 80⟩), epoll := {11} }

/-- `process_calls` for a request that is all there is to read. -/
theorem process_calls_request :
    let user := demoClient.users 11
    user.calls ([[72, 105]].map .data ++ [.error .eagain]) = some ([[72, 105]].map logLine ++
      if closing (.error .eagain) then [.epollDel user.epollfd user.cliFd, .close user.cliFd]
      else [.send user.cliFd "OK"]) ∧
    processUser demoCfg demoClient 11 ([[72, 105]].map .data ++ [.error .eagain]) =
      some (if closing (.error .eagain) then removefd demoCfg demoClient user.epollfd user.cliFd else demoClient) :=
  process_calls (by simp) [[72, 105]] demoCfg demoClient 11

/-- A request and its end-of-file in one call: no "OK" is sent, and the line
stops at the NUL. An empty buffer alone: "OK" is sent. -/
theorem request_then_eof :
    (demoClient.users 11).calls [.data [72, 105, 0, 33], .eof] =
      some [.log 4 [72, 105], .epollDel 8 11, .close 11] ∧
    (demoClient.users 11).calls [.error .eagain] = some [.send 11 "OK"] := by
  decide

end LinuxServer.ProcPool.Child
