/-
What the servers see of the kernel: the values of `errno` they branch on,
the outcome of a `recv`, the result of a read as the caller of `serv_read`
tests it, and the signals they handle.
-/

namespace LinuxServer

/-- The values of `errno` the servers tell apart, the rest by number. -/
inductive Errno
  | eagain
  | ewouldblock
  | eintr
  | ebadf
  | econnreset
  | other (code : Nat)
  deriving DecidableEq, Repr

/-- `errno == EAGAIN || errno == EWOULDBLOCK`. -/
def Errno.wouldBlock : Errno → Bool
  | .eagain | .ewouldblock => true
  | .eintr | .ebadf | .econnreset | .other _ => false

/-- The outcome of one `recv` on a client socket. -/
inductive RecvOut
  | data (bytes : List UInt8)
  | eof
  | error (e : Errno)
  deriving DecidableEq, Repr

/-- What `serv_read` returned, and what `errno` holds when its caller tests it. -/
structure ReadResult where
  ret : Int
  errno : Errno
  deriving DecidableEq, Repr

/-- The test after `serv_read`: end of stream, or an error other than an empty buffer. -/
def ReadResult.drop (r : ReadResult) : Bool :=
  r.ret == 0 || (r.ret < 0 && !r.errno.wouldBlock)

/-- The signals the servers install a handler for. -/
inductive Signal
  | sigchld
  | sigterm
  | sigint
  | sigpipe
  | sigurg
  | sigalrm
  deriving DecidableEq, Repr

end LinuxServer
