/-
`serv_select` (multi_connection_server.hpp): one thread, a table of
`SELECT_FDS_LEN` descriptors, and a round per `select` call.

The kernel's side of a round is an `Answer`: the descriptors `select` left
in the set, what `accept` returned, and what each `serv_read` returned. The
table of open client connections (`kern`) and the list of calls made so far
(`calls`) are kept beside the program's own variables.
-/
import Mathlib.Algebra.GroupWithZero.Nat
import Mathlib.Data.Finset.Image
import Mathlib.Data.Fintype.Basic
import LinuxServer.Kernel
import LinuxServer.Lib.FdTable
import LinuxServer.Lib.Lts
import LinuxServer.Lib.SlotTable

namespace LinuxServer.Select

open SlotTable Lts

/-- `SELECT_FDS_LEN`. -/
def selectFdsLen : Nat := 128

/-- An index of `int fds[SELECT_FDS_LEN]`. -/
abbrev Slot := Fin selectFdsLen

instance : NeZero selectFdsLen := ⟨by decide⟩

/-- The process at the call of `serv_select`: `own` are the descriptors it
has open besides its clients, which `accept` does not return. -/
structure Cfg where
  listenFd : Int
  own : Int → Bool
  listen_own : own listenFd = true
  own_nonneg : ∀ f, own f = true → 0 ≤ f

theorem Cfg.listen_ne (c : Cfg) : c.listenFd ≠ -1 := by
  have := c.own_nonneg _ c.listen_own
  omega

/-- A call the loop makes, with the connection its descriptor referred to
at that moment; `slot` is the table index it was made for. -/
inductive Call
  | accept (f : Int) (conn : Nat)
  | read (slot : Slot) (f : Int) (conn : Option Nat)
  | close (slot : Option Slot) (f : Int) (conn : Option Nat)
  deriving DecidableEq, Repr

/-- What the kernel answers in one round. `acc` is negative when `accept`
fails; `reads i` is the answer to the `serv_read` made for slot `i`, if any. -/
inductive Answer
  | timeout
  | failed
  | ready (rfds : Finset Int) (acc : Int) (reads : Slot → ReadResult)

structure St where
  fds : Slot → Int
  maxfd : Int
  exited : Bool
  kern : FdTable Int
  calls : List Call

/-- `memset(fds, -1, ...)`, `fds[0] = listen_fd`, `maxfd = -1`. -/
def init (c : Cfg) : St where
  fds := Function.update (fun _ => -1) 0 c.listenFd
  maxfd := -1
  exited := false
  kern := .empty
  calls := []

/-- The set built with `FD_SET` at the top of a round. -/
def fdSet (fds : Slot → Int) : Finset Int := (Finset.univ.image fds).filter (· ≠ -1)

/-- `maxfd = std::max(fds[i], maxfd)` over the slots in use. -/
def raiseMaxfd (fds : Slot → Int) (maxfd : Int) : Int :=
  (List.finRange selectFdsLen).foldl (fun m i => if fds i ≠ -1 then max (fds i) m else m) maxfd

/-- The accept part: the new descriptor goes into the first slot holding
`-1`, and is closed when there is none. `none` where `accept` cannot have
returned `acc`. -/
def acceptClient (c : Cfg) (s : St) (acc : Int) : Option St :=
  if acc < 0 then some s
  else if h : s.kern.ofd acc = none ∧ c.own acc = false then
    let kern := s.kern.alloc acc h.1
    let calls := s.calls ++ [.accept acc s.kern.opened]
    match firstFree (-1) (List.finRange selectFdsLen) s.fds with
    | some i => some { s with fds := Function.update s.fds i acc, kern, calls }
    | none =>
      some { s with kern := kern.close acc, calls := calls ++ [.close none acc (kern.ofd acc)] }
  else none

/-- One pass of the read loop's body, for slot `i`. -/
def readSlot (rfds : Finset Int) (reads : Slot → ReadResult) (s : St) (i : Slot) : St :=
  if s.fds i ≠ -1 ∧ s.fds i ∈ rfds then
    let conn := s.kern.ofd (s.fds i)
    let calls := s.calls ++ [.read i (s.fds i) conn]
    if (reads i).drop then
      { s with
        fds := Function.update s.fds i (-1)
        kern := s.kern.close (s.fds i)
        calls := calls ++ [.close (some i) (s.fds i) conn] }
    else { s with calls }
  else s

/-- The slots the read loop visits: `for (int i = 1; i < SELECT_FDS_LEN; i++)`. -/
def readSlots : List Slot := (List.finRange selectFdsLen).filter (· ≠ 0)

/-- One round of `while (true)`. `none` where the kernel cannot have
answered so: a descriptor reported that was not asked about, or an
`accept` returning an open number. -/
def step (c : Cfg) (s : St) (ans : Answer) : Option St :=
  if s.exited then none
  else
    let s := { s with maxfd := raiseMaxfd s.fds s.maxfd }
    match ans with
    | .timeout => some s
    | .failed => some { s with exited := true }
    | .ready rfds acc reads =>
      if rfds ⊆ fdSet s.fds then
        (if c.listenFd ∈ rfds then acceptClient c s acc else some s).map fun s =>
          readSlots.foldl (readSlot rfds reads) s
      else none

end LinuxServer.Select
