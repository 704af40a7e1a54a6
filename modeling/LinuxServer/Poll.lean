/-
`serv_poll` (multi_connection_server.hpp): one thread, a table of
`POLL_FDS_LEN` entries, and a round per `poll` call.

An entry of `pfds` is kept as its three fields in three arrays. The
kernel's side of a round is an `Answer`: the `revents` that `poll` wrote,
what `accept` returned, and what each `serv_read` returned. As for
`serv_select`, the open client connections (`kern`) and the calls made so
far (`calls`) are kept beside the program's own variables.
-/
import LinuxServer.Select

namespace LinuxServer.Poll

open SlotTable Lts
open Select (Cfg)

/-- `POLL_FDS_LEN`. -/
def pollFdsLen : Nat := 1024

/-- An index of `pollfd pfds[POLL_FDS_LEN]`. -/
abbrev Slot := Fin pollFdsLen

instance : NeZero pollFdsLen := ⟨by decide⟩

/-- The type of `events` and `revents`. -/
abbrev Flags := BitVec 16

/-- `POLLIN`. -/
def pollIn : Flags := 1

/-- A call the loop makes, with the connection its descriptor referred to
at that moment. -/
inductive Call
  | accept (f : Int) (conn : Nat)
  | read (slot : Slot) (f : Int) (conn : Option Nat)
  | close (slot : Slot) (f : Int) (conn : Option Nat)
  deriving DecidableEq, Repr

/-- What the kernel answers in one round. `acc` is negative when `accept`
fails; `reads i` is the answer to the `serv_read` made for slot `i`, if any. -/
inductive Answer
  | timeout
  | failed
  | ready (revents : Slot → Flags) (acc : Int) (reads : Slot → ReadResult)

structure St where
  fds : Slot → Int
  events : Slot → Flags
  revents : Slot → Flags
  exited : Bool
  kern : FdTable Int
  calls : List Call

/-- `pfds[0]` watches the listening socket and every other `fd` is `-1`.
The other `events` and all `revents` are what the stack held. -/
def init (c : Cfg) (events revents : Slot → Flags) : St where
  fds := Function.update (fun _ => -1) 0 c.listenFd
  events := Function.update events 0 pollIn
  revents := revents
  exited := false
  kern := .empty
  calls := []

/-- The accept part: the new descriptor goes into the first entry whose `fd`
is `-1`. With no such entry the source says "disconnect client connection"
and does nothing more. `none` where `accept` cannot have returned `acc`. -/
def acceptClient (c : Cfg) (s : St) (acc : Int) : Option St :=
  if acc < 0 then some s
  else if h : s.kern.ofd acc = none ∧ c.own acc = false then
    let kern := s.kern.alloc acc h.1
    let calls := s.calls ++ [.accept acc s.kern.opened]
    match firstFree (-1) (List.finRange pollFdsLen) s.fds with
    | some i =>
      some { s with
        fds := Function.update s.fds i acc
        events := Function.update s.events i pollIn
        kern, calls }
    | none => some { s with kern, calls }
  else none

/-- One pass of the read loop's body, for slot `i`. -/
def readSlot (reads : Slot → ReadResult) (s : St) (i : Slot) : St :=
  if s.fds i ≠ -1 ∧ s.revents i &&& pollIn ≠ 0 then
    let conn := s.kern.ofd (s.fds i)
    let calls := s.calls ++ [.read i (s.fds i) conn]
    if (reads i).drop then
      { s with
        fds := Function.update s.fds i (-1)
        kern := s.kern.close (s.fds i)
        calls := calls ++ [.close i (s.fds i) conn] }
    else { s with calls }
  else s

/-- The slots the read loop visits: `for (int i = 1; i < POLL_FDS_LEN; i++)`. -/
def readSlots : List Slot := (List.finRange pollFdsLen).filter (· ≠ 0)

/-- One round of `while (true)`. `none` where the kernel cannot have
answered so: an event on an entry whose `fd` is negative, or an `accept`
returning an open number. -/
def step (c : Cfg) (s : St) (ans : Answer) : Option St :=
  if s.exited then none
  else
    match ans with
    | .timeout => some { s with revents := fun _ => 0 }
    | .failed => some { s with exited := true }
    | .ready revents acc reads =>
      if ∀ i, s.fds i < 0 → revents i = 0 then
        let s := { s with revents }
        (if s.revents 0 &&& pollIn ≠ 0 then acceptClient c s acc else some s).map fun s =>
          readSlots.foldl (readSlot reads) s
      else none

end LinuxServer.Poll
