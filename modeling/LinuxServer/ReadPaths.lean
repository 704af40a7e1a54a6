/-
The five places that read from a client and then decide whether to close
it: the scans of `serv_select` and `serv_poll`, `ep_msg_worker_func` with
each trigger type (multi_connection_server.hpp), and `msg_cb`
(libev_multi_con_server.hpp).

All of them test the global `errno`, after std::cout and syslog were called
on it. So a `Recv` has two values: the error `recv` failed with, and what
`errno` holds at the test.
-/
import LinuxServer.Epoll.Server
import LinuxServer.Poll

namespace LinuxServer.ReadPaths

open Epoll (EpollTriggerType)

/-- What `recv` returned. -/
def ret : RecvOut → Int
  | .data bytes => bytes.length
  | .eof => 0
  | .error _ => -1

/-- A `recv` on a client and the logging after it, which left `after` in `errno`. -/
structure Recv where
  out : RecvOut
  after : Errno
  some_data : out ≠ .data []

theorem Recv.ret_data (r : Recv) {bytes : List UInt8} (h : r.out = .data bytes) : 0 < ret r.out := by
  have hne : bytes ≠ [] := fun he => r.some_data (he ▸ h)
  have := List.length_pos_iff.mpr hne
  rw [h, ret]
  omega

/-- `serv_read`, with `errno` as its caller finds it. -/
def servRead (r : Recv) : ReadResult := ⟨ret r.out, r.after⟩

/-- What comes after a `recv`: another one in the same loop; the end of the
handler, which first sends `reply`, with the client kept; or the close. -/
inductive Next
  | again
  | leave (reply : List UInt8)
  | close
  deriving DecidableEq, Repr

/-- The body of `serv_select`'s scan: `if (ret == 0 || (ret < 0 && errno !=
EAGAIN && errno != EWOULDBLOCK))`. -/
def servSelectScan (r : Recv) : Next := if (servRead r).drop then .close else .leave []

/-- The body of `serv_poll`'s scan. -/
def servPollScan (r : Recv) : Next := if (servRead r).drop then .close else .leave []

/-- `ep_msg_worker_func` after `serv_read`; edge-triggered it reads on after data. -/
def epMsgWorkerFunc (triggerType : EpollTriggerType) (r : Recv) : Next :=
  match triggerType with
  | .epEt =>
    if (servRead r).ret > 0 then .again
    else if (servRead r).ret = 0 then .close
    else if r.after.wouldBlock then .leave []
    else .close
  | .epLt =>
    if (servRead r).ret = 0 then .close
    else if (servRead r).ret < 0 then if r.after.wouldBlock then .leave [] else .close
    else .leave []

/-- `OK\r\n`. -/
def ok : List UInt8 := [79, 75, 13, 10]

/-- The body of `msg_cb`'s loop: `break` leads to the reply, `goto ERROR` to the close. -/
def msgCb (r : Recv) : Next :=
  if ret r.out > 0 then .again
  else if ret r.out < 0 then if r.after.wouldBlock then .leave ok else .close
  else .close

inductive Path
  | servSelect
  | servPoll
  | epMsgWorker (triggerType : EpollTriggerType)
  | msgCb
  deriving DecidableEq, Repr

def Path.next : Path → Recv → Next
  | .servSelect => servSelectScan
  | .servPoll => servPollScan
  | .epMsgWorker triggerType => epMsgWorkerFunc triggerType
  | .msgCb => ReadPaths.msgCb

/-- The `recv`s made on one client, in one call of the handler after the
other, with what each led to: up to the close, if there is one. -/
def serve (path : Path) : List Recv → List (Recv × Next)
  | [] => []
  | r :: rs => (r, path.next r) :: if path.next r = .close then [] else serve path rs

/-! ## The servers' models take these paths -/

theorem readSlot_select {rfds : Finset Int} {reads : Select.Slot → ReadResult} {s : Select.St} {i : Select.Slot}
    {r : Recv} (hfd : s.fds i ≠ -1) (hready : s.fds i ∈ rfds) (hr : reads i = servRead r) :
    (Select.readSlot rfds reads s i).fds i = -1 ↔ Path.servSelect.next r = .close := by
  unfold Select.readSlot
  rw [if_pos ⟨hfd, hready⟩, hr]
  show _ ↔ servSelectScan r = .close
  unfold servSelectScan
  split <;> simp [hfd]

theorem readSlot_poll {reads : Poll.Slot → ReadResult} {s : Poll.St} {i : Poll.Slot} {r : Recv}
    (hfd : s.fds i ≠ -1) (hready : s.revents i &&& Poll.pollIn ≠ 0) (hr : reads i = servRead r) :
    (Poll.readSlot reads s i).fds i = -1 ↔ Path.servPoll.next r = .close := by
  unfold Poll.readSlot
  rw [if_pos ⟨hfd, hready⟩, hr]
  show _ ↔ servPollScan r = .close
  unfold servPollScan
  split <;> simp [hfd]

/-- A pool thread of `serv_epoll` goes where the path leads. -/
theorem nextPc_epoll (c : Epoll.Cfg) (t : Epoll.Task) (r : Recv) :
    Epoll.nextPc c t r.out r.after =
      match (Path.epMsgWorker c.trigger).next r with
      | .again => .msgRecv t
      | .leave _ => .idle
      | .close => .toClose t := by
  unfold Epoll.nextPc
  cases hout : r.out with
  | data bytes =>
    have hpos := r.ret_data hout
    have hne : ret r.out ≠ 0 := by omega
    have hnot : ¬ ret r.out < 0 := by omega
    cases c.trigger <;> simp [Path.next, epMsgWorkerFunc, servRead, hpos, hne, hnot]
  | eof => cases c.trigger <;> simp [Path.next, epMsgWorkerFunc, servRead, hout, ret]
  | error e =>
    cases hw : r.after.wouldBlock <;> cases c.trigger <;>
      simp [Path.next, epMsgWorkerFunc, servRead, hout, ret, hw]

/-! ## When a client is closed -/

/-- The `recv` returned 0, or failed with an error other than an empty buffer. -/
def ends : RecvOut → Bool
  | .data _ => false
  | .eof => true
  | .error e => !e.wouldBlock

/-- The test sees of `errno` what it would have seen before the logging. -/
def Recv.Kept (r : Recv) : Prop := ∀ e, r.out = .error e → r.after.wouldBlock = e.wouldBlock

/-- The `recv`s up to the first after which the client is to be closed. -/
def upToEnd : List Recv → List Recv
  | [] => []
  | r :: rs => r :: if ends r.out then [] else upToEnd rs

/-- The client is closed after those `recv`s that end it, and no others. -/
def ClosesRight (path : Path) (rs : List Recv) : Prop :=
  ∀ x ∈ serve path rs, x.2 = .close ↔ ends x.1.out = true

instance (path : Path) (rs : List Recv) : Decidable (ClosesRight path rs) := by
  unfold ClosesRight
  infer_instance

theorem next_data (path : Path) {r : Recv} {bytes : List UInt8} (h : r.out = .data bytes) :
    path.next r ≠ .close := by
  have hpos := r.ret_data h
  have hne : ret r.out ≠ 0 := by omega
  have hnot : ¬ ret r.out < 0 := by omega
  cases path with
  | servSelect => simp [Path.next, servSelectScan, servRead, ReadResult.drop, hne, hnot]
  | servPoll => simp [Path.next, servPollScan, servRead, ReadResult.drop, hne, hnot]
  | epMsgWorker triggerType => cases triggerType <;> simp [Path.next, epMsgWorkerFunc, servRead, hpos, hne, hnot]
  | msgCb => simp [Path.next, msgCb, hpos]

theorem next_eof (path : Path) {r : Recv} (h : r.out = .eof) : path.next r = .close := by
  cases path with
  | servSelect => simp [Path.next, servSelectScan, servRead, ReadResult.drop, h, ret]
  | servPoll => simp [Path.next, servPollScan, servRead, ReadResult.drop, h, ret]
  | epMsgWorker triggerType => cases triggerType <;> simp [Path.next, epMsgWorkerFunc, servRead, h, ret]
  | msgCb => simp [Path.next, msgCb, h, ret]

/-- After an error every path decides by what the logging left in `errno`. -/
theorem next_error (path : Path) {r : Recv} {e : Errno} (h : r.out = .error e) :
    path.next r = .close ↔ r.after.wouldBlock = false := by
  cases path with
  | servSelect =>
    cases hw : r.after.wouldBlock <;> simp [Path.next, servSelectScan, servRead, ReadResult.drop, h, ret, hw]
  | servPoll =>
    cases hw : r.after.wouldBlock <;> simp [Path.next, servPollScan, servRead, ReadResult.drop, h, ret, hw]
  | epMsgWorker triggerType =>
    cases triggerType <;> cases hw : r.after.wouldBlock <;> simp [Path.next, epMsgWorkerFunc, servRead, h, ret, hw]
  | msgCb => cases hw : r.after.wouldBlock <;> simp [Path.next, msgCb, h, ret, hw]

/-- One `recv` is judged right exactly when the logging kept its `errno`. -/
theorem next_right_iff (path : Path) (r : Recv) : (path.next r = .close ↔ ends r.out = true) ↔ r.Kept := by
  unfold Recv.Kept
  cases hout : r.out with
  | data bytes => simp [next_data path hout, ends]
  | eof => simp [next_eof path hout, ends]
  | error e =>
    rw [next_error path hout]
    cases hw : r.after.wouldBlock <;> cases he : e.wouldBlock <;> simp [ends, he]

/-- **When each path closes the right clients.** For every sequence of
`recv`s on a client, on each of the five paths: it is closed after exactly
those that returned 0 or failed with an error other than an empty buffer if
and only if, up to the first of them, the logging after each failed `recv`
left an `errno` of the same kind as `recv` did. -/
theorem closesRight_iff (path : Path) (rs : List Recv) : ClosesRight path rs ↔ ∀ r ∈ upToEnd rs, r.Kept := by
  induction rs with
  | nil => simp [ClosesRight, serve, upToEnd]
  | cons r rs ih =>
    have hsplit : ClosesRight path (r :: rs) ↔ (path.next r = .close ↔ ends r.out = true) ∧
        ∀ x ∈ (if path.next r = .close then [] else serve path rs), x.2 = .close ↔ ends x.1.out = true := by
      unfold ClosesRight
      rw [serve, List.forall_mem_cons]
    rw [hsplit, next_right_iff, upToEnd, List.forall_mem_cons]
    refine and_congr_right fun hkept => ?_
    have hright := (next_right_iff path r).mpr hkept
    by_cases hend : ends r.out = true
    · rw [if_pos (hright.mpr hend), if_pos hend]
      simp
    · rw [if_neg fun hc => hend (hright.mp hc), if_neg hend]
      exact ih

/-- Data, and then a `recv` that finds the buffer empty; writing the log line
about it fails on a full disk. -/
def drained : List Recv :=
  [⟨.data [104, 105], .eagain, by decide⟩, ⟨.error .eagain, .other 28, by decide⟩]

/-- On every path the client that sent two bytes and waits is closed. -/
theorem drained_closed :
    ¬ ClosesRight .servSelect drained ∧ ¬ ClosesRight .servPoll drained ∧
    ¬ ClosesRight (.epMsgWorker .epLt) drained ∧ ¬ ClosesRight (.epMsgWorker .epEt) drained ∧
    ¬ ClosesRight .msgCb drained := by decide

end LinuxServer.ReadPaths
