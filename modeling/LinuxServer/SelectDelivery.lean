/-
`serv_select` with its clients: what they send, and what of it the server
logs (multi_connection_server.hpp): the chunks `serv_read` reports, each with
its length and its text up to the first NUL.

`Select.step` takes what `select`, `accept` and `recv` answer as its input.
Here the connections are kept too, so an answer is one they can give:
`select` reports some of those with something to read, `accept` takes the
oldest that waits, and a `recv` gives what is there. What arrives while a
round is under way counts as there before. `errno` at the test is whatever
the logging left in it.

Seen so, `serv_select` is a `StreamServer` (`round_shows`), and does what
such a server does.
-/
import LinuxServer.Lib.TableServer
import LinuxServer.ReadPaths
import LinuxServer.SelectSound

namespace LinuxServer

open Inbound StreamServer

/-- What a `recv` returns, as an outcome of the connection's. -/
def recvOut : RecvOut → Out UInt8 Errno
  | .data bytes => .data bytes
  | .eof => .eof
  | .error e => .error e

/-- The most one `serv_read` takes: `BUF_SIZE - 1`. -/
def readCap : Nat := Epoll.bufSize - 1

/-- `serv_read`'s caller closes the client at the end of its stream, and
after an error unless `errno` then looks like an empty buffer. -/
theorem drop_eq_ends (r : ReadPaths.Recv) :
    (ReadPaths.servRead r).drop = ends r.after.wouldBlock (recvOut r.out) := by
  cases hr : r.out with
  | data bytes =>
    have hpos := r.ret_data hr
    rw [hr] at hpos
    have hne : ReadPaths.ret (.data bytes) ≠ 0 := by omega
    have hnn : ¬ ReadPaths.ret (.data bytes) < 0 := by omega
    simp [ReadPaths.servRead, ReadResult.drop, hr, recvOut, ends, hne, hnn]
  | eof => simp [ReadPaths.servRead, ReadResult.drop, hr, ReadPaths.ret, recvOut, ends]
  | error e => simp [ReadPaths.servRead, ReadResult.drop, hr, ReadPaths.ret, recvOut, ends]

namespace Select

open SlotTable Lts TableServer

/-- The server, and its connections under the names `srv.kern` gives them. -/
structure Sys where
  srv : St
  net : Net UInt8 Errno

def Sys.init (c : Cfg) : Sys := ⟨Select.init c, .empty⟩

/-- The connection open on `f`, none being one with nothing to read. -/
def Sys.connOf (s : Sys) (f : Int) : Inbound UInt8 Errno :=
  match s.srv.kern.ofd f with
  | some n => s.net.conn n
  | none => .fresh

/-- `select` has `f` to report. -/
def Ready (c : Cfg) (s : Sys) (f : Int) : Prop :=
  f ∈ fdSet s.srv.fds ∧ if f = c.listenFd then s.net.backlog ≠ [] else (s.connOf f).Readable

instance (c : Cfg) (s : Sys) (f : Int) : Decidable (Ready c s f) :=
  inferInstanceAs (Decidable (f ∈ fdSet s.srv.fds ∧
    if f = c.listenFd then s.net.backlog ≠ [] else (s.connOf f).Readable))

/-- What the kernel answers in a round with something to report. -/
structure Round where
  rfds : Finset Int
  acc : Int
  recvs : Slot → ReadPaths.Recv

/-- What `serv_read` returns for each slot. -/
def Round.reads (r : Round) (i : Slot) : ReadResult := ReadPaths.servRead (r.recvs i)

/-- The accept part of a round. -/
def acceptConn (c : Cfg) (s : Sys) (acc : Int) : Option Sys :=
  (acceptClient c s.srv acc).bind fun srv =>
    if acc < 0 then some { s with srv } else (s.net.accept s.srv.kern.opened).map fun net => ⟨srv, net⟩

/-- The read loop reads slot `i`: `(fds[i] != -1) && FD_ISSET(fds[i], &rfds)`. -/
abbrev Reads (r : Round) (s : Sys) (i : Slot) : Prop := s.srv.fds i ≠ -1 ∧ s.srv.fds i ∈ r.rfds

/-- One pass of the read loop's body. -/
def readConn (r : Round) (s : Sys) (i : Slot) : Option Sys :=
  let srv := readSlot r.rfds r.reads s.srv i
  if Reads r s i then
    (s.net.recv readCap (s.srv.kern.ofd (s.srv.fds i)) (recvOut (r.recvs i).out)).map fun net => ⟨srv, net⟩
  else some { s with srv }

/-- The part of a round before `select`. -/
def Sys.raise (s : Sys) : Sys := { s with srv := { s.srv with maxfd := raiseMaxfd s.srv.fds s.srv.maxfd } }

/-- A round in which `select` reports something. -/
def round (c : Cfg) (s : Sys) (r : Round) : Option Sys :=
  if s.srv.exited = false ∧ r.rfds.Nonempty ∧ ∀ f ∈ r.rfds, Ready c s f then
    (if c.listenFd ∈ r.rfds then acceptConn c s.raise r.acc else some s.raise).bind fun s =>
      readSlots.foldlM (readConn r) s
  else none

/-- What can happen next: a client does something, or `select` reports
something, times out or fails. -/
inductive SysAct
  | client (a : Client UInt8 Errno)
  | round (r : Round)
  | timeout
  | failed

def sysStep (c : Cfg) (s : Sys) : SysAct → Option Sys
  | .client a => some { s with net := s.net.client a }
  | .round r => round c s r
  | .timeout => (step c s.srv .timeout).map fun srv => { s with srv }
  | .failed => (step c s.srv .failed).map fun srv => { s with srv }

/-- Accepted with the table full, and closed at once. -/
def Refused (calls : List Call) (n : Nat) : Prop := ∃ f, Call.close none f (some n) ∈ calls

/-- What the server still has to do. -/
def Sys.work (s : Sys) : Nat := TableServer.work (-1) (· ≠ 0) s.srv.fds s.srv.kern s.net

/-- There is a connection to accept and nothing else, and `accept` fails. -/
def OnlyFailedAccept (c : Cfg) (r : Round) : Prop := r.rfds = {c.listenFd} ∧ r.acc < 0

instance (c : Cfg) (r : Round) : Decidable (OnlyFailedAccept c r) := inferInstanceAs (Decidable (_ ∧ _))

variable {c : Cfg} {s s' : Sys} {r : Round} {i : Slot} {todo : List Slot} {acc f : Int} {n : Nat}
  {t : StreamServer.St UInt8 Errno}

/-! ## A round is one of `serv_select`'s -/

theorem acceptConn_srv (h : acceptConn c s acc = some s') : acceptClient c s.srv acc = some s'.srv := by
  obtain ⟨srv, hsrv, h⟩ := Option.bind_eq_some_iff.mp h
  split at h
  · cases h
    exact hsrv
  · obtain ⟨net, -, rfl⟩ := Option.map_eq_some_iff.mp h
    exact hsrv

theorem readConn_srv (h : readConn r s i = some s') : s'.srv = readSlot r.rfds r.reads s.srv i := by
  unfold readConn at h
  simp only at h
  split at h
  · obtain ⟨net, -, rfl⟩ := Option.map_eq_some_iff.mp h
    rfl
  · cases h
    rfl

theorem readConns_srv (h : todo.foldlM (readConn r) s = some s') :
    s'.srv = todo.foldl (readSlot r.rfds r.reads) s.srv := by
  induction todo generalizing s with
  | nil =>
    cases h
    rfl
  | cons i todo ih =>
    rw [List.foldlM_cons] at h
    obtain ⟨s₁, h₁, h⟩ := Option.bind_eq_some_iff.mp h
    rw [ih h, readConn_srv h₁, List.foldl_cons]

theorem round_srv (h : round c s r = some s') : step c s.srv (.ready r.rfds r.acc r.reads) = some s'.srv := by
  unfold round at h
  split at h
  · next hg =>
    obtain ⟨hexit, -, hready⟩ := hg
    obtain ⟨s₁, h₁, h⟩ := Option.bind_eq_some_iff.mp h
    have hsub : r.rfds ⊆ fdSet s.raise.srv.fds := fun f hf => (hready f hf).1
    have haccept : (if c.listenFd ∈ r.rfds then acceptClient c s.raise.srv r.acc else some s.raise.srv) =
        some s₁.srv := by
      split at h₁
      · next hl => rw [if_pos hl, acceptConn_srv h₁]
      · next hl =>
        cases h₁
        rw [if_neg hl]
    rw [readConns_srv h]
    unfold step
    rw [if_neg (by simp [hexit])]
    show (if r.rfds ⊆ fdSet s.raise.srv.fds then _ else none) = _
    rw [if_pos hsub]
    exact congrArg (Option.map _) haccept
  · cases h

theorem sysStep_inv {a : SysAct} (hs : Inv c s.srv) (h : sysStep c s a = some s') : Inv c s'.srv := by
  cases a with
  | client a =>
    cases h
    exact hs
  | round r => exact step_inv hs (round_srv h)
  | timeout | failed =>
    obtain ⟨srv, hsrv, rfl⟩ := Option.map_eq_some_iff.mp h
    exact step_inv hs hsrv

/-! ## A round is a run of the stream server -/

/-- The server `t` is what `s` makes. -/
def Shown (s : Sys) (t : StreamServer.St UInt8 Errno) : Prop :=
  Shows (-1) (· ≠ 0) s.srv.fds s.srv.kern s.net (Refused s.srv.calls) t

theorem Refused.append {calls : List Call} (more : List Call) (h : Refused calls n) :
    Refused (calls ++ more) n := by
  obtain ⟨f, hf⟩ := h
  exact ⟨f, List.mem_append_left more hf⟩

theorem acceptConn_shows (hs : Inv c s.srv) (ht : Shown s t) (h : acceptConn c s acc = some s') :
    ∃ as t', runWhere (StreamServer.step readCap) Own t as = some t' ∧ Shown s' t' ∧ (as = [] ↔ acc < 0) := by
  obtain ⟨srv, hsrv, h⟩ := Option.bind_eq_some_iff.mp h
  by_cases hneg : acc < 0
  · rw [if_pos hneg] at h
    cases h
    have hsame : srv = s.srv := by simpa [acceptClient, hneg] using hsrv.symm
    subst hsame
    exact ⟨[], t, rfl, ht, iff_of_true rfl hneg⟩
  rw [if_neg hneg] at h
  obtain ⟨net, hnet, rfl⟩ := Option.map_eq_some_iff.mp h
  have hne : acc ≠ -1 := by omega
  obtain ⟨hfail, -⟩ | ⟨hf, -, -, ⟨i, hi, rfl⟩ | ⟨-, rfl⟩⟩ := acceptClient_cases hsrv
  · exact absurd hfail hneg
  · have hi0 : i ≠ 0 := by
      rintro rfl
      exact c.listen_ne (hs.listen ▸ hi)
    obtain ⟨t', hstep, ht'⟩ := ht.put readCap hi hi0 hne hf hnet
      fun _ => Refused.append [.accept acc s.srv.kern.opened]
    exact ⟨[.accept], t', run_own trivial hstep, ht', iff_of_false (List.cons_ne_nil _ _) hneg⟩
  · have hkern : ∀ j : Slot, j ≠ 0 → s.srv.fds j ≠ -1 →
        ((s.srv.kern.alloc acc hf).close acc).ofd (s.srv.fds j) = s.srv.kern.ofd (s.srv.fds j) := by
      intro j _ _
      by_cases hja : s.srv.fds j = acc
      · rw [hja, FdTable.close_ofd_self, hf]
      · rw [FdTable.close_ofd_of_ne hja, FdTable.alloc_ofd_of_ne hf hja]
    obtain ⟨t', hstep, ht'⟩ := ht.refuse readCap hkern (by simp) hnet
      (fun _ => Refused.append [.accept acc s.srv.kern.opened, .close none acc (some s.srv.kern.opened)])
      ⟨acc, by simp⟩
    exact ⟨[.refuse], t', run_own trivial hstep, ht', iff_of_false (List.cons_ne_nil _ _) hneg⟩

theorem readConn_shows (hs : Inv c s.srv) (ht : Shown s t) (hi : i ≠ 0) (h : readConn r s i = some s') :
    ∃ as t', runWhere (StreamServer.step readCap) Own t as = some t' ∧ Shown s' t' ∧
      (as = [] ↔ ¬ Reads r s i) := by
  unfold readConn readSlot at h
  simp only at h
  split at h
  · next hread =>
    obtain ⟨n, hn⟩ := hs.entry hi hread.1
    rw [hn] at h
    obtain ⟨net, hnet, rfl⟩ := Option.map_eq_some_iff.mp h
    have hdrop : (r.reads i).drop = ends (r.recvs i).after.wouldBlock (recvOut (r.recvs i).out) := drop_eq_ends _
    rw [hdrop]
    -- whether the client is kept, as the test after `serv_read` sees it
    generalize (r.recvs i).after.wouldBlock = keep
    cases hends : ends keep (recvOut (r.recvs i).out) with
    | true =>
      obtain ⟨t', hstep, ht'⟩ := ht.close hi hread.1 hn hnet hends
        fun _ h => (h.append [.read i (s.srv.fds i) (some n)]).append [.close (some i) (s.srv.fds i) (some n)]
      exact ⟨[.recv n (recvOut (r.recvs i).out) keep], t', run_own trivial hstep, ht',
        iff_of_false (List.cons_ne_nil _ _) (not_not_intro hread)⟩
    | false =>
      obtain ⟨t', hstep, ht'⟩ := ht.read hi hread.1 hn hnet hends
        fun _ => Refused.append [.read i (s.srv.fds i) (some n)]
      exact ⟨[.recv n (recvOut (r.recvs i).out) keep], t', run_own trivial hstep, ht',
        iff_of_false (List.cons_ne_nil _ _) (not_not_intro hread)⟩
  · next hread =>
    cases h
    exact ⟨[], t, rfl, ht, iff_of_true rfl hread⟩

theorem readSlot_fds {srv : St} {rfds : Finset Int} {reads : Slot → ReadResult} {j : Slot} (hj : j ≠ i) :
    (readSlot rfds reads srv i).fds j = srv.fds j := by
  obtain he | ⟨-, -, he | he⟩ := readSlot_cases rfds reads srv i <;> rw [he]
  exact Function.update_of_ne hj _ _

theorem readSlot_inv {srv : St} {rfds : Finset Int} {reads : Slot → ReadResult} (hs : Inv c srv) (hi : i ≠ 0) :
    Inv c (readSlot rfds reads srv i) := by
  obtain he | ⟨hne, hr, he | he⟩ := readSlot_cases rfds reads srv i <;> rw [he]
  · exact hs
  · exact ((ScanOk.start hs rfds [i]).read_slot hi hne hr).inv
  · have hread := (ScanOk.start hs rfds [i]).read_slot hi hne hr
    have hclose := (hread.close_slot hi List.not_mem_nil hne).inv
    simpa only [List.append_assoc, List.cons_append, List.nil_append] using hclose

theorem reads_other {j : Slot} (h : readConn r s i = some s') (hj : j ≠ i) : Reads r s' j ↔ Reads r s j := by
  rw [Reads, Reads, readConn_srv h, readSlot_fds hj]

theorem readConns_shows (hs : Inv c s.srv) (ht : Shown s t) (h : readSlots.foldlM (readConn r) s = some s') :
    ∃ as t', runWhere (StreamServer.step readCap) Own t as = some t' ∧ Shown s' t' ∧
      (as = [] ↔ ∀ i ∈ readSlots, ¬ Reads r s i) := by
  refine (scan_shows (S := (· ≠ 0)) (I := fun s => Inv c s.srv) (fun s i s' t hs hi ht h => ⟨?_, ?_⟩)
    (fun _ _ _ _ => reads_other) hs ht readSlots_nodup (by simp [readSlots]) h).2
  · exact readConn_srv h ▸ readSlot_inv hs hi
  · exact readConn_shows hs ht hi h

theorem unread_iff (hs : Inv c s.srv) (hne : r.rfds.Nonempty) (hsub : r.rfds ⊆ fdSet s.srv.fds) :
    (∀ i ∈ readSlots, ¬ Reads r s i) ↔ r.rfds = {c.listenFd} := by
  constructor
  · intro hall
    refine Finset.eq_singleton_iff_nonempty_unique_mem.mpr ⟨hne, fun f hf => ?_⟩
    by_contra hfl
    have hmem := hsub hf
    simp only [fdSet, Finset.mem_filter, Finset.mem_image, Finset.mem_univ, true_and] at hmem
    obtain ⟨⟨i, rfl⟩, hfree⟩ := hmem
    have hi : i ≠ 0 := by
      rintro rfl
      exact hfl hs.listen
    exact hall i (by simp [readSlots, hi]) ⟨hfree, hf⟩
  · rintro he i hi ⟨hfree, hf⟩
    have hi0 : i ≠ 0 := by simpa [readSlots] using hi
    rw [he, Finset.mem_singleton] at hf
    exact hi0 (hs.distinct i 0 hfree (hf.trans hs.listen.symm))

/-- **A round is a run of the stream server**, of at least one action unless
an `accept` that fails is all there is to it. -/
theorem round_shows (hs : Inv c s.srv) (ht : Shown s t) (h : round c s r = some s') :
    ∃ as t', runWhere (StreamServer.step readCap) Own t as = some t' ∧ Shown s' t' ∧
      (as = [] ↔ OnlyFailedAccept c r) := by
  unfold round at h
  split at h
  swap
  · cases h
  next hg =>
  obtain ⟨-, hne, hready⟩ := hg
  have hs₀ : Inv c s.raise.srv := hs.raise _
  have ht₀ : Shown s.raise t := ht
  have honly := unread_iff hs₀ hne fun f hf => (hready f hf).1
  obtain ⟨s₁, h₁, h⟩ := Option.bind_eq_some_iff.mp h
  split at h₁
  · next hl =>
    obtain ⟨as, t₁, hrun, ht₁, hnil⟩ := acceptConn_shows hs₀ ht₀ h₁
    have hs₁ : Inv c s₁.srv := acceptClient_inv hs₀ (acceptConn_srv h₁)
    obtain ⟨bs, t₂, hrun', ht₂, hnil'⟩ := readConns_shows hs₁ ht₁ h
    refine ⟨as ++ bs, t₂, runWhere_append hrun hrun', ht₂, ?_⟩
    rw [List.append_eq_nil_iff, hnil, OnlyFailedAccept, and_comm]
    refine and_congr_left fun hneg => ?_
    have hsame : s₁.srv = s.raise.srv := by simpa [acceptClient, hneg] using (acceptConn_srv h₁).symm
    simp only [← honly, hnil', Reads, hsame]
  · next hl =>
    cases h₁
    obtain ⟨bs, t₂, hrun', ht₂, hnil'⟩ := readConns_shows hs₀ ht₀ h
    refine ⟨bs, t₂, hrun', ht₂, hnil'.trans (honly.trans ⟨fun he => ?_, And.left⟩)⟩
    exact absurd (he ▸ Finset.mem_singleton_self _) hl

/-- Every state of `serv_select` and its clients is one of the stream server's. -/
theorem reach_shows (h : Reach (sysStep c) Any (Sys.init c) s) :
    ∃ t, Reach (StreamServer.step readCap) Any StreamServer.init t ∧ Shown s t ∧ Inv c s.srv := by
  refine h.simulate (R := fun s t => Shown s t ∧ Inv c s.srv)
    ⟨⟨rfl, rfl, fun n => ?_, by simp [StreamServer.init]⟩, init_inv c⟩ ?_
  · simp [StreamServer.init, Sys.init, Select.init, FdTable.empty]
  intro s a s' t _ _ ht _ hstep
  obtain ⟨ht, hs⟩ := ht
  have hs' := sysStep_inv hs hstep
  cases a with
  | client a =>
    cases hstep
    obtain ⟨hstep, ht'⟩ := ht.client a
    exact ⟨_, .tail .refl trivial hstep, ht', hs'⟩
  | round r =>
    obtain ⟨as, t', hrun, ht', -⟩ := round_shows hs ht hstep
    exact ⟨t', (reach_of_runWhere hrun).any, ht', hs'⟩
  | timeout | failed =>
    obtain ⟨srv, hsrv, rfl⟩ := Option.map_eq_some_iff.mp hstep
    unfold step at hsrv
    split at hsrv
    · cases hsrv
    · cases hsrv
      exact ⟨t, .refl, ht, hs'⟩

/-! ## Where `select` waits -/

theorem recv_of {out : Out UInt8 Errno} {x y : Inbound UInt8 Errno} (h : x.recv readCap out = some y) :
    ∃ recv : ReadPaths.Recv, recvOut recv.out = out := by
  cases out with
  | data bytes =>
    have hne := (recv_length h).1
    exact ⟨⟨.data bytes, .eagain, by simpa using hne⟩, rfl⟩
  | eof => exact ⟨⟨.eof, .eagain, by simp⟩, rfl⟩
  | error e => exact ⟨⟨.error e, .eagain, by simp⟩, rfl⟩

theorem readConn_skip (s : Sys) (i : Slot) (hi : ¬ Reads r s i) : readConn r s i = some s := by
  simp only [readConn, readSlot, if_neg hi]

theorem readConns_one (hs : Inv c s.srv) (hr : r.rfds = {f}) (hn : s.srv.kern.ofd f = some n)
    (hrecv : ∀ i, (s.net.recv readCap (some n) (recvOut (r.recvs i).out)).isSome) :
    (readSlots.foldlM (readConn r) s).isSome := by
  refine scan_one readConn_skip readSlots_nodup fun i hif => ?_
  obtain ⟨net, hnet⟩ := Option.isSome_iff_exists.mp (hrecv i)
  have hfi : s.srv.fds i = f := by simpa [hr] using hif.2
  have h₁ : readConn r s i = some ⟨readSlot r.rfds r.reads s.srv i, net⟩ := by
    simp only [readConn]
    rw [if_pos hif, hfi, hn, hnet]
    rfl
  refine ⟨_, h₁, fun j hj => ?_⟩
  rw [reads_other h₁ hj, Reads, hr, Finset.mem_singleton]
  rintro ⟨hne, hjf⟩
  exact hj (hs.distinct j i hne (hjf.trans hfi.symm))

/-- Where `select` has something to report there is a round. -/
theorem round_exists (hs : Inv c s.srv) (hexit : s.srv.exited = false) (hf : Ready c s f) :
    ∃ r, (round c s r).isSome := by
  have hs₀ : Inv c s.raise.srv := hs.raise _
  by_cases hl : f = c.listenFd
  · let r : Round := ⟨{c.listenFd}, -1, fun _ => ⟨.eof, .eagain, by simp⟩⟩
    have haccept : acceptConn c s.raise r.acc = some s.raise := rfl
    have hskip : ∀ i ∈ readSlots, ¬ Reads r s.raise i :=
      (unread_iff hs₀ (Finset.singleton_nonempty _) (Finset.singleton_subset_iff.mpr (hl ▸ hf.1))).mpr rfl
    have hready : ∀ f ∈ r.rfds, Ready c s f := fun g hg => by rwa [Finset.mem_singleton.mp hg, ← hl]
    refine ⟨r, ?_⟩
    rw [round, if_pos ⟨hexit, Finset.singleton_nonempty _, hready⟩, if_pos (Finset.mem_singleton_self _), haccept,
      Option.bind_some, scan_skip readConn_skip hskip]
    rfl
  · obtain ⟨n, hn⟩ := hs.asked hf.1 hl
    have hread : (s.net.conn n).Readable := by simpa [Ready, hl, Sys.connOf, hn] using hf.2
    obtain ⟨out, x, hx⟩ := recv_exists (by decide : 0 < readCap) hread
    obtain ⟨recv, rfl⟩ := recv_of hx
    let r : Round := ⟨{f}, -1, fun _ => recv⟩
    have hrecv : (s.net.recv readCap (some n) (recvOut recv.out)).isSome := by simp [Net.recv, hx]
    have hready : ∀ f ∈ r.rfds, Ready c s f := fun g hg => by rwa [Finset.mem_singleton.mp hg]
    refine ⟨r, ?_⟩
    rw [round, if_pos ⟨hexit, Finset.singleton_nonempty _, hready⟩,
      if_neg (mt Finset.mem_singleton.mp (Ne.symm hl)), Option.bind_some]
    exact readConns_one hs₀ rfl hn fun _ => hrecv

/-- Where `select` has nothing to report, the stream server is at rest. -/
theorem rest_of_waiting (hs : Inv c s.srv) (ht : Shown s t) (hwait : ∀ f, ¬ Ready c s f) : Rest t := by
  have hin : ∀ i, s.srv.fds i ≠ -1 → s.srv.fds i ∈ fdSet s.srv.fds := by
    intro i hi
    simp [fdSet, hi]
  refine ⟨?_, fun n hn => ?_⟩
  · by_contra hb
    have hl : c.listenFd ∈ fdSet s.srv.fds := hs.listen ▸ hin 0 (hs.listen.symm ▸ c.listen_ne)
    exact hwait c.listenFd ⟨hl, by simpa [← ht.net] using hb⟩
  · obtain ⟨i, hi, hfree, hn⟩ := (ht.watched n).mp hn
    have hl : s.srv.fds i ≠ c.listenFd := by
      intro he
      have hown := (hs.notOwn _ n hn).1
      rw [he, c.listen_own] at hown
      cases hown
    intro hread
    refine hwait _ ⟨hin i hfree, ?_⟩
    rw [if_neg hl, Sys.connOf, hn, ← ht.net]
    exact hread

/-- The server is a stream server's, with all that holds of one. -/
def Served (c : Cfg) (s : Sys) : Prop := ∃ t, Shown s t ∧ StreamServer.Inv t ∧ Inv c s.srv

theorem round_lowers (hI : Served c s) (hok : ¬ OnlyFailedAccept c r) (hr : round c s r = some s') :
    Served c s' ∧ s'.work < s.work := by
  obtain ⟨t, ht, hinv, hs⟩ := hI
  obtain ⟨as, t', hrun, ht', hnil⟩ := round_shows hs ht hr
  have hinv' := (reach_of_runWhere hrun).invariant hinv fun _ _ _ hs _ hstep => StreamServer.step_inv hs hstep
  exact ⟨⟨t', ht', hinv', step_inv hs (round_srv hr)⟩, (ht.work_lt_iff ht' hinv hrun).mpr (mt hnil.mp hok)⟩

/-- **`serv_select` delivers.** In every run of `serv_select` and its
clients, whatever they send, close or reset: what is logged of a connection
is, in order, a prefix of what its client sent; and a connection is closed
only when it found the table full, was reset, or is logged whole to its end.
A round leaves less to do exactly when there is more to it than an `accept`
that fails; so without such rounds the server is back in `select` after at
most `work` of them, if nothing new happens. And there, having nothing to
report, unless `select` failed nobody waits and every stream is logged whole
but those refused or reset. -/
theorem select_delivers (h : Reach (sysStep c) Any (Sys.init c) s) :
    (∀ n, (s.net.logged n).flatten <+: (s.net.conn n).sent) ∧
    (∀ n < s.srv.kern.opened, s.srv.kern.closes n = 1 → Refused s.srv.calls n ∨ (s.net.conn n).broken = true ∨
      ((s.net.conn n).fin = true ∧ (s.net.logged n).flatten = (s.net.conn n).sent)) ∧
    (∀ r s', round c s r = some s' → (s'.work < s.work ↔ ¬ OnlyFailedAccept c r)) ∧
    (∀ rs s', runWhere (round c) (fun _ r => ¬ OnlyFailedAccept c r) s rs = some s' → rs.length ≤ s.work) ∧
    ((∀ r, round c s r = none) → s.srv.exited = true ∨ s.net.backlog = [] ∧ ∀ n < s.srv.kern.opened,
      ¬ Refused s.srv.calls n → (s.net.conn n).broken = false →
        (s.net.logged n).flatten = (s.net.conn n).sent) := by
  obtain ⟨t, hreach, ht, hs⟩ := reach_shows h
  have hinv := StreamServer.reach_inv hreach
  refine ⟨ht.logged_prefix hinv, fun n hn hclosed => ?_, fun r s' hr => ?_, fun rs s' hrun => ?_, fun hstuck => ?_⟩
  · exact ht.done hinv hn fun i _ _ => (FdTable.closes_eq_one_iff hn).mp hclosed _
  · obtain ⟨as, t', hrun, ht', hnil⟩ := round_shows hs ht hr
    exact (ht.work_lt_iff ht' hinv hrun).trans (not_congr hnil)
  · have hlen := runWhere_length_le (I := Served c) (m := Sys.work)
      (fun s r s' hI hok hr => round_lowers hI hok hr) ⟨t, ht, hinv, hs⟩ hrun
    omega
  · refine or_iff_not_imp_left.mpr fun hexit => ?_
    have hwait : ∀ f, ¬ Ready c s f := by
      intro f hf
      obtain ⟨r, hr⟩ := round_exists hs (Bool.not_eq_true _ ▸ hexit) hf
      rw [hstuck r] at hr
      cases hr
    have hrest := rest_of_waiting hs ht hwait
    exact ⟨ht.net ▸ hrest.1, fun n hn href hb => ht.whole hinv hrest hn href hb⟩

theorem twoBytes_ne : RecvOut.data [72, 105] ≠ .data [] := by decide

theorem endOfStream_ne : RecvOut.eof ≠ .data [] := by decide

/-- What `recv` returns for two bytes, and at the end of a stream. -/
def twoBytes : ReadPaths.Recv := ⟨.data [72, 105], .eagain, twoBytes_ne⟩

def endOfStream : ReadPaths.Recv := ⟨.eof, .eagain, endOfStream_ne⟩

/-- A client connects, is accepted on 5, sends and is read, and hangs up; another waits. -/
def demoSys : List SysAct :=
  [.client .connect, .round ⟨{3}, 5, fun _ => endOfStream⟩, .client (.peer 0 (.send [72, 105])), .timeout,
   .round ⟨{5}, -1, fun _ => twoBytes⟩, .client (.peer 0 .fin), .round ⟨{5}, -1, fun _ => endOfStream⟩,
   .client .connect]

theorem demoSys_run : (run (sysStep demoCfg) (Sys.init demoCfg) demoSys).isSome := by decide +kernel

/-- `select_delivers` at the end of `demoSys`. -/
theorem select_delivers_demo :
    let s := (run (sysStep demoCfg) (Sys.init demoCfg) demoSys).get demoSys_run
    (∀ n, (s.net.logged n).flatten <+: (s.net.conn n).sent) ∧
    (∀ n < s.srv.kern.opened, s.srv.kern.closes n = 1 → Refused s.srv.calls n ∨ (s.net.conn n).broken = true ∨
      ((s.net.conn n).fin = true ∧ (s.net.logged n).flatten = (s.net.conn n).sent)) ∧
    (∀ r s', round demoCfg s r = some s' → (s'.work < s.work ↔ ¬ OnlyFailedAccept demoCfg r)) ∧
    (∀ rs s', runWhere (round demoCfg) (fun _ r => ¬ OnlyFailedAccept demoCfg r) s rs = some s' →
      rs.length ≤ s.work) ∧
    ((∀ r, round demoCfg s r = none) → s.srv.exited = true ∨ s.net.backlog = [] ∧
      ∀ n < s.srv.kern.opened, ¬ Refused s.srv.calls n → (s.net.conn n).broken = false →
        (s.net.logged n).flatten = (s.net.conn n).sent) :=
  select_delivers (reach_get demoSys_run)

end Select

end LinuxServer
