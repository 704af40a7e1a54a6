/-
`serv_poll` with its clients: what they send, and what of it the server
logs (multi_connection_server.hpp).

As for `serv_select`, with one difference: a client accepted into a full
table is not closed but lost, open and never read again (`Lost`).
-/
import LinuxServer.PollSound
import LinuxServer.SelectDelivery

namespace LinuxServer.Poll

open SlotTable Lts TableServer Inbound StreamServer
open Select (Cfg)

/-- The server, and its connections under the names `srv.kern` gives them. -/
structure Sys where
  srv : St
  net : Net UInt8 Errno

def Sys.init (c : Cfg) (events revents : Slot → Flags) : Sys := ⟨Poll.init c events revents, .empty⟩

/-- The connection open on `f`, none being one with nothing to read. -/
def Sys.connOf (s : Sys) (f : Int) : Inbound UInt8 Errno :=
  match s.srv.kern.ofd f with
  | some n => s.net.conn n
  | none => .fresh

/-- `poll` has `POLLIN` to report for entry `i`. The end of a stream and an
error come with it too. -/
def Ready (s : Sys) (i : Slot) : Prop :=
  s.srv.fds i ≠ -1 ∧ if i = 0 then s.net.backlog ≠ [] else (s.connOf (s.srv.fds i)).Readable

instance (s : Sys) (i : Slot) : Decidable (Ready s i) :=
  inferInstanceAs (Decidable (s.srv.fds i ≠ -1 ∧
    if i = 0 then s.net.backlog ≠ [] else (s.connOf (s.srv.fds i)).Readable))

/-- What the kernel answers in a round with something to report. -/
structure Round where
  revents : Slot → Flags
  acc : Int
  recvs : Slot → ReadPaths.Recv

/-- Entry `i` is reported. -/
abbrev Round.Reports (r : Round) (i : Slot) : Prop := r.revents i &&& pollIn ≠ 0

/-- What `serv_read` returns for each slot. -/
def Round.reads (r : Round) (i : Slot) : ReadResult := ReadPaths.servRead (r.recvs i)

/-- The accept part of a round. -/
def acceptConn (c : Cfg) (s : Sys) (acc : Int) : Option Sys :=
  (acceptClient c s.srv acc).bind fun srv =>
    if acc < 0 then some { s with srv } else (s.net.accept s.srv.kern.opened).map fun net => ⟨srv, net⟩

/-- The read loop reads slot `i`: `pfds[i].fd != -1 && pfds[i].revents & POLLIN`. -/
abbrev Reads (s : Sys) (i : Slot) : Prop := s.srv.fds i ≠ -1 ∧ s.srv.revents i &&& pollIn ≠ 0

/-- One pass of the read loop's body. -/
def readConn (r : Round) (s : Sys) (i : Slot) : Option Sys :=
  let srv := readSlot r.reads s.srv i
  if Reads s i then
    (s.net.recv readCap (s.srv.kern.ofd (s.srv.fds i)) (recvOut (r.recvs i).out)).map fun net => ⟨srv, net⟩
  else some { s with srv }

/-- What `poll` writes. -/
def Sys.wrote (s : Sys) (r : Round) : Sys := { s with srv := { s.srv with revents := r.revents } }

/-- A round in which `poll` reports something: nothing for an entry whose
`fd` is negative. -/
def round (c : Cfg) (s : Sys) (r : Round) : Option Sys :=
  if s.srv.exited = false ∧ (∀ i, s.srv.fds i < 0 → r.revents i = 0) ∧ (∃ i, r.Reports i) ∧
      ∀ i, r.Reports i → Ready s i then
    (if r.Reports 0 then acceptConn c (s.wrote r) r.acc else some (s.wrote r)).bind fun s =>
      readSlots.foldlM (readConn r) s
  else none

/-- What can happen next: a client does something, or `poll` reports
something, times out or fails. -/
inductive SysAct
  | client (a : Client UInt8 Errno)
  | round (r : Round)
  | timeout
  | failed

def sysStep (c : Cfg) (s : Sys) : SysAct → Option Sys
  | .client a => some { s with net := s.net.client a }
  | .round r => round c s r
  | .timeout => (step c s.srv .timeout).map fun srv => { s with srv }
  | .failed => (step c s.srv .failed).map fun srv => { s with srv }

/-- Accepted with the table full, and left open outside it. -/
def Lost (s : St) (n : Nat) : Prop := ∃ f, s.kern.ofd f = some n ∧ ∀ i, s.fds i ≠ f

/-- What the server still has to do. -/
def Sys.work (s : Sys) : Nat := TableServer.work (-1) (· ≠ 0) s.srv.fds s.srv.kern s.net

/-- There is a connection to accept and nothing else, and `accept` fails. -/
def OnlyFailedAccept (r : Round) : Prop := (∀ i, r.Reports i → i = 0) ∧ r.acc < 0

instance (r : Round) : Decidable (OnlyFailedAccept r) := inferInstanceAs (Decidable ((∀ _, _ → _) ∧ _))

variable {c : Cfg} {s s' : Sys} {r : Round} {i : Slot} {todo : List Slot} {acc f : Int} {n : Nat}
  {t : StreamServer.St UInt8 Errno} {events₀ revents₀ : Slot → Flags}

/-! ## A round is one of `serv_poll`'s -/

theorem acceptConn_srv (h : acceptConn c s acc = some s') : acceptClient c s.srv acc = some s'.srv := by
  obtain ⟨srv, hsrv, h⟩ := Option.bind_eq_some_iff.mp h
  split at h
  · cases h
    exact hsrv
  · obtain ⟨net, -, rfl⟩ := Option.map_eq_some_iff.mp h
    exact hsrv

theorem readConn_srv (h : readConn r s i = some s') : s'.srv = readSlot r.reads s.srv i := by
  unfold readConn at h
  simp only at h
  split at h
  · obtain ⟨net, -, rfl⟩ := Option.map_eq_some_iff.mp h
    rfl
  · cases h
    rfl

theorem readConns_srv (h : todo.foldlM (readConn r) s = some s') :
    s'.srv = todo.foldl (readSlot r.reads) s.srv := by
  induction todo generalizing s with
  | nil =>
    cases h
    rfl
  | cons i todo ih =>
    rw [List.foldlM_cons] at h
    obtain ⟨s₁, h₁, h⟩ := Option.bind_eq_some_iff.mp h
    rw [ih h, readConn_srv h₁, List.foldl_cons]

theorem round_srv (h : round c s r = some s') : step c s.srv (.ready r.revents r.acc r.reads) = some s'.srv := by
  unfold round at h
  split at h
  · next hg =>
    obtain ⟨hexit, hneg, -, -⟩ := hg
    obtain ⟨s₁, h₁, h⟩ := Option.bind_eq_some_iff.mp h
    have haccept : (if r.Reports 0 then acceptClient c (s.wrote r).srv r.acc else some (s.wrote r).srv) =
        some s₁.srv := by
      split at h₁
      · next hl => rw [if_pos hl, acceptConn_srv h₁]
      · next hl =>
        cases h₁
        rw [if_neg hl]
    rw [readConns_srv h]
    unfold step
    rw [if_neg (by simp [hexit])]
    show (if ∀ i, s.srv.fds i < 0 → r.revents i = 0 then _ else none) = _
    rw [if_pos hneg]
    exact congrArg (Option.map _) haccept
  · cases h

theorem sysStep_inv {a : SysAct} (hs : Inv c s.srv) (h : sysStep c s a = some s') : Inv c s'.srv := by
  cases a with
  | client a =>
    cases h
    exact hs
  | round r => exact (step_inv hs (round_srv h)).1
  | timeout | failed =>
    obtain ⟨srv, hsrv, rfl⟩ := Option.map_eq_some_iff.mp h
    exact (step_inv hs hsrv).1

/-! ## A client accepted into a full table is lost for good -/

theorem readSlot_inv {srv : St} {reads : Slot → ReadResult} (hs : Inv c srv) (hi : i ≠ 0) :
    Inv c (readSlot reads srv i) := by
  obtain he | ⟨hne, -, he | he⟩ := readSlot_cases reads srv i <;> rw [he]
  · exact hs
  · exact ⟨hs.listen, hs.distinct, hs.entry, hs.asks, hs.notOwn⟩
  · exact hs.close hi _

section Lost

variable {srv srv' : St} {reads : Slot → ReadResult}

theorem Lost.accept (hl : Lost srv n) (h : acceptClient c srv acc = some srv') : Lost srv' n := by
  obtain ⟨g, hg, hnone⟩ := hl
  obtain ⟨-, rfl⟩ | ⟨hf, -, -, hcase⟩ := acceptClient_cases h
  · exact ⟨g, hg, hnone⟩
  have hga : g ≠ acc := by
    rintro rfl
    rw [hf] at hg
    cases hg
  obtain ⟨i, -, rfl⟩ | ⟨-, rfl⟩ := hcase
  · refine ⟨g, FdTable.alloc_ofd_old hf hg, fun j => ?_⟩
    by_cases hji : j = i
    · subst hji
      simpa using hga.symm
    · simpa [hji] using hnone j
  · exact ⟨g, FdTable.alloc_ofd_old hf hg, hnone⟩

theorem Lost.close (hl : Lost srv n) (hs : Inv c srv) (calls : List Call) : Lost { srv with
    fds := Function.update srv.fds i (-1)
    kern := srv.kern.close (srv.fds i)
    calls } n := by
  obtain ⟨g, hg, hnone⟩ := hl
  refine ⟨g, FdTable.close_ofd_some.mpr ⟨(hnone i).symm, hg⟩, fun j => ?_⟩
  by_cases hji : j = i
  · subst hji
    have hpos := (hs.notOwn g n hg).2
    simp only [Function.update_self]
    omega
  · simpa [hji] using hnone j

theorem Lost.read (hl : Lost srv n) (hs : Inv c srv) : Lost (readSlot reads srv i) n := by
  obtain he | ⟨-, -, he | he⟩ := readSlot_cases reads srv i <;> rw [he]
  · exact hl
  · exact hl
  · exact hl.close hs _

/-- The read loop, by induction on the slots still to be read. -/
theorem Lost.scan : ∀ {todo : List Slot} {srv : St}, 0 ∉ todo → Inv c srv → Lost srv n →
    Lost (todo.foldl (readSlot reads) srv) n
  | [], _, _, _, hl => hl
  | i :: todo, _, h0, hs, hl => by
    simp only [List.mem_cons, not_or] at h0
    rw [List.foldl_cons]
    exact Lost.scan h0.2 (readSlot_inv hs (Ne.symm h0.1)) (hl.read hs)

theorem step_parts {revents : Slot → Flags} (h : step c srv (.ready revents acc reads) = some srv') :
    ∃ srv₁, (if revents 0 &&& pollIn ≠ 0 then acceptClient c { srv with revents } acc
      else some { srv with revents }) = some srv₁ ∧ readSlots.foldl (readSlot reads) srv₁ = srv' := by
  unfold step at h
  split at h
  · cases h
  simp only [Option.ite_none_right_eq_some] at h
  obtain ⟨srv₁, h₁, rfl⟩ := Option.map_eq_some_iff.mp h.2
  exact ⟨srv₁, h₁, rfl⟩

theorem Lost.step {ans : Answer} (hl : Lost srv n) (hs : Inv c srv) (h : step c srv ans = some srv') :
    Lost srv' n := by
  cases ans with
  | ready revents acc reads =>
    obtain ⟨srv₁, h₁, rfl⟩ := step_parts h
    have hl₀ : Lost { srv with revents } n := hl
    split at h₁
    · exact Lost.scan zero_notMem_readSlots (acceptClient_inv (hs.wrote revents) h₁) (hl₀.accept h₁)
    · cases h₁
      exact Lost.scan zero_notMem_readSlots (hs.wrote revents) hl₀
  | timeout | failed =>
    unfold Poll.step at h
    split at h
    · cases h
    · cases h
      exact hl

/-- The next client is lost when every entry is in use. -/
theorem full_loses {revents : Slot → Flags} (hs : Inv c srv) (h : step c srv (.ready revents acc reads) = some srv')
    (hlisten : revents 0 &&& pollIn ≠ 0) (hacc : 0 ≤ acc) (hfull : ∀ i, srv.fds i ≠ -1) :
    Lost srv' srv.kern.opened := by
  obtain ⟨srv₁, h₁, rfl⟩ := step_parts h
  rw [if_pos hlisten] at h₁
  refine Lost.scan zero_notMem_readSlots (acceptClient_inv (hs.wrote revents) h₁) ?_
  obtain ⟨hfail, -⟩ | ⟨hf, hown, -, ⟨i, hi, -⟩ | ⟨-, rfl⟩⟩ := acceptClient_cases h₁
  · omega
  · exact absurd hi (hfull i)
  · exact ⟨acc, FdTable.alloc_ofd_self hf, hs.absent hf hown hacc⟩

end Lost

theorem sysStep_lost {a : SysAct} (hl : Lost s.srv n) (hs : Inv c s.srv) (h : sysStep c s a = some s') :
    Lost s'.srv n := by
  cases a with
  | client a =>
    cases h
    exact hl
  | round r => exact hl.step hs (round_srv h)
  | timeout | failed =>
    obtain ⟨srv, hsrv, rfl⟩ := Option.map_eq_some_iff.mp h
    exact hl.step hs hsrv

/-- The run lemma: lost in one state is lost, and never closed, in all after it. -/
theorem lost_stays (hl : Lost s.srv n) (hs : Inv c s.srv) (h : Reach (sysStep c) Any s s') :
    Lost s'.srv n ∧ s'.srv.kern.closes n = 0 := by
  have hend : Lost s'.srv n ∧ Inv c s'.srv := by
    refine h.invariant (I := fun s => Lost s.srv n ∧ Inv c s.srv) ⟨hl, hs⟩ fun s a s' hI _ hstep => ?_
    exact ⟨sysStep_lost hI.1 hI.2 hstep, sysStep_inv hI.2 hstep⟩
  obtain ⟨f, hf, -⟩ := hend.1
  exact ⟨hend.1, FdTable.closes_of_open hf⟩

/-! ## A round is a run of the stream server -/

/-- The server `t` is what `s` makes. -/
def Shown (s : Sys) (t : StreamServer.St UInt8 Errno) : Prop :=
  Shows (-1) (· ≠ 0) s.srv.fds s.srv.kern s.net (Lost s.srv) t

theorem acceptConn_shows (hs : Inv c s.srv) (ht : Shown s t) (h : acceptConn c s acc = some s') :
    ∃ as t', runWhere (StreamServer.step readCap) Own t as = some t' ∧ Shown s' t' ∧ (as = [] ↔ acc < 0) := by
  obtain ⟨srv, hsrv, h⟩ := Option.bind_eq_some_iff.mp h
  by_cases hneg : acc < 0
  · rw [if_pos hneg] at h
    cases h
    have hsame : srv = s.srv := by simpa [acceptClient, hneg] using hsrv.symm
    subst hsame
    exact ⟨[], t, rfl, ht, iff_of_true rfl hneg⟩
  rw [if_neg hneg] at h
  obtain ⟨net, hnet, rfl⟩ := Option.map_eq_some_iff.mp h
  have hne : acc ≠ -1 := by omega
  obtain ⟨hfail, -⟩ | ⟨hf, hown, hacc, hcase⟩ := acceptClient_cases hsrv
  · exact absurd hfail hneg
  have hmono : ∀ n, Lost s.srv n → Lost srv n := fun _ hl => hl.accept hsrv
  have habs := hs.absent hf hown hacc
  obtain ⟨i, hi, rfl⟩ | ⟨-, rfl⟩ := hcase
  · have hi0 : i ≠ 0 := by
      rintro rfl
      exact c.listen_ne (hs.listen ▸ hi)
    obtain ⟨t', hstep, ht'⟩ := ht.put readCap hi hi0 hne hf hnet hmono
    exact ⟨[.accept], t', run_own trivial hstep, ht', iff_of_false (List.cons_ne_nil _ _) hneg⟩
  · obtain ⟨t', hstep, ht'⟩ := ht.refuse readCap (fun j _ _ => FdTable.alloc_ofd_of_ne hf (habs j)) rfl hnet hmono
      ⟨acc, FdTable.alloc_ofd_self hf, habs⟩
    exact ⟨[.refuse], t', run_own trivial hstep, ht', iff_of_false (List.cons_ne_nil _ _) hneg⟩

theorem readConn_shows (hs : Inv c s.srv) (ht : Shown s t) (hi : i ≠ 0) (h : readConn r s i = some s') :
    ∃ as t', runWhere (StreamServer.step readCap) Own t as = some t' ∧ Shown s' t' ∧
      (as = [] ↔ ¬ Reads s i) := by
  unfold readConn readSlot at h
  simp only at h
  split at h
  · next hread =>
    obtain ⟨n, hn⟩ := hs.entry i hi hread.1
    rw [hn] at h
    obtain ⟨net, hnet, rfl⟩ := Option.map_eq_some_iff.mp h
    have hdrop : (r.reads i).drop = ends (r.recvs i).after.wouldBlock (recvOut (r.recvs i).out) := drop_eq_ends _
    rw [hdrop]
    -- whether the client is kept, as the test after `serv_read` sees it
    generalize (r.recvs i).after.wouldBlock = keep
    cases hends : ends keep (recvOut (r.recvs i).out) with
    | true =>
      obtain ⟨t', hstep, ht'⟩ := ht.close hi hread.1 hn hnet hends fun _ hl => hl.close hs _
      exact ⟨[.recv n (recvOut (r.recvs i).out) keep], t', run_own trivial hstep, ht',
        iff_of_false (List.cons_ne_nil _ _) (not_not_intro hread)⟩
    | false =>
      obtain ⟨t', hstep, ht'⟩ := ht.read hi hread.1 hn hnet hends fun _ => id
      exact ⟨[.recv n (recvOut (r.recvs i).out) keep], t', run_own trivial hstep, ht',
        iff_of_false (List.cons_ne_nil _ _) (not_not_intro hread)⟩
  · next hread =>
    cases h
    exact ⟨[], t, rfl, ht, iff_of_true rfl hread⟩

theorem readSlot_other (srv : St) (reads : Slot → ReadResult) {j : Slot} (hj : j ≠ i) :
    (readSlot reads srv i).fds j = srv.fds j ∧ (readSlot reads srv i).revents j = srv.revents j := by
  obtain he | ⟨-, -, he | he⟩ := readSlot_cases reads srv i <;> rw [he]
  · exact ⟨rfl, rfl⟩
  · exact ⟨rfl, rfl⟩
  · exact ⟨Function.update_of_ne hj _ _, rfl⟩

theorem reads_other {j : Slot} (h : readConn r s i = some s') (hj : j ≠ i) : Reads s' j ↔ Reads s j := by
  obtain ⟨hfds, hrev⟩ := readSlot_other s.srv r.reads hj
  rw [Reads, Reads, readConn_srv h, hfds, hrev]

theorem readConns_shows (hs : Inv c s.srv) (ht : Shown s t) (h : readSlots.foldlM (readConn r) s = some s') :
    ∃ as t', runWhere (StreamServer.step readCap) Own t as = some t' ∧ Shown s' t' ∧
      (as = [] ↔ ∀ i ∈ readSlots, ¬ Reads s i) := by
  refine (scan_shows (S := (· ≠ 0)) (I := fun s => Inv c s.srv) (fun s i s' t hs hi ht h => ⟨?_, ?_⟩)
    (fun _ _ _ _ => reads_other) hs ht readSlots_nodup (by simp [readSlots]) h).2
  · exact readConn_srv h ▸ readSlot_inv hs hi
  · exact readConn_shows hs ht hi h

theorem unread_iff (hready : ∀ i, r.Reports i → Ready s i) (hrev : s.srv.revents = r.revents) :
    (∀ i ∈ readSlots, ¬ Reads s i) ↔ ∀ i, r.Reports i → i = 0 := by
  constructor
  · intro hall i hi
    by_contra hi0
    exact hall i (by simp [readSlots, hi0]) ⟨(hready i hi).1, hrev ▸ hi⟩
  · intro hall i hi hread
    have hi0 : i ≠ 0 := by simpa [readSlots] using hi
    exact hi0 (hall i (by simpa only [Round.Reports, ← hrev] using hread.2))

/-- **A round is a run of the stream server**, of at least one action unless
an `accept` that fails is all there is to it. -/
theorem round_shows (hs : Inv c s.srv) (ht : Shown s t) (h : round c s r = some s') :
    ∃ as t', runWhere (StreamServer.step readCap) Own t as = some t' ∧ Shown s' t' ∧
      (as = [] ↔ OnlyFailedAccept r) := by
  unfold round at h
  split at h
  swap
  · cases h
  next hg =>
  obtain ⟨-, hneg, ⟨i, hi⟩, hready⟩ := hg
  have hs₀ : Inv c (s.wrote r).srv := hs.wrote _
  have ht₀ : Shown (s.wrote r) t := ht
  have honly : (∀ i ∈ readSlots, ¬ Reads (s.wrote r) i) ↔ ∀ i, r.Reports i → i = 0 := unread_iff hready rfl
  obtain ⟨s₁, h₁, h⟩ := Option.bind_eq_some_iff.mp h
  split at h₁
  · next hl =>
    obtain ⟨as, t₁, hrun, ht₁, hnil⟩ := acceptConn_shows hs₀ ht₀ h₁
    have hs₁ : Inv c s₁.srv := acceptClient_inv hs₀ (acceptConn_srv h₁)
    obtain ⟨bs, t₂, hrun', ht₂, hnil'⟩ := readConns_shows hs₁ ht₁ h
    refine ⟨as ++ bs, t₂, runWhere_append hrun hrun', ht₂, ?_⟩
    rw [List.append_eq_nil_iff, hnil, OnlyFailedAccept, and_comm]
    refine and_congr_left fun hneg => ?_
    have hsame : s₁.srv = (s.wrote r).srv := by simpa [acceptClient, hneg] using (acceptConn_srv h₁).symm
    simp only [← honly, hnil', Reads, hsame]
  · next hl =>
    cases h₁
    obtain ⟨bs, t₂, hrun', ht₂, hnil'⟩ := readConns_shows hs₀ ht₀ h
    refine ⟨bs, t₂, hrun', ht₂, hnil'.trans (honly.trans ⟨fun he => ?_, And.left⟩)⟩
    exact absurd (he i hi ▸ hi) hl

/-- Every state of `serv_poll` and its clients is one of the stream server's. -/
theorem reach_shows (h : Reach (sysStep c) Any (Sys.init c events₀ revents₀) s) :
    ∃ t, Reach (StreamServer.step readCap) Any StreamServer.init t ∧ Shown s t ∧ Inv c s.srv := by
  refine h.simulate (R := fun s t => Shown s t ∧ Inv c s.srv)
    ⟨⟨rfl, rfl, fun n => ?_, by simp [StreamServer.init]⟩, init_inv c _ _⟩ ?_
  · simp [StreamServer.init, Sys.init, Poll.init, FdTable.empty]
  intro s a s' t _ _ ht _ hstep
  obtain ⟨ht, hs⟩ := ht
  have hs' := sysStep_inv hs hstep
  cases a with
  | client a =>
    cases hstep
    obtain ⟨hstep, ht'⟩ := ht.client a
    exact ⟨_, .tail .refl trivial hstep, ht', hs'⟩
  | round r =>
    obtain ⟨as, t', hrun, ht', -⟩ := round_shows hs ht hstep
    exact ⟨t', (reach_of_runWhere hrun).any, ht', hs'⟩
  | timeout | failed =>
    obtain ⟨srv, hsrv, rfl⟩ := Option.map_eq_some_iff.mp hstep
    unfold step at hsrv
    split at hsrv
    · cases hsrv
    · cases hsrv
      exact ⟨t, .refl, ht, hs'⟩

/-! ## Where `poll` waits -/

theorem readConn_skip (s : Sys) (i : Slot) (hi : ¬ Reads s i) : readConn r s i = some s := by
  simp only [readConn, readSlot, if_neg hi]

/-- Only entry `i` is reported. -/
def reportOnly (i : Slot) : Slot → Flags := Function.update (fun _ => 0) i pollIn

theorem reportOnly_iff {j : Slot} : reportOnly i j &&& pollIn ≠ 0 ↔ j = i := by
  by_cases hji : j = i
  · subst hji
    simp [reportOnly, pollIn]
  · simp [reportOnly, hji]

theorem round_exists (hs : Inv c s.srv) (hexit : s.srv.exited = false) (hi : Ready s i) :
    ∃ r, (round c s r).isSome := by
  -- the round that reports `i` alone, with every `recv` giving `recv` and `accept` failing
  let r (recv : ReadPaths.Recv) : Round := ⟨reportOnly i, -1, fun _ => recv⟩
  have hpos : 0 ≤ s.srv.fds i := by
    by_cases hi0 : i = 0
    · rw [hi0, hs.listen]
      exact c.own_nonneg _ c.listen_own
    · obtain ⟨n, hn⟩ := hs.entry i hi0 hi.1
      exact (hs.notOwn _ n hn).2
  have hguard : ∀ recv, s.srv.exited = false ∧ (∀ j, s.srv.fds j < 0 → (r recv).revents j = 0) ∧
      (∃ j, (r recv).Reports j) ∧ ∀ j, (r recv).Reports j → Ready s j := by
    refine fun recv => ⟨hexit, fun j hj => ?_, ⟨i, reportOnly_iff.mpr rfl⟩, fun j hj => ?_⟩
    · have hji : j ≠ i := by
        rintro rfl
        omega
      simp [r, reportOnly, hji]
    · rwa [reportOnly_iff.mp hj]
  by_cases hi0 : i = 0
  · let recv : ReadPaths.Recv := ⟨.eof, .eagain, by simp⟩
    have haccept : acceptConn c (s.wrote (r recv)) (r recv).acc = some (s.wrote (r recv)) := rfl
    have hskip : ∀ j ∈ readSlots, ¬ Reads (s.wrote (r recv)) j := by
      intro j hj hread
      have hj0 : j ≠ 0 := by simpa [readSlots] using hj
      exact hj0 ((reportOnly_iff.mp hread.2).trans hi0)
    refine ⟨r recv, ?_⟩
    rw [round, if_pos (hguard recv), if_pos (reportOnly_iff.mpr hi0.symm), haccept, Option.bind_some,
      scan_skip readConn_skip hskip]
    rfl
  · obtain ⟨n, hn⟩ := hs.entry i hi0 hi.1
    have hread : (s.net.conn n).Readable := by simpa [Ready, hi0, Sys.connOf, hn] using hi.2
    obtain ⟨out, x, hx⟩ := recv_exists (by decide : 0 < readCap) hread
    obtain ⟨recv, rfl⟩ := Select.recv_of hx
    obtain ⟨net, hnet⟩ : ∃ net, s.net.recv readCap (some n) (recvOut recv.out) = some net := by
      simp [Net.recv, hx]
    refine ⟨r recv, ?_⟩
    rw [round, if_pos (hguard recv), if_neg (fun h => hi0 (reportOnly_iff.mp h).symm), Option.bind_some]
    refine scan_one readConn_skip readSlots_nodup fun j hj => ?_
    obtain rfl : j = i := reportOnly_iff.mp hj.2
    have h₁ : readConn (r recv) (s.wrote (r recv)) j =
        some ⟨readSlot (r recv).reads (s.wrote (r recv)).srv j, net⟩ := by
      simp only [readConn]
      rw [if_pos hj]
      exact congrArg (Option.map _) (hn.symm ▸ hnet)
    refine ⟨_, h₁, fun k hk => ?_⟩
    rw [reads_other h₁ hk]
    exact fun hread => hk (reportOnly_iff.mp hread.2)

theorem rest_of_waiting (hs : Inv c s.srv) (ht : Shown s t) (hwait : ∀ i, ¬ Ready s i) : Rest t := by
  refine ⟨?_, fun n hn => ?_⟩
  · by_contra hb
    exact hwait 0 ⟨hs.listen.symm ▸ c.listen_ne, by simpa [← ht.net] using hb⟩
  · obtain ⟨i, hi, hfree, hn⟩ := (ht.watched n).mp hn
    intro hread
    refine hwait i ⟨hfree, ?_⟩
    rw [if_neg hi, Sys.connOf, hn, ← ht.net]
    exact hread

/-- The server is a stream server's, with all that holds of one. -/
def Served (c : Cfg) (s : Sys) : Prop := ∃ t, Shown s t ∧ StreamServer.Inv t ∧ Inv c s.srv

theorem round_lowers (hI : Served c s) (hok : ¬ OnlyFailedAccept r) (hr : round c s r = some s') :
    Served c s' ∧ s'.work < s.work := by
  obtain ⟨t, ht, hinv, hs⟩ := hI
  obtain ⟨as, t', hrun, ht', hnil⟩ := round_shows hs ht hr
  have hinv' := (reach_of_runWhere hrun).invariant hinv fun _ _ _ hs _ hstep => StreamServer.step_inv hs hstep
  exact ⟨⟨t', ht', hinv', (step_inv hs (round_srv hr)).1⟩, (ht.work_lt_iff ht' hinv hrun).mpr (mt hnil.mp hok)⟩

/-- **`serv_poll` delivers to all it has an entry for.** In every run of
`serv_poll` and its clients, whatever they send, close or reset: what is
logged of a connection is, in order, a prefix of what its client sent; and a
connection is closed only when it was reset, or is logged whole to its end.
One accepted with every entry in use is lost, and from then on never closed.
A round leaves less to do exactly when there is more to it than an `accept`
that fails; so without such rounds the server is back in `poll` after at
most `work` of them, if nothing new happens. And there, having nothing to
report, unless `poll` failed nobody waits and every stream is logged whole
but those reset and those of lost clients. -/
theorem poll_delivers (h : Reach (sysStep c) Any (Sys.init c events₀ revents₀) s) :
    (∀ n, (s.net.logged n).flatten <+: (s.net.conn n).sent) ∧
    (∀ n < s.srv.kern.opened, s.srv.kern.closes n = 1 → (s.net.conn n).broken = true ∨
      ((s.net.conn n).fin = true ∧ (s.net.logged n).flatten = (s.net.conn n).sent)) ∧
    (∀ r s', round c s r = some s' → r.Reports 0 → 0 ≤ r.acc → (∀ i, s.srv.fds i ≠ -1) →
      Lost s'.srv s.srv.kern.opened) ∧
    (∀ n, Lost s.srv n → ∀ s', Reach (sysStep c) Any s s' → Lost s'.srv n ∧ s'.srv.kern.closes n = 0) ∧
    (∀ r s', round c s r = some s' → (s'.work < s.work ↔ ¬ OnlyFailedAccept r)) ∧
    (∀ rs s', runWhere (round c) (fun _ r => ¬ OnlyFailedAccept r) s rs = some s' → rs.length ≤ s.work) ∧
    ((∀ r, round c s r = none) → s.srv.exited = true ∨ s.net.backlog = [] ∧ ∀ n < s.srv.kern.opened,
      ¬ Lost s.srv n → (s.net.conn n).broken = false → (s.net.logged n).flatten = (s.net.conn n).sent) := by
  obtain ⟨t, hreach, ht, hs⟩ := reach_shows h
  have hinv := StreamServer.reach_inv hreach
  refine ⟨ht.logged_prefix hinv, fun n hn hclosed => ?_, fun r s' hr => full_loses hs (round_srv hr),
    fun n hl s' hs' => lost_stays hl hs hs', fun r s' hr => ?_, fun rs s' hrun => ?_, fun hstuck => ?_⟩
  · have hout := (FdTable.closes_eq_one_iff hn).mp hclosed
    refine (ht.done hinv hn fun i _ _ => hout _).resolve_left ?_
    rintro ⟨f, hf, -⟩
    exact hout f hf
  · obtain ⟨as, t', hrun, ht', hnil⟩ := round_shows hs ht hr
    exact (ht.work_lt_iff ht' hinv hrun).trans (not_congr hnil)
  · have hlen := runWhere_length_le (I := Served c) (m := Sys.work)
      (fun s r s' hI hok hr => round_lowers hI hok hr) ⟨t, ht, hinv, hs⟩ hrun
    omega
  · refine or_iff_not_imp_left.mpr fun hexit => ?_
    have hwait : ∀ i, ¬ Ready s i := by
      intro i hi
      obtain ⟨r, hr⟩ := round_exists hs (Bool.not_eq_true _ ▸ hexit) hi
      rw [hstuck r] at hr
      cases hr
    have hrest := rest_of_waiting hs ht hwait
    exact ⟨ht.net ▸ hrest.1, fun n hn href hb => ht.whole hinv hrest hn href hb⟩

/-- A client connects, gets entry 1 and sends; another waits. -/
def demoSys : List SysAct :=
  [.client .connect, .round ⟨reportOnly 0, 5, fun _ => Select.endOfStream⟩, .client (.peer 0 (.send [72, 105])),
   .client .connect]

def demoStart : Sys := Sys.init Select.demoCfg (fun _ => 0) fun _ => 0

theorem demoSys_run : (run (sysStep Select.demoCfg) demoStart demoSys).isSome := by decide +kernel

/-- `poll_delivers` at the end of `demoSys`. -/
theorem poll_delivers_demo :
    let s := (run (sysStep Select.demoCfg) demoStart demoSys).get demoSys_run
    (∀ n, (s.net.logged n).flatten <+: (s.net.conn n).sent) ∧
    (∀ n < s.srv.kern.opened, s.srv.kern.closes n = 1 → (s.net.conn n).broken = true ∨
      ((s.net.conn n).fin = true ∧ (s.net.logged n).flatten = (s.net.conn n).sent)) ∧
    (∀ r s', round Select.demoCfg s r = some s' → r.Reports 0 → 0 ≤ r.acc → (∀ i, s.srv.fds i ≠ -1) →
      Lost s'.srv s.srv.kern.opened) ∧
    (∀ n, Lost s.srv n → ∀ s', Reach (sysStep Select.demoCfg) Any s s' →
      Lost s'.srv n ∧ s'.srv.kern.closes n = 0) ∧
    (∀ r s', round Select.demoCfg s r = some s' → (s'.work < s.work ↔ ¬ OnlyFailedAccept r)) ∧
    (∀ rs s', runWhere (round Select.demoCfg) (fun _ r => ¬ OnlyFailedAccept r) s rs = some s' →
      rs.length ≤ s.work) ∧
    ((∀ r, round Select.demoCfg s r = none) → s.srv.exited = true ∨ s.net.backlog = [] ∧
      ∀ n < s.srv.kern.opened, ¬ Lost s.srv n → (s.net.conn n).broken = false →
        (s.net.logged n).flatten = (s.net.conn n).sent) :=
  poll_delivers (reach_get demoSys_run)

end LinuxServer.Poll
