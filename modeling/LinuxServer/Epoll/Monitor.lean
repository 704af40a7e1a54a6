/-
The three views of the client connections: open in the kernel, registered
in `epfd`, and listed in `ep_fds`.

`ep_msg_worker_func` closes its descriptor before it takes the mutex, and
removes the number from `epfd` and `ep_fds` later, so an accept in between
can add the number again and have it removed. `AddSafe` is the condition on
EPOLL_CTL_ADD under which the views agree.
-/
import LinuxServer.Epoll.Server

namespace LinuxServer.Epoll

open Lts

/-- The number a worker closed and has not yet removed. -/
def WorkerPc.closingFd : WorkerPc → Option Nat
  | .toLock t | .toDel t | .toErase t => some t.fd
  | .idle | .msgRecv _ | .msgRead _ _ _ _ | .toClose _ | .sigRecv | .sigGot _ => none

/-- Some worker is between its `close` of the number and the end of its CLOSE_FD section. -/
def Closing (c : Cfg) (s : St) (fd : Nat) : Prop := ∃ w < c.concurCount, (s.workers w).closingFd = some fd

instance (c : Cfg) (s : St) (fd : Nat) : Decidable (Closing c s fd) :=
  inferInstanceAs (Decidable (∃ w < c.concurCount, _))

/-- Accepted by the main thread, and not yet added or refused. -/
def MainPc.inHand : MainPc → Option Nat
  | .accepted fd _ _ | .locked fd _ _ => some fd
  | .top | .toWait | .waiting | .batch _ | .added _ _ _ | .closing _ | .visiting _ _ | .exited _ | .crashed => none

/-- Added, and not yet inserted into `ep_fds`. -/
def MainPc.adding : MainPc → Option Nat
  | .added fd _ _ => some fd
  | .top | .toWait | .waiting | .batch _ | .accepted _ _ _ | .locked _ _ _ | .closing _ | .visiting _ _ | .exited _
  | .crashed => none

/-- In the `while` loop, outside `ep_accept_worker_func`. -/
def MainPc.inLoop : MainPc → Bool
  | .top | .toWait | .waiting | .batch _ => true
  | .accepted _ _ _ | .locked _ _ _ | .added _ _ _ | .closing _ | .visiting _ _ | .exited _ | .crashed => false

/-- At EPOLL_CTL_ADD the number is open if and only if no worker is still to remove it. -/
def AddSafe (c : Cfg) (s : St) : Act → Prop
  | .main .add =>
    match s.main.inHand with
    | none => True
    | some fd => s.epFds.card < epollFdsLen → ((s.kern.ofd fd).isSome ↔ ¬ Closing c s fd)
  | _ => True

instance (c : Cfg) (s : St) (a : Act) : Decidable (AddSafe c s a) := by
  unfold AddSafe
  split
  · split <;> infer_instance
  · infer_instance

/-! ## The mutex -/

def MainPc.holds : MainPc → Bool
  | .waiting | .locked _ _ _ | .added _ _ _ => true
  | .top | .toWait | .batch _ | .accepted _ _ _ | .closing _ | .visiting _ _ | .exited _ | .crashed => false

def WorkerPc.holds : WorkerPc → Bool
  | .toDel _ | .toErase _ => true
  | .idle | .msgRecv _ | .msgRead _ _ _ _ | .toClose _ | .toLock _ | .sigRecv | .sigGot _ => false

theorem nextPc_idle (c : Cfg) (t : Task) (out : RecvOut) (errno : Errno) :
    (nextPc c t out errno).holds = false ∧ (nextPc c t out errno).closingFd = none := by
  rcases nextPc_cases c t out errno with h | h | h <;> rw [h] <;> exact ⟨rfl, rfl⟩

theorem inSig_idle {pc : WorkerPc} (h : pc = .idle ∨ pc.inSig = true) :
    pc.holds = false ∧ pc.closingFd = none := by
  cases pc <;> simp_all [WorkerPc.inSig, WorkerPc.holds, WorkerPc.closingFd]

/-- Who is in a section under `epfd_mutex` has it. -/
structure Excl (s : St) : Prop where
  main : s.main.holds = true → s.mutex = some .main
  worker : ∀ w, (s.workers w).holds = true → s.mutex = some (.worker w)

theorem init_excl (c : Cfg) : Excl (init c) := by
  constructor <;> simp [init, MainPc.holds, WorkerPc.holds]

theorem Excl.moveMain {s s' : St} (h : Excl s) (hmutex : s'.mutex = s.mutex) (hworkers : s'.workers = s.workers)
    (hmain : s'.main.holds = true → s.main.holds = true) : Excl s' :=
  ⟨fun hm => hmutex ▸ h.main (hmain hm), fun w hw => hmutex ▸ h.worker w (hworkers ▸ hw)⟩

theorem Excl.moveWorker {s s' : St} {w : Nat} {pc : WorkerPc} (h : Excl s) (hmutex : s'.mutex = s.mutex)
    (hworkers : s'.workers = (s.setWorker w pc).workers) (hmain : s'.main = s.main)
    (hpc : pc.holds = true → (s.workers w).holds = true) : Excl s' := by
  refine ⟨fun hm => hmutex ▸ h.main (hmain ▸ hm), ?_⟩
  rw [hmutex, hworkers]
  exact forall_setWorker (P := fun w' p => p.holds = true → s.mutex = some (.worker w'))
    (fun hp => h.worker w (hpc hp)) fun w' _ => h.worker w'

theorem Excl.mainLock {s s' : St} (h : Excl s) (hfree : s.mutex = none) (hmutex : s'.mutex = some .main)
    (hworkers : s'.workers = s.workers) : Excl s' := by
  refine ⟨fun _ => hmutex, fun w hw => ?_⟩
  have := h.worker w (hworkers ▸ hw)
  rw [hfree] at this
  cases this

theorem Excl.mainUnlock {s s' : St} (h : Excl s) (hheld : s.main.holds = true) (hmain : s'.main.holds = false)
    (hworkers : s'.workers = s.workers) : Excl s' := by
  refine ⟨fun hm => ?_, fun w hw => ?_⟩
  · rw [hmain] at hm; cases hm
  · have hm := h.main hheld
    rw [h.worker w (hworkers ▸ hw)] at hm
    cases hm

theorem Excl.workerLock {s s' : St} {w : Nat} {pc : WorkerPc} (h : Excl s) (hfree : s.mutex = none)
    (hmutex : s'.mutex = some (.worker w)) (hworkers : s'.workers = (s.setWorker w pc).workers)
    (hmain : s'.main = s.main) : Excl s' := by
  refine ⟨fun hm => ?_, ?_⟩
  · have := h.main (hmain ▸ hm)
    rw [hfree] at this; cases this
  · rw [hmutex, hworkers]
    refine forall_setWorker (P := fun w' p => p.holds = true → some (.worker w) = some (Holder.worker w'))
      (fun _ => rfl) fun w' _ hw => ?_
    have := h.worker w' hw
    rw [hfree] at this; cases this

theorem Excl.workerUnlock {s s' : St} {w : Nat} {pc : WorkerPc} (h : Excl s)
    (hheld : (s.workers w).holds = true) (hpc : pc.holds = false)
    (hworkers : s'.workers = (s.setWorker w pc).workers) (hmain : s'.main = s.main) : Excl s' := by
  have hmine := h.worker w hheld
  refine ⟨fun hm => ?_, ?_⟩
  · have := h.main (hmain ▸ hm)
    rw [hmine] at this; cases this
  · rw [hworkers]
    refine forall_setWorker (P := fun w' p => p.holds = true → s'.mutex = some (.worker w'))
      (fun hp => ?_) fun w' hne hw => ?_
    · rw [hpc] at hp; cases hp
    · have := h.worker w' hw
      rw [hmine] at this
      cases this
      exact absurd rfl hne

theorem step_excl {c : Cfg} {s s' : St} {a : Act} (h : Excl s) (hs : Step c s a s') : Excl s' := by
  cases hs with
  | loop _ =>
    refine h.moveMain rfl rfl fun hm => ?_
    simp only at hm
    split at hm <;> cases hm
  | epollFail _ _ | batchDone _ | acceptFail _ | accept _ _ _ | dispatch _ | advance _ | closeNext _ | exit _
  | crash _ => exact h.moveMain rfl rfl (by simp [MainPc.holds])
  | lockWait _ hfree | lockAdd _ hfree => exact h.mainLock hfree rfl rfl
  | epollWait _ hm _ | refuse hm | insert hm =>
    exact h.mainUnlock (by simp [hm, MainPc.holds]) rfl rfl
  | add hm _ =>
    refine h.moveMain ?_ ?_ fun _ => by simp [hm, MainPc.holds]
    · unfold epollAdd; split <;> rfl
    · unfold epollAdd; split <;> rfl
  | take _ _ _ | takeSig _ _ _ | recv _ _ _ => exact h.moveWorker rfl rfl rfl (by simp [WorkerPc.holds])
  | close _ _ => exact h.moveWorker rfl rfl rfl (by simp [WorkerPc.holds])
  | test _ _ => exact h.moveWorker rfl rfl rfl (by simp [nextPc_idle])
  | lock _ _ hfree => exact h.workerLock hfree rfl rfl rfl
  | del _ hpc => exact h.moveWorker rfl rfl rfl fun _ => by simp [hpc, WorkerPc.holds]
  | erase _ hpc => exact h.workerUnlock (by simp [hpc, WorkerPc.holds]) rfl rfl rfl
  | sig _ _ _ _ hpc => exact h.moveWorker rfl rfl rfl (by simp [inSig_idle hpc])
  | env _ _ _ => exact h.moveMain rfl rfl id

/-! ## The views -/

/-- While the loop runs: an open connection is in the main thread's hand, or
registered, listed (or about to be) and not about to be removed; a listed
number that is not open, or is in the main thread's hand, is about to be
removed. -/
structure Inv (c : Cfg) (s : St) : Prop where
  opened : ∀ fd n, s.kern.ofd fd = some n → s.main.inHand = some fd ∨
    (fd ∈ s.epoll ∧ ¬ Closing c s fd ∧ (fd ∈ s.epFds ∨ s.main.adding = some fd))
  registered : ∀ fd ∈ s.epoll, fd = c.listenFd ∨ fd = c.sigPipeFd ∨ (s.kern.ofd fd).isSome = true
  listed : ∀ fd ∈ s.epFds, fd = c.listenFd ∨ fd = c.sigPipeFd ∨
    ((s.kern.ofd fd).isSome = true ∧ s.main.inHand ≠ some fd) ∨ Closing c s fd
  adding : ∀ fd, s.main.adding = some fd →
    ((s.kern.ofd fd).isSome = true ∨ Closing c s fd) ∧ s.epFds.card < epollFdsLen
  card : s.epFds.card ≤ epollFdsLen

theorem init_inv (c : Cfg) : Inv c (init c) := by
  refine ⟨by simp [init, FdTable.empty], fun fd hfd => ?_, fun fd hfd => ?_, by simp [init, MainPc.adding], ?_⟩
  · simp only [init, Finset.mem_insert, Finset.mem_singleton] at hfd
    exact hfd.imp_right .inl
  · simp only [init, Finset.mem_insert, Finset.mem_singleton] at hfd
    exact hfd.imp_right .inl
  · have hcard : (init c).epFds.card ≤ 2 := Finset.card_le_two
    exact Nat.le_trans hcard (by decide)

theorem closing_congr {c : Cfg} {s s' : St} (h : ∀ w, (s'.workers w).closingFd = (s.workers w).closingFd)
    (fd : Nat) : Closing c s' fd ↔ Closing c s fd := by
  simp only [Closing, h]

theorem closing_setWorker {c : Cfg} {s s' : St} {w : Nat} {pc : WorkerPc}
    (hworkers : s'.workers = (s.setWorker w pc).workers) (hpc : pc.closingFd = (s.workers w).closingFd)
    (fd : Nat) : Closing c s' fd ↔ Closing c s fd := by
  refine closing_congr ?_ fd
  rw [hworkers]
  exact forall_setWorker (P := fun w' p => p.closingFd = (s.workers w').closingFd) hpc fun _ _ => rfl

theorem Inv.frame {c : Cfg} {s s' : St} (h : Inv c s)
    (hsame : (s'.kern, s'.epoll, s'.epFds) = (s.kern, s.epoll, s.epFds))
    (hmain : (s'.main.inHand, s'.main.adding) = (s.main.inHand, s.main.adding))
    (hclosing : ∀ fd, Closing c s' fd ↔ Closing c s fd) : Inv c s' := by
  simp only [Prod.mk.injEq] at hsame hmain
  obtain ⟨hkern, hepoll, hepFds⟩ := hsame
  obtain ⟨hhand, hadding⟩ := hmain
  constructor <;> simp only [hkern, hepoll, hepFds, hhand, hadding, hclosing]
  · exact h.opened
  · exact h.registered
  · exact h.listed
  · exact h.adding
  · exact h.card

/-- The accepted number is open and in hand; if it is still listed, a worker is about to remove it. -/
theorem Inv.accept {c : Cfg} {s : St} {fd : Nat} {events : List Event} (h : Inv c s)
    (hf : s.kern.ofd fd = none) (hhand : s.main.inHand = none) (hadding : s.main.adding = none) :
    Inv c { s with main := .accepted fd (some s.kern.opened) events, kern := s.kern.alloc fd hf } := by
  refine ⟨fun g n hg => ?_, fun g hg => ?_, fun g hg => ?_, by simp [MainPc.adding], h.card⟩
  · rcases FdTable.alloc_ofd_cases hf hg with ⟨rfl, -⟩ | ⟨-, hold⟩
    · exact .inl rfl
    · rcases h.opened g n hold with hh | hreg
      · rw [hhand] at hh; cases hh
      · rw [hadding] at hreg
        exact .inr ⟨hreg.1, hreg.2.1, .inl (hreg.2.2.resolve_right (by simp))⟩
  · rcases h.registered g hg with hl | hl | hopen
    · exact .inl hl
    · exact .inr (.inl hl)
    · obtain ⟨n, hn⟩ := Option.isSome_iff_exists.mp hopen
      exact .inr (.inr (by simp [FdTable.alloc_ofd_old hf hn]))
  · rcases h.listed g hg with hl | hl | ⟨hopen, -⟩ | hclosing
    · exact .inl hl
    · exact .inr (.inl hl)
    · obtain ⟨n, hn⟩ := Option.isSome_iff_exists.mp hopen
      have hgf : g ≠ fd := fun he => by rw [he, hf] at hn; cases hn
      refine .inr (.inr (.inl ⟨by simp [FdTable.alloc_ofd_old hf hn], ?_⟩))
      simpa [MainPc.inHand] using hgf.symm
    · exact .inr (.inr (.inr hclosing))

theorem Inv.listed_cases {c : Cfg} {s : St} {g : Nat} (h : Inv c s) (hg : g ∈ s.epFds) :
    g = c.listenFd ∨ g = c.sigPipeFd ∨ (s.kern.ofd g).isSome = true ∨ Closing c s g := by
  rcases h.listed g hg with hl | hl | ⟨hopen, -⟩ | hclosing
  · exact .inl hl
  · exact .inr (.inl hl)
  · exact .inr (.inr (.inl hopen))
  · exact .inr (.inr (.inr hclosing))

theorem Inv.opened_other {c : Cfg} {s : St} {fd g n : Nat} (h : Inv c s) (hhand : s.main.inHand = some fd)
    (hadding : s.main.adding = none) (hg : s.kern.ofd g = some n) (hne : g ≠ fd) :
    g ∈ s.epoll ∧ ¬ Closing c s g ∧ g ∈ s.epFds := by
  rcases h.opened g n hg with hh | ⟨hreg, hno, hin⟩
  · rw [hhand, Option.some.injEq] at hh
    exact absurd hh.symm hne
  · exact ⟨hreg, hno, hin.resolve_right (by simp [hadding])⟩

/-- EPOLL_CTL_ADD of a number that was closed while in hand: it fails. -/
theorem Inv.addClosed {c : Cfg} {s : St} {fd : Nat} {conn : Option Nat} {events : List Event} (h : Inv c s)
    (hhand : s.main.inHand = some fd) (hadding : s.main.adding = none) (hcard : s.epFds.card < epollFdsLen)
    (hnone : s.kern.ofd fd = none) (hclosing : Closing c s fd) :
    Inv c { s with main := .added fd conn events } := by
  refine ⟨fun g n hg => .inr ?_, h.registered, fun g hg => ?_, fun g hg => ?_, h.card⟩
  · have hne : g ≠ fd := by
      intro he
      have hg' : s.kern.ofd g = some n := hg
      rw [he, hnone] at hg'; cases hg'
    obtain ⟨hreg, hno, hin⟩ := h.opened_other hhand hadding hg hne
    exact ⟨hreg, hno, .inl hin⟩
  · refine (h.listed_cases hg).imp_right (Or.imp_right (Or.imp_left fun hopen => ?_))
    exact ⟨hopen, by simp [MainPc.inHand]⟩
  · cases hg
    exact ⟨.inr hclosing, hcard⟩

theorem Inv.addOpen {c : Cfg} {s : St} {fd : Nat} {conn : Option Nat} {events : List Event} {edge : Nat → Bool}
    (h : Inv c s) (hhand : s.main.inHand = some fd) (hadding : s.main.adding = none)
    (hcard : s.epFds.card < epollFdsLen) (hopen : (s.kern.ofd fd).isSome = true) (hno : ¬ Closing c s fd) :
    Inv c { s with main := .added fd conn events, epoll := Insert.insert fd s.epoll, edge := edge } := by
  refine ⟨fun g n hg => .inr ?_, fun g hg => ?_, fun g hg => ?_, fun g hg => ?_, h.card⟩
  · by_cases hne : g = fd
    · subst hne
      exact ⟨Finset.mem_insert_self _ _, hno, .inr rfl⟩
    · obtain ⟨hreg, hno', hin⟩ := h.opened_other hhand hadding hg hne
      exact ⟨Finset.mem_insert_of_mem hreg, hno', .inl hin⟩
  · rcases Finset.mem_insert.mp hg with rfl | hreg
    · exact .inr (.inr hopen)
    · exact h.registered g hreg
  · refine (h.listed_cases hg).imp_right (Or.imp_right (Or.imp_left fun hopen' => ?_))
    exact ⟨hopen', by simp [MainPc.inHand]⟩
  · cases hg
    exact ⟨.inl hopen, hcard⟩

/-- EPOLL_CTL_ADD, where the number is open if and only if no worker is about to remove it. -/
theorem Inv.add {c : Cfg} {s : St} {fd : Nat} {conn : Option Nat} {events : List Event} (h : Inv c s)
    (hhand : s.main.inHand = some fd) (hadding : s.main.adding = none) (hcard : s.epFds.card < epollFdsLen)
    (hsafe : (s.kern.ofd fd).isSome ↔ ¬ Closing c s fd) :
    Inv c { epollAdd s fd with main := .added fd conn events } := by
  unfold epollAdd
  split
  · next hnone =>
    refine h.addClosed hhand hadding hcard hnone ?_
    by_contra hno
    have hopen := hsafe.mpr hno
    simp [hnone] at hopen
  · next hsome =>
    have hopen : (s.kern.ofd fd).isSome = true := Option.isSome_iff_ne_none.mpr hsome
    exact h.addOpen hhand hadding hcard hopen (hsafe.mp hopen)

theorem Inv.refuse {c : Cfg} {s : St} {fd : Nat} {conn : Option Nat} {events : List Event} (h : Inv c s)
    (hhand : s.main.inHand = some fd) (hadding : s.main.adding = none) :
    Inv c { closeFd s fd conn with main := .batch events, mutex := none } := by
  refine ⟨fun g n hg => .inr ?_, fun g hg => ?_, fun g hg => ?_, by simp [MainPc.adding], h.card⟩
  · obtain ⟨hne, hold⟩ := FdTable.close_ofd_some.mp hg
    obtain ⟨hreg, hno, hin⟩ := h.opened_other hhand hadding hold hne
    exact ⟨Finset.mem_erase.mpr ⟨hne, hreg⟩, hno, .inl hin⟩
  · obtain ⟨hne, hreg⟩ := Finset.mem_erase.mp hg
    simp only [closeFd, FdTable.close_ofd_of_ne hne]
    exact h.registered g hreg
  · rcases h.listed g hg with hl | hl | ⟨hopen, hno⟩ | hcl
    · exact .inl hl
    · exact .inr (.inl hl)
    · have hne : g ≠ fd := fun he => hno (he ▸ hhand)
      refine .inr (.inr (.inl ⟨?_, by simp [MainPc.inHand]⟩))
      simpa only [closeFd, FdTable.close_ofd_of_ne hne] using hopen
    · exact .inr (.inr (.inr hcl))

theorem Inv.insert {c : Cfg} {s : St} {fd : Nat} {events : List Event} (h : Inv c s)
    (hhand : s.main.inHand = none) (hadding : s.main.adding = some fd) :
    Inv c { s with main := .batch events, mutex := none, epFds := insert fd s.epFds } := by
  obtain ⟨hfd, hcard⟩ := h.adding fd hadding
  refine ⟨fun g n hg => .inr ?_, h.registered, fun g hg => ?_, by simp [MainPc.adding], ?_⟩
  · rcases h.opened g n hg with hh | ⟨hreg, hno, hin⟩
    · rw [hhand] at hh; cases hh
    · refine ⟨hreg, hno, .inl ?_⟩
      rcases hin with hin | hadd
      · exact Finset.mem_insert_of_mem hin
      · rw [hadding, Option.some.injEq] at hadd
        exact hadd ▸ Finset.mem_insert_self _ _
  · rcases Finset.mem_insert.mp hg with rfl | hin
    · rcases hfd with hopen | hcl
      · exact .inr (.inr (.inl ⟨hopen, by simp [MainPc.inHand]⟩))
      · exact .inr (.inr (.inr hcl))
    · refine (h.listed_cases hin).imp_right (Or.imp_right (Or.imp_left fun hopen => ?_))
      exact ⟨hopen, by simp [MainPc.inHand]⟩
  · have hle := Finset.card_insert_le fd s.epFds
    simp only
    omega

theorem Inv.close {c : Cfg} {s : St} {w : Nat} {t : Task} (h : Inv c s) (hw : w < c.concurCount)
    (hpc : s.workers w = .toClose t) : Inv c ((closeFd s t.fd t.conn).setWorker w (.toLock t)) := by
  have hclosing : ∀ g, Closing c ((closeFd s t.fd t.conn).setWorker w (.toLock t)) g ↔
      g = t.fd ∨ Closing c s g := by
    intro g
    constructor
    · intro ⟨w', hw', hfd⟩
      by_cases hww : w' = w
      · subst hww
        rw [setWorker_self] at hfd
        exact .inl (Option.some.inj hfd).symm
      · rw [setWorker_of_ne hww] at hfd
        exact .inr ⟨w', hw', hfd⟩
    · intro hg
      rcases hg with rfl | ⟨w', hw', hfd⟩
      · exact ⟨w, hw, by rw [setWorker_self]; rfl⟩
      · have hww : w' ≠ w := fun he => by rw [he, hpc] at hfd; cases hfd
        exact ⟨w', hw', by rw [setWorker_of_ne hww]; exact hfd⟩
  refine ⟨fun g n hg => ?_, fun g hg => ?_, fun g hg => ?_, fun g hg => ?_, h.card⟩
  · obtain ⟨hne, hold⟩ := FdTable.close_ofd_some.mp hg
    rcases h.opened g n hold with hh | ⟨hreg, hno, hin⟩
    · exact .inl hh
    · refine .inr ⟨Finset.mem_erase.mpr ⟨hne, hreg⟩, ?_, hin⟩
      rw [hclosing]
      exact fun hcl => hcl.elim hne hno
  · obtain ⟨hne, hreg⟩ := Finset.mem_erase.mp hg
    simp only [closeFd, St.setWorker, FdTable.close_ofd_of_ne hne]
    exact h.registered g hreg
  · rw [hclosing]
    by_cases hne : g = t.fd
    · exact .inr (.inr (.inr (.inl hne)))
    · simp only [closeFd, St.setWorker, FdTable.close_ofd_of_ne hne]
      exact (h.listed g hg).imp_right (Or.imp_right (Or.imp_right .inr))
  · rw [hclosing]
    obtain ⟨hopen, hcard⟩ := h.adding g hg
    refine ⟨?_, hcard⟩
    by_cases hne : g = t.fd
    · exact .inr (.inl hne)
    · simp only [closeFd, St.setWorker, FdTable.close_ofd_of_ne hne]
      exact hopen.imp_right .inr

theorem Inv.del {c : Cfg} {s : St} {w : Nat} {t : Task} (h : Inv c s) (hw : w < c.concurCount)
    (hpc : s.workers w = .toDel t) :
    Inv c { s.setWorker w (.toErase t) with epoll := s.epoll.erase t.fd } := by
  have hclosing : ∀ g, Closing c { s.setWorker w (.toErase t) with epoll := s.epoll.erase t.fd } g ↔
      Closing c s g := closing_setWorker rfl (by rw [hpc]; rfl)
  have hfd : Closing c s t.fd := ⟨w, hw, by rw [hpc]; rfl⟩
  refine ⟨fun g n hg => ?_, fun g hg => h.registered g (Finset.mem_of_mem_erase hg), fun g hg => ?_,
    fun g hg => ?_, h.card⟩
  · rw [hclosing]
    rcases h.opened g n hg with hh | ⟨hreg, hno, hin⟩
    · exact .inl hh
    · have hne : g ≠ t.fd := fun he => hno (he ▸ hfd)
      exact .inr ⟨Finset.mem_erase.mpr ⟨hne, hreg⟩, hno, hin⟩
  · rw [hclosing]
    exact h.listed g hg
  · rw [hclosing]
    exact h.adding g hg

/-- The erase ends the CLOSE_FD section; the mutex keeps it out of the main thread's insert. -/
theorem Inv.erase {c : Cfg} {s : St} {w : Nat} {t : Task} (h : Inv c s) (hw : w < c.concurCount)
    (hpc : s.workers w = .toErase t) (hadding : s.main.adding = none) :
    Inv c { s.setWorker w .idle with epFds := s.epFds.erase t.fd, mutex := none } := by
  have hfd : Closing c s t.fd := ⟨w, hw, by rw [hpc]; rfl⟩
  have hclosing : ∀ g, Closing c { s.setWorker w .idle with epFds := s.epFds.erase t.fd, mutex := none } g →
      Closing c s g := by
    intro g ⟨w', hw', hg⟩
    have hww : w' ≠ w := fun he => by
      subst he
      simp only [setWorker_self] at hg
      cases hg
    simp only [setWorker_of_ne hww] at hg
    exact ⟨w', hw', hg⟩
  have hstill : ∀ g, g ≠ t.fd → Closing c s g →
      Closing c { s.setWorker w .idle with epFds := s.epFds.erase t.fd, mutex := none } g := by
    intro g hne ⟨w', hw', hg⟩
    have hww : w' ≠ w := fun he => by
      rw [he, hpc] at hg
      exact hne (Option.some.inj hg).symm
    exact ⟨w', hw', by simpa only [setWorker_of_ne hww] using hg⟩
  refine ⟨fun g n hg => ?_, h.registered, fun g hg => ?_, fun g hg => ?_, ?_⟩
  · rcases h.opened g n hg with hh | ⟨hreg, hno, hin⟩
    · exact .inl hh
    · have hne : g ≠ t.fd := fun he => hno (he ▸ hfd)
      refine .inr ⟨hreg, fun hcl => hno (hclosing g hcl), .inl ?_⟩
      exact Finset.mem_erase.mpr ⟨hne, hin.resolve_right (by simp [hadding])⟩
  · obtain ⟨hne, hin⟩ := Finset.mem_erase.mp hg
    exact (h.listed g hin).imp_right (Or.imp_right (Or.imp_right (hstill g hne)))
  · have hg' : s.main.adding = some g := hg
    rw [hadding] at hg'; cases hg'
  · exact Nat.le_trans (Finset.card_erase_le) h.card

theorem step_inv {c : Cfg} {s s' : St} {a : Act} (hx : Excl s) (h : Inv c s) (hok : AddSafe c s a)
    (hs : Step c s a s') : s'.main.past = true ∨ Inv c s' := by
  cases hs with
  | loop hm =>
    by_cases hrun : s.running = true
    · refine .inr (h.frame rfl ?_ fun _ => .rfl)
      simp [hrun, hm, MainPc.inHand, MainPc.adding]
    · exact .inl (by simp [hrun, MainPc.past])
  | epollFail _ _ | advance _ | closeNext _ | exit _ | crash _ => exact .inl rfl
  | lockWait hm _ | epollWait _ hm _ | batchDone hm | acceptFail hm | dispatch hm | lockAdd hm _ =>
    exact .inr (h.frame rfl (by simp [hm, MainPc.inHand, MainPc.adding]) fun _ => .rfl)
  | accept hf hm _ =>
    exact .inr (h.accept hf (by simp [hm, MainPc.inHand]) (by simp [hm, MainPc.adding]))
  | @add fd conn events hm hcard =>
    have hhand : s.main.inHand = some fd := by simp [hm, MainPc.inHand]
    have hsafe : (s.kern.ofd fd).isSome ↔ ¬ Closing c s fd := by
      simp only [AddSafe, hhand] at hok
      exact hok hcard
    exact .inr (h.add hhand (by simp [hm, MainPc.adding]) hcard hsafe)
  | refuse hm => exact .inr (h.refuse (by simp [hm, MainPc.inHand]) (by simp [hm, MainPc.adding]))
  | insert hm => exact .inr (h.insert (by simp [hm, MainPc.inHand]) (by simp [hm, MainPc.adding]))
  | take _ hpc _ | takeSig _ hpc _ | recv _ _ hpc | lock _ hpc _ =>
    exact .inr (h.frame rfl rfl (closing_setWorker rfl (by rw [hpc]; rfl)))
  | test _ hpc =>
    exact .inr (h.frame rfl rfl (closing_setWorker rfl (by rw [hpc]; exact (nextPc_idle _ _ _ _).2)))
  | close hw hpc => exact .inr (h.close hw hpc)
  | del hw hpc => exact .inr (h.del hw hpc)
  | @erase w t hw hpc =>
    refine .inr (h.erase hw hpc ?_)
    have hheld := hx.worker w (by simp [hpc, WorkerPc.holds])
    cases hm : s.main with
    | added fd conn events =>
      have := hx.main (by simp [hm, MainPc.holds])
      rw [hheld] at this; cases this
    | top | toWait | waiting | batch events | accepted fd conn events | locked fd conn events | closing closed
    | visiting fd closed | exited code | crashed => rfl
  | sig _ _ _ hsig hpc =>
    refine .inr (h.frame rfl rfl (closing_setWorker rfl ?_))
    rw [(inSig_idle hpc).2, (inSig_idle (.inr hsig)).2]
  | env _ _ _ => exact .inr (h.frame rfl rfl fun _ => .rfl)

theorem step_past {c : Cfg} {s s' : St} {a : Act} (hp : s.main.past = true) (hs : Step c s a s') :
    s'.main.past = true := by
  cases hs with
  | loop hm | lockWait hm _ | epollWait _ hm _ | epollFail _ hm | batchDone hm | acceptFail hm | accept _ hm _
  | dispatch hm | lockAdd hm _ | add hm _ | refuse hm | insert hm => rw [hm] at hp; cases hp
  | advance _ | closeNext _ | exit _ | crash _ => rfl
  | take _ _ _ | takeSig _ _ _ | recv _ _ _ | test _ _ | close _ _ | lock _ _ _ | del _ _ | erase _ _
  | sig _ _ _ _ _ | env _ _ _ => exact hp

theorem reach_inv {c : Cfg} {s : St} (h : Reach (step c) (AddSafe c) (init c) s) :
    s.main.past = true ∨ Inv c s := by
  induction h with
  | refl => exact .inr (init_inv c)
  | @tail s a s' hr hok hstep ih =>
    have hs := step_sound hstep
    have hx : Excl s := by
      refine hr.invariant (init_excl c) fun _ _ _ hx _ hstep => ?_
      exact step_excl hx (step_sound hstep)
    rcases ih with hp | hinv
    · exact .inl (step_past hp hs)
    · exact step_inv hx hinv hok hs

/-- **The three views agree in a run with `AddSafe`.** With the main thread
in its loop outside `ep_accept_worker_func` and no worker between its
`close` and the end of its CLOSE_FD section: a number other than the
server's own two is an open client connection if and only if it is in
`ep_fds`, if and only if it is registered in `epfd`; and `ep_fds` holds at
most `EPOLL_FDS_LEN` numbers. -/
theorem addSafe_views {c : Cfg} {s : St} (h : Reach (step c) (AddSafe c) (init c) s)
    (hm : s.main.inLoop = true) (hno : ∀ w < c.concurCount, (s.workers w).closingFd = none) :
    (∀ fd, fd ≠ c.listenFd → fd ≠ c.sigPipeFd →
      ((s.kern.ofd fd).isSome = true ↔ fd ∈ s.epFds) ∧ ((s.kern.ofd fd).isSome = true ↔ fd ∈ s.epoll)) ∧
    s.epFds.card ≤ epollFdsLen := by
  have hpast : s.main.past = false ∧ s.main.inHand = none ∧ s.main.adding = none := by
    cases hpc : s.main <;> simp_all [MainPc.inLoop, MainPc.past, MainPc.inHand, MainPc.adding]
  obtain ⟨hpast, hhand, hadding⟩ := hpast
  have hinv : Inv c s := by
    rcases reach_inv h with hp | hinv
    · rw [hpast] at hp; cases hp
    · exact hinv
  have hopen : ∀ fd, (s.kern.ofd fd).isSome = true → fd ∈ s.epoll ∧ fd ∈ s.epFds := by
    intro fd hsome
    obtain ⟨n, hn⟩ := Option.isSome_iff_exists.mp hsome
    rcases hinv.opened fd n hn with hh | ⟨hreg, -, hin⟩
    · rw [hhand] at hh; cases hh
    · exact ⟨hreg, hin.resolve_right (by simp [hadding])⟩
  refine ⟨fun fd hl hs => ⟨⟨fun ho => (hopen fd ho).2, fun hin => ?_⟩, ⟨fun ho => (hopen fd ho).1, fun hreg => ?_⟩⟩,
    hinv.card⟩
  · rcases hinv.listed fd hin with he | he | ⟨ho, -⟩ | hcl
    · exact absurd he hl
    · exact absurd he hs
    · exact ho
    · obtain ⟨w, hw, hfd'⟩ := hcl
      rw [hno w hw] at hfd'; cases hfd'
  · rcases hinv.registered fd hreg with he | he | ho
    · exact absurd he hl
    · exact absurd he hs
    · exact ho

/-- One pool thread; 0 to 4 are the server's own descriptors. -/
def demoCfg : Cfg where
  trigger := .epLt
  concurCount := 1
  listenFd := 3
  sigPipeFd := 4
  sigPipeCap := 8
  own fd := fd < 5
  listen_own := by decide
  sigPipe_own := by decide
  listen_ne := by decide

/-- A round of the main loop that accepts a connection as `fd`. -/
def acceptRound (fd : Nat) : List Act :=
  [.main .loop, .main .lockWait, .main (.epollWait [3]), .main (.accept (some fd)), .main .lockAdd, .main .add,
   .main .insert, .main .batchDone]

/-- A round that dispatches a task for `fd`. -/
def dispatchRound (fd : Nat) : List Act :=
  [.main .loop, .main .lockWait, .main (.epollWait [fd]), .main .dispatch, .main .batchDone]

/-- A client comes and goes, and its number is given to the next once its removal is over. -/
def removedRun : List Act :=
  acceptRound 7 ++ [.fin 7] ++ dispatchRound 7 ++
  [.worker 0 .take, .worker 0 (.recv .eagain), .worker 0 .test, .worker 0 .close, .worker 0 .lock, .worker 0 .del,
   .worker 0 .erase] ++ acceptRound 7

theorem removedRun_run : (runWhere (step demoCfg) (AddSafe demoCfg) (init demoCfg) removedRun).isSome := by
  decide +kernel

/-- `addSafe_views` at the end of `removedRun`, with the second client open under the first one's number. -/
theorem addSafe_views_demo :
    let s := (runWhere (step demoCfg) (AddSafe demoCfg) (init demoCfg) removedRun).get removedRun_run
    (∀ fd, fd ≠ demoCfg.listenFd → fd ≠ demoCfg.sigPipeFd →
      ((s.kern.ofd fd).isSome = true ↔ fd ∈ s.epFds) ∧ ((s.kern.ofd fd).isSome = true ↔ fd ∈ s.epoll)) ∧
    s.epFds.card ≤ epollFdsLen :=
  addSafe_views (reachWhere_get removedRun_run) (by decide +kernel) (by decide +kernel)

/-- The next client is accepted and added between a worker's `close` of the number and its removal. -/
def reusedRun : List Act :=
  acceptRound 7 ++ [.fin 7] ++ dispatchRound 7 ++
  [.worker 0 .take, .worker 0 (.recv .eagain), .worker 0 .test, .worker 0 .close] ++ acceptRound 7 ++
  [.worker 0 .lock, .worker 0 .del, .worker 0 .erase]

theorem reusedRun_run : (run (step demoCfg) (init demoCfg) reusedRun).isSome := by decide +kernel

/-- **A client added before the removal of its number is dropped.** The main
thread is in its loop and no worker is closing anything; connection 1 is
open as 7, and 7 is neither in `ep_fds` nor registered. -/
theorem reused_dropped : ∃ s, Reach (step demoCfg) Any (init demoCfg) s ∧ s.main.inLoop = true ∧
    (∀ w < demoCfg.concurCount, (s.workers w).closingFd = none) ∧ 7 ≠ demoCfg.listenFd ∧ 7 ≠ demoCfg.sigPipeFd ∧
    s.kern.ofd 7 = some 1 ∧ 7 ∉ s.epFds ∧ 7 ∉ s.epoll :=
  ⟨_, reach_get reusedRun_run, by decide +kernel⟩

end LinuxServer.Epoll
