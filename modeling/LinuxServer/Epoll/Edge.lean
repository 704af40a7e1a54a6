/-
Edge-triggered mode: data that was received and not read yet always has
somebody due to read it (`data_covered`).

`Flow` says exactly what a step does to the sockets and to the edges, which
`Step` leaves open. An edge is set by an arrival and by EPOLL_CTL_ADD on
data that is there; `epoll_wait` turns it into an event, the event becomes a
task, and the task's worker reads until `recv` finds nothing. The one thing
to rule out is a number that is registered and not open, which an accept
could give to a client whose data nobody announced (`Registered`).
-/
import LinuxServer.Epoll.Monitor
import LinuxServer.Epoll.Stale

namespace LinuxServer.Epoll

open Lts

/-! ## What a step does to the sockets and the edges -/

/-- The actions that move no data and set no edge. -/
def Act.quiet : Act → Bool
  | .data _ _ | .fin _ | .rst _ | .main (.epollWait _) | .main .add | .worker _ (.recv _) => false
  | .main _ | .worker _ _ | .signal _ _ => true

/-- The steps, each with all it does to the sockets and the edges (`step_flow`). -/
inductive Flow (c : Cfg) (s : St) : Act → St → Prop
  | data {fd n bytes} : s.kern.ofd fd = some n → (s.socket n).fin = false →
      Flow c s (.data fd bytes) (arrive s fd n { s.socket n with rcv := (s.socket n).rcv ++ bytes })
  | fin {fd n} : s.kern.ofd fd = some n → Flow c s (.fin fd) (arrive s fd n { s.socket n with fin := true })
  | rst {fd n} : s.kern.ofd fd = some n →
      Flow c s (.rst fd) (arrive s fd n { s.socket n with fin := true, rst := true })
  | epollWait {fds} : s.main = .waiting → (∀ fd ∈ fds, fd ∈ s.epoll) → Flow c s (.main (.epollWait fds))
      { s with
        main := .batch (fds.map (toEvent c s))
        mutex := none
        edge := fun fd => s.edge fd && !fds.contains fd }
  | add {fd conn events} : s.main = .locked fd conn events →
      Flow c s (.main .add) { epollAdd s fd with main := .added fd conn events }
  | refuse {fd conn events} : s.main = .locked fd conn events →
      Flow c s (.main .add) { closeFd s fd conn with main := .batch events, mutex := none }
  | recv {w t errno} : w < c.concurCount → s.workers w = .msgRecv t →
      Flow c s (.worker w (.recv errno)) (recvTask s w t errno)
  | quiet {a s'} : Step c s a s' → a.quiet = true → s'.socket = s.socket → s'.edge = s.edge → Flow c s a s'

variable {c : Cfg} {s s' : St} {a : Act} {fd n w : Nat} {t : Task}

theorem mainStep_flow {a : MainAct} (h : mainStep c s a = some s') : Flow c s (.main a) s' := by
  have hs := mainStep_sound h
  unfold mainStep at h
  split at h
  · cases h; exact .quiet hs rfl rfl rfl
  · split at h
    · cases h; exact .quiet hs rfl rfl rfl
    · cases h
  · next hm =>
    split at h
    · next hg => cases h; exact .epollWait hm fun fd hfd => (hg.2.2 fd hfd).1
    · cases h
  · cases h; exact .quiet hs rfl rfl rfl
  · cases h; exact .quiet hs rfl rfl rfl
  · cases h; exact .quiet hs rfl rfl rfl
  · split at h
    · cases h; exact .quiet hs rfl rfl rfl
    · cases h
  · cases h; exact .quiet hs rfl rfl rfl
  · cases h; exact .quiet hs rfl rfl rfl
  · split at h
    · cases h; exact .quiet hs rfl rfl rfl
    · cases h
  · next hm =>
    cases h
    unfold addClient
    split
    · exact .add hm
    · exact .refuse hm
  · cases h; exact .quiet hs rfl rfl rfl
  · split at h
    · cases h; exact .quiet hs rfl rfl rfl
    split at h
    · cases h; exact .quiet hs rfl rfl rfl
    · cases h
  · split at h
    · cases h
    split at h
    · cases h; exact .quiet hs rfl rfl rfl
    · cases h; exact .quiet hs rfl rfl rfl
  · split at h
    · cases h; exact .quiet hs rfl rfl rfl
    split at h
    · cases h; exact .quiet hs rfl rfl rfl
    · cases h
  · cases h

theorem workerStep_flow {a : WorkerAct} (hw : w < c.concurCount) (h : workerStep c s w a = some s') :
    Flow c s (.worker w a) s' := by
  have hs := workerStep_sound hw h
  unfold workerStep at h
  split at h
  · split at h
    · cases h; exact .quiet hs rfl rfl rfl
    · cases h; exact .quiet hs rfl rfl rfl
    · cases h
    · cases h
  · next hpc => cases h; exact .recv hw hpc
  · cases h; exact .quiet hs rfl rfl rfl
  · cases h; exact .quiet hs rfl rfl rfl
  · split at h
    · cases h; exact .quiet hs rfl rfl rfl
    · cases h
  · cases h; exact .quiet hs rfl rfl rfl
  · cases h; exact .quiet hs rfl rfl rfl
  · split at h
    · cases h; exact .quiet hs rfl rfl rfl
    · cases h; exact .quiet hs rfl rfl rfl
  · split at h
    all_goals cases h; exact .quiet hs rfl rfl rfl
  · cases h

theorem envStep_flow (h : envStep c s a = some s') : Flow c s a s' := by
  have hs := envStep_sound h
  unfold envStep at h
  split at h
  · obtain ⟨n, hn, h⟩ := Option.bind_eq_some_iff.mp h
    simp only at h
    split at h
    · next hg => cases h; exact .data hn hg.2.1
    · cases h
  · obtain ⟨n, hn, rfl⟩ := Option.map_eq_some_iff.mp h
    exact .fin hn
  · obtain ⟨n, hn, rfl⟩ := Option.map_eq_some_iff.mp h
    exact .rst hn
  · split at h
    · cases h; exact .quiet hs rfl rfl rfl
    · cases h
  · cases h
  · cases h

theorem step_flow (h : step c s a = some s') : Flow c s a s' := by
  unfold step at h
  split at h
  · cases h
  split at h
  · exact mainStep_flow h
  · split at h
    · next hw => exact workerStep_flow hw h
    · cases h
  · exact envStep_flow h

/-! ## Registered numbers are open -/

/-- Accepted numbers are not the server's own, and every registered number
is the server's own or open. -/
structure Registered (c : Cfg) (s : St) : Prop where
  notOwn : ∀ fd n, s.kern.ofd fd = some n → c.own fd = false
  opened : ∀ fd ∈ s.epoll, c.own fd = true ∨ (s.kern.ofd fd).isSome = true

theorem init_registered (c : Cfg) : Registered c (init c) := by
  refine ⟨by simp [init, FdTable.empty], fun fd hfd => .inl ?_⟩
  simp only [init, Finset.mem_insert, Finset.mem_singleton] at hfd
  rcases hfd with rfl | rfl
  · exact c.listen_own
  · exact c.sigPipe_own

theorem Registered.frame (h : Registered c s) (hkern : s'.kern = s.kern) (hepoll : s'.epoll ⊆ s.epoll) :
    Registered c s' :=
  ⟨fun fd n hn => h.notOwn fd n (hkern ▸ hn), fun fd hfd => hkern ▸ h.opened fd (hepoll hfd)⟩

theorem Registered.close (h : Registered c s) (hkern : s'.kern = s.kern.close fd)
    (hepoll : s'.epoll = s.epoll.erase fd) : Registered c s' := by
  refine ⟨fun g n hn => ?_, fun g hg => ?_⟩
  · rw [hkern] at hn
    exact h.notOwn g n (FdTable.close_ofd_some.mp hn).2
  · rw [hepoll] at hg
    obtain ⟨hne, hreg⟩ := Finset.mem_erase.mp hg
    rw [hkern, FdTable.close_ofd_of_ne hne]
    exact h.opened g hreg

theorem step_registered (h : Registered c s) (hs : Step c s a s') : Registered c s' := by
  cases hs with
  | @accept fd events hf hm hown =>
    refine ⟨fun g n hg => ?_, fun g hg => ?_⟩
    · rcases FdTable.alloc_ofd_cases hf hg with ⟨rfl, -⟩ | ⟨-, hold⟩
      · exact hown
      · exact h.notOwn g n hold
    · rcases h.opened g hg with hl | hopen
      · exact .inl hl
      · obtain ⟨n, hn⟩ := Option.isSome_iff_exists.mp hopen
        exact .inr (by simp [FdTable.alloc_ofd_old hf hn])
  | add hm hcard =>
    unfold epollAdd
    split
    · exact h.frame rfl (Finset.Subset.refl _)
    · next hsome =>
      refine ⟨h.notOwn, fun g hg => ?_⟩
      rcases Finset.mem_insert.mp hg with rfl | hg
      · exact .inr (Option.isSome_iff_ne_none.mpr hsome)
      · exact h.opened g hg
  | refuse _ | closeNext _ | close _ _ => exact h.close rfl rfl
  | del _ _ => exact h.frame rfl (Finset.erase_subset _ _)
  | loop _ | lockWait _ _ | epollWait _ _ _ | epollFail _ _ | batchDone _ | acceptFail _ | dispatch _
  | lockAdd _ _ | insert _ | advance _ | exit _ | crash _ | take _ _ _ | takeSig _ _ _ | recv _ _ _
  | test _ _ | lock _ _ _ | erase _ _ | sig _ _ _ _ _ | env _ _ _ => exact h.frame rfl (Finset.Subset.refl _)

/-! ## Data and its readers -/

/-- The task of a worker in its read loop, as long as `recv` has not failed there. -/
def WorkerPc.reading : WorkerPc → Option Task
  | .msgRecv t | .msgRead t _ (.data _) _ => some t
  | .idle | .msgRead _ _ .eof _ | .msgRead _ _ (.error _) _ | .toClose _ | .toLock _ | .toDel _ | .toErase _
  | .sigRecv | .sigGot _ => none

/-- Somebody is due to read from the number: an event of the batch, a task
of the pool, or a worker that has not seen `recv` fail. -/
def Reader (c : Cfg) (s : St) (fd : Nat) : Prop :=
  ∃ t, t.fd = fd ∧ (Event.msg t ∈ s.main.events ∨ Event.msg t ∈ s.tasks ∨
    ∃ w < c.concurCount, (s.workers w).reading = some t)

/-- Data received for a registered client has an edge pending or a reader. -/
def Covered (c : Cfg) (s : St) : Prop :=
  ∀ fd n, s.kern.ofd fd = some n → fd ∈ s.epoll → (s.socket n).rcv ≠ [] → s.edge fd = true ∨ Reader c s fd

theorem Reader.setWorker {pc : WorkerPc} (h : Reader c s fd) (hevents : s'.main.events = s.main.events)
    (htasks : s'.tasks = s.tasks) (hworkers : s'.workers = (s.setWorker w pc).workers)
    (hpc : ∀ t, (s.workers w).reading = some t → t.fd = fd → pc.reading = some t) : Reader c s' fd := by
  obtain ⟨t, ht, h | h | ⟨w', hw', h⟩⟩ := h
  · exact ⟨t, ht, .inl (hevents ▸ h)⟩
  · exact ⟨t, ht, .inr (.inl (htasks ▸ h))⟩
  · refine ⟨t, ht, .inr (.inr ⟨w', hw', ?_⟩)⟩
    rw [hworkers]
    by_cases hww : w' = w
    · subst hww
      rw [setWorker_self]
      exact hpc t h ht
    · rwa [setWorker_of_ne hww]

theorem Reader.setMain (h : Reader c s fd) (hworkers : s'.workers = s.workers)
    (hev : ∀ t, Event.msg t ∈ s.main.events ∨ Event.msg t ∈ s.tasks →
      Event.msg t ∈ s'.main.events ∨ Event.msg t ∈ s'.tasks) : Reader c s' fd := by
  obtain ⟨t, ht, h | h | h⟩ := h
  · rcases hev t (.inl h) with h | h
    · exact ⟨t, ht, .inl h⟩
    · exact ⟨t, ht, .inr (.inl h)⟩
  · rcases hev t (.inr h) with h | h
    · exact ⟨t, ht, .inl h⟩
    · exact ⟨t, ht, .inr (.inl h)⟩
  · exact ⟨t, ht, .inr (.inr (hworkers ▸ h))⟩

theorem Covered.frame (h : Covered c s) (hsocket : s'.socket = s.socket) (hedge : s'.edge = s.edge)
    (hopen : ∀ fd n, s'.kern.ofd fd = some n → fd ∈ s'.epoll → s.kern.ofd fd = some n ∧ fd ∈ s.epoll)
    (hreader : ∀ fd, Reader c s fd → Reader c s' fd) : Covered c s' := by
  intro fd n hn hreg hrcv
  rw [hsocket] at hrcv
  rw [hedge]
  obtain ⟨hn, hreg⟩ := hopen fd n hn hreg
  exact (h fd n hn hreg hrcv).imp_right (hreader fd)

theorem inSig_reading {pc : WorkerPc} (h : pc = .idle ∨ pc.inSig = true) : pc.reading = none := by
  cases pc <;> simp_all [WorkerPc.inSig, WorkerPc.reading]

theorem Covered.arrive {k : Socket} (h : Covered c s) (hn : s.kern.ofd fd = some n) :
    Covered c (arrive s fd n k) := by
  intro g m hm hreg hrcv
  by_cases hgf : g = fd
  · subst hgf
    have hreg' : g ∈ s.epoll := hreg
    left
    show (if g ∈ s.epoll then Function.update s.edge g true else s.edge) g = true
    rw [if_pos hreg', Function.update_self]
  · have hmn : m ≠ n := by
      rintro rfl
      exact hgf (FdTable.ofd_inj hm hn)
    have hrcv' : (s.socket m).rcv ≠ [] := by simpa [Epoll.arrive, hmn] using hrcv
    refine (h g m hm hreg hrcv').imp_left fun hedge => ?_
    show (if fd ∈ s.epoll then Function.update s.edge fd true else s.edge) g = true
    split
    · rwa [Function.update_of_ne hgf]
    · exact hedge

theorem Covered.epollWait {fds : List Nat} (h : Covered c s) (hr : Registered c s) (hm : s.main = .waiting) :
    Covered c { s with
      main := .batch (fds.map (toEvent c s))
      mutex := none
      edge := fun fd => s.edge fd && !fds.contains fd } := by
  intro fd n hn hreg hrcv
  rcases h fd n hn hreg hrcv with hedge | hreader
  · by_cases hin : fd ∈ fds
    · right
      have hown := hr.notOwn fd n hn
      have hl : fd ≠ c.listenFd := fun he => by rw [he, c.listen_own] at hown; cases hown
      have hs : fd ≠ c.sigPipeFd := fun he => by rw [he, c.sigPipe_own] at hown; cases hown
      refine ⟨⟨fd, s.kern.ofd fd⟩, rfl, .inl (List.mem_map.mpr ⟨fd, hin, ?_⟩)⟩
      unfold toEvent
      rw [if_neg hl, if_neg hs]
    · left
      simp [hedge, hin]
  · refine .inr (hreader.setMain rfl fun t ht => .inr (ht.resolve_left ?_))
    simp [hm, MainPc.events]

/-- EPOLL_CTL_ADD sets the edge when data is there already. -/
theorem Covered.add {conn : Option Nat} {events : List Event} (h : Covered c s)
    (hm : s.main = .locked fd conn events) : Covered c { epollAdd s fd with main := .added fd conn events } := by
  have hmain : ∀ g, Reader c s g → Reader c { epollAdd s fd with main := .added fd conn events } g := by
    intro g hg
    refine hg.setMain ?_ fun t ht => ?_
    · unfold epollAdd; split <;> rfl
    · rw [hm] at ht
      refine ht.imp_right fun ht => ?_
      unfold epollAdd
      split <;> exact ht
  intro g m hg hreg hrcv
  by_cases hnone : s.kern.ofd fd = none
  · simp only [epollAdd, if_pos hnone] at hg hreg hrcv hmain ⊢
    exact (h g m hg hreg hrcv).imp_right (hmain g)
  · simp only [epollAdd, if_neg hnone] at hg hreg hrcv hmain ⊢
    by_cases hgf : g = fd
    · subst hgf
      left
      rw [Function.update_self]
      simp [readable, hg, Socket.readable, hrcv]
    · rw [Function.update_of_ne hgf]
      exact (h g m hg ((Finset.mem_insert.mp hreg).resolve_left hgf) hrcv).imp_right (hmain g)

theorem recvOn_rest (k : Socket) (h : (recvOn k).2.rcv ≠ []) : ∃ bytes, (recvOn k).1 = .data bytes := by
  unfold recvOn at h ⊢
  split
  · exact ⟨_, rfl⟩
  · next hrcv =>
    exfalso
    rw [if_neg hrcv] at h
    split at h
    · exact hrcv h
    split at h
    · exact hrcv h
    · exact hrcv h

/-- A reader stays one until its `recv` fails, and then nothing is left to read. -/
theorem Covered.recv {errno : Errno} (h : Covered c s) (hw : w < c.concurCount) (hpc : s.workers w = .msgRecv t) :
    Covered c (recvTask s w t errno) := by
  intro fd n hn hreg hrcv
  have hn' : s.kern.ofd fd = some n := hn
  by_cases hfd : t.fd = fd
  · right
    subst hfd
    have hrcv' : (recvOn (s.socket n)).2.rcv ≠ [] := by simpa [recvTask, recvFrom, hn'] using hrcv
    obtain ⟨bytes, hout⟩ := recvOn_rest _ hrcv'
    refine ⟨t, rfl, .inr (.inr ⟨w, hw, ?_⟩)⟩
    show ((s.setWorker w (.msgRead t (s.kern.ofd t.fd) (recvFrom s t.fd).1 errno)).workers w).reading = some t
    rw [setWorker_self]
    simp [recvFrom, hn', hout, WorkerPc.reading]
  · have hrcv' : (s.socket n).rcv ≠ [] := by
      cases ht : s.kern.ofd t.fd with
      | none => simpa [recvTask, recvFrom, ht] using hrcv
      | some m =>
        have hnm : n ≠ m := by
          rintro rfl
          exact hfd (FdTable.ofd_inj ht hn')
        simpa [recvTask, recvFrom, ht, hnm] using hrcv
    refine (h fd n hn hreg hrcv').imp_right fun hreader => ?_
    refine hreader.setWorker rfl rfl rfl fun t' ht' hfd' => ?_
    rw [hpc] at ht'
    cases ht'
    exact absurd hfd' hfd

theorem Reader.take {tasks : List Event} (h : Reader c s fd) (hw : w < c.concurCount) (hpc : s.workers w = .idle)
    (hq : s.tasks = .msg t :: tasks) : Reader c { s.setWorker w (.msgRecv t) with tasks := tasks } fd := by
  obtain ⟨t', ht', h | h | ⟨w', hw', h⟩⟩ := h
  · exact ⟨t', ht', .inl h⟩
  · rw [hq] at h
    rcases List.mem_cons.mp h with h | h
    · cases h
      exact ⟨t, ht', .inr (.inr ⟨w, hw, by simp [WorkerPc.reading]⟩)⟩
    · exact ⟨t', ht', .inr (.inl h)⟩
  · have hww : w' ≠ w := by
      rintro rfl
      rw [hpc] at h
      cases h
    refine ⟨t', ht', .inr (.inr ⟨w', hw', ?_⟩)⟩
    rw [← h]
    exact congrArg _ (setWorker_of_ne hww)

/-- With `EP_ET` the tests after `serv_read` go back to the `recv` after data. -/
theorem reading_nextPc {on : Option Nat} {out : RecvOut} {errno : Errno} (hc : c.trigger = .epEt) {t' : Task}
    (h : (WorkerPc.msgRead t on out errno).reading = some t') : (nextPc c t out errno).reading = some t' := by
  cases out with
  | data bytes => simpa [nextPc, hc, WorkerPc.reading] using h
  | eof => cases h
  | error e => cases h

theorem Covered.quiet (h : Covered c s) (hr : Registered c s) (hc : c.trigger = .epEt) (hs : Step c s a s')
    (ha : a.quiet = true) (hsocket : s'.socket = s.socket) (hedge : s'.edge = s.edge) : Covered c s' := by
  have hsame : ∀ fd n, s.kern.ofd fd = some n → fd ∈ s.epoll → s.kern.ofd fd = some n ∧ fd ∈ s.epoll :=
    fun _ _ hn hreg => ⟨hn, hreg⟩
  have hclose : ∀ {x} fd n, (s.kern.close x).ofd fd = some n → fd ∈ s.epoll.erase x →
      s.kern.ofd fd = some n ∧ fd ∈ s.epoll := fun _ _ hn hreg =>
    ⟨(FdTable.close_ofd_some.mp hn).2, Finset.mem_of_mem_erase hreg⟩
  cases hs with
  | loop hm | lockWait hm _ | epollFail _ hm | batchDone hm | advance hm | exit hm | epollWait _ hm _ =>
    refine h.frame hsocket hedge hsame fun fd hrd => hrd.setMain rfl fun t ht => .inr (ht.resolve_left ?_)
    simp [hm, MainPc.events]
  | crash hp =>
    refine h.frame hsocket hedge hsame fun fd hrd => hrd.setMain rfl fun t ht => .inr (ht.resolve_left ?_)
    simp [MainPc.events_past hp]
  | closeNext hm =>
    refine h.frame hsocket hedge hclose fun fd hrd => hrd.setMain rfl fun t ht => .inr (ht.resolve_left ?_)
    simp [hm, MainPc.events]
  | refuse hm =>
    refine h.frame hsocket hedge hclose fun fd hrd => hrd.setMain rfl fun t ht => ?_
    rwa [hm] at ht
  | acceptFail hm =>
    refine h.frame hsocket hedge hsame fun fd hrd => hrd.setMain rfl fun t ht => ?_
    rw [hm] at ht
    exact ht.imp_left fun ht => (List.mem_cons.mp ht).resolve_left (by simp)
  | @accept fd events hf hm hown =>
    refine h.frame hsocket hedge (fun g n hg hreg => ?_) fun g hrd => hrd.setMain rfl fun t ht => ?_
    · rcases FdTable.alloc_ofd_cases hf hg with ⟨rfl, -⟩ | ⟨-, hold⟩
      · have hopen := hr.opened g hreg
        simp [hown, hf] at hopen
      · exact ⟨hold, hreg⟩
    · rw [hm] at ht
      exact ht.imp_left fun ht => (List.mem_cons.mp ht).resolve_left (by simp)
  | @dispatch ev events hm =>
    refine h.frame hsocket hedge hsame fun fd hrd => hrd.setMain rfl fun t ht => ?_
    rw [hm] at ht
    rcases ht with ht | ht
    · rcases List.mem_cons.mp ht with ht | ht
      · exact .inr (List.mem_append_right _ (List.mem_singleton.mpr ht))
      · exact .inl ht
    · exact .inr (List.mem_append_left _ ht)
  | lockAdd hm _ | insert hm =>
    refine h.frame hsocket hedge hsame fun fd hrd => hrd.setMain rfl fun t ht => ?_
    rwa [hm] at ht
  | add _ _ | recv _ _ _ => cases ha
  | take hw hpc hq => exact h.frame hsocket hedge hsame fun fd hrd => hrd.take hw hpc hq
  | @takeSig w tasks _ hpc hq =>
    have hset : ∀ fd, Reader c s fd → Reader c (s.setWorker w .sigRecv) fd := fun fd hrd =>
      hrd.setWorker rfl rfl rfl fun t ht => by rw [hpc] at ht; cases ht
    refine h.frame hsocket hedge hsame fun fd hrd => (hset fd hrd).setMain rfl fun t ht => ?_
    refine ht.imp_right fun ht => ?_
    have ht' : Event.msg t ∈ s.tasks := ht
    rw [hq] at ht'
    exact (List.mem_cons.mp ht').resolve_left (by simp)
  | test _ hpc =>
    refine h.frame hsocket hedge hsame fun fd hrd => hrd.setWorker rfl rfl rfl fun t' ht' _ => ?_
    rw [hpc] at ht'
    exact reading_nextPc hc ht'
  | close _ hpc =>
    refine h.frame hsocket hedge hclose fun fd hrd => hrd.setWorker rfl rfl rfl fun t' ht' _ => ?_
    rw [hpc] at ht'
    cases ht'
  | lock _ hpc _ | erase _ hpc =>
    refine h.frame hsocket hedge hsame fun fd hrd => hrd.setWorker rfl rfl rfl fun t' ht' _ => ?_
    rw [hpc] at ht'
    cases ht'
  | del _ hpc =>
    refine h.frame hsocket hedge (fun g n hn hreg => ⟨hn, Finset.mem_of_mem_erase hreg⟩)
      fun fd hrd => hrd.setWorker rfl rfl rfl fun t' ht' _ => ?_
    rw [hpc] at ht'
    cases ht'
  | sig _ _ _ hsig _ =>
    refine h.frame hsocket hedge hsame fun fd hrd => hrd.setWorker rfl rfl rfl fun t' ht' _ => ?_
    rw [inSig_reading (.inr hsig)] at ht'
    cases ht'
  | env _ _ _ => exact h.frame hsocket hedge hsame fun fd hrd => hrd

theorem step_covered (h : Covered c s) (hr : Registered c s) (hc : c.trigger = .epEt) (hs : Flow c s a s') :
    Covered c s' := by
  cases hs with
  | data hn _ | fin hn | rst hn => exact h.arrive hn
  | epollWait hm _ => exact h.epollWait hr hm
  | add hm => exact h.add hm
  | refuse hm =>
    refine h.frame rfl rfl (fun g n hn hreg => ?_) fun fd hrd => hrd.setMain rfl fun t ht => ?_
    · exact ⟨(FdTable.close_ofd_some.mp hn).2, Finset.mem_of_mem_erase hreg⟩
    · rwa [hm] at ht
  | recv hw hpc => exact h.recv hw hpc
  | quiet hs ha hsocket hedge => exact h.quiet hr hc hs ha hsocket hedge

/-- **No received data is forgotten in edge-triggered mode.** With `EP_ET`,
in every run of the server: a client connection that is open, registered in
`epfd` and has data in its receive buffer has an edge pending in `epfd`, or
an event in the batch of the main thread, or a task in the pool's queue, or
a worker in its read loop that has not seen `recv` fail there. This does not
depend on what the logging leaves in `errno`. -/
theorem data_covered (hc : c.trigger = .epEt) (h : Reach (step c) Any (init c) s) (fd n : Nat)
    (hopen : s.kern.ofd fd = some n) (hreg : fd ∈ s.epoll) (hdata : (s.socket n).rcv ≠ []) :
    s.edge fd = true ∨ ∃ t, t.fd = fd ∧ (Event.msg t ∈ s.main.events ∨ Event.msg t ∈ s.tasks ∨
      ∃ w < c.concurCount, (s.workers w).reading = some t) := by
  have hinv : Registered c s ∧ Covered c s := by
    refine h.invariant (I := fun s => Registered c s ∧ Covered c s) ⟨init_registered c, fun fd n hn => ?_⟩
      fun s a s' hs _ hstep => ?_
    · simp [init, FdTable.empty] at hn
    · exact ⟨step_registered hs.1 (step_sound hstep), step_covered hs.2 hs.1 hc (step_flow hstep)⟩
  exact hinv.2 fd n hopen hreg hdata

/-- `demoCfg` edge-triggered, with two pool threads. -/
def edgeTriggered : Cfg := { demoCfg with trigger := .epEt, concurCount := 2 }

/-- Two bytes come before the client is registered. A worker has read them
and not gone on to its next `recv` when two more come. -/
def lateData : List Act :=
  [.main .loop, .main .lockWait, .main (.epollWait [3]), .main (.accept (some 7)), .data 7 [1, 2],
   .main .lockAdd, .main .add, .main .insert, .main .batchDone] ++ dispatchRound 7 ++
  [.worker 0 .take, .worker 0 (.recv .eagain), .data 7 [3, 4]] ++ dispatchRound 7

theorem lateData_run : (run (step edgeTriggered) (init edgeTriggered) lateData).isSome := by decide +kernel

/-- `data_covered` at the end of `lateData`. -/
theorem data_covered_late :
    let s := (run (step edgeTriggered) (init edgeTriggered) lateData).get lateData_run
    s.edge 7 = true ∨ ∃ t, t.fd = 7 ∧ (Event.msg t ∈ s.main.events ∨ Event.msg t ∈ s.tasks ∨
      ∃ w < edgeTriggered.concurCount, (s.workers w).reading = some t) :=
  data_covered rfl (reach_get lateData_run) 7 0 (by decide +kernel) (by decide +kernel) (by decide +kernel)

end LinuxServer.Epoll
