/-
The tasks of `serv_epoll` carry a descriptor number only, and without
EPOLLONESHOT a number can be reported again while a task for it is queued or
running. So a task can come to its `recv` or `close` after another one has
closed the number, and find the next client under it.

`Exclusive` is the condition on a `close` under which no task is left that
could.
-/
import LinuxServer.Epoll.Monitor

namespace LinuxServer.Epoll

open Lts

def Event.fd : Event → Option Nat
  | .msg t => some t.fd
  | .listen | .sig => none

/-- What is left of the batch. -/
def MainPc.events : MainPc → List Event
  | .batch events | .accepted _ _ events | .locked _ _ events | .added _ _ events => events
  | .top | .toWait | .waiting | .closing _ | .visiting _ _ | .exited _ | .crashed => []

theorem MainPc.events_past {pc : MainPc} (h : pc.past = true) : pc.events = [] := by
  cases pc with
  | closing _ | visiting _ _ | exited _ | crashed => rfl
  | top | toWait | waiting | batch _ | accepted _ _ _ | locked _ _ _ | added _ _ _ => cases h

/-- The connection accepted and not yet added or refused, with its number. -/
def MainPc.hand : MainPc → Option (Nat × Option Nat)
  | .accepted fd conn _ | .locked fd conn _ => some (fd, conn)
  | .top | .toWait | .waiting | .batch _ | .added _ _ _ | .closing _ | .visiting _ _ | .exited _ | .crashed => none

/-- The task whose `recv` or `close` is next. -/
def WorkerPc.next : WorkerPc → Option Task
  | .msgRecv t | .toClose t => some t
  | .idle | .msgRead _ _ _ _ | .toLock _ | .toDel _ | .toErase _ | .sigRecv | .sigGot _ => none

/-- The task, while the worker has a `recv` or `close` for it to come. -/
def WorkerPc.touches (c : Cfg) : WorkerPc → Option Task
  | .msgRead t _ out errno => (nextPc c t out errno).next
  | pc => pc.next

/-- The task is in the batch, in the pool's queue, or with a worker that has
a `recv` or `close` for it to come. -/
def Has (c : Cfg) (s : St) (t : Task) : Prop :=
  .msg t ∈ s.main.events ∨ .msg t ∈ s.tasks ∨ ∃ w < c.concurCount, (s.workers w).touches c = some t

/-- No task for the number `fd` is anywhere but with worker `self`. -/
def Alone (c : Cfg) (s : St) (self : Option Nat) (fd : Nat) : Prop :=
  (∀ ev ∈ s.main.events ++ s.tasks, ev.fd ≠ some fd) ∧
  ∀ w < c.concurCount, some w ≠ self → ((s.workers w).touches c).map (·.fd) ≠ some fd

instance (c : Cfg) (s : St) (self : Option Nat) (fd : Nat) : Decidable (Alone c s self fd) :=
  inferInstanceAs (Decidable (_ ∧ _))

/-- A number is closed, by a worker or at the end of the server, only with no other task for it left. -/
def Exclusive (c : Cfg) (s : St) : Act → Prop
  | .worker w .close =>
    match s.workers w with
    | .toClose t => Alone c s (some w) t.fd
    | _ => True
  | .main (.closeNext fd) => Alone c s none fd
  | _ => True

instance (c : Cfg) (s : St) (a : Act) : Decidable (Exclusive c s a) := by
  unfold Exclusive
  split
  · split <;> infer_instance
  · infer_instance
  · infer_instance

def Call.conn : Call → Option Nat
  | .recv conn _ | .close conn _ => conn

/-- The connection the number of the call referred to. -/
def Call.on : Call → Option Nat
  | .recv _ on | .close _ on => on

/-- A `close` made for connection `n`. -/
def Call.closes (n : Nat) : Call → Bool
  | .close conn _ => conn == some n
  | .recv _ _ => false

/-- How many calls of `close` were made for connection `n`. -/
def closeCalls (s : St) (n : Nat) : Nat := s.calls.countP (Call.closes n)

/-- Each task's number refers to its own connection, which is not the one in
the main thread's hand; and the calls made so far were right. -/
structure Fresh (c : Cfg) (s : St) : Prop where
  current : ∀ t, Has c s t → (∃ n, t.conn = some n ∧ s.kern.ofd t.fd = some n) ∧
    s.main.hand.map (·.1) ≠ some t.fd
  hand : ∀ fd conn, s.main.hand = some (fd, conn) → conn = s.kern.ofd fd
  registered : ∀ fd ∈ s.epoll, fd = c.listenFd ∨ fd = c.sigPipeFd ∨ (s.kern.ofd fd).isSome = true
  calls : ∀ call ∈ s.calls, call.on = call.conn
  closes : ∀ n, closeCalls s n = s.kern.closes n

theorem init_fresh (c : Cfg) : Fresh c (init c) := by
  refine ⟨fun t ht => ?_, by simp [init, MainPc.hand], fun fd hfd => ?_, by simp [init], fun n => ?_⟩
  · rcases ht with ht | ht | ⟨w, -, ht⟩
    · simp [init, MainPc.events] at ht
    · simp [init] at ht
    · simp [init, WorkerPc.touches, WorkerPc.next] at ht
  · simp only [init, Finset.mem_insert, Finset.mem_singleton] at hfd
    exact hfd.imp_right .inl
  · simp [closeCalls, init, FdTable.empty]

/-! ## Steps -/

theorem Fresh.frame {c : Cfg} {s s' : St} (h : Fresh c s) (hkern : s'.kern = s.kern) (hcalls : s'.calls = s.calls)
    (hepoll : s'.epoll ⊆ s.epoll) (hhand : s'.main.hand = s.main.hand ∨ s'.main.hand = none)
    (hhas : ∀ t, Has c s' t → Has c s t) : Fresh c s' := by
  refine ⟨fun t ht => ?_, fun fd conn hc => ?_, fun fd hfd => ?_, ?_, fun n => ?_⟩
  · obtain ⟨hcur, hne⟩ := h.current t (hhas t ht)
    rw [hkern]
    refine ⟨hcur, ?_⟩
    rcases hhand with hh | hh
    · rw [hh]; exact hne
    · simp [hh]
  · rw [hkern]
    rcases hhand with hh | hh
    · exact h.hand fd conn (hh ▸ hc)
    · rw [hh] at hc; cases hc
  · rw [hkern]
    exact h.registered fd (hepoll hfd)
  · rw [hcalls]; exact h.calls
  · have := h.closes n
    rwa [closeCalls, hcalls, hkern]

theorem has_main {c : Cfg} {s s' : St} {t : Task} (hworkers : s'.workers = s.workers)
    (hev : .msg t ∈ s'.main.events ∨ .msg t ∈ s'.tasks → .msg t ∈ s.main.events ∨ .msg t ∈ s.tasks)
    (h : Has c s' t) : Has c s t := by
  rcases h with h | h | h
  · exact (hev (.inl h)).imp_right .inl
  · exact (hev (.inr h)).imp_right .inl
  · rw [hworkers] at h
    exact .inr (.inr h)

theorem has_worker {c : Cfg} {s s' : St} {w : Nat} {pc : WorkerPc} {t : Task} (hmain : s'.main = s.main)
    (htasks : ∀ ev ∈ s'.tasks, ev ∈ s.tasks) (hworkers : s'.workers = (s.setWorker w pc).workers)
    (hpc : ∀ t, pc.touches c = some t → (s.workers w).touches c = some t) (h : Has c s' t) : Has c s t := by
  rcases h with h | h | ⟨w', hw', h⟩
  · exact .inl (hmain ▸ h)
  · exact .inr (.inl (htasks _ h))
  · rw [hworkers] at h
    by_cases hw : w' = w
    · subst hw
      rw [setWorker_self] at h
      exact .inr (.inr ⟨w', hw', hpc t h⟩)
    · rw [setWorker_of_ne hw] at h
      exact .inr (.inr ⟨w', hw', h⟩)

theorem touches_nextPc {c : Cfg} {t : Task} {out : RecvOut} {errno : Errno} :
    (nextPc c t out errno).touches c = (nextPc c t out errno).next := by
  rcases nextPc_cases c t out errno with h | h | h <;> rw [h] <;> rfl

theorem touches_msgRead {c : Cfg} {t t' : Task} {on : Option Nat} {out : RecvOut} {errno : Errno}
    (h : (WorkerPc.msgRead t on out errno).touches c = some t') : t = t' := by
  simp only [WorkerPc.touches] at h
  rcases nextPc_cases c t out errno with hn | hn | hn
  · rw [hn] at h; cases h
  · rw [hn] at h; exact Option.some.inj h
  · rw [hn] at h; exact Option.some.inj h

theorem touches_inSig {c : Cfg} {pc : WorkerPc} (h : pc = .idle ∨ pc.inSig = true) : pc.touches c = none := by
  cases pc <;> simp_all [WorkerPc.inSig, WorkerPc.touches, WorkerPc.next]

theorem Fresh.epollWait {c : Cfg} {s : St} {fds : List Nat} {edge : Nat → Bool} (h : Fresh c s)
    (hfds : ∀ fd ∈ fds, fd ∈ s.epoll) :
    Fresh c { s with main := .batch (fds.map (toEvent c s)), mutex := none, edge := edge } := by
  refine ⟨fun t ht => ?_, by simp [MainPc.hand], h.registered, h.calls, h.closes⟩
  have hold : Has c s t → (∃ n, t.conn = some n ∧ s.kern.ofd t.fd = some n) := fun ht => (h.current t ht).1
  refine ⟨?_, by simp [MainPc.hand]⟩
  rcases ht with ht | ht | ht
  · obtain ⟨fd, hfd, hev⟩ := List.mem_map.mp ht
    unfold toEvent at hev
    split at hev
    · cases hev
    split at hev
    · cases hev
    next hl hs =>
      cases hev
      have hsome := ((h.registered fd (hfds fd hfd)).resolve_left hl).resolve_left hs
      obtain ⟨n, hn⟩ := Option.isSome_iff_exists.mp hsome
      exact ⟨n, hn, hn⟩
  · exact hold (.inr (.inl ht))
  · exact hold (.inr (.inr ht))

theorem Fresh.accept {c : Cfg} {s : St} {fd : Nat} {events : List Event} (h : Fresh c s)
    (hf : s.kern.ofd fd = none) (hm : s.main = .batch (.listen :: events)) :
    Fresh c { s with main := .accepted fd (some s.kern.opened) events, kern := s.kern.alloc fd hf } := by
  refine ⟨fun t ht => ?_, fun g conn hg => ?_, fun g hg => ?_, h.calls, fun n => h.closes n⟩
  · have hhas : Has c s t := by
      refine has_main ?_ (fun hev => ?_) ht
      · rfl
      · rw [hm]
        exact hev.imp_left (List.mem_cons_of_mem _)
    obtain ⟨⟨n, hconn, hn⟩, -⟩ := h.current t hhas
    have hne : t.fd ≠ fd := fun he => by rw [he, hf] at hn; cases hn
    exact ⟨⟨n, hconn, FdTable.alloc_ofd_old hf hn⟩, by simpa [MainPc.hand] using hne.symm⟩
  · cases hg
    simp
  · rcases h.registered g hg with hl | hl | hopen
    · exact .inl hl
    · exact .inr (.inl hl)
    · obtain ⟨n, hn⟩ := Option.isSome_iff_exists.mp hopen
      exact .inr (.inr (by simp [FdTable.alloc_ofd_old hf hn]))

theorem Fresh.closeFd_closes {c : Cfg} {s : St} {fd : Nat} {conn : Option Nat} (h : Fresh c s)
    (hconn : conn = s.kern.ofd fd) (n : Nat) : closeCalls (closeFd s fd conn) n = (s.kern.close fd).closes n := by
  have hcount : closeCalls (closeFd s fd conn) n = closeCalls s n + if conn = some n then 1 else 0 := by
    simp [closeCalls, closeFd, List.countP_append, Call.closes]
  rw [hcount, h.closes n, hconn]
  cases hfd : s.kern.ofd fd with
  | none => simp [FdTable.close_of_none hfd]
  | some m =>
    rw [FdTable.close_closes hfd]
    by_cases hnm : n = m
    · subst hnm
      simp [FdTable.closes_of_open hfd]
    · simp [hnm, Ne.symm hnm]

theorem Fresh.close {c : Cfg} {s s' : St} {fd : Nat} {conn : Option Nat} (h : Fresh c s)
    (hconn : conn = s.kern.ofd fd)
    (hsame : (s'.kern, s'.epoll, s'.calls) =
      ((closeFd s fd conn).kern, (closeFd s fd conn).epoll, (closeFd s fd conn).calls))
    (hhand : s'.main.hand = none ∨ s'.main.hand = s.main.hand ∧ s.main.hand.map (·.1) ≠ some fd)
    (hhas : ∀ t, Has c s' t → Has c s t ∧ t.fd ≠ fd) : Fresh c s' := by
  simp only [Prod.mk.injEq] at hsame
  obtain ⟨hkern, hepoll, hcalls⟩ := hsame
  refine ⟨fun t ht => ?_, fun g conn' hg => ?_, fun g hg => ?_, fun call hc => ?_, fun n => ?_⟩
  · obtain ⟨hold, hne⟩ := hhas t ht
    obtain ⟨⟨n, hn, hopen⟩, hnh⟩ := h.current t hold
    rw [hkern]
    refine ⟨⟨n, hn, FdTable.close_ofd_some.mpr ⟨hne, hopen⟩⟩, ?_⟩
    rcases hhand with hh | ⟨hh, -⟩
    · simp [hh]
    · rw [hh]; exact hnh
  · rcases hhand with hh | ⟨hh, hne⟩
    · rw [hh] at hg; cases hg
    · rw [hh] at hg
      have hgf : g ≠ fd := by
        rintro rfl
        simp [hg] at hne
      rw [hkern, h.hand g conn' hg]
      exact (FdTable.close_ofd_of_ne hgf).symm
  · rw [hepoll] at hg
    obtain ⟨hne, hreg⟩ := Finset.mem_erase.mp hg
    rw [hkern]
    simp only [closeFd, FdTable.close_ofd_of_ne hne]
    exact h.registered g hreg
  · rw [hcalls] at hc
    simp only [closeFd, List.mem_append, List.mem_singleton] at hc
    rcases hc with hc | rfl
    · exact h.calls call hc
    · exact hconn.symm
  · rw [hkern, closeCalls, hcalls]
    exact h.closeFd_closes hconn n

/-- The close of a worker whose number is `Alone` with it leaves no task for the number. -/
theorem has_close {c : Cfg} {s s' : St} {w : Nat} {t t' : Task} (hmain : s'.main = s.main)
    (htasks : s'.tasks = s.tasks) (hworkers : s'.workers = (s.setWorker w (.toLock t)).workers)
    (halone : Alone c s (some w) t.fd) (h : Has c s' t') : Has c s t' ∧ t'.fd ≠ t.fd := by
  rcases h with h | h | ⟨w', hw', h⟩
  · rw [hmain] at h
    refine ⟨.inl h, fun he => ?_⟩
    exact halone.1 _ (List.mem_append_left _ h) (by rw [Event.fd, he])
  · rw [htasks] at h
    refine ⟨.inr (.inl h), fun he => ?_⟩
    exact halone.1 _ (List.mem_append_right _ h) (by rw [Event.fd, he])
  · rw [hworkers] at h
    by_cases hw : w' = w
    · subst hw
      rw [setWorker_self] at h
      cases h
    · rw [setWorker_of_ne hw] at h
      refine ⟨.inr (.inr ⟨w', hw', h⟩), fun he => ?_⟩
      exact halone.2 w' hw' (by simpa using hw) (by rw [h, Option.map_some, he])

theorem has_closeNext {c : Cfg} {s s' : St} {fd : Nat} {t : Task} (hevents : s'.main.events = [])
    (htasks : s'.tasks = s.tasks) (hworkers : s'.workers = s.workers) (halone : Alone c s none fd)
    (h : Has c s' t) : Has c s t ∧ t.fd ≠ fd := by
  rcases h with h | h | ⟨w, hw, h⟩
  · rw [hevents] at h; cases h
  · rw [htasks] at h
    refine ⟨.inr (.inl h), fun he => ?_⟩
    exact halone.1 _ (List.mem_append_right _ h) (by rw [Event.fd, he])
  · rw [hworkers] at h
    refine ⟨.inr (.inr ⟨w, hw, h⟩), fun he => ?_⟩
    exact halone.2 w hw (by simp) (by rw [h, Option.map_some, he])

theorem Fresh.recv {c : Cfg} {s : St} {w : Nat} {t : Task} {out : RecvOut} {errno : Errno}
    {socket : Nat → Socket} (h : Fresh c s) (hw : w < c.concurCount) (hpc : s.workers w = .msgRecv t) :
    Fresh c { s.setWorker w (.msgRead t (s.kern.ofd t.fd) out errno) with
      socket := socket, calls := s.calls ++ [.recv t.conn (s.kern.ofd t.fd)] } := by
  obtain ⟨⟨n, hconn, hopen⟩, -⟩ := h.current t (.inr (.inr ⟨w, hw, by rw [hpc]; rfl⟩))
  have hset : Fresh c (s.setWorker w (.msgRead t (s.kern.ofd t.fd) out errno)) := by
    refine h.frame rfl rfl (Finset.Subset.refl _) (.inl rfl) fun t' => ?_
    refine has_worker rfl (fun _ => id) rfl fun t' ht' => ?_
    rw [hpc, touches_msgRead ht']
    rfl
  refine ⟨hset.current, hset.hand, hset.registered, fun call hc => ?_, fun m => ?_⟩
  · rcases List.mem_append.mp hc with hc | hc
    · exact h.calls call hc
    · rw [List.mem_singleton.mp hc]
      exact hopen.trans hconn.symm
  · have := h.closes m
    simpa [closeCalls, List.countP_append, Call.closes, St.setWorker] using this

theorem Fresh.add {c : Cfg} {s : St} {fd : Nat} {conn : Option Nat} {events : List Event} (h : Fresh c s)
    (hm : s.main = .locked fd conn events) : Fresh c { epollAdd s fd with main := .added fd conn events } := by
  have hmain : Fresh c { s with main := .added fd conn events } := by
    refine h.frame rfl rfl (Finset.Subset.refl _) (.inr rfl) fun t => has_main rfl fun hev => ?_
    rw [hm]
    exact hev
  unfold epollAdd
  split
  · exact hmain
  · next hsome =>
    refine ⟨hmain.current, hmain.hand, fun g hg => ?_, hmain.calls, hmain.closes⟩
    rcases Finset.mem_insert.mp hg with rfl | hg
    · exact .inr (.inr (Option.isSome_iff_ne_none.mpr hsome))
    · exact hmain.registered g hg

theorem Fresh.refuse {c : Cfg} {s : St} {fd : Nat} {conn : Option Nat} {events : List Event} (h : Fresh c s)
    (hm : s.main = .locked fd conn events) :
    Fresh c { closeFd s fd conn with main := .batch events, mutex := none } := by
  have hhand : s.main.hand = some (fd, conn) := by rw [hm]; rfl
  refine h.close (h.hand fd conn hhand) rfl (.inl rfl) fun t ht => ?_
  have hhas : Has c s t := by
    refine has_main ?_ (fun hev => ?_) ht
    · rfl
    · rw [hm]; exact hev
  have hne := (h.current t hhas).2
  rw [hhand] at hne
  exact ⟨hhas, fun he => hne (by simp [he])⟩

theorem Fresh.take {c : Cfg} {s : St} {w : Nat} {t : Task} {tasks : List Event} (h : Fresh c s)
    (hq : s.tasks = .msg t :: tasks) : Fresh c { s.setWorker w (.msgRecv t) with tasks := tasks } := by
  refine h.frame rfl rfl (Finset.Subset.refl _) (.inl rfl) fun t' ht' => ?_
  rcases ht' with ht' | ht' | ⟨w', hw', ht'⟩
  · exact .inl ht'
  · exact .inr (.inl (hq ▸ List.mem_cons_of_mem _ ht'))
  · by_cases hww : w' = w
    · subst hww
      simp only [setWorker_self] at ht'
      cases ht'
      exact .inr (.inl (hq ▸ List.mem_cons_self))
    · simp only [setWorker_of_ne hww] at ht'
      exact .inr (.inr ⟨w', hw', ht'⟩)

theorem step_fresh {c : Cfg} {s s' : St} {a : Act} (h : Fresh c s) (hok : Exclusive c s a) (hs : Step c s a s') :
    Fresh c s' := by
  have hsub := Finset.Subset.refl s.epoll
  cases hs with
  | loop hm =>
    refine h.frame rfl rfl hsub (.inr ?_) fun t => has_main rfl fun hev => ?_
    · simp only; split <;> rfl
    · refine .inr (hev.resolve_left fun hmem => ?_)
      simp only at hmem
      split at hmem <;> cases hmem
  | lockWait _ _ | epollFail _ _ | batchDone _ | advance _ | exit _ | crash _ =>
    refine h.frame rfl rfl hsub (.inr rfl) fun t => has_main rfl fun hev => ?_
    exact .inr (hev.resolve_left (by simp [MainPc.events]))
  | epollWait _ _ hfds => exact h.epollWait hfds
  | acceptFail hm =>
    refine h.frame rfl rfl hsub (.inr rfl) fun t => has_main rfl fun hev => ?_
    rw [hm]
    exact hev.imp_left (List.mem_cons_of_mem _)
  | accept hf hm _ => exact h.accept hf hm
  | @dispatch ev events hm =>
    refine h.frame rfl rfl hsub (.inr rfl) fun t => has_main rfl fun hev => ?_
    rw [hm]
    rcases hev with hev | hev
    · exact .inl (List.mem_cons_of_mem _ hev)
    · rcases List.mem_append.mp hev with hev | hev
      · exact .inr hev
      · exact .inl (List.mem_singleton.mp hev ▸ List.mem_cons_self)
  | lockAdd hm _ =>
    refine h.frame rfl rfl hsub (.inl (by rw [hm]; rfl)) fun t => has_main rfl fun hev => ?_
    rw [hm]
    exact hev
  | add hm _ => exact h.add hm
  | refuse hm => exact h.refuse hm
  | insert hm =>
    refine h.frame rfl rfl hsub (.inr rfl) fun t => has_main rfl fun hev => ?_
    rw [hm]
    exact hev
  | closeNext hm => exact h.close rfl rfl (.inl rfl) fun t => has_closeNext rfl rfl rfl hok
  | take _ _ hq => exact h.take hq
  | takeSig _ _ hq =>
    refine h.frame rfl rfl hsub (.inl rfl) fun t => ?_
    refine has_worker rfl (fun ev hev => ?_) rfl (by simp [WorkerPc.touches, WorkerPc.next])
    rw [hq]
    exact List.mem_cons_of_mem _ hev
  | recv _ hw hpc => exact h.recv hw hpc
  | test _ hpc =>
    refine h.frame rfl rfl hsub (.inl rfl) fun t => has_worker rfl (fun _ => id) rfl fun t' ht' => ?_
    rw [touches_nextPc] at ht'
    rw [hpc]
    exact ht'
  | @close w t hw hpc =>
    have halone : Alone c s (some w) t.fd := by
      simp only [Exclusive, hpc] at hok
      exact hok
    obtain ⟨⟨n, hconn, hopen⟩, hne⟩ := h.current t (.inr (.inr ⟨w, hw, by rw [hpc]; rfl⟩))
    exact h.close (hconn.trans hopen.symm) rfl (.inr ⟨rfl, hne⟩) fun t' => has_close rfl rfl rfl halone
  | lock _ _ _ | erase _ _ =>
    exact h.frame rfl rfl hsub (.inl rfl)
      fun t => has_worker rfl (fun _ => id) rfl (by simp [WorkerPc.touches, WorkerPc.next])
  | del _ _ =>
    exact h.frame rfl rfl (Finset.erase_subset _ _) (.inl rfl)
      fun t => has_worker rfl (fun _ => id) rfl (by simp [WorkerPc.touches, WorkerPc.next])
  | sig _ _ _ _ hpc =>
    exact h.frame rfl rfl hsub (.inl rfl) fun t => has_worker rfl (fun _ => id) rfl (by simp [touches_inSig hpc])
  | env _ _ _ => exact h.frame rfl rfl hsub (.inl rfl) fun t => has_main rfl id

/-- **No task outlives its connection in a run with `Exclusive`.** In every
state reached, each task still to `recv` or `close` has its own connection
under its number; every `recv` and `close` so far was made on the connection
it was meant for; and no connection had two of the `close`s. -/
theorem exclusive_calls {c : Cfg} {s : St} (h : Reach (step c) (Exclusive c) (init c) s) :
    (∀ t, Has c s t → ∃ n, t.conn = some n ∧ s.kern.ofd t.fd = some n) ∧
    (∀ call ∈ s.calls, call.on = call.conn) ∧
    (∀ n, closeCalls s n ≤ 1) := by
  have hfresh : Fresh c s := by
    refine h.invariant (init_fresh c) fun _ _ _ hs hok hstep => ?_
    exact step_fresh hs hok (step_sound hstep)
  refine ⟨fun t ht => (hfresh.current t ht).1, hfresh.calls, fun n => ?_⟩
  rw [hfresh.closes n]
  exact FdTable.closes_le_one s.kern n

theorem removedRun_exclusive :
    (runWhere (step demoCfg) (Exclusive demoCfg) (init demoCfg) removedRun).isSome := by decide +kernel

/-- `exclusive_calls` at the end of `removedRun`. -/
theorem exclusive_calls_demo :
    let s := (runWhere (step demoCfg) (Exclusive demoCfg) (init demoCfg) removedRun).get removedRun_exclusive
    (∀ t, Has demoCfg s t → ∃ n, t.conn = some n ∧ s.kern.ofd t.fd = some n) ∧
    (∀ call ∈ s.calls, call.on = call.conn) ∧
    (∀ n, closeCalls s n ≤ 1) :=
  exclusive_calls (reachWhere_get removedRun_exclusive)

/-- `demoCfg` with two pool threads. -/
def twoThreads : Cfg := { demoCfg with concurCount := 2 }

/-- A client leaves and is reported twice before its number is closed. Both
threads read the end of its stream; one closes and removes the number, it is
given to the next client, and the other comes to its `close`. -/
def staleRun : List Act :=
  acceptRound 7 ++ [.fin 7] ++ dispatchRound 7 ++ dispatchRound 7 ++
  [.worker 0 .take, .worker 0 (.recv .eagain), .worker 0 .test, .worker 1 .take, .worker 1 (.recv .eagain),
   .worker 1 .test, .worker 0 .close, .worker 0 .lock, .worker 0 .del, .worker 0 .erase] ++ acceptRound 7 ++
  [.worker 1 .close]

theorem staleRun_run : (run (step twoThreads) (init twoThreads) staleRun).isSome := by decide +kernel

/-- **A stale task closes the next client.** Connection 0 has had two
`close`s, the second of which closed connection 1. -/
theorem stale_closes_next : ∃ s, Reach (step twoThreads) Any (init twoThreads) s ∧
    .close (some 0) (some 1) ∈ s.calls ∧ s.kern.closes 1 = 1 ∧ closeCalls s 0 = 2 :=
  ⟨_, reach_get staleRun_run, by decide +kernel⟩

end LinuxServer.Epoll
