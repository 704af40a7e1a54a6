/-
What holds of a process-pool child between any two events: each registered
client descriptor names an open connection, and its entry of `users` is
what the accept of that connection stored there.

The batch is part of the invariant (`Inv.batch`): an event still to be
handled names the connection it was reported for, because only its own
handling closes that descriptor, and a descriptor occurs once in a batch.
-/
import Mathlib.Data.List.Nodup
import LinuxServer.ProcPool.Child

namespace LinuxServer.ProcPool.Child

open Lts

/-- Every descriptor `accept` returns is an index of `users`. -/
def InBounds (_ : St) : Act → Prop
  | .handle (.pipe _ (some (connfd, _))) => connfd < userPerProcess
  | _ => True

instance (s : St) (a : Act) : Decidable (InBounds s a) := by
  unfold InBounds; split <;> infer_instance

/-- The entry of `users` that the connection open on `fd` was given. -/
def EntryOk (c : Cfg) (s : St) (fd : Int) (n : Nat) : Prop :=
  s.kern.ofd fd = some n ∧ s.users fd = .init c.epollfd fd (s.addr n)

structure Inv (c : Cfg) (s : St) : Prop where
  entry : ∀ fd ∈ s.epoll, ∃ n, EntryOk c s fd n
  notOwn : ∀ fd ∈ s.epoll, c.own fd = false
  batch : ∀ ev ∈ s.batch, ev.sockfd = c.pipefd ∨ ev.sockfd = c.sigPipefd ∨
    (ev.sockfd ∈ s.epoll ∧ ev.conn = s.kern.ofd ev.sockfd)
  once : (s.batch.map (·.sockfd)).Nodup
  closed : ∀ o ∈ s.closeCalls, ∃ n, o = some n ∧ s.kern.closes n = 1
  closedOnce : s.closeCalls.Nodup
  inside : s.pc ≠ .outOfBounds

theorem init_inv (c : Cfg) : Inv c init := by constructor <;> simp [init]

theorem Inv.abandon {c : Cfg} {s : St} (h : Inv c s) : Inv c { s with batch := [] } :=
  ⟨h.entry, h.notOwn, by simp, by simp, h.closed, h.closedOnce, h.inside⟩

theorem Inv.signals {c : Cfg} {s : St} (h : Inv c s) (bytes : List Signal) :
    Inv c (bytes.foldl handleSignal s) := by
  obtain ⟨stop, hstop⟩ := signals_stop bytes s
  rw [hstop]
  exact ⟨h.entry, h.notOwn, h.batch, h.once, h.closed, h.closedOnce, h.inside⟩

/-- `accept` returned a number that names nothing: no registered descriptor
and no event of the batch is on it. -/
theorem Inv.accept {c : Cfg} {s : St} {connfd : Int} {addr : SockAddrIn} (h : Inv c s)
    (hfree : s.kern.ofd connfd = none) (hown : c.own connfd = false) :
    Inv c { s with
      kern := s.kern.alloc connfd hfree
      addr := Function.update s.addr s.kern.opened addr
      epoll := insert connfd s.epoll
      users := Function.update s.users connfd (.init c.epollfd connfd addr) } := by
  refine ⟨fun fd hfd => ?_, fun fd hfd => ?_, fun ev hev => ?_, h.once, h.closed, h.closedOnce, h.inside⟩
  · by_cases he : fd = connfd
    · subst he
      exact ⟨s.kern.opened, by simp, by simp⟩
    · obtain ⟨n, hn, hu⟩ := h.entry fd (by simpa [he] using hfd)
      have hlt := FdTable.lt_opened hn
      refine ⟨n, by simp [FdTable.alloc_ofd_of_ne hfree he, hn], ?_⟩
      simp [Function.update_of_ne he, hu, Function.update_of_ne (Nat.ne_of_lt hlt)]
  · simp only [Finset.mem_insert] at hfd
    rcases hfd with rfl | hfd
    · exact hown
    · exact h.notOwn fd hfd
  · rcases h.batch ev hev with hp | hs | ⟨hreg, hconn⟩
    · exact .inl hp
    · exact .inr (.inl hs)
    · obtain ⟨n, hn, -⟩ := h.entry _ hreg
      refine .inr (.inr ⟨Finset.mem_insert_of_mem hreg, ?_⟩)
      rw [hconn, hn, FdTable.alloc_ofd_old hfree hn]

/-- `users[sockfd].process()` closes no descriptor but `sockfd`. -/
theorem Inv.process {c : Cfg} {s s' : St} {sockfd : Int} {recvs : List RecvOut} (h : Inv c s)
    (hreg : sockfd ∈ s.epoll) (hnot : sockfd ∉ s.batch.map (·.sockfd))
    (hs : processUser c s sockfd recvs = some s') : Inv c s' := by
  obtain ⟨n, hn, hu⟩ := h.entry sockfd hreg
  simp only [processUser, hu, TestConn.init, Option.map_eq_some_iff] at hs
  obtain ⟨o, -, rfl⟩ := hs
  split
  · simp only [removefd, closeFd, epollDel, if_true, Finset.erase_idem]
    have hne : ∀ fd ∈ s.epoll.erase sockfd, fd ≠ sockfd := fun fd hfd => (Finset.mem_erase.mp hfd).1
    refine ⟨fun fd hfd => ?_, fun fd hfd => h.notOwn fd (Finset.mem_of_mem_erase hfd),
      fun ev hev => ?_, h.once, fun o ho => ?_, ?_, h.inside⟩
    · obtain ⟨m, hm, hum⟩ := h.entry fd (Finset.mem_of_mem_erase hfd)
      exact ⟨m, FdTable.close_ofd_some.mpr ⟨hne fd hfd, hm⟩, hum⟩
    · have hev' : ev.sockfd ≠ sockfd := fun he => hnot (he ▸ List.mem_map_of_mem hev)
      rcases h.batch ev hev with hp | hs | ⟨hreg', hconn⟩
      · exact .inl hp
      · exact .inr (.inl hs)
      · exact .inr (.inr ⟨Finset.mem_erase.mpr ⟨hev', hreg'⟩, by rw [hconn, FdTable.close_ofd_of_ne hev']⟩)
    · simp only [List.mem_append, List.mem_singleton] at ho
      rcases ho with ho | rfl
      · obtain ⟨m, rfl, hm⟩ := h.closed o ho
        exact ⟨m, rfl, FdTable.close_closes_mono hm⟩
      · exact ⟨n, hn, by simp [FdTable.close_closes hn]⟩
    · refine List.nodup_append.mpr ⟨h.closedOnce, by simp, fun o ho o' ho' => ?_⟩
      simp only [List.mem_singleton] at ho'
      rintro rfl
      obtain ⟨m, hom, hm⟩ := h.closed o ho
      rw [ho', hn, Option.some.injEq] at hom
      rw [← hom, FdTable.closes_of_open hn] at hm
      cases hm
  · exact h

theorem Inv.pop {c : Cfg} {s : St} {ev : Event} {rest : List Event} (h : Inv c s) (hb : s.batch = ev :: rest) :
    Inv c { s with batch := rest } ∧ ev.sockfd ∉ rest.map (·.sockfd) := by
  have honce := h.once
  rw [hb, List.map_cons, List.nodup_cons] at honce
  refine ⟨⟨h.entry, h.notOwn, fun ev' hev' => h.batch ev' ?_, honce.2, h.closed, h.closedOnce, h.inside⟩, honce.1⟩
  rw [hb]
  exact List.mem_cons_of_mem _ hev'

/-- An event on a client's descriptor is on a registered one, of the connection it was reported for. -/
theorem Inv.registered {c : Cfg} {s : St} {ev : Event} (h : Inv c s) (hev : ev ∈ s.batch)
    (hp : ev.sockfd ≠ c.pipefd) (hsig : ev.sockfd ≠ c.sigPipefd) :
    ev.sockfd ∈ s.epoll ∧ ev.conn = s.kern.ofd ev.sockfd := by
  rcases h.batch ev hev with he | he | hreg
  · exact absurd he hp
  · exact absurd he hsig
  · exact hreg

theorem step_inv {c : Cfg} {s s' : St} {a : Act} (h : Inv c s) (hin : InBounds s a)
    (hs : step c s a = some s') : Inv c s' := by
  obtain ⟨-, hstep⟩ := step_sound hs
  cases hstep with
  | handle hb hh =>
    obtain ⟨hrest, hnot⟩ := h.pop hb
    cases hh with
    | noNotification | skip => exact hrest
    | acceptFailed => exact h.abandon
    | accept hfree _ _ _ hown => exact hrest.accept hfree hown
    | overrun _ _ _ hge => exact absurd hin (Int.not_lt.mpr hge)
    | signals => exact hrest.signals _
    | client hp hsig _ hproc =>
      obtain ⟨hreg, -⟩ := h.registered (by rw [hb]; exact List.mem_cons_self ..) hp hsig
      exact hrest.process hreg hnot hproc
  | epollWait _ _ hrep =>
    obtain ⟨hnd, -, hreg⟩ := hrep
    refine ⟨h.entry, h.notOwn, fun ev hev => ?_, ?_, h.closed, h.closedOnce, h.inside⟩
    · simp only [List.mem_map] at hev
      obtain ⟨e, he, rfl⟩ := hev
      rcases hreg e he with hp | hsig | hr
      · exact .inl hp
      · exact .inr (.inl hsig)
      · exact .inr (.inr ⟨hr, rfl⟩)
    · simpa [Function.comp_def] using hnd
  | epollIntr => exact h
  | epollFail | leave => exact ⟨h.entry, h.notOwn, h.batch, h.once, h.closed, h.closedOnce, by simp⟩

theorem reach_inv {c : Cfg} {s : St} (h : Reach (step c) InBounds init s) : Inv c s :=
  h.invariant (init_inv c) fun _ _ _ hs hin hstep => step_inv hs hin hstep

/-- **The `users` array follows the descriptors.** With every accepted
descriptor an index of `users`, between the handling of any two events of
any run: each registered descriptor but the two pipes names an open
connection, the latest accept that returned it, and its entry of `users` is
what that accept stored; so `process` is called on the connection its event
was reported for. Every `close` finds its connection open, and no
connection is closed twice. -/
theorem runChild_sound {c : Cfg} {s : St} (h : Reach (step c) InBounds init s) :
    (∀ fd ∈ s.epoll, fd ≠ c.pipefd → fd ≠ c.sigPipefd →
      ∃ n, s.kern.ofd fd = some n ∧ s.kern.last fd = some n ∧
        s.users fd = ⟨c.epollfd, fd, s.addr n⟩) ∧
    (∀ ev ∈ s.batch, ev.sockfd ≠ c.pipefd → ev.sockfd ≠ c.sigPipefd →
      ∃ n, ev.conn = some n ∧ s.kern.ofd ev.sockfd = some n ∧ (s.users ev.sockfd).cliFd = ev.sockfd) ∧
    (∀ o ∈ s.closeCalls, o ≠ none) ∧ s.closeCalls.Nodup ∧ s.pc ≠ .outOfBounds := by
  have hs := reach_inv h
  refine ⟨fun fd hfd _ _ => ?_, fun ev hev hp hsig => ?_, fun o ho => ?_, hs.closedOnce, hs.inside⟩
  · obtain ⟨n, hn, hu⟩ := hs.entry fd hfd
    exact ⟨n, hn, s.kern.ofd_last fd n hn, hu⟩
  · obtain ⟨hreg, hconn⟩ := hs.registered hev hp hsig
    obtain ⟨n, hn, hu⟩ := hs.entry _ hreg
    exact ⟨n, hconn.trans hn, hn, by rw [hu]; rfl⟩
  · obtain ⟨n, rfl, -⟩ := hs.closed o ho
    simp

/-- A child with its pipe on 7, its signal pipe on 9 and its epoll set on 8. -/
def demoCfg : Cfg where
  listenfd := 3
  epollfd := 8
  pipefd := 7
  sigPipefd := 9
  own f := 0 ≤ f ∧ f ≤ 10
  pipe_own := by decide
  sig_own := by decide
  own_nonneg := by simp; omega

/-- A client on 11 sends and hangs up; the same batch accepts the next one,
which is given 11 again and is still connected. -/
def demoRun : List Act :=
  [.epollWait [(7, true)], .handle (.pipe 4 (some (11, ⟨1, 80⟩))),
   .epollWait [(11, true), (7, true)], .handle (.client [.data [72, 105], .eof]),
   .handle (.pipe 4 (some (11, ⟨2, 81⟩))), .epollWait [(9, true), (11, true)],
   .handle (.signals [.sigchld])]

theorem demoRun_run : (runWhere (step demoCfg) InBounds init demoRun).isSome := by decide +kernel

/-- `runChild_sound` at the end of `demoRun`, where 11 is on its second connection. -/
theorem runChild_sound_demo :
    let s := (runWhere (step demoCfg) InBounds init demoRun).get demoRun_run
    (∀ fd ∈ s.epoll, fd ≠ demoCfg.pipefd → fd ≠ demoCfg.sigPipefd →
      ∃ n, s.kern.ofd fd = some n ∧ s.kern.last fd = some n ∧
        s.users fd = ⟨demoCfg.epollfd, fd, s.addr n⟩) ∧
    (∀ ev ∈ s.batch, ev.sockfd ≠ demoCfg.pipefd → ev.sockfd ≠ demoCfg.sigPipefd →
      ∃ n, ev.conn = some n ∧ s.kern.ofd ev.sockfd = some n ∧ (s.users ev.sockfd).cliFd = ev.sockfd) ∧
    (∀ o ∈ s.closeCalls, o ≠ none) ∧ s.closeCalls.Nodup ∧ s.pc ≠ .outOfBounds :=
  runChild_sound (reachWhere_get demoRun_run)

end LinuxServer.ProcPool.Child
