/-
Whether a child's loop comes to rest: what handling an event does about what
was reported.

Every branch uses something up, but one: at the end of the pipe from the
parent `recv` returns 0 and the loop goes on to the next event, so that the
same event is reported again at once (`AtEnd.spins`). Where that branch is not
taken, `work` goes down with each of the child's own steps.
-/
import Mathlib.Algebra.GroupWithZero.Nat
import Mathlib.Algebra.Order.BigOperators.Group.Finset
import LinuxServer.ProcPool.ChildLoop

namespace LinuxServer.ProcPool.ChildLoop

open Lts Child

variable {c : Cfg} {s s' s₁ : St} {a : Child.Act} {ev : Event} {rest : List Event} {sk sk' : Socket}
  {recvs : List RecvOut} {fd : Int} {n : Nat}

/-! ## Every event of a batch keeps something to read -/

theorem Ready.mono (h : Ready c s fd)
    (hpipe : fd = c.pipefd → 0 < s.pipe ∨ s.pipeFin = true → 0 < s'.pipe ∨ s'.pipeFin = true)
    (hsig : fd ≠ c.pipefd → fd = c.sigPipefd → s.sigPipe ≠ [] → s'.sigPipe ≠ [])
    (hcli : fd ≠ c.pipefd → fd ≠ c.sigPipefd → fd ∈ s.child.epoll → (s.sockOf fd).Readable →
      fd ∈ s'.child.epoll ∧ (s'.sockOf fd).Readable) : Ready c s' fd := by
  unfold Ready at h ⊢
  split
  · next hp => exact hpipe hp (by simpa [hp] using h)
  · next hp =>
    split
    · next hs => exact hsig hp hs (by simpa only [if_neg hp, if_pos hs] using h)
    · next hs =>
      simp only [if_neg hp, if_neg hs] at h
      exact hcli hp hs h.1 h.2

theorem Peer.apply_readable (p : Peer) (h : sk.Readable) : (p.apply sk).Readable := by
  cases p with
  | send bytes =>
    refine h.imp (fun hr => ?_) id
    exact List.append_ne_nil_of_left_ne_nil hr bytes
  | fin => exact .inr (.inl rfl)
  | reset e => exact .inr (.inr (by simp [Peer.apply]))

theorem Good.outside (hg : Good c s) (hchild : s'.child = s.child)
    (hpipe : 0 < s.pipe ∨ s.pipeFin = true → 0 < s'.pipe ∨ s'.pipeFin = true)
    (hsig : s.sigPipe ≠ [] → s'.sigPipe ≠ [])
    (hsock : ∀ n, (s.sock n).Readable → (s'.sock n).Readable) : Good c s' := by
  refine ⟨fun hpc => ?_, fun hpc ev hev => ?_⟩
  · rw [hchild] at hpc ⊢
    exact hg.inv hpc
  · rw [hchild] at hpc hev
    obtain ⟨hin, hr⟩ := hg.ready hpc ev hev
    refine ⟨hin, hr.mono (fun _ => hpipe) (fun _ _ => hsig) fun _ _ hreg hread => ⟨hchild ▸ hreg, ?_⟩⟩
    unfold St.sockOf at hread ⊢
    rw [hchild]
    split
    · next n hn =>
      rw [hn] at hread
      exact hsock n hread
    · next hn =>
      rw [hn] at hread
      exact hread

theorem ownStep_child (h : ownStep c s a = some s') : Child.step c s.child a = some s'.child := by
  unfold ownStep at h
  split at h
  · split at h
    · cases h
    · obtain ⟨s₁, -, h⟩ := Option.bind_eq_some_iff.mp h
      obtain ⟨ch, hch, rfl⟩ := Option.map_eq_some_iff.mp h
      exact hch
  · split at h
    · obtain ⟨ch, hch, rfl⟩ := Option.map_eq_some_iff.mp h
      exact hch
    · cases h
  · obtain ⟨ch, hch, rfl⟩ := Option.map_eq_some_iff.mp h
    exact hch
  · cases h
  · cases h

theorem Own.inBounds (h : Own c s a s') (hpc : s'.child.pc = .running) : InBounds s.child a := by
  cases h with
  | handle _ hh =>
    cases hh with
    | accept _ _ _ _ _ _ hlt => exact hlt
    | overrun _ _ _ _ hout =>
      rw [hout] at hpc
      cases hpc
    | noNotification | acceptFailed | signals | read | closed => trivial
  | epollWait | leave => trivial

theorem Good.others (hg : Good c s) (hpc : s.child.pc = .running) (hb : s.child.batch = ev :: rest)
    {ev' : Event} (hev' : ev' ∈ rest) :
    ev'.sockfd ≠ ev.sockfd ∧ ev'.epollin = true ∧ Ready c s ev'.sockfd := by
  have hnot := ((hg.inv hpc).pop hb).2
  refine ⟨fun he => hnot (he ▸ List.mem_map_of_mem hev'), hg.ready hpc ev' ?_⟩
  rw [hb]
  exact List.mem_cons_of_mem _ hev'

theorem sockOf_self (hn : s'.child.kern.ofd fd = some n) (hsock : s'.sock = Function.update s.sock n sk) :
    s'.sockOf fd = sk := by
  rw [sockOf_of_open hn, hsock, Function.update_self]

theorem sockOf_update {fd' : Int} (hn : s.child.kern.ofd fd = some n) (hne : fd' ≠ fd)
    (hkern : s'.child.kern.ofd fd' = s.child.kern.ofd fd') (hsock : s'.sock = Function.update s.sock n sk) :
    s'.sockOf fd' = s.sockOf fd' := by
  unfold St.sockOf
  rw [hkern, hsock]
  split
  · next m hm =>
    have hmn : m ≠ n := by
      rintro rfl
      exact hne (FdTable.ofd_inj hm hn)
    exact Function.update_of_ne hmn _ _
  · rfl

theorem sockOf_accept {connfd fd' : Int} {m : Nat} (hf : s.child.kern.ofd connfd = none)
    (hm : s.child.kern.ofd fd' = some m) (hkern : s'.child.kern = s.child.kern.alloc connfd hf)
    (hsock : s'.sock = Function.update s.sock s.child.kern.opened sk) : s'.sockOf fd' = s.sockOf fd' := by
  have hnew : s'.child.kern.ofd fd' = some m := by rw [hkern, FdTable.alloc_ofd_old hf hm]
  rw [sockOf_of_open hnew, sockOf_of_open hm, hsock, Function.update_of_ne (Nat.ne_of_lt (FdTable.lt_opened hm))]

/-- What the handled event leaves of the batch still has something to read. -/
theorem Handled.ready {ans : Answer} (hg : Good c s) (hrun : s.child.pc = .running)
    (hb : s.child.batch = ev :: rest) (h : Handled c s ev rest ans s') (hpc : s'.child.pc = .running) :
    ∀ ev ∈ s'.child.batch, ev.epollin = true ∧ Ready c s' ev.sockfd := by
  intro ev' hev'
  cases h with
  | noNotification => exact (hg.others hrun hb hev').2
  | acceptFailed => cases hev'
  | accept hf hev =>
    obtain ⟨hne, hin, hr⟩ := hg.others hrun hb hev'
    refine ⟨hin, hr.mono (fun hp => absurd (hp.trans hev.symm) hne) (fun _ _ => id) fun _ _ hreg hread => ?_⟩
    obtain ⟨m, hm, -⟩ := (hg.inv hrun).entry _ hreg
    refine ⟨Finset.mem_insert_of_mem hreg, ?_⟩
    rw [sockOf_accept hf hm]
    exacts [hread, rfl, rfl]
  | overrun _ _ _ _ hout =>
    rw [hout] at hpc
    cases hpc
  | signals hp hsig =>
    obtain ⟨hne, hin, hr⟩ := hg.others hrun hb hev'
    exact ⟨hin, hr.mono (fun _ => id) (fun _ hs => absurd (hs.trans hsig.symm) hne) fun _ _ => .intro⟩
  | read hp hsig hn =>
    obtain ⟨hne, hin, hr⟩ := hg.others hrun hb hev'
    refine ⟨hin, hr.mono (fun _ => id) (fun _ _ => id) fun _ _ hreg hread => ⟨hreg, ?_⟩⟩
    rw [sockOf_update hn hne]
    exacts [hread, rfl, rfl]
  | closed hp hsig hn =>
    obtain ⟨hne, hin, hr⟩ := hg.others hrun hb hev'
    refine ⟨hin, hr.mono (fun _ => id) (fun _ _ => id) fun _ _ hreg hread =>
      ⟨Finset.mem_erase.mpr ⟨hne, hreg⟩, ?_⟩⟩
    rw [sockOf_update hn hne]
    exacts [hread, FdTable.close_ofd_of_ne hne, rfl]

theorem Own.ready (hg : Good c s) (hrun : s.child.pc = .running) (h : Own c s a s')
    (hpc : s'.child.pc = .running) : ∀ ev ∈ s'.child.batch, ev.epollin = true ∧ Ready c s' ev.sockfd := by
  cases h with
  | handle hb hh => exact hh.ready hg hrun hb hpc
  | epollWait _ _ _ hall =>
    intro ev' hev'
    obtain ⟨e, he, rfl⟩ := List.mem_map.mp hev'
    exact hall e he
  | leave => cases hpc

theorem Good.own (hg : Good c s) (h : ownStep c s a = some s') : Good c s' := by
  obtain ⟨hrun, hown⟩ := own_sound hg h
  exact ⟨fun hpc => step_inv (hg.inv hrun) (hown.inBounds hpc) (ownStep_child h), hown.ready hg hrun⟩

theorem step_good {a : Act} (hg : Good c s) (h : step c s a = some s') : Good c s' := by
  cases a with
  | own a => exact hg.own h
  | notify =>
    simp only [step] at h
    split at h
    · cases h
    · cases h
      exact hg.outside rfl (fun _ => .inl (Nat.add_pos_right s.pipe (by decide))) id fun _ => id
  | parentGone => cases h; exact hg.outside rfl (fun _ => .inr rfl) id fun _ => id
  | signal sig => cases h; exact hg.outside rfl id (fun _ => by simp) fun _ => id
  | connect sk => cases h; exact hg.outside rfl id id fun _ => id
  | peer n p =>
    cases h
    refine hg.outside rfl id id fun m hm => ?_
    by_cases hmn : m = n
    · subst hmn
      simpa using p.apply_readable hm
    · simpa [Function.update_of_ne hmn] using hm
  | queued i p => cases h; exact hg.outside rfl id id fun _ => id
  | taken => cases h; exact hg.outside rfl id id fun _ => id
  | epollIntr =>
    obtain ⟨ch, hch, rfl⟩ := Option.map_eq_some_iff.mp h
    obtain ⟨-, hstep⟩ := step_sound hch
    cases hstep
    exact hg
  | epollFail =>
    obtain ⟨ch, hch, rfl⟩ := Option.map_eq_some_iff.mp h
    obtain ⟨-, hstep⟩ := step_sound hch
    cases hstep
    exact ⟨nofun, nofun⟩

theorem reach_good {ok : St → Act → Prop} (h : Reach (step c) ok init s) : Good c s :=
  h.invariant ⟨fun _ => init_inv c, by simp [init, Child.init]⟩ fun _ _ _ hg _ hs => step_good hg hs

/-! ## What an event uses up -/

/-- The bytes unread behind a descriptor. -/
def pending (c : Cfg) (s : St) (fd : Int) : Nat :=
  if fd = c.pipefd then s.pipe
  else if fd = c.sigPipefd then s.sigPipe.length
  else (s.sockOf fd).rcv.length

theorem pending_pipe (hev : fd = c.pipefd) : pending c s fd = s.pipe := if_pos hev

theorem pending_sig (hp : fd ≠ c.pipefd) (hsig : fd = c.sigPipefd) : pending c s fd = s.sigPipe.length :=
  (if_neg hp).trans (if_pos hsig)

theorem pending_client (hp : fd ≠ c.pipefd) (hsig : fd ≠ c.sigPipefd) :
    pending c s fd = (s.sockOf fd).rcv.length :=
  (if_neg hp).trans (if_neg hsig)

/-- From `s` to `s'` something pending on the descriptor of `ev` was read,
or the descriptor left the epoll set, or the child was told to stop. -/
def Progress (c : Cfg) (ev : Event) (s s' : St) : Prop :=
  pending c s' ev.sockfd < pending c s ev.sockfd ∨
  (ev.sockfd ∈ s.child.epoll ∧ ev.sockfd ∉ s'.child.epoll) ∨
  (s.child.stop = false ∧ s'.child.stop = true)

/-- The event is of the pipe at its end: all is read, and the parent's end is closed. -/
def AtEof (c : Cfg) (s : St) (ev : Event) : Prop := ev.sockfd = c.pipefd ∧ s.pipe = 0 ∧ s.pipeFin = true

instance (c : Cfg) (s : St) (ev : Event) : Decidable (AtEof c s ev) := inferInstanceAs (Decidable (_ ∧ _ ∧ _))

theorem recvAll_lt (hr : sk.Readable) (h : sk.recvAll recvs = some sk') (hr' : ¬ sk'.Readable) :
    sk'.rcv.length < sk.rcv.length := by
  obtain ⟨hfin, herr⟩ := recvAll_same h
  unfold Socket.Readable at hr hr'
  push Not at hr'
  obtain ⟨hnil, hf, he⟩ := hr'
  rw [hfin] at hf
  rw [herr] at he
  rw [hnil]
  rcases hr with hr | hr | hr
  · exact List.length_pos_iff.mpr hr
  · exact absurd hr hf
  · exact absurd he hr

theorem Good.readable (hg : Good c s) (hrun : s.child.pc = .running) (hev : ev ∈ s.child.batch)
    (hp : ev.sockfd ≠ c.pipefd) (hsig : ev.sockfd ≠ c.sigPipefd) (hn : s.child.kern.ofd ev.sockfd = some n) :
    ev.sockfd ∈ s.child.epoll ∧ (s.sock n).Readable := by
  have hready := (hg.ready hrun ev hev).2
  simp only [Ready, if_neg hp, if_neg hsig, sockOf_of_open hn] at hready
  exact hready

/-! ## What is left to do -/

/-- The bytes unread in the registered connections, with one more for each of them. -/
def unread (s : St) : Nat := ∑ fd ∈ s.child.epoll, (1 + (s.sockOf fd).rcv.length)

/-- The same for the connections not accepted. -/
def waiting (s : St) : Nat := (s.backlog.map fun sk => 1 + sk.rcv.length).sum

/-- All that the child's own steps can use up. -/
def load (s : St) : Nat := s.pipe + s.sigPipe.length + unread s + waiting s

/-- A bound on the own steps still to come: two for each unit of the load,
an `epoll_wait` and the handling of an event, and the way out. -/
def work (s : St) : Nat :=
  if s.child.pc = .running then 2 * load s + (if s.child.batch = [] then 2 else 1) else 0

theorem unread_accept {connfd : Int} (hg : Inv c s.child) (hf : s.child.kern.ofd connfd = none)
    (hkern : s'.child.kern = s.child.kern.alloc connfd hf) (hepoll : s'.child.epoll = insert connfd s.child.epoll)
    (hsock : s'.sock = Function.update s.sock s.child.kern.opened sk) :
    unread s' = 1 + sk.rcv.length + unread s := by
  have hnot : connfd ∉ s.child.epoll := by
    intro hreg
    obtain ⟨m, hm, -⟩ := hg.entry _ hreg
    rw [hf] at hm
    cases hm
  have hnew : s'.sockOf connfd = sk := by
    refine sockOf_self ?_ hsock
    rw [hkern, FdTable.alloc_ofd_self]
  unfold unread
  rw [hepoll, Finset.sum_insert hnot, hnew]
  refine congrArg (1 + sk.rcv.length + ·) (Finset.sum_congr rfl fun fd hfd => ?_)
  obtain ⟨m, hm, -⟩ := hg.entry fd hfd
  rw [sockOf_accept hf hm hkern hsock]

theorem unread_read (hreg : fd ∈ s.child.epoll) (hn : s.child.kern.ofd fd = some n)
    (hlt : sk.rcv.length < (s.sock n).rcv.length) (hkern : s'.child.kern = s.child.kern)
    (hepoll : s'.child.epoll = s.child.epoll) (hsock : s'.sock = Function.update s.sock n sk) :
    unread s' < unread s := by
  have hnew : s'.sockOf fd = sk := sockOf_self (by rw [hkern, hn]) hsock
  have hself : 1 + (s'.sockOf fd).rcv.length < 1 + (s.sockOf fd).rcv.length := by
    rw [hnew, sockOf_of_open hn]
    omega
  unfold unread
  rw [hepoll]
  refine Finset.sum_lt_sum (fun fd' _ => ?_) ⟨fd, hreg, hself⟩
  by_cases hfd : fd' = fd
  · subst hfd
    exact Nat.le_of_lt hself
  · rw [sockOf_update hn hfd (by rw [hkern]) hsock]

theorem unread_close (hreg : fd ∈ s.child.epoll) (hn : s.child.kern.ofd fd = some n)
    (hkern : s'.child.kern = s.child.kern.close fd) (hepoll : s'.child.epoll = s.child.epoll.erase fd)
    (hsock : s'.sock = Function.update s.sock n sk) : unread s' < unread s := by
  have hsame : unread s' = ∑ fd' ∈ s.child.epoll.erase fd, (1 + (s.sockOf fd').rcv.length) := by
    unfold unread
    rw [hepoll]
    refine Finset.sum_congr rfl fun fd' hfd' => ?_
    have hne := Finset.ne_of_mem_erase hfd'
    rw [sockOf_update hn hne (by rw [hkern, FdTable.close_ofd_of_ne hne]) hsock]
  rw [hsame]
  exact Finset.sum_erase_lt_of_pos hreg (by omega)

/-! ## Every event but one uses something up -/

theorem not_atEof {ret : Int} (hpos : 0 < ret) (hle : ret ≤ s.pipe) : ¬ AtEof c s ev := by
  intro he
  have hpipe := he.2.1
  omega

theorem progress_pipe {ret : Int} (hev : ev.sockfd = c.pipefd) (hpos : 0 < ret) (hle : ret ≤ s.pipe)
    (hpipe : s'.pipe = s.pipe - ret.toNat) : Progress c ev s s' := by
  left
  rw [pending_pipe hev, pending_pipe hev, hpipe]
  omega

/-- **What handling an event uses up.** At the end of the pipe there is no
progress; everywhere else there is, and less is left to do. -/
theorem Handled.uses {ans : Answer} (hg : Good c s) (hrun : s.child.pc = .running)
    (hb : s.child.batch = ev :: rest) (h : Handled c s ev rest ans s') :
    (AtEof c s ev ∧ ¬ Progress c ev s s') ∨
    (¬ AtEof c s ev ∧ Progress c ev s s' ∧ (s'.child.pc = .running → load s' < load s)) := by
  have hmem : ev ∈ s.child.batch := by rw [hb]; exact List.mem_cons_self ..
  have hready := (hg.ready hrun ev hmem).2
  unfold load
  obtain ⟨t, hs⟩ : ∃ t, s' = t := ⟨s', rfl⟩
  rw [hs] at h
  cases h with
  | noNotification hev hp =>
    subst hs
    have hfin : s.pipeFin = true := by simpa [Ready, hev, hp] using hready
    refine .inl ⟨⟨hev, hp, hfin⟩, ?_⟩
    rintro (hlt | ⟨hin, hout⟩ | ⟨hgo, hstop⟩)
    · exact Nat.lt_irrefl _ hlt
    · exact hout hin
    · exact Bool.false_ne_true (hgo.symm.trans hstop)
  | @acceptFailed ret hev hpos hle =>
    have hpipe : s'.pipe = s.pipe - ret.toNat := by rw [hs]
    refine .inr ⟨not_atEof hpos hle, progress_pipe hev hpos hle hpipe, fun _ => ?_⟩
    have hsig : s'.sigPipe.length = s.sigPipe.length := by rw [hs]
    have hunread : unread s' = unread s := by rw [hs]; rfl
    have hwait : waiting s' = waiting s := by rw [hs]; rfl
    omega
  | @accept ret connfd _ sk backlog hf hev hpos hle hbk =>
    have hpipe : s'.pipe = s.pipe - ret.toNat := by rw [hs]
    refine .inr ⟨not_atEof hpos hle, progress_pipe hev hpos hle hpipe, fun _ => ?_⟩
    have hsig : s'.sigPipe.length = s.sigPipe.length := by rw [hs]
    have hunread : unread s' = 1 + sk.rcv.length + unread s :=
      unread_accept (hg.inv hrun) hf (by rw [hs]) (by rw [hs]) (by rw [hs])
    have hwait : waiting s = 1 + sk.rcv.length + waiting s' := by
      rw [hs, waiting, hbk, List.map_cons, List.sum_cons]
      rfl
    omega
  | overrun hev hpos hle hpipe hout =>
    refine .inr ⟨not_atEof hpos hle, progress_pipe hev hpos hle (hs ▸ hpipe), fun hpc => ?_⟩
    rw [hs, hout] at hpc
    cases hpc
  | signals hp hsig =>
    have hsome : 0 < s.sigPipe.length := by
      simpa only [Ready, if_neg hp, if_pos hsig, List.length_pos_iff] using hready
    have hnone : s'.sigPipe.length = 0 := by rw [hs]; rfl
    refine .inr ⟨fun he => hp he.1, .inl ?_, fun _ => ?_⟩
    · rwa [pending_sig hp hsig, pending_sig hp hsig, hnone]
    have hpipe : s'.pipe = s.pipe := by rw [hs]
    have hunread : unread s' = unread s := by rw [hs]; rfl
    have hwait : waiting s' = waiting s := by rw [hs]; rfl
    omega
  | read hp hsig hn hrecv hdone =>
    obtain ⟨hreg, hread⟩ := hg.readable hrun hmem hp hsig hn
    have hlt := recvAll_lt hread hrecv hdone
    have hnew : s'.sockOf ev.sockfd = _ := sockOf_self (by rw [hs]; exact hn) (by rw [hs])
    refine .inr ⟨fun he => hp he.1, .inl ?_, fun _ => ?_⟩
    · rwa [pending_client hp hsig, pending_client hp hsig, sockOf_of_open hn, hnew]
    have hunread : unread s' < unread s := unread_read hreg hn hlt (by rw [hs]) (by rw [hs]) (by rw [hs])
    have hpipe : s'.pipe = s.pipe := by rw [hs]
    have hsig : s'.sigPipe.length = s.sigPipe.length := by rw [hs]
    have hwait : waiting s' = waiting s := by rw [hs]; rfl
    omega
  | closed hp hsig hn hrecv =>
    obtain ⟨hreg, -⟩ := hg.readable hrun hmem hp hsig hn
    have hgone : ev.sockfd ∉ s'.child.epoll := by
      rw [hs]
      exact Finset.notMem_erase _ _
    refine .inr ⟨fun he => hp he.1, .inr (.inl ⟨hreg, hgone⟩), fun _ => ?_⟩
    have hunread : unread s' < unread s := unread_close hreg hn (by rw [hs]) (by rw [hs]) (by rw [hs])
    have hpipe : s'.pipe = s.pipe := by rw [hs]
    have hsig : s'.sigPipe.length = s.sigPipe.length := by rw [hs]
    have hwait : waiting s' = waiting s := by rw [hs]; rfl
    omega

theorem Handled.progress_iff {ans : Answer} (hg : Good c s) (hrun : s.child.pc = .running)
    (hb : s.child.batch = ev :: rest) (h : Handled c s ev rest ans s') : Progress c ev s s' ↔ ¬ AtEof c s ev := by
  rcases h.uses hg hrun hb with ⟨heof, hno⟩ | ⟨hne, hyes, -⟩
  · exact iff_of_false hno (not_not_intro heof)
  · exact iff_of_true hyes hne

theorem Handled.load_lt {ans : Answer} (hg : Good c s) (hrun : s.child.pc = .running)
    (hb : s.child.batch = ev :: rest) (h : Handled c s ev rest ans s') (hne : ¬ AtEof c s ev)
    (hpc : s'.child.pc = .running) : load s' < load s := by
  rcases h.uses hg hrun hb with ⟨heof, -⟩ | ⟨-, -, hlt⟩
  · exact absurd heof hne
  · exact hlt hpc

/-- The step does not handle the end of the pipe. -/
def PipeOpen (c : Cfg) (s : St) : Child.Act → Prop
  | .handle _ => ∀ ev ∈ s.child.batch.head?, ¬ AtEof c s ev
  | _ => True

instance (c : Cfg) (s : St) : (a : Child.Act) → Decidable (PipeOpen c s a)
  | .handle _ => inferInstanceAs (Decidable (∀ ev ∈ s.child.batch.head?, ¬ AtEof c s ev))
  | .epollWait _ | .epollIntr | .epollFail | .leave => .isTrue trivial

theorem work_lt (hg : Good c s) (hok : PipeOpen c s a) (h : ownStep c s a = some s') : work s' < work s := by
  obtain ⟨hrun, hown⟩ := own_sound hg h
  unfold work
  rw [if_pos hrun]
  by_cases hpc : s'.child.pc = .running
  swap
  · rw [if_neg hpc]
    split <;> omega
  rw [if_pos hpc]
  cases hown with
  | handle hb hh =>
    have hload := hh.load_lt hg hrun hb (hok _ (by rw [hb]; rfl)) hpc
    have hbatch : ¬ s.child.batch = [] := by rw [hb]; exact List.cons_ne_nil _ _
    rw [if_neg hbatch]
    split <;> omega
  | epollWait hb _ hsome _ =>
    rw [if_pos hb, if_neg (by simpa using hsome)]
    exact Nat.add_lt_add_left (by decide) _
  | leave => cases hpc

/-! ## Where the loop rests -/

/-- The child is in `epoll_wait` with nothing to report. -/
def Blocked (c : Cfg) (s : St) : Prop :=
  s.child.pc = .running ∧ s.child.stop = false ∧ s.child.batch = [] ∧ ∀ fd, ¬ Ready c s fd

theorem ownStep_handle {ans : Answer} (hrun : s.child.pc = .running) (hb : s.child.batch = ev :: rest)
    (hans : (answer s ev ans).isSome) (hch : (handleEvent c { s.child with batch := rest } ev ans).isSome) :
    (ownStep c s (.handle ans)).isSome := by
  obtain ⟨s₁, hans⟩ := Option.isSome_iff_exists.mp hans
  obtain ⟨ch, hch⟩ := Option.isSome_iff_exists.mp hch
  have hstep : Child.step c s.child (.handle ans) = some ch := by simpa only [Child.step, hrun, hb] using hch
  simp [ownStep, hb, hans, hstep]

/-- Every event of a batch can be handled. -/
theorem handles (hg : Good c s) (hrun : s.child.pc = .running) (hb : s.child.batch = ev :: rest) :
    ∃ ans, (ownStep c s (.handle ans)).isSome := by
  have hmem : ev ∈ s.child.batch := by rw [hb]; exact List.mem_cons_self ..
  have hin : ev.epollin = true := (hg.ready hrun ev hmem).1
  by_cases hp : ev.sockfd = c.pipefd
  · by_cases hpipe : s.pipe = 0
    · refine ⟨.pipe (if s.pipeFin then 0 else -1) none, ownStep_handle hrun hb (by simp [answer, hpipe]) ?_⟩
      have hle : (if s.pipeFin then 0 else -1 : Int) ≤ 0 := by split <;> decide
      simp [handleEvent, hp, hin, hle]
    · have hone : (1 : Int) ≤ s.pipe := by omega
      refine ⟨.pipe 1 none, ownStep_handle hrun hb (by simp [answer, hpipe, hone]) ?_⟩
      simp [handleEvent, hp, hin]
  by_cases hsig : ev.sockfd = c.sigPipefd
  · refine ⟨.signals s.sigPipe, ownStep_handle hrun hb (by simp [answer]) ?_⟩
    simp [handleEvent, hsig ▸ hp, hsig, hin]
  · obtain ⟨-, n, hn, hu⟩ := hg.client hrun hmem hp hsig
    obtain ⟨recvs, sk, hrecv⟩ := recvAll_total (s.sock n)
    obtain ⟨o, ho, -⟩ := recvAll_process hrecv
    refine ⟨.client recvs, ownStep_handle hrun hb (by simp [answer, hu, TestConn.init, hn, hrecv]) ?_⟩
    simp [handleEvent, hp, hsig, hin, processUser, ho]

/-- Where no step of the child's own is left it has ended, or waits. -/
theorem blocked_of_stuck (hg : Good c s) (hstuck : ∀ a, ownStep c s a = none) :
    s.child.pc ≠ .running ∨ Blocked c s := by
  refine or_iff_not_imp_left.mpr fun hpc => ?_
  have hrun : s.child.pc = .running := not_not.mp hpc
  have hb : s.child.batch = [] := by
    cases hb : s.child.batch with
    | nil => rfl
    | cons ev rest =>
      obtain ⟨ans, h⟩ := handles hg hrun hb
      rw [hstuck] at h
      cases h
  have hstop : s.child.stop = false := by
    by_contra hstop
    have := hstuck .leave
    simp [ownStep, Child.step, hrun, hb, hstop] at this
  refine ⟨hrun, hstop, hb, fun fd hready => ?_⟩
  have hreg : fd = c.pipefd ∨ fd = c.sigPipefd ∨ fd ∈ s.child.epoll := by
    unfold Ready at hready
    split at hready
    · next hp => exact .inl hp
    · split at hready
      · next hs => exact .inr (.inl hs)
      · exact .inr (.inr hready.1)
  have := hstuck (.epollWait [(fd, true)])
  simp [ownStep, Child.step, hrun, hb, hstop, hready, Reportable, maxEventNumber, hreg] at this

/-! ## The end of the pipe -/

/-- A round of the loop at the end of the pipe. -/
def eofRound (c : Cfg) : List Child.Act := [.epollWait [(c.pipefd, true)], .handle (.pipe 0 none)]

/-- The child is in its loop with its pipe at the end. -/
structure AtEnd (s : St) : Prop where
  running : s.child.pc = .running
  going : s.child.stop = false
  batch : s.child.batch = []
  pipe : s.pipe = 0
  fin : s.pipeFin = true

/-- The child with the pipe reported, and nothing else. -/
def pipeReported (c : Cfg) (s : St) : St :=
  { s with child := { s.child with batch := [⟨c.pipefd, true, s.child.kern.ofd c.pipefd⟩] } }

theorem AtEnd.reported (h : AtEnd s) : ownStep c s (.epollWait [(c.pipefd, true)]) = some (pipeReported c s) := by
  have hready : Ready c s c.pipefd := by simp [Ready, h.fin]
  simp [ownStep, Child.step, h.running, h.going, h.batch, hready, Reportable, maxEventNumber, pipeReported]

theorem AtEnd.handled (h : AtEnd s) : ownStep c (pipeReported c s) (.handle (.pipe 0 none)) = some s := by
  have hback : ({ s with child := { s.child with batch := [] } } : St) = s := by rw [← h.batch]
  simpa [ownStep, Child.step, pipeReported, h.running, answer, h.pipe, h.fin, handleEvent] using hback

theorem AtEnd.round (h : AtEnd s) : run (ownStep c) s (eofRound c) = some s := by
  simp only [eofRound, run, h.reported, h.handled, Option.bind_some]

/-- **At the end of the pipe the loop spins**: any number of rounds comes
back to the same state, with nothing new from outside. -/
theorem AtEnd.spins (h : AtEnd s) (k : Nat) :
    run (ownStep c) s (List.replicate k (eofRound c)).flatten = some s := by
  induction k with
  | zero => rfl
  | succ k ih =>
    rw [List.replicate_succ, List.flatten_cons, run_append h.round, ih]

/-- **When a child's loop makes progress.** In every state it can reach,
handling an event reads something pending on the descriptor, or takes the
descriptor out of the epoll set, or stops the child, exactly when the event
is not of the pipe at its end. As long as no such event is handled, the
child's own steps are at most `work` many, with nothing new from outside;
and where none is left it has ended, or waits with nothing to report. -/
theorem child_progress {c : Cfg} {s : St} (h : Reach (step c) Any init s) :
    (∀ ev rest ans s', s.child.batch = ev :: rest → ownStep c s (.handle ans) = some s' →
      (Progress c ev s s' ↔ ¬ AtEof c s ev)) ∧
    (∀ as s', runWhere (ownStep c) (PipeOpen c) s as = some s' → as.length ≤ work s) ∧
    ((∀ a, ownStep c s a = none) → s.child.pc ≠ .running ∨ Blocked c s) := by
  have hg := reach_good h
  refine ⟨fun ev rest ans s' hb hs => ?_, fun as s' hrun => ?_, blocked_of_stuck hg⟩
  · obtain ⟨hpc, hown⟩ := own_sound hg hs
    cases hown with
    | handle hb' hh =>
      rw [hb] at hb'
      cases hb'
      exact hh.progress_iff hg hpc hb
  · have hlen := runWhere_length_le (I := Good c) (m := work)
      (fun _ _ _ hg hok hs => ⟨hg.own hs, work_lt hg hok hs⟩) hg hrun
    omega

/-- A client connects and sends, the child is notified, accepts it and is told of its bytes. -/
def demoActs : List Act :=
  [.connect ⟨[], false, none⟩, .notify, .own (.epollWait [(7, true)]),
   .own (.handle (.pipe 4 (some (11, ⟨1, 80⟩)))), .peer 0 (.send [104, 105]), .own (.epollWait [(11, true)])]

theorem demoActs_run : (run (step demoCfg) init demoActs).isSome := by decide +kernel

/-- `child_progress` where a client's event is to be handled. -/
theorem child_progress_client :
    let s := (run (step demoCfg) init demoActs).get demoActs_run
    (∀ ev rest ans s', s.child.batch = ev :: rest → ownStep demoCfg s (.handle ans) = some s' →
      (Progress demoCfg ev s s' ↔ ¬ AtEof demoCfg s ev)) ∧
    (∀ as s', runWhere (ownStep demoCfg) (PipeOpen demoCfg) s as = some s' → as.length ≤ work s) ∧
    ((∀ a, ownStep demoCfg s a = none) → s.child.pc ≠ .running ∨ Blocked demoCfg s) :=
  child_progress (reach_get demoActs_run)

/-- The parent's end is closed while the child waits. `epoll_wait` has the
pipe to report and nothing else, its handling makes no progress, and with
nothing new the child goes round for ever. -/
theorem closed_pipe_spins : ∃ s, Reach (step demoCfg) Any init s ∧ (∀ fd, Ready demoCfg s fd ↔ fd = 7) ∧
    (∃ s₁ ev, ownStep demoCfg s (.epollWait [(7, true)]) = some s₁ ∧ s₁.child.batch = [ev] ∧ ev.sockfd = 7 ∧
      ev.epollin = true ∧ ownStep demoCfg s₁ (.handle (.pipe 0 none)) = some s ∧ ¬ Progress demoCfg ev s₁ s) ∧
    ∀ k, run (ownStep demoCfg) s (List.replicate k (eofRound demoCfg)).flatten = some s := by
  have hend : AtEnd { init with pipeFin := true } := ⟨rfl, rfl, rfl, rfl, rfl⟩
  have hreach : Reach (step demoCfg) Any init { init with pipeFin := true } :=
    .tail (a := .parentGone) .refl trivial rfl
  refine ⟨_, hreach, fun fd => ?_, ⟨_, _, hend.reported, rfl, rfl, rfl, hend.handled, ?_⟩, hend.spins⟩
  · simp [Ready, demoCfg, init, Child.init]
  · simp [Progress, pending, demoCfg, pipeReported, init, Child.init]

end LinuxServer.ProcPool.ChildLoop
