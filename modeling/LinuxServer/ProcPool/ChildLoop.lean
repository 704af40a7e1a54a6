/-
A process-pool child with what there is to read behind its descriptors
(`SrvProcessPool::run_child`, epoll_half_sync_reactive_proc_pool_server.hpp).

`Child.step` takes the kernel's answers as its inputs. Here the kernel's side
is kept too: the bytes unread in the pipe, in the signal pipe and in each
connection, so that an answer is one it can give. `addfd` registers every
descriptor level-triggered: `epoll_wait` reports some of those with
something to read, or at their end, for as long as they have it. What
arrives while an event is handled counts as there before.
-/
import LinuxServer.ProcPool.ChildSound

namespace LinuxServer.ProcPool.ChildLoop

open Lts Child

/-- `BUF_SIZE`. -/
def bufSize : Nat := 4096

/-- An error a connection is left with: not that of an empty buffer. -/
def HardErrno : Type := { e : Errno // e.wouldBlock = false }
  deriving DecidableEq

/-- The side of a connection that is read: the bytes unread, whether the
peer has closed its side, and the pending error. -/
structure Socket where
  rcv : List UInt8
  fin : Bool
  err : Option HardErrno
  deriving DecidableEq

/-- What the peer does. -/
inductive Peer
  | send (bytes : List UInt8)
  | fin
  | reset (e : HardErrno)

def Peer.apply (sk : Socket) : Peer → Socket
  | .send bytes => { sk with rcv := sk.rcv ++ bytes }
  | .fin => { sk with fin := true }
  | .reset e => { sk with err := some e }

/-- A `recv` would not answer with an empty buffer. -/
def Socket.Readable (sk : Socket) : Prop := sk.rcv ≠ [] ∨ sk.fin = true ∨ sk.err ≠ none

instance (sk : Socket) : Decidable sk.Readable := inferInstanceAs (Decidable (_ ∨ _ ∨ _))

/-- The socket after the `recv` calls of one `process`, the last of them the
one that ends its loop; `none` where the calls cannot have these outcomes. -/
def Socket.recvAll (sk : Socket) : List RecvOut → Option Socket
  | .data bytes :: recvs =>
    if bytes ≠ [] ∧ bytes.length ≤ bufSize - 1 ∧ bytes <+: sk.rcv then
      Socket.recvAll { sk with rcv := sk.rcv.drop bytes.length } recvs
    else none
  | [.eof] => if sk.rcv = [] ∧ sk.fin = true ∧ sk.err = none then some sk else none
  | [.error e] =>
    if e.wouldBlock then if sk.Readable then none else some sk
    else if sk.err.map (·.1) = some e then some sk else none
  | _ => none

structure St where
  child : Child.St
  /-- the bytes unread in the pipe from the parent -/
  pipe : Nat
  /-- no process has the parent's end of the pipe any more -/
  pipeFin : Bool
  /-- the bytes unread in the signal pipe -/
  sigPipe : List Signal
  /-- the connections accepted, by the names `child.kern` gives them -/
  sock : Nat → Socket
  /-- the connections to the listening socket not accepted yet -/
  backlog : List Socket

def init : St where
  child := Child.init
  pipe := 0
  pipeFin := false
  sigPipe := []
  sock _ := ⟨[], false, none⟩
  backlog := []

/-- The connection open on `fd`, none being one with nothing to read. -/
def St.sockOf (s : St) (fd : Int) : Socket :=
  match s.child.kern.ofd fd with
  | some n => s.sock n
  | none => ⟨[], false, none⟩

/-- `epoll_wait` has `EPOLLIN` to report on `fd`. -/
def Ready (c : Cfg) (s : St) (fd : Int) : Prop :=
  if fd = c.pipefd then 0 < s.pipe ∨ s.pipeFin = true
  else if fd = c.sigPipefd then s.sigPipe ≠ []
  else fd ∈ s.child.epoll ∧ (s.sockOf fd).Readable

instance (c : Cfg) (s : St) (fd : Int) : Decidable (Ready c s fd) :=
  inferInstanceAs (Decidable (if fd = c.pipefd then _ else if fd = c.sigPipefd then _ else _ ∧ _))

/-- The kernel's side of handling `ev` with the answer: `recv` of up to 4
bytes of the pipe, then `accept` of the oldest connection waiting, or its
failure; the whole of the signal pipe; or the reads in `process`. -/
def answer (s : St) (ev : Event) : Answer → Option St
  | .pipe ret acc =>
    if s.pipe = 0 then
      if ret = (if s.pipeFin then 0 else -1) ∧ acc = none then some s else none
    else if 0 < ret ∧ ret ≤ 4 ∧ ret ≤ s.pipe then
      match acc, s.backlog with
      | none, _ => some { s with pipe := s.pipe - ret.toNat }
      | some _, sk :: backlog => some { s with
          pipe := s.pipe - ret.toNat
          sock := Function.update s.sock s.child.kern.opened sk
          backlog := backlog }
      | some _, [] => none
    else none
  | .signals bytes => if bytes = s.sigPipe then some { s with sigPipe := [] } else none
  | .client recvs =>
    match s.child.kern.ofd (s.child.users ev.sockfd).cliFd with
    | none => if recvs = [.error .ebadf] then some s else none
    | some n => ((s.sock n).recvAll recvs).map fun sk => { s with sock := Function.update s.sock n sk }

/-- The child's own steps. `epoll_wait` returns when there is something to
report, and always with `EPOLLIN`, which the end of a stream and an error
come with too. -/
def ownStep (c : Cfg) (s : St) (a : Child.Act) : Option St :=
  match a with
  | .handle ans =>
    match s.child.batch with
    | [] => none
    | ev :: _ => (answer s ev ans).bind fun s₁ => (Child.step c s.child a).map fun ch => { s₁ with child := ch }
  | .epollWait events =>
    if events ≠ [] ∧ ∀ e ∈ events, e.2 = true ∧ Ready c s e.1 then
      (Child.step c s.child a).map fun ch => { s with child := ch }
    else none
  | .leave => (Child.step c s.child a).map fun ch => { s with child := ch }
  | .epollIntr | .epollFail => none

/-- What can happen next: a step of the child's own, or something new from
outside: a notification, the close of the parent's end, a signal whose byte
fits into its pipe, a connection or what its peer does, another child's
`accept`, an `epoll_wait` interrupted or failing. -/
inductive Act
  | own (a : Child.Act)
  | notify
  | parentGone
  | signal (sig : Signal)
  | connect (sk : Socket)
  | peer (n : Nat) (p : Peer)
  | queued (i : Nat) (p : Peer)
  | taken
  | epollIntr
  | epollFail

def step (c : Cfg) (s : St) : Act → Option St
  | .own a => ownStep c s a
  | .notify => if s.pipeFin then none else some { s with pipe := s.pipe + 4 }
  | .parentGone => some { s with pipeFin := true }
  | .signal sig => some { s with sigPipe := s.sigPipe ++ [sig] }
  | .connect sk => some { s with backlog := s.backlog ++ [sk] }
  | .peer n p => some { s with sock := Function.update s.sock n (p.apply (s.sock n)) }
  | .queued i p => some { s with backlog := s.backlog.modify i p.apply }
  | .taken => some { s with backlog := s.backlog.tail }
  | .epollIntr => (Child.step c s.child .epollIntr).map fun ch => { s with child := ch }
  | .epollFail => (Child.step c s.child .epollFail).map fun ch => { s with child := ch }

/-! ## What a step of the child's own can do -/

/-- What handling `ev` can come to, `rest` being the batch after it. -/
inductive Handled (c : Cfg) (s : St) (ev : Event) (rest : List Event) : Answer → St → Prop
  | noNotification {ret : Int} : ev.sockfd = c.pipefd → s.pipe = 0 →
      Handled c s ev rest (.pipe ret none) { s with child := { s.child with batch := rest } }
  | acceptFailed {ret : Int} : ev.sockfd = c.pipefd → 0 < ret → ret ≤ s.pipe →
      Handled c s ev rest (.pipe ret none)
        { s with pipe := s.pipe - ret.toNat, child := { s.child with batch := [] } }
  | accept {ret connfd : Int} {addr sk backlog} (h : s.child.kern.ofd connfd = none) : ev.sockfd = c.pipefd →
      0 < ret → ret ≤ s.pipe → s.backlog = sk :: backlog → c.own connfd = false → connfd < userPerProcess →
      Handled c s ev rest (.pipe ret (some (connfd, addr)))
        { s with
          pipe := s.pipe - ret.toNat
          sock := Function.update s.sock s.child.kern.opened sk
          backlog := backlog
          child := { s.child with
            batch := rest
            kern := s.child.kern.alloc connfd h
            addr := Function.update s.child.addr s.child.kern.opened addr
            epoll := insert connfd s.child.epoll
            users := Function.update s.child.users connfd (.init c.epollfd connfd addr) } }
  | overrun {ret connfd : Int} {addr s'} : ev.sockfd = c.pipefd → 0 < ret → ret ≤ s.pipe →
      s'.pipe = s.pipe - ret.toNat → s'.child.pc = .outOfBounds →
      Handled c s ev rest (.pipe ret (some (connfd, addr))) s'
  | signals {stop} : ev.sockfd ≠ c.pipefd → ev.sockfd = c.sigPipefd →
      Handled c s ev rest (.signals s.sigPipe)
        { s with sigPipe := [], child := { s.child with batch := rest, stop := stop } }
  | read {recvs n sk} : ev.sockfd ≠ c.pipefd → ev.sockfd ≠ c.sigPipefd → s.child.kern.ofd ev.sockfd = some n →
      (s.sock n).recvAll recvs = some sk → ¬ sk.Readable →
      Handled c s ev rest (.client recvs)
        { s with sock := Function.update s.sock n sk, child := { s.child with batch := rest } }
  | closed {recvs n sk} : ev.sockfd ≠ c.pipefd → ev.sockfd ≠ c.sigPipefd → s.child.kern.ofd ev.sockfd = some n →
      (s.sock n).recvAll recvs = some sk →
      Handled c s ev rest (.client recvs)
        { s with
          sock := Function.update s.sock n sk
          child := { s.child with
            batch := rest
            kern := s.child.kern.close ev.sockfd
            epoll := s.child.epoll.erase ev.sockfd
            closeCalls := s.child.closeCalls ++ [s.child.kern.ofd ev.sockfd] } }

/-- The own steps of a child in its loop (`own_sound`). -/
inductive Own (c : Cfg) (s : St) : Child.Act → St → Prop
  | handle {ev rest ans s'} : s.child.batch = ev :: rest → Handled c s ev rest ans s' → Own c s (.handle ans) s'
  | epollWait {events} : s.child.batch = [] → s.child.stop = false → events ≠ [] →
      (∀ e ∈ events, e.2 = true ∧ Ready c s e.1) → Own c s (.epollWait events)
        { s with child := { s.child with batch := events.map fun e => ⟨e.1, e.2, s.child.kern.ofd e.1⟩ } }
  | leave : s.child.batch = [] → s.child.stop = true →
      Own c s .leave { s with child := { s.child with pc := .left } }

variable {c : Cfg} {s s' s₁ : St} {a : Child.Act} {ev : Event} {rest : List Event} {sk sk' : Socket}
  {recvs : List RecvOut} {fd : Int} {n : Nat}

/-! ## The reads of one `process` -/

theorem recvAll_same (h : sk.recvAll recvs = some sk') : sk'.fin = sk.fin ∧ sk'.err = sk.err := by
  fun_induction Socket.recvAll sk recvs with
  | case1 sk bytes recvs hd ih => exact ih h
  | case3 | case6 | case7 => cases h; exact ⟨rfl, rfl⟩
  | case2 | case4 | case5 | case8 | case9 => cases h

/-- The calls end the loop of `process`, and where it does not close the
connection there is nothing left to read. -/
theorem recvAll_process (h : sk.recvAll recvs = some sk') :
    ∃ o, TestConn.process recvs = some o ∧ (o.closed = false → ¬ sk'.Readable) := by
  fun_induction Socket.recvAll sk recvs with
  | case1 sk bytes recvs hd ih =>
    obtain ⟨o, ho, hr⟩ := ih h
    exact ⟨{ o with logged := bytes :: o.logged }, by simp [TestConn.process, ho], hr⟩
  | case3 => exact ⟨⟨[], false, true⟩, rfl, by simp⟩
  | case6 sk e he hr =>
    cases h
    exact ⟨⟨[], true, false⟩, by simp [TestConn.process, he], fun _ => hr⟩
  | case7 sk e he => exact ⟨⟨[], false, true⟩, by simp [TestConn.process, he], by simp⟩
  | case2 | case4 | case5 | case8 | case9 => cases h

/-- Whatever a connection holds, there is a way to read it to the end. -/
theorem recvAll_total (sk : Socket) : ∃ recvs sk', sk.recvAll recvs = some sk' := by
  obtain ⟨rcv, fin, err⟩ := sk
  induction rcv with
  | nil =>
    cases err with
    | some e => exact ⟨[.error e.1], ⟨[], fin, some e⟩, by simp [Socket.recvAll, e.2]⟩
    | none =>
      cases fin with
      | true => exact ⟨[.eof], ⟨[], true, none⟩, by simp [Socket.recvAll]⟩
      | false =>
        exact ⟨[.error .eagain], ⟨[], false, none⟩, by simp [Socket.recvAll, Errno.wouldBlock, Socket.Readable]⟩
  | cons b rcv ih =>
    obtain ⟨recvs, sk', h⟩ := ih
    exact ⟨.data [b] :: recvs, sk', by simpa [Socket.recvAll, bufSize] using h⟩

/-! ## What the kernel answers -/

theorem sockOf_of_open (h : s.child.kern.ofd fd = some n) : s.sockOf fd = s.sock n := by
  simp [St.sockOf, h]

theorem answer_pipe {ret : Int} {acc : Option (Int × SockAddrIn)} (h : answer s ev (.pipe ret acc) = some s₁) :
    (s.pipe = 0 ∧ ret ≤ 0 ∧ acc = none ∧ s₁ = s) ∨
    (0 < ret ∧ ret ≤ s.pipe ∧ acc = none ∧ s₁ = { s with pipe := s.pipe - ret.toNat }) ∨
    (0 < ret ∧ ret ≤ s.pipe ∧ ∃ a sk backlog, acc = some a ∧ s.backlog = sk :: backlog ∧ s₁ = { s with
      pipe := s.pipe - ret.toNat
      sock := Function.update s.sock s.child.kern.opened sk
      backlog := backlog }) := by
  unfold answer at h
  by_cases hp : s.pipe = 0
  · simp only [if_pos hp, Option.ite_none_right_eq_some] at h
    obtain ⟨⟨hret, hacc⟩, hs⟩ := h
    refine .inl ⟨hp, ?_, hacc, (Option.some.inj hs).symm⟩
    rw [hret]
    split <;> decide
  · simp only [if_neg hp, Option.ite_none_right_eq_some] at h
    obtain ⟨⟨hpos, -, hle⟩, h⟩ := h
    split at h
    · cases h; exact .inr (.inl ⟨hpos, hle, rfl, rfl⟩)
    · next hb => cases h; exact .inr (.inr ⟨hpos, hle, _, _, _, rfl, hb, rfl⟩)
    · cases h

/-! ## Every own step is one of them -/

/-- In its loop the child has the invariant, and every event of the batch is
`EPOLLIN` on a descriptor with something to read, or at its end. -/
structure Good (c : Cfg) (s : St) : Prop where
  inv : s.child.pc = .running → Inv c s.child
  ready : s.child.pc = .running → ∀ ev ∈ s.child.batch, ev.epollin = true ∧ Ready c s ev.sockfd

theorem removefd_eq (c : Cfg) (s : Child.St) (fd : Int) : removefd c s c.epollfd fd =
    { s with
      kern := s.kern.close fd
      epoll := s.epoll.erase fd
      closeCalls := s.closeCalls ++ [s.kern.ofd fd] } := by
  simp [removefd, closeFd, epollDel]

theorem Good.client (hg : Good c s) (hpc : s.child.pc = .running) (hev : ev ∈ s.child.batch)
    (hp : ev.sockfd ≠ c.pipefd) (hsig : ev.sockfd ≠ c.sigPipefd) :
    ev.sockfd ∈ s.child.epoll ∧ ∃ n, EntryOk c s.child ev.sockfd n := by
  obtain ⟨hreg, -⟩ := (hg.inv hpc).registered hev hp hsig
  exact ⟨hreg, (hg.inv hpc).entry _ hreg⟩

theorem handled_sound {ans : Answer} {ch : Child.St} (hg : Good c s) (hpc : s.child.pc = .running)
    (hb : s.child.batch = ev :: rest) (hans : answer s ev ans = some s₁)
    (h : Child.Handled c s.child ev rest ans ch) : Handled c s ev rest ans { s₁ with child := ch } := by
  have hmem : ev ∈ s.child.batch := by rw [hb]; exact List.mem_cons_self ..
  cases h with
  | noNotification hev hin hret =>
    rcases answer_pipe hans with ⟨hp, -, rfl, rfl⟩ | ⟨hpos, -⟩ | ⟨hpos, -⟩
    · exact .noNotification hev hp
    · omega
    · omega
  | acceptFailed hev hin hret =>
    rcases answer_pipe hans with ⟨-, hle, -⟩ | ⟨-, hle, -, rfl⟩ | ⟨-, hle, _, sk, backlog, hacc, -⟩
    · omega
    · exact .acceptFailed hev hret hle
    · cases hacc
  | accept hf hev hin hret hown h0 hlt =>
    rcases answer_pipe hans with ⟨-, hle, -⟩ | ⟨-, hle, hacc, -⟩ | ⟨-, hle, _, sk, backlog, -, hbk, rfl⟩
    · omega
    · cases hacc
    · exact .accept hf hev hret hle hbk hown hlt
  | overrun hev hin hret hge =>
    rcases answer_pipe hans with ⟨-, hle, -⟩ | ⟨-, hle, hacc, -⟩ | ⟨-, hle, _, sk, backlog, -, hbk, rfl⟩
    · omega
    · cases hacc
    · exact .overrun hev hret hle rfl rfl
  | signals hp hsig hin =>
    simp only [answer] at hans
    split at hans
    · next he =>
      cases hans
      subst he
      obtain ⟨stop, hstop⟩ := signals_stop s.sigPipe _
      rw [hstop]
      exact .signals hp hsig
    · cases hans
  | client hp hsig hin hpr =>
    obtain ⟨-, n, hn, hu⟩ := hg.client hpc hmem hp hsig
    simp only [answer, hu, TestConn.init, hn] at hans
    obtain ⟨sk, hsk, rfl⟩ := Option.map_eq_some_iff.mp hans
    obtain ⟨o, ho, hr⟩ := recvAll_process hsk
    simp only [processUser, hu, TestConn.init, ho, Option.map_some, Option.some.injEq] at hpr
    subst hpr
    cases hcl : o.closed with
    | true =>
      rw [if_pos rfl, removefd_eq]
      exact .closed hp hsig hn hsk
    | false => exact .read hp hsig hn hsk (hr hcl)
  | skip hout =>
    have hin := (hg.ready hpc ev hmem).1
    rw [hout] at hin
    cases hin

theorem own_sound (hg : Good c s) (h : ownStep c s a = some s') : s.child.pc = .running ∧ Own c s a s' := by
  unfold ownStep at h
  split at h
  · split at h
    · cases h
    next hb =>
    obtain ⟨s₁, hans, h⟩ := Option.bind_eq_some_iff.mp h
    obtain ⟨ch, hch, rfl⟩ := Option.map_eq_some_iff.mp h
    obtain ⟨hpc, hstep⟩ := step_sound hch
    cases hstep with
    | handle hb' hh =>
      rw [hb] at hb'
      cases hb'
      exact ⟨hpc, .handle hb (handled_sound hg hpc hb hans hh)⟩
  · split at h
    · next hsome =>
      obtain ⟨ch, hch, rfl⟩ := Option.map_eq_some_iff.mp h
      obtain ⟨hpc, hstep⟩ := step_sound hch
      cases hstep with
      | epollWait hb hstop _ => exact ⟨hpc, .epollWait hb hstop hsome.1 hsome.2⟩
    · cases h
  · obtain ⟨ch, hch, rfl⟩ := Option.map_eq_some_iff.mp h
    obtain ⟨hpc, hstep⟩ := step_sound hch
    cases hstep with
    | leave hb hstop => exact ⟨hpc, .leave hb hstop⟩
  · cases h
  · cases h

end LinuxServer.ProcPool.ChildLoop
