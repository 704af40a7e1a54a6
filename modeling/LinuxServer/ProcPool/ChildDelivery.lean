/-
What a process-pool child's clients see of it over a whole run: the chunks
`TestConn::process` reports of each connection, its "OK"s and the close, beside
the stream the client sent (epoll_half_sync_reactive_proc_pool_server.hpp).

`told` is `ChildLoop.step` with these two kept beside the child. One
`process` reads until the buffer is empty, so a connection that is open has
been answered since the last chunk, and one that is closed was read to its
end or had an error (`Told`).
-/
import LinuxServer.ProcPool.ChildProgress

namespace LinuxServer.ProcPool.ChildLoop

open Lts Child

/-- What `process` does for a connection, as far as log and client see it. A
chunk is the one reported; its line has its text up to the first NUL. -/
inductive Said
  | chunk (bytes : List UInt8)
  | ok
  | closed
  deriving DecidableEq, Repr

/-- What one call of `process` comes to, in order. -/
def said (o : ProcessOut) : List Said :=
  o.logged.map .chunk ++ (if o.replied then [.ok] else []) ++ if o.closed then [.closed] else []

/-- The chunks among them. -/
def chunks (out : List Said) : List (List UInt8) :=
  out.flatMap fun
    | .chunk bytes => [bytes]
    | .ok | .closed => []

/-- The child, with what was done for each connection and the stream its client sent. -/
structure Sys where
  st : St
  out : Nat → List Said
  sent : Nat → List UInt8

def Sys.init : Sys := ⟨ChildLoop.init, fun _ => [], fun _ => []⟩

/-- What a step does for which connection. -/
def saidBy (s : St) : Act → Option (Nat × List Said)
  | .own (.handle (.client recvs)) =>
    match s.child.batch with
    | [] => none
    | ev :: _ =>
      match s.child.kern.ofd (s.child.users ev.sockfd).cliFd, TestConn.process recvs with
      | some n, some o => some (n, said o)
      | _, _ => none
  | _ => none

/-- A connection's stream: what it holds when it is accepted, and what its client sends then. -/
def sentBy (s s' : St) (sent : Nat → List UInt8) : Act → Nat → List UInt8
  | .own (.handle (.pipe _ (some _))) =>
    Function.update sent s.child.kern.opened (s'.sock s.child.kern.opened).rcv
  | .peer n (.send bytes) => Function.update sent n (sent n ++ bytes)
  | _ => sent

/-- `ChildLoop.step` with the history. -/
def told (c : Cfg) (g : Sys) (a : Act) : Option Sys :=
  (step c g.st a).map fun s' =>
    { st := s'
      out := match saidBy g.st a with
        | some (n, said) => Function.update g.out n (g.out n ++ said)
        | none => g.out
      sent := sentBy g.st s' g.sent a }

/-- A client sends nothing after its own FIN or reset. -/
def Proper (g : Sys) : Act → Prop
  | .peer n (.send _) => (g.st.sock n).fin = false ∧ (g.st.sock n).err = none
  | _ => True

instance (g : Sys) (a : Act) : Decidable (Proper g a) := by
  unfold Proper
  split <;> infer_instance

/-- The connection is open in the child. -/
def Open (s : St) (n : Nat) : Prop := ∃ fd, s.child.kern.ofd fd = some n

/-- The child's own steps, each with what it does to the table of
connections and to those accepted. -/
inductive Conns (c : Cfg) (s : St) : Child.Act → St → Prop
  | accept {ret connfd addr s'} (hf : s.child.kern.ofd connfd = none) :
      s'.child.kern = s.child.kern.alloc connfd hf → s'.child.epoll = insert connfd s.child.epoll →
      (∀ n < s.child.kern.opened, s'.sock n = s.sock n) →
      Conns c s (.handle (.pipe ret (some (connfd, addr)))) s'
  | client {ev rest recvs n sk o s'} : s.child.batch = ev :: rest → s.child.kern.ofd ev.sockfd = some n →
      (s.child.users ev.sockfd).cliFd = ev.sockfd → (s.sock n).recvAll recvs = some sk →
      TestConn.process recvs = some o → s'.sock = Function.update s.sock n sk →
      (o.closed = false → s'.child.kern = s.child.kern ∧ s'.child.epoll = s.child.epoll) →
      (o.closed = true → s'.child.kern = s.child.kern.close ev.sockfd ∧
        s'.child.epoll = s.child.epoll.erase ev.sockfd) →
      Conns c s (.handle (.client recvs)) s'
  | other {a s'} : s'.child.kern = s.child.kern → s'.child.epoll = s.child.epoll →
      (∀ n < s.child.kern.opened, s'.sock n = s.sock n) → saidBy s (.own a) = none → Conns c s a s'

section
variable {c : Cfg} {s s' s₁ : St} {a : Child.Act} {ev : Event} {rest : List Event} {sk sk' : Socket}
  {recvs : List RecvOut} {n : Nat} {o : ProcessOut} {g g' : Sys}

/-! ## One call of `process` -/

theorem chunks_append (out out' : List Said) : chunks (out ++ out') = chunks out ++ chunks out' := by
  simp [chunks]

theorem chunks_said (o : ProcessOut) : chunks (said o) = o.logged := by
  have hlogged : ∀ l : List (List UInt8), chunks (l.map .chunk) = l := by
    intro l
    induction l with
    | nil => rfl
    | cons bytes l ih =>
      simp only [chunks, List.map_cons, List.flatMap_cons] at ih ⊢
      rw [ih]
      rfl
  unfold said
  rw [chunks_append, chunks_append, hlogged]
  cases o.replied <;> cases o.closed <;> simp [chunks]

/-- **One `process` on a socket.** What it logs is what it took from the
buffer. It replies unless it closes; it closes after an error, or at the end
of the stream with nothing left. -/
theorem recvAll_said (h : sk.recvAll recvs = some sk') (ho : TestConn.process recvs = some o) :
    o.logged.flatten ++ sk'.rcv = sk.rcv ∧ o.replied = !o.closed ∧
      (o.closed = true → sk.err ≠ none ∨ (sk.fin = true ∧ sk'.rcv = [])) := by
  fun_induction Socket.recvAll sk recvs generalizing o with
  | case1 sk bytes recvs hd ih =>
    obtain ⟨o', ho', rfl⟩ := Option.map_eq_some_iff.mp ho
    obtain ⟨hrcv, hrep, hcl⟩ := ih h ho'
    obtain ⟨-, -, tail, htail⟩ := hd
    refine ⟨?_, hrep, hcl⟩
    show (bytes :: o'.logged).flatten ++ sk'.rcv = sk.rcv
    rw [List.flatten_cons, List.append_assoc, hrcv, ← htail, List.drop_left]
  | case3 sk hd =>
    cases h
    cases ho
    exact ⟨rfl, rfl, fun _ => .inr ⟨hd.2.1, hd.1⟩⟩
  | case6 sk e he =>
    cases h
    simp only [TestConn.process, he, if_true, Option.some.injEq] at ho
    subst ho
    exact ⟨rfl, rfl, by simp⟩
  | case7 sk e he herr =>
    cases h
    simp only [TestConn.process, if_neg he, Option.some.injEq] at ho
    subst ho
    refine ⟨rfl, rfl, fun _ => .inl fun hnone => ?_⟩
    rw [hnone] at herr
    cases herr
  | case2 | case4 | case5 | case8 | case9 => cases h

/-! ## What a step does to the connections -/

theorem answer_sock {ret : Int} {acc : Option (Int × SockAddrIn)} (h : answer s ev (.pipe ret acc) = some s₁) :
    ∀ n < s.child.kern.opened, s₁.sock n = s.sock n := by
  intro n hn
  rcases answer_pipe h with ⟨-, -, -, rfl⟩ | ⟨-, -, -, rfl⟩ | ⟨-, -, _, sk, backlog, -, -, rfl⟩
  · rfl
  · rfl
  · exact Function.update_of_ne (Nat.ne_of_lt hn) _ _

theorem handled_conns {ans : Answer} {ch : Child.St} (hg : Good c s) (hpc : s.child.pc = .running)
    (hb : s.child.batch = ev :: rest) (hans : answer s ev ans = some s₁)
    (h : Child.Handled c s.child ev rest ans ch) : Conns c s (.handle ans) { s₁ with child := ch } := by
  have hmem : ev ∈ s.child.batch := by rw [hb]; exact List.mem_cons_self ..
  cases h with
  | noNotification | acceptFailed | overrun => exact .other rfl rfl (fun n hn => answer_sock hans n hn) rfl
  | accept hf => exact .accept hf rfl rfl fun n hn => answer_sock hans n hn
  | signals hp hsig hin =>
    simp only [answer, Option.ite_none_right_eq_some, Option.some.injEq] at hans
    obtain ⟨-, rfl⟩ := hans
    obtain ⟨stop, hstop⟩ := signals_stop _ { s.child with batch := rest }
    rw [hstop]
    exact .other rfl rfl (fun _ _ => rfl) rfl
  | client hp hsig hin hpr =>
    obtain ⟨-, n, hn, hu⟩ := hg.client hpc hmem hp hsig
    simp only [answer, hu, TestConn.init, hn] at hans
    obtain ⟨sk, hsk, rfl⟩ := Option.map_eq_some_iff.mp hans
    obtain ⟨o, ho, -⟩ := recvAll_process hsk
    simp only [processUser, hu, TestConn.init, ho, Option.map_some, Option.some.injEq] at hpr
    subst hpr
    refine .client hb hn (by rw [hu]; rfl) hsk ho rfl (fun hcl => ?_) fun hcl => ?_
    · simp [hcl]
    · simp [hcl, removefd_eq]
  | skip hout =>
    have hin := (hg.ready hpc ev hmem).1
    rw [hout] at hin
    cases hin

theorem own_conns (hg : Good c s) (h : ownStep c s a = some s') : Conns c s a s' := by
  obtain ⟨hpc, hown⟩ := own_sound hg h
  cases hown with
  | epollWait | leave => exact .other rfl rfl (fun _ _ => rfl) rfl
  | handle hb _ =>
    simp only [ownStep, hb] at h
    obtain ⟨s₁, hans, h⟩ := Option.bind_eq_some_iff.mp h
    obtain ⟨ch, hch, rfl⟩ := Option.map_eq_some_iff.mp h
    obtain ⟨-, hstep⟩ := step_sound hch
    cases hstep with
    | handle hb' hh =>
      rw [hb] at hb'
      cases hb'
      exact handled_conns hg hpc hb hans hh

/-! ## What every run keeps -/

/-- What was said and what is unread is the stream. An open connection is
registered, and was answered since the last chunk; a closed one was told so
once, last of all, and had an error or was read to its end. -/
structure Told (g : Sys) : Prop where
  later : ∀ n, g.st.child.kern.opened ≤ n → g.out n = []
  stream : ∀ n < g.st.child.kern.opened, (chunks (g.out n)).flatten ++ (g.st.sock n).rcv = g.sent n
  registered : ∀ fd n, g.st.child.kern.ofd fd = some n → fd ∈ g.st.child.epoll
  answered : ∀ n, Open g.st n → .closed ∉ g.out n ∧ (g.out n = [] ∨ (g.out n).getLast? = some .ok)
  closed : ∀ n < g.st.child.kern.opened, ¬ Open g.st n → ∃ out, g.out n = out ++ [.closed] ∧ .closed ∉ out ∧
    ((g.st.sock n).err ≠ none ∨ ((g.st.sock n).fin = true ∧ (g.st.sock n).rcv = []))

theorem init_told : Told Sys.init := by
  constructor <;> simp [Sys.init, ChildLoop.init, Child.init, Open, FdTable.empty]

theorem Open.lt (h : Open s n) : n < s.child.kern.opened := by
  obtain ⟨fd, hfd⟩ := h
  exact FdTable.lt_opened hfd

theorem Told.frame (h : Told g) (hkern : g'.st.child.kern = g.st.child.kern)
    (hepoll : g'.st.child.epoll = g.st.child.epoll) (hout : g'.out = g.out)
    (hsock : ∀ n < g.st.child.kern.opened, g'.st.sock n = g.st.sock n)
    (hsent : ∀ n < g.st.child.kern.opened, g'.sent n = g.sent n) : Told g' := by
  have hopen : ∀ n, Open g'.st n ↔ Open g.st n := fun n => by simp [Open, hkern]
  refine ⟨fun n hn => ?_, fun n hn => ?_, fun fd n hfd => ?_, fun n hn => ?_, fun n hn hnot => ?_⟩
  · rw [hkern] at hn
    rw [hout]
    exact h.later n hn
  · rw [hkern] at hn
    rw [hout, hsock n hn, hsent n hn]
    exact h.stream n hn
  · rw [hkern] at hfd
    rw [hepoll]
    exact h.registered fd n hfd
  · rw [hout]
    exact h.answered n ((hopen n).mp hn)
  · rw [hkern] at hn
    rw [hout, hsock n hn]
    exact h.closed n hn fun ho => hnot ((hopen n).mpr ho)

theorem Told.accept {connfd : Int} (h : Told g) (hf : g.st.child.kern.ofd connfd = none)
    (hkern : g'.st.child.kern = g.st.child.kern.alloc connfd hf)
    (hepoll : g'.st.child.epoll = insert connfd g.st.child.epoll) (hout : g'.out = g.out)
    (hsock : ∀ n < g.st.child.kern.opened, g'.st.sock n = g.st.sock n)
    (hsent : g'.sent = Function.update g.sent g.st.child.kern.opened (g'.st.sock g.st.child.kern.opened).rcv) :
    Told g' := by
  have hopened : g'.st.child.kern.opened = g.st.child.kern.opened + 1 := by rw [hkern, FdTable.alloc_opened]
  have hold : ∀ n, Open g.st n → Open g'.st n := by
    rintro n ⟨fd, hfd⟩
    exact ⟨fd, by rw [hkern, FdTable.alloc_ofd_old hf hfd]⟩
  have hnew : Open g'.st g.st.child.kern.opened := ⟨connfd, by rw [hkern, FdTable.alloc_ofd_self]⟩
  have hempty : g.out g.st.child.kern.opened = [] := h.later _ (Nat.le_refl _)
  refine ⟨fun n hn => ?_, fun n hn => ?_, fun fd n hfd => ?_, fun n hn => ?_, fun n hn hnot => ?_⟩
  · rw [hout]
    exact h.later n (by omega)
  · rw [hout, hsent]
    by_cases hne : n = g.st.child.kern.opened
    · subst hne
      simp [hempty, chunks]
    · have hlt : n < g.st.child.kern.opened := by omega
      rw [Function.update_of_ne hne, hsock n hlt]
      exact h.stream n hlt
  · rw [hkern] at hfd
    rw [hepoll]
    rcases FdTable.alloc_ofd_cases hf hfd with ⟨rfl, -⟩ | ⟨-, hfd⟩
    · exact Finset.mem_insert_self _ _
    · exact Finset.mem_insert_of_mem (h.registered fd n hfd)
  · rw [hout]
    by_cases hne : n = g.st.child.kern.opened
    · subst hne
      simp [hempty]
    · obtain ⟨fd, hfd⟩ := hn
      rw [hkern] at hfd
      rcases FdTable.alloc_ofd_cases hf hfd with ⟨-, he⟩ | ⟨-, hfd⟩
      · exact absurd he hne
      · exact h.answered n ⟨fd, hfd⟩
  · have hne : n ≠ g.st.child.kern.opened := by
      rintro rfl
      exact hnot hnew
    have hlt : n < g.st.child.kern.opened := by omega
    rw [hout, hsock n hlt]
    exact h.closed n hlt fun ho => hnot (hold n ho)

theorem Told.peer {p : Peer} (h : Told g) (hok : Proper g (.peer n p)) :
    Told { g with
      st := { g.st with sock := Function.update g.st.sock n (p.apply (g.st.sock n)) }
      sent := sentBy g.st s' g.sent (.peer n p) } := by
  refine ⟨h.later, fun m hm => ?_, h.registered, h.answered, fun m hm hnot => ?_⟩
  · have hstream := h.stream m hm
    by_cases hmn : m = n
    · subst hmn
      cases p with
      | send bytes => simp [sentBy, Peer.apply, ← hstream]
      | fin | reset e => simpa [sentBy, Peer.apply] using hstream
    · cases p with
      | send bytes => simpa [sentBy, hmn] using hstream
      | fin | reset e => simpa [sentBy, hmn] using hstream
  · obtain ⟨out, hout, hnotin, hend⟩ := h.closed m hm hnot
    refine ⟨out, hout, hnotin, ?_⟩
    by_cases hmn : m = n
    · subst hmn
      simp only [Function.update_self]
      cases p with
      | send bytes =>
        obtain ⟨hfin, herr⟩ := hok
        rcases hend with hend | ⟨hend, -⟩
        · exact absurd herr hend
        · rw [hfin] at hend
          cases hend
      | fin => exact hend.imp_right fun hend => ⟨rfl, hend.2⟩
      | reset e => exact .inl (by simp [Peer.apply])
    · simpa [hmn] using hend

/-- What one `process` says, after what was said before. -/
theorem last_said (out : List Said) (hrep : o.replied = !o.closed) :
    (out ++ said o).getLast? = some (if o.closed then .closed else .ok) := by
  unfold said
  cases hcl : o.closed with
  | true => simp [hrep, hcl]
  | false => simp [hrep, hcl]

theorem closed_said (o : ProcessOut) : (.closed ∈ said o ↔ o.closed = true) := by
  unfold said
  cases o.replied <;> cases o.closed <;> simp

/-- **A `process` for connection `n`.** -/
theorem Told.process (h : Told g) {fd : Int} (hn : g.st.child.kern.ofd fd = some n)
    (hrecv : (g.st.sock n).recvAll recvs = some sk) (ho : TestConn.process recvs = some o)
    (hsock : g'.st.sock = Function.update g.st.sock n sk)
    (hkeep : o.closed = false → g'.st.child.kern = g.st.child.kern ∧ g'.st.child.epoll = g.st.child.epoll)
    (hclose : o.closed = true → g'.st.child.kern = g.st.child.kern.close fd ∧
      g'.st.child.epoll = g.st.child.epoll.erase fd)
    (hout : g'.out = Function.update g.out n (g.out n ++ said o)) (hsent : g'.sent = g.sent) : Told g' := by
  obtain ⟨hrcv, hrep, hend⟩ := recvAll_said hrecv ho
  obtain ⟨hfin, herr⟩ := recvAll_same hrecv
  have hlt : n < g.st.child.kern.opened := FdTable.lt_opened hn
  have hopened : g'.st.child.kern.opened = g.st.child.kern.opened := by
    cases hcl : o.closed with
    | true => rw [(hclose hcl).1, FdTable.close_opened]
    | false => rw [(hkeep hcl).1]
  -- only `n` may be closed by the step
  have hothers : ∀ m, m ≠ n → (Open g'.st m ↔ Open g.st m) := by
    intro m hmn
    cases hcl : o.closed with
    | true =>
      simp only [Open, (hclose hcl).1, FdTable.close_ofd_some]
      refine exists_congr fun f => ⟨And.right, fun hf => ⟨?_, hf⟩⟩
      rintro rfl
      rw [hn] at hf
      exact hmn (Option.some.inj hf).symm
    | false => simp only [Open, (hkeep hcl).1]
  have hself : Open g'.st n ↔ o.closed = false := by
    cases hcl : o.closed with
    | true =>
      simp only [Open, (hclose hcl).1, FdTable.close_ofd_some]
      refine iff_of_false ?_ (by simp)
      rintro ⟨f, hne, hf⟩
      exact hne (FdTable.ofd_inj hf hn)
    | false => exact iff_of_true ⟨fd, by rw [(hkeep hcl).1, hn]⟩ rfl
  obtain ⟨hnotclosed, -⟩ := h.answered n ⟨fd, hn⟩
  refine ⟨fun m hm => ?_, fun m hm => ?_, fun f m hf => ?_, fun m hm => ?_, fun m hm hnot => ?_⟩
  · have hmn : m ≠ n := by omega
    rw [hout, Function.update_of_ne hmn]
    exact h.later m (by omega)
  · rw [hout, hsock, hsent]
    by_cases hmn : m = n
    · subst hmn
      rw [Function.update_self, Function.update_self, chunks_append, chunks_said, List.flatten_append,
        List.append_assoc, hrcv]
      exact h.stream m hlt
    · rw [Function.update_of_ne hmn, Function.update_of_ne hmn]
      exact h.stream m (by omega)
  · cases hcl : o.closed with
    | true =>
      rw [(hclose hcl).1] at hf
      obtain ⟨hne, hf⟩ := FdTable.close_ofd_some.mp hf
      rw [(hclose hcl).2]
      exact Finset.mem_erase.mpr ⟨hne, h.registered f m hf⟩
    | false =>
      rw [(hkeep hcl).1] at hf
      rw [(hkeep hcl).2]
      exact h.registered f m hf
  · by_cases hmn : m = n
    · subst hmn
      have hcl : o.closed = false := hself.mp hm
      rw [hout, Function.update_self, last_said _ hrep, hcl]
      refine ⟨fun hmem => ?_, .inr rfl⟩
      rcases List.mem_append.mp hmem with hmem | hmem
      · exact hnotclosed hmem
      · rw [(closed_said o).mp hmem] at hcl
        cases hcl
    · rw [hout, Function.update_of_ne hmn]
      exact h.answered m ((hothers m hmn).mp hm)
  · by_cases hmn : m = n
    · subst hmn
      have hcl : o.closed = true := by
        by_contra hne
        exact hnot (hself.mpr (Bool.not_eq_true _ ▸ hne))
      have hrepl : o.replied = false := by rw [hrep, hcl]; rfl
      refine ⟨g.out m ++ o.logged.map .chunk, ?_, ?_, ?_⟩
      · rw [hout, Function.update_self]
        simp [said, hrepl, hcl]
      · simp [hnotclosed]
      · rw [hsock, Function.update_self, hfin, herr]
        exact hend hcl
    · rw [hout, hsock, Function.update_of_ne hmn, Function.update_of_ne hmn]
      exact h.closed m (by omega) fun ho => hnot ((hothers m hmn).mpr ho)

theorem told_eq {a : Act} (h : told c g a = some g') : step c g.st a = some g'.st ∧
    g'.out = (match saidBy g.st a with
      | some (n, said) => Function.update g.out n (g.out n ++ said)
      | none => g.out) ∧ g'.sent = sentBy g.st g'.st g.sent a := by
  obtain ⟨s', hs, rfl⟩ := Option.map_eq_some_iff.mp h
  exact ⟨hs, rfl, rfl⟩

theorem sentBy_own (s s' : St) (sent : Nat → List UInt8) (a : Child.Act) (hn : n < s.child.kern.opened) :
    sentBy s s' sent (.own a) n = sent n := by
  cases a with
  | handle ans =>
    cases ans with
    | pipe ret acc =>
      cases acc with
      | some _ => exact Function.update_of_ne (Nat.ne_of_lt hn) _ _
      | none => rfl
    | signals _ | client _ => rfl
  | epollWait _ | epollIntr | epollFail | leave => rfl

theorem step_told {a : Act} (hg : Good c g.st) (h : Told g) (hok : Proper g a) (hs : told c g a = some g') :
    Told g' := by
  obtain ⟨hstep, hout, hsent⟩ := told_eq hs
  obtain ⟨st, out, sent⟩ := g'
  dsimp only at hstep hout hsent
  cases a with
  | own a =>
    cases own_conns hg hstep with
    | accept hf hkern hepoll hsock => exact h.accept hf hkern hepoll hout hsock hsent
    | client hb hn hu hrecv ho hsock hkeep hclose =>
      refine h.process hn hrecv ho hsock hkeep hclose ?_ hsent
      rw [hout]
      simp [saidBy, hb, hu, hn, ho]
    | other hkern hepoll hsock hsaid =>
      rw [hsaid] at hout
      refine h.frame hkern hepoll hout hsock fun n hn => ?_
      rw [hsent]
      exact sentBy_own _ _ _ _ hn
  | peer n p =>
    cases hstep
    subst hout hsent
    exact h.peer hok
  | notify =>
    simp only [step, Option.ite_none_left_eq_some, Option.some.injEq] at hstep
    obtain ⟨-, rfl⟩ := hstep
    exact h.frame rfl rfl hout (fun _ _ => rfl) fun n _ => by rw [hsent]; rfl
  | parentGone | signal _ | connect _ | queued _ _ | taken =>
    cases hstep
    exact h.frame rfl rfl hout (fun _ _ => rfl) fun n _ => by rw [hsent]; rfl
  | epollIntr | epollFail =>
    obtain ⟨ch, hch, hst⟩ := Option.map_eq_some_iff.mp hstep
    obtain ⟨-, hch⟩ := step_sound hch
    cases hch
    exact h.frame (by rw [← hst]) (by rw [← hst]) hout (fun n _ => by rw [← hst]) fun n _ => by rw [hsent]; rfl

theorem reach_told (h : Reach (told c) Proper Sys.init g) : Good c g.st ∧ Told g := by
  have hinit : Good c ChildLoop.init := ⟨fun _ => init_inv c, by simp [ChildLoop.init, Child.init]⟩
  refine h.invariant (I := fun g => Good c g.st ∧ Told g) ⟨hinit, init_told⟩ fun g a g' hg hok hs => ?_
  exact ⟨step_good hg.1 (told_eq hs).1, step_told hg.1 hg.2 hok hs⟩

/-- Where the child waits, an open connection without an error has nothing unread and is not at its end. -/
theorem Told.drained (h : Told g) (hg : Good c g.st) (hb : Blocked c g.st) (hn : Open g.st n) :
    ¬ (g.st.sock n).Readable := by
  obtain ⟨hrun, -, -, hnone⟩ := hb
  obtain ⟨fd, hfd⟩ := hn
  have hreg := h.registered fd n hfd
  have hown := (hg.inv hrun).notOwn fd hreg
  have hpipe : fd ≠ c.pipefd := by
    rintro rfl
    rw [c.pipe_own] at hown
    cases hown
  have hsig : fd ≠ c.sigPipefd := by
    rintro rfl
    rw [c.sig_own] at hown
    cases hown
  intro hread
  apply hnone fd
  unfold Ready
  rw [if_neg hpipe, if_neg hsig, sockOf_of_open hfd]
  exact ⟨hreg, hread⟩

end

/-- **What a child does for its clients**, over every run of its loop with
whatever comes from outside: of each connection it accepted it logged the
stream, in order, up to what is unread; an open one has been sent an "OK"
since the last chunk; a closed one was closed once, after an error or with
its whole stream logged. It takes at most `work` own steps, away from the
end of its pipe, to where none is left; then it has ended, or it waits, and
every client's stream is logged whole but for connections with an error, and
those whose client has closed its side are closed. -/
theorem child_delivers {c : Cfg} {g : Sys} (h : Reach (told c) Proper Sys.init g) :
    (∀ n < g.st.child.kern.opened,
      (chunks (g.out n)).flatten ++ (g.st.sock n).rcv = g.sent n ∧
      (Open g.st n → .closed ∉ g.out n ∧ (g.out n = [] ∨ (g.out n).getLast? = some .ok)) ∧
      (¬ Open g.st n → (∃ out, g.out n = out ++ [.closed] ∧ .closed ∉ out) ∧
        ((g.st.sock n).err ≠ none ∨ ((g.st.sock n).fin = true ∧ (chunks (g.out n)).flatten = g.sent n)))) ∧
    (∀ as s', runWhere (ownStep c) (PipeOpen c) g.st as = some s' → as.length ≤ work g.st) ∧
    ((∀ a, ownStep c g.st a = none) → g.st.child.pc = .running → ∀ n < g.st.child.kern.opened,
      (g.st.sock n).err = none → (chunks (g.out n)).flatten = g.sent n ∧
        ((g.st.sock n).fin = true → ¬ Open g.st n)) := by
  obtain ⟨hg, ht⟩ := reach_told h
  refine ⟨fun n hn => ⟨ht.stream n hn, ht.answered n, fun hnot => ?_⟩, fun as s' hrun => ?_,
    fun hstuck hrun n hn herr => ?_⟩
  · obtain ⟨out, hout, hnotin, hend⟩ := ht.closed n hn hnot
    refine ⟨⟨out, hout, hnotin⟩, hend.imp_right fun ⟨hfin, hrcv⟩ => ⟨hfin, ?_⟩⟩
    have hstream := ht.stream n hn
    rwa [hrcv, List.append_nil] at hstream
  · have hlen := runWhere_length_le (I := Good c) (m := work)
      (fun _ _ _ hg hok hs => ⟨hg.own hs, work_lt hg hok hs⟩) hg hrun
    omega
  · have hblocked : Blocked c g.st := (blocked_of_stuck hg hstuck).resolve_left (not_not_intro hrun)
    have hstream := ht.stream n hn
    by_cases hopen : Open g.st n
    · have hnot := ht.drained hg hblocked hopen
      simp only [Socket.Readable, not_or, not_not] at hnot
      rw [hnot.1, List.append_nil] at hstream
      exact ⟨hstream, fun hfin => absurd hfin hnot.2.1⟩
    · obtain ⟨_, _, _, hend⟩ := ht.closed n hn hopen
      obtain ⟨-, hrcv⟩ := hend.resolve_left (not_not_intro herr)
      rw [hrcv, List.append_nil] at hstream
      exact ⟨hstream, fun _ => hopen⟩

/-- Two clients; one sends in two parts and closes its side, the other resets. -/
def clientActs : List Act :=
  [.connect ⟨[], false, none⟩, .notify, .own (.epollWait [(7, true)]),
   .own (.handle (.pipe 4 (some (11, ⟨1, 80⟩)))), .peer 0 (.send [104, 105]), .own (.epollWait [(11, true)]),
   .own (.handle (.client [.data [104, 105], .error .eagain])), .connect ⟨[120], false, none⟩, .notify,
   .peer 0 (.send [33]), .peer 0 .fin, .own (.epollWait [(11, true), (7, true)]),
   .own (.handle (.client [.data [33], .eof])), .own (.handle (.pipe 4 (some (11, ⟨2, 80⟩)))),
   .peer 1 (.reset ⟨.econnreset, rfl⟩), .own (.epollWait [(11, true)]),
   .own (.handle (.client [.error .econnreset]))]

theorem clientActs_run : (runWhere (told demoCfg) Proper Sys.init clientActs).isSome := by decide +kernel

/-- `child_delivers` at the end of `clientActs`: the second client's byte is lost with its reset. -/
theorem child_delivers_demo :
    let g := (runWhere (told demoCfg) Proper Sys.init clientActs).get clientActs_run
    ((∀ n < g.st.child.kern.opened,
        (chunks (g.out n)).flatten ++ (g.st.sock n).rcv = g.sent n ∧
        (Open g.st n → .closed ∉ g.out n ∧ (g.out n = [] ∨ (g.out n).getLast? = some .ok)) ∧
        (¬ Open g.st n → (∃ out, g.out n = out ++ [.closed] ∧ .closed ∉ out) ∧
          ((g.st.sock n).err ≠ none ∨ ((g.st.sock n).fin = true ∧ (chunks (g.out n)).flatten = g.sent n)))) ∧
      (∀ as s', runWhere (ownStep demoCfg) (PipeOpen demoCfg) g.st as = some s' → as.length ≤ work g.st) ∧
      ((∀ a, ownStep demoCfg g.st a = none) → g.st.child.pc = .running → ∀ n < g.st.child.kern.opened,
        (g.st.sock n).err = none → (chunks (g.out n)).flatten = g.sent n ∧
          ((g.st.sock n).fin = true → ¬ Open g.st n))) ∧
    g.out 0 = [.chunk [104, 105], .ok, .chunk [33], .closed] ∧ g.out 1 = [.closed] ∧ g.sent 1 = [120] :=
  ⟨child_delivers (reachWhere_get clientActs_run), by decide +kernel, by decide +kernel, by decide +kernel⟩

end LinuxServer.ProcPool.ChildLoop
