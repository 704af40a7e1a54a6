/-
What the single-threaded libevent server does for its clients.

It is an `OpenServer` (`callback_shows`): a connection is watched from the
`accept_cb` that accepts it until its `bufferevent` is freed. `work` counts
what there is to read and the replies still to be written; every callback
and every write lowers it.
-/
import LinuxServer.Libev

namespace LinuxServer.Libev

open Lts Inbound StreamServer OpenServer AtomicInt

/-! ## What a step can do -/

/-- The callbacks of `be_event_cb`. -/
def Frees : Act → Prop
  | .eofCb _ | .errorCb _ _ _ => True
  | _ => False

/-- The steps, each with what it requires and changes (`step_sound`). -/
inductive Step (c : Cfg) (s : St) : Act → St → Prop
  | started {bindRet listenRet} : s.pc = .start → Step c s (.start bindRet listenRet)
      { s with pc := .dispatch, listening := true }
  | notStarted {bindRet listenRet} : s.pc = .start → Step c s (.start bindRet listenRet) { s with pc := .returned }
  | client (a) : s.pc = .dispatch → Step c s (.client a) { s with net := s.net.client a }
  | acceptFailed {cliFd} : s.pc = .dispatch → cliFd < 0 → Step c s (.acceptCb cliFd) s
  | accept {cliFd net} (h : s.kern.ofd cliFd = none) : s.pc = .dispatch → 0 ≤ cliFd → cliFd ≠ c.srvFd →
      s.net.accept s.kern.opened = some net →
      Step c s (.acceptCb cliFd) { s with
        net
        kern := s.kern.alloc cliFd h
        base := insert cliFd s.base
        output := Function.update s.output cliFd 0 }
  | msg {fd n conn chunks net} : s.pc = .dispatch → fd ∈ s.base → s.kern.ofd fd = some conn → chunks ≠ [] →
      recvs readCap conn s.net chunks = some net → Step c s (.msgCb fd n) { s with
        net
        succCliCount := atomicIncr^[chunks.length] s.succCliCount
        output := Function.update s.output fd (s.output fd + 2)
        replies := Function.update s.replies conn (s.replies conn + 1) }
  | free {fd conn net act} (out) : Frees act → s.pc = .dispatch → fd ∈ s.base → s.kern.ofd fd = some conn →
      s.net.recv readCap (some conn) out = some net → ends false out = true →
      Step c s act { s with net, base := s.base.erase fd, kern := s.kern.close fd }
  | write {fd n conn} : s.pc = .dispatch → fd ∈ s.base → s.kern.ofd fd = some conn → 0 < n → n ≤ s.output fd →
      Step c s (.write fd n) { s with
        output := Function.update s.output fd (s.output fd - n)
        written := Function.update s.written conn (s.written conn + n) }
  | sigpipe {fd} : s.pc = .dispatch → Step c s (.sigpipe fd) { s with killed := true }
  | sigint : s.pc = .dispatch → Step c s .sigint { s with exitAsked := true }
  | leave : s.pc = .dispatch → Step c s .leave { s with pc := .returned, listening := false }

variable {c : Cfg} {s s' : St} {a : Act} {fd : Int} {conn n : Nat} {t t' : StreamServer.St UInt8 Errno}

/-- `be_msg_cb` reads all it is given, in chunks. -/
theorem msgLoop_eq {fuel avail : Nat} (hf : avail ≤ fuel) (ha : avail ≤ (s.net.conn conn).rcv.length) :
    ∃ chunks net, recvs readCap conn s.net chunks = some net ∧ (chunks = [] ↔ avail = 0) ∧
      msgLoop conn fuel avail s = some { s with
        net, succCliCount := atomicIncr^[chunks.length] s.succCliCount } := by
  induction fuel generalizing avail s with
  | zero =>
    obtain rfl : avail = 0 := by omega
    exact ⟨[], s.net, rfl, by simp, rfl⟩
  | succ fuel ih =>
    cases avail with
    | zero => exact ⟨[], s.net, rfl, by simp, rfl⟩
    | succ avail =>
      let k := min (avail + 1) readCap
      have hk : 0 < k ∧ k ≤ avail + 1 ∧ k ≤ readCap := by
        have : 0 < readCap := by decide
        omega
      let buf := (s.net.conn conn).rcv.take k
      have hlen : buf.length = k := by simp [buf]; omega
      have hpre : buf <+: (s.net.conn conn).rcv := List.take_prefix ..
      have hne : buf ≠ [] := by
        intro h0
        rw [h0] at hlen
        exact Nat.ne_of_gt hk.1 hlen.symm
      let x := (s.net.conn conn).take buf hpre
      have hx : (s.net.conn conn).recv readCap (.data buf) = some x := by
        rw [Inbound.recv, dif_pos hpre, if_pos ⟨hne, by omega⟩]
      let net : Net UInt8 Errno :=
        { s.net with conn := Function.update s.net.conn conn x, log := s.net.log ++ [(conn, buf)] }
      have hnet : s.net.recv readCap (some conn) (.data buf) = some net := by
        rw [Net.recv, hx]
        rfl
      have hrest : avail + 1 - k ≤ (net.conn conn).rcv.length := by
        show avail + 1 - k ≤ (Function.update s.net.conn conn x conn).rcv.length
        rw [Function.update_self]
        show avail + 1 - k ≤ ((s.net.conn conn).rcv.drop buf.length).length
        rw [List.length_drop, hlen]
        omega
      obtain ⟨chunks, net', hr, -, hloop⟩ :=
        ih (s := { s with net, succCliCount := atomicIncr s.succCliCount }) (by omega) hrest
      refine ⟨buf :: chunks, net', ?_, by simp, ?_⟩
      · rw [recvs, hnet]
        exact hr
      · rw [msgLoop]
        show (s.net.recv readCap (some conn) (.data buf)).bind _ = _
        rw [hnet]
        exact hloop

theorem recvEnd_free {out : Out UInt8 Errno} {eof error : Bool} (ha : Frees a) (hpc : s.pc = .dispatch)
    (hfd : fd ∈ s.base) (hopen : ∃ n, s.kern.ofd fd = some n) (hends : ends false out = true)
    (hev : eof = true ∨ error = true) (h : (recvEnd s fd out).map (fun s => beEventCb s fd eof error) = some s') :
    Step c s a s' := by
  obtain ⟨conn, hconn⟩ := hopen
  obtain ⟨s₁, hs₁, rfl⟩ := Option.map_eq_some_iff.mp h
  rw [recvEnd, hconn] at hs₁
  obtain ⟨net, hnet, rfl⟩ := Option.map_eq_some_iff.mp hs₁
  have hfree : beEventCb { s with net } fd eof error = buffereventFree { s with net } fd := by
    rcases hev with rfl | rfl
    · rfl
    · cases eof <;> rfl
  rw [hfree]
  exact .free out ha hpc hfd hconn hnet hends

/-- Every socket with a `bufferevent` is open, and the other way round. -/
def Registered (s : St) : Prop := ∀ fd, fd ∈ s.base ↔ ∃ n, s.kern.ofd fd = some n

theorem dispatch_sound (hreg : Registered s) (hpc : s.pc = .dispatch) (h : dispatchStep c s a = some s') :
    Step c s a s' := by
  cases a with
  | acceptCb cliFd =>
    simp only [dispatchStep, Option.ite_none_right_eq_some] at h
    obtain ⟨-, h⟩ := h
    unfold acceptCb at h
    split at h
    · next hneg =>
      cases h
      exact .acceptFailed hpc hneg
    next hneg =>
    split at h
    · next hg =>
      obtain ⟨net, hnet, rfl⟩ := Option.map_eq_some_iff.mp h
      exact .accept hg.1 hpc (Int.not_lt.mp hneg) hg.2 hnet
    · cases h
  | msgCb fd n =>
    simp only [dispatchStep, Option.ite_none_right_eq_some] at h
    obtain ⟨⟨hfd, hpos, -, hle⟩, h⟩ := h
    obtain ⟨conn, hconn⟩ := (hreg fd).mp hfd
    simp only [St.unread, hconn, Option.map_some, Option.getD_some] at hle
    obtain ⟨chunks, net, hr, hnil, hloop⟩ := msgLoop_eq (s := s) (Nat.le_refl n) hle
    simp only [beMsgCb, hconn, hloop, Option.map_some, Option.some.injEq] at h
    subst h
    exact .msg hpc hfd hconn (by rw [Ne, hnil]; omega) hr
  | eofCb fd =>
    simp only [dispatchStep, Option.ite_none_right_eq_some] at h
    exact recvEnd_free trivial hpc h.1 ((hreg fd).mp h.1) rfl (.inl rfl) h.2
  | errorCb fd e writing =>
    simp only [dispatchStep, Option.ite_none_right_eq_some] at h
    exact recvEnd_free trivial hpc h.1.1 ((hreg fd).mp h.1.1) rfl (.inr rfl) h.2
  | write fd n =>
    simp only [dispatchStep, Option.ite_none_right_eq_some] at h
    obtain ⟨⟨hfd, hpos, hle⟩, h⟩ := h
    obtain ⟨conn, hconn⟩ := (hreg fd).mp hfd
    simp only [writeOutput, hconn, Option.some.injEq] at h
    subst h
    exact .write hpc hfd hconn hpos hle
  | sigpipe fd =>
    simp only [dispatchStep, Option.ite_none_right_eq_some, Option.some.injEq] at h
    obtain ⟨-, rfl⟩ := h
    exact .sigpipe hpc
  | sigint =>
    cases h
    exact .sigint hpc
  | leave =>
    simp only [dispatchStep, Option.ite_none_right_eq_some, Option.some.injEq] at h
    obtain ⟨-, rfl⟩ := h
    exact .leave hpc
  | start _ _ | client _ => cases h

theorem step_sound (hreg : Registered s) (h : step c s a = some s') : Step c s a s' := by
  unfold step at h
  split at h
  · cases h
  split at h
  · next hpc =>
    cases h
    unfold tcpServerInit
    split
    · exact .notStarted hpc
    split
    · exact .notStarted hpc
    · exact .started hpc
  · next hpc =>
    cases h
    exact .client _ hpc
  · next hpc => exact dispatch_sound hreg hpc h
  · cases h

/-- Only `be_event_cb` closes a socket while the loop runs, and none is closed after. -/
theorem step_closes (h : Step c s a s') (hne : s'.kern.closes ≠ s.kern.closes) : Frees a := by
  cases h with
  | free _ ha _ _ _ _ _ => exact ha
  | accept hf _ _ _ _ => exact absurd (FdTable.alloc_closes hf) hne
  | started _ | notStarted _ | client _ _ | acceptFailed _ _ | msg _ _ _ _ _ | write _ _ _ _ _ | sigpipe _
  | sigint _ | leave _ => exact absurd rfl hne

/-! ## What every run keeps -/

/-- Of each connection: what was written of its replies and what is queued
are all there are; it was replied to if it was heard. `succCliCount` counts
the chunks, as far as an `int` does. -/
structure Inv (s : St) : Prop where
  registered : Registered s
  listening : s.listening = true ↔ s.pc = .dispatch
  fresh : ∀ n, s.kern.opened ≤ n → s.replies n = 0 ∧ s.written n = 0
  queued : ∀ fd conn, s.kern.ofd fd = some conn → s.written conn + s.output fd = 2 * s.replies conn
  written : ∀ n, s.written n ≤ 2 * s.replies n
  counted : s.succCliCount = atomicInt s.net.log.length
  replied : ∀ n, s.replies n ≤ (s.net.logged n).length ∧ (s.replies n = 0 → s.net.logged n = [])
  sized : ∀ e ∈ s.net.log, e.2 ≠ [] ∧ e.2.length ≤ readCap

theorem init_inv : Inv init := by
  constructor <;> simp [init, Registered, FdTable.empty, Net.empty, Net.logged]

variable {net net' : Net UInt8 Errno}

theorem logged_congr (h : net'.log = net.log) (n : Nat) : net'.logged n = net.logged n := by
  simp only [Net.logged, h]

theorem logged_chunks {chunks : List (List UInt8)} (h : net'.log = net.log ++ chunks.map (conn, ·)) (n : Nat) :
    net'.logged n = net.logged n ++ if n = conn then chunks else [] := by
  rw [← logged_append net conn n chunks net.conn]
  exact logged_congr h n

theorem client_log (net : Net UInt8 Errno) (a : Client UInt8 Errno) : (net.client a).log = net.log := by
  cases a <;> rfl

theorem accept_log (h : net.accept n = some net') : net'.log = net.log := by
  obtain ⟨x, backlog, -, rfl⟩ := accept_eq h
  rfl

theorem end_log {out : Out UInt8 Errno} (hends : ends false out = true)
    (h : net.recv readCap (some conn) out = some net') : net'.log = net.log := by
  obtain ⟨x, -, rfl⟩ := recv_eq h
  cases out with
  | data bytes => cases hends
  | eof | error e => exact List.append_nil _

theorem Inv.ofLog (h : Inv s) (hlog : s'.net.log = s.net.log) (hcount : s'.succCliCount = s.succCliCount)
    (hreplies : s'.replies = s.replies) (hreg : Registered s') (hlisten : s'.listening = true ↔ s'.pc = .dispatch)
    (hfresh : ∀ n, s'.kern.opened ≤ n → s'.replies n = 0 ∧ s'.written n = 0)
    (hqueued : ∀ fd conn, s'.kern.ofd fd = some conn → s'.written conn + s'.output fd = 2 * s'.replies conn)
    (hwritten : ∀ n, s'.written n ≤ 2 * s'.replies n) : Inv s' where
  registered := hreg
  listening := hlisten
  fresh := hfresh
  queued := hqueued
  written := hwritten
  counted := by rw [hcount, hlog, h.counted]
  replied n := by rw [hreplies, logged_congr hlog]; exact h.replied n
  sized := by rw [hlog]; exact h.sized

theorem Registered.alloc (h : Registered s) (hf : s.kern.ofd fd = none) (g : Int) :
    g ∈ insert fd s.base ↔ ∃ n, (s.kern.alloc fd hf).ofd g = some n := by
  rw [Finset.mem_insert, h g]
  constructor
  · intro hg
    rcases hg with rfl | ⟨n, hn⟩
    · exact ⟨_, FdTable.alloc_ofd_self hf⟩
    · exact ⟨n, FdTable.alloc_ofd_old hf hn⟩
  · intro hg
    obtain ⟨n, hn⟩ := hg
    rcases FdTable.alloc_ofd_cases hf hn with ⟨rfl, -⟩ | ⟨-, hn⟩
    · exact .inl rfl
    · exact .inr ⟨n, hn⟩

theorem Registered.close (h : Registered s) (g : Int) :
    g ∈ s.base.erase fd ↔ ∃ n, (s.kern.close fd).ofd g = some n := by
  simp only [Finset.mem_erase, h g, FdTable.close_ofd_some]
  exact (exists_and_left).symm

theorem ne_of_opened (hconn : s.kern.ofd fd = some conn) (hn : s.kern.opened ≤ n) : n ≠ conn := by
  have := FdTable.lt_opened hconn
  omega

theorem Inv.queued_update (h : Inv s) (hconn : s.kern.ofd fd = some conn) {w o r : Nat} (heq : w + o = 2 * r)
    {fd' : Int} (hfd' : s.kern.ofd fd' = some n) :
    Function.update s.written conn w n + Function.update s.output fd o fd' =
      2 * Function.update s.replies conn r n := by
  by_cases hf : fd' = fd
  · subst hf
    rw [hconn, Option.some.injEq] at hfd'
    subst hfd'
    simpa using heq
  · have hne : n ≠ conn := by
      intro he
      exact hf (FdTable.ofd_inj hfd' (he ▸ hconn))
    rw [Function.update_of_ne hf, Function.update_of_ne hne, Function.update_of_ne hne]
    exact h.queued fd' n hfd'

theorem step_inv (h : Inv s) (hs : Step c s a s') : Inv s' := by
  cases hs with
  | started hpc =>
    exact h.ofLog rfl rfl rfl h.registered (by simp) h.fresh h.queued h.written
  | notStarted hpc =>
    have hno : s.listening = false := by
      have := h.listening
      rw [hpc] at this
      simpa using this
    exact h.ofLog rfl rfl rfl h.registered (by simp [hno]) h.fresh h.queued h.written
  | client act hpc =>
    exact h.ofLog (client_log _ act) rfl rfl h.registered h.listening h.fresh h.queued h.written
  | acceptFailed _ _ => exact h
  | @accept cliFd net hf hpc _ _ hnet =>
    refine h.ofLog (accept_log hnet) rfl rfl (h.registered.alloc hf) h.listening
      (fun n hn => h.fresh n (Nat.le_of_succ_le hn)) (fun fd conn hfd => ?_) h.written
    show s.written conn + Function.update s.output cliFd 0 fd = 2 * s.replies conn
    rcases FdTable.alloc_ofd_cases hf hfd with ⟨rfl, rfl⟩ | ⟨hne, hfd⟩
    · obtain ⟨hr, hw⟩ := h.fresh _ (Nat.le_refl _)
      rw [Function.update_self, hr, hw]
    · rw [Function.update_of_ne hne]
      exact h.queued fd conn hfd
  | @msg fd n conn chunks net hpc hfd hconn hne hr =>
    obtain ⟨hlog, -, -, hlen⟩ := recvs_net hr
    have hpos : 0 < chunks.length := List.length_pos_iff.mpr hne
    refine ⟨h.registered, h.listening, fun m hm => ?_, fun fd' conn' hfd' => ?_, fun m => ?_, ?_, fun m => ?_, ?_⟩
    · simpa [ne_of_opened hconn hm] using h.fresh m hm
    · have hq := h.queued fd conn hconn
      have hall := h.queued_update hconn (by omega : s.written conn + (s.output fd + 2) = 2 * (s.replies conn + 1))
        hfd'
      rwa [Function.update_eq_self] at hall
    · have hold := h.written m
      show s.written m ≤ 2 * Function.update s.replies conn _ m
      by_cases hmc : m = conn
      · subst hmc
        rw [Function.update_self]
        omega
      · rw [Function.update_of_ne hmc]
        exact hold
    · show atomicIncr^[chunks.length] s.succCliCount = atomicInt net.log.length
      rw [hlog, List.length_append, List.length_map, h.counted, atomicIncr_iterate]
    · have hold := h.replied m
      show Function.update s.replies conn _ m ≤ (net.logged m).length ∧
        (Function.update s.replies conn _ m = 0 → net.logged m = [])
      rw [logged_chunks hlog]
      by_cases hmc : m = conn
      · subst hmc
        rw [Function.update_self, if_pos rfl, List.length_append]
        exact ⟨by omega, by omega⟩
      · rw [Function.update_of_ne hmc, if_neg hmc, List.append_nil]
        exact hold
    · show ∀ e ∈ net.log, e.2 ≠ [] ∧ e.2.length ≤ readCap
      rw [hlog]
      intro e he
      rcases List.mem_append.mp he with he | he
      · exact h.sized e he
      · obtain ⟨bytes, hb, rfl⟩ := List.mem_map.mp he
        exact hlen bytes hb
  | @free fd conn net act out _ hpc hfd hconn hr hends =>
    refine h.ofLog (end_log hends hr) rfl rfl h.registered.close h.listening
      (fun n hn => h.fresh n (FdTable.close_opened (t := s.kern) ▸ hn)) (fun fd' conn' hfd' => ?_) h.written
    exact h.queued fd' conn' (FdTable.close_ofd_some.mp hfd').2
  | @write fd n conn hpc hfd hconn hpos hle =>
    have hq := h.queued fd conn hconn
    refine h.ofLog rfl rfl rfl h.registered h.listening (fun m hm => ?_) (fun fd' conn' hfd' => ?_) fun m => ?_
    · simpa [ne_of_opened hconn hm] using h.fresh m hm
    · have hall := h.queued_update hconn
        (by omega : s.written conn + n + (s.output fd - n) = 2 * s.replies conn) hfd'
      rwa [Function.update_eq_self] at hall
    · show Function.update s.written conn _ m ≤ 2 * s.replies m
      by_cases hmc : m = conn
      · subst hmc
        rw [Function.update_self]
        omega
      · rw [Function.update_of_ne hmc]
        exact h.written m
  | sigpipe _ | sigint _ => exact h.ofLog rfl rfl rfl h.registered h.listening h.fresh h.queued h.written
  | leave _ => exact h.ofLog rfl rfl rfl h.registered (by simp) h.fresh h.queued h.written

theorem reach_inv (h : Reach (step c) Any init s) : Inv s :=
  h.invariant init_inv fun _ _ _ hs _ hstep => step_inv hs (step_sound hs.registered hstep)

/-! ## The server is an open server -/

/-- libevent calls a callback, or writes. -/
def Callback : Act → Prop
  | .acceptCb _ | .msgCb _ _ | .eofCb _ | .errorCb _ _ _ | .write _ _ => True
  | .start _ _ | .client _ | .sigpipe _ | .sigint | .leave => False

instance : (a : Act) → Decidable (Callback a)
  | .acceptCb _ | .msgCb _ _ | .eofCb _ | .errorCb _ _ _ | .write _ _ => .isTrue trivial
  | .start _ _ | .client _ | .sigpipe _ | .sigint | .leave => .isFalse id

/-- `accept_cb` whose `accept` fails. -/
def FailedAccept : Act → Prop
  | .acceptCb cliFd => cliFd < 0
  | _ => False

instance (a : Act) : Decidable (FailedAccept a) := by
  unfold FailedAccept; split <;> infer_instance

/-- What there is to read, and the replies not written. -/
def St.work (s : St) : Nat := 3 * OpenServer.work s.kern s.net + ∑ fd ∈ s.base, s.output fd

theorem output_update (hfd : fd ∈ s.base) (k : Nat) :
    ∑ g ∈ s.base, Function.update s.output fd k g + s.output fd = ∑ g ∈ s.base, s.output g + k := by
  rw [← Finset.add_sum_erase _ _ hfd, ← Finset.add_sum_erase _ s.output hfd, Function.update_self]
  have hrest : ∑ g ∈ s.base.erase fd, Function.update s.output fd k g = ∑ g ∈ s.base.erase fd, s.output g :=
    Finset.sum_congr rfl fun g hg => Function.update_of_ne (Finset.ne_of_mem_erase hg) _ _
  rw [hrest]
  omega

theorem output_insert (hfd : fd ∉ s.base) :
    ∑ g ∈ insert fd s.base, Function.update s.output fd 0 g = ∑ g ∈ s.base, s.output g := by
  rw [Finset.sum_insert hfd, Function.update_self, Nat.zero_add]
  refine Finset.sum_congr rfl fun g hg => Function.update_of_ne ?_ _ _
  rintro rfl
  exact hfd hg

/-- A callback is a run of the server, and lowers the work unless it is an `accept` that fails. -/
theorem callback_shows (h : Inv s) (hinv : StreamServer.Inv t) (ht : Shows s.kern s.net t) (hc : Callback a)
    (hs : Step c s a s') : ∃ as t', runWhere (StreamServer.step readCap) StreamServer.Own t as = some t' ∧
      Shows s'.kern s'.net t' ∧ (s'.work < s.work ↔ ¬ FailedAccept a) := by
  cases hs with
  | started _ | notStarted _ | client _ _ | sigpipe _ | sigint _ | leave _ => exact hc.elim
  | acceptFailed _ hneg =>
    exact ⟨[], t, rfl, ht, iff_of_false (Nat.lt_irrefl _) (not_not_intro hneg)⟩
  | @accept cliFd net hf _ hpos _ hnet =>
    obtain ⟨t', hstep, ht'⟩ := ht.accept readCap hf hnet
    have hrun : runWhere (StreamServer.step readCap) StreamServer.Own t [.accept] = some t' :=
      run_own trivial hstep
    have hnew : cliFd ∉ s.base := by
      rw [h.registered cliFd]
      intro hex
      obtain ⟨n, hn⟩ := hex
      rw [hf] at hn
      cases hn
    have hle := ht.run_le ht' hinv hrun
    rw [List.length_singleton] at hle
    refine ⟨[.accept], t', hrun, ht', iff_of_true ?_ (Int.not_lt.mpr hpos)⟩
    simp only [St.work, output_insert hnew]
    omega
  | @msg fd n conn chunks net _ hfd hconn hne hr =>
    obtain ⟨t', hrun, ht'⟩ := ht.recvs hconn hr
    have hle := ht.run_le ht' hinv hrun
    rw [List.length_map] at hle
    have hpos : 0 < chunks.length := List.length_pos_iff.mpr hne
    have hout := output_update hfd (s.output fd + 2)
    refine ⟨_, t', hrun, ht', iff_of_true ?_ not_false⟩
    simp only [St.work]
    omega
  | @free fd conn net act out ha _ hfd hconn hr hends =>
    obtain ⟨t', hstep, ht'⟩ := ht.close hconn hr hends
    have hrun : runWhere (StreamServer.step readCap) StreamServer.Own t [.recv conn out false] = some t' :=
      run_own trivial hstep
    have hle := ht.run_le ht' hinv hrun
    rw [List.length_singleton] at hle
    have hsub : ∑ g ∈ s.base.erase fd, s.output g ≤ ∑ g ∈ s.base, s.output g :=
      Finset.sum_le_sum_of_subset (Finset.erase_subset fd s.base)
    have hok : ¬ FailedAccept a := by
      cases a <;> first | exact not_false | exact ha.elim
    refine ⟨_, t', hrun, ht', iff_of_true ?_ hok⟩
    simp only [St.work]
    omega
  | @write fd n conn _ hfd _ hpos hle =>
    have hout := output_update hfd (s.output fd - n)
    refine ⟨[], t, rfl, ht, iff_of_true ?_ not_false⟩
    simp only [St.work]
    omega

theorem reach_shows (h : Reach (step c) Any init s) :
    ∃ t, Reach (StreamServer.step readCap) Any StreamServer.init t ∧ Shows s.kern s.net t := by
  refine h.simulate (R := fun s t => Shows s.kern s.net t) Shows.init ?_
  intro s a s' t hr hrt ht _ hstep
  have hinv := reach_inv hr
  have hs := step_sound hinv.registered hstep
  by_cases hc : Callback a
  · obtain ⟨as, t', hrun, ht', -⟩ := callback_shows hinv (StreamServer.reach_inv hrt) ht hc hs
    exact ⟨t', (reach_of_runWhere hrun).any, ht'⟩
  · cases hs with
    | client act _ =>
      obtain ⟨t', hstep, ht'⟩ := ht.client readCap act
      exact ⟨t', .tail .refl trivial hstep, ht'⟩
    | started _ | notStarted _ | sigpipe _ | sigint _ | leave _ => exact ⟨t, .refl, ht⟩
    | acceptFailed _ _ | accept _ _ _ _ _ | msg _ _ _ _ _ | write _ _ _ _ _ => exact absurd trivial hc
    | free _ ha _ _ _ _ _ =>
      cases a <;> first | exact absurd trivial hc | exact ha.elim

/-! ## Where the loop waits -/

theorem dispatch_eq (hc : Callback a) (hpc : s.pc = .dispatch) (hk : s.killed = false) :
    step c s a = dispatchStep c s a := by
  cases a with
  | start _ _ | client _ | sigpipe _ | sigint | leave => exact hc.elim
  | acceptCb _ | msgCb _ _ | eofCb _ | errorCb _ _ _ | write _ _ => simp [step, hpc, hk]

theorem reads (hfd : fd ∈ s.base) (hconn : s.kern.ofd fd = some conn) (hr : (s.net.conn conn).Readable) :
    ∃ a, Callback a ∧ (dispatchStep c s a).isSome := by
  cases hrcv : (s.net.conn conn).rcv with
  | cons b rest =>
    have hone : 1 ≤ (s.net.conn conn).rcv.length := by simp [hrcv]
    obtain ⟨chunks, net, -, -, hloop⟩ := msgLoop_eq (Nat.le_refl 1) hone
    have hg : fd ∈ s.base ∧ 0 < 1 ∧ 1 ≤ c.maxRead ∧ 1 ≤ s.unread fd :=
      ⟨hfd, Nat.one_pos, c.maxRead_pos, by simpa [St.unread, hconn] using hone⟩
    refine ⟨.msgCb fd 1, trivial, ?_⟩
    rw [dispatchStep, if_pos hg, beMsgCb]
    simp [hconn, hloop]
  | nil =>
    have hfin : (s.net.conn conn).fin = true := hr.resolve_left (by simp [hrcv])
    cases he : (s.net.conn conn).err with
    | none =>
      refine ⟨.eofCb fd, trivial, ?_⟩
      simp [dispatchStep, hfd, recvEnd, hconn, Net.recv, Inbound.recv, hrcv, hfin, he]
    | some e =>
      refine ⟨.errorCb fd e false, trivial, ?_⟩
      simp [dispatchStep, hfd, recvEnd, hconn, Net.recv, Inbound.recv, he]

/-- Where libevent has nothing to call and nothing to write, the server is
at rest and every reply is written. -/
theorem rest_of_waiting (h : Inv s) (ht : Shows s.kern s.net t) (hpc : s.pc = .dispatch) (hk : s.killed = false)
    (hstuck : ∀ a, Callback a → step c s a = none) : Rest t ∧ ∀ fd ∈ s.base, s.output fd = 0 := by
  have hnone : ∀ a, Callback a → dispatchStep c s a = none := by
    intro a ha
    rw [← dispatch_eq ha hpc hk]
    exact hstuck a ha
  refine ⟨⟨?_, fun n hn hread => ?_⟩, fun fd hfd => ?_⟩
  · by_contra hb
    rw [ht.net] at hb
    have := hnone (.acceptCb (-1)) trivial
    simp [dispatchStep, hb, acceptCb] at this
  · obtain ⟨fd, hfd⟩ := (ht.watched n).mp hn
    rw [ht.net] at hread
    obtain ⟨a, ha, hsome⟩ := reads ((h.registered fd).mpr ⟨n, hfd⟩) hfd hread
    rw [hnone a ha] at hsome
    cases hsome
  · by_contra hpos
    obtain ⟨conn, hconn⟩ := (h.registered fd).mp hfd
    have hg : fd ∈ s.base ∧ 0 < 1 ∧ 1 ≤ s.output fd := ⟨hfd, Nat.one_pos, Nat.one_le_iff_ne_zero.mpr hpos⟩
    have := hnone (.write fd 1) trivial
    rw [dispatchStep, if_pos hg, writeOutput] at this
    simp [hconn] at this

/-! ## The main results -/

/-- The server is an open server's, with all that holds of one. -/
def Served (s : St) : Prop := Inv s ∧ ∃ t, Shows s.kern s.net t ∧ StreamServer.Inv t

theorem callback_lowers (h : Served s) (hok : Callback a ∧ ¬ FailedAccept a) (hs : step c s a = some s') :
    Served s' ∧ s'.work < s.work := by
  obtain ⟨hinv, t, ht, hst⟩ := h
  have hstep := step_sound hinv.registered hs
  obtain ⟨as, t', hrun, ht', hlt⟩ := callback_shows hinv hst ht hok.1 hstep
  have hst' := (reach_of_runWhere hrun).invariant hst fun _ _ _ hs _ hstep => StreamServer.step_inv hs hstep
  exact ⟨⟨step_inv hinv hstep, t', ht', hst'⟩, hlt.mpr hok.2⟩

/-- **The libevent server delivers.** In every run of the server and its
clients: what is logged of a connection is, in order, a prefix of its
stream, and its socket is closed only by `be_event_cb`, when it was reset or
is logged whole to its end. Every callback and write leaves less to do but
an `accept` that fails, so without those the loop is soon idle, if nothing
new happens. And where it is, nobody waits, every stream not reset is logged
whole, and every reply to a connection still open is written. -/
theorem libev_delivers (h : Reach (step c) Any init s) :
    (∀ n, (s.net.logged n).flatten <+: (s.net.conn n).sent) ∧
    (∀ n < s.kern.opened, s.kern.closes n = 1 → (s.net.conn n).broken = true ∨
      ((s.net.conn n).fin = true ∧ (s.net.logged n).flatten = (s.net.conn n).sent)) ∧
    (∀ a s', step c s a = some s' → s'.kern.closes ≠ s.kern.closes → Frees a) ∧
    (∀ a s', Callback a → step c s a = some s' → (s'.work < s.work ↔ ¬ FailedAccept a)) ∧
    (∀ as s', runWhere (step c) (fun _ a => Callback a ∧ ¬ FailedAccept a) s as = some s' → as.length ≤ s.work) ∧
    (s.pc = .dispatch → s.killed = false → (∀ a, Callback a → step c s a = none) → s.net.backlog = [] ∧
      (∀ n < s.kern.opened, (s.net.conn n).broken = false → (s.net.logged n).flatten = (s.net.conn n).sent) ∧
      ∀ n < s.kern.opened, s.kern.closes n = 0 → s.written n = 2 * s.replies n) := by
  obtain ⟨t, hreach, ht⟩ := reach_shows h
  have hinv := reach_inv h
  have hst := StreamServer.reach_inv hreach
  refine ⟨ht.logged_prefix hst, fun n hn hc => ht.closed hst hn hc,
    fun a s' hs => step_closes (step_sound hinv.registered hs), fun a s' hc hs => ?_, fun as s' hrun => ?_,
    fun hpc hk hstuck => ?_⟩
  · obtain ⟨as, t', -, -, hlt⟩ := callback_shows hinv hst ht hc (step_sound hinv.registered hs)
    exact hlt
  · have hlen := runWhere_length_le (I := Served) (m := St.work)
      (fun s a s' hI hok hs => callback_lowers hI hok hs) ⟨hinv, t, ht, hst⟩ hrun
    omega
  · obtain ⟨hrest, hout⟩ := rest_of_waiting hinv ht hpc hk hstuck
    refine ⟨ht.net ▸ hrest.1, fun n hn hb => ht.whole hst hrest hn hb, fun n hn hopen => ?_⟩
    have hmem : n ∈ openConns s.kern := Finset.mem_filter.mpr ⟨Finset.mem_range.mpr hn, hopen⟩
    obtain ⟨fd, hfd⟩ := mem_openConns.mp hmem
    have hq := hinv.queued fd n hfd
    rw [hout fd ((hinv.registered fd).mpr ⟨n, hfd⟩)] at hq
    omega

/-- The connections something was logged of. -/
def St.heard (s : St) : Finset Nat := (s.net.log.map (·.1)).toFinset

theorem logged_length (net : Net UInt8 Errno) (n : Nat) :
    (net.logged n).length = (net.log.map (·.1)).count n := by
  rw [Net.logged, List.length_map, List.count_eq_length_filter, List.filter_map, List.length_map]
  rfl

theorem heard_nodup : (s.net.log.map (·.1)).Nodup ↔ ∀ n, (s.net.logged n).length ≤ 1 := by
  simp only [logged_length, ← List.nodup_iff_count_le_one]

/-- **The accounts of the libevent server.** In every state: `srv_fd` is open
exactly while the loop runs; a socket has a `bufferevent` exactly while it is
open, after the server has returned too; of every open connection what is
written and what is queued are the replies, one of 2 bytes for each call of
`be_msg_cb`, and to a connection closed no more was written; a connection has
a reply if it was heard, and no more than chunks; no chunk is empty or longer
than the buffer; and `succ_cli_count` is the number of chunks as an `int`
holds it, so that of the clients heard exactly when these are fewer than 2^31
and the chunks that were not a client's first a multiple of 2^32, which with
fewer than 2^31 chunks means that no client was heard in two. -/
theorem libev_accounts (h : Reach (step c) Any init s) :
    (s.listening = true ↔ s.pc = .dispatch) ∧
    (∀ fd, fd ∈ s.base ↔ ∃ n, s.kern.ofd fd = some n) ∧
    (∀ fd n, s.kern.ofd fd = some n → s.written n + s.output fd = 2 * s.replies n) ∧
    (∀ n, s.written n ≤ 2 * s.replies n ∧ s.replies n ≤ (s.net.logged n).length ∧
      (s.replies n = 0 ↔ s.net.logged n = [])) ∧
    (∀ e ∈ s.net.log, e.2 ≠ [] ∧ e.2.length ≤ bufSize - 1) ∧
    s.succCliCount = atomicInt s.net.log.length ∧
    (s.succCliCount = s.heard.card ↔ s.heard.card < 2 ^ 31 ∧ 2 ^ 32 ∣ s.net.log.length - s.heard.card) ∧
    (s.net.log.length < 2 ^ 31 → s.succCliCount = s.net.log.length ∧
      (s.succCliCount = s.heard.card ↔ ∀ n, (s.net.logged n).length ≤ 1)) := by
  have hinv := reach_inv h
  have hlen : s.net.log.length = (s.net.log.map (·.1)).length := (List.length_map _).symm
  refine ⟨hinv.listening, hinv.registered, hinv.queued, fun n => ⟨hinv.written n, (hinv.replied n).1, ?_⟩,
    hinv.sized, hinv.counted, ?_, fun hsmall => ⟨?_, ?_⟩⟩
  rotate_left
  · rw [hinv.counted, hlen]
    exact atomicInt_card_iff _
  · rw [hinv.counted, atomicInt_of_lt hsmall]
  · rw [hinv.counted, hlen, ← heard_nodup]
    exact atomicInt_card_nodup (hlen ▸ hsmall)
  refine ⟨(hinv.replied n).2, fun hnil => ?_⟩
  have hr := (hinv.replied n).1
  rw [hnil] at hr
  exact Nat.le_zero.mp hr

/-! ## A run -/

def demoCfg : Cfg := ⟨3, 16384, by decide⟩

/-- Two clients; the first sends in two pieces, and hangs up when one byte of
a reply is written; the second is reset. SIGINT comes. -/
def demoActs : List Act :=
  [.start 0 0, .client .connect, .acceptCb 5, .client (.peer 0 (.send [72, 105])), .msgCb 5 2, .client .connect,
   .acceptCb (-1), .acceptCb 6, .client (.peer 0 (.send [33])), .msgCb 5 1, .write 5 1, .client (.peer 0 .fin),
   .client (.peer 1 (.reset .econnreset)), .errorCb 6 .econnreset false, .sigint]

theorem demoActs_run : (run (step demoCfg) init demoActs).isSome := by decide +kernel

/-- `libev_delivers` at the end of `demoActs`. -/
theorem libev_delivers_demo :
    let s := (run (step demoCfg) init demoActs).get demoActs_run
    (∀ n, (s.net.logged n).flatten <+: (s.net.conn n).sent) ∧
    (∀ n < s.kern.opened, s.kern.closes n = 1 → (s.net.conn n).broken = true ∨
      ((s.net.conn n).fin = true ∧ (s.net.logged n).flatten = (s.net.conn n).sent)) ∧
    (∀ a s', step demoCfg s a = some s' → s'.kern.closes ≠ s.kern.closes → Frees a) ∧
    (∀ a s', Callback a → step demoCfg s a = some s' → (s'.work < s.work ↔ ¬ FailedAccept a)) ∧
    (∀ as s', runWhere (step demoCfg) (fun _ a => Callback a ∧ ¬ FailedAccept a) s as = some s' →
      as.length ≤ s.work) ∧
    (s.pc = .dispatch → s.killed = false → (∀ a, Callback a → step demoCfg s a = none) → s.net.backlog = [] ∧
      (∀ n < s.kern.opened, (s.net.conn n).broken = false → (s.net.logged n).flatten = (s.net.conn n).sent) ∧
      ∀ n < s.kern.opened, s.kern.closes n = 0 → s.written n = 2 * s.replies n) :=
  libev_delivers (reach_get demoActs_run)

/-- `libev_accounts` at the end of `demoActs`. -/
theorem libev_accounts_demo :
    let s := (run (step demoCfg) init demoActs).get demoActs_run
    (s.listening = true ↔ s.pc = .dispatch) ∧
    (∀ fd, fd ∈ s.base ↔ ∃ n, s.kern.ofd fd = some n) ∧
    (∀ fd n, s.kern.ofd fd = some n → s.written n + s.output fd = 2 * s.replies n) ∧
    (∀ n, s.written n ≤ 2 * s.replies n ∧ s.replies n ≤ (s.net.logged n).length ∧
      (s.replies n = 0 ↔ s.net.logged n = [])) ∧
    (∀ e ∈ s.net.log, e.2 ≠ [] ∧ e.2.length ≤ bufSize - 1) ∧
    s.succCliCount = atomicInt s.net.log.length ∧
    (s.succCliCount = s.heard.card ↔ s.heard.card < 2 ^ 31 ∧ 2 ^ 32 ∣ s.net.log.length - s.heard.card) ∧
    (s.net.log.length < 2 ^ 31 → s.succCliCount = s.net.log.length ∧
      (s.succCliCount = s.heard.card ↔ ∀ n, (s.net.logged n).length ≤ 1)) :=
  libev_accounts (reach_get demoActs_run)

/-- There the one client heard was heard twice. -/
example : let s := (run (step demoCfg) init demoActs).get demoActs_run
    s.succCliCount = 2 ∧ s.heard.card = 1 := by decide +kernel

end LinuxServer.Libev
