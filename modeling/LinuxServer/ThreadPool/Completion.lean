/-
Where the thread pool has nothing left to do: what every client is owed is
done (`threadPool_delivers`), and after SIGINT the server has returned
(`threadPool_returns`).

A worker in `client_msg_cb` can go on because the bytes libevent counted are
still there (`Avail`): nobody else reads the connection.
-/
import LinuxServer.ThreadPool.ClientCount
import LinuxServer.ThreadPool.Delivery
import LinuxServer.ThreadPool.Shutdown

namespace LinuxServer.ThreadPool

open Lts Inbound StreamServer OpenServer

variable {c : Cfg} {s s' : Sys} {a : SysAct} {w fd n : Nat} {lanes : RoundRobin.Lanes}
  {t : StreamServer.St UInt8 Errno} {net : Net UInt8 Errno} {srv : St}

/-! ## The bytes libevent counted are there -/

/-- The descriptor `client_msg_cb` reads, and how many bytes it is still to get. -/
def WorkerPc.input : WorkerPc → Option (Nat × Nat)
  | .msgRead fd avail | .msgGot fd avail => some (fd, avail)
  | .loop | .recv | .tryPop | .popped _ | .msgReply _ | .left => none

def Avail (s : Sys) : Prop := ∀ w fd avail n, (s.srv.workers w).pc.input = some (fd, avail) →
  s.srv.kern.ofd fd = some n → avail ≤ (s.net.conn n).rcv.length

theorem msgFd_of_input {pc : WorkerPc} {avail : Nat} (h : pc.input = some (fd, avail)) : pc.msgFd = some fd := by
  cases pc <;> cases h <;> rfl

theorem input_lane (hr : Refines c s.srv lanes)
    (hl : Reach (RoundRobin.step c.concur) Any RoundRobin.init lanes) {avail : Nat}
    (hin : (s.srv.workers w).pc.input = some (fd, avail)) : ∃ n, s.srv.kern.ofd fd = some n ∧ w = n % c.concur := by
  obtain ⟨n, hreg, hn⟩ := hr.baseOpen w fd (hr.msg w fd (msgFd_of_input hin))
  exact ⟨n, hn, hr.lane_worker hl (.inl hreg)⟩

theorem rcv_client (net : Net UInt8 Errno) (a : Client UInt8 Errno) (n : Nat) :
    (net.conn n).rcv.length ≤ ((net.client a).conn n).rcv.length := by
  cases a with
  | connect | queued i p => exact Nat.le_refl _
  | peer m p =>
    show _ ≤ (Function.update net.conn m _ n).rcv.length
    by_cases hnm : n = m
    · subst hnm
      rw [Function.update_self]
      cases p with
      | send bytes =>
        simp only [Inbound.peer]
        split
        · exact Nat.le_refl _
        · simp [Inbound.arrive]
      | fin | reset e => exact Nat.le_refl _
    · rw [Function.update_of_ne hnm]

theorem mainStep_pc {m : MainAct} (h : mainStep c s.srv m = some srv) (w : Nat) :
    (srv.workers w).pc = (s.srv.workers w).pc := by
  have hset : ∀ {k : Nat} {x : Worker}, x.pc = (s.srv.workers k).pc →
      ((s.srv.setWorker k x).workers w).pc = (s.srv.workers w).pc := fun hx =>
    forall_setWorker (P := fun w y => y.pc = (s.srv.workers w).pc) hx (fun _ _ => rfl) w
  cases mainStep_sound h with
  | accept | sigint | loopexit | mainLeave | join => rfl
  | push => exact hset rfl
  | sendConn | sendTerm =>
    unfold sendComm
    split
    · rfl
    · exact hset rfl

theorem main_avail {m : MainAct} (hr : Refines c s.srv lanes) (h : Avail s)
    (hsrv : mainStep c s.srv m = some srv) (hnet : netOf s (.main m) = some net) : Avail ⟨srv, net⟩ := by
  intro w fd avail n hin hn
  have hpc := mainStep_pc hsrv w
  have hin : (s.srv.workers w).pc.input = some (fd, avail) := by rw [← hpc]; exact hin
  obtain ⟨k, -, hk⟩ := hr.baseOpen w fd (hr.msg w fd (msgFd_of_input hin))
  have hold := h w fd avail k hin hk
  cases mainStep_sound hsrv with
  | @accept g hg hm =>
    obtain ⟨x, backlog, -, rfl⟩ := accept_eq hnet
    rcases FdTable.alloc_ofd_cases hg hn with ⟨rfl, -⟩ | ⟨-, hn⟩
    · rw [hg] at hk
      cases hk
    · obtain rfl : k = n := by simpa [hk] using hn
      have hne : k ≠ s.srv.kern.opened := Nat.ne_of_lt (FdTable.lt_opened hk)
      show avail ≤ (Function.update s.net.conn s.srv.kern.opened x k).rcv.length
      rwa [Function.update_of_ne hne]
  | push _ | sigint _ | loopexit _ | mainLeave _ _ | join _ _ =>
    cases hnet
    obtain rfl : k = n := Option.some.inj (hk.symm.trans hn)
    exact hold
  | sendConn _ | sendTerm _ _ =>
    cases hnet
    have hkern : ∀ {k msg main cur}, (sendComm c s.srv k msg main cur).kern = s.srv.kern := by
      intro k msg main cur
      unfold sendComm
      split <;> rfl
    rw [hkern] at hn
    obtain rfl : k = n := Option.some.inj (hk.symm.trans hn)
    exact hold

theorem WorkerStep.input_none {st st' : St} {m : WorkerAct} (h : WorkerStep st w m st')
    (hmsg : ∀ fd n, m ≠ .clientMsg fd n) (hread : m ≠ .read) (hcount : m ≠ .count) :
    (st'.workers w).pc.input = none := by
  cases h with
  | mainMsg _ _ | register _ | reply _ | leave _ _ =>
    rw [setWorker_self]
    rfl
  | recv _ =>
    rw [setWorker_self, Worker.recvMsg]
    split <;> rfl
  | tryPop _ =>
    rw [setWorker_self, Worker.popItem]
    split <;> rfl
  | @flush fd n _ hpc _ _ _ =>
    show ((st.setWorker w ((st.workers w).setOutput fd (· - n))).workers w).pc.input = none
    rw [setWorker_self]
    simp [Worker.setOutput, hpc, WorkerPc.input]
  | free hpc _ =>
    show ((st.setWorker w _).workers w).pc.input = none
    rw [setWorker_self, hpc]
    rfl
  | stay hpc =>
    rw [hpc]
    rfl
  | clientMsg _ _ => exact absurd rfl (hmsg _ _)
  | readNone _ | readSome _ _ => exact absurd rfl hread
  | count _ => exact absurd rfl hcount

theorem WorkerStep.kern_ofd {st st' : St} {m : WorkerAct} (h : WorkerStep st w m st')
    (hn : st'.kern.ofd fd = some n) : st.kern.ofd fd = some n := by
  cases h with
  | free _ _ => exact (FdTable.close_ofd_some.mp hn).2
  | mainMsg _ _ | recv _ | tryPop _ | register _ | clientMsg _ _ | readNone _ | readSome _ _ | count _ | reply _
  | flush _ _ _ _ | stay _ | leave _ _ => exact hn

theorem Avail.move (h : Avail s) (hr : Refines c s.srv lanes)
    (hl : Reach (RoundRobin.step c.concur) Any RoundRobin.init lanes)
    (hothers : ∀ v, v ≠ w → srv.workers v = s.srv.workers v)
    (hkern : ∀ fd n, srv.kern.ofd fd = some n → s.srv.kern.ofd fd = some n)
    (hconn : ∀ n, n % c.concur ≠ w → net.conn n = s.net.conn n)
    (hself : ∀ fd avail n, (srv.workers w).pc.input = some (fd, avail) → s.srv.kern.ofd fd = some n →
      avail ≤ (net.conn n).rcv.length) : Avail ⟨srv, net⟩ := by
  intro v fd avail n hin hn
  have hn := hkern fd n hn
  by_cases hv : v = w
  · subst hv
    exact hself fd avail n hin hn
  · have hin : (s.srv.workers v).pc.input = some (fd, avail) := by
      rw [← hothers v hv]
      exact hin
    obtain ⟨k, hk, hlane⟩ := input_lane hr hl hin
    obtain rfl : k = n := by simpa [hk] using hn
    show avail ≤ (net.conn k).rcv.length
    rw [hconn k (hlane ▸ hv)]
    exact h v fd avail k hin hn

theorem recv_conn {out : Out UInt8 Errno} {m : Nat} (h : s.net.recv readCap (some n) out = some net) (hm : m ≠ n) :
    net.conn m = s.net.conn m := by
  obtain ⟨x, -, rfl⟩ := recv_eq h
  exact Function.update_of_ne hm _ _

theorem worker_avail {m : WorkerAct} (h : Avail s) (hr : Refines c s.srv lanes)
    (hl : Reach (RoundRobin.step c.concur) Any RoundRobin.init lanes) (hsrv : workerStep s.srv w m = some srv)
    (hnet : netOf s (.worker w m) = some net) : Avail ⟨srv, net⟩ := by
  have hopen : ∀ fd, (s.srv.workers w).pc.msgFd = some fd → ∃ n, s.srv.kern.ofd fd = some n := by
    intro fd hfd
    obtain ⟨n, -, hn⟩ := hr.baseOpen w fd (hr.msg w fd hfd)
    exact ⟨n, hn⟩
  have hothers := (workerStep_accounts hsrv hopen).others
  have hlane : ∀ {fd n}, fd ∈ (s.srv.workers w).fds → s.srv.kern.ofd fd = some n →
      ∀ k, k % c.concur ≠ w → k ≠ n := by
    intro fd n hfd hn k hk he
    obtain ⟨j, hreg, hj⟩ := hr.baseOpen w fd hfd
    obtain rfl : j = n := by simpa [hj] using hn
    exact hk (he ▸ (hr.lane_worker hl (.inl hreg)).symm)
  have hcases := workerStep_cases hsrv
  cases m with
  | mainMsg | recv | tryPop | register | reply | flush _ _ _ | leave =>
    cases hnet
    refine h.move hr hl hothers (fun _ _ => hcases.kern_ofd) (fun _ _ => rfl) fun fd avail n hin => ?_
    rw [hcases.input_none (by simp) (by simp) (by simp)] at hin
    cases hin
  | clientMsg fd k =>
    simp only [netOf, Option.ite_none_right_eq_some, Option.some.injEq] at hnet
    obtain ⟨hle, rfl⟩ := hnet
    cases hcases with
    | clientMsg hpc hfd =>
      refine h.move hr hl hothers (fun _ _ => id) (fun _ _ => rfl) fun fd' avail n hin hn => ?_
      rw [setWorker_self] at hin
      cases hin
      simpa [Sys.connOf, hn] using hle
  | count =>
    cases hnet
    cases hcases with
    | @count fd avail hpc =>
      refine h.move hr hl hothers (fun _ _ => id) (fun _ _ => rfl) fun fd' avail' n hin hn => ?_
      have hin : (s.srv.workers w).pc.input = some (fd', avail') := by
        rw [hpc]
        simpa [St.setWorker, WorkerPc.input] using hin
      exact h w fd' avail' n hin hn
  | read =>
    have hread : ∃ fd avail, (s.srv.workers w).pc = .msgRead fd avail := by
      cases hcases with
      | readNone hpc | readSome _ hpc => exact ⟨_, _, hpc⟩
    obtain ⟨fd, avail, hpc⟩ := hread
    simp only [workerStep, hpc, Option.some.injEq] at hsrv
    subst hsrv
    have hfd : fd ∈ (s.srv.workers w).fds := hr.msg w fd (by rw [hpc]; rfl)
    cases avail with
    | zero =>
      simp only [netOf, hpc, Option.some.injEq] at hnet
      subst hnet
      refine h.move hr hl hothers (fun _ _ => id) (fun _ _ => rfl) fun fd' avail' n hin => ?_
      simp [readChunk, WorkerPc.input] at hin
    | succ avail =>
      obtain ⟨n, -, hn⟩ := hr.baseOpen w fd hfd
      simp only [netOf, hpc, hn, Sys.connOf] at hnet
      refine h.move hr hl hothers (fun _ _ => id) (fun k hk => recv_conn hnet (hlane hfd hn k hk))
        fun fd' avail' n' hin hn' => ?_
      have hold := h w fd (avail + 1) n (by rw [hpc]; rfl) hn
      simp only [readChunk, St.setWorker, Nat.add_eq_zero_iff, Nat.one_ne_zero, and_false, if_false,
        Function.update_self, WorkerPc.input, Option.some.injEq, Prod.mk.injEq] at hin
      obtain ⟨rfl, rfl⟩ := hin
      obtain rfl : n' = n := by simpa [hn'] using hn
      obtain ⟨x, hx, rfl⟩ := recv_eq hnet
      show _ ≤ (Function.update s.net.conn n' x n').rcv.length
      rw [Function.update_self]
      simp only [Inbound.recv, Option.dite_none_right_eq_some, Option.ite_none_right_eq_some,
        Option.some.injEq] at hx
      obtain ⟨_, -, rfl⟩ := hx
      have hcap : bufSize - 1 = readCap := rfl
      simp only [Inbound.take, List.length_drop, List.length_take, hcap]
      omega
  | clientEvent fd eof error =>
    have hpc : (s.srv.workers w).pc = .loop := by
      cases hcases with
      | free hpc _ | stay hpc => exact hpc
    simp only [workerStep, hpc, Option.ite_none_right_eq_some, Option.some.injEq] at hsrv
    obtain ⟨hfd, rfl⟩ := hsrv
    obtain ⟨n, -, hn⟩ := hr.baseOpen w fd hfd
    have hconn : ∀ k, k % c.concur ≠ w → net.conn k = s.net.conn k := by
      intro k hk
      have hne := hlane hfd hn k hk
      cases eof <;> cases error <;> simp only [netOf, hn] at hnet
      · cases hnet
        rfl
      · split at hnet
        · exact recv_conn hnet hne
        · cases hnet
      · exact recv_conn hnet hne
      · cases hnet
    refine h.move hr hl hothers (fun _ _ => hcases.kern_ofd) hconn fun fd' avail n' hin => ?_
    rw [hcases.input_none (by simp) (by simp) (by simp)] at hin
    cases hin

theorem step_avail (h : Avail s) (hr : Refines c s.srv lanes)
    (hl : Reach (RoundRobin.step c.concur) Any RoundRobin.init lanes) (hs : sysStep c s a = some s') :
    Avail s' := by
  cases a with
  | client a =>
    cases hs
    intro w fd avail n hin hn
    exact Nat.le_trans (h w fd avail n hin hn) (rcv_client s.net a n)
  | srv m =>
    obtain ⟨hsrv, hnet⟩ := srv_step hs
    obtain ⟨srv, net⟩ := s'
    unfold step at hsrv
    split at hsrv
    · cases hsrv
    split at hsrv
    · exact main_avail hr h hsrv hnet
    · simp only [Option.ite_none_right_eq_some] at hsrv
      exact worker_avail h hr hl hsrv.2 hnet
    · simp only [netOf, Option.ite_none_right_eq_some, Option.some.injEq] at hnet hsrv
      obtain ⟨-, rfl⟩ := hsrv
      obtain ⟨-, rfl⟩ := hnet
      exact h

theorem reach_avail (h : Reach (sysStep c) Any Sys.init s) : Avail s := by
  induction h with
  | refl =>
    intro w fd avail n hin
    cases hin
  | tail hr _ hs ih =>
    obtain ⟨lanes, hl, href⟩ := reach_refines (reach_srv (fun _ _ => id) hr)
    exact step_avail ih href hl hs

/-! ## Where no step is left -/

theorem sysStep_worker {m : WorkerAct} (hk : s.srv.killed = false) (hw : w < c.concur)
    (hsrv : (workerStep s.srv w m).isSome) (hnet : (netOf s (.worker w m)).isSome) :
    (sysStep c s (.srv (.worker w m))).isSome := by
  obtain ⟨srv, hsrv⟩ := Option.isSome_iff_exists.mp hsrv
  obtain ⟨net, hnet⟩ := Option.isSome_iff_exists.mp hnet
  have hstep : step c s.srv (.worker w m) = some srv := by simp [step, hk, hw, hsrv]
  simp [sysStep, hstep, hnet]

theorem sysStep_main {m : MainAct} (hk : s.srv.killed = false) (hsrv : (mainStep c s.srv m).isSome)
    (hnet : (netOf s (.main m)).isSome) : (sysStep c s (.srv (.main m))).isSome := by
  obtain ⟨srv, hsrv⟩ := Option.isSome_iff_exists.mp hsrv
  obtain ⟨net, hnet⟩ := Option.isSome_iff_exists.mp hnet
  have hstep : step c s.srv (.main m) = some srv := by simp [step, hk, hsrv]
  simp [sysStep, hstep, hnet]

/-- With something to read on a socket of its own, a worker in its loop has a callback to call. -/
theorem worker_reads (hk : s.srv.killed = false) (hw : w < c.concur) (hpc : (s.srv.workers w).pc = .loop)
    (hfd : fd ∈ (s.srv.workers w).fds) (hn : s.srv.kern.ofd fd = some n) (hread : (s.net.conn n).Readable) :
    ∃ a, Own s a ∧ (sysStep c s a).isSome := by
  cases hrcv : (s.net.conn n).rcv with
  | cons b rest =>
    refine ⟨.srv (.worker w (.clientMsg fd 1)), trivial, sysStep_worker hk hw ?_ ?_⟩
    · simp [workerStep, hpc, hfd]
    · simp [netOf, Sys.connOf, hn, hrcv]
  | nil =>
    have hfin : (s.net.conn n).fin = true := hread.resolve_left (by simp [hrcv])
    cases he : (s.net.conn n).err with
    | none =>
      refine ⟨.srv (.worker w (.clientEvent fd true false)), trivial, sysStep_worker hk hw ?_ ?_⟩
      · simp [workerStep, hpc, hfd]
      · simp [netOf, hn, Net.recv, Inbound.recv, hrcv, hfin, he]
    | some e =>
      refine ⟨.srv (.worker w (.clientEvent fd false true)), trivial, sysStep_worker hk hw ?_ ?_⟩
      · simp [workerStep, hpc, hfd]
      · simp [netOf, Sys.connOf, hn, he, Net.recv, Inbound.recv]

/-- A worker in its loop that waits: its pipe is empty, and so is every socket of its own. -/
structure Idle (s : Sys) (w : Nat) : Prop where
  pc : (s.srv.workers w).pc = .loop
  asked : (s.srv.workers w).exitAsked = false
  pipe : (s.srv.workers w).commPipe = []
  sockets : ∀ fd ∈ (s.srv.workers w).fds, ∀ n, s.srv.kern.ofd fd = some n → ¬ (s.net.conn n).Readable

/-- A worker with no step left has left its loop, or waits in it. -/
theorem worker_idle (hr : Refines c s.srv lanes) (hav : Avail s) (hk : s.srv.killed = false) (hw : w < c.concur)
    (hstuck : ∀ a, Own s a → sysStep c s a = none) : (s.srv.workers w).pc = .left ∨ Idle s w := by
  have hno : ∀ m, Own s (.srv (.worker w m)) → (workerStep s.srv w m).isSome → (netOf s (.worker w m)).isSome →
      False := by
    intro m ho hsrv hnet
    have := sysStep_worker hk hw hsrv hnet
    rw [hstuck _ ho] at this
    cases this
  cases hpc : (s.srv.workers w).pc with
  | left => exact .inl rfl
  | recv => exact (hno .recv trivial (by simp [workerStep, hpc]) rfl).elim
  | tryPop => exact (hno .tryPop trivial (by simp [workerStep, hpc]) rfl).elim
  | popped fd => exact (hno .register trivial (by simp [workerStep, hpc]) rfl).elim
  | msgGot fd avail => exact (hno .count trivial (by simp [workerStep, hpc]) rfl).elim
  | msgReply fd => exact (hno .reply trivial (by simp [workerStep, hpc]) rfl).elim
  | msgRead fd avail =>
    refine (hno .read trivial (by simp [workerStep, hpc]) ?_).elim
    cases avail with
    | zero => simp [netOf, hpc]
    | succ avail =>
      obtain ⟨n, -, hn⟩ := hr.baseOpen w fd (hr.msg w fd (by rw [hpc]; rfl))
      have hle := hav w fd (avail + 1) n (by rw [hpc]; rfl) hn
      have hcap : 0 < readCap := by decide
      have hlen : ((s.net.conn n).rcv.take (min (avail + 1) readCap)).length = min (avail + 1) readCap := by
        rw [List.length_take]
        omega
      have hne : (s.net.conn n).rcv.take (min (avail + 1) readCap) ≠ [] := by
        intro h0
        rw [h0, List.length_nil] at hlen
        omega
      simp only [netOf, hpc, hn, Sys.connOf, Net.recv, Inbound.recv]
      rw [dif_pos (List.take_prefix _ _), if_pos ⟨hne, by omega⟩]
      rfl
  | loop =>
    have hasked : (s.srv.workers w).exitAsked = false := by
      by_contra he
      exact hno .leave trivial (by simp [workerStep, hpc, he]) rfl
    refine .inr ⟨hpc, hasked, ?_, fun fd hfd n hn hread => ?_⟩
    · by_contra hne
      exact hno .mainMsg trivial (by simp [workerStep, hpc, hasked, hne]) rfl
    · obtain ⟨a, ho, hsome⟩ := worker_reads hk hw hpc hfd hn hread
      rw [hstuck a ho] at hsome
      cases hsome

/-- The main thread with no step left waits in its loop with nobody to
accept, waits for its workers, or has returned. -/
theorem main_idle (hk : s.srv.killed = false) (hstuck : ∀ a, Own s a → sysStep c s a = none)
    (hbound : ∀ k, s.srv.main = .signalling k → k ≤ c.concur) :
    (s.srv.main = .loop ∧ s.srv.exitAsked = false ∧ s.net.backlog = []) ∨
    (s.srv.main = .joining ∧ ∃ w < c.concur, (s.srv.workers w).pc ≠ .left) ∨ s.srv.main = .returned := by
  have hno : ∀ m, m ≠ .sigint → (mainStep c s.srv m).isSome → (netOf s (.main m)).isSome → False := by
    intro m hm hsrv hnet
    have hsome := sysStep_main hk hsrv hnet
    have ho : Own s (.srv (.main m)) := by
      cases m <;> first | exact trivial | exact absurd rfl hm
    rw [hstuck _ ho] at hsome
    cases hsome
  cases hm : s.srv.main with
  | hand fd => exact (hno .push (by simp) (by simp [mainStep, hm]) rfl).elim
  | pushed fd => exact (hno .sendConn (by simp) (by simp [mainStep, hm]) rfl).elim
  | signalling k =>
    rcases Nat.lt_or_eq_of_le (hbound k hm) with hlt | rfl
    · exact (hno .sendTerm (by simp) (by simp [mainStep, hm, hlt]) rfl).elim
    · exact (hno .loopexit (by simp) (by simp [mainStep, hm]) rfl).elim
  | joining =>
    refine .inr (.inl ⟨rfl, ?_⟩)
    by_contra hall
    have hall : ∀ w < c.concur, (s.srv.workers w).pc = .left := by
      intro w hw
      by_contra hne
      exact hall ⟨w, hw, hne⟩
    exact hno .join (by simp) (by simp only [mainStep, hm]; rw [if_pos hall]; rfl) rfl
  | returned => exact .inr (.inr rfl)
  | loop =>
    refine .inl ⟨rfl, ?_, ?_⟩
    · by_contra he
      exact hno .leave (by simp) (by simp [mainStep, hm, he]) rfl
    · cases hb : s.net.backlog with
      | nil => rfl
      | cons x backlog =>
        obtain ⟨fd, hf⟩ := s.srv.kern.exists_free
        exact (hno (.accept fd) (by simp) (by simp [mainStep, hm, hf]) (by simp [netOf, Net.accept, hb])).elim

theorem reach_signalling (h : Reach (step c) Any ThreadPool.init s.srv) :
    ∀ k, s.srv.main = .signalling k → k ≤ c.concur := by
  generalize s.srv = st at h
  induction h with
  | refl => simp [ThreadPool.init]
  | @tail st a st' _ _ hs ih =>
    intro k hm
    cases step_sound hs with
    | accept _ _ | push _ | loopexit _ | mainLeave _ _ | join _ _ => cases hm
    | sigint _ =>
      cases hm
      exact Nat.zero_le _
    | sendConn hp =>
      rcases sendComm_main with hm' | hm'
      · exact ih k (hm' ▸ hm)
      · rw [hm'] at hm
        cases hm
    | sendTerm hp hlt =>
      rcases sendComm_main with hm' | hm'
      · exact ih k (hm' ▸ hm)
      · rw [hm'] at hm
        cases hm
        exact hlt
    | mainMsg _ _ _ | recv _ _ | popNone _ _ _ | popSome _ _ _ | register _ _ | client _ _ _ _ _ _ _ _ _ _
    | close _ _ _ | leave _ _ _ | peerClose _ => exact ih k hm

/-! ## The main results -/

theorem idle_unread (h : Reach (step c) Any ThreadPool.init s.srv) (hr : Refines c s.srv lanes)
    (hl : Reach (RoundRobin.step c.concur) Any RoundRobin.init lanes)
    (hnohand : ∀ fd, s.srv.main ≠ .hand fd ∧ s.srv.main ≠ .pushed fd) (hidle : Idle s (n % c.concur))
    (hn : s.srv.kern.ofd fd = some n) : ¬ (s.net.conn n).Readable := by
  obtain ⟨p, hp⟩ := hr.at_exists hl hn
  have hcomm := (reach_comm h).worker (n % c.concur)
  have hterm : (s.srv.workers (n % c.concur)).termSent = none := by
    by_contra hne
    have hmem := hcomm.termUnread hne hidle.asked
    rw [hidle.pipe] at hmem
    cases hmem
  have hlane : ∀ w, p.worker = some w → w = n % c.concur := fun w hw => hr.at_worker hl hp hw
  cases p with
  | hand =>
    obtain ⟨g, hm, -⟩ := hp
    exact absurd hm (hnohand g).1
  | queue w =>
    obtain rfl := hlane w rfl
    obtain ⟨g, hg, hopen⟩ := hp
    have hbefore : (s.srv.workers (n % c.concur)).beforeTerm n := by simp [Worker.beforeTerm, hterm]
    rcases hcomm.signalled hidle.asked g hg n hopen hbefore with hm | hpipe | hdrain
    · exact absurd hm (hnohand g).2
    · simp [hidle.pipe] at hpipe
    · simp [hidle.pc, WorkerPc.draining] at hdrain
  | popped w =>
    obtain rfl := hlane w rfl
    obtain ⟨g, hpc, -⟩ := hp
    rw [hidle.pc] at hpc
    cases hpc
  | base w =>
    obtain rfl := hlane w rfl
    obtain ⟨g, hg, hopen⟩ := hp
    exact hidle.sockets g hg n hopen

/-- The server is an open server's, with all that holds of one. -/
def Served (c : Cfg) (s : Sys) : Prop :=
  Reach (sysStep c) Any Sys.init s ∧ ∃ t, Shows s.srv.kern s.net t ∧ StreamServer.Inv t

theorem own_lowers (h : Served c s) (ho : Own s a) (hs : sysStep c s a = some s') :
    Served c s' ∧ s'.work c < s.work c := by
  obtain ⟨hr, t, ht, hinv⟩ := h
  obtain ⟨lanes, -, href⟩ := reach_refines (reach_srv (fun _ _ => id) hr)
  obtain ⟨as, t', hrun, ht', hlt⟩ := own_answered href hinv ht ho hs
  have hinv' := (reach_of_runWhere hrun).invariant hinv fun _ _ _ hs _ hstep => StreamServer.step_inv hs hstep
  exact ⟨⟨.tail hr trivial hs, t', ht', hinv'⟩, hlt⟩

theorem own_run_le (h : Reach (sysStep c) Any Sys.init s) {as : List SysAct}
    (hrun : runWhere (sysStep c) Own s as = some s') : as.length ≤ s.work c := by
  obtain ⟨t, hreach, ht⟩ := reach_shows h
  have hlen := runWhere_length_le (I := Served c) (m := Sys.work c)
    (fun s a s' hI ho hs => own_lowers hI ho hs) ⟨h, t, ht, StreamServer.reach_inv hreach⟩ hrun
  omega

/-- **The thread pool delivers.** In every run of the server and its clients,
every interleaving of its threads: what the workers log of a connection is,
in order, a prefix of its stream, and its socket is closed only when it was
reset or is logged whole to its end. Every step of the server's own leaves
less to do, so it soon has none. And then, if SIGPIPE did not kill it,
nobody waits to be accepted as long as the main thread is in its loop, and
each connection whose worker has not left is logged whole or was reset:
also with pipes that were full, and after SIGINT. -/
theorem threadPool_delivers (h : Reach (sysStep c) Any Sys.init s) :
    (∀ n, (s.net.logged n).flatten <+: (s.net.conn n).sent) ∧
    (∀ n < s.srv.kern.opened, s.srv.kern.closes n = 1 → (s.net.conn n).broken = true ∨
      ((s.net.conn n).fin = true ∧ (s.net.logged n).flatten = (s.net.conn n).sent)) ∧
    (∀ a s', Own s a → sysStep c s a = some s' → s'.work c < s.work c) ∧
    (∀ as s', runWhere (sysStep c) Own s as = some s' → as.length ≤ s.work c) ∧
    (s.srv.killed = false → (∀ a, Own s a → sysStep c s a = none) →
      (s.srv.main = .loop → s.net.backlog = []) ∧
      ∀ n < s.srv.kern.opened, (s.srv.workers (n % c.concur)).pc ≠ .left → (s.net.conn n).broken = false →
        (s.net.logged n).flatten = (s.net.conn n).sent) := by
  obtain ⟨t, hreach, ht⟩ := reach_shows h
  have hst := StreamServer.reach_inv hreach
  have hsrv : Reach (step c) Any ThreadPool.init s.srv := reach_srv (fun _ _ => id) h
  refine ⟨ht.logged_prefix hst, fun n hn hc => ht.closed hst hn hc,
    fun a s' ho hs => (own_lowers ⟨h, t, ht, hst⟩ ho hs).2, fun as s' hrun => own_run_le h hrun,
    fun hk hstuck => ?_⟩
  have hmain := main_idle hk hstuck (reach_signalling hsrv)
  refine ⟨fun hm => ?_, fun n hn hleft hb => ?_⟩
  · rcases hmain with ⟨-, -, hback⟩ | ⟨hj, -⟩ | hret
    · exact hback
    · rw [hm] at hj
      cases hj
    · rw [hm] at hret
      cases hret
  · by_cases hclosed : s.srv.kern.closes n = 1
    · rcases ht.closed hst hn hclosed with hbr | ⟨-, hwhole⟩
      · rw [hb] at hbr
        cases hbr
      · exact hwhole
    · obtain ⟨fd, hfd⟩ : ∃ fd, s.srv.kern.ofd fd = some n := by
        rcases s.srv.kern.balance n hn with ⟨hopen, -⟩ | ⟨-, h1⟩
        · exact hopen
        · exact absurd h1 hclosed
      obtain ⟨lanes, hl, hr⟩ := reach_refines hsrv
      have hidle := (worker_idle hr (reach_avail h) hk (Nat.mod_lt n c.concur_pos) hstuck).resolve_left hleft
      have hnohand : ∀ fd, s.srv.main ≠ .hand fd ∧ s.srv.main ≠ .pushed fd := by
        intro fd
        rcases hmain with ⟨hm, -⟩ | ⟨hm, -⟩ | hm <;> simp [hm]
      have hwhole := whole_of_not_readable (idle_unread hsrv hr hl hnohand hidle hfd)
      have hlog : s.net.logged n = (s.net.conn n).got := by
        have := hst.logged n
        rwa [ht.net] at this
      rw [hlog]
      exact hwhole

/-- One client is dealt to worker 0, sends, is read and replied to, and hangs up; another waits. -/
def demoSys : List SysAct :=
  [.client .connect, .srv (.main (.accept 7)), .srv (.main .push), .srv (.main .sendConn),
   .srv (.worker 0 .mainMsg), .srv (.worker 0 .recv), .srv (.worker 0 .tryPop), .client (.peer 0 (.send [72, 105])),
   .srv (.worker 0 .register), .srv (.worker 0 .tryPop), .srv (.worker 0 .recv), .srv (.worker 0 (.clientMsg 7 2)),
   .srv (.worker 0 .read), .srv (.worker 0 .count), .srv (.worker 0 .read), .srv (.worker 0 .reply),
   .srv (.worker 0 (.flush 7 2 false)), .client (.peer 0 .fin), .srv (.worker 0 (.clientEvent 7 true false)),
   .client .connect]

theorem demoSys_run : (run (sysStep demoCfg) Sys.init demoSys).isSome := by decide +kernel

/-- `threadPool_delivers` at the end of `demoSys`. -/
theorem threadPool_delivers_demo :
    let s := (run (sysStep demoCfg) Sys.init demoSys).get demoSys_run
    (∀ n, (s.net.logged n).flatten <+: (s.net.conn n).sent) ∧
    (∀ n < s.srv.kern.opened, s.srv.kern.closes n = 1 → (s.net.conn n).broken = true ∨
      ((s.net.conn n).fin = true ∧ (s.net.logged n).flatten = (s.net.conn n).sent)) ∧
    (∀ a s', Own s a → sysStep demoCfg s a = some s' → s'.work demoCfg < s.work demoCfg) ∧
    (∀ as s', runWhere (sysStep demoCfg) Own s as = some s' → as.length ≤ s.work demoCfg) ∧
    (s.srv.killed = false → (∀ a, Own s a → sysStep demoCfg s a = none) →
      (s.srv.main = .loop → s.net.backlog = []) ∧
      ∀ n < s.srv.kern.opened, (s.srv.workers (n % demoCfg.concur)).pc ≠ .left → (s.net.conn n).broken = false →
        (s.net.logged n).flatten = (s.net.conn n).sent) :=
  threadPool_delivers (reach_get demoSys_run)

/-- COMM_TERMINATE is only sent into pipes with room for it. -/
def SysRoom (c : Cfg) (s : Sys) : SysAct → Prop
  | .srv m => Room c s.srv m
  | .client _ => True

instance (c : Cfg) (s : Sys) : (a : SysAct) → Decidable (SysRoom c s a)
  | .srv m => inferInstanceAs (Decidable (Room c s.srv m))
  | .client _ => .isTrue trivial

/-- **The thread pool's shutdown completes.** In every run that sends
COMM_TERMINATE only into pipes with room for it: once `signal_event_cb` has
asked the main loop to exit, the server's own steps are soon over, whatever
was in the pipes and queues and whichever callbacks were active; and where
none is left, if SIGPIPE did not kill it, `start_libev_adv_server` has
returned and every worker has left. -/
theorem threadPool_returns (h : Reach (sysStep c) (SysRoom c) Sys.init s) (hasked : s.srv.exitAsked = true) :
    (∀ as s', runWhere (sysStep c) Own s as = some s' → as.length ≤ s.work c) ∧
    (s.srv.killed = false → (∀ a, Own s a → sysStep c s a = none) →
      s.srv.main = .returned ∧ ∀ w < c.concur, (s.srv.workers w).pc = .left) := by
  have hany := h.any
  have hsrv : Reach (step c) Any ThreadPool.init s.srv := reach_srv (fun _ _ => id) hany
  have hroom : Reach (step c) (Room c) ThreadPool.init s.srv := reach_srv (fun _ _ => id) h
  refine ⟨fun as s' hrun => own_run_le hany hrun, fun hk hstuck => ?_⟩
  obtain ⟨lanes, -, hr⟩ := reach_refines hsrv
  have hleft : ∀ w < c.concur, (s.srv.workers w).pc = .left := by
    intro w hw
    refine (worker_idle hr (reach_avail hany) hk hw hstuck).resolve_right fun hidle => ?_
    rcases room_told hroom (.inl hasked) w hw with he | hmem
    · rw [hidle.asked] at he
      cases he
    · rw [hidle.pipe] at hmem
      cases hmem
  rcases main_idle hk hstuck (reach_signalling hsrv) with ⟨-, hnot, -⟩ | ⟨-, w, hw, hne⟩ | hret
  · rw [hasked] at hnot
    cases hnot
  · exact absurd (hleft w hw) hne
  · exact ⟨hret, hleft⟩

/-- SIGINT comes with a connection queued and its byte unread; both workers are told. -/
def demoShutdown : List SysAct :=
  [.client .connect, .client .connect, .srv (.main (.accept 7)), .srv (.main .push), .srv (.main .sendConn),
   .srv (.worker 0 .mainMsg), .srv (.worker 0 .recv), .srv (.main .sigint), .srv (.main .sendTerm),
   .srv (.main .sendTerm), .srv (.main .loopexit)]

theorem demoShutdown_run : (runWhere (sysStep demoCfg) (SysRoom demoCfg) Sys.init demoShutdown).isSome := by
  decide +kernel

/-- `threadPool_returns` at the end of `demoShutdown`. -/
theorem threadPool_returns_demo :
    let s := (runWhere (sysStep demoCfg) (SysRoom demoCfg) Sys.init demoShutdown).get demoShutdown_run
    (∀ as s', runWhere (sysStep demoCfg) Own s as = some s' → as.length ≤ s.work demoCfg) ∧
    (s.srv.killed = false → (∀ a, Own s a → sysStep demoCfg s a = none) →
      s.srv.main = .returned ∧ ∀ w < demoCfg.concur, (s.srv.workers w).pc = .left) :=
  threadPool_returns (reachWhere_get demoShutdown_run) (by decide +kernel)

end LinuxServer.ThreadPool
