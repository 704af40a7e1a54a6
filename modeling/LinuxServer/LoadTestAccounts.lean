/-
What the load test's clients can be sent, over both programs together.

Each byte a socket sends is worth the reply it can bring about, since a
callback of the server's reads one byte at least. `due` adds this up with
the replies the server is at or has queued for the socket, the bytes under
way to it and those it received. Only the connection raises it, once, and no
other step does (`step_due`).
-/
import LinuxServer.LoadTest
import LinuxServer.ThreadPool.Delivery

namespace LinuxServer.LoadTest

open Lts

/-- The reply owed by a callback for one of the descriptors in `P`. -/
def reply (P : Nat → Bool) : Option Nat → Nat
  | some fd => if P fd then okLen else 0
  | none => 0

/-- What a worker is yet to write to the descriptors in `P`: the output
queued, and the reply of the callback it is in. -/
def owes (P : Nat → Bool) (x : ThreadPool.Worker) : Nat :=
  ThreadPool.outputs (x.base.filter fun b => P b.fd) + reply P x.pc.msgFd

/-- The descriptor is that of socket `i`. -/
def isSocket (s : St) (i fd : Nat) : Bool := socketOf s fd = some i

/-- What the workers are yet to write to socket `i`. -/
def owed (c : Cfg) (s : St) (i : Nat) : Nat :=
  RoundRobin.total c.server.concur fun w => owes (isSocket s i) (s.server.workers w)

/-- What socket `i` received and can still receive for what it sent. -/
def due (c : Cfg) (s : St) (i : Nat) : Nat :=
  okLen * (s.client.output i + s.up i) + owed c s i + s.down i + s.client.received i

variable {c : Cfg} {s s' : St} {a : Act} {i w fd n : Nat} {P Q : Nat → Bool} {x y : ThreadPool.Worker}

/-! ## One worker -/

section
variable {srv srv' : ThreadPool.St}

theorem owes_mono (hbase : y.base.Sublist x.base) (hmsg : y.pc.msgFd = x.pc.msgFd)
    (hP : ∀ fd, fd ∈ x.fds ∨ x.pc.msgFd = some fd → Q fd = true → P fd = true) : owes Q y ≤ owes P x := by
  unfold owes
  have hsub : ThreadPool.outputs (y.base.filter fun b => Q b.fd) ≤
      ThreadPool.outputs (x.base.filter fun b => P b.fd) := by
    have hsame : y.base.filter (fun b => Q b.fd) = (y.base.filter fun b => P b.fd).filter fun b => Q b.fd := by
      rw [List.filter_filter]
      refine List.filter_congr fun b hb => ?_
      cases hQ : Q b.fd with
      | false => rfl
      | true => simpa using hP b.fd (.inl (List.mem_map_of_mem (hbase.subset hb))) hQ
    rw [hsame]
    exact ((List.filter_sublist.trans (hbase.filter _)).map _).sum_le_sum (by simp)
  have hpend : reply Q y.pc.msgFd ≤ reply P x.pc.msgFd := by
    rw [hmsg]
    cases hfd : x.pc.msgFd with
    | none => exact Nat.le_refl _
    | some fd =>
      simp only [reply]
      by_cases hQ : Q fd = true
      · rw [if_pos hQ, if_pos (hP fd (.inr hfd) hQ)]
      · rw [if_neg hQ]
        exact Nat.zero_le _
  omega

theorem owes_same (hbase : y.base = x.base) (hmsg : y.pc.msgFd = x.pc.msgFd) : owes P y = owes P x := by
  simp [owes, hbase, hmsg]

theorem owes_setOutput {g : Nat → Nat} (hd : x.fds.Nodup) (hfd : fd ∈ x.fds) (hP : P fd = true) :
    ThreadPool.outputs ((x.setOutput fd g).base.filter fun b => P b.fd) + x.output fd =
      ThreadPool.outputs (x.base.filter fun b => P b.fd) + g (x.output fd) := by
  have hcomm : (x.setOutput fd g).base.filter (fun b => P b.fd) =
      (x.base.filter fun b => P b.fd).map fun b => if b.fd = fd then { b with output := g b.output } else b := by
    simp only [ThreadPool.Worker.setOutput, List.filter_map]
    congr 1
    refine List.filter_congr fun b _ => ?_
    simp only [Function.comp]
    split <;> rfl
  have hfind : (x.base.filter fun b => P b.fd).find? (·.fd == fd) = x.base.find? (·.fd == fd) := by
    rw [List.find?_filter]
    congr 1
    funext b
    by_cases hb : b.fd = fd
    · simp [hb, hP]
    · simp [hb]
  have hmem : fd ∈ (x.base.filter fun b => P b.fd).map (·.fd) := by
    obtain ⟨b, hb, rfl⟩ := List.mem_map.mp hfd
    exact List.mem_map_of_mem (List.mem_filter.mpr ⟨hb, hP⟩)
  have hset := ThreadPool.outputs_set (g := g) ((List.filter_sublist.map _).nodup hd) hmem
  rw [hfind] at hset
  rw [hcomm]
  exact hset

theorem owes_setOutput_other {g : Nat → Nat} (hP : P fd = false) :
    (x.setOutput fd g).base.filter (fun b => P b.fd) = x.base.filter fun b => P b.fd := by
  simp only [ThreadPool.Worker.setOutput, List.filter_map]
  have hkeep : ∀ b ∈ x.base.filter (((fun b => P b.fd) : ThreadPool.BufferEvent → Bool) ∘
      fun b => if b.fd = fd then { b with output := g b.output } else b),
      (if b.fd = fd then { b with output := g b.output } else b) = b := by
    intro b hb
    have hPb := (List.mem_filter.mp hb).2
    simp only [Function.comp] at hPb
    split
    · next he =>
      rw [if_pos he, he, hP] at hPb
      cases hPb
    · rfl
  rw [List.map_congr_left hkeep, List.map_id']
  refine List.filter_congr fun b _ => ?_
  simp only [Function.comp]
  split <;> rfl

theorem outputs_new (base : List ThreadPool.BufferEvent) (fd : Nat) :
    ThreadPool.outputs ((base ++ [(⟨fd, 0⟩ : ThreadPool.BufferEvent)]).filter fun b => P b.fd) =
      ThreadPool.outputs (base.filter fun b => P b.fd) := by
  rw [List.filter_append, ThreadPool.outputs, List.map_append, List.sum_append]
  cases hP : P fd <;> simp [ThreadPool.outputs, hP]

/-- The reply a callback for `fd` owes. -/
def called (P : Nat → Bool) : ThreadPool.WorkerAct → Nat
  | .clientMsg fd _ => reply P (some fd)
  | _ => 0

/-- The bytes libevent writes to `fd`. -/
def written (P : Nat → Bool) : ThreadPool.WorkerAct → Nat
  | .flush fd n _ => if P fd then n else 0
  | _ => 0

/-- **A worker's step**: a callback comes to owe its reply, and what is
written is owed no more. -/
theorem worker_owes {a : ThreadPool.WorkerAct} (hd : (srv.workers w).fds.Nodup)
    (hmsg : ∀ fd, (srv.workers w).pc.msgFd = some fd → fd ∈ (srv.workers w).fds)
    (h : ThreadPool.workerStep srv w a = some srv') :
    (∀ w' ≠ w, srv'.workers w' = srv.workers w') ∧
    owes P (srv'.workers w) + written P a ≤ owes P (srv.workers w) + called P a := by
  have hset : ∀ {x : ThreadPool.Worker}, ∀ w' ≠ w, (srv.setWorker w x).workers w' = srv.workers w' :=
    fun w' hw' => ThreadPool.setWorker_of_ne hw'
  -- a move that changes neither the outputs nor the callback
  have hmove : ∀ {x : ThreadPool.Worker}, x.base = (srv.workers w).base →
      x.pc.msgFd = (srv.workers w).pc.msgFd → owes P x + 0 ≤ owes P (srv.workers w) + 0 :=
    fun hbase hmsg => Nat.le_of_eq (owes_same hbase hmsg)
  cases ThreadPool.workerStep_cases h with
  | mainMsg hpc | leave hpc | count hpc | readNone hpc =>
    refine ⟨hset, ?_⟩
    simp only [ThreadPool.setWorker_self]
    exact hmove rfl (by rw [hpc]; rfl)
  | recv hpc =>
    refine ⟨hset, ?_⟩
    rw [ThreadPool.setWorker_self]
    obtain ⟨hbase, hmsg⟩ : (srv.workers w).recvMsg.base = (srv.workers w).base ∧
        (srv.workers w).recvMsg.pc.msgFd = none := by
      unfold ThreadPool.Worker.recvMsg
      split <;> exact ⟨rfl, rfl⟩
    exact hmove hbase (by rw [hmsg, hpc]; rfl)
  | tryPop hpc =>
    refine ⟨hset, ?_⟩
    rw [ThreadPool.setWorker_self]
    obtain ⟨hbase, hmsg⟩ : (srv.workers w).popItem.base = (srv.workers w).base ∧
        (srv.workers w).popItem.pc.msgFd = none := by
      unfold ThreadPool.Worker.popItem
      split <;> exact ⟨rfl, rfl⟩
    exact hmove hbase (by rw [hmsg, hpc]; rfl)
  | @register fd hpc =>
    refine ⟨hset, ?_⟩
    rw [ThreadPool.setWorker_self]
    show ThreadPool.outputs _ + reply P none + 0 ≤ _
    rw [ThreadPool.Worker.register, outputs_new, owes, hpc]
    exact Nat.le_refl _
  | @clientMsg fd n hpc _ =>
    refine ⟨hset, ?_⟩
    rw [ThreadPool.setWorker_self]
    simp only [owes, hpc, ThreadPool.WorkerPc.msgFd, reply, written, called]
    omega
  | readSome _ hpc =>
    refine ⟨hset, ?_⟩
    show owes P ((srv.setWorker w _).workers w) + 0 ≤ _
    rw [ThreadPool.setWorker_self]
    exact hmove rfl (by rw [hpc]; rfl)
  | @reply fd hpc =>
    refine ⟨hset, ?_⟩
    rw [ThreadPool.setWorker_self]
    have hfd : fd ∈ (srv.workers w).fds := hmsg fd (by rw [hpc]; rfl)
    show ThreadPool.outputs _ + reply P none + 0 ≤ _
    simp only [owes, hpc, ThreadPool.WorkerPc.msgFd, reply, called]
    by_cases hP : P fd = true
    · have hout := owes_setOutput (g := (· + 2)) hd hfd hP
      simp only [if_pos hP, okLen]
      omega
    · rw [owes_setOutput_other (Bool.not_eq_true _ ▸ hP), if_neg hP]
  | @flush fd n sigpipe hpc hpos hle =>
    refine ⟨hset, ?_⟩
    show owes P ((srv.setWorker w _).workers w) + _ ≤ _
    rw [ThreadPool.setWorker_self]
    have hfd : fd ∈ (srv.workers w).fds := by
      by_contra hno
      have hnone : (srv.workers w).base.find? (·.fd == fd) = none := by
        refine List.find?_eq_none.mpr fun b hb he => hno ?_
        exact List.mem_map.mpr ⟨b, hb, by simpa using he⟩
      simp only [ThreadPool.Worker.output, hnone, Option.map_none, Option.getD_none] at hle
      omega
    have hpc' : ((srv.workers w).setOutput fd (· - n)).pc = .loop := hpc
    simp only [owes, hpc, hpc', ThreadPool.WorkerPc.msgFd, reply, written, called]
    by_cases hP : P fd = true
    · have hout := owes_setOutput (g := (· - n)) hd hfd hP
      rw [if_pos hP]
      omega
    · rw [owes_setOutput_other (Bool.not_eq_true _ ▸ hP), if_neg hP]
  | free hpc _ =>
    refine ⟨hset, ?_⟩
    show owes P ((srv.setWorker w _).workers w) + 0 ≤ _
    rw [ThreadPool.setWorker_self]
    exact owes_mono List.filter_sublist rfl fun _ _ hP => hP
  | stay _ => exact ⟨fun _ _ => rfl, Nat.le_refl _⟩

theorem main_keeps {cfg : ThreadPool.Cfg} {m : ThreadPool.MainAct}
    (h : ThreadPool.mainStep cfg srv m = some srv') (w : Nat) :
    (srv'.workers w).base = (srv.workers w).base ∧ (srv'.workers w).pc = (srv.workers w).pc := by
  have hset : ∀ v y, y.base = (srv.workers v).base → y.pc = (srv.workers v).pc →
      ((srv.setWorker v y).workers w).base = (srv.workers w).base ∧
      ((srv.setWorker v y).workers w).pc = (srv.workers w).pc := by
    intro v y hbase hpc
    exact ThreadPool.forall_setWorker (P := fun w y => y.base = (srv.workers w).base ∧ y.pc = (srv.workers w).pc)
      ⟨hbase, hpc⟩ (fun _ _ => ⟨rfl, rfl⟩) w
  have hsend : ∀ v msg main cur, ((ThreadPool.sendComm cfg srv v msg main cur).workers w).base =
      (srv.workers w).base ∧ ((ThreadPool.sendComm cfg srv v msg main cur).workers w).pc = (srv.workers w).pc := by
    intro v msg main cur
    unfold ThreadPool.sendComm
    split
    · exact ⟨rfl, rfl⟩
    · exact hset v _ rfl rfl
  cases ThreadPool.mainStep_sound h with
  | accept | sigint | loopexit | mainLeave | join => exact ⟨rfl, rfl⟩
  | push _ => exact hset srv.curWorkerInd _ rfl rfl
  | sendConn _ | sendTerm _ _ => exact hsend ..

theorem server_ofd {cfg : ThreadPool.Cfg} {m : ThreadPool.Act} (hm : ∀ fd, m ≠ .main (.accept fd))
    (h : ThreadPool.step cfg srv m = some srv') (hn : srv'.kern.ofd fd = some n) : srv.kern.ofd fd = some n := by
  cases ThreadPool.step_sound h with
  | accept => exact absurd rfl (hm _)
  | close => exact (FdTable.close_ofd_some.mp hn).2
  | sendConn _ | sendTerm _ _ =>
    unfold ThreadPool.sendComm at hn
    split at hn
    · exact hn
    · exact hn
  | push _ | sigint _ | loopexit _ | mainLeave _ _ | join _ _ | mainMsg _ _ _ | recv _ _ | popNone _ _ _
  | popSome _ _ _ | register _ _ | client _ _ _ _ _ _ _ _ _ _ | leave _ _ _ | peerClose _ => exact hn

end

/-! ## Both programs -/

/-- What a worker's action counts, of any action of the server's. -/
def ofWorker (f : ThreadPool.WorkerAct → Nat) : ThreadPool.Act → Nat
  | .worker _ a => f a
  | .main _ | .peerClose _ => 0

theorem server_owed (s' : St) {m : ThreadPool.Act} {t : RoundRobin.Lanes}
    (hr : ThreadPool.Refines c.server s.server t)
    (hm : ∀ fd, m ≠ .main (.accept fd)) (h : ThreadPool.step c.server s.server m = some s'.server)
    (hpeer : s'.peer = s.peer) (i : Nat) :
    owed c s' i + ofWorker (written (isSocket s i)) m ≤ owed c s i + ofWorker (called (isSocket s i)) m := by
  have hP : ∀ fd, isSocket s' i fd = true → isSocket s i fd = true := by
    intro fd hfd
    simp only [isSocket, socketOf, hpeer, decide_eq_true_eq, Option.bind_eq_some_iff] at hfd ⊢
    obtain ⟨n, hn, hpn⟩ := hfd
    exact ⟨n, server_ofd hm h hn, hpn⟩
  have hle : owed c s' i ≤ RoundRobin.total c.server.concur fun w => owes (isSocket s i) (s'.server.workers w) :=
    RoundRobin.total_le fun w _ => owes_mono (List.Sublist.refl _) rfl fun fd _ => hP fd
  unfold owed at hle ⊢
  cases m with
  | main m =>
    have hmain : ThreadPool.mainStep c.server s.server m = some s'.server := by
      unfold ThreadPool.step at h
      split at h
      · cases h
      · exact h
    have hsame : RoundRobin.total c.server.concur (fun w => owes (isSocket s i) (s'.server.workers w)) =
        RoundRobin.total c.server.concur fun w => owes (isSocket s i) (s.server.workers w) := by
      refine RoundRobin.total_congr fun w _ => ?_
      obtain ⟨hbase, hpc⟩ := main_keeps hmain w
      exact owes_same hbase (by rw [hpc])
    simp only [ofWorker]
    omega
  | worker w m =>
    unfold ThreadPool.step at h
    split at h
    · cases h
    simp only [Option.ite_none_right_eq_some] at h
    obtain ⟨hw, h⟩ := h
    obtain ⟨hothers, hself⟩ := worker_owes (P := isSocket s i) (hr.baseNodup w) (hr.msg w) h
    have htotal := RoundRobin.total_change (f := fun w => owes (isSocket s i) (s.server.workers w))
      (g := fun w => owes (isSocket s i) (s'.server.workers w)) hw (Nat.add_comm _ _)
      fun w' hw' => by simp only [hothers w' hw']
    simp only [ofWorker]
    omega
  | peerClose n =>
    unfold ThreadPool.step at h
    split at h
    · cases h
    simp only [Option.ite_none_right_eq_some, Option.some.injEq] at h
    have hworkers : s'.server.workers = s.server.workers := by rw [← h.2]
    simp only [hworkers] at hle ⊢
    exact hle

theorem accept_owed {fd j : Nat} {t : RoundRobin.Lanes} (hr : ThreadPool.Refines c.server s.server t)
    (h : step c s (.accept fd j) = some s') (i : Nat) : owed c s' i ≤ owed c s i := by
  simp only [step, Option.ite_none_right_eq_some] at h
  obtain ⟨-, h⟩ := h
  obtain ⟨srv, hs, rfl⟩ := Option.map_eq_some_iff.mp h
  have hmain : ThreadPool.mainStep c.server s.server (.accept fd) = some srv := by
    unfold ThreadPool.step at hs
    split at hs
    · cases hs
    · exact hs
  refine RoundRobin.total_le fun w _ => ?_
  obtain ⟨hbase, hpc⟩ := main_keeps hmain w
  refine owes_mono (by rw [hbase]) (by rw [hpc]) fun g hg hP => ?_
  obtain ⟨n, -, hn⟩ := hr.baseOpen w g (hg.elim id (hr.msg w g))
  have hlt := FdTable.lt_opened hn
  cases ThreadPool.mainStep_sound hmain with
  | accept hf _ =>
    simp only [isSocket, socketOf, FdTable.alloc_ofd_old hf hn, hn, Option.bind_some] at hP ⊢
    rwa [Function.update_of_ne (Nat.ne_of_lt hlt)] at hP

theorem step_server (h : step c s a = some s') :
    s'.server = s.server ∨ ∃ m, ThreadPool.step c.server s.server m = some s'.server := by
  cases a with
  | client a =>
    obtain ⟨client, -, h⟩ := Option.bind_eq_some_iff.mp h
    left
    split at h
    · cases h; rfl
    · split at h
      · cases h; rfl
      · cases h
    all_goals cases h; rfl
  | accept fd i =>
    simp only [step, Option.ite_none_right_eq_some] at h
    obtain ⟨srv, hs, rfl⟩ := Option.map_eq_some_iff.mp h.2
    exact .inr ⟨_, hs⟩
  | server a =>
    obtain ⟨srv, hs, h⟩ := Option.bind_eq_some_iff.mp h
    have he : s'.server = srv := by
      split at h
      · cases h
      · split at h
        · split at h
          · cases h; rfl
          · cases h
        · cases h
      · split at h
        · cases h; rfl
        · cases h
      · cases h; rfl
    exact .inr ⟨a, he ▸ hs⟩

theorem reach_server (h : Reach (step c) Any init s) :
    ∃ t, ThreadPool.Refines c.server s.server t := by
  have hs : Reach (ThreadPool.step c.server) Any ThreadPool.init s.server := by
    induction h with
    | refl => exact .refl
    | tail _ _ hstep ih =>
      rcases step_server hstep with he | ⟨m, hm⟩
      · rw [he]
        exact ih
      · exact .tail ih trivial hm
  obtain ⟨t, -, ht⟩ := ThreadPool.reach_refines hs
  exact ⟨t, ht⟩

theorem client_owed (hserver : s'.server = s.server) (hpeer : s'.peer = s.peer) (i : Nat) :
    owed c s' i = owed c s i := by
  have hP : isSocket s' i = isSocket s i := by
    funext fd
    rw [isSocket, isSocket, socketOf, socketOf, hserver, hpeer]
  rw [owed, owed, hP, hserver]

/-- A step of the client's: what it sends is under way, and what it receives was. -/
theorem client_due {m : Client.Act} (h : clientStep c s m = some s') (i : Nat) :
    due c s' i ≤ due c s i + (if m = .connected i then okLen * Client.helloLen else 0) := by
  have howed : owed c s' i = owed c s i := by
    obtain ⟨client, -, h⟩ := Option.bind_eq_some_iff.mp h
    cases m with
    | call j n =>
      simp only [Option.ite_none_right_eq_some, Option.some.injEq] at h
      exact client_owed (by rw [← h.2]) (by rw [← h.2]) i
    | connected _ | send _ _ | increment _ | compare _ | lost _ =>
      cases h
      exact client_owed rfl rfl i
  obtain ⟨client, hc, h⟩ := Option.bind_eq_some_iff.mp h
  unfold due
  rw [howed]
  cases m with
  | connected j =>
    cases h
    simp only [Client.step, Option.ite_none_right_eq_some, Option.some.injEq] at hc
    obtain ⟨-, rfl⟩ := hc
    by_cases hij : i = j
    · subst hij
      simp only [Client.sayHello, Function.update_self, if_true, okLen]
      omega
    · simp only [Client.sayHello, Function.update_of_ne hij]
      exact Nat.le_add_right _ _
  | send j n =>
    cases h
    simp only [Client.step, Option.ite_none_right_eq_some, Option.some.injEq] at hc
    obtain ⟨⟨-, hle⟩, rfl⟩ := hc
    by_cases hij : i = j
    · subst hij
      simp only [Function.update_self, okLen]
      omega
    · simp only [Function.update_of_ne hij]
      exact Nat.le_add_right _ _
  | call j n =>
    simp only [Option.ite_none_right_eq_some, Option.some.injEq] at h
    obtain ⟨hle, rfl⟩ := h
    simp only [Client.step, Option.ite_none_right_eq_some, Option.some.injEq] at hc
    obtain ⟨-, rfl⟩ := hc
    by_cases hij : i = j
    · subst hij
      simp only [Client.readMsg, Function.update_self]
      omega
    · simp only [Client.readMsg, Function.update_of_ne hij]
      exact Nat.le_add_right _ _
  | increment w | compare w =>
    cases h
    simp only [Client.step] at hc
    split at hc
    all_goals simp only [Option.ite_none_right_eq_some, Option.some.injEq, reduceCtorEq] at hc
    obtain ⟨-, rfl⟩ := hc
    exact Nat.le_add_right _ _
  | lost j =>
    cases h
    simp only [Client.step, Option.ite_none_right_eq_some, Option.some.injEq] at hc
    obtain ⟨-, rfl⟩ := hc
    exact Nat.le_add_right _ _

theorem clientMsg_pos {cfg : ThreadPool.Cfg} {srv srv' : ThreadPool.St}
    (h : ThreadPool.step cfg srv (.worker w (.clientMsg fd n)) = some srv') : 0 < n := by
  unfold ThreadPool.step at h
  split at h
  · cases h
  simp only [Option.ite_none_right_eq_some] at h
  obtain ⟨-, h⟩ := h
  unfold ThreadPool.workerStep at h
  cases hpc : (srv.workers w).pc with
  | loop =>
    simp only [hpc, Option.ite_none_right_eq_some] at h
    exact h.1.2
  | recv | tryPop | popped _ | msgRead _ _ | msgGot _ _ | msgReply _ | left =>
    simp only [hpc] at h
    cases h

theorem quiet_due {m : ThreadPool.Act} {t : RoundRobin.Lanes} {srv : ThreadPool.St}
    (hr : ThreadPool.Refines c.server s.server t) (hm : ∀ fd, m ≠ .main (.accept fd))
    (hquiet : ∀ P, ofWorker (called P) m = 0) (hs : ThreadPool.step c.server s.server m = some srv) (i : Nat) :
    due c { s with server := srv } i ≤ due c s i := by
  have howed := server_owed { s with server := srv } hr hm hs rfl i
  rw [hquiet] at howed
  unfold due
  simp only at howed ⊢
  omega

/-- A step of the server's: a callback takes a byte at least for the reply it owes. -/
theorem server_due {m : ThreadPool.Act} {t : RoundRobin.Lanes} (hr : ThreadPool.Refines c.server s.server t)
    (h : serverStep c s m = some s') (i : Nat) : due c s' i ≤ due c s i := by
  obtain ⟨srv, hs, h⟩ := Option.bind_eq_some_iff.mp h
  cases m with
  | main m =>
    cases m with
    | accept fd => cases h
    | push | sendConn | sigint | sendTerm | loopexit | leave | join =>
      cases h
      exact quiet_due hr (by simp) (fun _ => rfl) hs i
  | peerClose n =>
    cases h
    exact quiet_due hr (by simp) (fun _ => rfl) hs i
  | worker w m =>
    cases m with
    | clientMsg fd n =>
      simp only at h
      split at h
      · next j hj =>
        simp only [Option.ite_none_right_eq_some, Option.some.injEq] at h
        obtain ⟨hle, rfl⟩ := h
        have hpos := clientMsg_pos hs
        have howed := server_owed { s with server := srv, up := Function.update s.up j (s.up j - n) } hr
          (by simp) hs rfl i
        unfold due
        by_cases hij : i = j
        · subst hij
          have hcalled : isSocket s i fd = true := by simp [isSocket, hj]
          simp only [ofWorker, written, called, reply, hcalled, if_true, Function.update_self, okLen] at howed ⊢
          omega
        · have hnot : isSocket s i fd = false := by simp [isSocket, hj, Ne.symm hij]
          simp only [ofWorker, written, called, reply, hnot, Function.update_of_ne hij, Bool.false_eq_true,
            if_false] at howed ⊢
          omega
      · cases h
    | flush fd n sigpipe =>
      simp only at h
      split at h
      · next j hj =>
        cases h
        have howed := server_owed { s with server := srv, down := Function.update s.down j (s.down j + n) } hr
          (by simp) hs rfl i
        unfold due
        by_cases hij : i = j
        · subst hij
          have hcalled : isSocket s i fd = true := by simp [isSocket, hj]
          simp only [ofWorker, written, called, hcalled, if_true, Function.update_self] at howed ⊢
          omega
        · have hnot : isSocket s i fd = false := by simp [isSocket, hj, Ne.symm hij]
          simp only [ofWorker, written, called, hnot, Function.update_of_ne hij, Bool.false_eq_true,
            if_false] at howed ⊢
          omega
      · cases h
    | mainMsg | recv | tryPop | register | read | count | reply | clientEvent _ _ _ | leave =>
      cases h
      exact quiet_due hr (by simp) (fun _ => rfl) hs i

/-- **What a step does to `due`.** A connection that comes about is worth the
replies to its "Hello!"; no other step raises it, for any socket. -/
theorem step_due {t : RoundRobin.Lanes} (hr : ThreadPool.Refines c.server s.server t)
    (h : step c s a = some s') (i : Nat) :
    due c s' i ≤ due c s i + (if a = .client (.connected i) then okLen * Client.helloLen else 0) := by
  cases a with
  | client m =>
    have hdue := client_due h i
    simpa using hdue
  | accept fd j =>
    have howed := accept_owed hr h i
    simp only [step, Option.ite_none_right_eq_some] at h
    obtain ⟨srv, -, rfl⟩ := Option.map_eq_some_iff.mp h.2
    refine Nat.le_trans ?_ (Nat.le_add_right _ _)
    unfold due
    simp only at howed ⊢
    omega
  | server m => exact Nat.le_trans (server_due hr h i) (Nat.le_add_right _ _)

/-! ## Runs -/

/-- Before it is connected a socket has nothing due, and then the replies to
its "Hello!" at most; each callback of the client's received something. -/
structure Balance (c : Cfg) (s : St) : Prop where
  connecting : ∀ i, s.client.conn i = .connecting → due c s i = 0
  due_le : ∀ i, due c s i ≤ okLen * Client.helloLen
  accounted : Client.Accounted c.client s.client
  received : s.client.called.length ≤ RoundRobin.total c.client.clientCount s.client.received

theorem init_balance (c : Cfg) : Balance c init := by
  have hdue : ∀ i, due c init i = 0 := by
    intro i
    have howed : owed c init i = 0 := RoundRobin.total_eq_zero.mpr fun _ _ => rfl
    rw [due, howed]
    rfl
  refine ⟨fun i _ => hdue i, fun i => ?_, Client.init_accounted c.client, Nat.zero_le _⟩
  rw [hdue]
  exact Nat.zero_le _

theorem step_conn (h : step c s a = some s') (i : Nat) :
    (a = .client (.connected i) → s.client.conn i = .connecting ∧ s'.client.conn i = .connected) ∧
    (s'.client.conn i = .connecting → s.client.conn i = .connecting) := by
  rcases step_client h with he | ⟨m, rfl, hc⟩
  · rw [he]
    refine ⟨?_, id⟩
    rintro rfl
    obtain ⟨client, hc, h⟩ := Option.bind_eq_some_iff.mp h
    cases h
    simp only [Client.step, Option.ite_none_right_eq_some, Option.some.injEq] at hc
    obtain ⟨⟨-, hconn, -⟩, hs⟩ := hc
    have hnew : s.client.conn i = .connected := by rw [← he, ← hs]; simp [Client.sayHello]
    rw [hconn] at hnew
    cases hnew
  · cases m with
    | connected j =>
      simp only [Client.step, Option.ite_none_right_eq_some, Option.some.injEq] at hc
      obtain ⟨⟨-, hconn, -⟩, hs⟩ := hc
      rw [← hs]
      by_cases hij : i = j
      · subst hij
        simp [Client.sayHello, hconn]
      · simp [Client.sayHello, Function.update_of_ne hij, Ne.symm hij]
    | lost j =>
      simp only [Client.step, Option.ite_none_right_eq_some, Option.some.injEq] at hc
      rw [← hc.2]
      refine ⟨by simp, ?_⟩
      by_cases hij : i = j
      · subst hij
        simp
      · simp [Function.update_of_ne hij]
    | send j n | call j n =>
      simp only [Client.step, Option.ite_none_right_eq_some, Option.some.injEq] at hc
      rw [← hc.2]
      exact ⟨by simp, id⟩
    | increment w | compare w =>
      simp only [Client.step] at hc
      split at hc
      all_goals simp only [Option.ite_none_right_eq_some, Option.some.injEq, reduceCtorEq] at hc
      rw [← hc.2]
      exact ⟨by simp, id⟩

/-- Each call of `server_msg_cb` comes with a byte at least. -/
theorem step_received (hle : s.client.called.length ≤ RoundRobin.total c.client.clientCount s.client.received)
    (h : step c s a = some s') :
    s'.client.called.length ≤ RoundRobin.total c.client.clientCount s'.client.received := by
  rcases step_client h with he | ⟨m, -, hc⟩
  · rw [he]
    exact hle
  generalize hclient : s'.client = client at hc
  cases Client.step_sound hc with
  | other _ _ hcounts =>
    simp only [Client.St.counts, Prod.mk.injEq] at hcounts
    rw [hcounts.2.2.2.1, hcounts.2.2.2.2]
    exact hle
  | @call i n hi _ hpos =>
    have htotal := RoundRobin.total_change (f := s.client.received) (a := n) (b := 0)
      (g := Function.update s.client.received i (s.client.received i + n)) hi (by simp)
      fun j hj => by simp [hj]
    simp only [Client.readMsg, List.length_append, List.length_singleton]
    omega
  | increment | compare => exact hle

theorem step_balance {t : RoundRobin.Lanes} (hr : ThreadPool.Refines c.server s.server t) (hb : Balance c s)
    (h : step c s a = some s') : Balance c s' := by
  have hdue := fun i => step_due hr h i
  refine ⟨fun i hi => ?_, fun i => ?_, ?_, step_received hb.received h⟩
  · obtain ⟨hnow, hold⟩ := step_conn h i
    have hne : a ≠ .client (.connected i) := by
      intro ha
      rw [(hnow ha).2] at hi
      cases hi
    have hle := hdue i
    rw [if_neg hne, hb.connecting i (hold hi)] at hle
    omega
  · have hle := hdue i
    by_cases ha : a = .client (.connected i)
    · rw [if_pos ha, hb.connecting i ((step_conn h i).1 ha).1] at hle
      omega
    · rw [if_neg ha] at hle
      have := hb.due_le i
      omega
  · rcases step_client h with he | ⟨m, -, hc⟩
    · rw [he]
      exact hb.accounted
    · exact Client.step_accounted hb.accounted hc

theorem reach_balance (h : Reach (step c) Any init s) : Balance c s := by
  induction h with
  | refl => exact init_balance c
  | tail hr _ hs ih =>
    obtain ⟨t, ht⟩ := reach_server hr
    exact step_balance ht ih hs

/-- **No client is sent more than its "Hello!" is worth.** In every run of
the two programs, with any segmentation both ways, any number of workers and
loops and any connections lost: for each socket, what it received and what is
under way, queued or about to be queued for it, with two bytes for each byte
it has still to deliver, is at most twelve, and nothing before it was
connected. So `comp_req_count` is at most the number of bytes received, and
twelve for each client. -/
theorem load_test_accounts (h : Reach (step c) Any init s) :
    (∀ i, okLen * (s.client.output i + s.up i) + owed c s i + s.down i + s.client.received i ≤
      okLen * Client.helloLen) ∧
    (∀ i, s.client.conn i = .connecting → owed c s i = 0 ∧ s.down i = 0 ∧ s.client.received i = 0) ∧
    s.client.compReqCount ≤ RoundRobin.total c.client.clientCount s.client.received ∧
    s.client.compReqCount ≤ okLen * Client.helloLen * c.client.clientCount := by
  have hb := reach_balance h
  have hcount : s.client.compReqCount ≤ RoundRobin.total c.client.clientCount s.client.received := by
    have hacc := hb.accounted
    have hrec := hb.received
    unfold Client.Accounted at hacc
    omega
  refine ⟨hb.due_le, fun i hi => ?_, hcount, Nat.le_trans hcount ?_⟩
  · have hzero := hb.connecting i hi
    unfold due at hzero
    omega
  · have hle : RoundRobin.total c.client.clientCount s.client.received ≤
        RoundRobin.total c.client.clientCount fun _ => okLen * Client.helloLen := by
      refine RoundRobin.total_le fun i _ => ?_
      have hdue := hb.due_le i
      unfold due at hdue
      omega
    refine Nat.le_trans hle (Nat.le_of_eq ?_)
    simp [RoundRobin.total, Nat.mul_comm]

/-- `load_test_accounts` at the end of `splitRun`: one client's "Hello!", in two parts, is answered twice. -/
theorem load_test_accounts_split :
    let s := (run (step demoCfg) init splitRun).get splitRun_run
    ((∀ i, okLen * (s.client.output i + s.up i) + owed demoCfg s i + s.down i + s.client.received i ≤
        okLen * Client.helloLen) ∧
      (∀ i, s.client.conn i = .connecting → owed demoCfg s i = 0 ∧ s.down i = 0 ∧ s.client.received i = 0) ∧
      s.client.compReqCount ≤ RoundRobin.total demoCfg.client.clientCount s.client.received ∧
      s.client.compReqCount ≤ okLen * Client.helloLen * demoCfg.client.clientCount) ∧
    s.client.compReqCount = 2 ∧ s.client.received 0 = 4 :=
  ⟨load_test_accounts (reach_get splitRun_run), by decide +kernel, by decide +kernel⟩

end LinuxServer.LoadTest
