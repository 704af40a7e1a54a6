/-
Where the thread pool keeps its connections: the server deals them round
robin, worker `w`'s queue being the waiting part of lane `w`.

`Refines` relates the server to the lanes. A push is the deal of the next
item, a successful `try_pop` is the lane giving one out, and every other
step leaves the lanes where they are (`step_refines`). The descriptors in
the queues and event bases stay open, so each refers to one connection even
though numbers are handed out again.
-/
import LinuxServer.Lib.RoundRobin
import LinuxServer.ThreadPool.Server

namespace LinuxServer.ThreadPool

open Lts RoundRobin

def WorkerPc.poppedFd : WorkerPc → Option Nat
  | .popped fd => some fd
  | _ => none

/-- Of a worker, what says where its connections are. -/
def Worker.lane (x : Worker) : List Nat × List Nat × List Nat × Nat × Option Nat :=
  (x.queued, x.fds, x.registered, x.pushes, x.pc.poppedFd)

/-- The server and the lanes it deals to. -/
structure Refines (c : Cfg) (s : St) (t : Lanes) : Prop where
  hand : ∀ fd, s.main = .hand fd → s.kern.ofd fd = some t.dealt ∧ s.kern.opened = t.dealt + 1
  noHand : (∀ fd, s.main ≠ .hand fd) → s.kern.opened = t.dealt
  turn : (∀ fd, s.main ≠ .pushed fd) → s.curWorkerInd = t.dealt % c.concur
  turnPushed : ∀ fd, s.main = .pushed fd → ∃ n, t.dealt = n + 1 ∧ s.curWorkerInd = n % c.concur
  queued : ∀ w, (s.workers w).queued.map s.kern.ofd = (t.waiting w).map some
  popped : ∀ w fd, (s.workers w).pc.poppedFd = some fd →
    ∃ n, s.kern.ofd fd = some n ∧ t.taken w = (s.workers w).registered ++ [n]
  settled : ∀ w, (s.workers w).pc.poppedFd = none → t.taken w = (s.workers w).registered
  pushes : ∀ w, (s.workers w).pushes = (t.taken w).length + (t.waiting w).length
  baseOpen : ∀ w, ∀ fd ∈ (s.workers w).fds, ∃ n ∈ (s.workers w).registered, s.kern.ofd fd = some n
  baseAll : ∀ w fd, ∀ n ∈ (s.workers w).registered, s.kern.ofd fd = some n → fd ∈ (s.workers w).fds
  baseNodup : ∀ w, (s.workers w).fds.Nodup
  msg : ∀ w fd, (s.workers w).pc.msgFd = some fd → fd ∈ (s.workers w).fds

theorem init_refines (c : Cfg) : Refines c init RoundRobin.init := by
  constructor <;> simp [init, RoundRobin.init, FdTable.empty, Worker.init, Worker.queued, Worker.fds,
    WorkerPc.poppedFd, WorkerPc.msgFd]

/-! ## What the relation says of one connection -/

section

variable {c : Cfg} {s : St} {t : Lanes} {w fd n : Nat}

theorem Refines.registered_taken (h : Refines c s t) (hn : n ∈ (s.workers w).registered) : n ∈ t.taken w := by
  cases hp : (s.workers w).pc.poppedFd with
  | none => rw [h.settled w hp]; exact hn
  | some fd =>
    obtain ⟨m, -, htaken⟩ := h.popped w fd hp
    rw [htaken]
    exact List.mem_append_left _ hn

theorem Refines.lane_worker (h : Refines c s t) (ht : Reach (RoundRobin.step c.concur) Any RoundRobin.init t)
    (hn : n ∈ (s.workers w).registered ∨ n ∈ t.waiting w) : w = n % c.concur :=
  ((mem_lane ht).mp (hn.imp_left h.registered_taken)).2.symm

theorem Refines.queued_open (h : Refines c s t) (hfd : fd ∈ (s.workers w).queued) :
    ∃ n ∈ t.waiting w, s.kern.ofd fd = some n := by
  have hmem : s.kern.ofd fd ∈ (t.waiting w).map some := h.queued w ▸ List.mem_map_of_mem hfd
  obtain ⟨n, hn, he⟩ := List.mem_map.mp hmem
  exact ⟨n, hn, he.symm⟩

theorem Refines.waiting_queued (h : Refines c s t) (hn : n ∈ t.waiting w) :
    ∃ fd ∈ (s.workers w).queued, s.kern.ofd fd = some n := by
  have hmem : some n ∈ (s.workers w).queued.map s.kern.ofd := h.queued w ▸ List.mem_map_of_mem hn
  exact List.mem_map.mp hmem

theorem Refines.popped_taken (h : Refines c s t) (ht : Reach (RoundRobin.step c.concur) Any RoundRobin.init t)
    (hp : (s.workers w).pc.poppedFd = some fd) (hfd : s.kern.ofd fd = some n) :
    n ∈ t.taken w ∧ n ∉ (s.workers w).registered := by
  obtain ⟨m, hm, htaken⟩ := h.popped w fd hp
  obtain rfl : m = n := by simpa [hm] using hfd
  have hnd : ((s.workers w).registered ++ [m]).Nodup := htaken ▸ (lane_nodup ht).1
  refine ⟨by simp [htaken], fun hmem => ?_⟩
  exact (List.nodup_append'.mp hnd).2.2 hmem (List.mem_singleton.mpr rfl)

theorem Refines.queued_nodup (h : Refines c s t) (ht : Reach (RoundRobin.step c.concur) Any RoundRobin.init t) :
    (s.workers w).queued.Nodup := by
  have hnd : ((t.waiting w).map some).Nodup := (lane_nodup ht).2.1.map (Option.some_injective _)
  rw [← h.queued w] at hnd
  exact hnd.of_map

end

/-! ## Steps -/

theorem Refines.frame {c : Cfg} {s s' : St} {t : Lanes} (h : Refines c s t) (hkern : s'.kern = s.kern)
    (hcur : s'.curWorkerInd = s.curWorkerInd) (hhand : ∀ fd, s'.main = .hand fd ↔ s.main = .hand fd)
    (hpushed : ∀ fd, s'.main = .pushed fd ↔ s.main = .pushed fd)
    (hlane : ∀ w, (s'.workers w).lane = (s.workers w).lane)
    (hmsg : ∀ w fd, (s'.workers w).pc.msgFd = some fd → fd ∈ (s.workers w).fds) : Refines c s' t := by
  simp only [Worker.lane, Prod.mk.injEq] at hlane
  refine ⟨fun fd hm => ?_, fun hm => ?_, fun hm => ?_, fun fd hm => ?_, fun w => ?_, fun w fd hp => ?_,
    fun w hp => ?_, fun w => ?_, fun w => ?_, fun w => ?_, fun w => ?_, fun w fd hfd => ?_⟩
  · rw [hkern]; exact h.hand fd ((hhand fd).mp hm)
  · rw [hkern]; exact h.noHand fun fd hm' => hm fd ((hhand fd).mpr hm')
  · rw [hcur]; exact h.turn fun fd hm' => hm fd ((hpushed fd).mpr hm')
  · rw [hcur]; exact h.turnPushed fd ((hpushed fd).mp hm)
  · rw [(hlane w).1, hkern]; exact h.queued w
  · rw [(hlane w).2.2.1, hkern]; exact h.popped w fd ((hlane w).2.2.2.2 ▸ hp)
  · rw [(hlane w).2.2.1]; exact h.settled w ((hlane w).2.2.2.2 ▸ hp)
  · rw [(hlane w).2.2.2.1]; exact h.pushes w
  · rw [(hlane w).2.1, (hlane w).2.2.1, hkern]; exact h.baseOpen w
  · rw [(hlane w).2.1, (hlane w).2.2.1, hkern]; exact h.baseAll w
  · rw [(hlane w).2.1]; exact h.baseNodup w
  · rw [(hlane w).2.1]; exact hmsg w fd hfd

theorem Refines.setWorker {c : Cfg} {s : St} {t : Lanes} {w : Nat} {x : Worker} (h : Refines c s t)
    (hlane : x.lane = (s.workers w).lane) (hmsg : ∀ fd, x.pc.msgFd = some fd → fd ∈ (s.workers w).fds) :
    Refines c (s.setWorker w x) t := by
  refine h.frame rfl rfl (fun _ => .rfl) (fun _ => .rfl) ?_ ?_
  · exact forall_setWorker (P := fun w' y => y.lane = (s.workers w').lane) hlane fun _ _ => rfl
  · exact forall_setWorker (P := fun w' y => ∀ fd, y.pc.msgFd = some fd → fd ∈ (s.workers w').fds) hmsg
      fun w' _ => h.msg w'

theorem Refines.accept {c : Cfg} {s : St} {t : Lanes} {fd : Nat} (h : Refines c s t)
    (ht : Reach (RoundRobin.step c.concur) Any RoundRobin.init t) (hm : s.main = .loop)
    (hf : s.kern.ofd fd = none) : Refines c { s with main := .hand fd, kern := s.kern.alloc fd hf } t := by
  have hopened : s.kern.opened = t.dealt := h.noHand (by simp [hm])
  have hold : ∀ g n, s.kern.ofd g = some n → (s.kern.alloc fd hf).ofd g = some n :=
    fun g n => FdTable.alloc_ofd_old hf
  refine ⟨fun fd' hfd => ?_, fun hno => absurd rfl (hno fd), fun _ => h.turn (by simp [hm]), by simp,
    fun w => ?_, fun w fd' hp => ?_, h.settled, h.pushes, fun w fd' hfd => ?_, fun w fd' n hn hfd => ?_,
    h.baseNodup, h.msg⟩
  · cases hfd
    simp [hopened]
  · rw [← h.queued w]
    refine List.map_congr_left fun g hg => ?_
    obtain ⟨n, -, hn⟩ := h.queued_open hg
    rw [hn]
    exact hold g n hn
  · obtain ⟨n, hn, htaken⟩ := h.popped w fd' hp
    exact ⟨n, hold fd' n hn, htaken⟩
  · obtain ⟨n, hn, hopen⟩ := h.baseOpen w fd' hfd
    exact ⟨n, hn, hold fd' n hopen⟩
  · rcases FdTable.alloc_ofd_cases hf hfd with ⟨-, rfl⟩ | ⟨-, hopen⟩
    · have := ((mem_lane ht).mp (.inl (h.registered_taken hn))).1
      omega
    · exact h.baseAll w fd' n hn hopen

theorem Refines.push {c : Cfg} {s : St} {t : Lanes} {fd : Nat} (h : Refines c s t) (hm : s.main = .hand fd) :
    Refines c (pushConn s fd) (deal c.concur t) := by
  obtain ⟨hopen, hopened⟩ := h.hand fd hm
  have hturn : s.curWorkerInd = t.dealt % c.concur := h.turn (by simp [hm])
  have hsame : ∀ w, ((pushConn s fd).workers w).pc = (s.workers w).pc ∧
      ((pushConn s fd).workers w).registered = (s.workers w).registered ∧
      ((pushConn s fd).workers w).fds = (s.workers w).fds := by
    intro w
    by_cases hw : w = s.curWorkerInd
    · subst hw; simp [pushConn, St.setWorker, Worker.fds]
    · simp [pushConn, St.setWorker, hw]
  refine ⟨by simp [pushConn], fun _ => hopened, by simp [pushConn], fun _ _ => ⟨t.dealt, rfl, hturn⟩,
    fun w => ?_, fun w fd' hp => ?_, fun w hp => ?_, fun w => ?_, fun w => ?_, fun w => ?_, fun w => ?_,
    fun w fd' hfd => ?_⟩
  · by_cases hw : w = s.curWorkerInd
    · subst hw
      have hq := h.queued s.curWorkerInd
      simp only [Worker.queued] at hq
      simp [pushConn, St.setWorker, deal, ← hturn, Worker.queued, ThreadSafeQueue.push, hq, hopen]
    · simp [pushConn, St.setWorker, deal, ← hturn, hw, h.queued w]
  · rw [(hsame w).2.1]; exact h.popped w fd' ((hsame w).1 ▸ hp)
  · rw [(hsame w).2.1]; exact h.settled w ((hsame w).1 ▸ hp)
  · by_cases hw : w = s.curWorkerInd
    · subst hw
      have hp := h.pushes s.curWorkerInd
      simp only [pushConn, St.setWorker, deal, ← hturn, Function.update_self, List.length_append,
        List.length_singleton]
      omega
    · simp [pushConn, St.setWorker, deal, ← hturn, hw, h.pushes w]
  · rw [(hsame w).2.1, (hsame w).2.2]; exact h.baseOpen w
  · rw [(hsame w).2.1, (hsame w).2.2]; exact h.baseAll w
  · rw [(hsame w).2.2]; exact h.baseNodup w
  · rw [(hsame w).2.2]; exact h.msg w fd' ((hsame w).1 ▸ hfd)

/-- `cur_worker_ind` after the send is the turn of the next connection. -/
theorem nextWorkerInd_mod {c : Cfg} {n : Nat} : nextWorkerInd c (n % c.concur) = (n + 1) % c.concur := by
  have hlt := Nat.mod_lt n c.concur_pos
  unfold nextWorkerInd
  rw [← Nat.mod_add_mod]
  split
  · next hle =>
    have hlast : n % c.concur + 1 = c.concur := by omega
    rw [hlast, Nat.mod_self]
  · next hle =>
    have hmod : (n % c.concur + 1) % c.concur = n % c.concur + 1 := Nat.mod_eq_of_lt (by omega)
    rw [hmod]

theorem Refines.sendComm {c : Cfg} {s : St} {t : Lanes} {w cur : Nat} {msg : CommMsgType} {main : MainPc}
    (h : Refines c s t) (hhand : (∀ fd, s.main ≠ .hand fd) ∧ ∀ fd, main ≠ .hand fd)
    (hpushed : ∀ fd, main ≠ .pushed fd) (hcur : cur = t.dealt % c.concur) :
    Refines c (sendComm c s w msg main cur) t := by
  unfold ThreadPool.sendComm
  split
  · exact h.frame rfl rfl (fun _ => .rfl) (fun _ => .rfl) (fun _ => rfl) h.msg
  · have hset : Refines c (s.setWorker w ((s.workers w).send c s.kern.opened msg)) t :=
      h.setWorker rfl fun fd hfd => h.msg w fd hfd
    exact ⟨fun fd hm => absurd hm (hhand.2 fd), fun _ => h.noHand hhand.1, fun _ => hcur,
      fun fd hm => absurd hm (hpushed fd), hset.queued, hset.popped, hset.settled, hset.pushes, hset.baseOpen,
      hset.baseAll, hset.baseNodup, hset.msg⟩

theorem recvMsg_lane {x : Worker} (hpc : x.pc = .recv) :
    x.recvMsg.lane = x.lane ∧ ∀ fd, x.recvMsg.pc.msgFd ≠ some fd := by
  unfold Worker.recvMsg
  split <;> simp [Worker.lane, Worker.queued, Worker.fds, WorkerPc.poppedFd, WorkerPc.msgFd, hpc]

/-- A worker's part of the relation, where only that worker has changed and
the descriptors have not. -/
theorem Refines.ofWorker {c : Cfg} {s : St} {t t' : Lanes} {w : Nat} {x : Worker} (h : Refines c s t)
    (hdealt : t'.dealt = t.dealt)
    (hother : ∀ w', w' ≠ w → t'.waiting w' = t.waiting w' ∧ t'.taken w' = t.taken w')
    (hqueued : x.queued.map s.kern.ofd = (t'.waiting w).map some)
    (hpopped : ∀ fd, x.pc.poppedFd = some fd →
      ∃ n, s.kern.ofd fd = some n ∧ t'.taken w = x.registered ++ [n])
    (hsettled : x.pc.poppedFd = none → t'.taken w = x.registered)
    (hpushes : x.pushes = (t'.taken w).length + (t'.waiting w).length)
    (hopen : ∀ fd ∈ x.fds, ∃ n ∈ x.registered, s.kern.ofd fd = some n)
    (hall : ∀ fd, ∀ n ∈ x.registered, s.kern.ofd fd = some n → fd ∈ x.fds)
    (hnodup : x.fds.Nodup) (hmsg : ∀ fd, x.pc.msgFd = some fd → fd ∈ x.fds) :
    Refines c (s.setWorker w x) t' := by
  refine ⟨fun fd hm => hdealt ▸ h.hand fd hm, fun hm => hdealt ▸ h.noHand hm, fun hm => hdealt ▸ h.turn hm,
    fun fd hm => hdealt ▸ h.turnPushed fd hm, ?_, ?_, ?_, ?_, ?_, ?_, ?_, ?_⟩
  · refine forall_setWorker (P := fun w' y => y.queued.map s.kern.ofd = (t'.waiting w').map some) hqueued ?_
    intro w' hw
    rw [(hother w' hw).1]
    exact h.queued w'
  · refine forall_setWorker (P := fun w' y => ∀ fd, y.pc.poppedFd = some fd →
      ∃ n, s.kern.ofd fd = some n ∧ t'.taken w' = y.registered ++ [n]) hpopped ?_
    intro w' hw
    rw [(hother w' hw).2]
    exact h.popped w'
  · refine forall_setWorker (P := fun w' y => y.pc.poppedFd = none → t'.taken w' = y.registered) hsettled ?_
    intro w' hw
    rw [(hother w' hw).2]
    exact h.settled w'
  · refine forall_setWorker (P := fun w' y => y.pushes = (t'.taken w').length + (t'.waiting w').length) hpushes ?_
    intro w' hw
    rw [(hother w' hw).1, (hother w' hw).2]
    exact h.pushes w'
  · exact forall_setWorker (P := fun _ y => ∀ fd ∈ y.fds, ∃ n ∈ y.registered, s.kern.ofd fd = some n) hopen
      fun w' _ => h.baseOpen w'
  · exact forall_setWorker (P := fun _ y => ∀ fd, ∀ n ∈ y.registered, s.kern.ofd fd = some n → fd ∈ y.fds) hall
      fun w' _ => h.baseAll w'
  · exact forall_setWorker (P := fun _ y => y.fds.Nodup) hnodup fun w' _ => h.baseNodup w'
  · exact forall_setWorker (P := fun _ y => ∀ fd, y.pc.msgFd = some fd → fd ∈ y.fds) hmsg fun w' _ => h.msg w'

theorem Refines.popSome {c : Cfg} {s : St} {t : Lanes} {w fd : Nat} {queue : ThreadSafeQueue CommQueueItem}
    (h : Refines c s t) (hpc : (s.workers w).pc = .tryPop)
    (hq : (s.workers w).queued = fd :: queue.dataQueue.map (·.fd)) :
    ∃ t', RoundRobin.step c.concur t (.take w) = some t' ∧
      Refines c (s.setWorker w { s.workers w with pc := .popped fd, commQueue := queue }) t' := by
  have hmap := h.queued w
  rw [hq, List.map_cons] at hmap
  cases hwait : t.waiting w with
  | nil => rw [hwait] at hmap; cases hmap
  | cons n rest =>
    rw [hwait, List.map_cons, List.cons.injEq] at hmap
    obtain ⟨hopen, hrest⟩ := hmap
    have htaken : t.taken w = (s.workers w).registered := h.settled w (by simp [hpc, WorkerPc.poppedFd])
    have hpushes := h.pushes w
    refine ⟨take t w n rest, by simp [RoundRobin.step, hwait], h.ofWorker rfl (fun w' hw => ?_) ?_
      (fun fd' hfd => ?_) (fun hnone => ?_) ?_ (h.baseOpen w) (h.baseAll w) (h.baseNodup w)
      (by simp [WorkerPc.msgFd])⟩
    · simp [take, hw]
    · simpa [take, Worker.queued] using hrest
    · obtain rfl : fd = fd' := by simpa [WorkerPc.poppedFd] using hfd
      exact ⟨n, hopen, by simp [take, htaken]⟩
    · cases hnone
    · simp only [take, Function.update_self, List.length_append, List.length_singleton]
      rw [hwait, List.length_cons] at hpushes
      omega

theorem Refines.register {c : Cfg} {s : St} {t : Lanes} {w fd : Nat} (h : Refines c s t)
    (ht : Reach (RoundRobin.step c.concur) Any RoundRobin.init t) (hpc : (s.workers w).pc = .popped fd) :
    Refines c (s.setWorker w ((s.workers w).register fd (s.kern.ofd fd))) t := by
  have hp : (s.workers w).pc.poppedFd = some fd := by simp [hpc, WorkerPc.poppedFd]
  obtain ⟨n, hopen, htaken⟩ := h.popped w fd hp
  have hnew := (h.popped_taken ht hp hopen).2
  have hreg : ((s.workers w).register fd (s.kern.ofd fd)).registered = (s.workers w).registered ++ [n] := by
    simp [Worker.register, hopen]
  have hfds : ((s.workers w).register fd (s.kern.ofd fd)).fds = (s.workers w).fds ++ [fd] := by
    simp [Worker.register, Worker.fds]
  have hfd : fd ∉ (s.workers w).fds := by
    intro hmem
    obtain ⟨m, hm, hopen'⟩ := h.baseOpen w fd hmem
    rw [hopen, Option.some.injEq] at hopen'
    exact hnew (hopen' ▸ hm)
  refine h.ofWorker rfl (fun _ _ => ⟨rfl, rfl⟩) (h.queued w) (by simp [Worker.register, WorkerPc.poppedFd])
    (fun _ => by rw [hreg, htaken]) (h.pushes w) (fun g hg => ?_) (fun g m hm hg => ?_) ?_
    (by simp [Worker.register, WorkerPc.msgFd])
  · rw [hfds, List.mem_append, List.mem_singleton] at hg
    rw [hreg]
    rcases hg with hg | rfl
    · obtain ⟨m, hm, hopen'⟩ := h.baseOpen w g hg
      exact ⟨m, List.mem_append_left _ hm, hopen'⟩
    · exact ⟨n, by simp, hopen⟩
  · rw [hreg, List.mem_append, List.mem_singleton] at hm
    rw [hfds]
    rcases hm with hm | rfl
    · exact List.mem_append_left _ (h.baseAll w g m hm hg)
    · rw [FdTable.ofd_inj hg hopen]
      simp
  · rw [hfds]
    exact List.nodup_append'.mpr ⟨h.baseNodup w, List.nodup_singleton _, by simpa using hfd⟩

/-- The worker without the `bufferevent` of `fd`. -/
def Worker.freed (x : Worker) (fd : Nat) : Worker := { x with base := x.base.filter (·.fd != fd) }

theorem mem_freed_fds {x : Worker} {fd g : Nat} : g ∈ (x.freed fd).fds ↔ g ∈ x.fds ∧ g ≠ fd := by
  simp only [Worker.freed, Worker.fds, List.mem_map, List.mem_filter, bne_iff_ne, ne_eq]
  constructor
  · intro h
    obtain ⟨b, ⟨hb, hne⟩, hg⟩ := h
    exact ⟨⟨b, hb, hg⟩, hg ▸ hne⟩
  · intro h
    obtain ⟨⟨b, hb, hg⟩, hne⟩ := h
    exact ⟨b, ⟨hb, hg ▸ hne⟩, hg⟩

theorem freed_fds_nodup {x : Worker} {fd : Nat} (h : x.fds.Nodup) : (x.freed fd).fds.Nodup :=
  h.sublist (List.filter_sublist.map _)

theorem Refines.close {c : Cfg} {s : St} {t : Lanes} {w fd : Nat} (h : Refines c s t)
    (ht : Reach (RoundRobin.step c.concur) Any RoundRobin.init t) (hpc : (s.workers w).pc = .loop)
    (hfd : fd ∈ (s.workers w).fds) :
    Refines c { s.setWorker w ((s.workers w).freed fd) with kern := s.kern.close fd } t := by
  obtain ⟨n, hreg, hopen⟩ := h.baseOpen w fd hfd
  have hw : w = n % c.concur := h.lane_worker ht (.inl hreg)
  have hlt : n < t.dealt := ((mem_lane ht).mp (.inl (h.registered_taken hreg))).1
  have hkeep : ∀ {g m}, s.kern.ofd g = some m → m ≠ n → (s.kern.close fd).ofd g = some m :=
    fun hg hne => FdTable.close_ofd_keep hopen hg hne
  -- the connection closed is in no lane but worker `w`'s
  have hlane : ∀ w' m, m ∈ (s.workers w').registered ∨ m ∈ t.waiting w' → m = n → w' = w := by
    intro w' m hm he
    rw [h.lane_worker ht hm, hw, he]
  have hsame : ∀ w', ((s.setWorker w ((s.workers w).freed fd)).workers w').pc = (s.workers w').pc ∧
      ((s.setWorker w ((s.workers w).freed fd)).workers w').queued = (s.workers w').queued ∧
      ((s.setWorker w ((s.workers w).freed fd)).workers w').registered = (s.workers w').registered ∧
      ((s.setWorker w ((s.workers w).freed fd)).workers w').pushes = (s.workers w').pushes :=
    forall_setWorker (P := fun w' y => y.pc = (s.workers w').pc ∧ y.queued = (s.workers w').queued ∧
      y.registered = (s.workers w').registered ∧ y.pushes = (s.workers w').pushes)
      ⟨rfl, rfl, rfl, rfl⟩ fun _ _ => ⟨rfl, rfl, rfl, rfl⟩
  have hfds : ∀ w' g, g ∈ ((s.setWorker w ((s.workers w).freed fd)).workers w').fds ↔
      g ∈ (s.workers w').fds ∧ (w' = w → g ≠ fd) := fun w' g =>
    forall_setWorker (P := fun w' y => g ∈ y.fds ↔ g ∈ (s.workers w').fds ∧ (w' = w → g ≠ fd))
      (by simp [mem_freed_fds]) (fun w' hne => by simp [hne]) w'
  refine ⟨fun g hm => ?_, fun hm => ?_, h.turn, h.turnPushed, fun w' => ?_, fun w' g hp => ?_, fun w' hp => ?_,
    fun w' => ?_, fun w' g hg => ?_, fun w' g m hm hg => ?_, ?_, fun w' g hg => ?_⟩
  · obtain ⟨hg, hopened⟩ := h.hand g hm
    exact ⟨hkeep hg (by omega), by simpa using hopened⟩
  · simpa using h.noHand hm
  · simp only [(hsame w').2.1]
    rw [← h.queued w']
    refine List.map_congr_left fun g hg => ?_
    obtain ⟨m, hm, hg'⟩ := h.queued_open hg
    rw [hg']
    refine hkeep hg' fun he => ?_
    obtain rfl := hlane w' m (.inr hm) he
    exact (lane_nodup ht).2.2 (h.registered_taken (he ▸ hreg)) hm
  · simp only [(hsame w').1] at hp
    simp only [(hsame w').2.2.1]
    obtain ⟨m, hg, htaken⟩ := h.popped w' g hp
    refine ⟨m, hkeep hg fun he => ?_, htaken⟩
    have hpop := h.popped_taken ht hp hg
    have hww : w' = w := by rw [← ((mem_lane ht).mp (.inl hpop.1)).2, hw, he]
    exact hpop.2 (hww ▸ he ▸ hreg)
  · simp only [(hsame w').1] at hp
    simp only [(hsame w').2.2.1]
    exact h.settled w' hp
  · simp only [(hsame w').2.2.2]
    exact h.pushes w'
  · simp only [hfds] at hg
    simp only [(hsame w').2.2.1]
    obtain ⟨m, hm, hg'⟩ := h.baseOpen w' g hg.1
    refine ⟨m, hm, hkeep hg' fun he => ?_⟩
    refine hg.2 (hlane w' m (.inl hm) he) ?_
    rw [he] at hg'
    exact FdTable.ofd_inj hg' hopen
  · simp only [(hsame w').2.2.1] at hm
    simp only [hfds]
    obtain ⟨hne, hg'⟩ := FdTable.close_ofd_some.mp hg
    exact ⟨h.baseAll w' g m hm hg', fun _ => hne⟩
  · exact forall_setWorker (P := fun _ y => y.fds.Nodup) (freed_fds_nodup (h.baseNodup w))
      fun w' _ => h.baseNodup w'
  · simp only [(hsame w').1] at hg
    simp only [hfds]
    refine ⟨h.msg w' g hg, fun hww => ?_⟩
    rw [hww, hpc] at hg
    cases hg

/-- Each step of the server is a deal, an item given out, or no step of the lanes. -/
theorem step_refines {c : Cfg} {s s' : St} {t : Lanes} {a : Act} (h : Refines c s t)
    (ht : Reach (RoundRobin.step c.concur) Any RoundRobin.init t) (hs : Step c s a s') :
    ∃ t', Reach (RoundRobin.step c.concur) Any t t' ∧ Refines c s' t' := by
  cases hs with
  | accept hf hm => exact ⟨t, .refl, h.accept ht hm hf⟩
  | push hm => exact ⟨deal c.concur t, .tail (a := .deal) .refl trivial rfl, h.push hm⟩
  | sendConn hm =>
    refine ⟨t, .refl, h.sendComm (by simp [hm]) (by simp) ?_⟩
    obtain ⟨n, hdealt, hcur⟩ := h.turnPushed _ hm
    rw [hcur, nextWorkerInd_mod, hdealt]
  | sendTerm hm _ =>
    exact ⟨t, .refl, h.sendComm (by simp [hm]) (by simp) (h.turn (by simp [hm]))⟩
  | sigint hm | loopexit hm | mainLeave hm _ | join hm _ =>
    exact ⟨t, .refl, h.frame rfl rfl (by simp [hm]) (by simp [hm]) (fun _ => rfl) h.msg⟩
  | peerClose _ => exact ⟨t, .refl, h.frame rfl rfl (fun _ => .rfl) (fun _ => .rfl) (fun _ => rfl) h.msg⟩
  | mainMsg _ hpc _ | popNone _ hpc _ | leave _ hpc _ =>
    refine ⟨t, .refl, h.setWorker ?_ (by simp [WorkerPc.msgFd])⟩
    simp [Worker.lane, Worker.queued, Worker.fds, WorkerPc.poppedFd, hpc]
  | recv _ hpc =>
    obtain ⟨hlane, hmsg⟩ := recvMsg_lane hpc
    exact ⟨t, .refl, h.setWorker hlane fun fd hfd => absurd hfd (hmsg fd)⟩
  | popSome _ hpc hq =>
    obtain ⟨t', ht', hr⟩ := h.popSome hpc hq
    exact ⟨t', .tail .refl trivial ht', hr⟩
  | register _ hpc => exact ⟨t, .refl, h.register ht hpc⟩
  | @client w _ x _ _ _ _ _ _ hpc hpc' hx hmsg =>
    have hset : Refines c (s.setWorker w x) t := by
      simp only [Worker.shared, Prod.mk.injEq] at hx
      have hnone : ∀ pc : WorkerPc, pc.client = true → pc.poppedFd = none := by
        intro pc hcl
        cases pc <;> first | rfl | cases hcl
      refine h.setWorker ?_ fun fd hfd => (hmsg fd hfd).elim id (h.msg w fd)
      simp [Worker.lane, hx, hnone _ hpc, hnone _ hpc']
    exact ⟨t, .refl, hset.frame rfl rfl (fun _ => .rfl) (fun _ => .rfl) (fun _ => rfl) hset.msg⟩
  | close _ hpc hfd => exact ⟨t, .refl, h.close ht hpc hfd⟩

/-- **The server refines the round robin lanes.** -/
theorem reach_refines {c : Cfg} {s : St} (h : Reach (step c) Any init s) :
    ∃ t, Reach (RoundRobin.step c.concur) Any RoundRobin.init t ∧ Refines c s t :=
  h.simulate (init_refines c) fun _ _ _ _ _ ht hr _ hstep => step_refines hr ht (step_sound hstep)

/-! ## Where a connection is -/

/-- The places an open connection can be in. -/
inductive Place
  | hand
  | queue (w : Nat)
  | popped (w : Nat)
  | base (w : Nat)
  deriving DecidableEq, Repr

/-- The worker whose place it is. -/
def Place.worker : Place → Option Nat
  | .hand => none
  | .queue w | .popped w | .base w => some w

/-- Connection `n` is in the place, under the descriptor that refers to it. -/
def At (s : St) (n : Nat) : Place → Prop
  | .hand => ∃ fd, s.main = .hand fd ∧ s.kern.ofd fd = some n
  | .queue w => ∃ fd ∈ (s.workers w).queued, s.kern.ofd fd = some n
  | .popped w => ∃ fd, (s.workers w).pc = .popped fd ∧ s.kern.ofd fd = some n
  | .base w => ∃ fd ∈ (s.workers w).fds, s.kern.ofd fd = some n

theorem poppedFd_eq_some {pc : WorkerPc} {fd : Nat} : pc.poppedFd = some fd ↔ pc = .popped fd := by
  cases pc <;> simp [WorkerPc.poppedFd]

section

variable {c : Cfg} {s : St} {t : Lanes} {n : Nat} {p : Place}

/-- The place the lanes give connection `n`: not dealt yet, waiting, given
out and registered, or given out only. -/
def placeOf (c : Cfg) (s : St) (t : Lanes) (n : Nat) : Place :=
  if n = t.dealt then .hand
  else if n ∈ t.waiting (n % c.concur) then .queue (n % c.concur)
  else if n ∈ (s.workers (n % c.concur)).registered then .base (n % c.concur)
  else .popped (n % c.concur)

theorem placeOf_worker {w : Nat} (h : (placeOf c s t n).worker = some w) : w = n % c.concur := by
  unfold placeOf at h
  split at h
  · cases h
  split at h
  · exact (Option.some.inj h).symm
  split at h
  · exact (Option.some.inj h).symm
  · exact (Option.some.inj h).symm

/-- A connection is in no place but the one the lanes give it. -/
theorem Refines.at_eq (h : Refines c s t) (ht : Reach (RoundRobin.step c.concur) Any RoundRobin.init t)
    (hat : At s n p) : p = placeOf c s t n := by
  have hlane : ∀ {w}, n ∈ t.taken w ∨ n ∈ t.waiting w → n ≠ t.dealt ∧ n % c.concur = w := by
    intro w hn
    obtain ⟨hlt, hw⟩ := (mem_lane ht).mp hn
    exact ⟨Nat.ne_of_lt hlt, hw⟩
  cases p with
  | hand =>
    obtain ⟨fd, hm, hfd⟩ := hat
    have hdealt := (h.hand fd hm).1
    rw [hfd, Option.some.injEq] at hdealt
    simp [placeOf, hdealt]
  | queue w =>
    obtain ⟨fd, hq, hfd⟩ := hat
    obtain ⟨m, hm, hopen⟩ := h.queued_open hq
    obtain rfl : m = n := by simpa [hopen] using hfd
    obtain ⟨hne, rfl⟩ := hlane (.inr hm)
    simp [placeOf, hne, hm]
  | popped w =>
    obtain ⟨fd, hpc, hfd⟩ := hat
    obtain ⟨htaken, hreg⟩ := h.popped_taken ht (poppedFd_eq_some.mpr hpc) hfd
    obtain ⟨hne, rfl⟩ := hlane (.inl htaken)
    have hwait : n ∉ t.waiting (n % c.concur) := (lane_nodup ht).2.2 htaken
    simp [placeOf, hne, hwait, hreg]
  | base w =>
    obtain ⟨fd, hb, hfd⟩ := hat
    obtain ⟨m, hm, hopen⟩ := h.baseOpen w fd hb
    obtain rfl : m = n := by simpa [hopen] using hfd
    obtain ⟨hne, rfl⟩ := hlane (.inl (h.registered_taken hm))
    have hwait : m ∉ t.waiting (m % c.concur) := (lane_nodup ht).2.2 (h.registered_taken hm)
    simp [placeOf, hne, hwait, hm]

theorem Refines.at_worker {w : Nat} (h : Refines c s t)
    (ht : Reach (RoundRobin.step c.concur) Any RoundRobin.init t) (hat : At s n p)
    (hw : p.worker = some w) : w = n % c.concur := by
  rw [h.at_eq ht hat] at hw
  exact placeOf_worker hw

theorem Refines.at_exists (h : Refines c s t) (ht : Reach (RoundRobin.step c.concur) Any RoundRobin.init t)
    {fd : Nat} (hopen : s.kern.ofd fd = some n) : ∃ p, At s n p := by
  have hlt := FdTable.lt_opened hopen
  by_cases hn : n < t.dealt
  · rcases (mem_lane ht).mpr ⟨hn, rfl⟩ with htaken | hwait
    · cases hp : (s.workers (n % c.concur)).pc.poppedFd with
      | none =>
        rw [h.settled _ hp] at htaken
        exact ⟨.base (n % c.concur), fd, h.baseAll _ fd n htaken hopen, hopen⟩
      | some g =>
        obtain ⟨m, hm, he⟩ := h.popped _ g hp
        rw [he, List.mem_append, List.mem_singleton] at htaken
        rcases htaken with hreg | rfl
        · exact ⟨.base (n % c.concur), fd, h.baseAll _ fd n hreg hopen, hopen⟩
        · exact ⟨.popped (n % c.concur), g, poppedFd_eq_some.mp hp, hm⟩
    · obtain ⟨g, hg, hopen'⟩ := h.waiting_queued hwait
      exact ⟨.queue (n % c.concur), g, hg, hopen'⟩
  · cases hm : s.main with
    | hand g =>
      obtain ⟨hg, hopened⟩ := h.hand g hm
      have he : n = t.dealt := by omega
      exact ⟨.hand, g, hm, he ▸ hg⟩
    | loop | pushed g | signalling k | joining | returned =>
      have hopened := h.noHand (by simp [hm])
      omega

end

/-- **Every open connection is in one place, with the worker it was dealt
to.** In every run of the thread pool, any interleaving of its threads: an
accepted connection that is open is in the main thread's hand, one queue,
one worker's hand or one event base, once; every place but the main
thread's hand, every callback and every registration of connection `n` is
worker `n % concur`'s; each worker registers its connections in accept
order; and no two workers' pushes differ by more than one. -/
theorem threadPool_dispatch {c : Cfg} {s : St} (h : Reach (step c) Any init s) :
    (∀ n fd, s.kern.ofd fd = some n → ∃! p, At s n p) ∧
    (∀ w, (s.workers w).queued.Nodup ∧ (s.workers w).fds.Nodup) ∧
    (∀ n p w, At s n p → p.worker = some w → w = n % c.concur) ∧
    (∀ n w, n ∈ (s.workers w).registered → w = n % c.concur) ∧
    (∀ n w fd, (s.workers w).pc.msgFd = some fd → s.kern.ofd fd = some n → At s n (.base w)) ∧
    (∀ w, (s.workers w).registered.Pairwise (· < ·)) ∧
    (∀ w < c.concur, ∀ w' < c.concur, (s.workers w).pushes ≤ (s.workers w').pushes + 1) := by
  obtain ⟨t, ht, hr⟩ := reach_refines h
  refine ⟨fun n fd hopen => ?_, fun w => ⟨hr.queued_nodup ht, hr.baseNodup w⟩,
    fun n p w hat hw => hr.at_worker ht hat hw, fun n w hn => hr.lane_worker ht (.inl hn),
    fun n w fd hmsg hopen => ⟨fd, hr.msg w fd hmsg, hopen⟩, fun w => ?_, fun w hw w' hw' => ?_⟩
  · obtain ⟨p, hp⟩ := hr.at_exists ht hopen
    refine ⟨p, hp, fun q hq => ?_⟩
    rw [hr.at_eq ht hp, hr.at_eq ht hq]
  · have hsorted : (t.taken w).Pairwise (· < ·) := taken_sorted ht
    refine hsorted.sublist ?_
    cases hp : (s.workers w).pc.poppedFd with
    | none => rw [hr.settled w hp]
    | some fd =>
      obtain ⟨n, -, he⟩ := hr.popped w fd hp
      rw [he]
      exact List.sublist_append_left _ _
  · have hlen : ∀ v, (s.workers v).pushes = (share c.concur t.dealt v).length := by
      intro v
      rw [hr.pushes v, ← reach_share ht v, List.length_append]
    rw [hlen, hlen]
    exact length_share_le hw hw'

/-- Two workers, with pipes of one byte. -/
def demoCfg : Cfg := ⟨2, 1, Nat.two_pos, Nat.one_pos⟩

/-- Three connections on two workers; the first is closed once registered,
and its descriptor number given to the third, which is left in its queue. -/
def demoRun : List Act :=
  [.main (.accept 7), .main .push, .main .sendConn, .main (.accept 8), .worker 0 .mainMsg, .main .push,
   .worker 0 .recv, .worker 0 .tryPop, .worker 0 .register, .main .sendConn, .worker 0 .tryPop, .worker 0 .recv,
   .worker 0 (.clientEvent 7 true false), .main (.accept 7), .main .push]

theorem demoRun_run : (run (step demoCfg) init demoRun).isSome := by decide +kernel

/-- `threadPool_dispatch` at the end of `demoRun`, with connections 1 and 2 each in a queue. -/
theorem threadPool_dispatch_demo :
    let s := (run (step demoCfg) init demoRun).get demoRun_run
    (∀ n fd, s.kern.ofd fd = some n → ∃! p, At s n p) ∧
    (∀ w, (s.workers w).queued.Nodup ∧ (s.workers w).fds.Nodup) ∧
    (∀ n p w, At s n p → p.worker = some w → w = n % demoCfg.concur) ∧
    (∀ n w, n ∈ (s.workers w).registered → w = n % demoCfg.concur) ∧
    (∀ n w fd, (s.workers w).pc.msgFd = some fd → s.kern.ofd fd = some n → At s n (.base w)) ∧
    (∀ w, (s.workers w).registered.Pairwise (· < ·)) ∧
    (∀ w < demoCfg.concur, ∀ w' < demoCfg.concur, (s.workers w).pushes ≤ (s.workers w').pushes + 1) :=
  threadPool_dispatch (reach_get demoRun_run)

end LinuxServer.ThreadPool
