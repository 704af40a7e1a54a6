/-
The parent's table of children: an entry is listed while its child is not
waited for, which is while the parent's end of its pipe is open, and
`_stop` is set only when no entry is listed.

`Inv` ties the table to the kernel's view of the children. It is stated
apart from where the parent is, but for the fork loop and the way out, so a
step that only moves the parent keeps it by `Inv.move`.
-/
import LinuxServer.ProcPool.Parent

namespace LinuxServer.ProcPool.Parent

open Lts

/-- The pipe end was open, the pid that of a child not waited for. -/
def Call.right : Call → Bool
  | .notify _ isOpen => isOpen
  | .kill _ unreaped => unreaped

/-- The parent is past the fork loop, in `run_parent` or returned from it. -/
def InParent (s : St) : Prop := (∀ i, s.pc ≠ .forking i) ∧ s.pc ≠ .left .killed

structure Inv (c : Cfg) (s : St) : Prop where
  forking : ∀ i, s.pc = .forking i → i ≤ c.processNumber ∧ ∀ k, s.status k = .unborn ↔ i ≤ k
  forked : InParent s → ∀ k < c.processNumber, s.status k ≠ .unborn
  live : ∀ k, (s.status k).unreaped = true →
    k < c.processNumber ∧ 0 < s.pid k ∧ s.subProcess k = ⟨s.pid k, true⟩ ∧ s.endCloses k = 0
  dead : ∀ k, (s.status k).unreaped = false →
    s.subProcess k = .new ∧ s.endCloses k = if s.status k = .reaped then 1 else 0
  distinct : ∀ j k, (s.status j).unreaped = true → (s.status k).unreaped = true → s.pid j = s.pid k → j = k
  counter : s.subProcessCounter < c.processNumber
  stop : s.stop = true → ∀ k < c.processNumber, s.status k = .reaped
  stopped : s.pc = .left .stopped → s.stop = true
  calls : ∀ call ∈ s.calls, call.right = true

theorem init_inv (c : Cfg) : Inv c init := by
  constructor <;> simp [init, Status.unreaped, Process.new, InParent, c.pos]

/-! ## Listed entries -/

theorem Inv.listed_iff {c : Cfg} {s : St} (h : Inv c s) (k : Nat) :
    listed s k = true ↔ (s.status k).unreaped = true := by
  cases hu : (s.status k).unreaped with
  | true =>
    obtain ⟨-, hpos, hsp, -⟩ := h.live k hu
    simp only [listed, hsp, bne_iff_ne, ne_eq, iff_true]
    omega
  | false => simp [listed, (h.dead k hu).1, Process.new]

theorem Inv.reaped_of_unlisted {c : Cfg} {s : St} (h : Inv c s) (hp : InParent s) {k : Nat}
    (hk : k < c.processNumber) (hl : listed s k = false) : s.status k = .reaped := by
  have hu : (s.status k).unreaped ≠ true := fun hu => by
    rw [(h.listed_iff k).mpr hu] at hl; cases hl
  have hb := h.forked hp k hk
  cases hst : s.status k <;> simp_all [Status.unreaped]

/-! ## Steps that keep the invariant -/

theorem Inv.move {c : Cfg} {s s' : St} (h : Inv c s)
    (hsame : (s'.status, s'.pid, s'.subProcess, s'.endCloses, s'.subProcessCounter, s'.stop, s'.calls) =
      (s.status, s.pid, s.subProcess, s.endCloses, s.subProcessCounter, s.stop, s.calls))
    (hfork : ∀ i, s'.pc = .forking i → s.pc = .forking i)
    (hin : InParent s' → InParent s ∨ s.pc = .forking c.processNumber)
    (hstop : s'.pc = .left .stopped → s.stop = true) : Inv c s' := by
  simp only [Prod.mk.injEq] at hsame
  obtain ⟨h1, h2, h3, h4, h5, h6, h7⟩ := hsame
  refine ⟨fun i hi => ?_, fun hp k hk => ?_, ?_, ?_, ?_, ?_, ?_, ?_, ?_⟩
  · rw [h1]; exact h.forking i (hfork i hi)
  · rw [h1]
    rcases hin hp with hp | hpc
    · exact h.forked hp k hk
    · intro hu
      have := ((h.forking _ hpc).2 k).mp hu
      omega
  · rw [h1, h2, h3, h4]; exact h.live
  · rw [h1, h3, h4]; exact h.dead
  · rw [h1, h2]; exact h.distinct
  · rw [h5]; exact h.counter
  · rw [h6, h1]; exact h.stop
  · rw [h6]; exact hstop
  · rw [h7]; exact h.calls

theorem Inv.moveTo {c : Cfg} {s s' : St} (h : Inv c s)
    (hsame : (s'.status, s'.pid, s'.subProcess, s'.endCloses, s'.subProcessCounter, s'.stop, s'.calls) =
      (s.status, s.pid, s.subProcess, s.endCloses, s.subProcessCounter, s.stop, s.calls))
    (hp : InParent s) (hp' : InParent s') (hstop : s'.pc = .left .stopped → s.stop = true) : Inv c s' :=
  h.move hsame (fun i hi => absurd hi (hp'.1 i)) (fun _ => .inl hp) hstop

theorem Inv.fork {c : Cfg} {s : St} {i : Nat} {pid : Int} (h : Inv c s) (hpc : s.pc = .forking i)
    (hi : i < c.processNumber) (hpid : 0 < pid) (hown : ownPid c s pid = false) :
    Inv c (forkChild s i pid) := by
  obtain ⟨-, hunborn⟩ := h.forking i hpc
  have hiu : s.status i = .unborn := (hunborn i).mpr (Nat.le_refl i)
  have hfresh : ∀ k, (s.status k).unreaped = true → s.pid k ≠ pid := fun k hk hp => by
    simp only [ownPid, List.any_eq_false, List.mem_range, Bool.and_eq_true, beq_iff_eq, not_and] at hown
    exact hown k (h.live k hk).1 hk hp
  refine ⟨fun j hj => ?_, fun hp => absurd rfl (hp.1 (i + 1)), fun k hk => ?_, fun k hk => ?_,
    fun j k hj hk hjk => ?_, h.counter, fun hs => ?_, by simp [forkChild], h.calls⟩
  · simp only [forkChild, Pc.forking.injEq] at hj
    subst hj
    refine ⟨hi, fun k => ?_⟩
    by_cases hki : k = i
    · subst hki; simp [forkChild]
    · simp only [forkChild, Function.update_of_ne hki, hunborn]; omega
  · by_cases hki : k = i
    · subst hki
      have := (h.dead k (by simp [hiu, Status.unreaped])).2
      simpa [forkChild, hi, hpid, hiu] using this
    · simp only [forkChild, Function.update_of_ne hki] at hk ⊢
      exact h.live k hk
  · by_cases hki : k = i
    · subst hki; simp [forkChild, Status.unreaped] at hk
    · simp only [forkChild, Function.update_of_ne hki] at hk ⊢
      exact h.dead k hk
  · by_cases hji : j = i <;> by_cases hki : k = i
    · rw [hji, hki]
    · subst hji
      simp only [forkChild, Function.update_self, Function.update_of_ne hki] at hk hjk
      exact absurd hjk.symm (hfresh k hk)
    · subst hki
      simp only [forkChild, Function.update_self, Function.update_of_ne hji] at hj hjk
      exact absurd hjk (hfresh j hj)
    · simp only [forkChild, Function.update_of_ne hji, Function.update_of_ne hki] at hj hk hjk
      exact h.distinct j k hj hk hjk
  · have := h.stop hs i hi
    rw [hiu] at this; cases this

theorem Inv.childExit {c : Cfg} {s : St} {k : Nat} (h : Inv c s) (hk : k < c.processNumber)
    (hst : s.status k = .alive) : Inv c (childExit s k) := by
  have hun : ∀ j, ((Function.update s.status k .zombie) j).unreaped = (s.status j).unreaped := fun j => by
    by_cases hjk : j = k
    · subst hjk; simp [hst, Status.unreaped]
    · rw [Function.update_of_ne hjk]
  have hsame : ∀ j st, st ≠ .zombie → st ≠ .alive →
      ((Function.update s.status k .zombie) j = st ↔ s.status j = st) := fun j st hz ha => by
    by_cases hjk : j = k
    · subst hjk; simp [hst, hz.symm, ha.symm]
    · rw [Function.update_of_ne hjk]
  refine ⟨fun i hi => ?_, fun hp j hj => ?_, fun j hj => ?_, fun j hj => ?_, fun i j hi hj hij => ?_,
    h.counter, fun hs => ?_, h.stopped, h.calls⟩
  · refine ⟨(h.forking i hi).1, fun j => ?_⟩
    exact (hsame j .unborn (by simp) (by simp)).trans ((h.forking i hi).2 j)
  · exact fun hu => h.forked hp j hj ((hsame j .unborn (by simp) (by simp)).mp hu)
  · exact h.live j (hun j ▸ hj)
  · simp only [Parent.childExit, hun] at hj ⊢
    simp only [hsame j .reaped (by simp) (by simp)]
    exact h.dead j hj
  · exact h.distinct i j (hun i ▸ hi) (hun j ▸ hj) hij
  · have := h.stop hs k hk
    rw [hst] at this; cases this

/-- The entry `waitpid`'s pid is found in is the dead child's own, and no other. -/
theorem Inv.hit_iff {c : Cfg} {s : St} {k : Nat} (h : Inv c s) (hst : s.status k = .zombie) (i : Nat) :
    (i < c.processNumber ∧ (s.subProcess i).mPid = s.pid k) ↔ i = k := by
  have hk := h.live k (by simp [hst, Status.unreaped])
  constructor
  · rintro ⟨-, hpid⟩
    cases hu : (s.status i).unreaped with
    | true =>
      rw [(h.live i hu).2.2.1] at hpid
      exact h.distinct i k hu (by simp [hst, Status.unreaped]) hpid
    | false =>
      rw [(h.dead i hu).1] at hpid
      simp only [Process.new] at hpid
      omega
  · rintro rfl
    exact ⟨hk.1, by rw [hk.2.2.1]⟩

theorem Inv.reap {c : Cfg} {s : St} {k : Nat} {bytes : List Signal} {events : List (Int × Bool)}
    (h : Inv c s) (hpc : s.pc = .reaping bytes events) (hst : s.status k = .zombie) :
    Inv c (reapChild c s k) := by
  have hk := h.live k (by simp [hst, Status.unreaped])
  have hp : InParent s := by simp [InParent, hpc]
  have hentry : ∀ i, i ≠ k → ((reapChild c s k).subProcess i, (reapChild c s k).endCloses i,
      (reapChild c s k).status i) = (s.subProcess i, s.endCloses i, s.status i) := fun i hi => by
    simp [reapChild, h.hit_iff hst, hi]
  simp only [Prod.mk.injEq] at hentry
  refine ⟨fun i hi => absurd hi (hp.1 i), fun _ j hj => ?_, fun j hj => ?_, fun j hj => ?_,
    fun i j hi hj hij => ?_, h.counter, fun hs => ?_, ?_, h.calls⟩
  · by_cases hjk : j = k
    · subst hjk; simp [reapChild]
    · rw [(hentry j hjk).2.2]; exact h.forked hp j hj
  · have hjk : j ≠ k := by
      rintro rfl
      simp [reapChild, Status.unreaped] at hj
    rw [(hentry j hjk).2.2] at hj
    rw [(hentry j hjk).1, (hentry j hjk).2.1]
    exact h.live j hj
  · by_cases hjk : j = k
    · subst hjk; simp [reapChild, h.hit_iff hst, hk.2.2.2]
    · rw [(hentry j hjk).2.2] at hj ⊢
      rw [(hentry j hjk).1, (hentry j hjk).2.1]
      exact h.dead j hj
  · have hik : i ≠ k := by
      rintro rfl
      simp [reapChild, Status.unreaped] at hi
    have hjk : j ≠ k := by
      rintro rfl
      simp [reapChild, Status.unreaped] at hj
    rw [(hentry i hik).2.2] at hi
    rw [(hentry j hjk).2.2] at hj
    exact h.distinct i j hi hj hij
  · have := h.stop hs k hk.1
    rw [hst] at this; cases this
  · simp [reapChild, hpc]

/-- `_stop` after the recount: set exactly when every child is reaped. -/
theorem Inv.updateStop_stop {c : Cfg} {s : St} (h : Inv c s) (hp : InParent s) :
    (updateStop c s).stop = true ↔ ∀ k < c.processNumber, s.status k = .reaped := by
  simp only [updateStop, List.all_eq_true, List.mem_range, Bool.not_eq_true']
  constructor
  · exact fun hall k hk => h.reaped_of_unlisted hp hk (hall k hk)
  · intro hall k hk
    cases hl : listed s k with
    | false => rfl
    | true => rw [h.listed_iff, hall k hk] at hl; cases hl

theorem Inv.recount {c : Cfg} {s : St} {bytes bytes' : List Signal} {events events' : List (Int × Bool)}
    (h : Inv c s) (hpc : s.pc = .reaping bytes events) :
    Inv c { updateStop c s with pc := .sigBytes bytes' events' } := by
  have hp : InParent s := by simp [InParent, hpc]
  exact ⟨by simp, fun _ => h.forked hp, h.live, h.dead, h.distinct, h.counter,
    (h.updateStop_stop hp).mp, by simp, h.calls⟩

/-- The Round Robin search ends on a live child, or sets `_stop` because
none is left. -/
theorem Inv.onListen {c : Cfg} {s : St} {ev : Int × Bool} {events events' : List (Int × Bool)} (h : Inv c s)
    (hpc : s.pc = .events (ev :: events)) : Inv c (onListen c s events') := by
  have hp : InParent s := by simp [InParent, hpc]
  unfold Parent.onListen
  simp only
  split
  · next hnone =>
    have hfail : listed s (cyclicSearch c.processNumber (listed s) s.subProcessCounter) = false := by
      simp [listed, hnone]
    have hall := (cyclicSearch_false_iff h.counter).mp hfail
    exact ⟨by simp, fun _ => h.forked hp, h.live, h.dead, h.distinct, h.counter,
      fun _ k hk => h.reaped_of_unlisted hp hk (hall k hk), by simp, h.calls⟩
  · next hsome =>
    refine ⟨by simp, fun _ => h.forked hp, h.live, h.dead, h.distinct, Nat.mod_lt _ c.pos, h.stop,
      by simp, fun call hc => ?_⟩
    simp only [List.mem_append, List.mem_singleton] at hc
    rcases hc with hc | rfl
    · exact h.calls call hc
    · have hl : listed s (cyclicSearch c.processNumber (listed s) s.subProcessCounter) = true := by
        simpa [listed] using hsome
      rw [h.listed_iff] at hl
      simp [Call.right, (h.live _ hl).2.2.1]

theorem Inv.killAll_right {c : Cfg} {s : St} (h : Inv c s) : ∀ call ∈ killAll c s, call.right = true := by
  intro call hc
  simp only [killAll, List.mem_map, List.mem_filter, List.mem_range] at hc
  obtain ⟨k, ⟨hk, hl⟩, rfl⟩ := hc
  rw [h.listed_iff] at hl
  simp only [Call.right, ownPid, List.any_eq_true, List.mem_range, Bool.and_eq_true, beq_iff_eq]
  exact ⟨k, hk, hl, by rw [(h.live k hl).2.2.1]⟩

theorem Inv.byte {c : Cfg} {s : St} {sig : Signal} {bytes : List Signal} {events : List (Int × Bool)}
    (h : Inv c s) (hpc : s.pc = .sigBytes (sig :: bytes) events) :
    Inv c (handleByte c s sig bytes events) := by
  have hp : InParent s := by simp [InParent, hpc]
  have hkill : Inv c { s with pc := .sigBytes bytes events, calls := s.calls ++ killAll c s } := by
    refine ⟨by simp, fun _ => h.forked hp, h.live, h.dead, h.distinct, h.counter, h.stop, by simp,
      fun call hc => ?_⟩
    rcases List.mem_append.mp hc with hc | hc
    · exact h.calls call hc
    · exact h.killAll_right call hc
  cases sig with
  | sigterm | sigint => exact hkill
  | sigchld | sigpipe | sigurg | sigalrm =>
    exact h.moveTo rfl hp (by simp [InParent, handleByte]) (by simp [handleByte])

theorem step_inv {c : Cfg} {s s' : St} {a : Act} (h : Inv c s) (hs : Step c s a s') : Inv c s' := by
  cases hs with
  | fork hpc hi hpid hown => exact h.fork hpc hi hpid hown
  | setup hpc =>
    exact h.move rfl (by simp) (fun _ => .inr hpc) (by simp)
  | addsig hpc | enter hpc | epollWait hpc _ _ | epollFail hpc | skip hpc | recv hpc _ | bytesDone hpc =>
    exact h.moveTo rfl (by simp [InParent, hpc]) (by simp [InParent]) (by simp)
  | childExit hk hst => exact h.childExit hk hst
  | raise _ =>
    unfold raiseSignal
    split
    · exact h.move rfl (fun _ hi => hi) .inl h.stopped
    split
    · exact h
    · exact h.move rfl (by simp) (by simp [InParent]) (by simp)
  | deliver _ => exact h.move rfl (fun _ hi => hi) .inl h.stopped
  | leave hpc hstop => exact h.moveTo rfl (by simp [InParent, hpc]) (by simp [InParent]) fun _ => hstop
  | listen hpc _ => exact h.onListen hpc
  | byte hpc => exact h.byte hpc
  | waitpid hpc _ hst => exact h.reap hpc hst
  | waitpidNone hpc _ => exact h.recount hpc

theorem reach_inv {c : Cfg} {s : St} (h : Reach (step c) Any init s) : Inv c s :=
  h.invariant (init_inv c) fun _ _ _ hs _ hstep => step_inv hs (step_sound hstep)

/-- Once set, `_stop` stays set: a recount finds no entry listed. -/
theorem stop_mono {c : Cfg} {s s' : St} {a : Act} (h : Inv c s) (hs : Step c s a s')
    (hstop : s.stop = true) : s'.stop = true := by
  cases hs with
  | waitpidNone hpc _ => exact (h.updateStop_stop (by simp [InParent, hpc])).mpr (h.stop hstop)
  | listen _ _ =>
    unfold onListen
    simp only
    split
    · rfl
    · exact hstop
  | raise _ =>
    unfold raiseSignal
    split
    · exact hstop
    split
    · exact hstop
    · exact hstop
  | @byte sig _ _ _ => cases sig <;> exact hstop
  | fork _ _ _ _ | setup _ | addsig _ | enter _ | childExit _ _ | deliver _ | epollWait _ _ _ | epollFail _
  | leave _ _ | skip _ | recv _ _ | bytesDone _ | waitpid _ _ _ => exact hstop

/-- **The parent's table is the set of children not waited for.** In every
run of the parent, whatever connections, deaths and signals come: an entry
is listed exactly when its child is not waited for and exactly when the
parent's end of its pipe is open; the counter is an index; every
notification went to an open end and every `kill` to a child not waited
for; no end was closed twice; the loop is left through `_stop` only with
all children reaped, and no step takes a `_stop` back. -/
theorem runParent_sound {c : Cfg} {s : St} (h : Reach (step c) Any init s) (hp : InParent s) :
    (∀ k < c.processNumber,
      ((s.subProcess k).mPid ≠ -1 ↔ s.status k ≠ .reaped) ∧
      ((s.subProcess k).mPid ≠ -1 ↔ (s.subProcess k).pipeOpen = true)) ∧
    s.subProcessCounter < c.processNumber ∧
    (∀ call ∈ s.calls, call.right = true) ∧
    (∀ k, s.endCloses k ≤ 1) ∧
    (s.pc = .left .stopped → ∀ k < c.processNumber, s.status k = .reaped) ∧
    (s.stop = true → ∀ a s', step c s a = some s' → s'.stop = true) := by
  have hs := reach_inv h
  refine ⟨fun k hk => ?_, hs.counter, hs.calls, fun k => ?_, fun hl => hs.stop (hs.stopped hl),
    fun hstop a s' hstep => stop_mono hs (step_sound hstep) hstop⟩
  · cases hu : (s.status k).unreaped with
    | true =>
      obtain ⟨-, hpos, hsp, -⟩ := hs.live k hu
      have hne : s.status k ≠ .reaped := fun he => by rw [he] at hu; cases hu
      have hpid : s.pid k ≠ -1 := by omega
      simp [hsp, hne, hpid]
    | false =>
      have hl : listed s k = false := by simp [listed, (hs.dead k hu).1, Process.new]
      simp [(hs.dead k hu).1, Process.new, hs.reaped_of_unlisted hp hk hl]
  · cases hu : (s.status k).unreaped with
    | true => rw [(hs.live k hu).2.2.2]; omega
    | false =>
      rw [(hs.dead k hu).2]
      split <;> omega

/-- A pool of two children that has a signal pipe of eight bytes. -/
def demoCfg : Cfg := ⟨2, 8, 3, 4, by decide⟩

/-- Both children are notified, one dies and is reaped, the other is then
killed by SIGTERM and reaped, and the parent leaves its loop. -/
def demoRun : List Act :=
  [.fork 100, .fork 101, .setup, .addsig, .addsig, .addsig, .enter,
   .epollWait [(3, true)], .handle 0, .epollWait [(3, true)], .handle 0,
   .childExit 0, .deliver .sigchld, .epollWait [(4, true), (3, true)], .handle 1, .nextByte, .waitpid 0,
   .waitpidNone, .nextByte, .handle 0,
   .raise .sigterm, .deliver .sigterm, .epollWait [(4, true)], .handle 1, .nextByte, .nextByte,
   .childExit 1, .deliver .sigchld, .epollWait [(4, true)], .handle 1, .nextByte, .waitpid 1,
   .waitpidNone, .nextByte, .leave]

theorem demoRun_run : (run (step demoCfg) init demoRun).isSome := by decide

theorem demoRun_inParent : InParent ((run (step demoCfg) init demoRun).get demoRun_run) := by
  have hpc : ((run (step demoCfg) init demoRun).get demoRun_run).pc = .left .stopped := by decide
  simp [InParent, hpc]

/-- `runParent_sound` at the end of `demoRun`, where the loop was left through `_stop`. -/
theorem runParent_sound_demo :
    let s := (run (step demoCfg) init demoRun).get demoRun_run
    (∀ k < demoCfg.processNumber,
      ((s.subProcess k).mPid ≠ -1 ↔ s.status k ≠ .reaped) ∧
      ((s.subProcess k).mPid ≠ -1 ↔ (s.subProcess k).pipeOpen = true)) ∧
    s.subProcessCounter < demoCfg.processNumber ∧
    (∀ call ∈ s.calls, call.right = true) ∧
    (∀ k, s.endCloses k ≤ 1) ∧
    (s.pc = .left .stopped → ∀ k < demoCfg.processNumber, s.status k = .reaped) ∧
    (s.stop = true → ∀ a s', step demoCfg s a = some s' → s'.stop = true) :=
  runParent_sound (reach_get demoRun_run) demoRun_inParent

end LinuxServer.ProcPool.Parent
