/-
How the parent learns of a death: SIGCHLD is pending, its handler writes a
byte to the signal pipe, the loop reads the byte and reaps.

The handler is installed only after the fork loop, and it drops its byte
when the pipe is full, so a death can be missed. `Timely` is the condition
on a run under which none is: each child dies with the handler installed,
and the handler drops its byte only where another one still stands for it.
-/
import LinuxServer.ProcPool.ParentTable

namespace LinuxServer.ProcPool.Parent

open Lts

def Status.dead : Status → Bool
  | .zombie | .reaped => true
  | .unborn | .alive => false

/-- The parent is in its event loop. -/
def InLoop : Pc → Bool
  | .events _ | .sigBytes _ _ | .reaping _ _ => true
  | .forking _ | .setup _ | .left _ => false

/-- The signal bytes read and not done with, the one being handled first. -/
def inHand : Pc → List Signal
  | .sigBytes bytes _ => bytes
  | .reaping bytes _ => .sigchld :: bytes
  | .forking _ | .setup _ | .events _ | .left _ => []

/-- A SIGCHLD is pending, or its byte is unread or among those in hand. -/
def Reported (s : St) : Prop :=
  s.pending .sigchld = true ∨ .sigchld ∈ s.sigPipe ∨ .sigchld ∈ inHand s.pc

instance (s : St) : Decidable (Reported s) := inferInstanceAs (Decidable (_ ∨ _ ∨ _))

/-- A child dies only with the handler installed. The handler of SIGCHLD
runs only with room in the pipe for its byte, or with another such byte
unread or in hand, or with no dead child left to wait for. -/
def Timely (c : Cfg) (s : St) : Act → Prop
  | .childExit _ => s.installed .sigchld = true
  | .deliver .sigchld => s.sigPipe.length < c.sigPipeCap ∨ .sigchld ∈ s.sigPipe ∨ .sigchld ∈ inHand s.pc ∨
      ∀ k < c.processNumber, s.status k ≠ .zombie
  | _ => True

instance (c : Cfg) (s : St) (a : Act) : Decidable (Timely c s a) := by
  unfold Timely; split <;> infer_instance

/-- A dead child not waited for is reported; none is reaped before the loop;
where the loop is not reaping, `_stop` is set if all are reaped. -/
structure SigInv (c : Cfg) (s : St) : Prop where
  reported : (∀ e, s.pc ≠ .left e) → ∀ k, s.status k = .zombie → Reported s
  early : (∃ i, s.pc = .forking i) ∨ (∃ sigs, s.pc = .setup sigs) → ∀ k, s.status k ≠ .reaped
  stop : (∃ evs, s.pc = .events evs) ∨ (∃ sigs evs, s.pc = .sigBytes sigs evs) →
    (∀ k < c.processNumber, s.status k = .reaped) → s.stop = true

theorem init_sigInv (c : Cfg) : SigInv c init := by
  constructor <;> simp [init]

theorem SigInv.move {c : Cfg} {s s' : St} (h : SigInv c s) (hstatus : s'.status = s.status)
    (hleft : ∀ e, s.pc ≠ .left e) (hrep : (∀ e, s'.pc ≠ .left e) → Reported s → Reported s')
    (hearly : (∃ i, s'.pc = .forking i) ∨ (∃ sigs, s'.pc = .setup sigs) →
      (∃ i, s.pc = .forking i) ∨ (∃ sigs, s.pc = .setup sigs))
    (hstop : (∃ evs, s'.pc = .events evs) ∨ (∃ sigs evs, s'.pc = .sigBytes sigs evs) →
      ((∃ evs, s.pc = .events evs) ∨ (∃ sigs evs, s.pc = .sigBytes sigs evs)) ∧
        (s.stop = true → s'.stop = true)) : SigInv c s' := by
  refine ⟨fun hl k hk => hrep hl (h.reported hleft k (hstatus ▸ hk)), fun he => ?_, fun hl hall => ?_⟩
  · rw [hstatus]; exact h.early (hearly he)
  · obtain ⟨hl₀, hmono⟩ := hstop hl
    exact hmono (h.stop hl₀ (hstatus ▸ hall))

theorem SigInv.stay {c : Cfg} {s s' : St} (h : SigInv c s)
    (hsame : (s'.pc, s'.status, s'.stop) = (s.pc, s.status, s.stop))
    (hrep : (∃ k, s.status k = .zombie) → Reported s → Reported s') : SigInv c s' := by
  simp only [Prod.mk.injEq] at hsame
  obtain ⟨hpc, hstatus, hstop⟩ := hsame
  refine ⟨fun hl k hk => ?_, ?_, ?_⟩
  · rw [hstatus] at hk
    rw [hpc] at hl
    exact hrep ⟨k, hk⟩ (h.reported hl k hk)
  · rw [hpc, hstatus]; exact h.early
  · rw [hpc, hstatus, hstop]; exact h.stop

theorem SigInv.fork {c : Cfg} {s : St} {i : Nat} {pid : Int} (h : SigInv c s) (hpc : s.pc = .forking i) :
    SigInv c (forkChild s i pid) := by
  have hold : ∀ k st, st ≠ .alive → (forkChild s i pid).status k = st → s.status k = st := by
    intro k st hst hk
    by_cases hki : k = i
    · subst hki; simp [forkChild, hst.symm] at hk
    · simpa [forkChild, hki] using hk
  refine ⟨fun _ k hk => ?_, fun _ k hk => ?_, by simp [forkChild]⟩
  · have hrep := h.reported (by simp [hpc]) k (hold k .zombie (by simp) hk)
    simpa [Reported, forkChild, inHand, hpc] using hrep
  · exact h.early (.inl ⟨i, hpc⟩) k (hold k .reaped (by simp) hk)

theorem SigInv.childExit {c : Cfg} {s : St} {k : Nat} (h : SigInv c s) (hk : k < c.processNumber)
    (hst : s.status k = .alive) (hin : s.installed .sigchld = true) : SigInv c (childExit s k) := by
  have hold : ∀ j, (Parent.childExit s k).status j = .reaped → s.status j = .reaped := by
    intro j hj
    by_cases hjk : j = k
    · subst hjk; simp [Parent.childExit] at hj
    · simpa [Parent.childExit, hjk] using hj
  refine ⟨fun _ _ _ => .inl ?_, fun he j hj => h.early he j (hold j hj), fun _ hall => ?_⟩
  · simp [Parent.childExit, hin]
  · have := hold k (hall k hk)
    rw [hst] at this; cases this

theorem SigInv.raise {c : Cfg} {s : St} {sig : Signal} (h : SigInv c s) : SigInv c (raiseSignal s sig) := by
  unfold raiseSignal
  split
  · refine h.stay rfl fun _ hrep => ?_
    rcases hrep with hp | hpipe | hhand
    · left
      simp only [Function.update_apply]
      split
      · rfl
      · exact hp
    · exact .inr (.inl hpipe)
    · exact .inr (.inr hhand)
  split
  · exact h
  · exact ⟨fun hl => absurd rfl (hl .killed), by simp, by simp⟩

/-- The handler of SIGCHLD turns a pending signal into a byte, or drops it
where `Timely` says that another report stands; any other handler keeps
every report. -/
theorem SigInv.deliver {c : Cfg} {s : St} {sig : Signal} (h : SigInv c s) (hinv : Inv c s)
    (ht : Timely c s (.deliver sig)) : SigInv c (sigHandler c s sig) := by
  refine h.stay rfl fun ⟨k, hk⟩ hrep => ?_
  by_cases hsig : sig = .sigchld
  · subst hsig
    rcases ht with hroom | hpipe | hhand | hnone
    · exact .inr (.inl (Fifo.mem_trySend_of_room hroom))
    · exact .inr (.inl (Fifo.mem_trySend hpipe))
    · exact .inr (.inr hhand)
    · have hlive := hinv.live k (by simp [hk, Status.unreaped])
      exact absurd hk (hnone k hlive.1)
  · rcases hrep with hp | hpipe | hhand
    · exact .inl (by simpa [sigHandler, Function.update_of_ne (Ne.symm hsig)] using hp)
    · exact .inr (.inl (Fifo.mem_trySend hpipe))
    · exact .inr (.inr hhand)

theorem SigInv.onListen {c : Cfg} {s : St} {ev : Int × Bool} {events events' : List (Int × Bool)}
    (h : SigInv c s) (hpc : s.pc = .events (ev :: events)) : SigInv c (onListen c s events') := by
  have hl : (∃ evs, s.pc = .events evs) ∨ (∃ sigs evs, s.pc = .sigBytes sigs evs) := .inl ⟨_, hpc⟩
  unfold Parent.onListen
  simp only
  split
  · refine h.move rfl (by simp [hpc]) (fun _ hrep => ?_) (by simp) fun _ => ⟨hl, fun _ => rfl⟩
    simpa [Reported, inHand, hpc] using hrep
  · refine h.move rfl (by simp [hpc]) (fun _ hrep => ?_) (by simp) fun _ => ⟨hl, id⟩
    simpa [Reported, inHand, hpc] using hrep

theorem SigInv.byte {c : Cfg} {s : St} {sig : Signal} {bytes : List Signal} {events : List (Int × Bool)}
    (h : SigInv c s) (hpc : s.pc = .sigBytes (sig :: bytes) events) :
    SigInv c (handleByte c s sig bytes events) := by
  have hl : (∃ evs, s.pc = .events evs) ∨ (∃ sigs evs, s.pc = .sigBytes sigs evs) := .inr ⟨_, _, hpc⟩
  -- a byte other than SIGCHLD's reports nothing
  have hrest : sig ≠ .sigchld → Reported s →
      s.pending .sigchld = true ∨ .sigchld ∈ s.sigPipe ∨ .sigchld ∈ bytes := by
    intro hsig hrep
    rcases hrep with hp | hpipe | hhand
    · exact .inl hp
    · exact .inr (.inl hpipe)
    · rw [hpc, inHand, List.mem_cons] at hhand
      exact .inr (.inr (hhand.resolve_left (Ne.symm hsig)))
  cases sig with
  | sigchld =>
    refine h.move rfl (by simp [hpc]) (fun _ _ => .inr (.inr ?_)) (by simp [handleByte]) (by simp [handleByte])
    simp [handleByte, inHand]
  | sigterm | sigint | sigpipe | sigurg | sigalrm =>
    exact h.move rfl (by simp [hpc]) (fun _ => hrest (by simp)) (by simp [handleByte]) fun _ => ⟨hl, id⟩

theorem SigInv.reap {c : Cfg} {s : St} {k : Nat} {bytes : List Signal} {events : List (Int × Bool)}
    (hpc : s.pc = .reaping bytes events) : SigInv c (reapChild c s k) := by
  refine ⟨fun _ _ _ => .inr (.inr ?_), ?_, ?_⟩
  · simp [reapChild, hpc, inHand]
  · simp [reapChild, hpc]
  · simp [reapChild, hpc]

/-- The reaping ends with no dead child left, and `_stop` recounted. -/
theorem SigInv.recount {c : Cfg} {s : St} {bytes bytes' : List Signal} {events events' : List (Int × Bool)}
    (hinv : Inv c s) (hpc : s.pc = .reaping bytes events) (hnone : ∀ k < c.processNumber, s.status k ≠ .zombie) :
    SigInv c { updateStop c s with pc := .sigBytes bytes' events' } := by
  have hp : InParent s := by simp [InParent, hpc]
  refine ⟨fun _ k hk => ?_, by simp, fun _ => (hinv.updateStop_stop hp).mpr⟩
  have hst : s.status k = .zombie := hk
  have hlive := hinv.live k (by simp [hst, Status.unreaped])
  exact absurd hst (hnone k hlive.1)

theorem step_sigInv {c : Cfg} {s s' : St} {a : Act} (hinv : Inv c s) (h : SigInv c s) (ht : Timely c s a)
    (hs : Step c s a s') : SigInv c s' := by
  cases hs with
  | fork hpc _ _ _ => exact h.fork hpc
  | setup hpc | addsig hpc =>
    refine h.move rfl (by simp [hpc]) (fun _ hrep => ?_) (by simp [hpc]) (by simp)
    simpa [Reported, inHand, hpc] using hrep
  | enter hpc =>
    have hnone := h.early (.inr ⟨_, hpc⟩)
    refine ⟨fun _ k hk => ?_, by simp, fun _ hall => absurd (hall 0 c.pos) (hnone 0)⟩
    simpa [Reported, inHand, hpc] using h.reported (by simp [hpc]) k hk
  | childExit hk hst => exact h.childExit hk hst ht
  | raise _ => exact h.raise
  | deliver _ => exact h.deliver hinv ht
  | epollWait hpc _ _ | epollFail hpc | leave hpc _ | skip hpc | bytesDone hpc =>
    refine h.move rfl (by simp [hpc]) (fun _ hrep => ?_) (by simp) fun _ => ⟨by simp [hpc], id⟩
    simpa [Reported, inHand, hpc] using hrep
  | listen hpc _ => exact h.onListen hpc
  | @recv _ _ n hpc _ =>
    refine h.move rfl (by simp [hpc]) (fun _ hrep => ?_) (by simp) fun _ => ⟨by simp [hpc], id⟩
    rcases hrep with hp | hpipe | hhand
    · exact .inl hp
    · rw [← List.take_append_drop n s.sigPipe, List.mem_append] at hpipe
      exact .inr hpipe.symm
    · simp [hpc, inHand] at hhand
  | byte hpc => exact h.byte hpc
  | waitpid hpc _ _ => exact SigInv.reap hpc
  | waitpidNone hpc hnone => exact SigInv.recount hinv hpc hnone

theorem reach_sigInv {c : Cfg} {s : St} (h : Reach (step c) (Timely c) init s) : SigInv c s := by
  have hboth : Inv c s ∧ SigInv c s := by
    refine Reach.invariant (I := fun s => Inv c s ∧ SigInv c s) ⟨init_inv c, init_sigInv c⟩ ?_ h
    intro s a s' hs ht hstep
    have hst := step_sound hstep
    exact ⟨step_inv hs.1 hst, step_sigInv hs.1 hs.2 ht hst⟩
  exact hboth.2

/-- Both children of `demoCfg` die in the loop, the second while the first is being reaped. -/
def timelyRun : List Act :=
  [.fork 100, .fork 101, .setup, .addsig, .addsig, .addsig, .enter, .childExit 1, .deliver .sigchld,
   .epollWait [(4, true)], .handle 1, .nextByte, .waitpid 1, .waitpidNone, .childExit 0]

theorem timelyRun_run : (runWhere (step demoCfg) (Timely demoCfg) init timelyRun).isSome := by decide

/-- A pool of one child. -/
def oneChild : Cfg := ⟨1, 8, 3, 4, by decide⟩

/-- Its only child dies before the handler of SIGCHLD is installed. -/
def earlyDeath : List Act := [.fork 100, .childExit 0, .setup, .addsig, .addsig, .addsig, .enter]

theorem earlyDeath_run : (run (step oneChild) init earlyDeath).isSome := by decide

end LinuxServer.ProcPool.Parent
