/-
How the process pool ends (epoll_half_sync_reactive_proc_pool_server.hpp):
SIGTERM or SIGINT reaches the parent, which sends SIGTERM to every child;
each child's handler writes a byte to its signal pipe, its loop reads the
byte, sets `_stop` and is left; the deaths come back to the parent as
SIGCHLD, and when the last child is reaped it leaves its own loop.

The parent is `Parent.step`. Of a child only the signal side is kept here:
what a child does for its clients touches none of it (`signal_side` in
`ChildSignals`). A signal is pending from when it is sent until the process
takes it, which is when it has a handler or not.

`shutdown_completes` is the protocol's point, for runs in which no signal is
lost (`Orderly`).
-/
import Mathlib.Algebra.BigOperators.Group.Finset.Basic
import LinuxServer.ProcPool.ParentSignals

namespace LinuxServer.ProcPool.Shutdown

open Lts Parent

/-- The signal side of a child. `handlers` are those `setup_sig_pipe` has
still to install, the loop being entered when there is none left. -/
structure Child where
  handlers : List Signal
  pending : Signal → Bool
  sigPipe : List Signal
  stop : Bool

/-- After the fork. The handlers of the parent are not yet installed then. -/
def Child.new : Child := ⟨handled, fun _ => false, [], false⟩

def Child.installed (ch : Child) (sig : Signal) : Bool := handled.contains sig && !ch.handlers.contains sig

/-- The byte makes the loop set `_stop`. -/
def stops : Signal → Bool
  | .sigterm | .sigint => true
  | .sigchld | .sigpipe | .sigurg | .sigalrm => false

structure Pool where
  parent : Parent.St
  child : Nat → Child
  /-- the parent has run its `kill` loop -/
  killed : Bool

def init : Pool := ⟨Parent.init, fun _ => .new, false⟩

inductive ChildAct
  /-- the next `addsig` of `setup_sig_pipe` -/
  | addsig
  /-- a signal is sent to the child from outside the pool -/
  | raise (sig : Signal)
  /-- the child takes a pending signal -/
  | deliver (sig : Signal)
  /-- the loop reads its signal pipe until it is empty -/
  | read
  /-- the loop is left with `_stop` set -/
  | exit
  /-- the child ends in any other way -/
  | die
  deriving DecidableEq, Repr

inductive Act
  | parent (a : Parent.Act)
  | child (k : Nat) (a : ChildAct)
  deriving DecidableEq, Repr

/-- The parent's step is the `kill` loop. -/
def kills (p : Parent.St) : Parent.Act → Bool
  | .nextByte =>
    match p.pc with
    | .sigBytes (sig :: _) _ => stops sig
    | _ => false
  | _ => false

/-- Some `kill` of the loop is of child `k`'s pid. -/
def hit (c : Cfg) (p : Parent.St) (k : Nat) : Bool :=
  (List.range c.processNumber).any fun i => listed p i && (p.subProcess i).mPid == p.pid k

/-- What the `kill` loop does to the children. -/
def tell (c : Cfg) (s : Pool) (k : Nat) : Child :=
  if hit c s.parent k = true ∧ s.parent.status k = .alive then
    { s.child k with pending := Function.update (s.child k).pending .sigterm true }
  else s.child k

def Pool.setChild (s : Pool) (k : Nat) (ch : Child) : Pool := { s with child := Function.update s.child k ch }

/-- The child is gone, and its parent to be told. -/
def Pool.dead (s : Pool) (k : Nat) : Pool := { s with parent := childExit s.parent k }

/-- What child `k`, alive, can do. A signal without a handler ends it, but
for SIGCHLD. -/
def childStep (c : Cfg) (s : Pool) (k : Nat) : ChildAct → Option Pool
  | .addsig =>
    match (s.child k).handlers with
    | [] => none
    | _ :: handlers => some (s.setChild k { s.child k with handlers })
  | .raise sig =>
    if sig ∈ handled then
      some (s.setChild k { s.child k with pending := Function.update (s.child k).pending sig true })
    else none
  | .deliver sig =>
    if (s.child k).pending sig then
      let pending := Function.update (s.child k).pending sig false
      if (s.child k).installed sig then
        some (s.setChild k { s.child k with pending, sigPipe := Fifo.trySend c.sigPipeCap sig (s.child k).sigPipe })
      else if sig = .sigchld then some (s.setChild k { s.child k with pending })
      else some (s.dead k)
    else none
  | .read =>
    if (s.child k).handlers = [] ∧ (s.child k).sigPipe ≠ [] then
      some (s.setChild k { s.child k with
        sigPipe := []
        stop := (s.child k).stop || (s.child k).sigPipe.any stops })
    else none
  | .exit => if (s.child k).handlers = [] ∧ (s.child k).stop = true then some (s.dead k) else none
  | .die => some (s.dead k)

def step (c : Cfg) (s : Pool) : Act → Option Pool
  | .parent (.childExit _) => none
  | .parent a => (Parent.step c s.parent a).map fun parent =>
    if kills s.parent a then { parent, child := tell c s, killed := true } else { s with parent }
  | .child k a => if k < c.processNumber ∧ s.parent.status k = .alive then childStep c s k a else none

/-! ## What a step can do -/

/-- The act ends child `k`. -/
def Dies (s : Pool) (k : Nat) : ChildAct → Prop
  | .deliver sig => (s.child k).installed sig = false ∧ sig ≠ .sigchld
  | .exit => (s.child k).handlers = [] ∧ (s.child k).stop = true
  | .die => True
  | .addsig | .raise _ | .read => False

/-- The steps, each with what it requires and changes (`step_sound`). -/
inductive Step (c : Cfg) (s : Pool) : Act → Pool → Prop
  | parent {a p} : (∀ k, a ≠ .childExit k) → kills s.parent a = false → Parent.step c s.parent a = some p →
      Step c s (.parent a) { s with parent := p }
  | kill {a p} : kills s.parent a = true → Parent.step c s.parent a = some p →
      Step c s (.parent a) { parent := p, child := tell c s, killed := true }
  | addsig {k sig handlers} : s.parent.status k = .alive → k < c.processNumber →
      (s.child k).handlers = sig :: handlers →
      Step c s (.child k .addsig) (s.setChild k { s.child k with handlers })
  | raise {k sig} : s.parent.status k = .alive → k < c.processNumber → Step c s (.child k (.raise sig))
      (s.setChild k { s.child k with pending := Function.update (s.child k).pending sig true })
  | deliver {k sig} : s.parent.status k = .alive → k < c.processNumber → (s.child k).pending sig = true →
      (s.child k).installed sig = true → Step c s (.child k (.deliver sig)) (s.setChild k { s.child k with
        pending := Function.update (s.child k).pending sig false
        sigPipe := Fifo.trySend c.sigPipeCap sig (s.child k).sigPipe })
  | ignored {k} : s.parent.status k = .alive → k < c.processNumber → (s.child k).pending .sigchld = true →
      Step c s (.child k (.deliver .sigchld))
        (s.setChild k { s.child k with pending := Function.update (s.child k).pending .sigchld false })
  | read {k} : s.parent.status k = .alive → k < c.processNumber → (s.child k).sigPipe ≠ [] →
      Step c s (.child k .read) (s.setChild k { s.child k with
        sigPipe := []
        stop := (s.child k).stop || (s.child k).sigPipe.any stops })
  | dead {k a} : s.parent.status k = .alive → k < c.processNumber → Dies s k a → Step c s (.child k a) (s.dead k)

variable {c : Cfg} {s s' : Pool} {a : Act} {k : Nat} {sig : Signal}

theorem childStep_sound {a : ChildAct} (hst : s.parent.status k = .alive) (hk : k < c.processNumber)
    (h : childStep c s k a = some s') : Step c s (.child k a) s' := by
  cases a with
  | addsig =>
    simp only [childStep] at h
    split at h
    · cases h
    · next hh => cases h; exact .addsig hst hk hh
  | raise sig =>
    simp only [childStep, Option.ite_none_right_eq_some, Option.some.injEq] at h
    obtain ⟨-, rfl⟩ := h
    exact .raise hst hk
  | deliver sig =>
    simp only [childStep] at h
    split at h
    swap
    · cases h
    next hp =>
    split at h
    · next hi => cases h; exact .deliver hst hk hp hi
    next hi =>
    split at h
    · next he => cases h; subst he; exact .ignored hst hk hp
    · next he => cases h; exact .dead hst hk ⟨Bool.not_eq_true _ ▸ hi, he⟩
  | read =>
    simp only [childStep, Option.ite_none_right_eq_some, Option.some.injEq] at h
    obtain ⟨⟨-, hne⟩, rfl⟩ := h
    exact .read hst hk hne
  | exit =>
    simp only [childStep, Option.ite_none_right_eq_some, Option.some.injEq] at h
    obtain ⟨hx, rfl⟩ := h
    exact .dead hst hk hx
  | die =>
    cases h
    exact .dead hst hk trivial

theorem step_sound (h : step c s a = some s') : Step c s a s' := by
  cases a with
  | parent a =>
    have hne : ∀ k, a ≠ .childExit k := by
      rintro k rfl
      cases h
    have h : (Parent.step c s.parent a).map (fun parent => if kills s.parent a then
        { parent, child := tell c s, killed := true } else { s with parent }) = some s' := by
      cases a with
      | childExit k => exact absurd rfl (hne k)
      | _ => exact h
    obtain ⟨p, hp, rfl⟩ := Option.map_eq_some_iff.mp h
    cases hk : kills s.parent a with
    | true => exact .kill hk hp
    | false => exact .parent hne hk hp
  | child k a =>
    simp only [step, Option.ite_none_right_eq_some] at h
    obtain ⟨⟨hk, hst⟩, h⟩ := h
    exact childStep_sound hst hk h

/-! ## Runs that lose no signal -/

/-- A signal that sets `_stop` is pending, its byte is unread, or `_stop` is set. -/
def Coming (ch : Child) : Prop := ch.pending .sigterm = true ∨ (∃ b ∈ ch.sigPipe, stops b = true) ∨ ch.stop = true

instance (ch : Child) : Decidable (Coming ch) := inferInstanceAs (Decidable (_ ∨ _ ∨ _))

instance (s : Pool) (k : Nat) : (a : ChildAct) → Decidable (Dies s k a)
  | .deliver sig => inferInstanceAs (Decidable ((s.child k).installed sig = false ∧ sig ≠ .sigchld))
  | .exit => inferInstanceAs (Decidable ((s.child k).handlers = [] ∧ (s.child k).stop = true))
  | .die => .isTrue trivial
  | .addsig | .raise _ | .read => .isFalse id

/-- A child's handler of SIGTERM runs only with room in the pipe for its
byte, or where `_stop` will be set without it. -/
def HasRoom (c : Cfg) (s : Pool) (k : Nat) : ChildAct → Prop
  | .deliver .sigterm => (s.child k).sigPipe.length < c.sigPipeCap ∨ (∃ b ∈ (s.child k).sigPipe, stops b = true) ∨
      (s.child k).stop = true
  | _ => True

instance (c : Cfg) (s : Pool) (k : Nat) (a : ChildAct) : Decidable (HasRoom c s k a) := by
  unfold HasRoom; split <;> infer_instance

/-- No SIGCHLD of the parent's is missed, no SIGTERM of a child's is dropped,
and the parent's `epoll_wait` does not fail. -/
def Orderly (c : Cfg) (s : Pool) : Act → Prop
  | .parent a => Timely c s.parent a ∧ a ≠ .epollFail
  | .child k a => (Dies s k a → s.parent.installed .sigchld = true) ∧ HasRoom c s k a

instance (c : Cfg) (s : Pool) : (a : Act) → Decidable (Orderly c s a)
  | .parent a => inferInstanceAs (Decidable (Timely c s.parent a ∧ a ≠ .epollFail))
  | .child k a => inferInstanceAs (Decidable ((Dies s k a → s.parent.installed .sigchld = true) ∧ HasRoom c s k a))

/-! ## The parent by itself -/

theorem childExit_step (hk : k < c.processNumber) (hst : s.parent.status k = .alive) :
    Parent.step c s.parent (.childExit k) = some (childExit s.parent k) := if_pos ⟨hk, hst⟩

theorem reach_parent (h : Reach (step c) (Orderly c) init s) :
    Reach (Parent.step c) (Timely c) Parent.init s.parent := by
  induction h with
  | refl => exact .refl
  | tail _ ho hs ih =>
    cases step_sound hs with
    | parent _ _ hp | kill _ hp => exact .tail ih ho.1 hp
    | @dead k _ hst hk hd =>
      have ht : Timely c _ (.childExit k) := ho.1 hd
      exact .tail ih ht (childExit_step hk hst)
    | addsig _ _ _ | raise _ _ | deliver _ _ _ _ | ignored _ _ _ | read _ _ _ => exact ih

/-- The handlers `setup_sig_pipe` has still to install, for what is known of them. -/
def toInstall : Pc → List Signal
  | .forking _ | .left _ => handled
  | .setup handlers => handlers
  | .events _ | .sigBytes _ _ | .reaping _ _ => []

def AllInstalled (p : Parent.St) : Prop := ∀ sig ∈ handled, p.installed sig = true

/-- The parent is in its loop, or has left it through `_stop`. -/
def Down (p : Parent.St) : Prop := InLoop p.pc = true ∨ p.pc = .left .stopped

section Parent

variable {p p' : Parent.St} {a : Parent.Act}

theorem installed_step (hs : Parent.Step c p a p')
    (h : ∀ sig ∈ handled, p.installed sig = true ∨ sig ∈ toInstall p.pc) :
    ∀ sig ∈ handled, p'.installed sig = true ∨ sig ∈ toInstall p'.pc := by
  intro sig hsig
  have hold := h sig hsig
  cases hs with
  | fork hpc _ _ _ => exact .inr hsig
  | setup hpc => exact .inr hsig
  | @addsig sig' handlers hpc =>
    rw [hpc] at hold
    by_cases he : sig = sig'
    · subst he
      exact .inl (Function.update_self ..)
    · exact hold.imp (fun hi => (Function.update_of_ne he _ _).trans hi)
        fun hm => (List.mem_cons.mp hm).resolve_left he
  | enter hpc | epollWait hpc _ _ | skip hpc | recv hpc _ | bytesDone hpc | waitpid hpc _ _ | waitpidNone hpc _ =>
    rw [hpc] at hold
    exact .inl (hold.resolve_right List.not_mem_nil)
  | epollFail _ | leave _ _ => exact .inr hsig
  | childExit _ _ | deliver _ => exact hold
  | raise _ =>
    unfold raiseSignal
    split
    · exact hold
    split
    · exact hold
    · exact .inr hsig
  | listen hpc _ =>
    rw [hpc] at hold
    unfold onListen
    simp only
    split
    · exact .inl (hold.resolve_right List.not_mem_nil)
    · exact .inl (hold.resolve_right List.not_mem_nil)
  | @byte sig' _ _ hpc =>
    rw [hpc] at hold
    have hin := hold.resolve_right List.not_mem_nil
    cases sig' <;> exact .inl hin

/-- Once down the parent stays down, with its handlers, unless `epoll_wait` fails. -/
theorem down_step (hs : Parent.Step c p a p') (hne : a ≠ .epollFail) (hd : Down p) (hi : AllInstalled p) :
    Down p' ∧ AllInstalled p' := by
  have hpc : ∀ pc, p.pc = pc → InLoop pc = true ∨ pc = .left .stopped := by
    rintro pc rfl
    exact hd
  cases hs with
  | fork h _ _ _ | setup h | addsig h | enter h => simpa [InLoop] using hpc _ h
  | epollFail _ => exact absurd rfl hne
  | childExit _ _ | deliver _ => exact ⟨hd, hi⟩
  | raise hsig =>
    rw [raiseSignal, if_pos (hi _ hsig)]
    exact ⟨hd, hi⟩
  | epollWait _ _ _ | skip _ | recv _ _ | bytesDone _ | waitpidNone _ _ => exact ⟨.inl rfl, hi⟩
  | waitpid h _ _ => exact ⟨.inl (by rw [reapChild, h]; rfl), hi⟩
  | leave _ _ => exact ⟨.inr rfl, hi⟩
  | listen _ _ =>
    unfold onListen
    simp only
    split
    · exact ⟨.inl rfl, hi⟩
    · exact ⟨.inl rfl, hi⟩
  | @byte sig _ _ _ => cases sig <;> exact ⟨.inl rfl, hi⟩

theorem alive_step (hs : Parent.Step c p a p') (hd : Down p) (h : p'.status k = .alive) : p.status k = .alive := by
  cases hs with
  | fork hpc _ _ _ => rw [Down, hpc] at hd; simp [InLoop] at hd
  | @childExit j _ _ | @waitpid j _ _ _ _ _ =>
    by_cases hkj : k = j
    · subst hkj
      simp [Parent.childExit, reapChild] at h
    · simpa [Parent.childExit, reapChild, hkj] using h
  | raise _ =>
    unfold raiseSignal at h
    split at h
    · exact h
    split at h <;> exact h
  | listen _ _ =>
    unfold onListen at h
    simp only at h
    split at h <;> exact h
  | @byte sig _ _ _ => cases sig <;> exact h
  | setup _ | addsig _ | enter _ | deliver _ | epollWait _ _ _ | epollFail _ | leave _ _ | skip _ | recv _ _
  | bytesDone _ | waitpidNone _ _ => exact h

/-- Each child alive is one the `kill` loop sends SIGTERM to. -/
theorem hit_of_alive (h : Parent.Inv c p) (hst : p.status k = .alive) : hit c p k = true := by
  obtain ⟨hk, hpos, hsp, -⟩ := h.live k (by simp [hst, Status.unreaped])
  have hl : listed p k = true := by
    rw [h.listed_iff]
    simp [hst, Status.unreaped]
  rw [hit, List.any_eq_true]
  exact ⟨k, List.mem_range.mpr hk, by simp [hl, hsp]⟩

theorem kills_eq (h : kills p a = true) : a = .nextByte ∧
    ∃ sig bytes events, p.pc = .sigBytes (sig :: bytes) events ∧ stops sig = true := by
  unfold kills at h
  split at h
  · split at h
    · next hpc => exact ⟨rfl, _, _, _, hpc, h⟩
    · cases h
  · cases h

end Parent

/-! ## No child is left out -/

/-- The parent knows its handlers; and once it has run its `kill` loop, every
child still alive is on its way out. -/
structure Inv (s : Pool) : Prop where
  installed : ∀ sig ∈ handled, s.parent.installed sig = true ∨ sig ∈ toInstall s.parent.pc
  down : s.killed = true → Down s.parent ∧ AllInstalled s.parent
  coming : s.killed = true → ∀ k, s.parent.status k = .alive → Coming (s.child k)

theorem init_inv : Inv init := ⟨fun _ h => .inr h, by simp [init], by simp [init]⟩

theorem Inv.setChild {ch : Child} (h : Inv s) (hch : Coming (s.child k) → Coming ch) : Inv (s.setChild k ch) := by
  refine ⟨h.installed, h.down, fun hk j hj => ?_⟩
  have hold := h.coming hk j hj
  by_cases hjk : j = k
  · subst hjk
    simpa [Pool.setChild] using hch hold
  · simpa [Pool.setChild, hjk] using hold

/-- The handler puts its byte into the pipe, or drops it where it is not needed. -/
theorem Coming.deliver (h : Coming (s.child k)) (hroom : HasRoom c s k (.deliver sig)) :
    Coming { s.child k with
      pending := Function.update (s.child k).pending sig false
      sigPipe := Fifo.trySend c.sigPipeCap sig (s.child k).sigPipe } := by
  have hkeep : (∃ b ∈ (s.child k).sigPipe, stops b = true) →
      ∃ b ∈ Fifo.trySend c.sigPipeCap sig (s.child k).sigPipe, stops b = true :=
    fun ⟨b, hb, hs⟩ => ⟨b, Fifo.mem_trySend hb, hs⟩
  by_cases hsig : sig = .sigterm
  · subst hsig
    rcases hroom with hroom | hbyte | hstop
    · exact .inr (.inl ⟨.sigterm, Fifo.mem_trySend_of_room hroom, rfl⟩)
    · exact .inr (.inl (hkeep hbyte))
    · exact .inr (.inr hstop)
  · rcases h with hp | hbyte | hstop
    · exact .inl ((Function.update_of_ne (Ne.symm hsig) _ _).trans hp)
    · exact .inr (.inl (hkeep hbyte))
    · exact .inr (.inr hstop)

theorem Coming.read {ch : Child} (h : Coming ch) :
    Coming { ch with sigPipe := [], stop := ch.stop || ch.sigPipe.any stops } := by
  rcases h with hp | ⟨b, hb, hs⟩ | hstop
  · exact .inl hp
  · exact .inr (.inr (Bool.or_eq_true_iff.mpr (.inr (List.any_eq_true.mpr ⟨b, hb, hs⟩))))
  · exact .inr (.inr (Bool.or_eq_true_iff.mpr (.inl hstop)))

theorem Coming.raise {ch : Child} (h : Coming ch) (sig : Signal) :
    Coming { ch with pending := Function.update ch.pending sig true } := by
  refine h.imp_left fun hp => ?_
  by_cases hsig : sig = .sigterm
  · simp [hsig]
  · exact (Function.update_of_ne (Ne.symm hsig) _ _).trans hp

theorem step_inv (hp : Parent.Inv c s.parent) (h : Inv s) (ho : Orderly c s a) (hs : Step c s a s') : Inv s' := by
  cases hs with
  | parent hne hk hstep =>
    have hst := Parent.step_sound hstep
    exact ⟨installed_step hst h.installed, fun hk => down_step hst ho.2 (h.down hk).1 (h.down hk).2,
      fun hk j hj => h.coming hk j (alive_step hst (h.down hk).1 hj)⟩
  | kill hk hstep =>
    obtain ⟨rfl, sig, bytes, events, hpc, -⟩ := kills_eq hk
    have hst := Parent.step_sound hstep
    have hdown : Down s.parent := .inl (by rw [hpc]; rfl)
    have hall : AllInstalled s.parent := by
      intro sig hsig
      have := h.installed sig hsig
      rw [hpc] at this
      exact this.resolve_right List.not_mem_nil
    refine ⟨installed_step hst h.installed, fun _ => down_step hst ho.2 hdown hall, fun _ j hj => .inl ?_⟩
    have halive := alive_step hst hdown hj
    simp [tell, hit_of_alive hp halive, halive]
  | addsig _ _ _ => exact h.setChild id
  | raise _ _ => exact h.setChild fun hc => hc.raise _
  | deliver _ _ _ _ => exact h.setChild fun hc => hc.deliver ho.2
  | ignored _ _ _ =>
    refine h.setChild fun hc => hc.imp_left fun hp => ?_
    simpa using hp
  | read _ _ _ => exact h.setChild Coming.read
  | @dead k a hst hk hd =>
    refine ⟨h.installed, h.down, fun hk' j hj => h.coming hk' j ?_⟩
    by_cases hjk : j = k
    · subst hjk
      exact hst
    · simpa [Pool.dead, childExit, hjk] using hj

theorem reach_inv (h : Reach (step c) (Orderly c) init s) : Inv s := by
  induction h with
  | refl => exact init_inv
  | tail hr ho hs ih => exact step_inv (Parent.reach_inv (reach_parent hr).any) ih ho (step_sound hs)

end LinuxServer.ProcPool.Shutdown
