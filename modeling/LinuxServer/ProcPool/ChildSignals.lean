/-
The signal side of a child in its loop. Whatever the loop of `ChildLoop`
does is, for its signals, one step of the child in `Shutdown` or none: the
batch in hand, the clients and the pipe from the parent change neither the
signal pipe nor `_stop`.
-/
import LinuxServer.ProcPool.ChildProgress
import LinuxServer.ProcPool.Shutdown

namespace LinuxServer.ProcPool.Shutdown

open Lts

/-- What `Shutdown` keeps of a child in its loop, `pending` being the
signals it has not taken. -/
def side (l : ChildLoop.St) (pending : Signal → Bool) : Child := ⟨[], pending, l.sigPipe, l.child.stop⟩

/-- How the signal side answers a step of child `k` to `l'`: it stays as it
is, takes a step of its own, or the child is gone. -/
inductive Answers (c : Parent.Cfg) (s : Pool) (k : Nat) (l' : ChildLoop.St) : Prop
  | stays : l'.child.pc = .running → s.child k = side l' (s.child k).pending → Answers c s k l'
  | moves {a pending} : l'.child.pc = .running → childStep c s k a = some (s.setChild k (side l' pending)) →
      Answers c s k l'
  | dies {a} : l'.child.pc ≠ .running → childStep c s k a = some (s.dead k) → Answers c s k l'

variable {c : Parent.Cfg} {cc : Child.Cfg} {s : Pool} {k : Nat} {l l' : ChildLoop.St} {pending : Signal → Bool}

/-! ## What the loop does to its signals -/

theorem foldl_handleSignal (bytes : List Signal) (t : Child.St) :
    bytes.foldl Child.handleSignal t = { t with stop := t.stop || bytes.any stops } := by
  induction bytes generalizing t with
  | nil => simp
  | cons sig bytes ih =>
    rw [List.foldl_cons, ih]
    cases sig <;> simp [Child.handleSignal, stops]

/-- What handling an event does to the signal side. -/
inductive Signalled (l l' : ChildLoop.St) : Prop
  | overrun : l'.child.pc ≠ .running → Signalled l l'
  | other : l'.child.pc = .running → l'.sigPipe = l.sigPipe → l'.child.stop = l.child.stop → Signalled l l'
  | read : l'.child.pc = .running → l.sigPipe ≠ [] → l'.sigPipe = [] →
      l'.child.stop = (l.child.stop || l.sigPipe.any stops) → Signalled l l'

/-- The bytes read are those of an event the batch still reports. -/
theorem read_stop {bytes : List Signal} {t t' : Child.St} {ev : Child.Event} {rest : List Child.Event}
    (hb : t.batch = ev :: rest) (hin : ev.epollin = true)
    (h : Child.step cc t (.handle (.signals bytes)) = some t') : t'.stop = (t.stop || bytes.any stops) := by
  obtain ⟨-, hstep⟩ := Child.step_sound h
  cases hstep with
  | handle hb' hh =>
    rw [hb] at hb'
    cases hb'
    cases hh with
    | signals _ _ _ => rw [foldl_handleSignal]
    | skip hout =>
      rw [hin] at hout
      cases hout

theorem handled_signals {ev : Child.Event} {rest : List Child.Event} {ans : Child.Answer}
    (hg : ChildLoop.Good cc l) (hrun : l.child.pc = .running) (hb : l.child.batch = ev :: rest)
    (h : ChildLoop.Handled cc l ev rest ans l') (hch : Child.step cc l.child (.handle ans) = some l'.child) :
    Signalled l l' := by
  have hev : ev ∈ l.child.batch := by
    rw [hb]
    exact List.mem_cons_self ..
  obtain ⟨hin, hready⟩ := hg.ready hrun ev hev
  cases h with
  | noNotification _ _ | acceptFailed _ _ _ | accept _ _ _ _ _ _ _ | read _ _ _ _ _ | closed _ _ _ _ =>
    exact .other hrun rfl rfl
  | overrun _ _ _ _ hout => exact .overrun (by simp [hout])
  | signals hp hsig =>
    rw [ChildLoop.Ready, if_neg hp, if_pos hsig] at hready
    exact .read hrun hready rfl (read_stop hb hin hch)

theorem outside_signals {a : ChildLoop.Act} (hown : ∀ b, a ≠ .own b) (hsig : ∀ sig, a ≠ .signal sig)
    (hrun : l.child.pc = .running) (h : ChildLoop.step cc l a = some l') : Signalled l l' := by
  cases a with
  | own b => exact absurd rfl (hown b)
  | signal sig => exact absurd rfl (hsig sig)
  | notify =>
    simp only [ChildLoop.step] at h
    split at h
    · cases h
    · cases h
      exact .other hrun rfl rfl
  | parentGone | connect _ | peer _ _ | queued _ _ | taken =>
    cases h
    exact .other hrun rfl rfl
  | epollIntr =>
    obtain ⟨ch, hch, rfl⟩ := Option.map_eq_some_iff.mp h
    obtain ⟨-, hstep⟩ := Child.step_sound hch
    cases hstep
    exact .other hrun rfl rfl
  | epollFail =>
    obtain ⟨ch, hch, rfl⟩ := Option.map_eq_some_iff.mp h
    obtain ⟨-, hstep⟩ := Child.step_sound hch
    cases hstep
    exact .overrun (by simp)

/-! ## The signal side answers -/

theorem Signalled.answers (hside : s.child k = side l pending) (h : Signalled l l') : Answers c s k l' := by
  cases h with
  | overrun hpc => exact .dies (a := .die) hpc rfl
  | other hpc hpipe hstop =>
    refine .stays hpc ?_
    rw [hside, side, side, hpipe, hstop]
  | read hpc hne hpipe hstop =>
    have hread : childStep c s k .read = some (s.setChild k (side l' pending)) := by
      rw [childStep, hside, if_pos ⟨rfl, hne⟩, side, side, hpipe, hstop]
    exact .moves hpc hread

/-- **The child's loop refines its signal side.** In every state a run can
reach, a step of the loop is answered by the signal side, a signal being one
that is pending and whose byte has room in the pipe. -/
theorem signal_side (hr : Reach (ChildLoop.step cc) Any ChildLoop.init l) (hrun : l.child.pc = .running)
    (hside : s.child k = side l pending) {a : ChildLoop.Act}
    (hsig : ∀ sig, a = .signal sig → pending sig = true ∧ sig ∈ Parent.handled ∧ l.sigPipe.length < c.sigPipeCap)
    (h : ChildLoop.step cc l a = some l') : Answers c s k l' := by
  have hg : ChildLoop.Good cc l := ChildLoop.reach_good hr
  by_cases hown : ∀ b, a ≠ .own b
  · by_cases hs : ∀ sig, a ≠ .signal sig
    · exact (outside_signals hown hs hrun h).answers hside
    · push Not at hs
      obtain ⟨sig, rfl⟩ := hs
      obtain ⟨hp, hmem, hroom⟩ := hsig sig rfl
      cases h
      have hpend : (side l pending).pending sig = true := hp
      have hinst : (side l pending).installed sig = true := by simpa [Child.installed, side] using hmem
      have hdeliver : childStep c s k (.deliver sig) = some (s.setChild k
          (side { l with sigPipe := l.sigPipe ++ [sig] } (Function.update pending sig false))) := by
        rw [childStep, hside, if_pos hpend]
        simp only
        rw [if_pos hinst]
        simp only [side, Fifo.trySend_room hroom]
      exact .moves hrun hdeliver
  · push Not at hown
    obtain ⟨b, rfl⟩ := hown
    have hch := ChildLoop.ownStep_child h
    obtain ⟨-, hst⟩ := ChildLoop.own_sound hg h
    cases hst with
    | handle hb hh => exact (handled_signals hg hrun hb hh hch).answers hside
    | epollWait _ _ _ _ => exact Signalled.answers hside (.other hrun rfl rfl)
    | leave _ hstop =>
      have hexit : childStep c s k .exit = some (s.dead k) := by
        rw [childStep, hside, if_pos ⟨rfl, hstop⟩]
      exact .dies (by simp) hexit

end LinuxServer.ProcPool.Shutdown
