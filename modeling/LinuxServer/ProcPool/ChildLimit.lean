/-
The indices a child uses on `users`, under the limit on open descriptors
that main.cpp sets without looking at it.

The array has `USER_PER_PROCESS` entries and is indexed by descriptor. The
code never compares the two, so the limit is all that keeps a descriptor
inside: `accept` returns the lowest number not in use, and with enough
clients that is any number the limit allows.
-/
import LinuxServer.Lib.LowestFree
import LinuxServer.ProcPool.ChildSound

namespace LinuxServer.ProcPool.Child

open Lts

/-- `f` is open in the child. -/
def Used (c : Cfg) (s : St) (f : Int) : Prop := c.own f = true ∨ s.kern.ofd f ≠ none

instance (c : Cfg) (s : St) : DecidablePred (Used c s) := fun _ => inferInstanceAs (Decidable (_ ∨ _))

/-- What `accept` returns is the lowest free descriptor, and below the limit. -/
def AcceptsBelow (c : Cfg) (limit : Int) (s : St) : Act → Prop
  | .handle (.pipe _ (some (connfd, _))) => LowestFree (Used c s) connfd ∧ connfd < limit
  | _ => True

/-- The index `users[...]` an action uses: that of a new connection for
`init`, that of a client's event for `process`. -/
def usersIndex (c : Cfg) (s : St) (a : Act) : Option Int :=
  match s.batch, a with
  | ev :: _, .handle ans =>
    if ev.sockfd = c.pipefd ∧ ev.epollin = true then
      match ans with
      | .pipe ret (some (connfd, _)) => if ret ≤ 0 then none else some connfd
      | _ => none
    else if ev.sockfd = c.sigPipefd ∧ ev.epollin = true then none
    else if ev.epollin = true then some ev.sockfd
    else none
  | _, _ => none

/-- Every index used on `users`, in any run, is one of its `USER_PER_PROCESS`. -/
def UsersBounded (c : Cfg) (limit : Int) : Prop :=
  ∀ s a s' i, Reach (step c) (AcceptsBelow c limit) init s → AcceptsBelow c limit s a → step c s a = some s' →
    usersIndex c s a = some i → 0 ≤ i ∧ i < userPerProcess

variable {c : Cfg} {limit : Int} {s s' : St} {a : Act}

/-- No number from `USER_PER_PROCESS` on is free for a client under the limit. -/
def LimitFits (c : Cfg) (limit : Int) : Prop := ∀ f, userPerProcess ≤ f → f < limit → c.own f = true

/-! ## A limit that fits -/

theorem LimitFits.inBounds (hfit : LimitFits c limit) (hok : AcceptsBelow c limit s a) : InBounds s a := by
  unfold AcceptsBelow at hok
  unfold InBounds
  split
  · next connfd _ =>
    obtain ⟨hfree, hlt⟩ := hok
    by_contra hge
    exact hfree.free (.inl (hfit connfd (Int.not_lt.mp hge) hlt))
  · trivial

/-- Registered descriptors are indices of `users`. -/
def Indexed (s : St) : Prop := ∀ fd ∈ s.epoll, 0 ≤ fd ∧ fd < userPerProcess

theorem processUser_epoll {sockfd : Int} {recvs : List RecvOut} (h : processUser c s sockfd recvs = some s') :
    s'.epoll ⊆ s.epoll := by
  obtain ⟨o, -, rfl⟩ := Option.map_eq_some_iff.mp h
  split
  · unfold removefd closeFd epollDel
    split
    · exact (Finset.erase_subset _ _).trans (Finset.erase_subset _ _)
    · exact Finset.erase_subset _ _
  · exact Finset.Subset.refl _

theorem step_indexed (hs : Indexed s) (h : step c s a = some s') : Indexed s' := by
  obtain ⟨-, hstep⟩ := step_sound h
  cases hstep with
  | @handle _ rest _ _ _ hh =>
    cases hh with
    | accept _ _ _ _ _ h0 hlt =>
      intro fd hfd
      rcases Finset.mem_insert.mp hfd with rfl | hfd
      · exact ⟨h0, hlt⟩
      · exact hs fd hfd
    | signals =>
      obtain ⟨stop, hstop⟩ := signals_stop _ { s with batch := rest }
      rw [hstop]
      exact hs
    | client _ _ _ hp => exact fun fd hfd => hs fd (processUser_epoll hp hfd)
    | noNotification | acceptFailed | overrun | skip => exact hs
  | epollWait | epollIntr | epollFail | leave => exact hs

theorem reach_indexed {ok : St → Act → Prop} (h : Reach (step c) ok init s) : Indexed s :=
  h.invariant (by simp [Indexed, init]) fun _ _ _ hs _ hstep => step_indexed hs hstep

theorem LimitFits.bounded (hfit : LimitFits c limit) : UsersBounded c limit := by
  intro s a s' i hr hok hstep hi
  have hinv := reach_inv (hr.mono fun _ _ => hfit.inBounds)
  unfold usersIndex at hi
  split at hi
  · next ev rest ans hb =>
    split at hi
    · split at hi
      · next ret connfd addr =>
        split at hi
        · cases hi
        · cases hi
          exact ⟨hok.1.nonneg, hfit.inBounds hok⟩
      · cases hi
    · next hp =>
      split at hi
      · cases hi
      · next hsig =>
        split at hi
        · next hin =>
          cases hi
          have hreg := hinv.registered (by simp [hb]) (fun he => hp ⟨he, hin⟩) fun he => hsig ⟨he, hin⟩
          exact reach_indexed hr _ hreg.1
        · cases hi
  · cases hi

/-! ## A limit that does not -/

/-- Clients connected until the numbers below `n` were in use. -/
structure Full (c : Cfg) (n : Int) (s : St) : Prop where
  running : s.pc = .running
  going : s.stop = false
  batch : s.batch = []
  below : ∀ f, 0 ≤ f → f < n → Used c s f
  above : ∀ f, n ≤ f → s.kern.ofd f = none

/-- The state in which a notification is handled. -/
def notified (c : Cfg) (s : St) : St := { s with batch := [⟨c.pipefd, true, s.kern.ofd c.pipefd⟩] }

theorem Full.notified {n : Int} (h : Full c n s) :
    step c s (.epollWait [(c.pipefd, true)]) = some (notified c s) := by
  have hrep : Reportable c s [(c.pipefd, true)] := by simp [Reportable, maxEventNumber]
  simp [step, h.running, h.batch, h.going, hrep, Child.notified]

theorem Full.lowest {n f : Int} (h : Full c n s) (hnf : n ≤ f) (h0 : 0 ≤ n) (hown : c.own f = false)
    (hbetween : ∀ g, n ≤ g → g < f → c.own g = true) : LowestFree (Used c s) f where
  nonneg := by omega
  free := by
    rintro (hu | hu)
    · rw [hown] at hu; cases hu
    · exact hu (h.above f hnf)
  below k hk := by
    by_cases hkn : (k : Int) < n
    · exact h.below k (by omega) hkn
    · exact .inl (hbetween k (by omega) (by omega))

theorem Full.connect {n : Int} (limit : Int) (h : Full c n s) (h0 : 0 ≤ n) (hn : n < userPerProcess)
    (hlim : n < limit) (hown : c.own n = false) :
    ∃ s', Reach (step c) (AcceptsBelow c limit) s s' ∧ Full c (n + 1) s' := by
  have hfree : s.kern.ofd n = none := h.above n (Int.le_refl n)
  have hlow : LowestFree (Used c (Child.notified c s)) n :=
    h.lowest (Int.le_refl n) h0 hown fun g h1 h2 => by omega
  have hstep : step c (Child.notified c s) (.handle (.pipe 4 (some (n, ⟨0, 0⟩)))) = some { s with
      batch := []
      kern := s.kern.alloc n hfree
      addr := Function.update s.addr s.kern.opened ⟨0, 0⟩
      epoll := insert n s.epoll
      users := Function.update s.users n (.init c.epollfd n ⟨0, 0⟩) } := by
    simp [step, Child.notified, h.running, handleEvent, acceptClient, hfree, hown, h0, hn]
  have hwait : AcceptsBelow c limit s (.epollWait [(c.pipefd, true)]) := trivial
  have hacc : AcceptsBelow c limit (Child.notified c s) (.handle (.pipe 4 (some (n, ⟨0, 0⟩)))) := ⟨hlow, hlim⟩
  refine ⟨_, .head hwait h.notified (.tail .refl hacc hstep), h.running, h.going, rfl,
    fun f hf hlt => ?_, fun f hf => ?_⟩
  · by_cases hfn : f = n
    · subst hfn
      exact .inr (by simp)
    · rcases h.below f hf (by omega) with hu | hu
      · exact .inl hu
      · exact .inr (by rwa [FdTable.alloc_ofd_of_ne hfree hfn])
  · rw [FdTable.alloc_ofd_of_ne hfree (by omega)]
    exact h.above f (by omega)

/-- Clients connect until the numbers below `n` are in use, for any `n` the limit and the array allow. -/
theorem fills (c : Cfg) (limit : Int) (n : Nat) (hn : (n : Int) ≤ userPerProcess) (hlim : (n : Int) ≤ limit) :
    ∃ s, Reach (step c) (AcceptsBelow c limit) init s ∧ Full c n s := by
  induction n with
  | zero =>
    refine ⟨init, .refl, rfl, rfl, rfl, fun f h0 h1 => ?_, fun f _ => rfl⟩
    exact absurd h1 (Int.not_lt.mpr h0)
  | succ n ih =>
    obtain ⟨s, hr, hs⟩ := ih (by omega) (by omega)
    push_cast
    cases hown : c.own n with
    | false =>
      obtain ⟨s', hr', hs'⟩ := hs.connect limit (by omega) (by omega) (by omega) hown
      exact ⟨s', hr.trans hr', hs'⟩
    | true =>
      refine ⟨s, hr, hs.running, hs.going, hs.batch, fun f h0 hlt => ?_, fun f hf => hs.above f (by omega)⟩
      by_cases hfn : f = n
      · subst hfn
        exact .inl hown
      · exact hs.below f h0 (by omega)

/-- A number past the array that the limit allows is reached, and used as an index. -/
theorem overruns {f : Int} (hf : userPerProcess ≤ f) (hlim : f < limit) (hown : c.own f = false) :
    ∃ s a s' i, Reach (step c) (AcceptsBelow c limit) init s ∧ AcceptsBelow c limit s a ∧
      step c s a = some s' ∧ usersIndex c s a = some i ∧ userPerProcess ≤ i := by
  -- The client that gets the first such number is the one.
  have hex : ∃ m : Nat, userPerProcess ≤ m ∧ c.own m = false := by
    have hU : 0 ≤ userPerProcess := by decide
    have hnat : (f.toNat : Int) = f := Int.toNat_of_nonneg (by omega)
    exact ⟨f.toNat, by omega, by rwa [hnat]⟩
  obtain ⟨hm, hmown⟩ := Nat.find_spec hex
  have hmf : (Nat.find hex : Int) ≤ f := by
    have hU : 0 ≤ userPerProcess := by decide
    have hnat : (f.toNat : Int) = f := Int.toNat_of_nonneg (by omega)
    have := Nat.find_min' hex (m := f.toNat) ⟨by omega, by rwa [hnat]⟩
    omega
  obtain ⟨s, hr, hs⟩ := fills c limit userPerProcess.toNat (by decide) (by simp [userPerProcess] at *; omega)
  have hU : (userPerProcess.toNat : Int) = userPerProcess := by decide
  rw [hU] at hs
  have hlow : LowestFree (Used c (notified c s)) (Nat.find hex) := by
    refine hs.lowest hm (by decide) hmown fun g hg hgm => ?_
    have hnat : (g.toNat : Int) = g := Int.toNat_of_nonneg (le_trans (by decide) hg)
    have hno := Nat.find_min hex (m := g.toNat) (by omega)
    rw [hnat] at hno
    simpa [hg] using hno
  have hnone : s.kern.ofd (Nat.find hex) = none := hs.above _ hm
  have hstep : step c (notified c s) (.handle (.pipe 4 (some (Nat.find hex, ⟨0, 0⟩)))) =
      some { s with batch := [], pc := .outOfBounds } := by
    have hge : ¬ (Nat.find hex : Int) < userPerProcess := Int.not_lt.mpr hm
    simp [step, notified, hs.running, handleEvent, acceptClient, hnone, hmown, hge]
  have hwait : AcceptsBelow c limit s (.epollWait [(c.pipefd, true)]) := trivial
  have hacc : AcceptsBelow c limit (notified c s) (.handle (.pipe 4 (some (Nat.find hex, ⟨0, 0⟩)))) :=
    ⟨hlow, by omega⟩
  refine ⟨notified c s, _, _, Nat.find hex, .tail hr hwait hs.notified, hacc, hstep, ?_, hm⟩
  simp [usersIndex, notified]

/-- **When `users` is not overrun.** Under a limit on open descriptors, with
`accept` returning the lowest free one: every index a child uses on `users`
is below `USER_PER_PROCESS`, in every run, exactly when no number from there
up to the limit is left for a client, as with a limit of at most
`USER_PER_PROCESS`. -/
theorem users_bounded_iff (c : Cfg) (limit : Int) : UsersBounded c limit ↔ LimitFits c limit := by
  refine ⟨fun hb f hf hlim => ?_, LimitFits.bounded⟩
  by_contra hown
  obtain ⟨s, a, s', i, hr, hok, hs, hi, hge⟩ := overruns hf hlim (Bool.not_eq_true _ ▸ hown)
  have := (hb s a s' i hr hok hs hi).2
  omega

/-- With a limit of 100000 a child uses an index past the array. -/
theorem limit_100000_overruns : ∃ s a s' i, Reach (step demoCfg) (AcceptsBelow demoCfg 100000) init s ∧
    AcceptsBelow demoCfg 100000 s a ∧ step demoCfg s a = some s' ∧ usersIndex demoCfg s a = some i ∧
    userPerProcess ≤ i :=
  overruns (f := 65536) (by decide) (by decide) (by decide)

end LinuxServer.ProcPool.Child
