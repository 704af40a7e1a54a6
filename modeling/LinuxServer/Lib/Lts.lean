/-
Runs of a partial step function, and the rules that carry a property over
them.

A step function answers `none` where the action cannot happen. `Reach step
ok s₀` are the states reached from `s₀` by steps that each met the side
condition `ok` (on the state before the step, and the action); `Any` is the
condition every step meets, so `Reach step Any s₀` are all reachable states.
-/
import Mathlib.Tactic.TypeStar

namespace Lts

variable {σ τ α β : Type*} {step : σ → α → Option σ} {ok ok' : σ → α → Prop} {s₀ s s' : σ} {a : α}

/-- The side condition every step meets. -/
def Any (_ : σ) (_ : α) : Prop := True

/-- The states reached from `s₀` by steps that meet `ok`. -/
inductive Reach (step : σ → α → Option σ) (ok : σ → α → Prop) (s₀ : σ) : σ → Prop
  | refl : Reach step ok s₀ s₀
  | tail : ∀ {s a s'}, Reach step ok s₀ s → ok s a → step s a = some s' → Reach step ok s₀ s'

/-- The state after the actions, when each can happen in turn. -/
def run (step : σ → α → Option σ) (s : σ) : List α → Option σ
  | [] => some s
  | a :: as => (step s a).bind fun s' => run step s' as

/-- The state after the actions, when each can happen and meets `ok`. -/
def runWhere (step : σ → α → Option σ) (ok : σ → α → Prop) [∀ s a, Decidable (ok s a)] (s : σ) :
    List α → Option σ
  | [] => some s
  | a :: as => if ok s a then (step s a).bind fun s' => runWhere step ok s' as else none

theorem run_append {as bs : List α} (h : run step s as = some s') : run step s (as ++ bs) = run step s' bs := by
  induction as generalizing s with
  | nil => cases h; rfl
  | cons a as ih =>
    obtain ⟨s₁, hs, h⟩ := Option.bind_eq_some_iff.mp h
    show (step s a).bind _ = _
    rw [hs]
    exact ih h

theorem runWhere_append [∀ s a, Decidable (ok s a)] {as bs : List α} {s₁ s₂ : σ}
    (h : runWhere step ok s as = some s₁) (h' : runWhere step ok s₁ bs = some s₂) :
    runWhere step ok s (as ++ bs) = some s₂ := by
  induction as generalizing s with
  | nil =>
    cases h
    exact h'
  | cons a as ih =>
    rw [List.cons_append]
    unfold runWhere at h ⊢
    split at h
    · next ho =>
      obtain ⟨s₃, hs, h⟩ := Option.bind_eq_some_iff.mp h
      rw [if_pos ho, hs]
      exact ih h
    · cases h

theorem Reach.trans {s₁ s₂} (h₁ : Reach step ok s₀ s₁) (h₂ : Reach step ok s₁ s₂) : Reach step ok s₀ s₂ := by
  induction h₂ with
  | refl => exact h₁
  | tail _ ho hs ih => exact .tail ih ho hs

theorem Reach.head (ho : ok s₀ a) (hs : step s₀ a = some s) (h : Reach step ok s s') :
    Reach step ok s₀ s' :=
  (Reach.tail .refl ho hs).trans h

theorem Reach.mono (hok : ∀ s a, ok s a → ok' s a) (h : Reach step ok s₀ s) : Reach step ok' s₀ s := by
  induction h with
  | refl => exact .refl
  | tail _ ho hs ih => exact .tail ih (hok _ _ ho) hs

theorem Reach.any (h : Reach step ok s₀ s) : Reach step Any s₀ s := h.mono fun _ _ _ => trivial

/-- **The invariant rule.** What holds at the start and is kept by every
admitted step holds wherever a run gets. -/
theorem Reach.invariant {I : σ → Prop} (h₀ : I s₀)
    (hstep : ∀ s a s', I s → ok s a → step s a = some s' → I s') (h : Reach step ok s₀ s) : I s := by
  induction h with
  | refl => exact h₀
  | tail _ ho hs ih => exact hstep _ _ _ ih ho hs

theorem reach_of_run {as : List α} (h : run step s₀ as = some s) : Reach step Any s₀ s := by
  induction as generalizing s₀ with
  | nil => cases h; exact .refl
  | cons a as ih =>
    obtain ⟨s₁, hs, h⟩ := Option.bind_eq_some_iff.mp h
    exact .head trivial hs (ih h)

theorem reach_get {as : List α} (h : (run step s₀ as).isSome) : Reach step Any s₀ ((run step s₀ as).get h) :=
  reach_of_run (Option.some_get h).symm

theorem reach_of_runWhere [∀ s a, Decidable (ok s a)] {as : List α}
    (h : runWhere step ok s₀ as = some s) : Reach step ok s₀ s := by
  induction as generalizing s₀ with
  | nil => cases h; exact .refl
  | cons a as ih =>
    unfold runWhere at h
    split at h
    · next ho =>
      obtain ⟨s₁, hs, h⟩ := Option.bind_eq_some_iff.mp h
      exact .head ho hs (ih h)
    · cases h

/-- The state a run that can happen, each step meeting `ok`, ends in. -/
theorem reachWhere_get [∀ s a, Decidable (ok s a)] {as : List α} (h : (runWhere step ok s₀ as).isSome) :
    Reach step ok s₀ ((runWhere step ok s₀ as).get h) :=
  reach_of_runWhere (Option.some_get h).symm

/-- **The measure rule.** Steps that keep `I` and lower `m` are soon over. -/
theorem runWhere_length_le [∀ s a, Decidable (ok s a)] {I : σ → Prop} {m : σ → Nat}
    (hstep : ∀ s a s', I s → ok s a → step s a = some s' → I s' ∧ m s' < m s) {as : List α}
    (hI : I s₀) (h : runWhere step ok s₀ as = some s) : as.length + m s ≤ m s₀ := by
  induction as generalizing s₀ with
  | nil => cases h; simp
  | cons a as ih =>
    unfold runWhere at h
    split at h
    · next ho =>
      obtain ⟨s₁, hs, h⟩ := Option.bind_eq_some_iff.mp h
      obtain ⟨hI₁, hlt⟩ := hstep _ _ _ hI ho hs
      have hle := ih hI₁ h
      rw [List.length_cons]
      omega
    · cases h

/-- **The simulation rule.** When every admitted concrete step from related
states is answered by some abstract run to related states, every concrete
state reached is related to an abstract state reached. -/
theorem Reach.simulate {astep : τ → β → Option τ} {R : σ → τ → Prop} {t₀ : τ} (h₀ : R s₀ t₀)
    (hstep : ∀ s a s' t, Reach step ok s₀ s → Reach astep Any t₀ t → R s t → ok s a →
      step s a = some s' → ∃ t', Reach astep Any t t' ∧ R s' t')
    (h : Reach step ok s₀ s) : ∃ t, Reach astep Any t₀ t ∧ R s t := by
  induction h with
  | refl => exact ⟨t₀, .refl, h₀⟩
  | tail hr ho hs ih =>
    obtain ⟨t, ht, hR⟩ := ih
    obtain ⟨t', ht', hR'⟩ := hstep _ _ _ t hr ht hR ho hs
    exact ⟨t', ht.trans ht', hR'⟩

/-! ## Runs with their past -/

/-- A state, and the steps that led to it, each with the state it was taken in. -/
structure Recorded (σ α : Type*) where
  past : List (σ × α)
  now : σ

/-- The step function, keeping the past. -/
def recorded (step : σ → α → Option σ) (r : Recorded σ α) (a : α) : Option (Recorded σ α) :=
  (step r.now a).map fun s => ⟨r.past ++ [(r.now, a)], s⟩

/-- A side condition on the present state. -/
def Now (ok : σ → α → Prop) (r : Recorded σ α) (a : α) : Prop := ok r.now a

instance [∀ s a, Decidable (ok s a)] (r : Recorded σ α) (a : α) : Decidable (Now ok r a) :=
  inferInstanceAs (Decidable (ok r.now a))

theorem recorded_step {r r' : Recorded σ α} (h : recorded step r a = some r') :
    step r.now a = some r'.now ∧ r'.past = r.past ++ [(r.now, a)] := by
  obtain ⟨s, hs, rfl⟩ := Option.map_eq_some_iff.mp h
  exact ⟨hs, rfl⟩

/-- **The invariant rule with the past.** -/
theorem Reach.history {I : σ → List (σ × α) → Prop} {r : Recorded σ α} (h₀ : I s₀ [])
    (hstep : ∀ s past a s', I s past → ok s a → step s a = some s' → I s' (past ++ [(s, a)]))
    (h : Reach (recorded step) (Now ok) ⟨[], s₀⟩ r) : I r.now r.past := by
  refine h.invariant (I := fun r => I r.now r.past) h₀ fun r a r' hr hok hs => ?_
  obtain ⟨hs, hpast⟩ := recorded_step hs
  rw [hpast]
  exact hstep _ _ _ _ hr hok hs

/-- What no step lowers was never higher before than after. -/
theorem Reach.past_mono {f : σ → Nat} {r : Recorded σ α} (hstep : ∀ s a s', step s a = some s' → f s ≤ f s')
    (h : Reach (recorded step) (Now ok) ⟨[], s₀⟩ r) :
    r.past.Pairwise (fun x y => f x.1 ≤ f y.1) ∧ ∀ x ∈ r.past, f x.1 ≤ f r.now := by
  refine h.history (I := fun s past => past.Pairwise (fun x y => f x.1 ≤ f y.1) ∧ ∀ x ∈ past, f x.1 ≤ f s)
    ⟨.nil, by simp⟩ fun s past a s' hs _ h' => ?_
  obtain ⟨hsorted, hle⟩ := hs
  refine ⟨List.pairwise_append.mpr ⟨hsorted, List.pairwise_singleton _ _, fun x hx y hy => ?_⟩, fun x hx => ?_⟩
  · rw [List.mem_singleton.mp hy]
    exact hle x hx
  · rcases List.mem_append.mp hx with hx | hx
    · exact Nat.le_trans (hle x hx) (hstep s a s' h')
    · rw [List.mem_singleton.mp hx]
      exact hstep s a s' h'

end Lts
