/-
The do-while search of a circular table: from `start`, step to the next
index modulo `n` until an index satisfies `p` or the search is back at
`start`.

`cyclicSearch_spec` is its whole behaviour: the result is the first index at
or cyclically after `start` with `p`, or `start` itself when there is none.
That the loop gets there is `cyclicPass_terminates`, over its passes one by one.
When the next search starts behind the index found, the indices with `p` are
found in turn: each search rotates the list of them (`cyclicFrom_next`).
-/
import Mathlib.Data.List.Nodup
import Mathlib.Data.List.Rotate
import LinuxServer.Lib.Lts

/-- The loop, after `j` was reached; `fuel` bounds the passes left. -/
def cyclicSearchFrom (n : Nat) (p : Nat → Bool) (start : Nat) : Nat → Nat → Nat
  | 0, j => j
  | fuel + 1, j =>
    if p j then j
    else if (j + 1) % n = start then start
    else cyclicSearchFrom n p start fuel ((j + 1) % n)

/-- `j = start; do { if (p(j)) break; j = (j + 1) % n; } while (j != start);` -/
def cyclicSearch (n : Nat) (p : Nat → Bool) (start : Nat) : Nat := cyclicSearchFrom n p start n start

section
variable {n start fuel d : Nat} {p : Nat → Bool}

/-- Distinct indices below `n` have distinct offsets from `start`, so the
search is back at `start` only after all `n` of them. -/
theorem mod_add_eq_start (hs : start < n) (hd : d < n) : ((start + d) % n + 1) % n = start ↔ d + 1 = n := by
  have hr : (start + d < n ∧ (start + d) % n = start + d) ∨ (n ≤ start + d ∧ (start + d) % n = start + d - n) := by
    by_cases hlt : start + d < n
    · exact .inl ⟨hlt, Nat.mod_eq_of_lt hlt⟩
    · exact .inr ⟨by omega, by rw [Nat.mod_eq_sub_mod (by omega), Nat.mod_eq_of_lt (by omega)]⟩
  generalize (start + d) % n = r at hr
  by_cases hlast : r + 1 = n
  · rw [hlast, Nat.mod_self]; omega
  · rw [Nat.mod_eq_of_lt (by omega)]; omega

/-- The loop from the index `d` past `start`, when the `d` before it fail `p`
and the passes left are enough to come round. -/
theorem cyclicSearchFrom_spec (hs : start < n) (hd : d < n) (hf : n ≤ d + fuel)
    (hbefore : ∀ e < d, p ((start + e) % n) = false) :
    (cyclicSearchFrom n p start fuel ((start + d) % n) = start ∧ ∀ e < n, p ((start + e) % n) = false) ∨
    ∃ e < n, cyclicSearchFrom n p start fuel ((start + d) % n) = (start + e) % n ∧
      p ((start + e) % n) = true ∧ ∀ e' < e, p ((start + e') % n) = false := by
  induction fuel generalizing d with
  | zero => omega
  | succ fuel ih =>
    unfold cyclicSearchFrom
    cases hp : p ((start + d) % n) with
    | true => exact .inr ⟨d, hd, by simp, hp, hbefore⟩
    | false =>
      have hbefore' : ∀ e < d + 1, p ((start + e) % n) = false := fun e he => by
        by_cases hed : e = d
        · rw [hed, hp]
        · exact hbefore e (by omega)
      simp only [Bool.false_eq_true, if_false, mod_add_eq_start hs hd]
      split
      · next hlast => exact .inl ⟨rfl, fun e he => hbefore' e (by omega)⟩
      · next hlast =>
        rw [Nat.mod_add_mod]
        exact ih (by omega) (by omega) hbefore'

/-- **The search.** It ends on the first index at or cyclically after
`start` with `p`, or on `start` when no index has it. -/
theorem cyclicSearch_spec (hs : start < n) :
    (cyclicSearch n p start = start ∧ ∀ k < n, p k = false) ∨
    ∃ d < n, cyclicSearch n p start = (start + d) % n ∧ p ((start + d) % n) = true ∧
      ∀ e < d, p ((start + e) % n) = false := by
  have hn : n ≤ 0 + n := by omega
  have h := cyclicSearchFrom_spec (p := p) hs (by omega) hn (by simp)
  simp only [Nat.add_zero, Nat.mod_eq_of_lt hs] at h
  rcases h with ⟨he, hall⟩ | h
  · refine .inl ⟨he, fun k hk => ?_⟩
    have hoff : (start + (k + n - start) % n) % n = k := by
      rw [Nat.add_mod_mod, show start + (k + n - start) = k + n by omega, Nat.add_mod_right,
        Nat.mod_eq_of_lt hk]
    rw [← hoff]
    exact hall _ (Nat.mod_lt _ (by omega))
  · exact .inr h

theorem cyclicSearch_lt (hs : start < n) : cyclicSearch n p start < n := by
  rcases cyclicSearch_spec (p := p) hs with ⟨he, _⟩ | ⟨d, _, he, _⟩ <;> rw [he]
  · exact hs
  · exact Nat.mod_lt _ (by omega)

theorem cyclicSearch_false_iff (hs : start < n) :
    p (cyclicSearch n p start) = false ↔ ∀ k < n, p k = false := by
  constructor
  · intro h
    rcases cyclicSearch_spec (p := p) hs with ⟨_, hall⟩ | ⟨d, _, he, hp, _⟩
    · exact hall
    · rw [he, hp] at h; cases h
  · exact fun h => h _ (cyclicSearch_lt hs)

/-! ## The loop pass by pass -/

/-- Where the loop is: at the top of its body with index `j`, or left with it. -/
inductive CyclicPass
  | body (j : Nat)
  | left (j : Nat)
  deriving DecidableEq, Repr

def CyclicPass.index : CyclicPass → Nat
  | .body j | .left j => j

/-- One pass: the body's `break`, the next index, the loop's own test. -/
def cyclicPass (n : Nat) (p : Nat → Bool) (start : Nat) : CyclicPass → Unit → Option CyclicPass
  | .body j, _ =>
    some (if p j then .left j else if (j + 1) % n = start then .left ((j + 1) % n) else .body ((j + 1) % n))
  | .left _, _ => none

open Lts

theorem cyclicPass_index {st : CyclicPass} (hs : start < n)
    (h : Reach (cyclicPass n p start) Any (.body start) st) : st.index < n := by
  refine h.invariant (I := fun st => st.index < n) hs fun st _ st' hst _ hstep => ?_
  cases st with
  | left j => cases hstep
  | body j =>
    have hnext : (j + 1) % n < n := Nat.mod_lt _ (by omega)
    simp only [cyclicPass, Option.some.injEq] at hstep
    subst hstep
    split
    · exact hst
    split
    · exact hnext
    · exact hnext

/-- From the index `d` past `start`, the passes left in `fuel` are enough. -/
theorem cyclicPass_from (hs : start < n) (hd : d < n) (hf : n ≤ d + fuel) : ∃ k ≤ fuel,
    run (cyclicPass n p start) (.body ((start + d) % n)) (List.replicate k ()) =
      some (.left (cyclicSearchFrom n p start fuel ((start + d) % n))) := by
  induction fuel generalizing d with
  | zero => omega
  | succ fuel ih =>
    unfold cyclicSearchFrom
    by_cases hp : p ((start + d) % n) = true
    · refine ⟨1, by omega, ?_⟩
      simp [run, cyclicPass, hp]
    by_cases hlast : d + 1 = n
    · have hback := (mod_add_eq_start hs hd).mpr hlast
      refine ⟨1, by omega, ?_⟩
      simp [run, cyclicPass, hp, hback]
    · have hback : ((start + d) % n + 1) % n ≠ start := fun he => hlast ((mod_add_eq_start hs hd).mp he)
      obtain ⟨k, hk, hrun⟩ := ih (d := d + 1) (by omega) (by omega)
      refine ⟨k + 1, by omega, ?_⟩
      rw [List.replicate_succ, run]
      simp only [cyclicPass, hp, hback, Bool.false_eq_true, if_false, Option.bind_some]
      rw [Nat.mod_add_mod]
      exact hrun

/-- **The loop ends**, after at most `n` passes, with the index `cyclicSearch` gives. -/
theorem cyclicPass_terminates (hs : start < n) : ∃ k ≤ n,
    run (cyclicPass n p start) (.body start) (List.replicate k ()) = some (.left (cyclicSearch n p start)) := by
  have hn : n ≤ 0 + n := by omega
  have h := cyclicPass_from (p := p) hs (by omega) hn
  rw [Nat.add_zero, Nat.mod_eq_of_lt hs] at h
  exact h

/-! ## One search after the other -/

/-- The indices below `n` with `p`, in cyclic order from `start`. -/
def cyclicFrom (n : Nat) (p : Nat → Bool) (start : Nat) : List Nat :=
  (List.range' start (n - start) ++ List.range start).filter p

theorem mem_cyclicFrom {k : Nat} (hs : start < n) : k ∈ cyclicFrom n p start ↔ k < n ∧ p k = true := by
  simp only [cyclicFrom, List.mem_filter, List.mem_append, List.mem_range'_1, List.mem_range]
  exact ⟨fun h => ⟨by omega, h.2⟩, fun h => ⟨by omega, h.2⟩⟩

theorem nodup_cyclicFrom (n : Nat) (p : Nat → Bool) (start : Nat) : (cyclicFrom n p start).Nodup := by
  refine List.Nodup.filter _ (List.nodup_append.mpr ⟨List.nodup_range', List.nodup_range, fun a ha b hb => ?_⟩)
  simp only [List.mem_range'_1, List.mem_range] at ha hb
  omega

/-- The order is that of `0, 1, …, n - 1` turned round to `start`. -/
theorem cyclicFrom_eq_rotate (hs : start ≤ n) : cyclicFrom n p start = ((List.range n).rotate start).filter p := by
  have hdrop : (List.range n).drop start = List.range' start (n - start) := by
    rw [List.range_eq_range', List.drop_range']
    simp
  have htake : (List.range n).take start = List.range start := by
    rw [List.take_range, Nat.min_eq_left hs]
  rw [cyclicFrom, List.rotate_eq_drop_append_take (by simpa using hs), hdrop, htake]

/-- The search finds the first of the list, and behind it the list is turned by one. -/
theorem cyclicFrom_next {j : Nat} {rest : List Nat} (hs : start < n) (h : cyclicFrom n p start = j :: rest) :
    cyclicSearch n p start = j ∧ cyclicFrom n p ((j + 1) % n) = rest ++ [j] := by
  rw [cyclicFrom_eq_rotate hs.le, List.filter_eq_cons_iff] at h
  obtain ⟨pre, post, hsplit, hpre, hpj, hpost⟩ := h
  have hlen : pre.length < n := by
    have := congrArg List.length hsplit
    simp only [List.length_rotate, List.length_range, List.length_append, List.length_cons] at this
    omega
  -- The entries in front of `j` are those passed over.
  have hat : ∀ e (he : e < n), ((List.range n).rotate start)[e]? = some ((start + e) % n) := by
    intro e he
    rw [List.getElem?_rotate (by simpa using he), List.length_range, List.getElem?_range (Nat.mod_lt _ (by omega)),
      Nat.add_comm]
  have hj : (start + pre.length) % n = j := by
    have := hat pre.length hlen
    rw [hsplit] at this
    simpa using this.symm
  have hdead : ∀ e < pre.length, p ((start + e) % n) = false := by
    intro e he
    have := hat e (by omega)
    rw [hsplit, List.getElem?_append_left he] at this
    simpa using hpre _ (List.mem_of_getElem? this)
  constructor
  · rcases cyclicSearch_spec (p := p) hs with ⟨-, hall⟩ | ⟨d, -, hres, hpd, hbefore⟩
    · rw [← hj, hall _ (Nat.mod_lt _ (by omega))] at hpj
      cases hpj
    · have hd : d = pre.length := by
        rcases Nat.lt_trichotomy d pre.length with hlt | heq | hgt
        · rw [hdead d hlt] at hpd
          cases hpd
        · exact heq
        · have := hbefore _ hgt
          rw [hj, hpj] at this
          cases this
      rw [hres, hd, hj]
  · have hturn : (List.range n).rotate ((j + 1) % n) = post ++ (pre ++ [j]) := by
      calc (List.range n).rotate ((j + 1) % n)
        _ = (List.range n).rotate ((start + (pre.length + 1)) % (List.range n).length) := by
            rw [← hj, Nat.mod_add_mod, List.length_range, Nat.add_assoc]
        _ = ((List.range n).rotate start).rotate (pre ++ [j]).length := by
            rw [List.rotate_mod, List.rotate_rotate]
            simp
        _ = post ++ (pre ++ [j]) := by
            rw [hsplit, List.append_cons, List.rotate_append_length_eq]
    have hnone : pre.filter p = [] := List.filter_eq_nil_iff.mpr hpre
    rw [cyclicFrom_eq_rotate (Nat.mod_lt _ (by omega)).le, hturn]
    simp [List.filter_append, hpost, hnone, hpj]

end
