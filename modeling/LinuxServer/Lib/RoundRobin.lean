/-
Round robin dealing of numbered items to `m` FIFO lanes.

Item `n` (the count of items dealt before it) goes to the end of lane
`n % m`, and each lane gives its items out from the front. So at any time
lane `w` has given out and still holds, in order, `share m c w`: the numbers
below `c` that leave remainder `w`, for `c` items dealt.
-/
import Mathlib.Algebra.Order.BigOperators.Group.Finset
import Mathlib.Algebra.BigOperators.Group.Finset.Basic
import Mathlib.Data.Int.CardIntervalMod
import Mathlib.Logic.Function.Basic
import LinuxServer.Lib.Lts

namespace RoundRobin

open Lts

/-- What lane `w` still holds (`waiting w`), and has given out (`taken w`). -/
structure Lanes where
  dealt : Nat
  waiting : Nat → List Nat
  taken : Nat → List Nat

inductive Act
  | deal
  | take (w : Nat)

def init : Lanes := ⟨0, fun _ => [], fun _ => []⟩

/-- The next item joins its lane. -/
def deal (m : Nat) (t : Lanes) : Lanes :=
  { t with
    dealt := t.dealt + 1
    waiting := Function.update t.waiting (t.dealt % m) (t.waiting (t.dealt % m) ++ [t.dealt]) }

/-- Lane `w`, which holds `n` and then `rest`, gives out `n`. -/
def take (t : Lanes) (w n : Nat) (rest : List Nat) : Lanes :=
  { t with
    waiting := Function.update t.waiting w rest
    taken := Function.update t.taken w (t.taken w ++ [n]) }

def step (m : Nat) (t : Lanes) : Act → Option Lanes
  | .deal => some (deal m t)
  | .take w =>
    match t.waiting w with
    | [] => none
    | n :: rest => some (take t w n rest)

/-- The numbers below `c` that leave remainder `w`, in order. -/
def share (m c w : Nat) : List Nat := (List.range c).filter (· % m = w)

variable {m c c' w w' n : Nat} {t t' : Lanes} {rest : List Nat}

/-! ## Shares -/

@[simp] theorem mem_share : n ∈ share m c w ↔ n < c ∧ n % m = w := by
  simp [share]

theorem share_sorted : (share m c w).Pairwise (· < ·) :=
  List.Pairwise.filter _ List.pairwise_lt_range

theorem share_nodup : (share m c w).Nodup := share_sorted.imp Nat.ne_of_lt

theorem share_succ_self : share m (c + 1) (c % m) = share m c (c % m) ++ [c] := by
  simp [share, List.range_succ, List.filter_append]

theorem share_succ_of_ne (h : w ≠ c % m) : share m (c + 1) w = share m c w := by
  simp [share, List.range_succ, List.filter_append, Ne.symm h]

theorem length_share (hw : w < m) : (share m c w).length = c / m + if w < c % m then 1 else 0 := by
  have hcount : (share m c w).length = c.count (· ≡ w [MOD m]) := by
    simp only [share, Nat.count, List.countP_eq_length_filter, Nat.ModEq, Nat.mod_eq_of_lt hw]
  rw [hcount, Nat.count_modEq_card c (by omega) w, Nat.mod_eq_of_lt hw]

/-- No lane is dealt two items more than another. -/
theorem length_share_le (hw : w < m) (hw' : w' < m) :
    (share m c w).length ≤ (share m c w').length + 1 := by
  rw [length_share hw, length_share hw']
  split <;> omega

/-! ## Totals -/

/-- The total of a count over the `m` lanes. -/
def total (m : Nat) (f : Nat → Nat) : Nat := ∑ w ∈ Finset.range m, f w

theorem total_change {f g : Nat → Nat} {a b : Nat} (hw : w < m) (hself : g w + b = f w + a)
    (hother : ∀ w' ≠ w, g w' = f w') : total m g + b = total m f + a := by
  have hmem : w ∈ Finset.range m := Finset.mem_range.mpr hw
  have hrest : ∑ w' ∈ (Finset.range m).erase w, g w' = ∑ w' ∈ (Finset.range m).erase w, f w' :=
    Finset.sum_congr rfl fun w' hw' => hother w' (Finset.ne_of_mem_erase hw')
  unfold total
  rw [← Finset.add_sum_erase _ g hmem, ← Finset.add_sum_erase _ f hmem, hrest]
  omega

theorem total_update {σ : Type*} (F : σ → Nat) (p : Nat → σ) (q : σ) (hw : w < m) :
    total m (fun w' => F (Function.update p w q w')) + F (p w) = total m (fun w' => F (p w')) + F q :=
  total_change hw (by simp [Nat.add_comm]) fun w' hw' => by simp [hw']

theorem total_eq_zero {f : Nat → Nat} : total m f = 0 ↔ ∀ w < m, f w = 0 := by
  simp [total]

theorem le_total (f : Nat → Nat) (hw : w < m) : f w ≤ total m f := by
  unfold total
  rw [← Finset.add_sum_erase _ f (Finset.mem_range.mpr hw)]
  omega

theorem total_congr {f g : Nat → Nat} (h : ∀ w < m, f w = g w) : total m f = total m g :=
  Finset.sum_congr rfl fun w hw => h w (Finset.mem_range.mp hw)

theorem total_le {f g : Nat → Nat} (h : ∀ w < m, f w ≤ g w) : total m f ≤ total m g :=
  Finset.sum_le_sum fun w hw => h w (Finset.mem_range.mp hw)

theorem total_add (m : Nat) (f g : Nat → Nat) : total m (fun w => f w + g w) = total m f + total m g :=
  Finset.sum_add_distrib

theorem total_share (hm : 0 < m) : total m (fun w => (share m c w).length) = c := by
  induction c with
  | zero => simp [total, share]
  | succ c ih =>
    have hlane : c % m < m := Nat.mod_lt _ hm
    have h := total_change (b := 0) (a := 1) (f := fun w => (share m c w).length)
      (g := fun w => (share m (c + 1) w).length) hlane (by simp [share_succ_self])
      fun w hw => by simp only [share_succ_of_ne hw]
    omega

/-! ## Runs -/

/-- What a lane has given out and holds is its share of what was dealt. -/
theorem reach_share (h : Reach (step m) Any init t) (w : Nat) :
    t.taken w ++ t.waiting w = share m t.dealt w := by
  induction h with
  | refl => simp [init, share]
  | @tail t a t' _ _ hstep ih =>
    cases a with
    | deal =>
      cases hstep
      by_cases hw : w = t.dealt % m
      · subst hw
        simp [deal, share_succ_self, ← ih]
      · simp only [deal, share_succ_of_ne hw, Function.update_of_ne hw]
        exact ih
    | take w' =>
      unfold step at hstep
      simp only at hstep
      split at hstep
      · cases hstep
      · next n rest hwait =>
        cases hstep
        by_cases hw : w = w'
        · subst hw
          simp [take, ← ih, hwait]
        · simp only [take, Function.update_of_ne hw]
          exact ih

theorem mem_lane (h : Reach (step m) Any init t) :
    n ∈ t.taken w ∨ n ∈ t.waiting w ↔ n < t.dealt ∧ n % m = w := by
  rw [← mem_share, ← reach_share h w, List.mem_append]

/-- No item is given out twice, or given out and still held. -/
theorem lane_nodup (h : Reach (step m) Any init t) :
    (t.taken w).Nodup ∧ (t.waiting w).Nodup ∧ (t.taken w).Disjoint (t.waiting w) := by
  have hnd : (t.taken w ++ t.waiting w).Nodup := reach_share h w ▸ share_nodup
  exact List.nodup_append'.mp hnd

theorem taken_sorted (h : Reach (step m) Any init t) : (t.taken w).Pairwise (· < ·) := by
  have hs : (t.taken w ++ t.waiting w).Pairwise (· < ·) := reach_share h w ▸ share_sorted
  exact (List.pairwise_append.mp hs).1

end RoundRobin
