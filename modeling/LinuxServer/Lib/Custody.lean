/-
Items that go from a source to one of `m` holders, and from the holder on.
Each holder has at most one at a time, and the holders come to move in any
order.

`Accounted` says that what was taken from the source is what was given on
and what the holders have, each item as often as it was taken. The order in
which items are given on is not the order in which they were taken.
-/
import Mathlib.Algebra.BigOperators.Group.Finset.Basic
import Mathlib.Algebra.Order.Group.Multiset
import Mathlib.Tactic.Abel

namespace Custody

variable {σ β : Type*} {m w : Nat} {F : σ → Option β} {p p' : Nat → σ} {q : σ}
  {taken given x y : List β}

/-- What the `m` holders have, `F` being what a holder in a given place has. -/
def inHand (m : Nat) (F : σ → Option β) (p : Nat → σ) : Multiset β :=
  ∑ w ∈ Finset.range m, ((F (p w)).toList : Multiset β)

/-- What was taken is with a holder or was given on. -/
def Accounted (m : Nat) (F : σ → Option β) (p : Nat → σ) (taken given : List β) : Prop :=
  (taken : Multiset β) = given + inHand m F p

theorem inHand_eq_zero (h : ∀ w < m, F (p w) = none) : inHand m F p = 0 := by
  refine Finset.sum_eq_zero fun w hw => ?_
  rw [h w (Finset.mem_range.mp hw)]
  rfl

theorem inHand_congr (h : ∀ w < m, F (p' w) = F (p w)) : inHand m F p' = inHand m F p := by
  refine Finset.sum_congr rfl fun w hw => ?_
  rw [h w (Finset.mem_range.mp hw)]

theorem inHand_update (hw : w < m) :
    inHand m F (Function.update p w q) + (F (p w)).toList = inHand m F p + (F q).toList := by
  have hmem : w ∈ Finset.range m := Finset.mem_range.mpr hw
  have hrest : ∑ v ∈ (Finset.range m).erase w, ((F (Function.update p w q v)).toList : Multiset β) =
      ∑ v ∈ (Finset.range m).erase w, ((F (p v)).toList : Multiset β) := by
    refine Finset.sum_congr rfl fun v hv => ?_
    rw [Function.update_of_ne (Finset.ne_of_mem_erase hv)]
  unfold inHand
  rw [← Finset.add_sum_erase _ _ hmem, ← Finset.add_sum_erase _ (fun v => ((F (p v)).toList : Multiset β)) hmem,
    hrest, Function.update_self]
  abel

theorem Accounted.start (h : ∀ w < m, F (p w) = none) : Accounted m F p [] [] := by
  unfold Accounted
  rw [inHand_eq_zero h, add_zero]

theorem Accounted.congr (h : Accounted m F p taken given) (hp : ∀ w < m, F (p' w) = F (p w)) :
    Accounted m F p' taken given := by
  unfold Accounted
  rw [inHand_congr hp]
  exact h

/-- **One holder moves**: it takes `x`, gives `y` on, and has the rest. -/
theorem Accounted.update (h : Accounted m F p taken given) (hw : w < m)
    (hmove : (x : Multiset β) + (F (p w)).toList = y + (F q).toList) :
    Accounted m F (Function.update p w q) (taken ++ x) (given ++ y) := by
  unfold Accounted at h ⊢
  have hhand := inHand_update (F := F) (p := p) (q := q) hw
  have hsum : (taken : Multiset β) + x + (F (p w)).toList =
      given + y + inHand m F (Function.update p w q) + (F (p w)).toList := by
    calc (taken : Multiset β) + x + (F (p w)).toList
        = given + inHand m F p + (x + (F (p w)).toList) := by rw [h, add_assoc]
      _ = given + y + (inHand m F p + (F q).toList) := by rw [hmove]; abel
      _ = given + y + inHand m F (Function.update p w q) + (F (p w)).toList := by rw [← hhand]; abel
  rw [← Multiset.coe_add, ← Multiset.coe_add]
  exact add_right_cancel hsum

end Custody
