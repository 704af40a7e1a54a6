/-
A counter of 32 bits with a sign, incremented from 0: past 2^31 - 1 it goes
on at -2^31, so it knows how often it was incremented only up to a multiple
of 2^32. One that counts the items of a list is no count of the distinct ones
but where no item comes twice, or they come twice often enough.
-/
import Mathlib.Algebra.Group.Int.Defs
import Mathlib.Algebra.Group.Nat.Defs
import Mathlib.Data.Finset.Card
import Mathlib.Logic.Function.Iterate

namespace AtomicInt

/-- What a `std::atomic<int>` holds after `n` increments from 0. -/
def atomicInt (n : Nat) : Int := (n + 2 ^ 31) % 2 ^ 32 - 2 ^ 31

/-- `++` on a `std::atomic<int>`. -/
def atomicIncr (i : Int) : Int := (i + 1 + 2 ^ 31) % 2 ^ 32 - 2 ^ 31

@[simp] theorem atomicInt_zero : atomicInt 0 = 0 := rfl

theorem atomicIncr_atomicInt (n : Nat) : atomicIncr (atomicInt n) = atomicInt (n + 1) := by
  unfold atomicIncr atomicInt
  have hsum : ((n + 2 ^ 31 : Int) % 2 ^ 32 - 2 ^ 31) + 1 + 2 ^ 31 = (n + 2 ^ 31) % 2 ^ 32 + 1 := by omega
  rw [hsum, Int.emod_add_emod, Int.natCast_add_one, Int.add_right_comm]

theorem atomicIncr_iterate (k n : Nat) : atomicIncr^[k] (atomicInt n) = atomicInt (n + k) := by
  induction k with
  | zero => rw [Function.iterate_zero, id, Nat.add_zero]
  | succ k ih => rw [Function.iterate_succ_apply', ih, atomicIncr_atomicInt, Nat.add_assoc]

theorem atomicInt_of_lt {n : Nat} (h : n < 2 ^ 31) : atomicInt n = n := by
  unfold atomicInt
  omega

theorem atomicInt_eq {m n : Nat} (h : n ≤ m) : atomicInt m = n ↔ n < 2 ^ 31 ∧ 2 ^ 32 ∣ m - n := by
  unfold atomicInt
  omega

variable {α : Type*} [DecidableEq α]

theorem atomicInt_card_iff (l : List α) : atomicInt l.length = l.toFinset.card ↔
    l.toFinset.card < 2 ^ 31 ∧ 2 ^ 32 ∣ l.length - l.toFinset.card :=
  atomicInt_eq (List.toFinset_card_le l)

theorem atomicInt_card_nodup {l : List α} (h : l.length < 2 ^ 31) :
    atomicInt l.length = l.toFinset.card ↔ l.Nodup := by
  rw [atomicInt_of_lt h, Int.natCast_inj, eq_comm]
  exact Multiset.toFinset_card_eq_card_iff_nodup

end AtomicInt
