/-
A fixed table of slots, each holding an entry or a marker `free`: what it
means to put an entry into a free slot and to clear one, in terms of the
set of entries held.

The slots are indexed by any type; `order` is the order in which they are
searched for a free one.
-/
import Mathlib.Data.Finset.Basic
import Mathlib.Data.Fintype.Defs

namespace SlotTable

variable {ι α : Type*} {free : α} {t : ι → α} {i : ι} {a b : α}

/-- Entry `a` stands in some slot of `S`. -/
def Holds (free : α) (S : ι → Prop) (t : ι → α) (a : α) : Prop := a ≠ free ∧ ∃ i, S i ∧ t i = a

/-- No entry stands in two slots. -/
def Distinct (free : α) (t : ι → α) : Prop := ∀ i j, t i ≠ free → t i = t j → i = j

variable [DecidableEq α]

/-- The first free slot in the search order. -/
def firstFree (free : α) (order : List ι) (t : ι → α) : Option ι := order.find? fun i => t i = free

theorem firstFree_some {order : List ι} (h : firstFree free order t = some i) : t i = free := by
  simpa using List.find?_some h

theorem firstFree_none {order : List ι} (h : firstFree free order t = none) (hi : i ∈ order) :
    t i ≠ free := by
  simpa using List.find?_eq_none.mp h i hi

theorem firstFree_isSome {order : List ι} (hi : i ∈ order) (h : t i = free) : (firstFree free order t).isSome := by
  rw [firstFree, List.find?_isSome]
  exact ⟨i, hi, by simpa using h⟩

/-- The free slots. -/
def frees [Fintype ι] (free : α) (t : ι → α) : Finset ι := Finset.univ.filter fun i => t i = free

theorem mem_frees [Fintype ι] : i ∈ frees free t ↔ t i = free := by simp [frees]

theorem frees_put [Fintype ι] [DecidableEq ι] (ha : a ≠ free) :
    frees free (Function.update t i a) = (frees free t).erase i := by
  ext j
  rw [Finset.mem_erase, mem_frees, mem_frees]
  by_cases hji : j = i
  · subst hji; simp [ha]
  · simp [hji]

omit [DecidableEq α]
variable [DecidableEq ι] {S : ι → Prop}

theorem holds_put (hi : t i = free) (hS : S i) (ha : a ≠ free) :
    Holds free S (Function.update t i a) b ↔ b = a ∨ Holds free S t b := by
  constructor
  · rintro ⟨hb, j, hj, rfl⟩
    by_cases hji : j = i
    · subst hji; simp
    · rw [Function.update_of_ne hji] at hb ⊢
      exact .inr ⟨hb, j, hj, rfl⟩
  · rintro (rfl | ⟨hb, j, hj, rfl⟩)
    · exact ⟨ha, i, hS, by simp⟩
    · have hji : j ≠ i := fun he => hb (he ▸ hi)
      exact ⟨hb, j, hj, by rw [Function.update_of_ne hji]⟩

theorem Distinct.put (hd : Distinct free t) (ha : ∀ j, t j ≠ a) :
    Distinct free (Function.update t i a) := by
  intro j k hj hjk
  by_cases hji : j = i <;> by_cases hki : k = i
  · rw [hji, hki]
  · subst hji
    rw [Function.update_self, Function.update_of_ne hki] at hjk
    exact absurd hjk.symm (ha k)
  · subst hki
    rw [Function.update_self, Function.update_of_ne hji] at hjk
    exact absurd hjk (ha j)
  · rw [Function.update_of_ne hji] at hj
    rw [Function.update_of_ne hji, Function.update_of_ne hki] at hjk
    exact hd j k hj hjk

theorem holds_clear (hd : Distinct free t) (hi : t i ≠ free) :
    Holds free S (Function.update t i free) b ↔ b ≠ t i ∧ Holds free S t b := by
  constructor
  · rintro ⟨hb, j, hj, rfl⟩
    have hji : j ≠ i := by
      rintro rfl
      exact hb (by simp)
    rw [Function.update_of_ne hji] at hb ⊢
    exact ⟨fun he => hji (hd j i hb he), hb, j, hj, rfl⟩
  · rintro ⟨hne, hb, j, hj, rfl⟩
    have hji : j ≠ i := fun he => hne (by rw [he])
    exact ⟨hb, j, hj, by rw [Function.update_of_ne hji]⟩

theorem Distinct.clear (hd : Distinct free t) : Distinct free (Function.update t i free) := by
  intro j k hj hjk
  have hji : j ≠ i := by
    rintro rfl
    exact hj (by simp)
  rw [Function.update_of_ne hji] at hj hjk
  have hki : k ≠ i := by
    rintro rfl
    rw [Function.update_self] at hjk
    exact hj hjk
  rw [Function.update_of_ne hki] at hjk
  exact hd j k hj hjk

end SlotTable
