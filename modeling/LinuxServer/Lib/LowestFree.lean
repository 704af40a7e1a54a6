/-
The lowest number not in use: what `open` and `accept` are documented to
return, and how large it can get.
-/
import Mathlib.Algebra.Order.Group.Nat
import Mathlib.Data.Int.Interval
import Mathlib.Tactic.MkIffOfInductiveProp

/-- `f` is the first of `0, 1, 2, …` that is not in use. -/
@[mk_iff]
structure LowestFree (used : Int → Prop) (f : Int) : Prop where
  nonneg : 0 ≤ f
  free : ¬ used f
  below : ∀ k < f.toNat, used k

namespace LowestFree

variable {used : Int → Prop} {f g B : Int} {T : Finset Int}

instance [DecidablePred used] (f : Int) : Decidable (LowestFree used f) :=
  decidable_of_iff' _ (lowestFree_iff used f)

theorem used_of_lt (h : LowestFree used f) (h0 : 0 ≤ g) (hlt : g < f) : used g := by
  have hk := h.below g.toNat (by omega)
  rwa [Int.toNat_of_nonneg h0] at hk

/-- **Pigeonhole.** When what is in use lies below `B` or in `T`, the lowest
free number is at most `B` and the size of `T`. -/
theorem le_add_card (h : LowestFree used f) (hB : 0 ≤ B) (hused : ∀ g, used g → g < B ∨ g ∈ T) :
    f ≤ B + T.card := by
  have hsub : Finset.Ico B f ⊆ T := by
    intro g hg
    obtain ⟨hBg, hgf⟩ := Finset.mem_Ico.mp hg
    rcases hused g (h.used_of_lt (by omega) hgf) with hlt | hT
    · omega
    · exact hT
  have hcard := Finset.card_le_card hsub
  rw [Int.card_Ico] at hcard
  omega

end LowestFree
