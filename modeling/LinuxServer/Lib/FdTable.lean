/-
A descriptor table whose numbers are handed out again.

An open file is named by the count of opens before its own (`0, 1, 2, …`),
so it keeps one name while its number `f : φ` is closed and given to a later
file. The fields say what any sequence of opens and closes keeps: a number
refers to the file its latest open made, no two numbers refer to one file,
and a file is either open and never closed, or closed exactly once.
-/
import Mathlib.Data.Fintype.EquivFin
import Mathlib.Logic.Function.Basic

/-- The descriptor table of one process: `ofd f` is the file number `f`
refers to now, `last f` the file its latest open made, `closes n` how often
file `n` was closed. -/
structure FdTable (φ : Type*) where
  ofd : φ → Option Nat
  last : φ → Option Nat
  opened : Nat
  closes : Nat → Nat
  ofd_last : ∀ f n, ofd f = some n → last f = some n
  last_lt : ∀ f n, last f = some n → n < opened
  last_inj : ∀ f g n, last f = some n → last g = some n → f = g
  balance : ∀ n, n < opened →
    ((∃ f, ofd f = some n) ∧ closes n = 0) ∨ ((∀ f, ofd f ≠ some n) ∧ closes n = 1)
  closes_fresh : ∀ n, opened ≤ n → closes n = 0

namespace FdTable

variable {φ : Type*} {t : FdTable φ} {f g : φ} {m n : Nat}

/-- No file open, none ever opened. -/
def empty : FdTable φ where
  ofd _ := none
  last _ := none
  opened := 0
  closes _ := 0
  ofd_last := by simp
  last_lt := by simp
  last_inj := by simp
  balance := by simp
  closes_fresh := by simp

theorem lt_opened (h : t.ofd f = some n) : n < t.opened := t.last_lt f n (t.ofd_last f n h)

theorem ofd_inj (hf : t.ofd f = some n) (hg : t.ofd g = some n) : f = g :=
  t.last_inj f g n (t.ofd_last f n hf) (t.ofd_last g n hg)

theorem closes_of_open (h : t.ofd f = some n) : t.closes n = 0 := by
  rcases t.balance n (lt_opened h) with ⟨_, h0⟩ | ⟨hn, _⟩
  · exact h0
  · exact absurd h (hn f)

theorem closes_le_one (t : FdTable φ) (n : Nat) : t.closes n ≤ 1 := by
  by_cases hn : n < t.opened
  · rcases t.balance n hn with ⟨_, h⟩ | ⟨_, h⟩ <;> omega
  · have := t.closes_fresh n (by omega)
    omega

/-- A file that was opened is closed exactly when no number refers to it. -/
theorem closes_eq_one_iff (hn : n < t.opened) : t.closes n = 1 ↔ ∀ f, t.ofd f ≠ some n := by
  rcases t.balance n hn with ⟨⟨f, hf⟩, h⟩ | ⟨hno, h⟩
  · simp only [h, Nat.zero_ne_one, false_iff, not_forall, not_not]
    exact ⟨f, hf⟩
  · simp [h, hno]

theorem exists_free [Infinite φ] (t : FdTable φ) : ∃ f, t.ofd f = none := by
  by_contra hno
  have hopen : ∀ f, ∃ n, t.ofd f = some n := fun f => Option.ne_none_iff_exists'.mp (not_exists.mp hno f)
  choose file hfile using hopen
  have hinj : Function.Injective fun f => (⟨file f, lt_opened (hfile f)⟩ : Fin t.opened) := by
    intro f g he
    have hfg : file f = file g := congrArg Fin.val he
    exact ofd_inj (hfile f) (hfg ▸ hfile g)
  exact not_injective_infinite_finite _ hinj

variable [DecidableEq φ]

/-- Give the free number `f` to a new file. -/
def alloc (t : FdTable φ) (f : φ) (hf : t.ofd f = none) : FdTable φ where
  ofd := Function.update t.ofd f (some t.opened)
  last := Function.update t.last f (some t.opened)
  opened := t.opened + 1
  closes := t.closes
  ofd_last g n h := by
    by_cases hg : g = f
    · subst hg; simpa using h
    · simp only [Function.update_of_ne hg] at h ⊢; exact t.ofd_last g n h
  last_lt g n h := by
    by_cases hg : g = f
    · subst hg; simp at h; omega
    · simp only [Function.update_of_ne hg] at h; have := t.last_lt g n h; omega
  last_inj g g' n h h' := by
    by_cases hg : g = f <;> by_cases hg' : g' = f
    · rw [hg, hg']
    · subst hg
      simp only [Function.update_self, Option.some.injEq, Function.update_of_ne hg'] at h h'
      have := t.last_lt g' n h'; omega
    · subst hg'
      simp only [Function.update_self, Option.some.injEq, Function.update_of_ne hg] at h h'
      have := t.last_lt g n h; omega
    · simp only [Function.update_of_ne hg, Function.update_of_ne hg'] at h h'
      exact t.last_inj g g' n h h'
  balance n hn := by
    by_cases hlt : n < t.opened
    · rcases t.balance n hlt with ⟨⟨g, hg⟩, h⟩ | ⟨hno, h⟩
      · refine .inl ⟨⟨g, ?_⟩, h⟩
        have hne : g ≠ f := fun he => by rw [he, hf] at hg; cases hg
        rw [Function.update_of_ne hne, hg]
      · refine .inr ⟨fun g => ?_, h⟩
        by_cases hg : g = f
        · subst hg; simp; omega
        · rw [Function.update_of_ne hg]; exact hno g
    · obtain rfl : n = t.opened := by omega
      exact .inl ⟨⟨f, by simp⟩, t.closes_fresh _ (Nat.le_refl _)⟩
  closes_fresh n hn := t.closes_fresh n (by omega)

/-- `close(f)`: a number that refers to no file is left alone. -/
def close (t : FdTable φ) (f : φ) : FdTable φ :=
  match hf : t.ofd f with
  | none => t
  | some m =>
    { t with
      ofd := Function.update t.ofd f none
      closes := Function.update t.closes m 1
      ofd_last := fun g n h => by
        by_cases hg : g = f
        · subst hg; simp at h
        · rw [Function.update_of_ne hg] at h; exact t.ofd_last g n h
      balance := fun n hn => by
        by_cases hnm : n = m
        · subst hnm
          refine .inr ⟨fun g hg => ?_, by simp⟩
          by_cases hgf : g = f
          · subst hgf; simp at hg
          · rw [Function.update_of_ne hgf] at hg; exact hgf (ofd_inj hg hf)
        · rw [Function.update_of_ne hnm]
          rcases t.balance n hn with ⟨⟨g, hg⟩, h⟩ | ⟨hno, h⟩
          · refine .inl ⟨⟨g, ?_⟩, h⟩
            have hgf : g ≠ f := fun he => by
              rw [he, hf, Option.some.injEq] at hg; exact hnm hg.symm
            rw [Function.update_of_ne hgf, hg]
          · refine .inr ⟨fun g => ?_, h⟩
            by_cases hg : g = f
            · subst hg; simp
            · rw [Function.update_of_ne hg]; exact hno g
      closes_fresh := fun n hn => by
        have := lt_opened hf
        rw [Function.update_of_ne (by omega)]
        exact t.closes_fresh n hn }

/-! ## What opens and closes change -/

@[simp] theorem alloc_ofd_self (hf : t.ofd f = none) : (t.alloc f hf).ofd f = some t.opened := by
  simp [alloc]

theorem alloc_ofd_of_ne (hf : t.ofd f = none) (h : g ≠ f) : (t.alloc f hf).ofd g = t.ofd g := by
  simp [alloc, h]

@[simp] theorem alloc_opened (hf : t.ofd f = none) : (t.alloc f hf).opened = t.opened + 1 := rfl
@[simp] theorem alloc_closes (hf : t.ofd f = none) : (t.alloc f hf).closes = t.closes := rfl

theorem alloc_ofd_old (hf : t.ofd f = none) (h : t.ofd g = some n) : (t.alloc f hf).ofd g = some n := by
  rw [alloc_ofd_of_ne hf (fun he => by rw [he, hf] at h; cases h), h]

theorem alloc_ofd_cases (hf : t.ofd f = none) (h : (t.alloc f hf).ofd g = some n) :
    (g = f ∧ n = t.opened) ∨ (g ≠ f ∧ t.ofd g = some n) := by
  by_cases hg : g = f
  · subst hg; simp at h; exact .inl ⟨rfl, h.symm⟩
  · rw [alloc_ofd_of_ne hf hg] at h; exact .inr ⟨hg, h⟩

theorem close_of_none (hf : t.ofd f = none) : t.close f = t := by
  unfold close
  split
  · rfl
  · next h => rw [hf] at h; cases h

@[simp] theorem close_opened : (t.close f).opened = t.opened := by
  unfold close; split <;> rfl

@[simp] theorem close_ofd_self : (t.close f).ofd f = none := by
  unfold close
  split
  · assumption
  · simp

theorem close_ofd_of_ne (h : g ≠ f) : (t.close f).ofd g = t.ofd g := by
  unfold close
  split
  · rfl
  · simp [h]

theorem close_closes (hf : t.ofd f = some m) : (t.close f).closes = Function.update t.closes m 1 := by
  unfold close
  split
  · next h => rw [hf] at h; cases h
  · next h => rw [hf] at h; cases h; rfl

theorem close_closes_mono (h : t.closes n = 1) : (t.close f).closes n = 1 := by
  cases hf : t.ofd f with
  | none => rw [close_of_none hf, h]
  | some m =>
    have hnm : n ≠ m := fun he => by rw [he, closes_of_open hf] at h; cases h
    rw [close_closes hf, Function.update_of_ne hnm, h]

/-- What is open after a close was open before, under another number. -/
theorem close_ofd_some : (t.close f).ofd g = some n ↔ g ≠ f ∧ t.ofd g = some n := by
  by_cases hg : g = f
  · subst hg; simp
  · rw [close_ofd_of_ne hg]; simp [hg]

theorem close_ofd_keep (hf : t.ofd f = some m) (hg : t.ofd g = some n) (hne : n ≠ m) :
    (t.close f).ofd g = some n := by
  have hgf : g ≠ f := by
    intro he
    rw [he, hf, Option.some.injEq] at hg
    exact hne hg.symm
  rw [close_ofd_of_ne hgf, hg]

end FdTable
