/-
The fork loop of `SrvProcessPool::run` (epoll_half_sync_reactive_proc_pool_server.hpp)
and the ends of the pool's socketpairs each process has open after it.

A process is its descriptor table, as far as those ends go, and its copy of
`_sub_process[i].m_pipefd`; `fork` copies both. In pass `i` the parent closes
`m_pipefd[1]` and the child `m_pipefd[0]` of pipe `i`, and what the child
inherited of the pipes before stays as it is.

Only `socketpair` opens files here, two a pass, so the end `m_pipefd[side]`
of pipe `i` is file `2 * i + side` (`pipeEnd`).
-/
import LinuxServer.Lib.FdTable
import LinuxServer.Lib.Lts

namespace LinuxServer.ProcPool.Fork

open Lts

/-- `MAX_PROCESS_NUMBER`. -/
def maxProcessNumber : Nat := 16

/-- The end `_sub_process[i].m_pipefd[side]` was opened as. -/
def pipeEnd (i side : Nat) : Nat := 2 * i + side

structure Proc where
  kern : FdTable Int
  mPipefd : Nat → Int × Int

/-- The end is open in the process. -/
def Proc.Holds (p : Proc) (e : Nat) : Prop := ∃ fd, p.kern.ofd fd = some e

/-- `socketpair` can have returned `fds`. -/
def Proc.Free (p : Proc) (fds : Int × Int) : Prop :=
  p.kern.ofd fds.1 = none ∧ p.kern.ofd fds.2 = none ∧ fds.2 ≠ fds.1

instance (p : Proc) (fds : Int × Int) : Decidable (p.Free fds) := inferInstanceAs (Decidable (_ ∧ _ ∧ _))

theorem Proc.Free.second {p : Proc} {fds : Int × Int} (h : p.Free fds) :
    (p.kern.alloc fds.1 h.1).ofd fds.2 = none :=
  (FdTable.alloc_ofd_of_ne h.1 h.2.2).trans h.2.1

/-- `socketpair(PF_UNIX, SOCK_STREAM, 0, _sub_process[i].m_pipefd)`. -/
def Proc.socketpair (p : Proc) (i : Nat) (fds : Int × Int) (h : p.Free fds) : Proc where
  kern := (p.kern.alloc fds.1 h.1).alloc fds.2 h.second
  mPipefd := Function.update p.mPipefd i fds

/-- `close(fd)`. -/
def Proc.close (p : Proc) (fd : Int) : Proc := { p with kern := p.kern.close fd }

/-- The parent, and the children in the order they were forked. -/
structure Procs where
  parent : Proc
  children : List Proc

/-- Before the loop. -/
def init : Procs := ⟨⟨.empty, fun _ => (0, 0)⟩, []⟩

/-- A pass of the loop: `socketpair`, `fork`, and the `close` of each process. -/
def forkPass (s : Procs) (fds : Int × Int) : Option Procs :=
  if h : s.parent.Free fds then
    let i := s.children.length
    let p := s.parent.socketpair i fds h
    some ⟨p.close (p.mPipefd i).2, s.children ++ [p.close (p.mPipefd i).1]⟩
  else none

/-- The loop of `run`, up to the calls of `run_child` and `run_parent`;
`fds` is what each `socketpair` returned. `none` at the failed `assert`. -/
def forkLoop (processNumber : Nat) (fds : List (Int × Int)) : Option Procs :=
  if 0 < processNumber ∧ processNumber ≤ maxProcessNumber ∧ fds.length = processNumber then
    run forkPass init fds
  else none

variable {p : Proc} {i k m n N : Nat} {fd : Int} {fds : Int × Int} {s s' : Procs}

theorem Proc.holds_close (hfd : p.kern.ofd fd = some m) : (p.close fd).Holds n ↔ n ≠ m ∧ p.Holds n := by
  constructor
  · rintro ⟨g, hg⟩
    obtain ⟨hne, hg⟩ := FdTable.close_ofd_some.mp hg
    refine ⟨?_, g, hg⟩
    rintro rfl
    exact hne (FdTable.ofd_inj hg hfd)
  · rintro ⟨hne, g, hg⟩
    exact ⟨g, FdTable.close_ofd_keep hfd hg hne⟩

theorem Proc.socketpair_ofd (h : p.Free fds) :
    (p.socketpair i fds h).mPipefd i = fds ∧
    (p.socketpair i fds h).kern.ofd fds.1 = some p.kern.opened ∧
    (p.socketpair i fds h).kern.ofd fds.2 = some (p.kern.opened + 1) := by
  refine ⟨by simp [socketpair], ?_, by simp [socketpair]⟩
  exact FdTable.alloc_ofd_old h.second (FdTable.alloc_ofd_self h.1)

theorem Proc.holds_socketpair (h : p.Free fds) : (p.socketpair i fds h).Holds n ↔
    n = p.kern.opened ∨ n = p.kern.opened + 1 ∨ p.Holds n := by
  obtain ⟨-, h1, h2⟩ := Proc.socketpair_ofd (i := i) h
  constructor
  · rintro ⟨g, hg⟩
    rcases FdTable.alloc_ofd_cases h.second hg with ⟨-, rfl⟩ | ⟨-, hg⟩
    · exact .inr (.inl rfl)
    rcases FdTable.alloc_ofd_cases h.1 hg with ⟨-, rfl⟩ | ⟨-, hg⟩
    · exact .inl rfl
    · exact .inr (.inr ⟨g, hg⟩)
  · rintro (rfl | rfl | ⟨g, hg⟩)
    · exact ⟨fds.1, h1⟩
    · exact ⟨fds.2, h2⟩
    · exact ⟨g, FdTable.alloc_ofd_old h.second (FdTable.alloc_ofd_old h.1 hg)⟩

/-- The ends of each process after `i` passes. -/
structure Inv (s : Procs) : Prop where
  opened : s.parent.kern.opened = 2 * s.children.length
  parent : ∀ n, s.parent.Holds n ↔ ∃ i < s.children.length, n = pipeEnd i 0
  child : ∀ k p, s.children[k]? = some p → ∀ n, p.Holds n ↔ n = pipeEnd k 1 ∨ ∃ i < k, n = pipeEnd i 0

theorem init_inv : Inv init where
  opened := rfl
  parent n := by simp [init, Proc.Holds, FdTable.empty]
  child k p h := by simp [init] at h

/-- The ends `m_pipefd[0]` are none of the new pipe's before its pass. -/
theorem pipeEnd_ne {side : Nat} (hi : i < k) : pipeEnd i 0 ≠ pipeEnd k side := by
  unfold pipeEnd
  omega

theorem forkPass_inv (hs : Inv s) (h : forkPass s fds = some s') : Inv s' := by
  unfold forkPass at h
  split at h
  · next hfree =>
    cases h
    obtain ⟨hfds, h0, h1⟩ := Proc.socketpair_ofd (i := s.children.length) hfree
    have hopened : s.parent.kern.opened = pipeEnd s.children.length 0 := hs.opened
    have hopened' : s.parent.kern.opened + 1 = pipeEnd s.children.length 1 := by rw [hs.opened]; rfl
    rw [hopened] at h0
    rw [hopened'] at h1
    -- What is open between the `fork` and the `close`, in both processes.
    have hboth : ∀ n, (s.parent.socketpair s.children.length fds hfree).Holds n ↔
        n = pipeEnd s.children.length 0 ∨ n = pipeEnd s.children.length 1 ∨
        ∃ i < s.children.length, n = pipeEnd i 0 := fun n => by
      rw [Proc.holds_socketpair, hs.parent, hopened', hopened]
    have hsides : pipeEnd s.children.length 0 ≠ pipeEnd s.children.length 1 := by simp [pipeEnd]
    refine ⟨?_, fun n => ?_, fun k p hk n => ?_⟩
    · simp only [Proc.close, FdTable.close_opened, Proc.socketpair, FdTable.alloc_opened, List.length_append,
        List.length_singleton, hs.opened]
      omega
    · rw [hfds, Proc.holds_close h1, hboth, List.length_append, List.length_singleton, Nat.exists_lt_succ_right]
      constructor
      · rintro ⟨hne, rfl | rfl | hold⟩
        · exact .inr rfl
        · exact absurd rfl hne
        · exact .inl hold
      · rintro (⟨i, hi, rfl⟩ | rfl)
        · exact ⟨pipeEnd_ne hi, .inr (.inr ⟨i, hi, rfl⟩)⟩
        · exact ⟨hsides, .inl rfl⟩
    · rcases Nat.lt_trichotomy k s.children.length with hlt | rfl | hgt
      · rw [List.getElem?_append_left hlt] at hk
        exact hs.child k p hk n
      · simp only [List.getElem?_concat_length, Option.some.injEq] at hk
        subst hk
        rw [hfds, Proc.holds_close h0, hboth]
        constructor
        · rintro ⟨hne, rfl | rfl | hold⟩
          · exact absurd rfl hne
          · exact .inl rfl
          · exact .inr hold
        · rintro (rfl | ⟨i, hi, rfl⟩)
          · exact ⟨hsides.symm, .inr (.inl rfl)⟩
          · exact ⟨pipeEnd_ne hi, .inr (.inr ⟨i, hi, rfl⟩)⟩
      · rw [List.getElem?_eq_none (by simp; omega)] at hk
        cases hk
  · cases h

theorem run_inv {fds : List (Int × Int)} : ∀ {s s' : Procs}, Inv s → run forkPass s fds = some s' →
    Inv s' ∧ s'.children.length = s.children.length + fds.length := by
  induction fds with
  | nil =>
    intro s s' hs h
    cases h
    exact ⟨hs, rfl⟩
  | cons fd fds ih =>
    intro s s' hs h
    obtain ⟨s₁, h₁, h⟩ := Option.bind_eq_some_iff.mp h
    obtain ⟨hs', hlen⟩ := ih (forkPass_inv hs h₁) h
    have hlen₁ : s₁.children.length = s.children.length + 1 := by
      unfold forkPass at h₁
      split at h₁
      · cases h₁; simp
      · cases h₁
    exact ⟨hs', by rw [hlen, hlen₁, List.length_cons]; omega⟩

/-- **Who has which end.** For every number of processes, after the loop the
parent holds the `m_pipefd[0]` of every pipe and nothing else. Child `k` holds
its own `m_pipefd[1]`, and the `m_pipefd[0]` of each pipe made before its own;
so its own end is all it holds exactly when `k` is 0. -/
theorem forkLoop_ends {fds : List (Int × Int)} (h : forkLoop N fds = some s) :
    (∀ n, s.parent.Holds n ↔ ∃ i < N, n = pipeEnd i 0) ∧ s.children.length = N ∧
    ∀ k p, s.children[k]? = some p → (∀ n, p.Holds n ↔ n = pipeEnd k 1 ∨ ∃ i < k, n = pipeEnd i 0) ∧
      ((∀ n, p.Holds n ↔ n = pipeEnd k 1) ↔ k = 0) := by
  unfold forkLoop at h
  split at h
  · next hN =>
    obtain ⟨hs, hlen⟩ := run_inv init_inv h
    have hlenN : s.children.length = N := by simpa [init, hN.2.2] using hlen
    refine ⟨fun n => ?_, hlenN, fun k p hk => ⟨hs.child k p hk, fun hown => ?_, ?_⟩⟩
    · rw [hs.parent, hlenN]
    · by_contra hk0
      have hfirst : p.Holds (pipeEnd 0 0) := (hs.child k p hk _).mpr (.inr ⟨0, by omega, rfl⟩)
      exact pipeEnd_ne (by omega : 0 < k) ((hown _).mp hfirst)
    · rintro rfl
      intro n
      rw [hs.child 0 p hk]
      simp
  · cases h

/-- Two children; the second `socketpair` is given again what the parent closed. -/
def demoFds : List (Int × Int) := [(5, 6), (6, 7)]

theorem demoFds_fork : (forkLoop 2 demoFds).isSome := by decide +kernel

/-- `forkLoop_ends` for `demoFds`. -/
theorem forkLoop_ends_demo :
    let s := (forkLoop 2 demoFds).get demoFds_fork
    (∀ n, s.parent.Holds n ↔ ∃ i < 2, n = pipeEnd i 0) ∧ s.children.length = 2 ∧
    ∀ k p, s.children[k]? = some p → (∀ n, p.Holds n ↔ n = pipeEnd k 1 ∨ ∃ i < k, n = pipeEnd i 0) ∧
      ((∀ n, p.Holds n ↔ n = pipeEnd k 1) ↔ k = 0) :=
  forkLoop_ends (Option.some_get demoFds_fork).symm

/-- The second child enters `run_child` with the parent's end of the first child's pipe on 5. -/
theorem second_child_keeps_end : ∃ s p, forkLoop 2 demoFds = some s ∧ s.children[1]? = some p ∧
    p.kern.ofd 5 = some (pipeEnd 0 0) :=
  ⟨_, _, (Option.some_get demoFds_fork).symm, rfl, rfl⟩

end LinuxServer.ProcPool.Fork
