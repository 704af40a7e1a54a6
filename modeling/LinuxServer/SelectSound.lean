/-
What holds of `serv_select` in every run: at the top of each round the
table is the set of open clients (`TableOk`), and the calls of a round go
to the connections `select` reported in it (`RoundOk`).

The scan of a round's result is a fold over the slots; `ScanOk` is what it
keeps, relative to the state `select` was called in. Its point is
`ScanOk.stale`: accepting and closing change what a number refers to, but
never so that a number reported in this round comes to mean another
connection before the scan is over.
-/
import Mathlib.Data.List.Nodup
import LinuxServer.Select

namespace LinuxServer.Select

open SlotTable Lts

/-- The call closes connection `n`. -/
def Call.closes (n : Nat) : Call → Bool
  | .close _ _ conn => conn == some n
  | .accept _ _ | .read _ _ _ => false

/-- The call is the `close` that frees slot `i`. -/
def Call.frees (i : Slot) : Call → Bool
  | .close slot _ _ => slot == some i
  | .accept _ _ | .read _ _ _ => false

/-- The call is the `serv_read` for slot `i`. -/
def Call.reads (i : Slot) : Call → Bool
  | .read slot _ _ => slot == i
  | .accept _ _ | .close _ _ _ => false

section
variable {i j : Slot} {slot : Option Slot} {f : Int} {m n : Nat} {conn : Option Nat}

@[simp] theorem Call.closes_accept : (Call.accept f m).closes n = false := rfl
@[simp] theorem Call.closes_read : (Call.read i f conn).closes n = false := rfl
@[simp] theorem Call.closes_close : (Call.close slot f conn).closes n = (conn == some n) := rfl
@[simp] theorem Call.frees_accept : (Call.accept f m).frees i = false := rfl
@[simp] theorem Call.frees_read : (Call.read j f conn).frees i = false := rfl
@[simp] theorem Call.frees_close : (Call.close slot f conn).frees i = (slot == some i) := rfl
@[simp] theorem Call.reads_accept : (Call.accept f m).reads i = false := rfl
@[simp] theorem Call.reads_read : (Call.read j f conn).reads i = (j == i) := rfl
@[simp] theorem Call.reads_close : (Call.close slot f conn).reads i = false := rfl

end

/-- How often connection `n` was closed so far. -/
def closeCalls (s : St) (n : Nat) : Nat := s.calls.countP fun c => c.closes n

/-- At the top of a round: the listening socket is in slot 0, no descriptor
is in two slots, and the other slots hold exactly the open clients. -/
structure TableOk (c : Cfg) (s : St) : Prop where
  listen : s.fds 0 = c.listenFd
  distinct : Distinct (-1) s.fds
  clients : ∀ f, Holds (-1) (· ≠ 0) s.fds f ↔ ∃ n, s.kern.ofd f = some n

/-- What the round that took `s` to `s'` with the calls `round` did. -/
structure RoundOk (s : St) (rfds : Finset Int) (s' : St) (round : List Call) : Prop where
  calls : s'.calls = s.calls ++ round
  /-- Every read is of a descriptor reported in this round, and reaches the
  connection it named when `select` was called. -/
  read : ∀ i f conn, Call.read i f conn ∈ round →
    f ∈ rfds ∧ s.fds i = f ∧ ∃ n, conn = some n ∧ s.kern.ofd f = some n
  /-- No slot is read after it was freed. -/
  freed : round.Pairwise fun a b => ∀ i, a.frees i → ¬ b.reads i
  /-- A connection accepted into a full table is closed. -/
  refused : ∀ f n, (∀ i, s.fds i ≠ -1) → Call.accept f n ∈ round → s'.kern.closes n = 1

/-- `TableOk`, with what its induction needs besides: clients are never the
process's own descriptors, and the calls account for the closes. -/
structure Inv (c : Cfg) (s : St) : Prop extends TableOk c s where
  notOwn : ∀ f n, s.kern.ofd f = some n → c.own f = false ∧ 0 ≤ f
  account : ∀ n, closeCalls s n = s.kern.closes n
  noStray : ∀ slot f, Call.close slot f none ∉ s.calls

theorem Inv.entry {c : Cfg} {s : St} (h : Inv c s) {i : Slot} (hi : i ≠ 0) (hne : s.fds i ≠ -1) :
    ∃ n, s.kern.ofd (s.fds i) = some n := (h.clients _).mp ⟨hne, i, hi, rfl⟩

theorem init_inv (c : Cfg) : Inv c (init c) where
  listen := by simp [init]
  distinct := by
    have hd : Distinct (-1) fun _ : Slot => (-1 : Int) := by simp [Distinct]
    exact hd.put fun _ he => c.listen_ne he.symm
  clients f := by
    have hno : ¬ Holds (-1) (· ≠ 0) (init c).fds f := by
      rintro ⟨hne, i, hi, rfl⟩
      simp [init, Function.update_of_ne hi] at hne
    simp only [hno, false_iff, not_exists]
    simp [init, FdTable.empty]
  notOwn := by simp [init, FdTable.empty]
  account := by simp [init, FdTable.empty, closeCalls]
  noStray := by simp [init]

theorem Inv.raise {c : Cfg} {s : St} (h : Inv c s) (m : Int) : Inv c { s with maxfd := m } :=
  ⟨⟨h.listen, h.distinct, h.clients⟩, h.notOwn, h.account, h.noStray⟩

theorem Inv.asked {c : Cfg} {s : St} (h : Inv c s) {f : Int} (hf : f ∈ fdSet s.fds)
    (hne : f ≠ c.listenFd) : ∃ n, s.kern.ofd f = some n := by
  simp only [fdSet, Finset.mem_filter, Finset.mem_image, Finset.mem_univ, true_and] at hf
  obtain ⟨⟨i, rfl⟩, hfree⟩ := hf
  have hi : i ≠ 0 := fun he => hne (he ▸ h.listen)
  exact h.entry hi hfree

/-! ## Accepting -/

/-- What `acceptClient` can do: nothing, put the client into a free slot, or
close it because the table is full. -/
theorem acceptClient_cases {c : Cfg} {s s' : St} {acc : Int} (h : acceptClient c s acc = some s') :
    (acc < 0 ∧ s' = s) ∨ ∃ hf : s.kern.ofd acc = none, c.own acc = false ∧ 0 ≤ acc ∧
      ((∃ i, s.fds i = -1 ∧ s' = { s with
          fds := Function.update s.fds i acc
          kern := s.kern.alloc acc hf
          calls := s.calls ++ [.accept acc s.kern.opened] }) ∨
       ((∀ i, s.fds i ≠ -1) ∧ s' = { s with
          kern := (s.kern.alloc acc hf).close acc
          calls := s.calls ++ [.accept acc s.kern.opened, .close none acc (some s.kern.opened)] })) := by
  unfold acceptClient at h
  split at h
  · next hneg => exact .inl ⟨hneg, (Option.some.inj h).symm⟩
  split at h
  · next hneg hfree =>
    refine .inr ⟨hfree.1, hfree.2, by omega, ?_⟩
    split at h
    · next i hi => exact .inl ⟨i, firstFree_some hi, (Option.some.inj h).symm⟩
    · next hnone =>
      refine .inr ⟨fun i => firstFree_none hnone (List.mem_finRange i), ?_⟩
      rw [← Option.some.inj h]
      simp
  · cases h

theorem acceptClient_inv {c : Cfg} {s s' : St} {acc : Int} (hs : Inv c s)
    (h : acceptClient c s acc = some s') : Inv c s' := by
  obtain ⟨-, rfl⟩ | ⟨hf, hown, hacc, ⟨i, hi, rfl⟩ | ⟨-, rfl⟩⟩ := acceptClient_cases h
  · exact hs
  · have hi0 : i ≠ 0 := by
      rintro rfl
      exact c.listen_ne (hs.listen ▸ hi)
    have habs : ∀ j, s.fds j ≠ acc := by
      rintro j rfl
      by_cases hj : j = 0
      · rw [hj, hs.listen, c.listen_own] at hown; cases hown
      · obtain ⟨n, hn⟩ := hs.entry hj (by omega)
        rw [hf] at hn; cases hn
    refine ⟨⟨?_, hs.distinct.put habs, fun f => ?_⟩, fun f n hn => ?_, fun n => ?_,
      by simpa using hs.noStray⟩
    · exact (Function.update_of_ne hi0.symm _ _).trans hs.listen
    · rw [holds_put hi hi0 (by omega), hs.clients]
      by_cases hfa : f = acc
      · subst hfa; simp
      · simp [FdTable.alloc_ofd_of_ne hf hfa, hfa]
    · rcases FdTable.alloc_ofd_cases hf hn with ⟨rfl, -⟩ | ⟨-, h⟩
      · exact ⟨hown, hacc⟩
      · exact hs.notOwn f n h
    · simpa [closeCalls, List.countP_append] using hs.account n
  · refine ⟨⟨hs.listen, hs.distinct, fun f => ?_⟩, fun f n hn => ?_, fun n => ?_,
      by simpa using hs.noStray⟩
    · simp only [FdTable.close_ofd_some, hs.clients]
      by_cases hfa : f = acc
      · subst hfa; simp [hf]
      · simp [FdTable.alloc_ofd_of_ne hf hfa, hfa]
    · obtain ⟨hne, hn⟩ := FdTable.close_ofd_some.mp hn
      rw [FdTable.alloc_ofd_of_ne hf hne] at hn
      exact hs.notOwn f n hn
    · have hold := hs.account n
      unfold closeCalls at hold ⊢
      rw [List.countP_append, hold, FdTable.close_closes (FdTable.alloc_ofd_self hf), FdTable.alloc_closes]
      by_cases hn : n = s.kern.opened
      · subst hn
        simp [s.kern.closes_fresh _ (Nat.le_refl _)]
      · simp [Ne.symm hn, Function.update_of_ne hn]

/-! ## The scan of a round's result -/

/-- What the loop's body can do to slot `i`: skip it, read and keep its
client, or read it and close it. -/
theorem readSlot_cases (rfds : Finset Int) (reads : Slot → ReadResult) (s : St) (i : Slot) :
    readSlot rfds reads s i = s ∨ s.fds i ≠ -1 ∧ s.fds i ∈ rfds ∧
      (readSlot rfds reads s i =
          { s with calls := s.calls ++ [.read i (s.fds i) (s.kern.ofd (s.fds i))] } ∨
       readSlot rfds reads s i = { s with
          fds := Function.update s.fds i (-1)
          kern := s.kern.close (s.fds i)
          calls := s.calls ++ [.read i (s.fds i) (s.kern.ofd (s.fds i)),
            .close (some i) (s.fds i) (s.kern.ofd (s.fds i))] }) := by
  unfold readSlot
  split
  · next h =>
    refine .inr ⟨h.1, h.2, ?_⟩
    split
    · right; simp
    · exact .inl rfl
  · exact .inl rfl

/-- A round under way: `select` was called in `s₀` and answered `rfds`, the
calls `round` were made since, and the slots `todo` are still to be read. -/
structure ScanOk (c : Cfg) (s₀ : St) (rfds : Finset Int) (todo : List Slot) (s : St)
    (round : List Call) : Prop extends RoundOk s₀ rfds s round where
  inv : Inv c s
  stale : ∀ f ∈ rfds, f ≠ c.listenFd → ∀ n, s.kern.ofd f = some n → s₀.kern.ofd f = some n
  slots : ∀ i ∈ todo, s.fds i ∈ rfds → s₀.fds i = s.fds i
  ahead : ∀ call ∈ round, ∀ i ∈ todo, call.frees i = false

theorem ScanOk.skip {c : Cfg} {s₀ s : St} {rfds : Finset Int} {i : Slot} {todo : List Slot}
    {round : List Call} (h : ScanOk c s₀ rfds (i :: todo) s round) : ScanOk c s₀ rfds todo s round :=
  { h with
    slots := fun j hj => h.slots j (by simp [hj])
    ahead := fun call hc j hj => h.ahead call hc j (by simp [hj]) }

/-- The read of slot `i` is of a reported connection, and of no slot freed before. -/
theorem ScanOk.read_slot {c : Cfg} {s₀ s : St} {rfds : Finset Int} {i : Slot} {todo : List Slot}
    {round : List Call} (h : ScanOk c s₀ rfds (i :: todo) s round) (hi : i ≠ 0)
    (hne : s.fds i ≠ -1) (hr : s.fds i ∈ rfds) :
    ScanOk c s₀ rfds todo
      { s with calls := s.calls ++ [.read i (s.fds i) (s.kern.ofd (s.fds i))] }
      (round ++ [.read i (s.fds i) (s.kern.ofd (s.fds i))]) := by
  obtain ⟨n, hn⟩ := h.inv.entry hi hne
  have hlisten : s.fds i ≠ c.listenFd := fun he => by
    have := (h.inv.notOwn _ n hn).1
    rw [he, c.listen_own] at this; cases this
  refine ⟨⟨by simp [h.calls], fun j f conn hm => ?_, ?_, fun f m hfull hm => ?_⟩, ?_, h.stale, ?_, ?_⟩
  · simp only [List.mem_append, List.mem_singleton, Call.read.injEq] at hm
    rcases hm with hm | ⟨rfl, rfl, rfl⟩
    · exact h.read j f conn hm
    · exact ⟨hr, h.slots j (by simp) hr, n, hn, h.stale _ hr hlisten n hn⟩
  · refine List.pairwise_append.mpr ⟨h.freed, by simp, fun a ha b hb j hj => ?_⟩
    simp only [List.mem_singleton] at hb
    subst hb
    simp only [Call.reads_read, beq_iff_eq]
    rintro rfl
    rw [h.ahead a ha i (by simp)] at hj; cases hj
  · simp only [List.mem_append, List.mem_singleton, reduceCtorEq, or_false] at hm
    exact h.refused f m hfull hm
  · refine ⟨⟨h.inv.listen, h.inv.distinct, h.inv.clients⟩, h.inv.notOwn, fun m => ?_,
      by simpa using h.inv.noStray⟩
    have hold := h.inv.account m
    unfold closeCalls at hold ⊢
    rw [List.countP_append, hold]
    simp
  · exact fun j hj => h.slots j (by simp [hj])
  · intro call hc j hj
    simp only [List.mem_append, List.mem_singleton] at hc
    rcases hc with hc | rfl
    · exact h.ahead call hc j (by simp [hj])
    · rfl

theorem ScanOk.close_slot {c : Cfg} {s₀ s : St} {rfds : Finset Int} {i : Slot} {todo : List Slot}
    {round : List Call} (h : ScanOk c s₀ rfds todo s round) (hi : i ≠ 0) (hni : i ∉ todo)
    (hne : s.fds i ≠ -1) :
    ScanOk c s₀ rfds todo
      { s with
        fds := Function.update s.fds i (-1)
        kern := s.kern.close (s.fds i)
        calls := s.calls ++ [.close (some i) (s.fds i) (s.kern.ofd (s.fds i))] }
      (round ++ [.close (some i) (s.fds i) (s.kern.ofd (s.fds i))]) := by
  obtain ⟨n, hn⟩ := h.inv.entry hi hne
  refine ⟨⟨by simp [h.calls], fun j f conn hm => ?_, ?_, fun f m hfull hm => ?_⟩,
    ⟨⟨?_, h.inv.distinct.clear, fun f => ?_⟩, fun f m hm => ?_, fun m => ?_, ?_⟩,
    fun f hf hl m hm => ?_, fun j hj hr => ?_, fun call hc j hj => ?_⟩
  · simp only [List.mem_append, List.mem_singleton, reduceCtorEq, or_false] at hm
    exact h.read j f conn hm
  · refine List.pairwise_append.mpr ⟨h.freed, by simp, fun a _ b hb j _ => ?_⟩
    simp only [List.mem_singleton] at hb
    subst hb
    simp
  · simp only [List.mem_append, List.mem_singleton, reduceCtorEq, or_false] at hm
    exact FdTable.close_closes_mono (h.refused f m hfull hm)
  · exact (Function.update_of_ne hi.symm _ _).trans h.inv.listen
  · rw [holds_clear h.inv.distinct hne, h.inv.clients]
    simp only [FdTable.close_ofd_some, exists_and_left]
  · exact h.inv.notOwn f m (FdTable.close_ofd_some.mp hm).2
  · have hold := h.inv.account m
    unfold closeCalls at hold ⊢
    rw [List.countP_append, hold, FdTable.close_closes hn, hn]
    by_cases hmn : m = n
    · subst hmn
      simp [FdTable.closes_of_open hn]
    · simp [Ne.symm hmn, Function.update_of_ne hmn]
  · simpa [hn] using h.inv.noStray
  · exact h.stale f hf hl m (FdTable.close_ofd_some.mp hm).2
  · have hji : j ≠ i := fun he => hni (he ▸ hj)
    simp only [Function.update_of_ne hji] at hr ⊢
    exact h.slots j hj hr
  · simp only [List.mem_append, List.mem_singleton] at hc
    rcases hc with hc | rfl
    · exact h.ahead call hc j hj
    · have hij : i ≠ j := fun he => hni (he ▸ hj)
      simp [hij]

/-- The whole scan, by induction on the slots still to be read. -/
theorem ScanOk.scan {c : Cfg} {s₀ : St} {rfds : Finset Int} (reads : Slot → ReadResult) :
    ∀ {todo : List Slot} {s : St} {round : List Call}, todo.Nodup → 0 ∉ todo →
      ScanOk c s₀ rfds todo s round →
      ∃ round', ScanOk c s₀ rfds [] (todo.foldl (readSlot rfds reads) s) round'
  | [], _, round, _, _, h => ⟨round, h⟩
  | i :: todo, s, round, hd, h0, h => by
    simp only [List.nodup_cons] at hd
    simp only [List.mem_cons, not_or] at h0
    have hi : i ≠ 0 := fun he => h0.1 he.symm
    rw [List.foldl_cons]
    obtain he | ⟨hne, hr, he | he⟩ := readSlot_cases rfds reads s i <;> rw [he]
    · exact ScanOk.scan reads hd.2 h0.2 h.skip
    · exact ScanOk.scan reads hd.2 h0.2 (h.read_slot hi hne hr)
    · have h' := (h.read_slot hi hne hr).close_slot hi hd.1 hne
      simp only [List.append_assoc, List.cons_append, List.nil_append] at h'
      exact ScanOk.scan reads hd.2 h0.2 h'

/-! ## Rounds and runs -/

theorem ScanOk.start {c : Cfg} {s : St} (hs : Inv c s) (rfds : Finset Int) (todo : List Slot) :
    ScanOk c s rfds todo s [] :=
  ⟨⟨by simp, by simp, by simp, by simp⟩, hs, fun _ _ _ _ hn => hn, fun _ _ _ => rfl, by simp⟩

theorem acceptClient_scanOk {c : Cfg} {s s' : St} {rfds : Finset Int} {acc : Int} (hs : Inv c s)
    (hr : rfds ⊆ fdSet s.fds) (h : acceptClient c s acc = some s') :
    ∃ round, ScanOk c s rfds readSlots s' round := by
  have hinv := acceptClient_inv hs h
  -- The number just accepted was closed when `select` was called, so it was not asked about.
  have hnew : ∀ f ∈ rfds, f ≠ c.listenFd → s.kern.ofd f ≠ none := fun f hf hl hn => by
    obtain ⟨n, hn'⟩ := hs.asked (hr hf) hl
    rw [hn] at hn'; cases hn'
  obtain ⟨-, rfl⟩ | ⟨hf, hown, -, ⟨i, hi, rfl⟩ | ⟨hfull, rfl⟩⟩ := acceptClient_cases h
  · exact ⟨[], .start hs rfds _⟩
  · refine ⟨_, ⟨rfl, by simp, by simp, fun f n hfull => ?_⟩, hinv, fun f hfr hl n hn => ?_,
      fun j _ hj => ?_, by simp⟩
    · exact absurd hi (hfull i)
    · have hfa : f ≠ acc := fun he => hnew f hfr hl (he ▸ hf)
      rwa [FdTable.alloc_ofd_of_ne hf hfa] at hn
    · by_cases hji : j = i
      · subst hji
        simp only [Function.update_self] at hj
        have hl : acc ≠ c.listenFd := fun he => by rw [he, c.listen_own] at hown; cases hown
        exact absurd hf (hnew acc hj hl)
      · exact (Function.update_of_ne hji _ _).symm
  · refine ⟨_, ⟨rfl, by simp, by simp, fun f n _ hm => ?_⟩, hinv, fun f hfr hl n hn => ?_,
      fun _ _ _ => rfl, by simp⟩
    · simp only [List.mem_cons, Call.accept.injEq, reduceCtorEq, List.not_mem_nil, or_false] at hm
      obtain ⟨rfl, rfl⟩ := hm
      rw [FdTable.close_closes (FdTable.alloc_ofd_self hf)]
      simp
    · obtain ⟨hfa, hn⟩ := FdTable.close_ofd_some.mp hn
      rwa [FdTable.alloc_ofd_of_ne hf hfa] at hn

theorem readSlots_nodup : readSlots.Nodup := (List.nodup_finRange _).filter _

theorem zero_notMem_readSlots : (0 : Slot) ∉ readSlots := by simp [readSlots]

/-- A round in which `select` reported something. -/
theorem step_ready {c : Cfg} {s s' : St} {rfds : Finset Int} {acc : Int} {reads : Slot → ReadResult}
    (hs : Inv c s) (h : step c s (.ready rfds acc reads) = some s') :
    Inv c s' ∧ ∃ round, RoundOk s rfds s' round := by
  unfold step at h
  split at h
  · cases h
  simp only at h
  split at h
  · next hr =>
    obtain ⟨s₁, h₁, rfl⟩ := Option.map_eq_some_iff.mp h
    have hs' := hs.raise (raiseMaxfd s.fds s.maxfd)
    have hstart : ∃ round, ScanOk c { s with maxfd := raiseMaxfd s.fds s.maxfd } rfds readSlots s₁ round := by
      split at h₁
      · exact acceptClient_scanOk hs' hr h₁
      · cases h₁
        exact ⟨[], .start hs' rfds _⟩
    obtain ⟨round, hstart⟩ := hstart
    obtain ⟨round', hend⟩ := hstart.scan reads readSlots_nodup zero_notMem_readSlots
    exact ⟨hend.inv, round', hend.calls, hend.read, hend.freed, hend.refused⟩
  · cases h

theorem step_inv {c : Cfg} {s s' : St} {ans : Answer} (hs : Inv c s) (h : step c s ans = some s') :
    Inv c s' := by
  cases ans with
  | ready rfds acc reads => exact (step_ready hs h).1
  | timeout =>
    unfold step at h
    split at h
    · cases h
    · cases h; exact hs.raise _
  | failed =>
    unfold step at h
    split at h
    · cases h
    · cases h; exact ⟨⟨hs.listen, hs.distinct, hs.clients⟩, hs.notOwn, hs.account, hs.noStray⟩

theorem reach_inv {c : Cfg} {s : St} (h : Reach (step c) Any (init c) s) : Inv c s :=
  h.invariant (init_inv c) fun _ _ _ hs _ hstep => step_inv hs hstep

/-- **The table of `serv_select` is the set of open clients.** At the top
of every round of every run, whatever `select`, `accept` and `recv` answer:
slot 0 is the listening socket, no descriptor is in two slots, the other
slots hold exactly the clients accepted and not closed, no client was closed
twice, and no `close` found its descriptor closed already. In the round that
follows, every read is of a descriptor `select` reported in it and reaches
the connection reported, never a slot freed before, and a client accepted
into a full table is closed. -/
theorem servSelect_sound {c : Cfg} {s : St} (h : Reach (step c) Any (init c) s) :
    TableOk c s ∧ (∀ n, closeCalls s n ≤ 1) ∧ (∀ slot f, Call.close slot f none ∉ s.calls) ∧
      ∀ rfds acc reads s', step c s (.ready rfds acc reads) = some s' → ∃ round, RoundOk s rfds s' round := by
  have hs := reach_inv h
  exact ⟨hs.toTableOk, fun n => hs.account n ▸ s.kern.closes_le_one n, hs.noStray,
    fun _ _ _ _ h' => (step_ready hs h').2⟩

/-- A process whose listening socket is 3, with 0 to 4 open. -/
def demoCfg : Cfg where
  listenFd := 3
  own f := 0 ≤ f ∧ f ≤ 4
  listen_own := by decide
  own_nonneg _ h := (of_decide_eq_true h).1

/-- A client connects on 5, sends, and hangs up; the next one gets 5 again. -/
def demoRounds : List Answer :=
  [.ready {3} 5 fun _ => ⟨0, .eagain⟩, .ready {5} (-1) fun _ => ⟨6, .eagain⟩,
   .ready {5} (-1) fun _ => ⟨0, .eagain⟩, .timeout, .ready {3} 5 fun _ => ⟨0, .eagain⟩]

theorem demoRounds_run : (run (step demoCfg) (init demoCfg) demoRounds).isSome := by decide +kernel

/-- `servSelect_sound` at the end of `demoRounds`. -/
theorem servSelect_sound_demo :
    let s := (run (step demoCfg) (init demoCfg) demoRounds).get demoRounds_run
    TableOk demoCfg s ∧ (∀ n, closeCalls s n ≤ 1) ∧ (∀ slot f, Call.close slot f none ∉ s.calls) ∧
      ∀ rfds acc reads s', step demoCfg s (.ready rfds acc reads) = some s' →
        ∃ round, RoundOk s rfds s' round :=
  servSelect_sound (reach_get demoRounds_run)

end LinuxServer.Select
