/-
What holds of `serv_poll`. In every run the listening socket stays in entry
0, no descriptor is in two entries, every other entry is an open client, and
a round reads only what `poll` reported in it (`Inv`, `RoundOk`): an entry
filled in this round has `revents` 0, because it was skipped when `poll` ran.

That every open client has an entry (`NoLeak`) is another matter. A client
accepted into a full table is neither entered nor closed, so it holds only
in runs where that does not happen (`HasRoom`); `full_table_leaks` is the
run to the first lost client.
-/
import Mathlib.Data.Finset.Card
import Mathlib.Data.List.Nodup
import LinuxServer.Poll

namespace LinuxServer.Poll

open SlotTable Lts
open Select (Cfg)

variable {c : Cfg} {events₀ revents₀ revents : Slot → Flags} {s s' : St} {acc : Int} {reads : Slot → ReadResult}

/-- Every open client has an entry. -/
def NoLeak (s : St) : Prop := ∀ f n, s.kern.ofd f = some n → Holds (-1) (· ≠ 0) s.fds f

/-- At the top of a round: the listening socket is in entry 0, no descriptor
is in two entries, and the other entries are exactly the open clients. -/
structure TableOk (c : Cfg) (s : St) : Prop where
  listen : s.fds 0 = c.listenFd
  distinct : Distinct (-1) s.fds
  clients : ∀ f, Holds (-1) (· ≠ 0) s.fds f ↔ ∃ n, s.kern.ofd f = some n

/-- What the round that took `s` to `s'` with the calls `round` did: every
read is for an entry that `poll` reported, of the descriptor the entry had
when `poll` ran, and reaches the connection that had then. -/
structure RoundOk (s : St) (revents : Slot → Flags) (s' : St) (round : List Call) : Prop where
  calls : s'.calls = s.calls ++ round
  read : ∀ i f conn, Call.read i f conn ∈ round →
    revents i &&& pollIn ≠ 0 ∧ s.fds i = f ∧ ∃ n, conn = some n ∧ s.kern.ofd f = some n

/-- What every run keeps: `TableOk` without the part that a full table
breaks, clients are never the process's own descriptors, and each entry in
use asks for `POLLIN`. -/
structure Inv (c : Cfg) (s : St) : Prop where
  listen : s.fds 0 = c.listenFd
  distinct : Distinct (-1) s.fds
  entry : ∀ i, i ≠ 0 → s.fds i ≠ -1 → ∃ n, s.kern.ofd (s.fds i) = some n
  asks : ∀ i, s.fds i ≠ -1 → s.events i = pollIn
  notOwn : ∀ f n, s.kern.ofd f = some n → c.own f = false ∧ 0 ≤ f

/-- The round does not accept a client into a full table. -/
def HasRoom (s : St) : Answer → Prop
  | .ready revents acc _ => revents 0 &&& pollIn ≠ 0 → 0 ≤ acc → ∃ i, s.fds i = -1
  | .timeout | .failed => True

theorem Inv.table (hs : Inv c s) (hl : NoLeak s) : TableOk c s where
  listen := hs.listen
  distinct := hs.distinct
  clients f := by
    refine ⟨?_, fun ⟨n, hn⟩ => hl f n hn⟩
    rintro ⟨hf, i, hi, rfl⟩
    exact hs.entry i hi hf

theorem Inv.absent (hs : Inv c s) (hf : s.kern.ofd acc = none) (hown : c.own acc = false) (hacc : 0 ≤ acc)
    (j : Slot) : s.fds j ≠ acc := by
  intro he
  by_cases hj : j = 0
  · subst hj
    rw [← he, hs.listen, c.listen_own] at hown
    cases hown
  · obtain ⟨n, hn⟩ := hs.entry j hj (by omega)
    rw [he, hf] at hn
    cases hn

theorem init_inv (c : Cfg) (events revents : Slot → Flags) : Inv c (init c events revents) where
  listen := by simp [init]
  distinct := by
    have hd : Distinct (-1) fun _ : Slot => (-1 : Int) := by simp [Distinct]
    exact hd.put fun _ he => c.listen_ne he.symm
  entry i hi hne := by simp [init, Function.update_of_ne hi] at hne
  asks i hne := by
    by_cases hi : i = 0
    · subst hi; simp [init]
    · simp [init, Function.update_of_ne hi] at hne
  notOwn := by simp [init, FdTable.empty]

theorem init_noLeak (c : Cfg) (events revents : Slot → Flags) : NoLeak (init c events revents) := by
  simp [NoLeak, init, FdTable.empty]

/-! ## Accepting -/

/-- What `acceptClient` can do: nothing, put the client into a free entry,
or, when there is none, keep it open outside the table. -/
theorem acceptClient_cases (h : acceptClient c s acc = some s') :
    (acc < 0 ∧ s' = s) ∨ ∃ hf : s.kern.ofd acc = none, c.own acc = false ∧ 0 ≤ acc ∧
      ((∃ i, s.fds i = -1 ∧ s' = { s with
          fds := Function.update s.fds i acc
          events := Function.update s.events i pollIn
          kern := s.kern.alloc acc hf
          calls := s.calls ++ [.accept acc s.kern.opened] }) ∨
       ((∀ i, s.fds i ≠ -1) ∧ s' = { s with
          kern := s.kern.alloc acc hf
          calls := s.calls ++ [.accept acc s.kern.opened] })) := by
  unfold acceptClient at h
  split at h
  · next hneg => exact .inl ⟨hneg, (Option.some.inj h).symm⟩
  split at h
  · next hneg hfree =>
    refine .inr ⟨hfree.1, hfree.2, by omega, ?_⟩
    split at h
    · next i hi => exact .inl ⟨i, firstFree_some hi, (Option.some.inj h).symm⟩
    · next hnone =>
      exact .inr ⟨fun i => firstFree_none hnone (List.mem_finRange i), (Option.some.inj h).symm⟩
  · cases h

theorem acceptClient_inv (hs : Inv c s) (h : acceptClient c s acc = some s') : Inv c s' := by
  obtain ⟨-, rfl⟩ | ⟨hf, hown, hacc, hcase⟩ := acceptClient_cases h
  · exact hs
  have hnotOwn : ∀ f n, (s.kern.alloc acc hf).ofd f = some n → c.own f = false ∧ 0 ≤ f := by
    intro f n hn
    rcases FdTable.alloc_ofd_cases hf hn with ⟨rfl, -⟩ | ⟨-, h⟩
    · exact ⟨hown, hacc⟩
    · exact hs.notOwn f n h
  have hkeep : ∀ j, j ≠ 0 → s.fds j ≠ -1 → ∃ n, (s.kern.alloc acc hf).ofd (s.fds j) = some n := by
    intro j hj hne
    obtain ⟨n, hn⟩ := hs.entry j hj hne
    exact ⟨n, FdTable.alloc_ofd_old hf hn⟩
  obtain ⟨i, hi, rfl⟩ | ⟨-, rfl⟩ := hcase
  · have hi0 : i ≠ 0 := by
      rintro rfl
      exact c.listen_ne (hs.listen ▸ hi)
    refine ⟨(Function.update_of_ne hi0.symm _ _).trans hs.listen, hs.distinct.put (hs.absent hf hown hacc),
      fun j hj hne => ?_, fun j hne => ?_, hnotOwn⟩
    · by_cases hji : j = i
      · subst hji
        exact ⟨s.kern.opened, by simp⟩
      · simp only [Function.update_of_ne hji] at hne ⊢
        exact hkeep j hj hne
    · by_cases hji : j = i
      · subst hji; simp
      · simp only [Function.update_of_ne hji] at hne ⊢
        exact hs.asks j hne
  · exact ⟨hs.listen, hs.distinct, hkeep, hs.asks, hnotOwn⟩

theorem acceptClient_noLeak (hl : NoLeak s) (hroom : 0 ≤ acc → ∃ i, s.fds i = -1)
    (h : acceptClient c s acc = some s') (h0 : s.fds 0 ≠ -1) : NoLeak s' := by
  obtain ⟨-, rfl⟩ | ⟨hf, -, hacc, ⟨i, hi, rfl⟩ | ⟨hfull, rfl⟩⟩ := acceptClient_cases h
  · exact hl
  · intro f n hn
    have hi0 : i ≠ 0 := by
      rintro rfl
      exact h0 hi
    rw [holds_put hi hi0 (by omega)]
    rcases FdTable.alloc_ofd_cases hf hn with ⟨rfl, -⟩ | ⟨-, h⟩
    · exact .inl rfl
    · exact .inr (hl f n h)
  · obtain ⟨i, hi⟩ := hroom hacc
    exact absurd hi (hfull i)

/-! ## The scan of a round's result -/

/-- What the loop's body can do to slot `i`: skip it, read and keep its
client, or read it and close it. -/
theorem readSlot_cases (reads : Slot → ReadResult) (s : St) (i : Slot) :
    readSlot reads s i = s ∨ s.fds i ≠ -1 ∧ s.revents i &&& pollIn ≠ 0 ∧
      (readSlot reads s i =
          { s with calls := s.calls ++ [.read i (s.fds i) (s.kern.ofd (s.fds i))] } ∨
       readSlot reads s i = { s with
          fds := Function.update s.fds i (-1)
          kern := s.kern.close (s.fds i)
          calls := s.calls ++ [.read i (s.fds i) (s.kern.ofd (s.fds i)),
            .close i (s.fds i) (s.kern.ofd (s.fds i))] }) := by
  unfold readSlot
  split
  · next h =>
    refine .inr ⟨h.1, h.2, ?_⟩
    split
    · right; simp
    · exact .inl rfl
  · exact .inl rfl

theorem Inv.close (hs : Inv c s) {i : Slot} (hi : i ≠ 0) (calls : List Call) :
    Inv c { s with
      fds := Function.update s.fds i (-1)
      kern := s.kern.close (s.fds i)
      calls } where
  listen := (Function.update_of_ne hi.symm _ _).trans hs.listen
  distinct := hs.distinct.clear
  entry j hj hne := by
    have hji : j ≠ i := by
      rintro rfl
      simp at hne
    simp only [Function.update_of_ne hji] at hne ⊢
    obtain ⟨n, hn⟩ := hs.entry j hj hne
    exact ⟨n, FdTable.close_ofd_some.mpr ⟨fun he => hji (hs.distinct j i hne he), hn⟩⟩
  asks j hne := by
    have hji : j ≠ i := by
      rintro rfl
      simp at hne
    simp only [Function.update_of_ne hji] at hne
    exact hs.asks j hne
  notOwn f n hn := hs.notOwn f n (FdTable.close_ofd_some.mp hn).2

theorem NoLeak.close (hl : NoLeak s) (hs : Inv c s) {i : Slot} (hne : s.fds i ≠ -1) (calls : List Call) :
    NoLeak { s with
      fds := Function.update s.fds i (-1)
      kern := s.kern.close (s.fds i)
      calls } := by
  intro f n hn
  obtain ⟨hfi, hn⟩ := FdTable.close_ofd_some.mp hn
  exact (holds_clear hs.distinct hne).mpr ⟨hfi, hl f n hn⟩

theorem readSlot_noLeak (hl : NoLeak s) (hs : Inv c s) (i : Slot) : NoLeak (readSlot reads s i) := by
  obtain he | ⟨hne, -, he | he⟩ := readSlot_cases reads s i <;> rw [he]
  · exact hl
  · exact hl
  · exact hl.close hs hne _

/-- A round under way: `poll` was called in `s₀` and wrote `revents`, the
calls `round` were made since, and the slots `todo` are still to be read.
Those that were reported are as `poll` saw them (`ahead`). -/
structure ScanOk (c : Cfg) (s₀ : St) (revents : Slot → Flags) (todo : List Slot) (s : St)
    (round : List Call) : Prop extends RoundOk s₀ revents s round where
  inv : Inv c s
  wrote : s.revents = revents
  ahead : ∀ i ∈ todo, revents i &&& pollIn ≠ 0 →
    s.fds i = s₀.fds i ∧ s.kern.ofd (s.fds i) = s₀.kern.ofd (s₀.fds i)

theorem ScanOk.skip {s₀ : St} {i : Slot} {todo : List Slot} {round : List Call}
    (h : ScanOk c s₀ revents (i :: todo) s round) : ScanOk c s₀ revents todo s round :=
  { h with ahead := fun j hj => h.ahead j (by simp [hj]) }

theorem ScanOk.read_slot {s₀ : St} {i : Slot} {todo : List Slot} {round : List Call}
    (h : ScanOk c s₀ revents (i :: todo) s round) (hi : i ≠ 0) (hne : s.fds i ≠ -1)
    (hr : s.revents i &&& pollIn ≠ 0) :
    ScanOk c s₀ revents todo
      { s with calls := s.calls ++ [.read i (s.fds i) (s.kern.ofd (s.fds i))] }
      (round ++ [.read i (s.fds i) (s.kern.ofd (s.fds i))]) := by
  rw [h.wrote] at hr
  obtain ⟨n, hn⟩ := h.inv.entry i hi hne
  obtain ⟨hfd, hofd⟩ := h.ahead i (by simp) hr
  refine ⟨⟨by simp [h.calls], fun j f conn hm => ?_⟩,
    ⟨h.inv.listen, h.inv.distinct, h.inv.entry, h.inv.asks, h.inv.notOwn⟩, h.wrote, h.skip.ahead⟩
  simp only [List.mem_append, List.mem_singleton, Call.read.injEq] at hm
  rcases hm with hm | ⟨rfl, rfl, rfl⟩
  · exact h.read j f conn hm
  · exact ⟨hr, hfd.symm, n, hn, by rw [hfd, ← hofd, hn]⟩

theorem ScanOk.close_slot {s₀ : St} {i : Slot} {todo : List Slot} {round : List Call}
    (h : ScanOk c s₀ revents todo s round) (hi : i ≠ 0) (hni : i ∉ todo) (hne : s.fds i ≠ -1) :
    ScanOk c s₀ revents todo
      { s with
        fds := Function.update s.fds i (-1)
        kern := s.kern.close (s.fds i)
        calls := s.calls ++ [.close i (s.fds i) (s.kern.ofd (s.fds i))] }
      (round ++ [.close i (s.fds i) (s.kern.ofd (s.fds i))]) := by
  refine ⟨⟨by simp [h.calls], fun j f conn hm => ?_⟩, h.inv.close hi _, h.wrote, fun j hj hr => ?_⟩
  · simp only [List.mem_append, List.mem_singleton, reduceCtorEq, or_false] at hm
    exact h.read j f conn hm
  · have hji : j ≠ i := fun he => hni (he ▸ hj)
    obtain ⟨hfd, hofd⟩ := h.ahead j hj hr
    have hfi : s.fds j ≠ s.fds i := fun he => hji ((h.inv.distinct i j hne he.symm).symm)
    simp only [Function.update_of_ne hji, FdTable.close_ofd_of_ne hfi]
    exact ⟨hfd, hofd⟩

/-- The whole scan, by induction on the slots still to be read. -/
theorem ScanOk.scan {s₀ : St} (reads : Slot → ReadResult) :
    ∀ {todo : List Slot} {s : St} {round : List Call}, todo.Nodup → 0 ∉ todo →
      ScanOk c s₀ revents todo s round →
      (∃ round', ScanOk c s₀ revents [] (todo.foldl (readSlot reads) s) round') ∧
        (NoLeak s → NoLeak (todo.foldl (readSlot reads) s))
  | [], _, round, _, _, h => ⟨⟨round, h⟩, id⟩
  | i :: todo, s, round, hd, h0, h => by
    simp only [List.nodup_cons] at hd
    simp only [List.mem_cons, not_or] at h0
    have hi : i ≠ 0 := fun he => h0.1 he.symm
    have hnext : ∃ round', ScanOk c s₀ revents todo (readSlot reads s i) round' := by
      obtain he | ⟨hne, hr, he | he⟩ := readSlot_cases reads s i <;> rw [he]
      · exact ⟨_, h.skip⟩
      · exact ⟨_, h.read_slot hi hne hr⟩
      · have h' := (h.read_slot hi hne hr).close_slot hi hd.1 hne
        simp only [List.append_assoc, List.cons_append, List.nil_append] at h'
        exact ⟨_, h'⟩
    obtain ⟨round', hnext⟩ := hnext
    obtain ⟨hend, hleak⟩ := ScanOk.scan reads hd.2 h0.2 hnext
    exact ⟨hend, fun hl => hleak (readSlot_noLeak hl h.inv i)⟩

/-! ## Rounds and runs -/

theorem readSlots_nodup : readSlots.Nodup := (List.nodup_finRange _).filter _

theorem zero_notMem_readSlots : (0 : Slot) ∉ readSlots := by simp [readSlots]

theorem Inv.wrote (hs : Inv c s) (revents : Slot → Flags) : Inv c { s with revents } :=
  ⟨hs.listen, hs.distinct, hs.entry, hs.asks, hs.notOwn⟩

/-- Where the scan starts: what was accepted went into an entry that `poll` skipped. -/
theorem acceptClient_scanOk (hs : Inv c s) (hr : ∀ i, s.fds i < 0 → s.revents i = 0)
    (h : acceptClient c s acc = some s') : ∃ round, ScanOk c s s.revents readSlots s' round := by
  have hinv := acceptClient_inv hs h
  have hkeep : ∀ (hf : s.kern.ofd acc = none) (hown : c.own acc = false) (hacc : 0 ≤ acc) (j : Slot),
      (s.kern.alloc acc hf).ofd (s.fds j) = s.kern.ofd (s.fds j) :=
    fun hf hown hacc j => FdTable.alloc_ofd_of_ne hf (hs.absent hf hown hacc j)
  obtain ⟨-, rfl⟩ | ⟨hf, hown, hacc, ⟨i, hi, rfl⟩ | ⟨-, rfl⟩⟩ := acceptClient_cases h
  · exact ⟨[], ⟨by simp, by simp⟩, hs, rfl, fun _ _ _ => ⟨rfl, rfl⟩⟩
  · refine ⟨_, ⟨rfl, by simp⟩, hinv, rfl, fun j _ hj => ?_⟩
    have hji : j ≠ i := by
      rintro rfl
      exact hj (by rw [hr j (by omega)]; rfl)
    simp only [Function.update_of_ne hji]
    exact ⟨trivial, hkeep hf hown hacc j⟩
  · exact ⟨_, ⟨rfl, by simp⟩, hinv, rfl, fun j _ _ => ⟨rfl, hkeep hf hown hacc j⟩⟩

/-- A round in which `poll` reported something. -/
theorem step_ready (hs : Inv c s) (h : step c s (.ready revents acc reads) = some s') :
    Inv c s' ∧ (∃ round, RoundOk s revents s' round) ∧
      (NoLeak s → HasRoom s (.ready revents acc reads) → NoLeak s') := by
  unfold step at h
  split at h
  · cases h
  simp only at h
  split at h
  · next hr =>
    obtain ⟨s₁, h₁, rfl⟩ := Option.map_eq_some_iff.mp h
    have hs' := hs.wrote revents
    have hstart : (∃ round, ScanOk c { s with revents } revents readSlots s₁ round) ∧
        (NoLeak s → HasRoom s (.ready revents acc reads) → NoLeak s₁) := by
      split at h₁
      · next hl =>
        refine ⟨acceptClient_scanOk hs' hr h₁, fun hleak hroom => ?_⟩
        exact acceptClient_noLeak (s := { s with revents }) hleak (hroom hl) h₁
          (fun he => c.listen_ne (hs.listen ▸ he))
      · cases h₁
        exact ⟨⟨[], ⟨by simp, by simp⟩, hs', rfl, fun _ _ _ => ⟨rfl, rfl⟩⟩, fun hleak _ => hleak⟩
    obtain ⟨⟨round, hstart⟩, hroom⟩ := hstart
    obtain ⟨⟨round', hend⟩, hleak⟩ := hstart.scan reads readSlots_nodup zero_notMem_readSlots
    exact ⟨hend.inv, ⟨round', hend.calls, hend.read⟩, fun hl hr => hleak (hroom hl hr)⟩
  · cases h

theorem step_inv {ans : Answer} (hs : Inv c s) (h : step c s ans = some s') :
    Inv c s' ∧ (NoLeak s → HasRoom s ans → NoLeak s') := by
  cases ans with
  | ready revents acc reads =>
    obtain ⟨hinv, -, hleak⟩ := step_ready hs h
    exact ⟨hinv, hleak⟩
  | timeout =>
    unfold step at h
    split at h
    · cases h
    · cases h
      exact ⟨hs.wrote _, fun hl _ => hl⟩
  | failed =>
    unfold step at h
    split at h
    · cases h
    · cases h
      exact ⟨⟨hs.listen, hs.distinct, hs.entry, hs.asks, hs.notOwn⟩, fun hl _ => hl⟩

theorem reach_inv (h : Reach (step c) Any (init c events₀ revents₀) s) : Inv c s :=
  h.invariant (init_inv c events₀ revents₀) fun _ _ _ hs _ hstep => (step_inv hs hstep).1

theorem reach_noLeak (h : Reach (step c) HasRoom (init c events₀ revents₀) s) : NoLeak s := by
  induction h with
  | refl => exact init_noLeak c events₀ revents₀
  | tail hr ho hs ih => exact (step_inv (reach_inv hr.any) hs).2 ih ho

/-- **In every run a round reads only what `poll` reported in it**, from the
connection reported, also when clients were lost. -/
theorem servPoll_reads (h : Reach (step c) Any (init c events₀ revents₀) s)
    (hstep : step c s (.ready revents acc reads) = some s') : ∃ round, RoundOk s revents s' round :=
  (step_ready (reach_inv h) hstep).2.1

/-- **The table of `serv_poll` is the set of open clients while no client
is accepted into a full table.** At the top of every round of every such
run, whatever `poll`, `accept` and `recv` answer: entry 0 is the listening
socket, no descriptor is in two entries, and the other entries hold exactly
the clients accepted and not closed. Every read of the round that follows is
for an entry `poll` reported in it, of the descriptor polled. -/
theorem servPoll_sound (h : Reach (step c) HasRoom (init c events₀ revents₀) s) :
    TableOk c s ∧ ∀ revents acc reads s', step c s (.ready revents acc reads) = some s' →
      ∃ round, RoundOk s revents s' round :=
  ⟨(reach_inv h.any).table (reach_noLeak h), fun _ _ _ _ => servPoll_reads h.any⟩

/-! ## A full table -/

/-- Only the listening socket is ready. -/
def listenReady (i : Slot) : Flags := if i = 0 then pollIn else 0

/-- Round `k` of a run in which clients connect and say nothing: the new
client gets the descriptor `5 + k`. -/
def connectRound (k : Nat) : Answer := .ready listenReady (5 + k) fun _ => ⟨-1, .eagain⟩

theorem scan_quiet (hq : ∀ i, i ≠ 0 → s.revents i = 0) : ∀ {todo : List Slot}, 0 ∉ todo →
    todo.foldl (readSlot reads) s = s
  | [], _ => rfl
  | i :: todo, h0 => by
    simp only [List.mem_cons, not_or] at h0
    have hskip : readSlot reads s i = s := by
      unfold readSlot
      rw [if_neg]
      intro h
      exact h.2 (by rw [hq i (Ne.symm h0.1)]; rfl)
    rw [List.foldl_cons, hskip]
    exact scan_quiet hq h0.2

/-- After `k` connects: that many entries are used, and the next numbers are unused. -/
structure Filled (k : Nat) (s : St) : Prop where
  running : s.exited = false
  free : (frees (-1) s.fds).card + k + 1 = pollFdsLen
  unused : ∀ f : Int, 5 + k ≤ f → s.kern.ofd f = none

/-- A process whose listening socket is 3, with 0 to 4 open. -/
def demoCfg : Cfg where
  listenFd := 3
  own f := 0 ≤ f ∧ f < 5
  listen_own := by decide
  own_nonneg _ h := (of_decide_eq_true h).1

/-- The start, on a stack of zeros. -/
def demoInit : St := init demoCfg (fun _ => 0) (fun _ => 0)

theorem demoCfg_own (k : Nat) : demoCfg.own (5 + k) = false := decide_eq_false (by omega)

theorem connectRound_step {k : Nat} (hs : Inv demoCfg s) (hr : s.exited = false) :
    step demoCfg s (connectRound k) = acceptClient demoCfg { s with revents := listenReady } (5 + k) := by
  have hpoll : ∀ i, s.fds i < 0 → listenReady i = 0 := by
    intro i hi
    unfold listenReady
    rw [if_neg]
    rintro rfl
    have := demoCfg.own_nonneg _ demoCfg.listen_own
    rw [hs.listen] at hi
    omega
  have hin : listenReady 0 &&& pollIn ≠ 0 := by decide
  unfold step
  rw [if_neg (by rw [hr]; decide)]
  simp only [connectRound]
  rw [if_pos hpoll, if_pos hin]
  cases ha : acceptClient demoCfg { s with revents := listenReady } (5 + k) with
  | none => rfl
  | some s' =>
    obtain ⟨round, hscan⟩ := acceptClient_scanOk (hs.wrote listenReady) hpoll ha
    have hquiet : ∀ i, i ≠ 0 → s'.revents i = 0 := by
      intro i hi
      rw [hscan.wrote]
      simp [listenReady, hi]
    rw [Option.map_some, scan_quiet hquiet zero_notMem_readSlots]

theorem Filled.connect {k : Nat} (h : Filled k s) (hs : Inv demoCfg s) (hk : k + 1 < pollFdsLen) :
    ∃ s', step demoCfg s (connectRound k) = some s' ∧ HasRoom s (connectRound k) ∧ Filled (k + 1) s' := by
  have hfree := h.free
  obtain ⟨i, hi⟩ : (frees (-1) s.fds).Nonempty := Finset.card_pos.mp (by omega)
  have hsome := firstFree_isSome (List.mem_finRange i) (mem_frees.mp hi)
  obtain ⟨j, hj⟩ := Option.isSome_iff_exists.mp hsome
  have hne : (5 + k : Int) ≠ -1 := by omega
  have hnew : s.kern.ofd (5 + k) = none ∧ demoCfg.own (5 + k) = false :=
    ⟨h.unused _ (by omega), demoCfg_own k⟩
  rw [connectRound_step hs h.running]
  unfold acceptClient
  rw [if_neg (by omega), dif_pos hnew]
  simp only [hj]
  refine ⟨_, rfl, fun _ _ => ⟨i, mem_frees.mp hi⟩, h.running, ?_, fun f hf => ?_⟩
  · show (frees (-1) (Function.update s.fds j (5 + k))).card + (k + 1) + 1 = pollFdsLen
    rw [frees_put hne, Finset.card_erase_of_mem (mem_frees.mpr (firstFree_some hj))]
    omega
  · show (s.kern.alloc (5 + k) hnew.1).ofd f = none
    rw [FdTable.alloc_ofd_of_ne hnew.1 (by omega), h.unused f (by omega)]

/-- `m` clients connect one after the other, as long as they fit. -/
theorem Filled.connects (m : Nat) {k : Nat} (h : Filled k s) (hs : Inv demoCfg s) (hk : k + m < pollFdsLen) :
    ∃ s', run (step demoCfg) s ((List.range' k m).map connectRound) = some s' ∧
      Reach (step demoCfg) HasRoom s s' ∧ Filled (k + m) s' := by
  induction m generalizing k s with
  | zero => exact ⟨s, rfl, .refl, h⟩
  | succ m ih =>
    obtain ⟨s₁, hstep, hroom, h₁⟩ := h.connect hs (by omega)
    obtain ⟨s', hrun, hreach, h'⟩ := ih h₁ (step_inv hs hstep).1 (by omega)
    refine ⟨s', ?_, .head hroom hstep hreach, by rwa [Nat.add_right_comm, Nat.add_assoc] at h'⟩
    show (step demoCfg s (connectRound k)).bind _ = _
    rw [hstep]
    exact hrun

theorem table_fills : ∃ s, run (step demoCfg) demoInit ((List.range' 0 1023).map connectRound) = some s ∧
    Reach (step demoCfg) HasRoom demoInit s ∧ Filled 1023 s := by
  have h0 : Filled 0 demoInit := by
    refine ⟨rfl, ?_, fun _ _ => rfl⟩
    show (frees (-1) (Function.update (fun _ => -1) 0 demoCfg.listenFd)).card + 0 + 1 = pollFdsLen
    rw [frees_put (demoCfg.listen_ne)]
    decide +kernel
  simpa using h0.connects 1023 (init_inv demoCfg _ _) (by decide)

theorem Filled.full (h : Filled 1023 s) (i : Slot) : s.fds i ≠ -1 := by
  intro hi
  have hpos := Finset.card_pos.mpr ⟨i, mem_frees.mpr hi⟩
  have hfree : (frees (-1) s.fds).card + 1023 + 1 = 1024 := h.free
  omega

/-- `servPoll_sound` at the state with a full table. -/
theorem servPoll_sound_full : ∃ s,
    run (step demoCfg) demoInit ((List.range' 0 1023).map connectRound) = some s ∧
      (∀ i, s.fds i ≠ -1) ∧ TableOk demoCfg s ∧
      ∀ revents acc reads s', step demoCfg s (.ready revents acc reads) = some s' →
        ∃ round, RoundOk s revents s' round := by
  obtain ⟨s, hrun, hreach, hfull⟩ := table_fills
  exact ⟨s, hrun, hfull.full, servPoll_sound hreach⟩

/-- The 1024th client that connects gets 1028 and stays open on it, and no
entry has it. -/
theorem full_table_leaks : ∃ s,
    run (step demoCfg) demoInit ((List.range' 0 1024).map connectRound) = some s ∧
      (∃ n, s.kern.ofd 1028 = some n) ∧ (∀ i, s.fds i ≠ 1028) ∧ ¬ TableOk demoCfg s := by
  obtain ⟨s, hrun, hreach, hfull⟩ := table_fills
  have hinv := reach_inv hreach.any
  have hnew : s.kern.ofd (5 + (1023 : Nat)) = none ∧ demoCfg.own (5 + (1023 : Nat)) = false :=
    ⟨hfull.unused _ (by omega), demoCfg_own 1023⟩
  have hnone : firstFree (-1) (List.finRange pollFdsLen) s.fds = none := by
    rw [firstFree, List.find?_eq_none]
    intro i _
    simpa using hfull.full i
  have hout : ∀ i, s.fds i ≠ 1028 := hinv.absent hnew.1 hnew.2 (by decide)
  have hlast : step demoCfg s (connectRound 1023) = some { s with
      revents := listenReady
      kern := s.kern.alloc (5 + (1023 : Nat)) hnew.1
      calls := s.calls ++ [.accept (5 + (1023 : Nat)) s.kern.opened] } := by
    rw [connectRound_step hinv hfull.running]
    unfold acceptClient
    rw [if_neg (by omega), dif_pos hnew]
    simp only [hnone]
  have hopen : (s.kern.alloc (5 + (1023 : Nat)) hnew.1).ofd 1028 = some s.kern.opened :=
    FdTable.alloc_ofd_self hnew.1
  have hall : run (step demoCfg) demoInit ((List.range' 0 1024).map connectRound) =
      (step demoCfg s (connectRound 1023)).bind some := by
    rw [List.range'_concat (n := 1023), List.map_append, run_append hrun]
    rfl
  rw [hall, hlast]
  refine ⟨_, rfl, ⟨s.kern.opened, hopen⟩, hout, ?_⟩
  intro hok
  obtain ⟨-, i, -, hi⟩ := (hok.clients 1028).mpr ⟨_, hopen⟩
  exact hout i hi

end LinuxServer.Poll
