/-
The descriptors `serv_select` puts into an `fd_set`, which has room for
those below `FD_SETSIZE`. Nothing in the code compares them: that they are
small follows from the kernel handing out the lowest free number, and from
the table, which has an entry for every open client (`Inv.clients`). A
client refused by the full table is closed, so no number is lost to it.
-/
import LinuxServer.Lib.LowestFree
import LinuxServer.SelectSound

namespace LinuxServer.Select

open SlotTable Lts

/-- `FD_SETSIZE`. -/
def fdSetsize : Int := 1024

/-- `f` is open in the process. -/
def Used (c : Cfg) (s : St) (f : Int) : Prop := c.own f = true ∨ s.kern.ofd f ≠ none

/-- Where `accept` returns a descriptor, it is the lowest free one. -/
def AcceptsLowest (c : Cfg) (s : St) : Answer → Prop
  | .ready rfds acc _ => c.listenFd ∈ rfds → 0 ≤ acc → LowestFree (Used c s) acc
  | .timeout | .failed => True

instance (c : Cfg) (s : St) : DecidablePred (Used c s) := fun _ => inferInstanceAs (Decidable (_ ∨ _))

instance (c : Cfg) (s : St) (ans : Answer) : Decidable (AcceptsLowest c s ans) :=
  match ans with
  | .ready rfds acc _ => inferInstanceAs (Decidable (c.listenFd ∈ rfds → 0 ≤ acc → LowestFree (Used c s) acc))
  | .timeout | .failed => isTrue trivial

/-- The descriptors the read loop gives to `FD_ISSET`, from the slots `todo` on. -/
def testedFrom (rfds : Finset Int) (reads : Slot → ReadResult) : St → List Slot → List Int
  | _, [] => []
  | s, i :: todo =>
    let rest := testedFrom rfds reads (readSlot rfds reads s i) todo
    if s.fds i ≠ -1 then s.fds i :: rest else rest

/-- The descriptors given to `FD_ISSET` in a round: the listening socket's,
and after the accept part those of the read loop. -/
def tested (c : Cfg) (s : St) (rfds : Finset Int) (acc : Int) (reads : Slot → ReadResult) : List Int :=
  let s := { s with maxfd := raiseMaxfd s.fds s.maxfd }
  c.listenFd ::
    match if c.listenFd ∈ rfds then acceptClient c s acc else some s with
    | some s => testedFrom rfds reads s readSlots
    | none => []

variable {c : Cfg} {B : Int} {s s' : St} {rfds : Finset Int} {acc : Int} {reads : Slot → ReadResult}

/-- The entries of the table are numbers below `B + SELECT_FDS_LEN`. -/
def Small (B : Int) (s : St) : Prop := ∀ i, s.fds i ≠ -1 → 0 ≤ s.fds i ∧ s.fds i < B + selectFdsLen

/-- The entries besides the listening socket's are at most one a slot. -/
theorem card_clients (s : St) : ((Finset.univ.erase 0).image s.fds).card < selectFdsLen := by
  refine Nat.lt_of_le_of_lt Finset.card_image_le ?_
  rw [Finset.card_erase_of_mem (Finset.mem_univ 0), Finset.card_univ, Fintype.card_fin]
  decide

/-- What is open is the process's own or has an entry, so the lowest free number is small. -/
theorem Inv.lowest_lt (hs : Inv c s) (hB : 0 ≤ B) (hown : ∀ f, c.own f = true → f < B)
    (h : LowestFree (Used c s) acc) : acc < B + selectFdsLen := by
  have hused : ∀ g, Used c s g → g < B ∨ g ∈ (Finset.univ.erase 0).image s.fds := by
    rintro g (hg | hg)
    · exact .inl (hown g hg)
    · obtain ⟨-, i, hi, hfds⟩ := (hs.clients g).mpr (Option.ne_none_iff_exists'.mp hg)
      exact .inr (Finset.mem_image.mpr ⟨i, Finset.mem_erase.mpr ⟨hi, Finset.mem_univ i⟩, hfds⟩)
  have hle := h.le_add_card hB hused
  have hlt := card_clients s
  omega

theorem Small.accept (hsm : Small B s) (hacc : 0 ≤ acc → acc < B + selectFdsLen)
    (h : acceptClient c s acc = some s') : Small B s' := by
  obtain ⟨-, rfl⟩ | ⟨-, -, h0, ⟨i, -, rfl⟩ | ⟨-, rfl⟩⟩ := acceptClient_cases h
  · exact hsm
  · intro j hj
    by_cases hji : j = i
    · subst hji
      simp only [Function.update_self]
      exact ⟨h0, hacc h0⟩
    · simp only [Function.update_of_ne hji] at hj ⊢
      exact hsm j hj
  · exact hsm

theorem Small.readSlot (hsm : Small B s) (rfds : Finset Int) (reads : Slot → ReadResult) (i : Slot) :
    Small B (readSlot rfds reads s i) := by
  obtain he | ⟨-, -, he | he⟩ := readSlot_cases rfds reads s i <;> rw [he]
  · exact hsm
  · exact hsm
  · intro j hj
    by_cases hji : j = i
    · subst hji
      exact absurd (Function.update_self ..) hj
    · simp only [Function.update_of_ne hji] at hj ⊢
      exact hsm j hj

theorem Small.scan (rfds : Finset Int) (reads : Slot → ReadResult) : ∀ (todo : List Slot) {s : St}, Small B s →
    Small B (todo.foldl (Select.readSlot rfds reads) s) ∧
    ∀ f ∈ testedFrom rfds reads s todo, 0 ≤ f ∧ f < B + selectFdsLen
  | [], _, hsm => ⟨hsm, by simp [testedFrom]⟩
  | i :: todo, s, hsm => by
    obtain ⟨hend, hrest⟩ := Small.scan rfds reads todo (hsm.readSlot rfds reads i)
    refine ⟨hend, fun f hf => ?_⟩
    unfold testedFrom at hf
    split at hf
    · next hne =>
      rcases List.mem_cons.mp hf with rfl | hf
      · exact hsm i hne
      · exact hrest f hf
    · exact hrest f hf

theorem Small.round (hsm : Small B s) (hs : Inv c s) (hB : 0 ≤ B) (hown : ∀ f, c.own f = true → f < B)
    (hok : AcceptsLowest c s (.ready rfds acc reads)) (h : step c s (.ready rfds acc reads) = some s') :
    Small B s' ∧ ∀ f ∈ tested c s rfds acc reads, 0 ≤ f ∧ f < B + selectFdsLen := by
  have hlisten : 0 ≤ c.listenFd ∧ c.listenFd < B + selectFdsLen := by
    have := hown _ c.listen_own
    exact ⟨c.own_nonneg _ c.listen_own, by omega⟩
  unfold step at h
  split at h
  · cases h
  simp only at h
  split at h
  · obtain ⟨s₁, h₁, rfl⟩ := Option.map_eq_some_iff.mp h
    have hsm₁ : Small B s₁ := by
      split at h₁
      · next hl =>
        have hsm₀ : Small B { s with maxfd := raiseMaxfd s.fds s.maxfd } := hsm
        exact hsm₀.accept (fun h0 => hs.lowest_lt hB hown (hok hl h0)) h₁
      · cases h₁; exact hsm
    obtain ⟨hend, htested⟩ := hsm₁.scan rfds reads readSlots
    refine ⟨hend, fun f hf => ?_⟩
    simp only [tested, h₁, List.mem_cons] at hf
    rcases hf with rfl | hf
    · exact hlisten
    · exact htested f hf
  · cases h

theorem step_small {ans : Answer} (hsm : Small B s) (hs : Inv c s) (hB : 0 ≤ B)
    (hown : ∀ f, c.own f = true → f < B) (hok : AcceptsLowest c s ans) (h : step c s ans = some s') :
    Small B s' := by
  cases ans with
  | ready rfds acc reads => exact (hsm.round hs hB hown hok h).1
  | timeout | failed =>
    unfold step at h
    split at h
    · cases h
    · cases h; exact hsm

theorem reach_small (hB : 0 ≤ B) (hown : ∀ f, c.own f = true → f < B)
    (h : Reach (step c) (AcceptsLowest c) (init c) s) : Small B s := by
  have hinit : Small B (init c) := by
    intro i hi
    by_cases h0 : i = 0
    · subst h0
      have hlt := hown _ c.listen_own
      simp only [init, Function.update_self]
      exact ⟨c.own_nonneg _ c.listen_own, by omega⟩
    · exact absurd (by simp [init, h0]) hi
  have hboth : Inv c s ∧ Small B s :=
    h.invariant (I := fun s => Inv c s ∧ Small B s) ⟨init_inv c, hinit⟩ fun _ _ _ hI hok hs =>
      ⟨step_inv hI.1 hs, step_small hI.2 hI.1 hB hown hok hs⟩
  exact hboth.2

/-! ## `maxfd` -/

theorem le_foldl_max (fds : Slot → Int) : ∀ (l : List Slot) (m : Int),
    m ≤ l.foldl (fun m i => if fds i ≠ -1 then max (fds i) m else m) m ∧
    ∀ i ∈ l, fds i ≠ -1 → fds i ≤ l.foldl (fun m i => if fds i ≠ -1 then max (fds i) m else m) m
  | [], m => by simp
  | i :: l, m => by
    obtain ⟨hm, hl⟩ := le_foldl_max fds l (if fds i ≠ -1 then max (fds i) m else m)
    rw [List.foldl_cons]
    refine ⟨le_trans ?_ hm, fun j hj hne => ?_⟩
    · split
      · exact le_max_right _ _
      · exact le_refl m
    · rcases List.mem_cons.mp hj with rfl | hj
      · rw [if_pos hne] at hm ⊢
        exact le_trans (le_max_left _ _) hm
      · exact hl j hj hne

theorem le_raiseMaxfd {fds : Slot → Int} {m f : Int} (hf : f ∈ fdSet fds) : f ≤ raiseMaxfd fds m := by
  simp only [fdSet, Finset.mem_filter, Finset.mem_image, Finset.mem_univ, true_and] at hf
  obtain ⟨⟨i, rfl⟩, hne⟩ := hf
  exact (le_foldl_max fds _ m).2 i (List.mem_finRange i) hne

/-- **The descriptors of `serv_select` fit an `fd_set`.** With `accept`
returning the lowest free number, and the process's own descriptors below
`B` with `B + SELECT_FDS_LEN` at most `FD_SETSIZE`: in every round of every
run, whatever the limit on open files, the descriptors given to `FD_SET` and
to `FD_ISSET` are below `FD_SETSIZE`, and none in the set is above `maxfd`. -/
theorem servSelect_fds_fit (hown : ∀ f, c.own f = true → f < B) (hB : B + selectFdsLen ≤ fdSetsize)
    (h : Reach (step c) (AcceptsLowest c) (init c) s) :
    (∀ f ∈ fdSet s.fds, 0 ≤ f ∧ f < fdSetsize) ∧ (∀ f ∈ fdSet s.fds, f ≤ raiseMaxfd s.fds s.maxfd) ∧
    ∀ rfds acc reads s', AcceptsLowest c s (.ready rfds acc reads) →
      step c s (.ready rfds acc reads) = some s' → ∀ f ∈ tested c s rfds acc reads, 0 ≤ f ∧ f < fdSetsize := by
  have hB0 : 0 ≤ B := by
    have hlt := hown _ c.listen_own
    have h0 := c.own_nonneg _ c.listen_own
    omega
  have hfit : ∀ {f : Int}, 0 ≤ f ∧ f < B + selectFdsLen → 0 ≤ f ∧ f < fdSetsize := fun hf =>
    ⟨hf.1, lt_of_lt_of_le hf.2 hB⟩
  have hsm := reach_small hB0 hown h
  refine ⟨fun f hf => ?_, fun f hf => le_raiseMaxfd hf, fun rfds acc reads s' hok hs f hf => ?_⟩
  · simp only [fdSet, Finset.mem_filter, Finset.mem_image, Finset.mem_univ, true_and] at hf
    obtain ⟨⟨i, rfl⟩, hne⟩ := hf
    exact hfit (hsm i hne)
  · exact hfit ((hsm.round (reach_inv h.any) hB0 hown hok hs).2 f hf)

theorem demoRounds_lowest : (runWhere (step demoCfg) (AcceptsLowest demoCfg) (init demoCfg) demoRounds).isSome := by
  decide +kernel

/-- `servSelect_fds_fit` at the end of `demoRounds`, where 5 was given out twice. -/
theorem servSelect_fds_fit_demo :
    let s := (runWhere (step demoCfg) (AcceptsLowest demoCfg) (init demoCfg) demoRounds).get demoRounds_lowest
    (∀ f ∈ fdSet s.fds, 0 ≤ f ∧ f < fdSetsize) ∧ (∀ f ∈ fdSet s.fds, f ≤ raiseMaxfd s.fds s.maxfd) ∧
    ∀ rfds acc reads s', AcceptsLowest demoCfg s (.ready rfds acc reads) →
      step demoCfg s (.ready rfds acc reads) = some s' →
      ∀ f ∈ tested demoCfg s rfds acc reads, 0 ≤ f ∧ f < fdSetsize :=
  servSelect_fds_fit (B := 5) (fun f hf => by simp [demoCfg] at hf; omega) (by decide)
    (reachWhere_get demoRounds_lowest)

end LinuxServer.Select
