/-
A stream server that keeps its clients in a table of descriptors.

`Shows` ties the table, the process's descriptors and its connections to the
server of `StreamServer`: it watches the connections whose descriptors stand
in the table. Each thing done to the table is an action of that server.
-/
import LinuxServer.Lib.FdTable
import LinuxServer.Lib.StreamServer

namespace TableServer

open Lts Inbound StreamServer

variable {ι φ α ε : Type*} [DecidableEq ι] [DecidableEq φ] [DecidableEq α] [DecidableEq ε]

/-- The server `t` is what the table (its slots `S`, `free` marking those not
in use), the descriptors and the connections make. -/
structure Shows (free : φ) (S : ι → Prop) (fds : ι → φ) (kern : FdTable φ) (net : Net α ε) (refused : Nat → Prop)
    (t : StreamServer.St α ε) : Prop where
  net : t.net = net
  accepted : t.accepted = kern.opened
  watched : ∀ n, n ∈ t.watched ↔ ∃ i, S i ∧ fds i ≠ free ∧ kern.ofd (fds i) = some n
  refused : ∀ n ∈ t.refused, refused n

variable {free : φ} {S : ι → Prop} {fds : ι → φ} {kern kern' : FdTable φ} {net net' : Net α ε}
  {refused refused' : Nat → Prop} {t : StreamServer.St α ε} {i : ι} {f : φ} {n cap : Nat}

omit [DecidableEq ι] [DecidableEq φ] in
theorem Shows.client (h : Shows free S fds kern net refused t) (a : Client α ε) :
    step cap t (.client a) = some { t with net := net.client a } ∧
    Shows free S fds kern (net.client a) refused { t with net := net.client a } :=
  ⟨by rw [← h.net]; rfl, rfl, h.accepted, h.watched, h.refused⟩

theorem Shows.put (cap : Nat) (h : Shows free S fds kern net refused t) (hi : fds i = free) (hS : S i)
    (hne : f ≠ free) (hf : kern.ofd f = none) (ha : net.accept kern.opened = some net')
    (hmono : ∀ n, refused n → refused' n) :
    ∃ t', step cap t .accept = some t' ∧
      Shows free S (Function.update fds i f) (kern.alloc f hf) net' refused' t' := by
  refine ⟨⟨net', kern.opened + 1, insert kern.opened t.watched, t.refused⟩,
    by rw [step, h.net, h.accepted, ha]; rfl, rfl, rfl, fun n => ?_, fun n hn => hmono n (h.refused n hn)⟩
  simp only [Finset.mem_insert, h.watched]
  constructor
  · rintro (rfl | ⟨j, hj, hjf, hn⟩)
    · exact ⟨i, hS, by simpa using hne, by simp⟩
    · have hji : j ≠ i := fun he => hjf (he ▸ hi)
      refine ⟨j, hj, by rwa [Function.update_of_ne hji], ?_⟩
      rw [Function.update_of_ne hji]
      exact FdTable.alloc_ofd_old hf hn
  · rintro ⟨j, hj, hjf, hn⟩
    rcases FdTable.alloc_ofd_cases hf hn with ⟨-, rfl⟩ | ⟨hjne, hn⟩
    · exact .inl rfl
    · have hji : j ≠ i := by
        rintro rfl
        exact hjne (Function.update_self ..)
      rw [Function.update_of_ne hji] at hjf hn
      exact .inr ⟨j, hj, hjf, hn⟩

omit [DecidableEq ι] [DecidableEq φ] in
theorem Shows.refuse (cap : Nat) (h : Shows free S fds kern net refused t)
    (hkern : ∀ i, S i → fds i ≠ free → kern'.ofd (fds i) = kern.ofd (fds i))
    (hopen : kern'.opened = kern.opened + 1) (ha : net.accept kern.opened = some net')
    (hmono : ∀ n, refused n → refused' n) (hr : refused' kern.opened) :
    ∃ t', step cap t .refuse = some t' ∧ Shows free S fds kern' net' refused' t' := by
  refine ⟨⟨net', kern.opened + 1, t.watched, insert kern.opened t.refused⟩,
    by rw [step, h.net, h.accepted, ha]; rfl, rfl, hopen.symm, fun n => ?_, fun n hn => ?_⟩
  · rw [h.watched]
    constructor
    · rintro ⟨j, hj, hjf, hn⟩
      exact ⟨j, hj, hjf, (hkern j hj hjf).trans hn⟩
    · rintro ⟨j, hj, hjf, hn⟩
      exact ⟨j, hj, hjf, (hkern j hj hjf).symm.trans hn⟩
  · rcases Finset.mem_insert.mp hn with rfl | hn
    · exact hr
    · exact hmono n (h.refused n hn)

variable {out : Out α ε} {keep : Bool}

omit [DecidableEq ι] [DecidableEq φ] in
theorem Shows.read (h : Shows free S fds kern net refused t) (hS : S i) (hi : fds i ≠ free)
    (hn : kern.ofd (fds i) = some n) (hr : net.recv cap (some n) out = some net') (hends : ends keep out = false)
    (hmono : ∀ n, refused n → refused' n) :
    ∃ t', step cap t (.recv n out keep) = some t' ∧ Shows free S fds kern net' refused' t' := by
  have hw : n ∈ t.watched := (h.watched n).mpr ⟨i, hS, hi, hn⟩
  refine ⟨⟨net', t.accepted, t.watched, t.refused⟩, ?_, rfl, h.accepted, h.watched,
    fun n hn => hmono n (h.refused n hn)⟩
  rw [step, if_pos hw, h.net, hr, hends]
  rfl

theorem Shows.close (h : Shows free S fds kern net refused t) (hS : S i) (hi : fds i ≠ free)
    (hn : kern.ofd (fds i) = some n) (hr : net.recv cap (some n) out = some net') (hends : ends keep out = true)
    (hmono : ∀ n, refused n → refused' n) :
    ∃ t', step cap t (.recv n out keep) = some t' ∧
      Shows free S (Function.update fds i free) (kern.close (fds i)) net' refused' t' := by
  have hw : n ∈ t.watched := (h.watched n).mpr ⟨i, hS, hi, hn⟩
  refine ⟨⟨net', t.accepted, t.watched.erase n, t.refused⟩, by rw [step, if_pos hw, h.net, hr, hends]; rfl, rfl,
    h.accepted.trans FdTable.close_opened.symm, fun m => ?_, fun n hn => hmono n (h.refused n hn)⟩
  rw [Finset.mem_erase, h.watched]
  constructor
  · rintro ⟨hmn, j, hj, hjf, hm⟩
    have hji : j ≠ i := by
      rintro rfl
      rw [hn, Option.some.injEq] at hm
      exact hmn hm.symm
    exact ⟨j, hj, by rwa [Function.update_of_ne hji], by
      rw [Function.update_of_ne hji]
      exact FdTable.close_ofd_keep hn hm hmn⟩
  · rintro ⟨j, hj, hjf, hm⟩
    have hji : j ≠ i := by
      rintro rfl
      exact hjf (Function.update_self ..)
    rw [Function.update_of_ne hji] at hjf hm
    obtain ⟨hne, hm⟩ := FdTable.close_ofd_some.mp hm
    refine ⟨?_, j, hj, hjf, hm⟩
    rintro rfl
    exact hne (FdTable.ofd_inj hm hn)

/-! ## A loop over the slots -/

section Scan

variable {σ : Type*} {body : σ → ι → Option σ} {reads : σ → ι → Prop} {s s' : σ} {todo : List ι}

omit [DecidableEq ι]

theorem scan_skip (hskip : ∀ s i, ¬ reads s i → body s i = some s) (h : ∀ i ∈ todo, ¬ reads s i) :
    todo.foldlM body s = some s := by
  induction todo with
  | nil => rfl
  | cons i todo ih =>
    rw [List.forall_mem_cons] at h
    rw [List.foldlM_cons, hskip s i h.1]
    exact ih h.2

/-- With one slot to read, the loop reads it and passes over the rest. -/
theorem scan_one (hskip : ∀ s i, ¬ reads s i → body s i = some s) (hd : todo.Nodup)
    (hone : ∀ i, reads s i → ∃ s₁, body s i = some s₁ ∧ ∀ j, j ≠ i → ¬ reads s₁ j) :
    (todo.foldlM body s).isSome := by
  induction todo with
  | nil => rfl
  | cons i todo ih =>
    obtain ⟨hi, hd⟩ := List.nodup_cons.mp hd
    rw [List.foldlM_cons]
    by_cases hr : reads s i
    · obtain ⟨s₁, h₁, hrest⟩ := hone i hr
      have hnone : ∀ j ∈ todo, ¬ reads s₁ j := by
        intro j hj
        refine hrest j ?_
        rintro rfl
        exact hi hj
      rw [h₁]
      show (List.foldlM body s₁ todo).isSome
      rw [scan_skip hskip hnone]
      rfl
    · rw [hskip s i hr]
      exact ih hd

variable {Shown : σ → StreamServer.St α ε → Prop} {I : σ → Prop}

omit [DecidableEq φ] in
/-- **The scan rule.** Where the body of the loop is a run of the stream
server, empty for the slots not read, and reads of one slot are no matter
to another, the loop is a run too, empty if it reads no slot. -/
theorem scan_shows
    (hbody : ∀ s i s' t, I s → S i → Shown s t → body s i = some s' → I s' ∧
      ∃ as t', runWhere (step cap) Own t as = some t' ∧ Shown s' t' ∧ (as = [] ↔ ¬ reads s i))
    (hother : ∀ s i s' j, body s i = some s' → j ≠ i → (reads s' j ↔ reads s j)) :
    ∀ {todo : List ι} {s : σ} {t : StreamServer.St α ε}, I s → Shown s t → todo.Nodup → (∀ i ∈ todo, S i) →
      todo.foldlM body s = some s' → I s' ∧
      ∃ as t', runWhere (step cap) Own t as = some t' ∧ Shown s' t' ∧ (as = [] ↔ ∀ i ∈ todo, ¬ reads s i)
  | [], s, t, hs, ht, _, _, h => by
    cases h
    exact ⟨hs, [], t, rfl, ht, by simp⟩
  | i :: todo, s, t, hs, ht, hd, hS, h => by
    rw [List.foldlM_cons] at h
    obtain ⟨s₁, h₁, h⟩ := Option.bind_eq_some_iff.mp h
    obtain ⟨hni, hd⟩ := List.nodup_cons.mp hd
    rw [List.forall_mem_cons] at hS
    obtain ⟨hs₁, as, t₁, hrun, ht₁, hnil⟩ := hbody s i s₁ t hs hS.1 ht h₁
    obtain ⟨hs₂, bs, t₂, hrun', ht₂, hnil'⟩ := scan_shows hbody hother hs₁ ht₁ hd hS.2 h
    refine ⟨hs₂, as ++ bs, t₂, runWhere_append hrun hrun', ht₂, ?_⟩
    rw [List.append_eq_nil_iff, hnil, hnil', List.forall_mem_cons]
    refine and_congr_right fun _ => forall₂_congr fun j hj => not_congr (hother s i s₁ j h₁ ?_)
    rintro rfl
    exact hni hj

end Scan

/-! ## What there is to do -/

variable [Fintype ι] [DecidablePred S]

/-- The connections whose descriptors stand in the table. -/
def inTable (free : φ) (S : ι → Prop) [DecidablePred S] (fds : ι → φ) (kern : FdTable φ) : Finset Nat :=
  (Finset.range kern.opened).filter fun n => ∃ i, S i ∧ fds i ≠ free ∧ kern.ofd (fds i) = some n

/-- What is still to be done for the clients in the table, and those waiting. -/
def work (free : φ) (S : ι → Prop) [DecidablePred S] (fds : ι → φ) (kern : FdTable φ) (net : Net α ε) : Nat :=
  StreamServer.work ⟨net, kern.opened, inTable free S fds kern, ∅⟩

omit [DecidableEq ι] [DecidableEq α] [DecidableEq ε] in
theorem Shows.work_eq (h : Shows free S fds kern net refused t) :
    StreamServer.work t = work free S fds kern net := by
  have hw : t.watched = inTable free S fds kern := by
    ext n
    rw [inTable, Finset.mem_filter, Finset.mem_range, h.watched]
    refine ⟨fun hex => ⟨?_, hex⟩, And.right⟩
    obtain ⟨j, -, -, hj⟩ := hex
    exact FdTable.lt_opened hj
  simp only [work, StreamServer.work, h.net, hw]

/-! ## What the table's server does for its clients -/

omit [DecidableEq ι] [DecidableEq φ] [DecidableEq α] [DecidableEq ε] [Fintype ι] [DecidablePred S] in
theorem Shows.logged_prefix (h : Shows free S fds kern net refused t) (hinv : StreamServer.Inv t) (n : Nat) :
    (net.logged n).flatten <+: (net.conn n).sent :=
  h.net ▸ hinv.logged_prefix n

omit [DecidableEq ι] [DecidableEq φ] [DecidableEq α] [DecidableEq ε] [Fintype ι] [DecidablePred S] in
/-- A connection not in the table was refused or reset, or is logged to its end. -/
theorem Shows.done (h : Shows free S fds kern net refused t) (hinv : StreamServer.Inv t) (hn : n < kern.opened)
    (hout : ∀ i, S i → fds i ≠ free → kern.ofd (fds i) ≠ some n) :
    refused n ∨ (net.conn n).broken = true ∨
      ((net.conn n).fin = true ∧ (net.logged n).flatten = (net.conn n).sent) := by
  have hw : n ∉ t.watched := by
    rw [h.watched]
    rintro ⟨i, hi, hfree, hin⟩
    exact hout i hi hfree hin
  by_cases href : n ∈ t.refused
  · exact .inl (h.refused n href)
  · have hdone := hinv.done n (h.accepted ▸ hn) hw href
    rw [Whole, ← hinv.logged, h.net] at hdone
    exact .inr hdone

omit [DecidableEq ι] [DecidableEq φ] [DecidableEq α] [DecidableEq ε] [Fintype ι] [DecidablePred S] in
/-- At rest every connection not refused and not reset is logged whole. -/
theorem Shows.whole (h : Shows free S fds kern net refused t) (hinv : StreamServer.Inv t) (hrest : Rest t)
    (hn : n < kern.opened) (href : ¬ refused n) (hb : (net.conn n).broken = false) :
    (net.logged n).flatten = (net.conn n).sent := by
  rw [← h.net] at hb ⊢
  exact hrest.whole hinv (h.accepted ▸ hn) (fun hm => href (h.refused n hm)) hb

omit [DecidableEq ι] in
theorem Shows.run_le {fds' : ι → φ} {t' : StreamServer.St α ε} {as : List (Act α ε)}
    (h : Shows free S fds kern net refused t) (h' : Shows free S fds' kern' net' refused' t')
    (hinv : StreamServer.Inv t) (hr : runWhere (step cap) Own t as = some t') :
    as.length + work free S fds' kern' net' ≤ work free S fds kern net := by
  rw [← h.work_eq, ← h'.work_eq]
  exact run_work hinv hr

omit [DecidableEq ι] in
theorem Shows.work_lt_iff {fds' : ι → φ} {t' : StreamServer.St α ε} {as : List (Act α ε)}
    (h : Shows free S fds kern net refused t) (h' : Shows free S fds' kern' net' refused' t')
    (hinv : StreamServer.Inv t) (hr : runWhere (step cap) Own t as = some t') :
    work free S fds' kern' net' < work free S fds kern net ↔ as ≠ [] := by
  have hle := h.run_le h' hinv hr
  constructor
  · rintro hlt rfl
    cases hr
    rw [← h.work_eq, ← h'.work_eq] at hlt
    exact Nat.lt_irrefl _ hlt
  · intro hne
    have := List.length_pos_iff.mpr hne
    omega

end TableServer
