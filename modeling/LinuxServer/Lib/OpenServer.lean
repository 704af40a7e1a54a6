/-
A stream server that watches every connection its process has open.

`Shows` ties the descriptors and the connections to the server of
`StreamServer`; an open, a read and a close are actions of that server.
Nothing is refused.
-/
import LinuxServer.Lib.FdTable
import LinuxServer.Lib.StreamServer

namespace OpenServer

open Lts Inbound StreamServer

variable {φ α ε : Type*}

/-- The server `t` is what the descriptors and the connections make. -/
structure Shows (kern : FdTable φ) (net : Net α ε) (t : StreamServer.St α ε) : Prop where
  net : t.net = net
  accepted : t.accepted = kern.opened
  watched : ∀ n, n ∈ t.watched ↔ ∃ f, kern.ofd f = some n
  refused : t.refused = ∅

variable {kern kern' : FdTable φ} {net net' : Net α ε} {t t' : StreamServer.St α ε} {f : φ} {n cap : Nat}
  {out : Out α ε} {keep : Bool} {as : List (Act α ε)}

theorem Shows.init : Shows (φ := φ) .empty .empty (StreamServer.init : StreamServer.St α ε) :=
  ⟨rfl, rfl, by simp [StreamServer.init, FdTable.empty], rfl⟩

/-- Several chunks of connection `n` are read. -/
def recvs [DecidableEq α] [DecidableEq ε] (cap n : Nat) (net : Net α ε) : List (List α) → Option (Net α ε)
  | [] => some net
  | bytes :: chunks => (net.recv cap (some n) (.data bytes)).bind fun net => recvs cap n net chunks

/-! ## What is done to the descriptors -/

section Steps

variable [DecidableEq α] [DecidableEq ε]

theorem Shows.client (cap : Nat) (h : Shows kern net t) (a : Client α ε) :
    ∃ t', step cap t (.client a) = some t' ∧ Shows kern (net.client a) t' :=
  ⟨{ t with net := net.client a }, by rw [← h.net]; rfl, rfl, h.accepted, h.watched, h.refused⟩

theorem Shows.accept [DecidableEq φ] (cap : Nat) (h : Shows kern net t) (hf : kern.ofd f = none)
    (ha : net.accept kern.opened = some net') :
    ∃ t', step cap t .accept = some t' ∧ Shows (kern.alloc f hf) net' t' := by
  refine ⟨⟨net', kern.opened + 1, insert kern.opened t.watched, t.refused⟩,
    by rw [step, h.net, h.accepted, ha]; rfl, rfl, rfl, fun m => ?_, h.refused⟩
  simp only [Finset.mem_insert, h.watched]
  constructor
  · intro hm
    rcases hm with rfl | ⟨g, hg⟩
    · exact ⟨f, FdTable.alloc_ofd_self hf⟩
    · exact ⟨g, FdTable.alloc_ofd_old hf hg⟩
  · intro hm
    obtain ⟨g, hg⟩ := hm
    rcases FdTable.alloc_ofd_cases hf hg with ⟨-, rfl⟩ | ⟨-, hg⟩
    · exact .inl rfl
    · exact .inr ⟨g, hg⟩

theorem Shows.read (h : Shows kern net t) (hn : kern.ofd f = some n) (hr : net.recv cap (some n) out = some net')
    (hends : ends keep out = false) :
    ∃ t', step cap t (.recv n out keep) = some t' ∧ Shows kern net' t' := by
  have hw : n ∈ t.watched := (h.watched n).mpr ⟨f, hn⟩
  refine ⟨⟨net', t.accepted, t.watched, t.refused⟩, ?_, rfl, h.accepted, h.watched, h.refused⟩
  rw [step, if_pos hw, h.net, hr, hends]
  rfl

theorem Shows.recvs (hn : kern.ofd f = some n) {chunks : List (List α)} (h : Shows kern net t)
    (hr : OpenServer.recvs cap n net chunks = some net') :
    ∃ t', runWhere (step cap) Own t (chunks.map fun bytes => .recv n (.data bytes) false) = some t' ∧
      Shows kern net' t' := by
  induction chunks generalizing net t with
  | nil =>
    cases hr
    exact ⟨t, rfl, h⟩
  | cons bytes chunks ih =>
    obtain ⟨net₁, hrecv, hr⟩ := Option.bind_eq_some_iff.mp hr
    obtain ⟨t₁, hstep, h₁⟩ := h.read hn hrecv (rfl : ends false (.data bytes : Out α ε) = false)
    obtain ⟨t', hrun, h'⟩ := ih h₁ hr
    have hone : runWhere (step cap) Own t [.recv n (.data bytes) false] = some t₁ := run_own trivial hstep
    exact ⟨t', runWhere_append hone hrun, h'⟩

theorem recvs_net {chunks : List (List α)} (hr : OpenServer.recvs cap n net chunks = some net') :
    net'.log = net.log ++ chunks.map (n, ·) ∧ net'.backlog = net.backlog ∧
      (∀ m, m ≠ n → net'.conn m = net.conn m) ∧ ∀ bytes ∈ chunks, bytes ≠ [] ∧ bytes.length ≤ cap := by
  induction chunks generalizing net with
  | nil =>
    cases hr
    exact ⟨(List.append_nil _).symm, rfl, fun _ _ => rfl, by simp⟩
  | cons bytes chunks ih =>
    obtain ⟨net₁, hrecv, hr⟩ := Option.bind_eq_some_iff.mp hr
    obtain ⟨x, hx, rfl⟩ := recv_eq hrecv
    obtain ⟨hlog, hback, hconn, hlen⟩ := ih hr
    refine ⟨?_, hback, fun m hm => (hconn m hm).trans (Function.update_of_ne hm _ _), ?_⟩
    · rw [hlog, List.append_assoc]
      rfl
    · rw [List.forall_mem_cons]
      exact ⟨recv_length hx, hlen⟩

theorem Shows.close [DecidableEq φ] (h : Shows kern net t) (hn : kern.ofd f = some n)
    (hr : net.recv cap (some n) out = some net') (hends : ends keep out = true) :
    ∃ t', step cap t (.recv n out keep) = some t' ∧ Shows (kern.close f) net' t' := by
  have hw : n ∈ t.watched := (h.watched n).mpr ⟨f, hn⟩
  refine ⟨⟨net', t.accepted, t.watched.erase n, t.refused⟩, by rw [step, if_pos hw, h.net, hr, hends]; rfl, rfl,
    h.accepted.trans FdTable.close_opened.symm, fun m => ?_, h.refused⟩
  rw [Finset.mem_erase, h.watched]
  constructor
  · intro hm
    obtain ⟨hmn, g, hg⟩ := hm
    exact ⟨g, FdTable.close_ofd_keep hn hg hmn⟩
  · intro hm
    obtain ⟨g, hg⟩ := hm
    obtain ⟨hgf, hg⟩ := FdTable.close_ofd_some.mp hg
    refine ⟨fun he => hgf (FdTable.ofd_inj hg (he ▸ hn)), g, hg⟩

end Steps

/-! ## What there is to do -/

/-- The connections open. -/
def openConns (kern : FdTable φ) : Finset Nat := (Finset.range kern.opened).filter fun n => kern.closes n = 0

/-- What is still to be done for the open connections, and those waiting. -/
def work (kern : FdTable φ) (net : Net α ε) : Nat := StreamServer.work ⟨net, kern.opened, openConns kern, ∅⟩

theorem mem_openConns : n ∈ openConns kern ↔ ∃ f, kern.ofd f = some n := by
  rw [openConns, Finset.mem_filter, Finset.mem_range]
  constructor
  · intro hn
    rcases kern.balance n hn.1 with ⟨hf, -⟩ | ⟨-, h1⟩
    · exact hf
    · omega
  · intro hn
    obtain ⟨f, hf⟩ := hn
    exact ⟨FdTable.lt_opened hf, FdTable.closes_of_open hf⟩

theorem Shows.work_eq (h : Shows kern net t) : StreamServer.work t = work kern net := by
  have hw : t.watched = openConns kern := by
    ext n
    rw [h.watched, mem_openConns]
  simp only [work, StreamServer.work, h.net, hw]

/-! ## What is done for the clients -/

theorem Shows.logged_prefix (h : Shows kern net t) (hinv : StreamServer.Inv t) (n : Nat) :
    (net.logged n).flatten <+: (net.conn n).sent :=
  h.net ▸ hinv.logged_prefix n

/-- A connection closed was reset, or is logged to its end. -/
theorem Shows.closed (h : Shows kern net t) (hinv : StreamServer.Inv t) (hn : n < kern.opened)
    (hc : kern.closes n = 1) : (net.conn n).broken = true ∨
      ((net.conn n).fin = true ∧ (net.logged n).flatten = (net.conn n).sent) := by
  have hw : n ∉ t.watched := by
    rw [h.watched]
    intro hex
    obtain ⟨f, hf⟩ := hex
    exact (FdTable.closes_eq_one_iff hn).mp hc f hf
  have hdone := hinv.done n (h.accepted ▸ hn) hw (by simp [h.refused])
  rw [Whole, ← hinv.logged, h.net] at hdone
  exact hdone

/-- At rest every connection not reset is logged whole. -/
theorem Shows.whole (h : Shows kern net t) (hinv : StreamServer.Inv t) (hrest : Rest t) (hn : n < kern.opened)
    (hb : (net.conn n).broken = false) : (net.logged n).flatten = (net.conn n).sent := by
  rw [← h.net] at hb ⊢
  exact hrest.whole hinv (h.accepted ▸ hn) (by simp [h.refused]) hb

theorem Shows.run_le [DecidableEq α] [DecidableEq ε] (h : Shows kern net t) (h' : Shows kern' net' t')
    (hinv : StreamServer.Inv t) (hr : runWhere (step cap) Own t as = some t') :
    as.length + work kern' net' ≤ work kern net := by
  rw [← h.work_eq, ← h'.work_eq]
  exact run_work hinv hr

end OpenServer
