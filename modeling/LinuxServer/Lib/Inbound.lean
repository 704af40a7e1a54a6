/-
The receiving side of a stream connection, with its history.

`balance` says that nothing sent is lost, repeated or reordered on the way:
the chunks the reader was given, and then what is unread, are the stream. No
operation can break it, since every one has to prove it again.
-/
import Mathlib.Data.List.Infix
import Mathlib.Tactic.TypeStar

variable {α ε : Type*}

/-- The receiving side of a connection: all its peer has sent, the chunks
given to the reader, what is unread, whether the peer is done, the error not
yet reported, and whether the connection was ever reset. -/
structure Inbound (α ε : Type*) where
  sent : List α
  got : List (List α)
  rcv : List α
  fin : Bool
  err : Option ε
  broken : Bool
  balance : got.flatten ++ rcv = sent
  err_fin : err ≠ none → fin = true
  err_broken : err ≠ none → broken = true

namespace Inbound

variable {x y : Inbound α ε} {bytes : List α} {e : ε}

/-- What the peer does. -/
inductive Peer (α ε : Type*)
  | send (bytes : List α)
  | fin
  | reset (e : ε)
  deriving DecidableEq, Repr

/-- What one `recv` comes to. -/
inductive Out (α ε : Type*)
  | data (bytes : List α)
  | eof
  | error (e : ε)
  deriving DecidableEq, Repr

/-- A new connection. -/
def fresh : Inbound α ε where
  sent := []
  got := []
  rcv := []
  fin := false
  err := none
  broken := false
  balance := rfl
  err_fin h := absurd rfl h
  err_broken h := absurd rfl h

/-- More of the stream arrives. -/
def arrive (x : Inbound α ε) (bytes : List α) : Inbound α ε :=
  { x with
    sent := x.sent ++ bytes
    rcv := x.rcv ++ bytes
    balance := by rw [← List.append_assoc, x.balance] }

/-- The peer closes its side. -/
def finish (x : Inbound α ε) : Inbound α ε := { x with fin := true, err_fin := fun _ => rfl }

/-- The connection is reset: it is over, with `e` to report. -/
def reset (x : Inbound α ε) (e : ε) : Inbound α ε :=
  { x with fin := true, err := some e, broken := true, err_fin := fun _ => rfl, err_broken := fun _ => rfl }

/-- A peer that is done sends nothing more. -/
def peer (x : Inbound α ε) : Peer α ε → Inbound α ε
  | .send bytes => if x.fin then x else x.arrive bytes
  | .fin => x.finish
  | .reset e => x.reset e

/-- The reader is given the first bytes unread. -/
def take (x : Inbound α ε) (bytes : List α) (h : bytes <+: x.rcv) : Inbound α ε :=
  { x with
    got := x.got ++ [bytes]
    rcv := x.rcv.drop bytes.length
    balance := by
      obtain ⟨rest, hrest⟩ := h
      rw [← hrest, List.drop_left, List.flatten_append, List.flatten_singleton, List.append_assoc, hrest,
        x.balance] }

/-- The reader is told of the error. -/
def report (x : Inbound α ε) : Inbound α ε :=
  { x with err := none, err_fin := fun h => absurd rfl h, err_broken := fun h => absurd rfl h }

/-- A `recv` would not find the buffer empty. -/
def Readable (x : Inbound α ε) : Prop := x.rcv ≠ [] ∨ x.fin = true

instance (x : Inbound α ε) [DecidableEq α] : Decidable x.Readable := inferInstanceAs (Decidable (_ ∨ _))

/-- A `recv` of at most `cap` bytes; `none` where it cannot come to that. -/
def recv [DecidableEq α] [DecidableEq ε] (cap : Nat) (x : Inbound α ε) : Out α ε → Option (Inbound α ε)
  | .data bytes =>
    if h : bytes <+: x.rcv then
      if bytes ≠ [] ∧ bytes.length ≤ cap then some (x.take bytes h) else none
    else none
  | .eof => if x.rcv = [] ∧ x.fin = true ∧ x.err = none then some x else none
  | .error e => if x.err = some e then some x.report else none

/-- What the reader still has to take: the bytes unread and the error. -/
def load (x : Inbound α ε) : Nat := x.rcv.length + if x.err.isSome then 1 else 0

/-- The reader has the whole stream. -/
def Whole (x : Inbound α ε) : Prop := x.got.flatten = x.sent

instance (x : Inbound α ε) [DecidableEq α] : Decidable x.Whole := inferInstanceAs (Decidable (_ = _))

theorem got_prefix (x : Inbound α ε) : x.got.flatten <+: x.sent := ⟨x.rcv, x.balance⟩

theorem whole_iff : x.Whole ↔ x.rcv = [] := by
  unfold Whole
  rw [← x.balance]
  exact List.self_eq_append_right

theorem whole_of_not_readable (h : ¬ x.Readable) : x.Whole :=
  whole_iff.mpr (not_not.mp (not_or.mp h).1)

/-! ## What the peer changes -/

@[simp] theorem peer_got (x : Inbound α ε) (p : Peer α ε) : (x.peer p).got = x.got := by
  cases p with
  | send bytes =>
    simp only [peer]
    split <;> rfl
  | fin | reset e => rfl

theorem peer_fin (p : Peer α ε) (h : x.fin = true) : (x.peer p).fin = true := by
  cases p with
  | send bytes => simp [peer, h]
  | fin | reset e => rfl

theorem peer_broken (p : Peer α ε) (h : x.broken = true) : (x.peer p).broken = true := by
  cases p with
  | send bytes =>
    simp only [peer]
    split <;> exact h
  | fin => exact h
  | reset e => rfl

theorem peer_rcv (p : Peer α ε) (h : x.fin = true) : (x.peer p).rcv = x.rcv := by
  cases p with
  | send bytes => simp [peer, h]
  | fin | reset e => rfl

theorem peer_whole (p : Peer α ε) (hfin : x.fin = true) (h : x.Whole) : (x.peer p).Whole :=
  whole_iff.mpr ((peer_rcv p hfin).trans (whole_iff.mp h))

/-! ## What a `recv` changes -/

variable [DecidableEq α] [DecidableEq ε] {cap : Nat} {out : Out α ε}

/-- The bytes a `recv` gives the reader. -/
def Out.chunk : Out α ε → List (List α)
  | .data bytes => [bytes]
  | .eof | .error _ => []

theorem recv_got (h : x.recv cap out = some y) : y.got = x.got ++ out.chunk := by
  cases out with
  | data bytes =>
    simp only [recv, Option.dite_none_right_eq_some, Option.ite_none_right_eq_some, Option.some.injEq] at h
    obtain ⟨_, _, rfl⟩ := h
    rfl
  | eof | error e =>
    simp only [recv, Option.ite_none_right_eq_some, Option.some.injEq] at h
    obtain ⟨_, rfl⟩ := h
    exact (List.append_nil _).symm

theorem recv_keeps (h : x.recv cap out = some y) : y.fin = x.fin ∧ y.broken = x.broken ∧ y.sent = x.sent := by
  cases out with
  | data bytes =>
    simp only [recv, Option.dite_none_right_eq_some, Option.ite_none_right_eq_some, Option.some.injEq] at h
    obtain ⟨_, _, rfl⟩ := h
    exact ⟨rfl, rfl, rfl⟩
  | eof | error e =>
    simp only [recv, Option.ite_none_right_eq_some, Option.some.injEq] at h
    obtain ⟨_, rfl⟩ := h
    exact ⟨rfl, rfl, rfl⟩

/-- End-of-file is the end: the peer is done and the reader has all it sent. -/
theorem recv_eof (h : x.recv cap .eof = some y) : y = x ∧ x.fin = true ∧ x.Whole := by
  simp only [recv, Option.ite_none_right_eq_some, Option.some.injEq] at h
  obtain ⟨⟨hrcv, hfin, -⟩, rfl⟩ := h
  exact ⟨rfl, hfin, whole_iff.mpr hrcv⟩

theorem recv_error (h : x.recv cap (.error e) = some y) : y = x.report ∧ x.err = some e ∧ x.broken = true := by
  simp only [recv, Option.ite_none_right_eq_some, Option.some.injEq] at h
  obtain ⟨he, rfl⟩ := h
  exact ⟨rfl, he, x.err_broken (by simp [he])⟩

theorem recv_length (h : x.recv cap (.data bytes) = some y) : bytes ≠ [] ∧ bytes.length ≤ cap := by
  simp only [recv, Option.dite_none_right_eq_some, Option.ite_none_right_eq_some, Option.some.injEq] at h
  obtain ⟨_, hlen, _⟩ := h
  exact hlen

/-- Every `recv` but end-of-file leaves less to take. -/
theorem recv_load (h : x.recv cap out = some y) : out = .eof ∧ y = x ∨ y.load < x.load := by
  cases out with
  | data bytes =>
    simp only [recv, Option.dite_none_right_eq_some, Option.ite_none_right_eq_some, Option.some.injEq] at h
    obtain ⟨hpre, ⟨hne, _⟩, rfl⟩ := h
    right
    have hpos : 0 < bytes.length := List.length_pos_iff.mpr hne
    have hle : bytes.length ≤ x.rcv.length := hpre.length_le
    show (x.rcv.drop bytes.length).length + (if x.err.isSome then 1 else 0) <
      x.rcv.length + if x.err.isSome then 1 else 0
    rw [List.length_drop]
    omega
  | eof => exact .inl ⟨rfl, (recv_eof h).1⟩
  | error e =>
    obtain ⟨rfl, he, -⟩ := recv_error h
    right
    simp [load, report, he]

theorem recv_exists (hcap : 0 < cap) (h : x.Readable) : ∃ out y, x.recv cap out = some y := by
  cases hrcv : x.rcv with
  | cons b rest =>
    have hpre : [b] <+: x.rcv := by simp [hrcv]
    exact ⟨.data [b], _, by simp [recv, hpre, Nat.one_le_iff_ne_zero.mpr hcap.ne']; rfl⟩
  | nil =>
    have hfin : x.fin = true := h.resolve_left (by simp [hrcv])
    cases he : x.err with
    | none => exact ⟨.eof, x, by simp [recv, hrcv, hfin, he]⟩
    | some e => exact ⟨.error e, x.report, by simp [recv, he]⟩

end Inbound
