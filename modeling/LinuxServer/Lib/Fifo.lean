/-
A bounded FIFO written without blocking: a send that finds it full does
nothing.
-/

namespace Fifo

variable {β : Type} {cap : Nat} {a b : β} {q : List β}

/-- Append `b` to a queue of capacity `cap`, if there is room. -/
def trySend (cap : Nat) (b : β) (q : List β) : List β := if q.length < cap then q ++ [b] else q

theorem trySend_room (h : q.length < cap) : trySend cap b q = q ++ [b] := if_pos h

theorem trySend_full (h : ¬ q.length < cap) : trySend cap b q = q := if_neg h

theorem mem_trySend (h : a ∈ q) : a ∈ trySend cap b q := by
  unfold trySend
  split
  · exact List.mem_append_left _ h
  · exact h

theorem mem_trySend_of_room (h : q.length < cap) : b ∈ trySend cap b q := by
  rw [trySend_room h]; simp

theorem trySend_sub (h : a ∈ trySend cap b q) : a ∈ q ∨ a = b := by
  unfold trySend at h
  split at h
  · simpa using h
  · exact .inl h

theorem ne_nil_of_full (hc : 0 < cap) (h : ¬ q.length < cap) : q ≠ [] := by
  rintro rfl
  exact h hc

theorem head?_trySend (h : q.head? = some a) : (trySend cap b q).head? = some a := by
  unfold trySend
  split
  · rw [List.head?_append, h]; rfl
  · exact h

end Fifo
