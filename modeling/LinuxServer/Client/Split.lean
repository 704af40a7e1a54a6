/-
How the load-test client shares out its connections
(`start_multi_client` and `start_clients_func`, libevent_no_block_client.hpp).

`/` and `%` truncate towards zero, so for a negative count the remainder is
negative or zero and the loop hands it to nobody. No number in it is further
from zero than `client_count`, so `int` does not overflow and is `Int` here.
-/
import Mathlib.Algebra.BigOperators.Group.List.Basic
import Mathlib.Algebra.Order.Ring.Int
import Mathlib.Tactic.Ring

namespace LinuxServer.Client

/-- A client's `bufferevent`: enabled for reading, or freed when the
connection could not be started. -/
inductive Socket
  | enabled
  | freed
  deriving DecidableEq, Repr

/-- `start_clients_func`: one socket for each pass of its loop, `connectToServer i`
being whether `connect_to_server` returned 0 in pass `i`. -/
def startClientsFunc (connectToServer : Nat → Bool) (subCliCount : Int) : List Socket :=
  (List.range subCliCount.toNat).map fun i => if connectToServer i then .enabled else .freed

/-- The loop of `start_multi_client` with `n` passes to go: the counts it
dispatches, `res` being `res_cli_count`. -/
def dispatchLoop (sub : Int) : Nat → Int → List Int
  | 0, _ => []
  | n + 1, res => if 0 < res then (sub + 1) :: dispatchLoop sub n (res - 1) else sub :: dispatchLoop sub n res

/-- The counts `start_multi_client` dispatches. -/
def dispatched (clientCount threadCount : Int) : List Int :=
  dispatchLoop (clientCount.tdiv threadCount) threadCount.toNat (clientCount.tmod threadCount)

/-- `start_multi_client`: the sockets each dispatched call creates. -/
def startMultiClient (connectToServer : Nat → Nat → Bool) (clientCount threadCount : Int) : List (List Socket) :=
  (dispatched clientCount threadCount).mapIdx fun k count => startClientsFunc (connectToServer k) count

variable {sub res clientCount threadCount : Int} {n : Nat} {connectToServer : Nat → Nat → Bool}

@[simp] theorem startClientsFunc_length (connect : Nat → Bool) (count : Int) :
    (startClientsFunc connect count).length = count.toNat := by
  simp [startClientsFunc]

/-- The larger counts, `res` of them while passes last, and then the others. -/
theorem dispatchLoop_eq : dispatchLoop sub n res =
    List.replicate (min res.toNat n) (sub + 1) ++ List.replicate (n - res.toNat) sub := by
  induction n generalizing res with
  | zero => simp [dispatchLoop]
  | succ n ih =>
    unfold dispatchLoop
    split
    · next hres =>
      have hmin : min res.toNat (n + 1) = min (res - 1).toNat n + 1 := by omega
      have hrest : n + 1 - res.toNat = n - (res - 1).toNat := by omega
      rw [ih, hmin, hrest, List.replicate_succ, List.cons_append]
    · next hres =>
      have hzero : res.toNat = 0 := by omega
      rw [ih, hzero, Nat.zero_min, Nat.zero_min]
      rfl

/-- How many sockets each call creates. -/
def created (connectToServer : Nat → Nat → Bool) (clientCount threadCount : Int) : List Nat :=
  (startMultiClient connectToServer clientCount threadCount).map List.length

theorem created_eq : created connectToServer clientCount threadCount =
    (dispatched clientCount threadCount).map Int.toNat := by
  refine List.ext_getElem (by simp [created, startMultiClient]) fun i _ _ => ?_
  simp [created, startMultiClient]

theorem dispatched_length : (dispatched clientCount threadCount).length = threadCount.toNat := by
  simp only [dispatched, dispatchLoop_eq, List.length_append, List.length_replicate]
  omega

theorem dispatched_nonneg (hc : 0 ≤ clientCount) (ht : 1 ≤ threadCount) : ∃ q r k : Nat,
    dispatched clientCount threadCount = List.replicate r (q + 1 : Int) ++ List.replicate k (q : Int) ∧
    clientCount = r * (q + 1) + k * q := by
  have hq := Int.tdiv_nonneg hc (by omega : 0 ≤ threadCount)
  have hr := Int.tmod_nonneg threadCount hc
  have hlt := Int.tmod_lt_of_pos clientCount (by omega : 0 < threadCount)
  have hsum := Int.tdiv_mul_add_tmod clientCount threadCount
  refine ⟨(clientCount.tdiv threadCount).toNat, (clientCount.tmod threadCount).toNat,
    threadCount.toNat - (clientCount.tmod threadCount).toNat, ?_, ?_⟩
  · rw [dispatched, dispatchLoop_eq, Int.toNat_of_nonneg hq]
    congr 2
    omega
  · have hk : ((threadCount.toNat - (clientCount.tmod threadCount).toNat : Nat) : Int) =
        threadCount - clientCount.tmod threadCount := by omega
    rw [Int.toNat_of_nonneg hq, Int.toNat_of_nonneg hr, hk]
    calc clientCount = clientCount.tdiv threadCount * threadCount + clientCount.tmod threadCount := hsum.symm
      _ = _ := by ring

theorem dispatched_neg (hc : clientCount < 0) (ht : 1 ≤ threadCount) :
    (dispatched clientCount threadCount).map Int.toNat = List.replicate threadCount.toNat 0 := by
  have hq : clientCount.tdiv threadCount ≤ 0 := by
    have hneg := Int.tdiv_nonneg (by omega : 0 ≤ -clientCount) (by omega : 0 ≤ threadCount)
    rw [Int.neg_tdiv] at hneg
    omega
  have hr : (clientCount.tmod threadCount).toNat = 0 := by
    have hneg := Int.tmod_nonneg threadCount (by omega : 0 ≤ -clientCount)
    rw [Int.neg_tmod] at hneg
    omega
  simp [dispatched, dispatchLoop_eq, hr, Int.toNat_of_nonpos hq]

/-- **The work is shared out.** For every `thread_count` from 1 on and every
`client_count`, negative ones too: `start_multi_client` makes `thread_count`
calls, which create `client_count` sockets in all (none when it is negative);
no call creates two more than another, and the larger shares come first. -/
theorem startMultiClient_splits (ht : 1 ≤ threadCount) :
    ((startMultiClient connectToServer clientCount threadCount).length : Int) = threadCount ∧
    ((created connectToServer clientCount threadCount).sum : Int) = max clientCount 0 ∧
    (∀ m ∈ created connectToServer clientCount threadCount,
      ∀ n ∈ created connectToServer clientCount threadCount, m ≤ n + 1) ∧
    (created connectToServer clientCount threadCount).Pairwise (· ≥ ·) := by
  refine ⟨?_, ?_⟩
  · simp only [startMultiClient, List.length_mapIdx, dispatched_length]
    omega
  rw [created_eq]
  rcases Int.lt_or_le clientCount 0 with hc | hc
  · rw [dispatched_neg hc ht]
    refine ⟨by simp; omega, ?_, List.pairwise_replicate.mpr (.inr (Nat.le_refl 0))⟩
    intro m hm n _
    rw [List.eq_of_mem_replicate hm]
    omega
  · obtain ⟨q, r, k, hd, hsum⟩ := dispatched_nonneg hc ht
    have hmap : (dispatched clientCount threadCount).map Int.toNat =
        List.replicate r (q + 1) ++ List.replicate k q := by
      rw [hd, List.map_append, List.map_replicate, List.map_replicate]
      rfl
    have hmem : ∀ m ∈ List.replicate r (q + 1) ++ List.replicate k q, m = q + 1 ∨ m = q := fun m hm =>
      (List.mem_append.mp hm).imp List.eq_of_mem_replicate List.eq_of_mem_replicate
    rw [hmap]
    refine ⟨?_, fun m hm n hn => ?_, List.pairwise_append.mpr ⟨?_, ?_, fun m hm n hn => ?_⟩⟩
    · simp only [List.sum_append, List.sum_replicate_nat]
      push_cast
      rw [max_eq_left hc, hsum]
    · rcases hmem m hm with rfl | rfl <;> rcases hmem n hn with rfl | rfl <;> omega
    · exact List.pairwise_replicate.mpr (.inr (Nat.le_refl _))
    · exact List.pairwise_replicate.mpr (.inr (Nat.le_refl _))
    · rw [List.eq_of_mem_replicate hm, List.eq_of_mem_replicate hn]
      exact Nat.le_succ q

/-- `startMultiClient_splits` for 7 clients over 3 threads, where every connection starts. -/
theorem startMultiClient_splits_seven :
    ((startMultiClient (fun _ _ => true) 7 3).length : Int) = 3 ∧
    ((created (fun _ _ => true) 7 3).sum : Int) = max 7 0 ∧
    (∀ m ∈ created (fun _ _ => true) 7 3, ∀ n ∈ created (fun _ _ => true) 7 3, m ≤ n + 1) ∧
    (created (fun _ _ => true) 7 3).Pairwise (· ≥ ·) :=
  startMultiClient_splits (by decide)

end LinuxServer.Client
