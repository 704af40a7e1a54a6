/-
The load-test client's event loops and callbacks (libevent_no_block_client.hpp):
`connect_to_server` and `start_clients_func` are done, and `event_cb` and
`server_msg_cb` are called.

Loop `w` is that of the `w`-th call of `start_clients_func`; it makes one
callback at a time. In `server_msg_cb` the increment of `comp_req_count` and
the later load that is compared with `total_req_count` are two steps, with
those of the other loops in between. Socket `i` is the one created after `i`
others; the network's side is what an action carries.
-/
import Mathlib.Logic.Function.Basic
import LinuxServer.Lib.Lts
import LinuxServer.Lib.RoundRobin

namespace LinuxServer.Client

open Lts

/-- `BUF_SIZE`. -/
def bufSize : Nat := 4096

/-- The length of "Hello!". -/
def helloLen : Nat := 6

/-- `client_count` and `thread_count` of `start_multi_client`; `owner i` is
the loop of socket `i`. -/
structure Cfg where
  clientCount : Nat
  threadCount : Nat
  owner : Nat → Nat
  clientCount_pos : 0 < clientCount
  owner_lt : ∀ i, i < clientCount → owner i < threadCount

/-- A `bufferevent`'s connection. -/
inductive Conn
  | connecting
  | connected
  | freed
  deriving DecidableEq, Repr

/-- Where a loop is: between callbacks, or in `server_msg_cb` of a socket
before the increment or before the comparison. -/
inductive Place
  | outside
  | got (i : Nat)
  | counted (i : Nat)
  deriving DecidableEq, Repr

/-- `compReqCount` is how often `comp_req_count` was incremented; its
`std::atomic<int>` holds that number up to 2^31 - 1, and wraps around after.
`output` and `input` are the bytes in a `bufferevent`'s buffers. The rest is
history: `completes` is how often "All client request complete" was
reached, `received i` how many bytes socket `i` received, and `called` the
sockets `server_msg_cb` was called for, in order. -/
structure St where
  place : Nat → Place
  compReqCount : Nat
  conn : Nat → Conn
  output : Nat → Nat
  input : Nat → Nat
  completes : Nat
  received : Nat → Nat
  called : List Nat

def init : St where
  place _ := .outside
  compReqCount := 0
  conn _ := .connecting
  output _ := 0
  input _ := 0
  completes := 0
  received _ := 0
  called := []

inductive Act
  /-- `event_cb` with BEV_EVENT_CONNECTED -/
  | connected (i : Nat)
  /-- libevent writes `n` bytes of the output -/
  | send (i n : Nat)
  /-- libevent receives `n` bytes, and `server_msg_cb` is called and reads -/
  | call (i n : Nat)
  | increment (w : Nat)
  | compare (w : Nat)
  /-- `event_cb` with BEV_EVENT_EOF or BEV_EVENT_ERROR -/
  | lost (i : Nat)
  deriving DecidableEq, Repr

/-- Socket `i` is there, and its loop can make a callback for it. -/
def Ready (c : Cfg) (s : St) (i : Nat) (conn : Conn) : Prop :=
  i < c.clientCount ∧ s.conn i = conn ∧ s.place (c.owner i) = .outside

instance (c : Cfg) (s : St) (i : Nat) (conn : Conn) : Decidable (Ready c s i conn) :=
  inferInstanceAs (Decidable (_ ∧ _ ∧ _))

/-- `bufferevent_write(bev, "Hello!", 6)`. -/
def sayHello (s : St) (i : Nat) : St :=
  { s with
    conn := Function.update s.conn i .connected
    output := Function.update s.output i (s.output i + helloLen) }

/-- `server_msg_cb` up to `bufferevent_read(bev, msg, BUF_SIZE - 1)`. -/
def readMsg (c : Cfg) (s : St) (i n : Nat) : St :=
  { s with
    place := Function.update s.place (c.owner i) (.got i)
    input := Function.update s.input i (s.input i + n - min (s.input i + n) (bufSize - 1))
    received := Function.update s.received i (s.received i + n)
    called := s.called ++ [i] }

/-- `comp_req_count++`, for socket `i`. -/
def countUp (s : St) (w i : Nat) : St :=
  { s with place := Function.update s.place w (.counted i), compReqCount := s.compReqCount + 1 }

/-- `if (total_req_count == comp_req_count.load())`. -/
def compareCount (c : Cfg) (s : St) (w : Nat) : St :=
  { s with
    place := Function.update s.place w .outside
    completes := if c.clientCount = s.compReqCount then s.completes + 1 else s.completes }

def step (c : Cfg) (s : St) (a : Act) : Option St :=
  match a with
  | .connected i => if Ready c s i .connecting then some (sayHello s i) else none
  | .send i n =>
    if Ready c s i .connected ∧ n ≤ s.output i then
      some { s with output := Function.update s.output i (s.output i - n) }
    else none
  | .call i n => if Ready c s i .connected ∧ 0 < n then some (readMsg c s i n) else none
  | .increment w =>
    match s.place w with
    | .got i => if w < c.threadCount then some (countUp s w i) else none
    | .outside | .counted _ => none
  | .compare w =>
    match s.place w with
    | .counted _ => if w < c.threadCount then some (compareCount c s w) else none
    | .outside | .got _ => none
  | .lost i =>
    if Ready c s i (s.conn i) ∧ s.conn i ≠ .freed then
      some { s with conn := Function.update s.conn i .freed }
    else none

/-! ## What a step can do -/

/-- What of the state `server_msg_cb` changes. -/
def St.counts (s : St) : (Nat → Place) × Nat × Nat × (Nat → Nat) × List Nat :=
  (s.place, s.compReqCount, s.completes, s.received, s.called)

/-- The steps of `server_msg_cb`, and the others as one (`step_sound`). -/
inductive Step (c : Cfg) (s : St) : Act → St → Prop
  | other {a s'} : (∀ w, a ≠ .increment w) → (∀ i n, a ≠ .call i n) → s'.counts = s.counts → Step c s a s'
  | call {i n} : i < c.clientCount → s.place (c.owner i) = .outside → 0 < n → Step c s (.call i n) (readMsg c s i n)
  | increment {w i} : w < c.threadCount → s.place w = .got i → Step c s (.increment w) (countUp s w i)
  | compare {w i} : w < c.threadCount → s.place w = .counted i → Step c s (.compare w) (compareCount c s w)

theorem step_sound {c : Cfg} {s s' : St} {a : Act} (h : step c s a = some s') : Step c s a s' := by
  cases a with
  | connected i | send i n | lost i =>
    simp only [step] at h
    split at h
    · cases h; exact .other (by simp) (by simp) rfl
    · cases h
  | call i n =>
    simp only [step] at h
    split at h
    · next hg => cases h; exact .call hg.1.1 hg.1.2.2 hg.2
    · cases h
  | increment w =>
    simp only [step] at h
    split at h
    · next i hp =>
      split at h
      · next hw => cases h; exact .increment hw hp
      · cases h
    · cases h
    · cases h
  | compare w =>
    simp only [step] at h
    split at h
    · next i hp =>
      split at h
      · next hw => cases h; exact .compare hw hp
      · cases h
    · cases h
    · cases h

/-! ## Calls and increments -/

/-- 1 for a loop that has yet to increment. -/
def Place.uncounted : Place → Nat
  | .got _ => 1
  | .outside | .counted _ => 0

/-- 1 for a loop between its increment and its comparison. -/
def Place.comparing : Place → Nat
  | .counted _ => 1
  | .outside | .got _ => 0

variable {c : Cfg} {s s' : St} {a : Act}

/-- Every call has incremented the counter, or is still to. -/
def Accounted (c : Cfg) (s : St) : Prop :=
  s.compReqCount + RoundRobin.total c.threadCount (fun w => (s.place w).uncounted) = s.called.length

theorem step_accounted (hs : Accounted c s) (h : step c s a = some s') : Accounted c s' := by
  unfold Accounted at hs ⊢
  cases step_sound h with
  | other _ _ hcounts =>
    simp only [St.counts, Prod.mk.injEq] at hcounts
    rw [hcounts.1, hcounts.2.1, hcounts.2.2.2.2, hs]
  | @call i n hi hp _ =>
    have htotal := RoundRobin.total_update Place.uncounted s.place (.got i) (c.owner_lt i hi)
    rw [hp] at htotal
    change _ + 0 = _ + 1 at htotal
    simp only [readMsg, List.length_append, List.length_singleton]
    omega
  | @increment w i hw hp =>
    have htotal := RoundRobin.total_update Place.uncounted s.place (.counted i) hw
    rw [hp] at htotal
    change _ + 1 = _ + 0 at htotal
    simp only [countUp]
    omega
  | @compare w i hw hp =>
    have htotal := RoundRobin.total_update Place.uncounted s.place .outside hw
    rw [hp] at htotal
    change _ + 0 = _ + 0 at htotal
    simp only [compareCount]
    omega

theorem init_accounted (c : Cfg) : Accounted c init := by
  simp [Accounted, init, Place.uncounted, RoundRobin.total]

theorem step_count_mono (h : step c s a = some s') : s.compReqCount ≤ s'.compReqCount := by
  cases step_sound h with
  | other _ _ hcounts =>
    simp only [St.counts, Prod.mk.injEq] at hcounts
    exact Nat.le_of_eq hcounts.2.1.symm
  | call | compare => exact Nat.le_refl _
  | increment => exact Nat.le_succ _

end LinuxServer.Client
