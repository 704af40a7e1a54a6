/-
The simple TCP client (simple_tcp_client.hpp) and the simple TCP server: what
the one sends is what the other logs.

The client fills its `BUFSIZ` bytes with 'a' and sends them with one `send`,
which may take fewer; the server receives at most `BUFSIZ - 1` at a time. The
connection is not reset on the way.
-/
import LinuxServer.SimpleTcp

namespace LinuxServer.SimpleTcp

open Lts Inbound StreamServer

/-- Where the client is: before the call named, in its `sleep_for`, returned,
or at the end of the function, which has no `return` where `connect` failed. -/
inductive CliPc
  | connect
  | send
  | sleep
  | returned
  | atEnd
  deriving DecidableEq, Repr

/-- `moved` is how many bytes the `send` took. -/
structure Pair where
  srv : Sys
  cli : CliPc
  moved : Nat

def Pair.init : Pair := ⟨SimpleTcp.init, .connect, 0⟩

/-- 'a'. -/
def letter : UInt8 := 97

/-- The client does something to its connection, accepted or not. -/
def toConn (s : Sys) (p : Peer UInt8 Errno) : Client UInt8 Errno :=
  match s.net.backlog with
  | [] => .peer 0 p
  | _ :: _ => .queued 0 p

/-- The next call of one of the two. -/
inductive PairAct
  | srv (a : Act)
  | connect (ret : Int)
  | send (ret : Int)
  | close
  deriving DecidableEq, Repr

/-- The server's part of what the client does. -/
def Pair.deliver (c : Cfg) (p : Pair) (a : Client UInt8 Errno) (cli : CliPc) (moved : Nat) : Option Pair :=
  (step c p.srv (.client a)).map fun srv => ⟨srv, cli, moved⟩

def pairStep (c : Cfg) (p : Pair) (a : PairAct) : Option Pair :=
  match a, p.cli with
  | .srv (.client _), _ => none
  | .srv a, _ => (step c p.srv a).map fun srv => { p with srv }
  | .connect ret, .connect => if ret = -1 then some { p with cli := .atEnd } else p.deliver c .connect .send 0
  | .send ret, .send =>
    if ret ≤ 0 then some { p with cli := .sleep }
    else if ret ≤ c.bufsiz then
      p.deliver c (toConn p.srv (.send (List.replicate ret.toNat letter))) .sleep ret.toNat
    else none
  | .close, .sleep => p.deliver c (toConn p.srv .fin) .returned p.moved
  | _, _ => none

/-- The client's connection: the one that waits, or the one accepted. -/
def Sys.cliConn (s : Sys) : Inbound UInt8 Errno :=
  match s.net.backlog with
  | [] => s.net.conn 0
  | x :: _ => x

/-- The client has a connection. -/
def CliPc.connected : CliPc → Bool
  | .send | .sleep | .returned => true
  | .connect | .atEnd => false

/-- What the client sent is on its one connection. -/
structure Linked (c : Cfg) (p : Pair) : Prop where
  sent : p.srv.cliConn.sent = List.replicate p.moved letter
  sound : p.srv.cliConn.broken = false
  fin : p.srv.cliConn.fin = true → p.cli = .returned
  one : p.srv.net.backlog.length + p.srv.pc.accepted = if p.cli.connected then 1 else 0
  moved : p.moved ≤ c.bufsiz
  unsent : p.cli = .connect ∨ p.cli = .send → p.moved = 0

variable {c : Cfg} {p p' : Pair} {s s' : Sys} {a : Act}

theorem init_linked (c : Cfg) : Linked c Pair.init :=
  ⟨rfl, rfl, by simp [Pair.init, SimpleTcp.init, Sys.cliConn, Net.empty, fresh], rfl, Nat.zero_le _, fun _ => rfl⟩

/-! ## Steps -/

theorem deliver_cliConn (q : Peer UInt8 Errno) :
    ({ s with net := s.net.client (toConn s q) } : Sys).cliConn = s.cliConn.peer q ∧
    (s.net.client (toConn s q)).backlog.length = s.net.backlog.length := by
  unfold Sys.cliConn toConn
  cases hb : s.net.backlog with
  | nil => simp [Net.client, hb]
  | cons x backlog => simp [Net.client, hb]

theorem srv_cliConn (hone : s.net.backlog.length + s.pc.accepted ≤ 1) (ha : ∀ b, a ≠ .client b)
    (h : step c s a = some s') :
    (s'.cliConn.sent = s.cliConn.sent ∧ s'.cliConn.broken = s.cliConn.broken ∧ s'.cliConn.fin = s.cliConn.fin) ∧
    s'.net.backlog.length + s'.pc.accepted = s.net.backlog.length + s.pc.accepted := by
  unfold step at h
  split at h
  · exact absurd rfl (ha _)
  · exact absurd rfl (ha _)
  · next ret hpc =>
    cases h
    split <;> simp [Sys.cliConn, hpc, Pc.accepted]
  · next ret hpc =>
    cases h
    split <;> simp [Sys.cliConn, hpc, Pc.accepted]
  · next ret hpc =>
    cases h
    split <;> simp [Sys.cliConn, hpc, Pc.accepted]
  · next ret hpc =>
    split at h
    · cases h
      simp [Sys.cliConn, hpc, Pc.accepted]
    · split at h
      · cases h
      · obtain ⟨net, hnet, rfl⟩ := Option.map_eq_some_iff.mp h
        obtain ⟨x, backlog, hb, rfl⟩ := accept_eq hnet
        have hnil : backlog = [] := by
          rw [hb, List.length_cons] at hone
          exact List.eq_nil_of_length_eq_zero (by omega)
        subst hnil
        simp [Sys.cliConn, accepted, hb, hpc, Pc.accepted]
  · next out hpc =>
    obtain ⟨net, hnet, rfl⟩ := Option.map_eq_some_iff.mp h
    obtain ⟨x, hx, rfl⟩ := recv_eq hnet
    have hnil : s.net.backlog = [] := by
      rw [hpc, Pc.accepted] at hone
      exact List.eq_nil_of_length_eq_zero (by omega)
    obtain ⟨hfin, hbroken, hsent⟩ := recv_keeps hx
    cases out <;> simp [received, Sys.cliConn, hnil, hpc, Pc.accepted, hfin, hbroken, hsent]
  · next hpc =>
    cases h
    simp [Sys.cliConn, hpc, Pc.accepted]
  · cases h

theorem deliver_eq {cli : CliPc} {moved : Nat} {q : Peer UInt8 Errno}
    (h : p.deliver c (toConn p.srv q) cli moved = some p') :
    p' = ⟨{ p.srv with net := p.srv.net.client (toConn p.srv q) }, cli, moved⟩ := by
  unfold Pair.deliver toConn at *
  cases hb : p.srv.net.backlog with
  | nil =>
    simp only [hb, step, Option.map_some, Option.some.injEq] at h
    exact h.symm
  | cons x backlog =>
    simp only [hb, step, Option.map_some, Option.some.injEq] at h
    exact h.symm

theorem Linked.connect (hl : Linked c p) (hcli : p.cli = .connect)
    (h : p.deliver c .connect .send 0 = some p') : Linked c p' := by
  obtain ⟨srv, hs, rfl⟩ := Option.map_eq_some_iff.mp h
  simp only [step, Option.ite_none_right_eq_some, Option.some.injEq] at hs
  obtain ⟨-, rfl⟩ := hs
  have hone := hl.one
  simp only [hcli, CliPc.connected, Bool.false_eq_true, if_false] at hone
  have hnil : p.srv.net.backlog = [] := List.eq_nil_of_length_eq_zero (by omega)
  have hacc : p.srv.pc.accepted = 0 := by omega
  constructor <;> simp [Sys.cliConn, Net.client, hnil, hacc, fresh, CliPc.connected]

theorem Linked.deliver {cli : CliPc} {moved : Nat} {q : Peer UInt8 Errno} (hl : Linked c p)
    (hcli : p.cli.connected = true) (hcli' : cli.connected = true) (hmoved : moved ≤ c.bufsiz)
    (hsent : (p.srv.cliConn.peer q).sent = List.replicate moved letter)
    (hsound : (p.srv.cliConn.peer q).broken = false) (hfin : (p.srv.cliConn.peer q).fin = true → cli = .returned)
    (hdone : cli = .sleep ∨ cli = .returned) (h : p.deliver c (toConn p.srv q) cli moved = some p') :
    Linked c p' := by
  obtain ⟨hconn, hlen⟩ := deliver_cliConn (s := p.srv) q
  have hone := hl.one
  rw [deliver_eq h]
  refine ⟨hconn ▸ hsent, hconn ▸ hsound, fun hf => hfin (hconn ▸ hf), ?_, hmoved, ?_⟩
  · simp only [hcli, hcli'] at hone ⊢
    rw [hlen]
    exact hone
  · rcases hdone with rfl | rfl <;> simp

theorem step_linked {a : PairAct} (hl : Linked c p) (h : pairStep c p a = some p') : Linked c p' := by
  unfold pairStep at h
  split at h
  · cases h
  · next a ha =>
    obtain ⟨srv, hs, rfl⟩ := Option.map_eq_some_iff.mp h
    have hle : p.srv.net.backlog.length + p.srv.pc.accepted ≤ 1 := by
      have hone := hl.one
      split at hone <;> omega
    obtain ⟨⟨hsent, hbroken, hfin⟩, hone⟩ := srv_cliConn hle (fun b he => ha b he) hs
    have hfin' : srv.cliConn.fin = true → p.cli = .returned := fun hf => hl.fin (hfin ▸ hf)
    exact ⟨hsent ▸ hl.sent, hbroken ▸ hl.sound, hfin', hone ▸ hl.one, hl.moved, hl.unsent⟩
  · next hcli =>
    split at h
    · cases h
      have hone := hl.one
      rw [hcli] at hone
      have hnot : p.srv.cliConn.fin ≠ true := by
        intro hf
        rw [hl.fin hf] at hcli
        cases hcli
      exact ⟨hl.sent, hl.sound, fun hf => absurd hf hnot, hone, hl.moved, by simp⟩
    · exact hl.connect hcli h
  · next ret hcli =>
    have hzero : p.moved = 0 := hl.unsent (.inr hcli)
    have hopen : p.srv.cliConn.fin = false := by
      by_contra hf
      have := hl.fin (by simpa using hf)
      rw [this] at hcli
      cases hcli
    split at h
    · cases h
      have hone := hl.one
      rw [hcli] at hone
      exact ⟨hl.sent, hl.sound, fun hf => absurd hf (by simp [hopen]), hone, hl.moved, by simp⟩
    · split at h
      · next hle =>
        have hnil : p.srv.cliConn.sent = [] := by rw [hl.sent, hzero, List.replicate_zero]
        refine hl.deliver (by rw [hcli]; rfl) rfl (by omega) ?_ ?_ ?_ (.inl rfl) h
        · simp [peer, hopen, arrive, hnil]
        · simp [peer, hopen, arrive, hl.sound]
        · simp [peer, hopen, arrive]
      · cases h
  · next hcli =>
    have hsent : (p.srv.cliConn.peer .fin).sent = List.replicate p.moved letter := hl.sent
    exact hl.deliver (by rw [hcli]; rfl) rfl hl.moved hsent hl.sound (fun _ => rfl) (.inr rfl) h
  · cases h

/-- The server of the pair makes the steps of `SimpleTcp.step`, and no others. -/
theorem pair_srv {a : PairAct} (h : pairStep c p a = some p') :
    p'.srv = p.srv ∨ ∃ b, step c p.srv b = some p'.srv := by
  unfold pairStep Pair.deliver at h
  split at h
  · cases h
  · obtain ⟨srv, hs, rfl⟩ := Option.map_eq_some_iff.mp h
    exact .inr ⟨_, hs⟩
  · split at h
    · cases h
      exact .inl rfl
    · obtain ⟨srv, hs, rfl⟩ := Option.map_eq_some_iff.mp h
      exact .inr ⟨_, hs⟩
  · split at h
    · cases h
      exact .inl rfl
    · split at h
      · obtain ⟨srv, hs, rfl⟩ := Option.map_eq_some_iff.mp h
        exact .inr ⟨_, hs⟩
      · cases h
  · obtain ⟨srv, hs, rfl⟩ := Option.map_eq_some_iff.mp h
    exact .inr ⟨_, hs⟩
  · cases h

theorem reach_pair (h : Reach (pairStep c) Any Pair.init p) : Inv c p.srv ∧ Linked c p := by
  refine h.invariant (I := fun p => Inv c p.srv ∧ Linked c p) ⟨init_inv c, init_linked c⟩ fun p a p' hi _ hs => ?_
  refine ⟨?_, step_linked hi.2 hs⟩
  rcases pair_srv hs with he | ⟨b, hb⟩
  · rw [he]
    exact hi.1
  · exact step_inv hi.1 hb

/-! ## What is logged -/

theorem text_letters (n : Nat) : text (List.replicate n letter) = List.replicate n letter := by
  unfold text
  rw [List.takeWhile_replicate]
  rfl

theorem cliConn_accepted (hl : Linked c p) (hacc : p.srv.pc.accepted = 1) :
    p.srv.cliConn = p.srv.net.conn 0 := by
  have hone := hl.one
  have hnil : p.srv.net.backlog = [] := by
    split at hone
    · exact List.eq_nil_of_length_eq_zero (by omega)
    · omega
  simp [Sys.cliConn, hnil]

theorem accepted_cases (pc : Pc) : pc.accepted = 0 ∨ pc.accepted = 1 := by
  unfold Pc.accepted
  split <;> simp

/-- What was received is a number of the client's letters, no more than it sent. -/
theorem got_letters (hi : Inv c p.srv) (hl : Linked c p) :
    ∃ k ≤ p.moved, (p.srv.net.conn 0).got.flatten = List.replicate k letter := by
  rcases accepted_cases p.srv.pc with hacc | hacc
  · have hnone : (p.srv.net.conn 0).got = [] := hi.net.unread 0 (by simp [Sys.shows, hacc])
    exact ⟨0, Nat.zero_le _, by simp [hnone]⟩
  · have hpre := got_prefix (p.srv.net.conn 0)
    rw [← cliConn_accepted hl hacc, hl.sent, cliConn_accepted hl hacc, List.prefix_replicate_iff] at hpre
    exact ⟨_, hpre.1, hpre.2⟩

theorem line_letters {k : Nat} {got : List (List UInt8)} (hgot : got.flatten = List.replicate k letter)
    {chunk : List UInt8} (hmem : chunk ∈ got) :
    line chunk = (chunk.length, List.replicate chunk.length letter) := by
  have hall : chunk = List.replicate chunk.length letter := by
    refine List.eq_replicate_of_mem fun b hb => ?_
    have hin : b ∈ got.flatten := List.mem_flatten.mpr ⟨chunk, hmem, hb⟩
    rw [hgot] at hin
    exact (List.mem_replicate.mp hin).2
  unfold line
  rw [hall, text_letters, List.length_replicate]

theorem lengths_log (hi : Inv c s) : (s.log.map (·.1)).sum = (s.net.conn 0).got.flatten.length := by
  rw [hi.log, List.map_map, List.length_flatten]
  rfl

theorem two_le_log (hi : Inv c s) (h : recvCap c < (s.net.conn 0).got.flatten.length) : 2 ≤ s.log.length := by
  rw [hi.log, List.length_map]
  have hsizes := hi.sizes
  cases hgot : (s.net.conn 0).got with
  | nil =>
    rw [hgot] at h
    exact absurd h (by simp)
  | cons chunk got =>
    rw [hgot] at h hsizes
    cases got with
    | nil =>
      have hle := (hsizes chunk (List.mem_cons_self ..)).2
      rw [List.flatten_singleton] at h
      omega
    | cons _ _ => simp

/-- **What the simple client sends is what the simple server logs**, in every
run of the two. Every line is a number of 'a's of its own length, at most
`BUFSIZ - 1`, and together they are at most what the client's `send` took;
the server does not fail, and where it has returned the client has too and
all of that is logged, a full `BUFSIZ` in two lines at least. -/
theorem simple_pair_logs (h : Reach (pairStep c) Any Pair.init p) :
    (∀ l ∈ p.srv.log, l.2 = List.replicate l.1 letter ∧ 0 < l.1 ∧ l.1 ≤ recvCap c) ∧
    (p.srv.log.map (·.1)).sum ≤ p.moved ∧ p.moved ≤ c.bufsiz ∧ p.srv.pc ≠ .ended (.exited 1) ∧
    (p.srv.pc = .ended (.returned 0) → p.cli = .returned ∧ (p.srv.log.map (·.1)).sum = p.moved ∧
      (p.moved = c.bufsiz → 2 ≤ p.srv.log.length)) := by
  obtain ⟨hi, hl⟩ := reach_pair h
  obtain ⟨k, hk, hgot⟩ := got_letters hi hl
  have hsum : (p.srv.log.map (·.1)).sum = k := by rw [lengths_log hi, hgot, List.length_replicate]
  refine ⟨fun l hmem => ?_, by omega, hl.moved, fun hpc => ?_, fun hpc => ?_⟩
  · rw [hi.log] at hmem
    obtain ⟨chunk, hchunk, rfl⟩ := List.mem_map.mp hmem
    obtain ⟨hne, hle⟩ := hi.sizes chunk hchunk
    rw [line_letters hgot hchunk]
    exact ⟨rfl, List.length_pos_iff.mpr hne, hle⟩
  · have hbroken := hi.failed 1 hpc
    rw [← cliConn_accepted hl (by rw [hpc]; rfl), hl.sound] at hbroken
    cases hbroken
  · obtain ⟨hfin, hwhole⟩ := hi.whole (.inr hpc)
    have hconn := cliConn_accepted hl (by rw [hpc]; rfl)
    rw [← hconn] at hfin
    have hall : k = p.moved := by
      have hlen := congrArg List.length hwhole
      rw [hgot, ← hconn, hl.sent, List.length_replicate, List.length_replicate] at hlen
      exact hlen
    refine ⟨hl.fin hfin, by omega, fun hfull => two_le_log hi ?_⟩
    have hge := c.bufsiz_ge
    rw [hgot, List.length_replicate]
    unfold recvCap
    omega

/-- The client's `BUFSIZ` bytes, received in two parts. -/
def pairRun : List PairAct :=
  [.srv (.socket 3), .srv (.bind 0), .srv (.listen 0), .connect 0, .send 256, .srv (.accept 4),
   .srv (.recv (.data (List.replicate 255 letter))), .srv (.recv (.data [letter])), .close, .srv (.recv .eof),
   .srv .wake]

theorem pairRun_run : (run (pairStep demoCfg) Pair.init pairRun).isSome := by decide +kernel

/-- `simple_pair_logs` at the end of `pairRun`. -/
theorem simple_pair_logs_demo :
    let p := (run (pairStep demoCfg) Pair.init pairRun).get pairRun_run
    ((∀ l ∈ p.srv.log, l.2 = List.replicate l.1 letter ∧ 0 < l.1 ∧ l.1 ≤ recvCap demoCfg) ∧
      (p.srv.log.map (·.1)).sum ≤ p.moved ∧ p.moved ≤ demoCfg.bufsiz ∧ p.srv.pc ≠ .ended (.exited 1) ∧
      (p.srv.pc = .ended (.returned 0) → p.cli = .returned ∧ (p.srv.log.map (·.1)).sum = p.moved ∧
        (p.moved = demoCfg.bufsiz → 2 ≤ p.srv.log.length))) ∧
    p.srv.pc = .ended (.returned 0) ∧ p.srv.log.map (·.1) = [255, 1] :=
  ⟨simple_pair_logs (reach_get pairRun_run), by decide +kernel, by decide +kernel⟩

end LinuxServer.SimpleTcp
