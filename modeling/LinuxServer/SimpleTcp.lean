/-
The simple TCP server (simple_tcp_server.hpp): one client is accepted and its
stream is logged until it ends.

`recv` writes into `buf`, and the line logged is the C string that `buf` then
holds, whatever is in it behind the chunk. With its connections the server
is a `StreamServer` that accepts once (`step_shows`).
-/
import Mathlib.Data.Finset.Image
import Mathlib.Data.Fintype.EquivFin
import LinuxServer.Kernel
import LinuxServer.Lib.StreamServer

namespace LinuxServer.SimpleTcp

open Lts Inbound StreamServer

/-- `BUFSIZ`, which no C library has below 256. -/
structure Cfg where
  bufsiz : Nat
  bufsiz_ge : 256 ≤ bufsiz

/-- How the function ends: with a value, in `exit`, or at a failed `assert`. -/
inductive Ending
  | returned (ret : Int)
  | exited (code : Int)
  | aborted
  deriving DecidableEq, Repr

/-- Where the server is: before the call named, in its `sleep_for`, or ended. -/
inductive Pc
  | socket
  | bind
  | listen
  | accept
  | recv
  | sleep
  | ended (e : Ending)
  deriving DecidableEq, Repr

/-- `fds` are the descriptors it has open, `log` the lengths and texts it
logged. The client accepted is connection 0. -/
structure Sys where
  pc : Pc
  fds : Finset Int
  srvFd : Int
  cliFd : Int
  buf : List UInt8
  log : List (Nat × List UInt8)
  net : Net UInt8 Errno

def init : Sys := ⟨.socket, ∅, -1, -1, [], [], .empty⟩

/-- `buf` after a `memset`. -/
def zeros (c : Cfg) : List UInt8 := List.replicate c.bufsiz 0

/-- `buf` with the bytes a `recv` wrote into it. -/
def recvInto (buf bytes : List UInt8) : List UInt8 := bytes ++ buf.drop bytes.length

/-- The C string in `buf`. -/
def text (buf : List UInt8) : List UInt8 := buf.takeWhile (· ≠ 0)

/-- The most one `recv` takes: `BUFSIZ - 1`. -/
def recvCap (c : Cfg) : Nat := c.bufsiz - 1

/-- What happens next: a client does something, or the call at hand returns. -/
inductive Act
  | client (a : Client UInt8 Errno)
  | socket (ret : Int)
  | bind (ret : Int)
  | listen (ret : Int)
  | accept (ret : Int)
  | recv (out : Out UInt8 Errno)
  | wake
  deriving DecidableEq, Repr

/-- The listening socket is there. -/
def Pc.listening : Pc → Bool
  | .accept | .recv | .sleep => true
  | .socket | .bind | .listen | .ended _ => false

/-- The client is accepted, and `buf` cleared. -/
def accepted (c : Cfg) (s : Sys) (fd : Int) (net : Net UInt8 Errno) : Sys :=
  { s with net, pc := .recv, cliFd := fd, fds := insert fd s.fds, buf := zeros c }

/-- The body of the loop after its `recv`. -/
def received (c : Cfg) (s : Sys) (net : Net UInt8 Errno) : Out UInt8 Errno → Sys
  | .data bytes =>
    { s with net, buf := zeros c, log := s.log ++ [(bytes.length, text (recvInto s.buf bytes))] }
  | .error _ => { s with net, pc := .ended (.exited 1) }
  | .eof => { s with net, pc := .sleep, fds := s.fds.erase s.cliFd }

def step (c : Cfg) (s : Sys) (a : Act) : Option Sys :=
  match a, s.pc with
  | .client .connect, pc => if pc.listening then some { s with net := s.net.client .connect } else none
  | .client a, _ => some { s with net := s.net.client a }
  | .socket ret, .socket =>
    some (if ret < 0 then { s with pc := .ended .aborted } else { s with pc := .bind, srvFd := ret, fds := {ret} })
  | .bind ret, .bind => some { s with pc := if ret = -1 then .ended .aborted else .listen }
  | .listen ret, .listen => some { s with pc := if ret = -1 then .ended .aborted else .accept }
  | .accept ret, .accept =>
    if ret < 0 then some { s with pc := .ended (.returned 1), cliFd := ret }
    else if ret ∈ s.fds then none
    else (s.net.accept 0).map (accepted c s ret)
  | .recv out, .recv => (s.net.recv (recvCap c) (some 0) out).map fun net => received c s net out
  | .wake, .sleep => some { s with pc := .ended (.returned 0), fds := s.fds.erase s.srvFd }
  | _, _ => none

/-- The server's own steps, and an `accept` that does not fail. -/
def Own (_ : Sys) : Act → Prop
  | .client _ => False
  | .accept ret => 0 ≤ ret
  | .socket _ | .bind _ | .listen _ | .recv _ | .wake => True

instance (s : Sys) : (a : Act) → Decidable (Own s a)
  | .client _ => .isFalse id
  | .accept ret => inferInstanceAs (Decidable (0 ≤ ret))
  | .socket _ | .bind _ | .listen _ | .recv _ | .wake => .isTrue trivial

/-- The line of a chunk. -/
def line (bytes : List UInt8) : Nat × List UInt8 := (bytes.length, text bytes)

variable {c : Cfg} {s s' : Sys} {a : Act} {bytes : List UInt8}

/-- Behind the chunk `buf` holds NULs, and nothing of the chunks before. -/
theorem recvInto_zeros (h : bytes.length ≤ recvCap c) :
    ∃ k, recvInto (zeros c) bytes = bytes ++ List.replicate (k + 1) 0 ∧ bytes.length + (k + 1) = c.bufsiz := by
  have hge := c.bufsiz_ge
  unfold recvCap at h
  refine ⟨c.bufsiz - bytes.length - 1, ?_, by omega⟩
  have hk : c.bufsiz - bytes.length = c.bufsiz - bytes.length - 1 + 1 := by omega
  rw [recvInto, zeros, List.drop_replicate, ← hk]

theorem nul_in_buf (h : bytes.length ≤ recvCap c) :
    (recvInto (zeros c) bytes).length = c.bufsiz ∧ 0 ∈ recvInto (zeros c) bytes := by
  obtain ⟨k, hbuf, hk⟩ := recvInto_zeros h
  rw [hbuf]
  exact ⟨by rw [List.length_append, List.length_replicate, hk], by simp⟩

/-- **The text logged is the chunk's own**, up to its first NUL. -/
theorem text_recvInto (h : bytes.length ≤ recvCap c) : text (recvInto (zeros c) bytes) = text bytes := by
  obtain ⟨k, hbuf, -⟩ := recvInto_zeros h
  have htail : (List.replicate (k + 1) (0 : UInt8)).takeWhile (· ≠ 0) = [] := by
    rw [List.replicate_succ]
    rfl
  unfold text
  rw [hbuf, List.takeWhile_append, htail, List.append_nil]
  split
  · next hlen => exact ((List.takeWhile_prefix _).eq_of_length hlen).symm
  · rfl

/-! ## A server that accepts once -/

/-- How many clients were accepted. -/
def Pc.accepted : Pc → Nat
  | .recv | .sleep | .ended (.returned 0) | .ended (.exited _) => 1
  | .socket | .bind | .listen | .accept | .ended _ => 0

/-- The `StreamServer` it is. -/
def Sys.shows (s : Sys) : StreamServer.St UInt8 Errno :=
  ⟨s.net, s.pc.accepted, if s.pc = .recv then {0} else ∅, ∅⟩

/-- The calls still to come, but for those of the loop. -/
def Pc.rank : Pc → Nat
  | .socket => 5
  | .bind => 4
  | .listen => 3
  | .accept | .recv => 2
  | .sleep => 1
  | .ended _ => 0

/-- A bound on the own steps still to come. -/
def work (s : Sys) : Nat := s.pc.rank + StreamServer.work s.shows

/-- A step of the server's is one of the `StreamServer`'s, or brings it closer to its end. -/
theorem step_shows (h : step c s a = some s') :
    (s'.shows = s.shows ∧ s'.pc.rank < s.pc.rank) ∨
    ∃ b, StreamServer.step (recvCap c) s.shows b = some s'.shows ∧
      (Own s a → StreamServer.Own s.shows b ∧ s'.pc.rank ≤ s.pc.rank) := by
  unfold step at h
  split at h
  · split at h
    · cases h
      exact .inr ⟨.client .connect, rfl, False.elim⟩
    · cases h
  · next a _ =>
    cases h
    exact .inr ⟨.client a, rfl, False.elim⟩
  · next hpc =>
    cases h
    left
    split <;> simp [Sys.shows, hpc, Pc.accepted, Pc.rank]
  · next hpc =>
    cases h
    left
    split <;> simp [Sys.shows, hpc, Pc.accepted, Pc.rank]
  · next hpc =>
    cases h
    left
    split <;> simp [Sys.shows, hpc, Pc.accepted, Pc.rank]
  · next hpc =>
    split at h
    · cases h
      exact .inl (by simp [Sys.shows, hpc, Pc.accepted, Pc.rank])
    · split at h
      · cases h
      · obtain ⟨net, hnet, rfl⟩ := Option.map_eq_some_iff.mp h
        refine .inr ⟨.accept, ?_, fun _ => ⟨trivial, by simp [accepted, hpc, Pc.rank]⟩⟩
        simp [StreamServer.step, Sys.shows, accepted, hpc, Pc.accepted, hnet]
  · next out hpc =>
    obtain ⟨net, hnet, rfl⟩ := Option.map_eq_some_iff.mp h
    refine .inr ⟨.recv 0 out false, ?_, fun _ => ⟨trivial, ?_⟩⟩
    · cases out <;> simp [StreamServer.step, Sys.shows, hpc, Pc.accepted, hnet, received, ends]
    · cases out <;> simp [received, hpc, Pc.rank]
  · next hpc =>
    cases h
    exact .inl (by simp [Sys.shows, hpc, Pc.accepted, Pc.rank])
  · cases h

theorem step_shows_inv (hi : StreamServer.Inv s.shows) (h : step c s a = some s') : StreamServer.Inv s'.shows := by
  rcases step_shows h with ⟨he, -⟩ | ⟨b, hb, -⟩
  · rw [he]
    exact hi
  · exact StreamServer.step_inv hi hb

theorem own_work (hi : StreamServer.Inv s.shows) (ho : Own s a) (h : step c s a = some s') : work s' < work s := by
  unfold work
  rcases step_shows h with ⟨he, hlt⟩ | ⟨b, hb, hown⟩
  · rw [he]
    omega
  · obtain ⟨hb', hle⟩ := hown ho
    have hlt := StreamServer.own_work hi hb' hb
    omega

/-! ## What every run keeps -/

/-- The descriptors open. -/
def FdsOk (s : Sys) : Prop :=
  match s.pc with
  | .socket | .ended (.returned 0) => s.fds = ∅
  | .bind | .listen | .accept | .sleep | .ended (.returned _) => s.fds = {s.srvFd}
  | .recv => s.fds = {s.cliFd, s.srvFd} ∧ s.cliFd ≠ s.srvFd
  | .ended (.exited _) | .ended .aborted => True

/-- The log is of the chunks received, each on its own; and the server is past
its loop only with the whole stream, or after an error. -/
structure Inv (c : Cfg) (s : Sys) : Prop where
  net : StreamServer.Inv s.shows
  log : s.log = (s.net.conn 0).got.map line
  sizes : ∀ chunk ∈ (s.net.conn 0).got, chunk ≠ [] ∧ chunk.length ≤ recvCap c
  buf : s.pc = .recv → s.buf = zeros c
  fds : FdsOk s
  whole : s.pc = .sleep ∨ s.pc = .ended (.returned 0) → (s.net.conn 0).fin = true ∧ (s.net.conn 0).Whole
  failed : ∀ code, s.pc = .ended (.exited code) → (s.net.conn 0).broken = true
  ending : ∀ e, s.pc = .ended e → e = .returned 0 ∨ e = .returned 1 ∨ e = .exited 1 ∨ e = .aborted

theorem init_inv (c : Cfg) : Inv c init := by
  have hshows : init.shows = StreamServer.init := rfl
  refine ⟨hshows ▸ StreamServer.init_inv, rfl, ?_, ?_, rfl, ?_, ?_, ?_⟩ <;> simp [init, Net.empty, fresh]

theorem client_conn (net : Net UInt8 Errno) (a : Client UInt8 Errno) (n : Nat) :
    (net.client a).conn n = net.conn n ∨ ∃ p, (net.client a).conn n = (net.conn n).peer p := by
  cases a with
  | connect | queued i p => exact .inl rfl
  | peer m p =>
    by_cases hmn : n = m
    · subst hmn
      exact .inr ⟨p, Function.update_self ..⟩
    · exact .inl (Function.update_of_ne hmn _ _)

theorem Inv.client (hi : Inv c s) (a : Client UInt8 Errno)
    (hnet : StreamServer.Inv { s with net := s.net.client a }.shows) : Inv c { s with net := s.net.client a } := by
  rcases client_conn s.net a 0 with he | ⟨p, he⟩
  · refine ⟨hnet, ?_, ?_, hi.buf, hi.fds, ?_, ?_, hi.ending⟩
    · rw [he]
      exact hi.log
    · rw [he]
      exact hi.sizes
    · rw [he]
      exact hi.whole
    · rw [he]
      exact hi.failed
  · refine ⟨hnet, ?_, ?_, hi.buf, hi.fds, fun hpc => ?_, fun code hpc => ?_, hi.ending⟩
    · rw [he, peer_got]
      exact hi.log
    · rw [he, peer_got]
      exact hi.sizes
    · obtain ⟨hfin, hwhole⟩ := hi.whole hpc
      rw [he]
      exact ⟨peer_fin p hfin, peer_whole p hfin hwhole⟩
    · rw [he]
      exact peer_broken p (hi.failed code hpc)

theorem Inv.accept {ret : Int} {net : Net UInt8 Errno} (hi : Inv c s) (hpc : s.pc = .accept)
    (hfree : ret ∉ s.fds) (hnet : s.net.accept 0 = some net)
    (hshows : StreamServer.Inv (accepted c s ret net).shows) : Inv c (accepted c s ret net) := by
  obtain ⟨x, backlog, hb, rfl⟩ := accept_eq hnet
  have hx : x.got = [] := hi.net.waiting x (by simp [Sys.shows, hb])
  have hnone : (s.net.conn 0).got = [] := hi.net.unread 0 (by simp [Sys.shows, hpc, Pc.accepted])
  have hfds : s.fds = {s.srvFd} := by
    have h := hi.fds
    simpa only [FdsOk, hpc] using h
  have hne : ret ≠ s.srvFd := by
    intro he
    apply hfree
    rw [hfds]
    exact Finset.mem_singleton.mpr he
  refine ⟨hshows, ?_, ?_, fun _ => rfl, ⟨?_, hne⟩, ?_, ?_, ?_⟩
  · simp [accepted, hi.log, hnone, hx]
  · simp [accepted, hx]
  · simp only [accepted, hfds]
  all_goals simp [accepted]

theorem Inv.received {out : Out UInt8 Errno} {net : Net UInt8 Errno} (hi : Inv c s) (hpc : s.pc = .recv)
    (hnet : s.net.recv (recvCap c) (some 0) out = some net)
    (hshows : StreamServer.Inv (received c s net out).shows) : Inv c (received c s net out) := by
  obtain ⟨x, hx, rfl⟩ := recv_eq hnet
  have hgot := recv_got hx
  obtain ⟨hfds, hne⟩ : s.fds = {s.cliFd, s.srvFd} ∧ s.cliFd ≠ s.srvFd := by
    have h := hi.fds
    simpa only [FdsOk, hpc] using h
  cases out with
  | data bytes =>
    have hlen := recv_length hx
    refine ⟨hshows, ?_, ?_, fun _ => rfl, ?_, ?_, ?_, ?_⟩
    · simp only [SimpleTcp.received, Function.update_self, hgot, List.map_append, hi.log, hi.buf hpc,
        text_recvInto hlen.2, Out.chunk, List.map_cons, List.map_nil, line]
    · simp only [SimpleTcp.received, Function.update_self, hgot]
      intro chunk hchunk
      rcases List.mem_append.mp hchunk with hchunk | hchunk
      · exact hi.sizes chunk hchunk
      · rw [List.mem_singleton.mp hchunk]
        exact hlen
    · simp only [FdsOk, SimpleTcp.received, hpc]
      exact ⟨hfds, hne⟩
    all_goals simp [SimpleTcp.received, hpc]
  | eof =>
    obtain ⟨rfl, hfin, hwhole⟩ := recv_eof hx
    refine ⟨hshows, ?_, ?_, ?_, ?_, fun _ => ?_, ?_, ?_⟩
    · simp [SimpleTcp.received, hi.log]
    · simpa [SimpleTcp.received] using hi.sizes
    · simp [SimpleTcp.received]
    · simp only [FdsOk, SimpleTcp.received, hfds]
      exact Finset.erase_insert (by simpa using hne)
    · simpa [SimpleTcp.received] using ⟨hfin, hwhole⟩
    all_goals simp [SimpleTcp.received]
  | error e =>
    obtain ⟨rfl, -, hbroken⟩ := recv_error hx
    refine ⟨hshows, ?_, ?_, ?_, trivial, ?_, fun _ _ => ?_, ?_⟩
    · simp [SimpleTcp.received, report, hi.log]
    · simpa [SimpleTcp.received, report] using hi.sizes
    · simp [SimpleTcp.received]
    · simp [SimpleTcp.received]
    · simpa [SimpleTcp.received, report] using hbroken
    · simp [SimpleTcp.received]

theorem Inv.frame (hi : Inv c s) (hshows : StreamServer.Inv s'.shows) (hnet : s'.net = s.net)
    (hlog : s'.log = s.log) (hpc : s'.pc ≠ .recv) (hfds : FdsOk s')
    (hwhole : s'.pc = .sleep ∨ s'.pc = .ended (.returned 0) → s.pc = .sleep)
    (hexit : ∀ code, s'.pc ≠ .ended (.exited code))
    (hending : ∀ e, s'.pc = .ended e → e = .returned 0 ∨ e = .returned 1 ∨ e = .exited 1 ∨ e = .aborted) :
    Inv c s' := by
  refine ⟨hshows, ?_, ?_, fun h => absurd h hpc, hfds, fun h => ?_, fun code h => absurd h (hexit code), hending⟩
  · rw [hlog, hnet]
    exact hi.log
  · rw [hnet]
    exact hi.sizes
  · rw [hnet]
    exact hi.whole (.inl (hwhole h))

theorem step_inv (hi : Inv c s) (h : step c s a = some s') : Inv c s' := by
  have hshows := step_shows_inv hi.net h
  have hfds := hi.fds
  unfold step at h
  split at h
  · split at h
    · cases h
      exact hi.client _ hshows
    · cases h
  · cases h
    exact hi.client _ hshows
  · next ret hpc =>
    cases h
    by_cases hret : ret < 0
    · rw [if_pos hret] at hshows ⊢
      exact hi.frame hshows rfl rfl (by simp) trivial (by simp) (by simp) (by simp)
    · rw [if_neg hret] at hshows ⊢
      exact hi.frame hshows rfl rfl (by simp) rfl (by simp) (by simp) (by simp)
  · next ret hpc =>
    cases h
    simp only [FdsOk, hpc] at hfds
    by_cases hret : ret = -1
    · rw [if_pos hret] at hshows ⊢
      exact hi.frame hshows rfl rfl (by simp) trivial (by simp) (by simp) (by simp)
    · rw [if_neg hret] at hshows ⊢
      exact hi.frame hshows rfl rfl (by simp) hfds (by simp) (by simp) (by simp)
  · next ret hpc =>
    cases h
    simp only [FdsOk, hpc] at hfds
    by_cases hret : ret = -1
    · rw [if_pos hret] at hshows ⊢
      exact hi.frame hshows rfl rfl (by simp) trivial (by simp) (by simp) (by simp)
    · rw [if_neg hret] at hshows ⊢
      exact hi.frame hshows rfl rfl (by simp) hfds (by simp) (by simp) (by simp)
  · next ret hpc =>
    split at h
    · cases h
      simp only [FdsOk, hpc] at hfds
      exact hi.frame hshows rfl rfl (by simp) hfds (by simp) (by simp) (by simp)
    · split at h
      · cases h
      · next hfree =>
        obtain ⟨net, hnet, rfl⟩ := Option.map_eq_some_iff.mp h
        exact hi.accept hpc hfree hnet hshows
  · next hpc =>
    obtain ⟨net, hnet, rfl⟩ := Option.map_eq_some_iff.mp h
    exact hi.received hpc hnet hshows
  · next hpc =>
    cases h
    simp only [FdsOk, hpc] at hfds
    refine hi.frame hshows rfl rfl (by simp) ?_ (fun _ => hpc) (by simp) (by simp)
    simp [FdsOk, hfds]
  · cases h

theorem reach_inv (h : Reach (step c) Any init s) : Inv c s :=
  h.invariant (init_inv c) fun _ _ _ hi _ hs => step_inv hi hs

/-! ## Where the server rests -/

/-- The server has ended, or waits for a client, or for the client's next bytes. -/
def AtRest (s : Sys) : Prop :=
  (∃ e, s.pc = .ended e) ∨ (s.pc = .accept ∧ s.net.backlog = []) ∨ (s.pc = .recv ∧ ¬ (s.net.conn 0).Readable)

theorem atRest_of_stuck (hstuck : ∀ a, Own s a → step c s a = none) : AtRest s := by
  cases hpc : s.pc with
  | ended e => exact .inl ⟨e, hpc⟩
  | accept =>
    refine .inr (.inl ⟨hpc, ?_⟩)
    obtain ⟨fd, hfd⟩ := Infinite.exists_notMem_finset (s.fds.image Int.toNat)
    have hfree : (fd : Int) ∉ s.fds := fun hmem => hfd (Finset.mem_image.mpr ⟨fd, hmem, rfl⟩)
    have hneg : ¬ (fd : Int) < 0 := by omega
    have hnone := hstuck (.accept fd) (Int.natCast_nonneg fd)
    cases hb : s.net.backlog with
    | nil => rfl
    | cons x backlog => simp [step, hpc, hneg, hfree, Net.accept, hb] at hnone
  | recv =>
    refine .inr (.inr ⟨hpc, fun hread => ?_⟩)
    have hcap : 0 < recvCap c := by
      have := c.bufsiz_ge
      unfold recvCap
      omega
    obtain ⟨out, x, hx⟩ := recv_exists hcap hread
    have := hstuck (.recv out) trivial
    simp [step, hpc, Net.recv, hx] at this
  | socket =>
    have := hstuck (.socket 0) trivial
    simp [step, hpc] at this
  | bind =>
    have := hstuck (.bind 0) trivial
    simp [step, hpc] at this
  | listen =>
    have := hstuck (.listen 0) trivial
    simp [step, hpc] at this
  | sleep =>
    have := hstuck .wake trivial
    simp [step, hpc] at this

theorem recv_in_buf (hi : Inv c s) (h : step c s (.recv (.data bytes)) = some s') :
    (recvInto s.buf bytes).length = c.bufsiz ∧ 0 ∈ recvInto s.buf bytes := by
  cases hpc : s.pc with
  | recv =>
    simp only [step, hpc] at h
    obtain ⟨net, hnet, -⟩ := Option.map_eq_some_iff.mp h
    obtain ⟨x, hx, -⟩ := recv_eq hnet
    rw [hi.buf hpc]
    exact nul_in_buf (recv_length hx).2
  | socket | bind | listen | accept | sleep | ended _ => simp [step, hpc] at h

/-- **What the server does with its one client**, in every run. The lines
logged are those of the chunks received, each with its length and its own
text, the string logged ending inside `buf`, and the chunks are a prefix of
the client's stream; no other client is read. It returns 0 only with the whole stream logged and both descriptors
closed, exits with 1 only after an error, and returns 1 with nothing logged
and the listening socket left open. Its own steps are at most `work` many;
where none is left it has ended, or waits for a client or its next bytes. -/
theorem simple_server_serves (h : Reach (step c) Any init s) :
    s.log = (s.net.conn 0).got.map line ∧ (s.net.conn 0).got.flatten <+: (s.net.conn 0).sent ∧
    (∀ chunk ∈ (s.net.conn 0).got, chunk ≠ [] ∧ chunk.length ≤ c.bufsiz - 1) ∧
    (∀ bytes s', step c s (.recv (.data bytes)) = some s' →
      (recvInto s.buf bytes).length = c.bufsiz ∧ 0 ∈ recvInto s.buf bytes) ∧
    ((∀ n, n ≠ 0 → (s.net.conn n).got = []) ∧ ∀ x ∈ s.net.backlog, x.got = []) ∧
    (∀ e, s.pc = .ended e →
      (e = .returned 0 ∧ (s.net.conn 0).fin = true ∧ (s.net.conn 0).Whole ∧ s.fds = ∅) ∨
      (e = .exited 1 ∧ (s.net.conn 0).broken = true) ∨
      (e = .returned 1 ∧ s.log = [] ∧ s.fds = {s.srvFd}) ∨ e = .aborted) ∧
    (∀ as s', runWhere (step c) Own s as = some s' → as.length ≤ work s) ∧
    ((∀ a, Own s a → step c s a = none) → AtRest s) := by
  have hi := reach_inv h
  refine ⟨hi.log, got_prefix _, hi.sizes, fun bytes s' hs => recv_in_buf hi hs,
    ⟨fun n hn => ?_, hi.net.waiting⟩, fun e hpc => ?_, fun as s' hrun => ?_, atRest_of_stuck⟩
  · refine hi.net.unread n ?_
    have hle : s.pc.accepted ≤ 1 := by
      unfold Pc.accepted
      split <;> omega
    show s.pc.accepted ≤ n
    omega
  · have hfds := hi.fds
    rcases hi.ending e hpc with rfl | rfl | rfl | rfl
    · simp only [FdsOk, hpc] at hfds
      obtain ⟨hfin, hwhole⟩ := hi.whole (.inr hpc)
      exact .inl ⟨rfl, hfin, hwhole, hfds⟩
    · simp only [FdsOk, hpc] at hfds
      have hnone : (s.net.conn 0).got = [] := hi.net.unread 0 (by simp [Sys.shows, hpc, Pc.accepted])
      refine .inr (.inr (.inl ⟨rfl, ?_, hfds⟩))
      rw [hi.log, hnone]
      rfl
    · exact .inr (.inl ⟨rfl, hi.failed 1 hpc⟩)
    · exact .inr (.inr (.inr rfl))
  · have hlen := runWhere_length_le (I := Inv c) (m := work)
      (fun _ _ _ hi ho hs => ⟨step_inv hi hs, own_work hi.net ho hs⟩) hi hrun
    omega

def demoCfg : Cfg := ⟨256, by decide⟩

/-- A long message and a short one with a NUL in it, from the first of two clients. -/
def demoRun : List Act :=
  [.socket 3, .bind 0, .listen 0, .client .connect, .client .connect, .accept 4,
   .client (.peer 0 (.send [72, 101, 108, 108, 111])), .recv (.data [72, 101, 108, 108, 111]),
   .client (.peer 0 (.send [79, 0, 75])), .client (.queued 0 (.send [33])), .recv (.data [79, 0, 75]),
   .client (.peer 0 .fin), .recv .eof, .wake]

theorem demoRun_run : (run (step demoCfg) init demoRun).isSome := by decide +kernel

/-- `simple_server_serves` at the end of `demoRun`. -/
theorem simple_server_serves_demo :
    let s := (run (step demoCfg) init demoRun).get demoRun_run
    (s.log = (s.net.conn 0).got.map line ∧ (s.net.conn 0).got.flatten <+: (s.net.conn 0).sent ∧
      (∀ chunk ∈ (s.net.conn 0).got, chunk ≠ [] ∧ chunk.length ≤ demoCfg.bufsiz - 1) ∧
      (∀ bytes s', step demoCfg s (.recv (.data bytes)) = some s' →
        (recvInto s.buf bytes).length = demoCfg.bufsiz ∧ 0 ∈ recvInto s.buf bytes) ∧
      ((∀ n, n ≠ 0 → (s.net.conn n).got = []) ∧ ∀ x ∈ s.net.backlog, x.got = []) ∧
      (∀ e, s.pc = .ended e →
        (e = .returned 0 ∧ (s.net.conn 0).fin = true ∧ (s.net.conn 0).Whole ∧ s.fds = ∅) ∨
        (e = .exited 1 ∧ (s.net.conn 0).broken = true) ∨
        (e = .returned 1 ∧ s.log = [] ∧ s.fds = {s.srvFd}) ∨ e = .aborted) ∧
      (∀ as s', runWhere (step demoCfg) Own s as = some s' → as.length ≤ work s) ∧
      ((∀ a, Own s a → step demoCfg s a = none) → AtRest s)) ∧
    s.log = [(5, [72, 101, 108, 108, 111]), (3, [79])] ∧ s.pc = .ended (.returned 0) :=
  ⟨simple_server_serves (reach_get demoRun_run), by decide +kernel, by decide +kernel⟩

end LinuxServer.SimpleTcp
