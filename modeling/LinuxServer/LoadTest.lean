/-
The load-test client against the thread-pool server, with the bytes between
them. TCP keeps no message boundaries: what one side wrote arrives in pieces
of any size, and each read of libevent makes one callback. The server queues
an "OK" for each `client_msg_cb`, and the client counts one for each
`server_msg_cb`.

Connection `n` of the server is that of socket `peer n` of the client. The
actions of the two programs are those of their own models; here they are
bound to the bytes under way.
-/
import LinuxServer.Client.Load
import LinuxServer.ThreadPool.Server

namespace LinuxServer.LoadTest

open Lts

/-- The length of the reply "OK". -/
def okLen : Nat := 2

structure Cfg where
  client : Client.Cfg
  server : ThreadPool.Cfg

/-- `up i` are the bytes under way from socket `i` to the server, `down i`
those under way to it. -/
structure St where
  client : Client.St
  server : ThreadPool.St
  peer : Nat → Option Nat
  up : Nat → Nat
  down : Nat → Nat

def init : St where
  client := Client.init
  server := ThreadPool.init
  peer _ := none
  up _ := 0
  down _ := 0

inductive Act
  | client (a : Client.Act)
  /-- the server accepts the connection of socket `i` as `fd` -/
  | accept (fd i : Nat)
  | server (a : ThreadPool.Act)
  deriving DecidableEq, Repr

/-- A step of the client: what it sends is under way, and what it receives was. -/
def clientStep (c : Cfg) (s : St) (a : Client.Act) : Option St :=
  (Client.step c.client s.client a).bind fun client =>
    match a with
    | .send i n => some { s with client, up := Function.update s.up i (s.up i + n) }
    | .call i n =>
      if n ≤ s.down i then some { s with client, down := Function.update s.down i (s.down i - n) } else none
    | .connected _ | .increment _ | .compare _ | .lost _ => some { s with client }

/-- The socket the server's descriptor `fd` is connected to. -/
def socketOf (s : St) (fd : Nat) : Option Nat := (s.server.kern.ofd fd).bind s.peer

/-- A step of the server besides `accept`. -/
def serverStep (c : Cfg) (s : St) (a : ThreadPool.Act) : Option St :=
  (ThreadPool.step c.server s.server a).bind fun server =>
    match a with
    | .main (.accept _) => none
    | .worker _ (.clientMsg fd n) =>
      match socketOf s fd with
      | some i => if n ≤ s.up i then some { s with server, up := Function.update s.up i (s.up i - n) } else none
      | none => none
    | .worker _ (.flush fd n _) =>
      match socketOf s fd with
      | some i => some { s with server, down := Function.update s.down i (s.down i + n) }
      | none => none
    | _ => some { s with server }

/-- Socket `i` was connected and not accepted yet. -/
def Waiting (c : Cfg) (s : St) (i : Nat) : Prop :=
  i < c.client.clientCount ∧ ∀ n < s.server.kern.opened, s.peer n ≠ some i

instance (c : Cfg) (s : St) (i : Nat) : Decidable (Waiting c s i) := inferInstanceAs (Decidable (_ ∧ _))

def step (c : Cfg) (s : St) (a : Act) : Option St :=
  match a with
  | .client a => clientStep c s a
  | .accept fd i =>
    if Waiting c s i then
      (ThreadPool.step c.server s.server (.main (.accept fd))).map fun server =>
        { s with server, peer := Function.update s.peer s.server.kern.opened (some i) }
    else none
  | .server a => serverStep c s a

/-- The clients that have received a whole reply. -/
def answered (c : Cfg) (s : St) : Finset Nat :=
  (Finset.range c.client.clientCount).filter fun i => okLen ≤ s.client.received i

/-- `server_msg_cb` is called at most once for each socket, with a whole reply. -/
def OnceWhole (_ : Cfg) (s : St) : Act → Prop
  | .client (.call i n) => i ∉ s.client.called ∧ okLen ≤ n
  | _ => True

instance (c : Cfg) (s : St) (a : Act) : Decidable (OnceWhole c s a) := by
  unfold OnceWhole
  split <;> infer_instance

variable {c : Cfg} {s s' : St} {a : Act}

theorem step_client (h : step c s a = some s') : s'.client = s.client ∨
    ∃ a', a = .client a' ∧ Client.step c.client s.client a' = some s'.client := by
  cases a with
  | client a =>
    obtain ⟨client, hstep, h⟩ := Option.bind_eq_some_iff.mp h
    have he : s'.client = client := by
      split at h
      · cases h; rfl
      · split at h
        · cases h; rfl
        · cases h
      all_goals cases h; rfl
    exact .inr ⟨a, rfl, he ▸ hstep⟩
  | accept fd i =>
    simp only [step] at h
    split at h
    · obtain ⟨server, -, rfl⟩ := Option.map_eq_some_iff.mp h
      exact .inl rfl
    · cases h
  | server a =>
    obtain ⟨server, -, h⟩ := Option.bind_eq_some_iff.mp h
    refine .inl ?_
    split at h
    · cases h
    · split at h
      · split at h
        · cases h; rfl
        · cases h
      · cases h
    · split at h
      · cases h; rfl
      · cases h
    · cases h; rfl

/-- The sockets called back, each once and with a whole reply. -/
structure Inv (c : Cfg) (s : St) : Prop where
  accounted : Client.Accounted c.client s.client
  once : s.client.called.Nodup
  replied : ∀ i ∈ s.client.called, i ∈ answered c s

theorem mem_answered {i : Nat} : i ∈ answered c s ↔ i < c.client.clientCount ∧ okLen ≤ s.client.received i := by
  simp [answered]

theorem init_inv (c : Cfg) : Inv c init where
  accounted := Client.init_accounted c.client
  once := .nil
  replied i hi := by simp [init, Client.init] at hi

/-- A call that meets `OnceWhole` is of a socket not called back before, which is answered by it. -/
theorem Inv.call {client : Client.St} {i n : Nat} (hs : Inv c s) (hok : OnceWhole c s (.client (.call i n)))
    (hi : i < c.client.clientCount) (hc : client.called = s.client.called ++ [i])
    (hr : client.received = Function.update s.client.received i (s.client.received i + n))
    (hclient : s'.client = client) : s'.client.called.Nodup ∧ ∀ j ∈ s'.client.called, j ∈ answered c s' := by
  subst hclient
  obtain ⟨hnew, hwhole⟩ := hok
  refine ⟨?_, fun j hj => ?_⟩
  · rw [hc]
    refine List.nodup_append.mpr ⟨hs.once, by simp, fun j hj k hk he => ?_⟩
    rw [he, List.mem_singleton.mp hk] at hj
    exact hnew hj
  · rw [mem_answered, hr]
    by_cases hji : j = i
    · subst hji
      rw [Function.update_self]
      exact ⟨hi, by omega⟩
    · rw [Function.update_of_ne hji]
      rw [hc] at hj
      have hold : j ∈ s.client.called := by simpa [hji] using hj
      exact mem_answered.mp (hs.replied j hold)

theorem step_inv (hs : Inv c s) (hok : OnceWhole c s a) (h : step c s a = some s') : Inv c s' := by
  rcases step_client h with he | ⟨a, rfl, hc⟩
  · refine ⟨?_, ?_, ?_⟩
    · rw [he]; exact hs.accounted
    · rw [he]; exact hs.once
    · simpa only [answered, he] using hs.replied
  · have hacc := Client.step_accounted hs.accounted hc
    generalize hclient : s'.client = client at hc hacc
    cases Client.step_sound hc with
    | other _ _ hcounts =>
      simp only [Client.St.counts, Prod.mk.injEq] at hcounts
      obtain ⟨-, -, -, hreceived, hcalled⟩ := hcounts
      refine ⟨hclient ▸ hacc, ?_, ?_⟩
      · rw [hclient, hcalled]; exact hs.once
      · simpa only [answered, hclient, hcalled, hreceived] using hs.replied
    | call hi _ _ =>
      obtain ⟨honce, hans⟩ := hs.call hok hi rfl rfl hclient
      exact ⟨hclient ▸ hacc, honce, hans⟩
    | increment _ _ | compare _ _ =>
      refine ⟨hclient ▸ hacc, ?_, fun i hi => ?_⟩
      · rw [hclient]; exact hs.once
      · rw [hclient] at hi
        rw [mem_answered, hclient]
        exact mem_answered.mp (hs.replied i hi)

theorem reach_inv (h : Reach (step c) (OnceWhole c) init s) : Inv c s :=
  h.invariant (init_inv c) fun _ _ _ hs hok hstep => step_inv hs hok hstep

/-- **What `comp_req_count` says of the clients.** In a run in which
`server_msg_cb` is called at most once for each socket, with a whole reply:
the counter is at most the number of clients that received one, and when it
reaches `total_req_count` every client did. -/
theorem count_le_answered (h : Reach (step c) (OnceWhole c) init s) :
    s.client.compReqCount ≤ (answered c s).card ∧
    (s.client.compReqCount = c.client.clientCount →
      ∀ i < c.client.clientCount, okLen ≤ s.client.received i) := by
  have hs := reach_inv h
  have hle : s.client.compReqCount ≤ (answered c s).card := by
    have hsub : s.client.called.toFinset ⊆ answered c s := fun i hi => hs.replied i (List.mem_toFinset.mp hi)
    have hacc := hs.accounted
    unfold Client.Accounted at hacc
    calc s.client.compReqCount ≤ s.client.called.length := by omega
      _ = s.client.called.toFinset.card := (List.toFinset_card_of_nodup hs.once).symm
      _ ≤ (answered c s).card := Finset.card_le_card hsub
  refine ⟨hle, fun hall i hi => ?_⟩
  have hfull : answered c s = Finset.range c.client.clientCount := by
    refine Finset.eq_of_subset_of_card_le (Finset.filter_subset _ _) ?_
    rw [Finset.card_range]
    omega
  exact (mem_answered.mp (hfull ▸ Finset.mem_range.mpr hi)).2

/-- Two clients on one loop, and a server of one worker. -/
def demoCfg : Cfg where
  client := ⟨2, 1, fun _ => 0, Nat.two_pos, fun _ _ => Nat.one_pos⟩
  server := ⟨1, 1, Nat.one_pos, Nat.one_pos⟩

/-- Socket `i` connects and says hello; the server accepts it as `fd` and its worker registers it. -/
def join (fd i : Nat) : List Act :=
  [.client (.connected i), .client (.send i 6), .accept fd i, .server (.main .push), .server (.main .sendConn),
   .server (.worker 0 .mainMsg), .server (.worker 0 .recv), .server (.worker 0 .tryPop),
   .server (.worker 0 .register), .server (.worker 0 .tryPop), .server (.worker 0 .recv)]

/-- The server receives `n` bytes on `fd`, and answers. -/
def serve (fd n : Nat) : List Act :=
  [.server (.worker 0 (.clientMsg fd n)), .server (.worker 0 .read), .server (.worker 0 .count),
   .server (.worker 0 .read), .server (.worker 0 .reply), .server (.worker 0 (.flush fd 2 false))]

/-- Socket `i` receives `n` bytes, and they are counted. -/
def count (i n : Nat) : List Act := [.client (.call i n), .client (.increment 0), .client (.compare 0)]

/-- Each message arrives whole. -/
def wholeRun : List Act := join 5 0 ++ serve 5 6 ++ count 0 2 ++ join 6 1 ++ serve 6 6 ++ count 1 2

/-- The first client's "Hello!" arrives in two pieces; the second has not even connected. -/
def splitRun : List Act := join 5 0 ++ serve 5 3 ++ serve 5 3 ++ count 0 2 ++ count 0 2

theorem wholeRun_run : (runWhere (step demoCfg) (OnceWhole demoCfg) init wholeRun).isSome := by decide +kernel

theorem splitRun_run : (run (step demoCfg) init splitRun).isSome := by decide +kernel

/-- `count_le_answered` at the end of `wholeRun`. -/
theorem count_le_answered_whole :
    let s := (runWhere (step demoCfg) (OnceWhole demoCfg) init wholeRun).get wholeRun_run
    s.client.compReqCount ≤ (answered demoCfg s).card ∧
    (s.client.compReqCount = demoCfg.client.clientCount →
      ∀ i < demoCfg.client.clientCount, okLen ≤ s.client.received i) :=
  count_le_answered (reachWhere_get wholeRun_run)

/-- The counter has reached the total, and one client was answered. -/
theorem split_hello_counted_twice :
    let s := (run (step demoCfg) init splitRun).get splitRun_run
    Reach (step demoCfg) Any init s ∧ s.client.compReqCount = demoCfg.client.clientCount ∧
      (answered demoCfg s).card = 1 ∧ s.client.received 1 = 0 :=
  ⟨reach_get splitRun_run, by decide +kernel, by decide +kernel, by decide +kernel⟩

end LinuxServer.LoadTest
