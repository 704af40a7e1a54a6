/-
A server that reads its clients' streams, without anything of how it does.

Connections wait in a backlog; the server takes the oldest and watches it,
or refuses it. Of those it watches it reads what there is, reports each
chunk, and gives a connection up at the end of its stream, or after an error
if it wants to. `Rest.whole` is what such a server is for, `own_work` says
that it is soon done. A program is such a server when its steps are runs of
these.
-/
import Mathlib.Algebra.BigOperators.Group.Finset.Basic
import Mathlib.Algebra.GroupWithZero.Nat
import Mathlib.Algebra.Order.BigOperators.Group.Finset
import Mathlib.Logic.Function.Basic
import LinuxServer.Lib.Inbound
import LinuxServer.Lib.Lts

namespace StreamServer

open Lts Inbound

variable {α ε : Type*}

/-- The connections, by the count of accepts before their own, those still
to be accepted, and the chunks reported, each whole: a line that prints a
chunk as a C string has its text up to the first NUL only. -/
structure Net (α ε : Type*) where
  conn : Nat → Inbound α ε
  backlog : List (Inbound α ε)
  log : List (Nat × List α)

def Net.empty : Net α ε := ⟨fun _ => .fresh, [], []⟩

/-- What the clients do: one connects, one of those accepted acts, or one
still in the backlog. -/
inductive Client (α ε : Type*)
  | connect
  | peer (n : Nat) (p : Peer α ε)
  | queued (i : Nat) (p : Peer α ε)
  deriving DecidableEq, Repr

def Net.client (net : Net α ε) : Client α ε → Net α ε
  | .connect => { net with backlog := net.backlog ++ [.fresh] }
  | .peer n p => { net with conn := Function.update net.conn n ((net.conn n).peer p) }
  | .queued i p => { net with backlog := net.backlog.modify i (·.peer p) }

/-- The oldest connection waiting becomes connection `n`. -/
def Net.accept (net : Net α ε) (n : Nat) : Option (Net α ε) :=
  match net.backlog with
  | [] => none
  | x :: backlog => some { net with conn := Function.update net.conn n x, backlog }

/-- A `recv` on connection `n`, what it gives being reported; without a
connection it fails. -/
def Net.recv [DecidableEq α] [DecidableEq ε] (cap : Nat) (net : Net α ε) : Option Nat → Out α ε → Option (Net α ε)
  | none, .error _ => some net
  | none, .data _ | none, .eof => none
  | some n, out => ((net.conn n).recv cap out).map fun x =>
    { net with conn := Function.update net.conn n x, log := net.log ++ out.chunk.map (n, ·) }

/-- The chunks reported of connection `n`, in order. -/
def Net.logged (net : Net α ε) (n : Nat) : List (List α) := (net.log.filter fun e => e.1 = n).map (·.2)

structure St (α ε : Type*) where
  net : Net α ε
  accepted : Nat
  watched : Finset Nat
  refused : Finset Nat

def init : St α ε := ⟨.empty, 0, ∅, ∅⟩

/-- `keep` says whether a connection is kept after an error. -/
inductive Act (α ε : Type*)
  | client (a : Client α ε)
  | accept
  | refuse
  | recv (n : Nat) (out : Out α ε) (keep : Bool)
  deriving DecidableEq, Repr

/-- The connection is given up. -/
def ends (keep : Bool) : Out α ε → Bool
  | .data _ => false
  | .eof => true
  | .error _ => !keep

def step [DecidableEq α] [DecidableEq ε] (cap : Nat) (s : St α ε) : Act α ε → Option (St α ε)
  | .client a => some { s with net := s.net.client a }
  | .accept => (s.net.accept s.accepted).map fun net =>
    { s with net, accepted := s.accepted + 1, watched := insert s.accepted s.watched }
  | .refuse => (s.net.accept s.accepted).map fun net =>
    { s with net, accepted := s.accepted + 1, refused := insert s.accepted s.refused }
  | .recv n out keep =>
    if n ∈ s.watched then (s.net.recv cap (some n) out).map fun net =>
      { s with net, watched := if ends keep out then s.watched.erase n else s.watched }
    else none

/-- The server's own actions. -/
def Own (_ : St α ε) : Act α ε → Prop
  | .client _ => False
  | .accept | .refuse | .recv _ _ _ => True

instance (s : St α ε) : (a : Act α ε) → Decidable (Own s a)
  | .client _ => .isFalse id
  | .accept | .refuse | .recv _ _ _ => .isTrue trivial

variable {cap n : Nat} {net net' : Net α ε} {s s' : St α ε} {a : Act α ε} {out : Out α ε} {x : Inbound α ε}

/-! ## The log -/

theorem logged_append (net : Net α ε) (n m : Nat) (chunks : List (List α)) (conn : Nat → Inbound α ε) :
    ({ net with conn, log := net.log ++ chunks.map (n, ·) } : Net α ε).logged m =
      net.logged m ++ if m = n then chunks else [] := by
  unfold Net.logged
  rw [List.filter_append, List.map_append]
  congr 1
  by_cases hm : m = n
  · subst hm
    simp [List.filter_map, Function.comp_def]
  · simp [List.filter_map, Function.comp_def, hm, Ne.symm hm]

theorem accept_eq (h : net.accept n = some net') : ∃ x backlog, net.backlog = x :: backlog ∧
    net' = { net with conn := Function.update net.conn n x, backlog } := by
  unfold Net.accept at h
  split at h
  · cases h
  · next x backlog hb =>
    cases h
    exact ⟨x, backlog, hb, rfl⟩

/-! ## What every run keeps -/

/-- The log is what the readers were given; and what the server does not
watch it refused, or saw broken, or has the whole of. -/
structure Inv (s : St α ε) : Prop where
  logged : ∀ n, s.net.logged n = (s.net.conn n).got
  unread : ∀ n, s.accepted ≤ n → (s.net.conn n).got = []
  waiting : ∀ x ∈ s.net.backlog, x.got = []
  watched : ∀ n ∈ s.watched, n < s.accepted
  refused : ∀ n ∈ s.refused, n < s.accepted ∧ n ∉ s.watched
  done : ∀ n < s.accepted, n ∉ s.watched → n ∉ s.refused →
    (s.net.conn n).broken = true ∨ ((s.net.conn n).fin = true ∧ (s.net.conn n).Whole)

theorem init_inv : Inv (init : St α ε) := by constructor <;> simp [init, Net.empty, Net.logged, fresh]

theorem mem_modify {f : Inbound α ε → Inbound α ε} {l : List (Inbound α ε)} {i : Nat}
    (hx : x ∈ l.modify i f) : ∃ y ∈ l, x = y ∨ x = f y := by
  obtain ⟨j, hj, rfl⟩ := List.mem_iff_getElem.mp hx
  rw [List.length_modify] at hj
  refine ⟨l[j], List.getElem_mem hj, ?_⟩
  rw [List.getElem_modify]
  split
  · exact .inr rfl
  · exact .inl rfl

theorem Inv.peer (h : Inv s) (n : Nat) (p : Peer α ε) :
    Inv { s with net := s.net.client (.peer n p) } := by
  have hgot : ∀ m, (Function.update s.net.conn n ((s.net.conn n).peer p) m).got = (s.net.conn m).got := by
    intro m
    by_cases hm : m = n
    · subst hm; simp
    · rw [Function.update_of_ne hm]
  refine ⟨fun m => ?_, fun m hm => ?_, h.waiting, h.watched, h.refused, fun m hm hw hr => ?_⟩
  · exact (h.logged m).trans (hgot m).symm
  · exact (hgot m).trans (h.unread m hm)
  · show (Function.update s.net.conn n _ m).broken = true ∨
      (Function.update s.net.conn n _ m).fin = true ∧ (Function.update s.net.conn n _ m).Whole
    by_cases hmn : m = n
    · subst hmn
      rw [Function.update_self]
      rcases h.done m hm hw hr with hb | ⟨hf, hwh⟩
      · exact .inl (peer_broken p hb)
      · exact .inr ⟨peer_fin p hf, peer_whole p hf hwh⟩
    · rw [Function.update_of_ne hmn]
      exact h.done m hm hw hr

theorem Inv.client (h : Inv s) (a : Client α ε) : Inv { s with net := s.net.client a } := by
  cases a with
  | connect =>
    refine ⟨h.logged, h.unread, fun x hx => ?_, h.watched, h.refused, h.done⟩
    rcases List.mem_append.mp hx with hx | hx
    · exact h.waiting x hx
    · rw [List.mem_singleton.mp hx]
      rfl
  | peer n p => exact h.peer n p
  | queued i p =>
    refine ⟨h.logged, h.unread, fun x hx => ?_, h.watched, h.refused, h.done⟩
    obtain ⟨y, hy, rfl | rfl⟩ := mem_modify hx
    · exact h.waiting _ hy
    · rw [peer_got]
      exact h.waiting _ hy

theorem Inv.accept (h : Inv s) (ha : s.net.accept s.accepted = some net')
    {watched refused : Finset Nat}
    (hset : watched = insert s.accepted s.watched ∧ refused = s.refused ∨
      watched = s.watched ∧ refused = insert s.accepted s.refused) :
    Inv ⟨net', s.accepted + 1, watched, refused⟩ := by
  obtain ⟨x, backlog, hb, rfl⟩ := accept_eq ha
  have hx : x.got = [] := h.waiting x (by simp [hb])
  have hself : s.accepted ∉ s.watched := fun hm => Nat.lt_irrefl _ (h.watched _ hm)
  have hselfr : s.accepted ∉ s.refused := fun hm => Nat.lt_irrefl _ (h.refused _ hm).1
  have hin : ∀ n, n ∈ watched → n = s.accepted ∨ n ∈ s.watched := by
    intro n hn
    rcases hset with ⟨rfl, -⟩ | ⟨rfl, -⟩
    · exact Finset.mem_insert.mp hn
    · exact .inr hn
  have hout : ∀ n, n ∉ watched → n ∉ refused → n ≠ s.accepted ∧ n ∉ s.watched ∧ n ∉ s.refused := by
    intro n hw hr
    rcases hset with ⟨rfl, rfl⟩ | ⟨rfl, rfl⟩
    · obtain ⟨hne, hw⟩ := not_or.mp (mt Finset.mem_insert.mpr hw)
      exact ⟨hne, hw, hr⟩
    · obtain ⟨hne, hr⟩ := not_or.mp (mt Finset.mem_insert.mpr hr)
      exact ⟨hne, hw, hr⟩
  refine ⟨fun n => ?_, fun n hn => ?_, fun y hy => h.waiting y (by simp [hb, hy]), fun n hn => ?_,
    fun n hn => ?_, fun n hn hw hr => ?_⟩
  · have hold : ({ s.net with conn := Function.update s.net.conn s.accepted x, backlog } : Net α ε).logged n =
        s.net.logged n := rfl
    rw [hold, h.logged]
    by_cases hna : n = s.accepted
    · subst hna
      simp [hx, h.unread _ (Nat.le_refl _)]
    · simp [hna]
  · have hn : s.accepted + 1 ≤ n := hn
    have hne : n ≠ s.accepted := by omega
    simpa [hne] using h.unread n (by omega)
  · rcases hin n hn with rfl | hn
    · exact Nat.lt_succ_self _
    · exact Nat.lt_succ_of_lt (h.watched n hn)
  · rcases hset with ⟨rfl, rfl⟩ | ⟨rfl, rfl⟩
    · have hr := h.refused n hn
      refine ⟨Nat.lt_succ_of_lt hr.1, fun hm => ?_⟩
      rcases Finset.mem_insert.mp hm with rfl | hm
      · exact hselfr hn
      · exact hr.2 hm
    · rcases Finset.mem_insert.mp hn with rfl | hn
      · exact ⟨Nat.lt_succ_self _, hself⟩
      · exact ⟨Nat.lt_succ_of_lt (h.refused n hn).1, (h.refused n hn).2⟩
  · obtain ⟨hne, hw, hr⟩ := hout n hw hr
    have hn : n < s.accepted + 1 := hn
    simpa [hne] using h.done n (by omega) hw hr

theorem Inv.logged_prefix (h : Inv s) (n : Nat) : (s.net.logged n).flatten <+: (s.net.conn n).sent := by
  rw [h.logged]
  exact got_prefix _

variable [DecidableEq α] [DecidableEq ε]

theorem recv_eq (h : net.recv cap (some n) out = some net') : ∃ x, (net.conn n).recv cap out = some x ∧
    net' = { net with conn := Function.update net.conn n x, log := net.log ++ out.chunk.map (n, ·) } := by
  obtain ⟨x, hx, rfl⟩ := Option.map_eq_some_iff.mp h
  exact ⟨x, hx, rfl⟩

theorem Inv.recv (h : Inv s) (hn : n ∈ s.watched) (hr : s.net.recv cap (some n) out = some net') (keep : Bool) :
    Inv { s with net := net', watched := if ends keep out then s.watched.erase n else s.watched } := by
  obtain ⟨x, hx, rfl⟩ := recv_eq hr
  have hsub : ∀ m, m ∈ (if ends keep out then s.watched.erase n else s.watched) → m ∈ s.watched := by
    intro m hm
    split at hm
    · exact Finset.mem_of_mem_erase hm
    · exact hm
  refine ⟨fun m => ?_, fun m hm => ?_, h.waiting, fun m hm => h.watched m (hsub m hm),
    fun m hm => ⟨(h.refused m hm).1, fun hw => (h.refused m hm).2 (hsub m hw)⟩, fun m hm hw hrf => ?_⟩
  · rw [logged_append, h.logged]
    by_cases hmn : m = n
    · subst hmn
      simp [recv_got hx]
    · simp [hmn]
  · have hm : s.accepted ≤ m := hm
    have hlt := h.watched n hn
    have hmn : m ≠ n := by omega
    simpa [hmn] using h.unread m hm
  · by_cases hmn : m = n
    · subst hmn
      have hends : ends keep out = true := by
        by_contra hno
        rw [if_neg hno] at hw
        exact hw hn
      simp only [Function.update_self]
      cases out with
      | data bytes => cases hends
      | eof =>
        obtain ⟨rfl, hfin, hwh⟩ := recv_eof hx
        exact .inr ⟨hfin, hwh⟩
      | error e =>
        obtain ⟨rfl, -, hb⟩ := recv_error hx
        exact .inl hb
    · have hw' : m ∉ s.watched := by
        intro hm'
        apply hw
        split
        · exact Finset.mem_erase.mpr ⟨hmn, hm'⟩
        · exact hm'
      simpa [hmn] using h.done m hm hw' hrf

theorem step_inv (h : Inv s) (hs : step cap s a = some s') : Inv s' := by
  cases a with
  | client a =>
    cases hs
    exact h.client a
  | accept =>
    obtain ⟨net', ha, rfl⟩ := Option.map_eq_some_iff.mp hs
    exact h.accept ha (.inl ⟨rfl, rfl⟩)
  | refuse =>
    obtain ⟨net', ha, rfl⟩ := Option.map_eq_some_iff.mp hs
    exact h.accept ha (.inr ⟨rfl, rfl⟩)
  | recv n out keep =>
    simp only [step, Option.ite_none_right_eq_some] at hs
    obtain ⟨hn, hs⟩ := hs
    obtain ⟨net', hr, rfl⟩ := Option.map_eq_some_iff.mp hs
    exact h.recv hn hr keep

theorem reach_inv (h : Reach (step cap) Any init s) : Inv s :=
  h.invariant init_inv fun _ _ _ hs _ hstep => step_inv hs hstep

/-! ## The server is soon done -/

/-- What the server still has to do. -/
def work (s : St α ε) : Nat :=
  (s.net.backlog.map fun x => 2 + x.load).sum + ∑ n ∈ s.watched, (1 + (s.net.conn n).load)

omit [DecidableEq α] [DecidableEq ε] in
theorem load_update {watched : Finset Nat} (conn : Nat → Inbound α ε) (x : Inbound α ε) (hn : n ∉ watched) :
    ∑ m ∈ watched, (1 + (Function.update conn n x m).load) = ∑ m ∈ watched, (1 + (conn m).load) := by
  refine Finset.sum_congr rfl fun m hm => ?_
  have hmn : m ≠ n := by
    rintro rfl
    exact hn hm
  rw [Function.update_of_ne hmn]

/-- Every action of the server's own leaves less to do. -/
theorem own_work (h : Inv s) (ho : Own s a) (hs : step cap s a = some s') : work s' < work s := by
  cases a with
  | client a => exact ho.elim
  | accept =>
    obtain ⟨net', ha, rfl⟩ := Option.map_eq_some_iff.mp hs
    obtain ⟨x, backlog, hb, rfl⟩ := accept_eq ha
    have hself : s.accepted ∉ s.watched := fun hm => Nat.lt_irrefl _ (h.watched _ hm)
    have hrest := load_update s.net.conn x hself
    simp only [work, Finset.sum_insert hself, Function.update_self, hrest, hb, List.map_cons, List.sum_cons]
    omega
  | refuse =>
    obtain ⟨net', ha, rfl⟩ := Option.map_eq_some_iff.mp hs
    obtain ⟨x, backlog, hb, rfl⟩ := accept_eq ha
    have hself : s.accepted ∉ s.watched := fun hm => Nat.lt_irrefl _ (h.watched _ hm)
    have hrest := load_update s.net.conn x hself
    simp only [work, hrest, hb, List.map_cons, List.sum_cons]
    omega
  | recv n out keep =>
    simp only [step, Option.ite_none_right_eq_some] at hs
    obtain ⟨hn, hs⟩ := hs
    obtain ⟨net', hr, rfl⟩ := Option.map_eq_some_iff.mp hs
    obtain ⟨x, hx, rfl⟩ := recv_eq hr
    have hrest := load_update s.net.conn x (Finset.notMem_erase n s.watched)
    have hsplit : ∀ f : Nat → Nat, ∑ m ∈ s.watched, f m = f n + ∑ m ∈ s.watched.erase n, f m :=
      fun f => (Finset.add_sum_erase _ f hn).symm
    refine Nat.add_lt_add_left ?_ _
    show ∑ m ∈ (if ends keep out then s.watched.erase n else s.watched),
        (1 + (Function.update s.net.conn n x m).load) < ∑ m ∈ s.watched, (1 + (s.net.conn m).load)
    rw [hsplit fun m => 1 + (s.net.conn m).load]
    split
    · rw [hrest]
      omega
    · next hkeep =>
      rw [hsplit, hrest, Function.update_self]
      rcases recv_load hx with ⟨rfl, -⟩ | hlt
      · exact absurd rfl hkeep
      · omega

theorem run_own (ho : Own s a) (hs : step cap s a = some s') :
    runWhere (step cap) Own s [a] = some s' := by
  simp [runWhere, ho, hs]

theorem run_work {as : List (Act α ε)} (h : Inv s) (hr : runWhere (step cap) Own s as = some s') :
    as.length + work s' ≤ work s :=
  runWhere_length_le (I := Inv) (m := work)
    (fun _ _ _ hs ho hstep => ⟨step_inv hs hstep, own_work hs ho hstep⟩) h hr

/-- Nobody waits, and no watched connection has anything to read. -/
def Rest (s : St α ε) : Prop := s.net.backlog = [] ∧ ∀ n ∈ s.watched, ¬ (s.net.conn n).Readable

omit [DecidableEq α] [DecidableEq ε] in
/-- **At rest every stream is logged whole**, but those refused or broken. -/
theorem Rest.whole (hr : Rest s) (h : Inv s) (hn : n < s.accepted) (href : n ∉ s.refused)
    (hb : (s.net.conn n).broken = false) : (s.net.logged n).flatten = (s.net.conn n).sent := by
  rw [h.logged]
  by_cases hw : n ∈ s.watched
  · exact whole_of_not_readable (hr.2 n hw)
  · rcases h.done n hn hw href with hbr | ⟨-, hwh⟩
    · rw [hbr] at hb
      cases hb
    · exact hwh

end StreamServer
