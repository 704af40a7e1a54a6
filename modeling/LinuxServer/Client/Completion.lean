/-
Who prints that all requests are complete. `comp_req_count` is atomic, but
`server_msg_cb` increments it and loads it again to compare, so every loop
that is between the two when the last increment is made finds the total as
well. `History` follows the loops in between (`comparing`) from the last
increment on: each of them takes the branch, and nobody else does.
-/
import LinuxServer.Client.Load

namespace LinuxServer.Client

open Lts RoundRobin

/-- How many loops are between their increment and their comparison. -/
def comparing (c : Cfg) (s : St) : Nat := total c.threadCount fun w => (s.place w).comparing

/-- `server_msg_cb` was called `client_count` times in all, and every call returned. -/
def AllCalled (c : Cfg) (s : St) : Prop :=
  s.called.length = c.clientCount ∧ ∀ w < c.threadCount, s.place w = .outside

/-- The step takes the branch "All client request complete". -/
def TakesBranch (c : Cfg) (x : St × Act) : Prop := ∃ w, x.2 = .compare w ∧ c.clientCount = x.1.compReqCount

/-- The step is the last of `client_count` increments. -/
def LastIncrement (c : Cfg) (x : St × Act) : Prop := ∃ w, x.2 = .increment w ∧ x.1.compReqCount + 1 = c.clientCount

/-- No increment comes after the branch was taken. -/
def AfterLast (c : Cfg) (past : List (St × Act)) : Prop :=
  ∀ pre x post, past = pre ++ x :: post → TakesBranch c x → ∀ y ∈ post, ∀ w, y.2 ≠ .increment w

/-- What the past says of the counter and of the loops that compare. -/
structure History (c : Cfg) (s : St) (past : List (St × Act)) : Prop where
  counted : ∀ x ∈ past, ∀ w, x.2 = .increment w → x.1.compReqCount < s.compReqCount
  before : s.compReqCount < c.clientCount → s.completes = 0
  reached : s.compReqCount = c.clientCount → ∃ x ∈ past, LastIncrement c x
  since : s.compReqCount = c.clientCount → ∀ x ∈ past, LastIncrement c x →
    s.completes + comparing c s = 1 + comparing c x.1

variable {c : Cfg} {s s' : St} {a : Act} {past : List (St × Act)} {r : Recorded St Act}

theorem init_history (c : Cfg) : History c init [] where
  counted := by simp
  before _ := rfl
  reached h := absurd h (Nat.ne_of_lt c.clientCount_pos)
  since h := absurd h (Nat.ne_of_lt c.clientCount_pos)

/-- A step that is no increment keeps the history, when it lowers the loops
that compare only by one that takes the branch. -/
theorem History.keep (h : History c s past) (hno : ∀ w, a ≠ .increment w)
    (hcount : s'.compReqCount = s.compReqCount)
    (hbefore : s.compReqCount < c.clientCount → s'.completes = s.completes)
    (hsince : s.compReqCount = c.clientCount → s'.completes + comparing c s' = s.completes + comparing c s) :
    History c s' (past ++ [(s, a)]) := by
  have hlast : ∀ {x}, x ∈ past ++ [(s, a)] → (∃ w, x.2 = .increment w) → x ∈ past := by
    rintro x hx ⟨w, hw⟩
    rcases List.mem_append.mp hx with hx | hx
    · exact hx
    · rw [List.mem_singleton.mp hx] at hw
      exact absurd hw (hno w)
  refine ⟨fun x hx w hw => ?_, fun hlt => ?_, fun heq => ?_, fun heq x hx hl => ?_⟩
  · rw [hcount]
    exact h.counted x (hlast hx ⟨w, hw⟩) w hw
  · rw [hcount] at hlt
    rw [hbefore hlt, h.before hlt]
  · obtain ⟨x, hx, hl⟩ := h.reached (hcount ▸ heq)
    exact ⟨x, List.mem_append_left _ hx, hl⟩
  · rw [hcount] at heq
    obtain ⟨w, hw, -⟩ := id hl
    rw [hsince heq, h.since heq x (hlast hx ⟨w, hw⟩) hl]

theorem step_history (h : History c s past) (hs : step c s a = some s') : History c s' (past ++ [(s, a)]) := by
  cases step_sound hs with
  | other hno _ hcounts =>
    simp only [St.counts, Prod.mk.injEq] at hcounts
    obtain ⟨hplace, hcount, hcompl, -, -⟩ := hcounts
    refine h.keep hno hcount (fun _ => hcompl) fun _ => ?_
    rw [hcompl, comparing, comparing, hplace]
  | @call i n hi hp _ =>
    refine h.keep (by simp) rfl (fun _ => rfl) fun _ => ?_
    have htotal := total_update Place.comparing s.place (.got i) (c.owner_lt i hi)
    rw [hp] at htotal
    change _ + 0 = _ + 0 at htotal
    simp only [readMsg, comparing]
    omega
  | @compare w i hw hp =>
    have htotal := total_update Place.comparing s.place .outside hw
    rw [hp] at htotal
    change _ + 1 = _ + 0 at htotal
    refine h.keep (by simp) rfl (fun hlt => if_neg (Nat.ne_of_gt hlt)) fun heq => ?_
    simp only [compareCount, comparing, if_pos heq.symm]
    omega
  | @increment w i hw hp =>
    have htotal := total_update Place.comparing s.place (.counted i) hw
    rw [hp] at htotal
    change _ + 0 = _ + 1 at htotal
    -- Every increment before this one was made at a lower count, so this one alone can be the last.
    have hold : ∀ x ∈ past ++ [(s, Act.increment w)], LastIncrement c x → s.compReqCount + 1 = c.clientCount →
        x = (s, .increment w) := by
      rintro x hx ⟨w', hw', hx'⟩ heq
      rcases List.mem_append.mp hx with hx | hx
      · have := h.counted x hx w' hw'
        omega
      · exact List.mem_singleton.mp hx
    refine ⟨fun x hx w' hw' => ?_, fun hlt => ?_, fun heq => ?_, fun heq x hx hl => ?_⟩
    · simp only [countUp]
      rcases List.mem_append.mp hx with hx | hx
      · exact Nat.lt_succ_of_lt (h.counted x hx w' hw')
      · rw [List.mem_singleton.mp hx]
        exact Nat.lt_succ_self _
    · simp only [countUp] at hlt ⊢
      exact h.before (by omega)
    · exact ⟨_, List.mem_append_right _ (List.mem_singleton.mpr rfl), w, rfl, heq⟩
    · simp only [countUp] at heq
      rw [hold x hx hl heq]
      have hzero := h.before (by omega)
      simp only [countUp, comparing, hzero]
      omega

theorem reach_history (h : Reach (recorded (step c)) (Now Any) ⟨[], init⟩ r) : History c r.now r.past :=
  h.history (init_history c) fun _ _ _ _ hs _ hstep => step_history hs hstep

/-- With every call made, the branch was only taken at the final count. -/
theorem afterLast_of_count (hall : r.now.compReqCount = c.clientCount)
    (h : Reach (recorded (step c)) (Now Any) ⟨[], init⟩ r) : AfterLast c r.past := by
  obtain ⟨hsorted, -⟩ := h.past_mono (f := St.compReqCount) fun _ _ _ => step_count_mono
  rintro pre x post hpast ⟨-, -, hx⟩ y hy w hw
  have hle : x.1.compReqCount ≤ y.1.compReqCount := by
    rw [hpast] at hsorted
    exact (List.pairwise_cons.mp (List.pairwise_append.mp hsorted).2.1).1 y hy
  have hlt : y.1.compReqCount < r.now.compReqCount :=
    (reach_history h).counted y (by rw [hpast]; simp [hy]) w hw
  omega

/-- **When the completion is reported once.** In every run in which
`server_msg_cb` was called `client_count` times in all: exactly one call takes
the branch "All client request complete", after the last increment, if and
only if no loop was between its increment and its comparison when the last
increment was made. -/
theorem completes_once_iff (h : Reach (recorded (step c)) (Now Any) ⟨[], init⟩ r) (hall : AllCalled c r.now) :
    (r.now.completes = 1 ∧ AfterLast c r.past) ↔
      ∀ x ∈ r.past, LastIncrement c x → ∀ w < c.threadCount, (x.1.place w).comparing = 0 := by
  obtain ⟨hcalled, hplace⟩ := hall
  have hist := reach_history h
  have hcount : r.now.compReqCount = c.clientCount := by
    have hacc := h.invariant (I := fun r => Accounted c r.now) (init_accounted c)
      fun _ _ _ hs _ hstep => step_accounted hs (recorded_step hstep).1
    have hzero : total c.threadCount (fun w => (r.now.place w).uncounted) = 0 :=
      total_eq_zero.mpr fun w hw => by rw [hplace w hw]; rfl
    unfold Accounted at hacc
    omega
  have hnone : comparing c r.now = 0 := total_eq_zero.mpr fun w hw => by rw [hplace w hw]; rfl
  constructor
  · rintro ⟨hone, -⟩ x hx hl
    have hsince := hist.since hcount x hx hl
    have hzero : comparing c x.1 = 0 := by omega
    exact total_eq_zero.mp hzero
  · intro halone
    obtain ⟨x, hx, hl⟩ := hist.reached hcount
    have hzero : comparing c x.1 = 0 := total_eq_zero.mpr (halone x hx hl)
    have hsince := hist.since hcount x hx hl
    exact ⟨by omega, afterLast_of_count hcount h⟩

/-- Two clients, each with a loop of its own. -/
def demoCfg : Cfg where
  clientCount := 2
  threadCount := 2
  owner i := i
  clientCount_pos := Nat.two_pos
  owner_lt _ h := h

/-- The two replies are handled one after the other. -/
def inTurn : List Act :=
  [.connected 0, .connected 1, .call 0 2, .increment 0, .compare 0, .call 1 2, .increment 1, .compare 1]

/-- The first call compares after the second one has incremented too. -/
def overlapping : List Act :=
  [.connected 0, .connected 1, .call 0 2, .call 1 2, .increment 0, .increment 1, .compare 0, .compare 1]

theorem inTurn_run : (run (recorded (step demoCfg)) ⟨[], init⟩ inTurn).isSome := by decide +kernel

theorem overlapping_run : (run (recorded (step demoCfg)) ⟨[], init⟩ overlapping).isSome := by decide +kernel

/-- `completes_once_iff` at the end of `inTurn`. -/
theorem completes_once_iff_inTurn :
    let r := (run (recorded (step demoCfg)) ⟨[], init⟩ inTurn).get inTurn_run
    (r.now.completes = 1 ∧ AfterLast demoCfg r.past) ↔
      ∀ x ∈ r.past, LastIncrement demoCfg x → ∀ w < demoCfg.threadCount, (x.1.place w).comparing = 0 :=
  completes_once_iff (reach_get inTurn_run) ⟨by decide +kernel, by decide +kernel⟩

/-- At the end of `overlapping` both calls have taken the branch. -/
theorem overlapping_completes_twice :
    let r := (run (recorded (step demoCfg)) ⟨[], init⟩ overlapping).get overlapping_run
    Reach (recorded (step demoCfg)) (Now Any) ⟨[], init⟩ r ∧ AllCalled demoCfg r.now ∧ r.now.completes = 2 :=
  ⟨reach_get overlapping_run, ⟨by decide +kernel, by decide +kernel⟩, by decide +kernel⟩

end LinuxServer.Client
