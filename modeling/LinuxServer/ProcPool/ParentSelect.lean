/-
Which child each notification goes to: the Round Robin search of
`run_parent` for any table of children and any counter, and the searches
that follow one another while no child is forked or reaped.

`liveFrom` lists the children still in the table in cyclic order from the
counter. A search takes its first child, and turns the list by one
(`onListen_select`); so the children notified are the list read round and
round, one child for each event of the listening socket (`Turned`).
-/
import LinuxServer.ProcPool.Parent

namespace LinuxServer.ProcPool.Parent

open Lts

variable {c : Cfg} {s s' : St} {a : Act} {past : List (St × Act)} {sel : List Nat}

/-- The children notified, in order. -/
def notified (calls : List Call) : List Nat :=
  calls.filterMap fun
    | .notify k _ => some k
    | .kill _ _ => none

/-- The children in the table, in cyclic order from the counter. -/
def liveFrom (c : Cfg) (s : St) : List Nat := cyclicFrom c.processNumber (listed s) s.subProcessCounter

/-- No child is forked, and no child's exit is taken in. -/
def Keeps (_ : St) : Act → Prop
  | .fork _ | .waitpid _ => False
  | .setup | .addsig | .enter | .childExit _ | .raise _ | .deliver _ | .epollWait _ | .epollFail
  | .handle _ | .nextByte | .waitpidNone | .leave => True

instance (s : St) : (a : Act) → Decidable (Keeps s a)
  | .fork _ | .waitpid _ => .isFalse id
  | .setup | .addsig | .enter | .childExit _ | .raise _ | .deliver _ | .epollWait _ | .epollFail
  | .handle _ | .nextByte | .waitpidNone | .leave => .isTrue trivial

/-- The parent is at the event of its listening socket. -/
def AtListen (c : Cfg) (s : St) : Act → Prop
  | .handle _ =>
    match s.pc with
    | .events (ev :: _) => ev.1 = c.listenfd
    | _ => False
  | _ => False

instance (c : Cfg) (s : St) (a : Act) : Decidable (AtListen c s a) := by
  unfold AtListen
  split
  · split <;> infer_instance
  · infer_instance

/-- The number of events of the listening socket handled. -/
def listens (c : Cfg) (past : List (St × Act)) : Nat := past.countP fun x => AtListen c x.1 x.2

theorem listens_append (past : List (St × Act)) (s : St) (a : Act) :
    listens c (past ++ [(s, a)]) = listens c past + if AtListen c s a then 1 else 0 := by
  unfold listens
  rw [List.countP_append, List.countP_singleton]
  simp only [decide_eq_true_eq]

theorem notified_append (l m : List Call) : notified (l ++ m) = notified l ++ notified m :=
  List.filterMap_append

theorem notified_killAll (c : Cfg) (s : St) : notified (killAll c s) = [] := by
  simp [notified, killAll]

/-- The step from `s` to `s'` notified child `j`, whose turn it was. -/
structure Selects (c : Cfg) (s s' : St) (j : Nat) (rest : List Nat) : Prop where
  first : liveFrom c s = j :: rest
  calls : notified s'.calls = notified s.calls ++ [j]
  counter : s'.subProcessCounter < c.processNumber
  turn : liveFrom c s' = rest ++ [j]

theorem onListen_select (hs : s.subProcessCounter < c.processNumber) (hlive : liveFrom c s ≠ [])
    (events : List (Int × Bool)) : ∃ j rest, Selects c s (onListen c s events) j rest := by
  obtain ⟨j, rest, hlist⟩ := List.exists_cons_of_ne_nil hlive
  obtain ⟨hj, hturn⟩ := cyclicFrom_next hs hlist
  have hmem : j ∈ liveFrom c s := by simp [hlist]
  have hne : (s.subProcess j).mPid ≠ -1 := by simpa [listed] using ((mem_cyclicFrom hs).mp hmem).2
  refine ⟨j, rest, hlist, ?_, ?_, ?_⟩
  · simp only [onListen, hj, if_neg hne, notified_append]
    rfl
  · simp only [onListen, hj, if_neg hne]
    exact Nat.mod_lt _ c.pos
  · simp only [onListen, hj, if_neg hne]
    exact hturn

theorem onListen_none (hs : s.subProcessCounter < c.processNumber) (hlive : liveFrom c s = [])
    (events : List (Int × Bool)) : (onListen c s events).subProcessCounter = s.subProcessCounter ∧
      notified (onListen c s events).calls = notified s.calls := by
  have hnot : listed s (cyclicSearch c.processNumber (listed s) s.subProcessCounter) = false := by
    refine Bool.eq_false_iff.mpr fun hl => ?_
    have hmem := (mem_cyclicFrom hs).mpr ⟨cyclicSearch_lt hs, hl⟩
    rw [show cyclicFrom _ _ _ = [] from hlive] at hmem
    cases hmem
  have heq : (s.subProcess (cyclicSearch c.processNumber (listed s) s.subProcessCounter)).mPid = -1 := by
    simpa [listed] using hnot
  simp only [onListen, if_pos heq, and_self]

theorem onListen_subProcess (c : Cfg) (s : St) (events : List (Int × Bool)) :
    (onListen c s events).subProcess = s.subProcess := by
  unfold onListen
  simp only
  split
  · rfl
  · rfl

theorem AtListen.handle (ha : AtListen c s a) :
    ∃ ev events, s.pc = .events (ev :: events) ∧ step c s a = some (onListen c s events) := by
  unfold AtListen at ha
  split at ha
  · split at ha
    · next ev events hpc =>
      refine ⟨ev, events, hpc, ?_⟩
      simp only [step, hpc, handleEvent, if_pos ha]
    · exact ha.elim
  · exact ha.elim

/-- A step at no event of the listening socket, that takes in no exit,
leaves table and counter alone and notifies nobody. -/
theorem step_quiet (hk : Keeps s a) (hn : ¬AtListen c s a) (h : Step c s a s') :
    s'.subProcess = s.subProcess ∧ s'.subProcessCounter = s.subProcessCounter ∧
      notified s'.calls = notified s.calls := by
  cases h with
  | fork | waitpid => exact hk.elim
  | listen hpc hev =>
    refine absurd ?_ hn
    simpa only [AtListen, hpc] using hev
  | raise _ =>
    unfold raiseSignal
    split
    · exact ⟨rfl, rfl, rfl⟩
    split
    · exact ⟨rfl, rfl, rfl⟩
    · exact ⟨rfl, rfl, rfl⟩
  | @byte sig _ _ _ =>
    cases sig with
    | sigterm | sigint =>
      refine ⟨rfl, rfl, ?_⟩
      show notified (s.calls ++ killAll c s) = _
      rw [notified_append, notified_killAll, List.append_nil]
    | sigchld | sigpipe | sigurg | sigalrm => exact ⟨rfl, rfl, rfl⟩
  | setup _ | addsig _ | enter _ | childExit _ _ | deliver _ | epollWait _ _ _ | epollFail _ | leave _ _
  | skip _ | recv _ _ | bytesDone _ | waitpidNone _ _ => exact ⟨rfl, rfl, rfl⟩

/-- From `s` to `s'`, over the steps `past`, the children `sel` were
notified, round and round the list. -/
structure Turned (c : Cfg) (s s' : St) (past : List (St × Act)) (sel : List Nat) : Prop where
  table : s'.subProcess = s.subProcess
  counter : s'.subProcessCounter < c.processNumber
  calls : notified s'.calls = notified s.calls ++ sel
  turn : liveFrom c s' = (liveFrom c s).rotate sel.length
  order : ∀ i < sel.length, sel[i]? = (liveFrom c s)[i % (liveFrom c s).length]?
  count : liveFrom c s ≠ [] → sel.length = listens c past

theorem Turned.refl (hs : s.subProcessCounter < c.processNumber) : Turned c s s [] [] :=
  ⟨rfl, hs, by simp, by simp, by simp, fun _ => rfl⟩

theorem Turned.live (h : Turned c s s' past sel) : liveFrom c s' = [] ↔ liveFrom c s = [] := by
  rw [h.turn, List.rotate_eq_nil_iff]

theorem Turned.quiet {s₁ : St} (h : Turned c s s₁ past sel) (htable : s'.subProcess = s₁.subProcess)
    (hcounter : s'.subProcessCounter = s₁.subProcessCounter) (hcalls : notified s'.calls = notified s₁.calls)
    (hn : liveFrom c s ≠ [] → ¬AtListen c s₁ a) : Turned c s s' (past ++ [(s₁, a)]) sel := by
  refine ⟨htable.trans h.table, hcounter ▸ h.counter, hcalls.trans h.calls, ?_, h.order, fun hlive => ?_⟩
  · rw [← h.turn]
    unfold liveFrom listed
    rw [htable, hcounter]
  · rw [listens_append, if_neg (hn hlive)]
    exact h.count hlive

theorem Turned.select {j : Nat} {rest : List Nat} {s₁ : St} (h : Turned c s s₁ past sel)
    (htable : s'.subProcess = s₁.subProcess) (ha : AtListen c s₁ a) (hsel : Selects c s₁ s' j rest) :
    Turned c s s' (past ++ [(s₁, a)]) (sel ++ [j]) := by
  have hfirst := hsel.first
  rw [h.turn] at hfirst
  have hpos : 0 < (liveFrom c s).length := by
    have := congrArg List.length hfirst
    simp only [List.length_rotate, List.length_cons] at this
    omega
  have hj : (liveFrom c s)[sel.length % (liveFrom c s).length]? = some j := by
    have := List.getElem?_rotate (n := sel.length) hpos
    rw [hfirst, Nat.zero_add] at this
    simpa using this.symm
  refine ⟨htable.trans h.table, hsel.counter, by rw [hsel.calls, h.calls, List.append_assoc], ?_, ?_,
    fun hlive => ?_⟩
  · calc liveFrom c s' = rest ++ [j] := hsel.turn
      _ = (j :: rest).rotate 1 := by simp
      _ = (liveFrom c s).rotate (sel ++ [j]).length := by
        rw [← hfirst, List.rotate_rotate, List.length_append, List.length_singleton]
  · intro i hi
    rw [List.length_append, List.length_singleton] at hi
    by_cases hlast : i = sel.length
    · subst hlast
      rw [hj]
      simp
    · rw [List.getElem?_append_left (by omega)]
      exact h.order i (by omega)
  · rw [listens_append, if_pos ha, List.length_append, List.length_singleton, h.count hlive]

theorem Turned.next {s₁ : St} (h : Turned c s s₁ past sel) (hk : Keeps s₁ a)
    (hstep : step c s₁ a = some s') : ∃ sel, Turned c s s' (past ++ [(s₁, a)]) sel := by
  by_cases ha : AtListen c s₁ a
  · obtain ⟨_, events, -, heq⟩ := ha.handle
    obtain rfl : onListen c s₁ events = s' := Option.some.inj (heq.symm.trans hstep)
    have htable := onListen_subProcess c s₁ events
    by_cases hlive : liveFrom c s = []
    · obtain ⟨hcounter, hcalls⟩ := onListen_none h.counter (h.live.mpr hlive) events
      exact ⟨sel, h.quiet htable hcounter hcalls fun hne => absurd hlive hne⟩
    · obtain ⟨j, rest, hsel⟩ := onListen_select h.counter (mt h.live.mp hlive) events
      exact ⟨sel ++ [j], h.select htable ha hsel⟩
  · obtain ⟨htable, hcounter, hcalls⟩ := step_quiet hk ha (step_sound hstep)
    exact ⟨sel, h.quiet htable hcounter hcalls fun _ => ha⟩

/-- The run lemma: by induction on the steps. -/
theorem Turned.reach {r : Recorded St Act} (hs : s.subProcessCounter < c.processNumber)
    (h : Reach (recorded (step c)) (Now Keeps) ⟨[], s⟩ r) : ∃ sel, Turned c s r.now r.past sel := by
  refine h.history (I := fun s' past => ∃ sel, Turned c s s' past sel) ⟨[], .refl hs⟩ ?_
  intro s₁ past a s' ih hk hstep
  obtain ⟨sel, ih⟩ := ih
  exact ih.next hk hstep

/-- As many events as there are live children go to each of them once. -/
theorem Turned.round (h : Turned c s s' past sel) (hlisten : listens c past = (liveFrom c s).length) :
    sel = liveFrom c s := by
  by_cases hlive : liveFrom c s = []
  · rw [hlive]
    refine List.eq_nil_iff_length_eq_zero.mpr (Nat.eq_zero_of_not_pos fun hpos => ?_)
    have hfirst := h.order 0 hpos
    rw [hlive, List.getElem?_eq_getElem hpos] at hfirst
    cases hfirst
  · have hlen : sel.length = (liveFrom c s).length := (h.count hlive).trans hlisten
    refine List.ext_getElem? fun i => ?_
    by_cases hi : i < sel.length
    · rw [h.order i hi, Nat.mod_eq_of_lt (by omega)]
    · rw [List.getElem?_eq_none (by omega), List.getElem?_eq_none (by omega)]

/-- What the search of one notification does, in state `s`. -/
structure SearchOk (c : Cfg) (s : St) (j : Nat) : Prop where
  /-- The do-while loop ends after at most `_process_number` passes. -/
  ends : ∃ k ≤ c.processNumber, run (cyclicPass c.processNumber (listed s) s.subProcessCounter)
    (.body s.subProcessCounter) (List.replicate k ()) = some (.left j)
  /-- `j` is an index in every pass. -/
  index : ∀ pass, Reach (cyclicPass c.processNumber (listed s) s.subProcessCounter) Any
    (.body s.subProcessCounter) pass → pass.index < c.processNumber
  live : listed s j = true ↔ ∃ k < c.processNumber, listed s k = true
  first : listed s j = true → ∃ d < c.processNumber, j = (s.subProcessCounter + d) % c.processNumber ∧
    ∀ e < d, listed s ((s.subProcessCounter + e) % c.processNumber) = false

theorem searchOk (hs : s.subProcessCounter < c.processNumber) :
    SearchOk c s (cyclicSearch c.processNumber (listed s) s.subProcessCounter) where
  ends := cyclicPass_terminates hs
  index _ h := cyclicPass_index hs h
  live := by
    refine ⟨fun h => ⟨_, cyclicSearch_lt hs, h⟩, fun ⟨k, hk, hl⟩ => ?_⟩
    cases hj : listed s (cyclicSearch c.processNumber (listed s) s.subProcessCounter) with
    | true => rfl
    | false =>
      rw [(cyclicSearch_false_iff hs).mp hj k hk] at hl
      cases hl
  first hl := by
    rcases cyclicSearch_spec (p := listed s) hs with ⟨_, hall⟩ | ⟨d, hd, hj, -, hbefore⟩
    · rw [hall _ (cyclicSearch_lt hs)] at hl
      cases hl
    · exact ⟨d, hd, hj, hbefore⟩

/-- What the event of the listening socket does in state `s`, where the
search found `j`. -/
structure ListenOk (c : Cfg) (s s' : St) (j : Nat) : Prop where
  /-- A live child is notified, and the next search starts after it. -/
  live : listed s j = true → s'.calls = s.calls ++ [.notify j (s.subProcess j).pipeOpen] ∧
    s'.subProcessCounter = (j + 1) % c.processNumber ∧ s'.stop = s.stop
  /-- With no live child `_stop` is set, and the rest of the batch dropped. -/
  none : listed s j = false → s'.calls = s.calls ∧ s'.subProcessCounter = s.subProcessCounter ∧
    s'.stop = true ∧ s'.pc = .events []
  table : s'.subProcess = s.subProcess

theorem onListen_ok (c : Cfg) (s : St) (events : List (Int × Bool)) :
    ListenOk c s (onListen c s events) (cyclicSearch c.processNumber (listed s) s.subProcessCounter) where
  live hl := by
    have hne : (s.subProcess (cyclicSearch c.processNumber (listed s) s.subProcessCounter)).mPid ≠ -1 := by
      simpa [listed] using hl
    simp only [onListen, if_neg hne, and_self]
  none hl := by
    have heq : (s.subProcess (cyclicSearch c.processNumber (listed s) s.subProcessCounter)).mPid = -1 := by
      simpa [listed] using hl
    simp only [onListen, if_pos heq, and_self]
  table := onListen_subProcess c s events

/-- **Round Robin.** For every table of children and every counter below
`_process_number`: the search ends, with an index in every pass, and on a
live child exactly when there is one, the first at or cyclically after the
counter; and the event of the listening socket notifies the child found and
moves the counter past it. In any run from there that takes in no exit, the
children notified are the live ones in cyclic order, over and over, one for
each such event while any is live; so as many events as there are live
children choose each of them exactly once. -/
theorem roundRobin_selects (c : Cfg) (s : St) (hs : s.subProcessCounter < c.processNumber) :
    SearchOk c s (cyclicSearch c.processNumber (listed s) s.subProcessCounter) ∧
    (∀ n, AtListen c s (.handle n) → ∃ s', step c s (.handle n) = some s' ∧
      ListenOk c s s' (cyclicSearch c.processNumber (listed s) s.subProcessCounter)) ∧
    (liveFrom c s).Nodup ∧ (∀ k, k ∈ liveFrom c s ↔ k < c.processNumber ∧ listed s k = true) ∧
    ∀ r, Reach (recorded (step c)) (Now Keeps) ⟨[], s⟩ r →
      ∃ sel, notified r.now.calls = notified s.calls ++ sel ∧
        (liveFrom c s ≠ [] → sel.length = listens c r.past) ∧
        (∀ i < sel.length, sel[i]? = (liveFrom c s)[i % (liveFrom c s).length]?) ∧
        (listens c r.past = (liveFrom c s).length → sel = liveFrom c s) := by
  refine ⟨searchOk hs, fun n ha => ?_, nodup_cyclicFrom _ _ _, fun k => mem_cyclicFrom hs, fun r h => ?_⟩
  · obtain ⟨_, events, -, heq⟩ := ha.handle
    exact ⟨_, heq, onListen_ok c s events⟩
  · obtain ⟨sel, h⟩ := Turned.reach hs h
    exact ⟨sel, h.calls, h.count, h.order, h.round⟩

def poolOfFour : Cfg := ⟨4, 8, 3, 4, by decide⟩

/-- Child 1 has exited, the counter is at child 2, and the listening socket
is reported. -/
def oneGone : St :=
  { init with
    pc := .events [(3, true)]
    subProcess := fun k => if k = 1 then .new else ⟨100 + k, true⟩
    subProcessCounter := 2 }

/-- It is reported four times. -/
def fourReports : List Act :=
  [.handle 0, .epollWait [(3, true)], .handle 0, .epollWait [(3, true)], .handle 0,
   .epollWait [(3, true)], .handle 0]

theorem fourReports_run :
    (runWhere (recorded (step poolOfFour)) (Now Keeps) ⟨[], oneGone⟩ fourReports).isSome := by
  decide

/-- `roundRobin_selects` for the table with child 1 gone: four events notify
the children 2, 3, 0 and 2 again. -/
theorem roundRobin_selects_oneGone :
    SearchOk poolOfFour oneGone (cyclicSearch 4 (listed oneGone) 2) ∧
    (∃ s', step poolOfFour oneGone (.handle 0) = some s' ∧
      ListenOk poolOfFour oneGone s' (cyclicSearch 4 (listed oneGone) 2)) ∧
    (liveFrom poolOfFour oneGone).Nodup ∧
    (∀ k, k ∈ liveFrom poolOfFour oneGone ↔ k < 4 ∧ listed oneGone k = true) ∧
    let r := (runWhere (recorded (step poolOfFour)) (Now Keeps) ⟨[], oneGone⟩ fourReports).get fourReports_run
    (∃ sel, notified r.now.calls = notified oneGone.calls ++ sel ∧
      (liveFrom poolOfFour oneGone ≠ [] → sel.length = listens poolOfFour r.past) ∧
      (∀ i < sel.length, sel[i]? = (liveFrom poolOfFour oneGone)[i % (liveFrom poolOfFour oneGone).length]?) ∧
      (listens poolOfFour r.past = (liveFrom poolOfFour oneGone).length → sel = liveFrom poolOfFour oneGone)) ∧
    liveFrom poolOfFour oneGone = [2, 3, 0] ∧ listens poolOfFour r.past = 4 ∧
      notified r.now.calls = [2, 3, 0, 2] := by
  obtain ⟨hsearch, hlisten, hnodup, hmem, hrun⟩ := roundRobin_selects poolOfFour oneGone (by decide)
  exact ⟨hsearch, hlisten 0 (by decide), hnodup, hmem, hrun _ (reachWhere_get fourReports_run),
    by decide, by decide, by decide⟩

end LinuxServer.ProcPool.Parent
