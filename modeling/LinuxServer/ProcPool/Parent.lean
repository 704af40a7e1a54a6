/-
The process pool's parent (`SrvProcessPool::run`, `setup_sig_pipe` and
`run_parent`, epoll_half_sync_reactive_proc_pool_server.hpp), from the fork
loop on, with the children's deaths and the signals that report them.

Child `k` is the one forked in pass `k` of the loop; `status k` and `pid k`
are the kernel's, `subProcess k` is the entry of the parent's own table.
`waitpid` reaps one dead child a call. A signal whose handler is installed
is pending until the handler runs, whenever that is, and writes its byte to
the signal pipe.
-/
import Mathlib.Logic.Function.Basic
import LinuxServer.Kernel
import LinuxServer.Lib.CyclicSearch
import LinuxServer.Lib.Fifo
import LinuxServer.Lib.Lts

namespace LinuxServer.ProcPool.Parent

open Lts

/-- The pool: the number of children, the signal pipe's capacity in bytes,
and the two descriptors the parent's epoll set holds. -/
structure Cfg where
  processNumber : Nat
  sigPipeCap : Nat
  listenfd : Int
  sigPipefd : Int
  pos : 0 < processNumber

/-- The signals `setup_sig_pipe` installs `sig_handler` for, in order. -/
def handled : List Signal := [.sigchld, .sigterm, .sigint]

/-- `Process`, with whether the parent's end `m_pipefd[0]` is open. -/
structure Process where
  mPid : Int
  pipeOpen : Bool
  deriving DecidableEq, Repr

/-- `Process::Process()`. -/
def Process.new : Process := ⟨-1, false⟩

inductive Status
  | unborn
  | alive
  | zombie
  | reaped
  deriving DecidableEq, Repr

/-- Forked and not waited for, so its pid is taken. -/
def Status.unreaped : Status → Bool
  | .alive | .zombie => true
  | .unborn | .reaped => false

/-- How the parent stopped: its loop found `_stop` set or `epoll_wait`
failed, or a signal without a handler killed it. -/
inductive Exit
  | stopped
  | epollFailed
  | killed
  deriving DecidableEq, Repr

/-- Where the parent is. `events` are those of the batch still to be
handled (`[]` at the top of the loop), `bytes` the signal bytes of the event
being handled still to be looked at. -/
inductive Pc
  | forking (i : Nat)
  | setup (handlers : List Signal)
  | events (events : List (Int × Bool))
  | sigBytes (bytes : List Signal) (events : List (Int × Bool))
  | reaping (bytes : List Signal) (events : List (Int × Bool))
  | left (exit : Exit)
  deriving DecidableEq, Repr

/-- A call on behalf of a child, with whether it was right: the pipe end
open, the pid that of a child not waited for. -/
inductive Call
  | notify (k : Nat) (isOpen : Bool)
  | kill (pid : Int) (unreaped : Bool)
  deriving DecidableEq, Repr

structure St where
  pc : Pc
  stop : Bool
  subProcessCounter : Nat
  subProcess : Nat → Process
  status : Nat → Status
  pid : Nat → Int
  installed : Signal → Bool
  pending : Signal → Bool
  sigPipe : List Signal
  /-- how often `m_pipefd[0]` of each child was closed -/
  endCloses : Nat → Nat
  calls : List Call

def init : St where
  pc := .forking 0
  stop := false
  subProcessCounter := 0
  subProcess _ := .new
  status _ := .unborn
  pid _ := -1
  installed _ := false
  pending _ := false
  sigPipe := []
  endCloses _ := 0
  calls := []

/-- `pid` is that of a child not waited for. -/
def ownPid (c : Cfg) (s : St) (pid : Int) : Bool :=
  (List.range c.processNumber).any fun k => (s.status k).unreaped && s.pid k == pid

/-- `_sub_process[k].m_pid != -1`. -/
def listed (s : St) (k : Nat) : Bool := (s.subProcess k).mPid != -1

/-- Pass `i` of the fork loop in the parent, where `fork` returned `pid`. -/
def forkChild (s : St) (i : Nat) (pid : Int) : St :=
  { s with
    pc := .forking (i + 1)
    subProcess := Function.update s.subProcess i ⟨pid, true⟩
    status := Function.update s.status i .alive
    pid := Function.update s.pid i pid }

/-- A child exits or is killed; without a handler its SIGCHLD is discarded. -/
def childExit (s : St) (k : Nat) : St :=
  { s with
    status := Function.update s.status k .zombie
    pending := if s.installed .sigchld then Function.update s.pending .sigchld true else s.pending }

/-- A signal reaches the parent. Without a handler SIGCHLD is discarded and
the others kill it. -/
def raiseSignal (s : St) (sig : Signal) : St :=
  if s.installed sig then { s with pending := Function.update s.pending sig true }
  else if sig = .sigchld then s
  else { s with pc := .left .killed }

/-- `sig_handler`. -/
def sigHandler (c : Cfg) (s : St) (sig : Signal) : St :=
  { s with
    pending := Function.update s.pending sig false
    sigPipe := Fifo.trySend c.sigPipeCap sig s.sigPipe }

/-- A connection is waiting: notify the next live child, Round Robin. -/
def onListen (c : Cfg) (s : St) (events : List (Int × Bool)) : St :=
  let j := cyclicSearch c.processNumber (listed s) s.subProcessCounter
  if (s.subProcess j).mPid = -1 then { s with stop := true, pc := .events [] }
  else
    { s with
      subProcessCounter := (j + 1) % c.processNumber
      calls := s.calls ++ [.notify j (s.subProcess j).pipeOpen]
      pc := .events events }

/-- The `kill` loop on SIGTERM and SIGINT. -/
def killAll (c : Cfg) (s : St) : List Call :=
  ((List.range c.processNumber).filter (listed s)).map fun k =>
    .kill (s.subProcess k).mPid (ownPid c s (s.subProcess k).mPid)

/-- `waitpid` returned child `k`: the entries with its pid are closed and
set to -1. -/
def reapChild (c : Cfg) (s : St) (k : Nat) : St :=
  let hit := fun i => i < c.processNumber ∧ (s.subProcess i).mPid = s.pid k
  { s with
    status := Function.update s.status k .reaped
    subProcess := fun i => if hit i then .new else s.subProcess i
    endCloses := fun i => if hit i then s.endCloses i + 1 else s.endCloses i }

/-- `_stop = true`, and back to false for any child still listed. -/
def updateStop (c : Cfg) (s : St) : St :=
  { s with stop := (List.range c.processNumber).all fun k => !listed s k }

inductive Act
  /-- `fork` in the parent returns `pid` -/
  | fork (pid : Int)
  /-- the fork loop is over -/
  | setup
  /-- the next `addsig` of `setup_sig_pipe` -/
  | addsig
  /-- the parent enters its loop -/
  | enter
  | childExit (k : Nat)
  /-- a handled signal is sent to the parent from outside -/
  | raise (sig : Signal)
  /-- the handler of a pending signal runs -/
  | deliver (sig : Signal)
  /-- `epoll_wait` reports `events`, none when a signal interrupted it -/
  | epollWait (events : List (Int × Bool))
  | epollFail
  /-- the next event is handled; `n` bytes are read when it is the signal pipe's -/
  | handle (n : Nat)
  | nextByte
  /-- `waitpid` returns child `k`, or nothing -/
  | waitpid (k : Nat)
  | waitpidNone
  | leave
  deriving DecidableEq, Repr

/-- `epoll_wait` reports registered descriptors, each at most once. -/
def Reportable (c : Cfg) (events : List (Int × Bool)) : Prop :=
  (events.map (·.1)).Nodup ∧ ∀ e ∈ events, e.1 = c.listenfd ∨ e.1 = c.sigPipefd

instance (c : Cfg) (events : List (Int × Bool)) : Decidable (Reportable c events) :=
  inferInstanceAs (Decidable (_ ∧ _))

/-- The event `ev`, with `events` after it. `recv` returns between one byte
and all of at most 1024, or fails on an empty pipe. -/
def handleEvent (c : Cfg) (s : St) (ev : Int × Bool) (events : List (Int × Bool)) (n : Nat) : Option St :=
  if ev.1 = c.listenfd then some (onListen c s events)
  else if ev.1 = c.sigPipefd ∧ ev.2 = true then
    if n = 0 then if s.sigPipe = [] then some { s with pc := .events events } else none
    else if n ≤ 1024 ∧ n ≤ s.sigPipe.length then
      some { s with pc := .sigBytes (s.sigPipe.take n) events, sigPipe := s.sigPipe.drop n }
    else none
  else some { s with pc := .events events }

/-- The signal byte `sig`, with `bytes` after it. -/
def handleByte (c : Cfg) (s : St) (sig : Signal) (bytes : List Signal) (events : List (Int × Bool)) : St :=
  match sig with
  | .sigchld => { s with pc := .reaping bytes events }
  | .sigterm | .sigint => { s with pc := .sigBytes bytes events, calls := s.calls ++ killAll c s }
  | .sigpipe | .sigurg | .sigalrm => { s with pc := .sigBytes bytes events }

def step (c : Cfg) (s : St) (a : Act) : Option St :=
  match a, s.pc with
  | .fork pid, .forking i =>
    if i < c.processNumber ∧ 0 < pid ∧ ownPid c s pid = false then some (forkChild s i pid) else none
  | .setup, .forking i =>
    if i = c.processNumber then some { s with pc := .setup handled } else none
  | .addsig, .setup (sig :: handlers) =>
    some { s with pc := .setup handlers, installed := Function.update s.installed sig true }
  | .enter, .setup [] => some { s with pc := .events [] }
  | .childExit k, _ =>
    if k < c.processNumber ∧ s.status k = .alive then some (childExit s k) else none
  | .raise sig, _ => if sig ∈ handled then some (raiseSignal s sig) else none
  | .deliver sig, _ => if s.pending sig then some (sigHandler c s sig) else none
  | .epollWait events, .events [] =>
    if s.stop = false ∧ Reportable c events then some { s with pc := .events events } else none
  | .epollFail, .events [] => if s.stop then none else some { s with pc := .left .epollFailed }
  | .leave, .events [] => if s.stop then some { s with pc := .left .stopped } else none
  | .handle n, .events (ev :: events) => handleEvent c s ev events n
  | .nextByte, .sigBytes [] events => some { s with pc := .events events }
  | .nextByte, .sigBytes (sig :: bytes) events => some (handleByte c s sig bytes events)
  | .waitpid k, .reaping _ _ =>
    if k < c.processNumber ∧ s.status k = .zombie then some (reapChild c s k) else none
  | .waitpidNone, .reaping bytes events =>
    if ∀ k < c.processNumber, s.status k ≠ .zombie then
      some { updateStop c s with pc := .sigBytes bytes events }
    else none
  | _, _ => none

/-! ## What a step can do -/

/-- The steps, each with all it requires and changes (`step_sound`). -/
inductive Step (c : Cfg) (s : St) : Act → St → Prop
  | fork {i pid} : s.pc = .forking i → i < c.processNumber → 0 < pid → ownPid c s pid = false →
      Step c s (.fork pid) (forkChild s i pid)
  | setup : s.pc = .forking c.processNumber → Step c s .setup { s with pc := .setup handled }
  | addsig {sig handlers} : s.pc = .setup (sig :: handlers) → Step c s .addsig
      { s with pc := .setup handlers, installed := Function.update s.installed sig true }
  | enter : s.pc = .setup [] → Step c s .enter { s with pc := .events [] }
  | childExit {k} : k < c.processNumber → s.status k = .alive → Step c s (.childExit k) (childExit s k)
  | raise {sig} : sig ∈ handled → Step c s (.raise sig) (raiseSignal s sig)
  | deliver {sig} : s.pending sig = true → Step c s (.deliver sig) (sigHandler c s sig)
  | epollWait {events} : s.pc = .events [] → s.stop = false → Reportable c events →
      Step c s (.epollWait events) { s with pc := .events events }
  | epollFail : s.pc = .events [] → Step c s .epollFail { s with pc := .left .epollFailed }
  | leave : s.pc = .events [] → s.stop = true → Step c s .leave { s with pc := .left .stopped }
  | listen {ev events n} : s.pc = .events (ev :: events) → ev.1 = c.listenfd →
      Step c s (.handle n) (onListen c s events)
  | skip {ev events n} : s.pc = .events (ev :: events) → Step c s (.handle n) { s with pc := .events events }
  | recv {ev events n} : s.pc = .events (ev :: events) → n ≤ s.sigPipe.length → Step c s (.handle n)
      { s with pc := .sigBytes (s.sigPipe.take n) events, sigPipe := s.sigPipe.drop n }
  | bytesDone {events} : s.pc = .sigBytes [] events → Step c s .nextByte { s with pc := .events events }
  | byte {sig bytes events} : s.pc = .sigBytes (sig :: bytes) events →
      Step c s .nextByte (handleByte c s sig bytes events)
  | waitpid {k bytes events} : s.pc = .reaping bytes events → k < c.processNumber → s.status k = .zombie →
      Step c s (.waitpid k) (reapChild c s k)
  | waitpidNone {bytes events} : s.pc = .reaping bytes events →
      (∀ k < c.processNumber, s.status k ≠ .zombie) →
      Step c s .waitpidNone { updateStop c s with pc := .sigBytes bytes events }

theorem handleEvent_sound {c : Cfg} {s s' : St} {ev : Int × Bool} {events : List (Int × Bool)} {n : Nat}
    (hpc : s.pc = .events (ev :: events)) (h : handleEvent c s ev events n = some s') :
    Step c s (.handle n) s' := by
  unfold handleEvent at h
  split at h
  · next hl => cases h; exact .listen hpc hl
  split at h
  · split at h
    · split at h
      · cases h; exact .skip hpc
      · cases h
    · split at h
      · next hn => cases h; exact .recv hpc hn.2
      · cases h
  · cases h; exact .skip hpc

theorem step_sound {c : Cfg} {s s' : St} {a : Act} (h : step c s a = some s') : Step c s a s' := by
  unfold step at h
  split at h
  · next hpc =>
    split at h
    · next hg => cases h; exact .fork hpc hg.1 hg.2.1 hg.2.2
    · cases h
  · next hpc =>
    split at h
    · next hg => cases h; exact .setup (hg ▸ hpc)
    · cases h
  · next hpc => cases h; exact .addsig hpc
  · next hpc => cases h; exact .enter hpc
  · split at h
    · next hg => cases h; exact .childExit hg.1 hg.2
    · cases h
  · split at h
    · next hg => cases h; exact .raise hg
    · cases h
  · split at h
    · next hg => cases h; exact .deliver hg
    · cases h
  · next hpc =>
    split at h
    · next hg => cases h; exact .epollWait hpc hg.1 hg.2
    · cases h
  · next hpc =>
    split at h
    · cases h
    · cases h; exact .epollFail hpc
  · next hpc =>
    split at h
    · next hg => cases h; exact .leave hpc hg
    · cases h
  · next hpc => exact handleEvent_sound hpc h
  · next hpc => cases h; exact .bytesDone hpc
  · next hpc => cases h; exact .byte hpc
  · next hpc =>
    split at h
    · next hg => cases h; exact .waitpid hpc hg.1 hg.2
    · cases h
  · next hpc =>
    split at h
    · next hg => cases h; exact .waitpidNone hpc hg
    · cases h
  · cases h

end LinuxServer.ProcPool.Parent
