import Sniper.Lib.Simulation
import Sniper.Threads.Manager

/-! # The barrier server

`BarrierSyncServer`: its calls, and the system they run in. All calls run under the thread
manager's lock. `barrierRelease` gives way at one point, where it calls the hooks of
`HOOK_PERIODIC`; there the model cuts its loop, so that what the hooks do are steps of the
system too. The hooks may call every function here but those a thread calls for itself.
-/
namespace Sniper.Threads.Barrier
open Function

/-- What the barrier reads of a `Core`; that a running core has a thread is asserted there. -/
structure Core (T : Type) where
  state : CoreState
  thread : Option T
  thread_of_running : state = .RUNNING → thread.isSome

/-- The cores, and `ThreadManager::isThreadRunning`. -/
structure Cores (n : Nat) (T : Type) where
  core : Fin n → Core T
  isThreadRunning : T → Bool

/-- `BarrierSyncServer`. A condition variable is the list of the threads that wait on it, in
the order in which signals wake them; `none` is the invalid core or thread. -/
structure Server (n : Nat) (T : Type) where
  m_barrier_interval : SubsecondTime
  m_next_barrier_time : SubsecondTime
  m_local_clock_list : Fin n → SubsecondTime
  m_barrier_acquire_list : Fin n → Bool
  m_core_cond : Fin n → List T
  m_to_release : List (Fin n)
  m_core_group : Fin n → Option (Fin n)
  m_core_thread : Fin n → Option T
  m_global_time : SubsecondTime
  m_fastforward : Bool
  m_disable : Bool

variable {n : Nat} {T : Type} [DecidableEq T]

namespace Server
variable (s : Server n T)

/-- `ConditionVariable::signal`: one thread is woken, or none when nobody waits. -/
def signalCond (core_id : Fin n) : Server n T :=
  { s with m_core_cond := update s.m_core_cond core_id (s.m_core_cond core_id).tail }

/-- `ConditionVariable::wait`. -/
def waitCond (core_id : Fin n) (thread_id : T) : Server n T :=
  { s with m_core_cond :=
      update s.m_core_cond core_id (s.m_core_cond core_id ++ [thread_id]) }

/-- The loop of `doRelease` over a list of the given size; the last core goes first. -/
def releaseLoop : Nat → Int → Server n T → Server n T
  | 0, _, s => s
  | size + 1, n_left, s =>
    if n_left = 0 then s
    else
      match s.m_to_release.getLast? with
      | none => s
      | some core_id =>
        releaseLoop size (n_left - 1)
          (signalCond { s with m_to_release := s.m_to_release.dropLast } core_id)

def doRelease (n_left : Int) : Server n T := releaseLoop s.m_to_release.length n_left s

/-- The loop of `releaseThread`, after which the next release includes the thread. -/
def clearClock (thread_id : T) : Server n T :=
  { s with m_local_clock_list := fun core_id =>
      if s.m_barrier_acquire_list core_id = true ∧ s.m_core_thread core_id = some thread_id
      then 0 else s.m_local_clock_list core_id }

def releaseThread (thread_id : T) : Server n T := (s.clearClock thread_id).doRelease 1

/-- `isCoreRunning` without the siblings. -/
def isCoreRunningAlone (cores : Cores n T) (core_id : Fin n) : Bool :=
  match (cores.core core_id).thread with
  | none => false
  | some thread_id =>
    decide ((cores.core core_id).state = .RUNNING) && cores.isThreadRunning thread_id

def isCoreRunning (cores : Cores n T) (core_id : Fin n) : Bool :=
  isCoreRunningAlone cores core_id ||
    (!s.m_fastforward && (List.finRange n).any fun sibling =>
      decide (s.m_core_group sibling = some core_id) && isCoreRunningAlone cores sibling)

/-- The loop of `isBarrierReached`. -/
def reachedLoop (cores : Cores n T) : List (Fin n) → Bool → Bool
  | [], single_core_barrier_reached => single_core_barrier_reached
  | core_id :: rest, single_core_barrier_reached =>
    if s.m_fastforward then
      if s.m_barrier_acquire_list core_id then reachedLoop cores rest true
      else if s.isCoreRunning cores core_id then false
      else reachedLoop cores rest single_core_barrier_reached
    else if s.m_core_group core_id ≠ none then reachedLoop cores rest single_core_barrier_reached
    else if s.isCoreRunning cores core_id then
      if s.m_local_clock_list core_id < s.m_next_barrier_time then false
      else reachedLoop cores rest true
    else reachedLoop cores rest single_core_barrier_reached

def isBarrierReached (cores : Cores n T) : Bool := s.reachedLoop cores (List.finRange n) false

/-- A round of the loop of `barrierRelease` up to the call of the hooks. -/
def startRound : Server n T := { s with m_global_time := s.m_next_barrier_time }

/-- The later of `next` and the latest local clock. -/
def latestClock (next : SubsecondTime) : SubsecondTime :=
  (List.finRange n).foldl (fun next core_id =>
    if next < s.m_local_clock_list core_id then s.m_local_clock_list core_id else next) next

/-- `barrierRelease` up to the first call of the hooks: in fast-forward mode the barrier
first skips to the latest clock. -/
def startRelease : Except String (Server n T) :=
  if s.m_to_release.length ≠ 0 then
    .error "Reached the barrier while some threads haven't even restarted?"
  else if s.m_fastforward then
    .ok (startRound { s with m_next_barrier_time := s.latestClock s.m_next_barrier_time })
  else .ok s.startRound

/-- The server and the local variables of `barrierRelease`. -/
structure Round (n : Nat) (T : Type) where
  server : Server n T
  core_resumed : Bool
  must_wait : Bool

/-- The core is released in this round. -/
def due (core_id : Fin n) : Bool :=
  decide (s.m_local_clock_list core_id < s.m_next_barrier_time) &&
    s.m_barrier_acquire_list core_id

/-- One core of the loop of `barrierRelease` over the cores. -/
def releaseCore (caller_id : Option T) (r : Round n T) (core_id : Fin n) : Round n T :=
  if r.server.due core_id then
    let s := { r.server with
      m_barrier_acquire_list := update r.server.m_barrier_acquire_list core_id false }
    if s.m_core_thread core_id = caller_id then ⟨s, true, false⟩
    else ⟨{ s with m_to_release := s.m_to_release ++ [core_id] }, true, r.must_wait⟩
  else r

/-- The next barrier is one interval later. -/
def advanceNext : Server n T :=
  { s with m_next_barrier_time := s.m_next_barrier_time + s.m_barrier_interval }

/-- A round of the loop of `barrierRelease` after the hooks, with the barrier enabled. Until
a round resumes a core, `must_wait` is as it was set before the loop. -/
def releaseRound (caller_id : Option T) : Round n T :=
  (List.finRange n).foldl (releaseCore caller_id) ⟨s.advanceNext, false, true⟩

def abortBarrier : Server n T :=
  { s with
    m_barrier_acquire_list := fun _ => false
    m_core_cond := fun core_id =>
      if s.m_barrier_acquire_list core_id then (s.m_core_cond core_id).tail
      else s.m_core_cond core_id }

def setDisable (disable : Bool) : Server n T :=
  let s := { s with m_disable := disable }
  if disable then s.abortBarrier else s

def setGroup (core_id : Fin n) (master_core_id : Option (Fin n)) : Except String (Server n T) :=
  if master_core_id ≠ none ∧ s.m_barrier_acquire_list core_id = true then
    .error "Core is in the barrier, cannot set participate to false"
  else .ok { s with m_core_group := update s.m_core_group core_id master_core_id }

/-- `SubsecondTime::MaxTime()`. -/
def MaxTime : SubsecondTime := 0xffffffffffffffff

def setFastForward (fastforward : Bool) (next_barrier_time : SubsecondTime) : Server n T :=
  let s := { s with m_fastforward := fastforward }
  if next_barrier_time ≠ MaxTime then
    { s with m_next_barrier_time :=
        if s.m_next_barrier_time < next_barrier_time then next_barrier_time
        else s.m_next_barrier_time }
  else s

/-- The core whose entry stands for the caller's. -/
def masterOf (core_id : Fin n) : Fin n :=
  if s.m_fastforward then core_id else (s.m_core_group core_id).getD core_id

/-- What `synchronize` records of its caller. -/
def enter (master_core_id : Fin n) (time : SubsecondTime) (thread_me : T) : Server n T :=
  { s with
    m_local_clock_list := update s.m_local_clock_list master_core_id time
    m_barrier_acquire_list := update s.m_barrier_acquire_list master_core_id true
    m_core_thread := update s.m_core_thread master_core_id (some thread_me) }

end Server

/-! ### The system -/

/-- No call is under way, or the hooks of `HOOK_PERIODIC` run inside a `barrierRelease` called
by `synchronize` for a master core and a thread, or by `signal`. -/
inductive Phase (n : Nat) (T : Type) where
  | idle
  | hooks (caller : Option (Fin n × T))

structure Machine (n : Nat) (T : Type) where
  server : Server n T
  cores : Cores n T
  phase : Phase n T

inductive Call (n : Nat) (T : Type) where
  | synchronize (core_id : Fin n) (time : SubsecondTime)
  | threadExit (thread_id : T)
  | threadStall (thread_id : T)
  | threadMigrate (thread_id : T)
  | setGroup (core_id : Fin n) (master_core_id : Option (Fin n))
  | setFastForward (fastforward : Bool) (next_barrier_time : SubsecondTime)
  | setDisable (disable : Bool)
  | environment (cores : Cores n T)
  | hooksReturn (shuffle : List (Fin n) → List (Fin n))

namespace Machine
variable (m : Machine n T)

def signal : Except String (Machine n T) :=
  if m.server.m_disable then .ok m
  else if m.server.isBarrierReached m.cores then
    m.server.startRelease.map fun s => { m with server := s, phase := .hooks none }
  else .ok m

/-- `synchronize`, up to the hooks when its caller completes the barrier. -/
def synchronize (core_id : Fin n) (time : SubsecondTime) : Except String (Machine n T) :=
  let s := m.server
  if s.m_disable then .ok m
  else
    let core := m.cores.core core_id
    let master_core_id := s.masterOf core_id
    match core.thread with
    | none => .error "the core has no thread"
    | some thread_me =>
      if core.state ≠ .RUNNING ∧ core.state ≠ .INITIALIZING then
        .error "Core is not running or initializing"
      else if s.m_barrier_acquire_list master_core_id = true then
        .error "Core or its sibling is already in the barrier"
      else if time < s.m_next_barrier_time ∧ s.m_fastforward = false then .ok m
      else
        let s := (s.doRelease 1).enter master_core_id time thread_me
        if s.isBarrierReached m.cores then
          s.startRelease.map fun s =>
            { m with server := s, phase := .hooks (some (master_core_id, thread_me)) }
        else .ok { m with server := s.waitCond master_core_id thread_me }

/-- The end of `synchronize` after `barrierRelease`. -/
def leave (s : Server n T) (must_wait : Bool) : Option (Fin n × T) → Server n T
  | some (master_core_id, thread_me) =>
    if must_wait then s.waitCond master_core_id thread_me else s
  | none => s

/-- `barrierRelease` from the return of the hooks on, to its end or to the next call of the
hooks. -/
def hooksReturn (hostCores : Int) (shuffle : List (Fin n) → List (Fin n)) :
    Except String (Machine n T) :=
  match m.phase with
  | .idle => .error "no hooks"
  | .hooks caller =>
    if m.server.m_disable then .ok { m with phase := .idle }
    else
      let r := m.server.releaseRound (caller.map Prod.snd)
      if r.core_resumed then
        let s := { r.server with m_to_release := shuffle r.server.m_to_release }
        let s := s.doRelease (if s.m_fastforward then -1 else hostCores)
        .ok { m with server := leave s r.must_wait caller, phase := .idle }
      else .ok { m with server := r.server.startRound }

def exec (hostCores : Int) : Call n T → Except String (Machine n T)
  | .synchronize core_id time => m.synchronize core_id time
  | .threadExit thread_id | .threadStall thread_id =>
    signal { m with server := m.server.releaseThread thread_id }
  | .threadMigrate thread_id => .ok { m with server := m.server.releaseThread thread_id }
  | .setGroup core_id master_core_id =>
    (m.server.setGroup core_id master_core_id).map fun s => { m with server := s }
  | .setFastForward fastforward next_barrier_time =>
    .ok { m with server := m.server.setFastForward fastforward next_barrier_time }
  | .setDisable disable => .ok { m with server := m.server.setDisable disable }
  | .environment cores => .ok { m with cores := cores }
  | .hooksReturn shuffle => m.hooksReturn hostCores shuffle

/-- The calls that can come: a thread calls for itself only while it is not blocked, and no
thread does while the hooks run. -/
def Allowed : Call n T → Prop
  | .synchronize core_id _ => m.phase = .idle ∧
      ∀ t, (m.cores.core core_id).thread = some t → ∀ c, t ∉ m.server.m_core_cond c
  | .threadExit _ | .threadStall _ => m.phase = .idle
  | .hooksReturn shuffle => ∀ l, (shuffle l).Perm l
  | _ => True

/-- The state after the constructor. -/
structure Init : Prop where
  next : m.server.m_next_barrier_time = m.server.m_barrier_interval
  clocks : ∀ c, m.server.m_local_clock_list c = 0
  acquired : ∀ c, m.server.m_barrier_acquire_list c = false
  cond : ∀ c, m.server.m_core_cond c = []
  released : m.server.m_to_release = []
  group : ∀ c, m.server.m_core_group c = none
  thread : ∀ c, m.server.m_core_thread c = none
  time : m.server.m_global_time = 0
  detailed : m.server.m_fastforward = false
  enabled : m.server.m_disable = false
  idle : m.phase = .idle

def Step (hostCores : Int) (m m' : Machine n T) : Prop :=
  ∃ call, m.Allowed call ∧ m.exec hostCores call = .ok m'

/-- `n` running cores before the first call, with a quantum of 100. -/
def running (n : Nat) : Machine n (Fin n) where
  server :=
    { m_barrier_interval := 100, m_next_barrier_time := 100, m_local_clock_list := fun _ => 0,
      m_barrier_acquire_list := fun _ => false, m_core_cond := fun _ => [], m_to_release := [],
      m_core_group := fun _ => none, m_core_thread := fun _ => none, m_global_time := 0,
      m_fastforward := false, m_disable := false }
  cores := ⟨fun c => ⟨.RUNNING, some c, fun _ => rfl⟩, fun _ => true⟩
  phase := .idle

theorem running_init (n : Nat) : (running n).Init :=
  ⟨rfl, fun _ => rfl, fun _ => rfl, fun _ => rfl, rfl, fun _ => rfl, fun _ => rfl, rfl, rfl, rfl,
    rfl⟩

end Machine
end Sniper.Threads.Barrier
