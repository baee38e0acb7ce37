import Sniper.Lib.Attribution
import Sniper.Lib.Simulation
import Sniper.Threads.Manager

/-! # Statistics of threads

`ThreadStatsManager` with the parts of `ThreadManager`, `Thread` and `SchedulerDynamic` it works
with. A core counts its instructions; a thread is credited with what its core has counted since
its last snapshot. The listeners of the hooks (the scheduler, the barrier and scripts) move
threads and update statistics as they like, also while a thread is being moved; `notify` bounds
how deep their calls nest.
-/
namespace Sniper.Threads.Stats
open Lib.Attribution

/-- `ThreadStatsManager::ThreadStatTypeEnum`; user-defined types are numbered. -/
inductive ThreadStatType where
  | INSTRUCTIONS | ELAPSED_NONIDLE_TIME | WAITING_COST
  | DYNAMIC (type : Nat)
  deriving DecidableEq

/-- `ThreadStats`. The last two fields are not in the source: the positions that `insn_by_core`
is made of, in the log of each core, and the length of the log at the last snapshot. -/
structure ThreadStats (n : Nat) where
  m_core_id : Option (Fin n)
  time_by_core : Fin n → UInt64
  insn_by_core : Fin n → UInt64
  m_elapsed_time : SubsecondTime
  m_unscheduled_time : SubsecondTime
  m_time_last : SubsecondTime
  m_counts : ThreadStatType → UInt64
  m_last : ThreadStatType → UInt64
  credited : Fin n → List Nat
  position : Nat

/-- What a listener of a hook does. -/
inductive Action (n : Nat) where
  | moveThread (thread_id : Nat) (core_id : Option (Fin n)) (time : SubsecondTime)
  | update (thread_id : Option Nat) (time : SubsecondTime)

/-- The threads, the cores and the statistics. The listeners are listed in the order of the calls
of hooks, each with what it does. -/
structure System (n : Nat) where
  num_threads : Nat
  thread_state : Nat → ThreadState
  thread_core : Nat → Option (Fin n)
  core_state : Fin n → CoreState
  core_thread : Fin n → Option Nat
  instructions : Fin n → List (Option Nat)
  nonidle_elapsed_time : Fin n → SubsecondTime
  dynamic : Nat → Fin n → UInt64
  global_time : SubsecondTime
  m_threads_stats : Nat → Option (ThreadStats n)
  m_waiting_time_last : SubsecondTime
  listeners : List (List (Action n))

variable {n : Nat}

/-- The constructor of `ThreadStats`. -/
def ThreadStats.new : ThreadStats n where
  m_core_id := none
  time_by_core _ := 0
  insn_by_core _ := 0
  m_elapsed_time := 0
  m_unscheduled_time := 0
  m_time_last := 0
  m_counts _ := 0
  m_last _ := 0
  credited _ := []
  position := 0

namespace System
variable (s : System n)

def setState (thread_id : Nat) (state : ThreadState) : System n :=
  { s with thread_state := Function.update s.thread_state thread_id state }

def setStatus (thread_id : Nat) (status : CoreState) : System n :=
  s.setState thread_id { s.thread_state thread_id with status := status }

def setCoreState (core_id : Fin n) (state : CoreState) : System n :=
  { s with core_state := Function.update s.core_state core_id state }

/-- The state of the thread's core, if it has one. -/
def setCoreStateOf (thread_id : Nat) (state : CoreState) : System n :=
  match s.thread_core thread_id with
  | some c => s.setCoreState c state
  | none => s

/-- The thread's core, if it has one, no longer has a thread. -/
def leaveCore (thread_id : Nat) : System n :=
  match s.thread_core thread_id with
  | some c => { s with core_thread := Function.update s.core_thread c none }
  | none => s

/-- `Thread::setCore`. -/
def setCore (thread_id : Nat) (core_id : Option (Fin n)) : Except String (System n) :=
  let s := s.leaveCore thread_id
  let s := { s with thread_core := Function.update s.thread_core thread_id core_id }
  match core_id with
  | none => .ok s
  | some c =>
    if s.core_thread c ≠ none then .error "Cannot move thread to core as it is already running"
    else .ok { s with core_thread := Function.update s.core_thread c (some thread_id) }

/-! ### Statistics -/

/-- `PerformanceModel::getInstructionCount`. -/
def getInstructionCount (core_id : Fin n) : UInt64 :=
  UInt64.ofNat (s.instructions core_id).length

/-- `metricCallback`, and the callbacks of user-defined types. -/
def metricCallback (type : ThreadStatType) (core_id : Fin n) : UInt64 :=
  match type with
  | .INSTRUCTIONS => s.getInstructionCount core_id
  | .ELAPSED_NONIDLE_TIME => s.nonidle_elapsed_time core_id
  | .WAITING_COST => 0
  | .DYNAMIC type => s.dynamic type core_id

def isThreadRunning (thread_id : Nat) : Bool :=
  decide ((s.thread_state thread_id).status = .RUNNING)

/-- The thread is not running, and not for want of a core. -/
def isWaiting (thread_id : Nat) : Bool :=
  !s.isThreadRunning thread_id &&
    decide ((s.thread_state thread_id).stalled_reason ≠ .STALL_UNSCHEDULED)

/-- The cost is added for the threads that wait. -/
def addWaitingCost (cost : UInt64) : System n :=
  { s with
    m_threads_stats := fun thread_id =>
      if thread_id < s.num_threads ∧ s.isWaiting thread_id then
        (s.m_threads_stats thread_id).map fun st =>
          { st with
            m_counts := Function.update st.m_counts .WAITING_COST
              (st.m_counts .WAITING_COST + cost) }
      else s.m_threads_stats thread_id }

def calculateWaitingCosts (time : SubsecondTime) : System n :=
  if s.m_waiting_time_last < time then
    let time_delta := time - s.m_waiting_time_last
    let threads := List.range s.num_threads
    let n_running := UInt32.ofNat (threads.countP s.isThreadRunning)
    let n_stalled := UInt32.ofNat (threads.countP s.isWaiting)
    let n_total := UInt32.ofNat n
    let s :=
      if n_stalled ≠ 0 ∧ n_running ≤ n_total then
        s.addWaitingCost ((n_total - n_running).toUInt64 * time_delta / n_stalled.toUInt64)
      else s
    { s with m_waiting_time_last := time }
  else s

end System

namespace ThreadStats

/-- The progress of a core since the last snapshot. -/
def increment (st : ThreadStats n) (s : System n) (c : Fin n) : ThreadStats n :=
  { st with
    time_by_core := Function.update st.time_by_core c
      (st.time_by_core c + (s.nonidle_elapsed_time c - st.m_last .ELAPSED_NONIDLE_TIME))
    insn_by_core := Function.update st.insn_by_core c
      (st.insn_by_core c + (s.getInstructionCount c - st.m_last .INSTRUCTIONS))
    m_counts := fun type => st.m_counts type + (s.metricCallback type c - st.m_last type)
    credited := Function.update st.credited c
      (st.credited c ++ List.range' st.position ((s.instructions c).length - st.position)) }

/-- The snapshot of the thread's core. -/
def snapshot (st : ThreadStats n) (s : System n) : Option (Fin n) → ThreadStats n
  | some c =>
    { st with
      m_core_id := some c
      m_last := fun type => s.metricCallback type c
      position := (s.instructions c).length }
  | none => { st with m_core_id := none }

/-- The progress of the core that the last snapshot was taken of, if it was taken of one. -/
def progress (st : ThreadStats n) (s : System n) (time_delta : SubsecondTime) : ThreadStats n :=
  match st.m_core_id with
  | none => { st with m_unscheduled_time := st.m_unscheduled_time + time_delta }
  | some c => st.increment s c

/-- `ThreadStats::update`. -/
def update (st : ThreadStats n) (s : System n) (thread_id : Nat) (time : SubsecondTime)
    (init : Bool) : ThreadStats n :=
  let status := (s.thread_state thread_id).status
  if status = .IDLE ∨ status = .INITIALIZING then st
  else
    let time_delta := if init ∨ time < st.m_time_last then 0 else time - st.m_time_last
    let st := { st with m_elapsed_time := st.m_elapsed_time + time_delta }
    let st := (st.progress s time_delta).snapshot s (s.thread_core thread_id)
    { st with m_time_last := if st.m_time_last < time then time else st.m_time_last }

end ThreadStats

namespace System
variable (s : System n)

/-- `m_threads_stats[thread_id]->update`. -/
def updateThread (thread_id : Nat) (time : SubsecondTime) (init : Bool) :
    Except String (System n) :=
  match s.m_threads_stats thread_id with
  | none => .error "null pointer"
  | some st => .ok { s with
      m_threads_stats :=
        Function.update s.m_threads_stats thread_id (some (st.update s thread_id time init)) }

/-- All threads that have statistics. -/
def updateAll (time : SubsecondTime) : System n :=
  { s with
    m_threads_stats := fun thread_id =>
      if thread_id < s.num_threads then
        (s.m_threads_stats thread_id).map fun st => st.update s thread_id time false
      else s.m_threads_stats thread_id }

/-- `ThreadStatsManager::update`; without a thread it updates all of them. -/
def update (thread_id : Option Nat) (time : SubsecondTime) : Except String (System n) :=
  let time := if time = 0xffffffffffffffff then s.global_time else time
  let s := s.calculateWaitingCosts time
  match thread_id with
  | none => .ok (s.updateAll time)
  | some thread_id => s.updateThread thread_id time false

/-- `insn_by_core` of the thread. -/
def insn_by_core (thread_id : Nat) (core_id : Fin n) : UInt64 :=
  match s.m_threads_stats thread_id with
  | none => 0
  | some st => st.insn_by_core core_id

/-- The instructions of the core that `insn_by_core` of the thread is made of. -/
def credited (thread_id : Nat) (core_id : Fin n) : List Nat :=
  match s.m_threads_stats thread_id with
  | none => []
  | some st => st.credited core_id

end System

/-! ### Threads -/

section Hooks
variable (again : System n → Except String (System n))

def resumeThread (s : System n) (thread_id : Nat) (time : SubsecondTime) :
    Except String (System n) :=
  if s.num_threads ≤ thread_id then .error "Invalid thread_id"
  else
    again (s.setStatus thread_id .RUNNING) >>= fun s =>
    (s.calculateWaitingCosts time).updateThread thread_id time false >>= again

/-- The threads are woken up one after the other. -/
def resumeThreads (time : SubsecondTime) : List Nat → System n → Except String (System n)
  | [], s => .ok s
  | thread_id :: rest, s => resumeThread again s thread_id time >>= resumeThreads time rest

/-- A thread without a core that is stalled for want of one is woken up. -/
def wakeUnscheduled (s : System n) (thread_id : Nat) (time : SubsecondTime) :
    Except String (System n) :=
  if s.thread_core thread_id = none ∧
      s.thread_state thread_id = ⟨.STALLED, .STALL_UNSCHEDULED⟩ then
    resumeThread again s thread_id time
  else .ok s

/-- `ThreadManager::moveThread`. -/
def moveThread (s : System n) (thread_id : Nat) (core_id : Option (Fin n))
    (time : SubsecondTime) : Except String (System n) :=
  if s.num_threads ≤ thread_id then .error "Invalid thread_id"
  else
    let s := s.setCoreStateOf thread_id .IDLE
    match core_id with
    | none => s.setCore thread_id none >>= again
    | some c =>
      wakeUnscheduled again s thread_id time >>= fun s =>
      s.setCore thread_id (some c) >>= fun s =>
      again (if (s.thread_state thread_id).status ≠ .STALLED then s.setCoreState c .RUNNING else s)

/-- `SchedulerDynamic::moveThread`. -/
def schedulerMoveThread (s : System n) (thread_id : Nat) (core_id : Option (Fin n))
    (time : SubsecondTime) : Except String (System n) :=
  moveThread again s thread_id core_id time >>= fun s => s.update (some thread_id) time

/-- What the listeners of a hook do. -/
def perform : List (Action n) → System n → Except String (System n)
  | [], s => .ok s
  | .moveThread thread_id core_id time :: rest, s =>
    schedulerMoveThread again s thread_id core_id time >>= perform rest
  | .update thread_id time :: rest, s => s.update thread_id time >>= perform rest

end Hooks

/-- The next call of a hook, with further ones nested to a given depth. -/
def notify : Nat → System n → Except String (System n)
  | 0, _ => .error "unfinished"
  | depth + 1, s =>
    match s.listeners with
    | [] => .ok s
    | actions :: rest => perform (notify depth) actions { s with listeners := rest }

section Calls
variable (again : System n → Except String (System n))

/-- `createThread_unlocked` with the hook of the statistics; the core is the scheduler's choice. -/
def createThread (s : System n) (core_id : Option (Fin n)) : Except String (System n) :=
  let thread_id := s.num_threads
  if 4096 ≤ thread_id then .error "Too many application threads, increase MAX_THREADS"
  else
    let s := { s with num_threads := s.num_threads + 1 }
    let s := s.setState thread_id ⟨.INITIALIZING, (s.thread_state thread_id).stalled_reason⟩
    (match core_id with
      | none => .ok s
      | some c => s.setCore thread_id (some c) >>= fun s => .ok (s.setCoreState c .INITIALIZING))
      >>= fun s => again { s with
        m_threads_stats := Function.update s.m_threads_stats thread_id (some .new) }

def onThreadStart (s : System n) (thread_id : Nat) (time : SubsecondTime) :
    Except String (System n) :=
  if s.num_threads ≤ thread_id then .error "Invalid thread_id"
  else
    again (s.setStatus thread_id .RUNNING) >>= fun s =>
    s.updateThread thread_id time true >>= fun s =>
    again s >>= fun s =>
    match s.thread_core thread_id with
    | some c => again ((s.setCoreState c .RUNNING).setStatus thread_id .RUNNING)
    | none => .ok (s.setState thread_id ⟨.STALLED, .STALL_UNSCHEDULED⟩)

/-- `stallThread_async`. -/
def stallThread (s : System n) (thread_id : Nat) (reason : StallType) (time : SubsecondTime) :
    Except String (System n) :=
  if s.num_threads ≤ thread_id then .error "Invalid thread_id"
  else
    again (s.setState thread_id ⟨.STALLED, reason⟩) >>= fun s =>
    (s.calculateWaitingCosts time).updateThread thread_id time false >>= again

/-- `onThreadExit`; `woken` are the threads that wait for it. -/
def onThreadExit (s : System n) (thread_id : Nat) (woken : List Nat) (time : SubsecondTime) :
    Except String (System n) :=
  if s.thread_core thread_id = none then .error "Thread ended while not running on a core?"
  else if (s.thread_state thread_id).status ≠ .RUNNING then .error "status == Core::RUNNING"
  else
    resumeThreads again time woken (s.setStatus thread_id .IDLE) >>= fun s =>
    (s.setCoreStateOf thread_id .IDLE).setCore thread_id none >>= fun s =>
    again s >>= fun s =>
    (s.calculateWaitingCosts time).updateThread thread_id time false >>= again

end Calls

/-- What happens between the instructions, and their execution: a core executes some for the
thread scheduled on it, and its other metrics change with them. -/
inductive Call (n : Nat) where
  | createThread (core_id : Option (Fin n))
  | onThreadStart (thread_id : Nat) (time : SubsecondTime)
  | stallThread (thread_id : Nat) (reason : StallType) (time : SubsecondTime)
  | resumeThread (thread_id : Nat) (time : SubsecondTime)
  | onThreadExit (thread_id : Nat) (woken : List Nat) (time : SubsecondTime)
  | moveThread (thread_id : Nat) (core_id : Option (Fin n)) (time : SubsecondTime)
  | update (thread_id : Option Nat) (time : SubsecondTime)
  | execute (core_id : Fin n) (count : Nat) (nonidle_elapsed_time : SubsecondTime)
      (dynamic : Nat → UInt64)
  | advance (global_time : SubsecondTime)

namespace System

/-- The core makes progress. -/
def execute (s : System n) (core_id : Fin n) (count : Nat) (nonidle_elapsed_time : SubsecondTime)
    (dynamic : Nat → UInt64) : System n :=
  { s with
    instructions := Function.update s.instructions core_id
      (s.instructions core_id ++ List.replicate count (s.core_thread core_id))
    nonidle_elapsed_time := Function.update s.nonidle_elapsed_time core_id nonidle_elapsed_time
    dynamic := fun type => Function.update (s.dynamic type) core_id (dynamic type) }

end System

def exec (again : System n → Except String (System n)) (s : System n) :
    Call n → Except String (System n)
  | .createThread core_id => createThread again s core_id
  | .onThreadStart thread_id time => onThreadStart again s thread_id time
  | .stallThread thread_id reason time => stallThread again s thread_id reason time
  | .resumeThread thread_id time => resumeThread again s thread_id time
  | .onThreadExit thread_id woken time => onThreadExit again s thread_id woken time
  | .moveThread thread_id core_id time => schedulerMoveThread again s thread_id core_id time
  | .update thread_id time => s.update thread_id time
  | .execute core_id count nonidle_elapsed_time dynamic =>
    .ok (s.execute core_id count nonidle_elapsed_time dynamic)
  | .advance global_time => .ok { s with global_time := global_time }

/-- The state after the constructors. -/
structure Init (s : System n) : Prop where
  threads : s.num_threads = 0
  placed : ∀ t, s.thread_core t = none
  empty : ∀ c, s.core_thread c = none
  counted : ∀ c, s.instructions c = []
  stats : ∀ t, s.m_threads_stats t = none

/-- The call stalls, resumes and starts no thread that has exited. -/
def Spares (s : System n) : Call n → Prop
  | .onThreadStart thread_id _ => (s.thread_state thread_id).status ≠ .IDLE
  | .stallThread thread_id _ _ => (s.thread_state thread_id).status ≠ .IDLE
  | .resumeThread thread_id _ => (s.thread_state thread_id).status ≠ .IDLE
  | .onThreadExit thread_id woken _ =>
    ∀ t ∈ woken, t ≠ thread_id ∧ (s.thread_state t).status ≠ .IDLE
  | _ => True

instance (s : System n) (call : Call n) : Decidable (Spares s call) :=
  match call with
  | .onThreadStart thread_id _ =>
    inferInstanceAs (Decidable ((s.thread_state thread_id).status ≠ .IDLE))
  | .stallThread thread_id _ _ =>
    inferInstanceAs (Decidable ((s.thread_state thread_id).status ≠ .IDLE))
  | .resumeThread thread_id _ =>
    inferInstanceAs (Decidable ((s.thread_state thread_id).status ≠ .IDLE))
  | .onThreadExit thread_id woken _ =>
    inferInstanceAs
      (Decidable (∀ t ∈ woken, t ≠ thread_id ∧ (s.thread_state t).status ≠ .IDLE))
  | .createThread _ | .moveThread .. | .update .. | .execute .. | .advance _ => .isTrue trivial

/-- A call, with whatever the listeners of its hooks do. -/
def Step (s s' : System n) : Prop :=
  ∃ depth listeners call, exec (notify depth) { s with listeners := listeners } call = .ok s'

/-- A step that spares the exited threads. -/
def SparingStep (s s' : System n) : Prop :=
  ∃ depth listeners call, Spares s call ∧
    exec (notify depth) { s with listeners := listeners } call = .ok s'

/-- Instructions are credited to the thread that ran them. -/
structure Credited (s : System n) : Prop where
  total : ∀ c, ((List.range s.num_threads).map fun t => (s.insn_by_core t c).toNat).sum ≤
    (s.instructions c).length
  counted : ∀ c, (s.instructions c).length < 2 ^ 64 →
    ((List.range s.num_threads).map fun t => (s.insn_by_core t c).toNat).sum ≤
      (s.getInstructionCount c).toNat
  made_of : ∀ t c, s.insn_by_core t c = UInt64.ofNat (s.credited t c).length
  own : ∀ t c, Claimed (s.instructions c) t (s.credited t c)

end Sniper.Threads.Stats
