import Sniper.Lib.Simulation
import Sniper.Threads.Manager

/-! # The pinned scheduler

`SchedulerPinnedBase` with the parts of `SchedulerDynamic`, `ThreadManager` and `Thread` it
works through. Rescheduling moves threads, moving a thread calls hooks, and the hooks come
back to the scheduler: the thread's wake-up is reported to it, and scripts may set
affinities. A function that calls hooks takes as `again` what they call; `reenter` closes
the loop, with a bound on its depth.
-/
namespace Sniper.Threads.Pinned
open Function

/-- `SchedulerPinnedBase::ThreadInfo`. -/
structure ThreadInfo (n : Nat) where
  m_has_affinity : Bool
  m_explicit_affinity : Bool
  m_core_affinity : Fin n → Bool
  m_core_running : Option (Fin n)
  m_last_scheduled_in : SubsecondTime
  m_last_scheduled_out : SubsecondTime

/-- A call by which a hook enters the scheduler again. -/
inductive Reentry (n : Nat) where
  | threadResume (thread_id : Nat) (time : SubsecondTime)
  | threadSetAffinity (thread_id : Nat) (mask : Option (Fin n → Bool)) (time : SubsecondTime)

/-- The scheduler, the threads and the cores. Entries of a vector that has not grown so far
are as a new thread's. The scripts called by the hooks are listed in the order of the calls,
each with the affinities it sets. -/
structure System (n : Nat) where
  m_quantum : SubsecondTime
  m_last_periodic : SubsecondTime
  m_thread_info : Nat → ThreadInfo n
  m_core_thread_running : Fin n → Option Nat
  m_quantum_left : Fin n → SubsecondTime
  m_threads_runnable : Nat → Bool
  m_threads_runnable_size : Nat
  num_threads : Nat
  thread_state : Nat → ThreadState
  thread_core : Nat → Option (Fin n)
  core_state : Fin n → CoreState
  core_thread : Fin n → Option Nat
  scripts : List (List (Nat × Option (Fin n → Bool) × SubsecondTime))

variable {n : Nat}

def getPS (time : SubsecondTime) : UInt64 := time / 1000

namespace System
variable (s : System n)

/-! ### Field updates -/

def setInfo (thread_id : Nat) (info : ThreadInfo n) : System n :=
  { s with m_thread_info := update s.m_thread_info thread_id info }

def setCoreRunning (thread_id : Nat) (core_id : Option (Fin n)) : System n :=
  s.setInfo thread_id { s.m_thread_info thread_id with m_core_running := core_id }

def setLastScheduledIn (thread_id : Nat) (time : SubsecondTime) : System n :=
  s.setInfo thread_id { s.m_thread_info thread_id with m_last_scheduled_in := time }

def setLastScheduledOut (thread_id : Nat) (time : SubsecondTime) : System n :=
  s.setInfo thread_id { s.m_thread_info thread_id with m_last_scheduled_out := time }

def setThreadRunning (core_id : Fin n) (thread_id : Option Nat) : System n :=
  { s with m_core_thread_running := update s.m_core_thread_running core_id thread_id }

def setQuantumLeft (core_id : Fin n) (left : SubsecondTime) : System n :=
  { s with m_quantum_left := update s.m_quantum_left core_id left }

def setRunnable (thread_id : Nat) (runnable : Bool) : System n :=
  { s with m_threads_runnable := update s.m_threads_runnable thread_id runnable }

def setStatus (thread_id : Nat) (status : CoreState) : System n :=
  { s with
    thread_state := update s.thread_state thread_id
      { s.thread_state thread_id with status := status } }

def setCoreState (core_id : Fin n) (state : CoreState) : System n :=
  { s with core_state := update s.core_state core_id state }

/-- The thread's core, if it has one, no longer has a thread. -/
def leaveCore (thread_id : Nat) : System n :=
  match s.thread_core thread_id with
  | some c => { s with core_thread := update s.core_thread c none }
  | none => s

/-- The thread's core, if it has one, goes idle. -/
def idleCore (thread_id : Nat) : System n :=
  match s.thread_core thread_id with
  | some c => s.setCoreState c .IDLE
  | none => s

def setThreadCore (thread_id : Nat) (core_id : Option (Fin n)) : System n :=
  { s with thread_core := update s.thread_core thread_id core_id }

/-- `Thread::setCore`. -/
def setCore (thread_id : Nat) (core_id : Option (Fin n)) : Except String (System n) :=
  let s := (s.leaveCore thread_id).setThreadCore thread_id core_id
  match core_id with
  | none => .ok s
  | some c =>
    if s.core_thread c ≠ none then .error "Cannot move thread to core as it is already running"
    else .ok { s with core_thread := update s.core_thread c (some thread_id) }

/-! ### Choosing a thread -/

def findFreeCoreForThread (thread_id : Nat) : Option (Fin n) :=
  (List.finRange n).find? fun core_id =>
    (s.m_thread_info thread_id).m_core_affinity core_id &&
      decide (s.m_core_thread_running core_id = none)

/-- The thread may be scheduled on the core. -/
def eligible (core_id : Fin n) (thread_id : Nat) : Bool :=
  let info := s.m_thread_info thread_id
  info.m_core_affinity core_id && s.m_threads_runnable thread_id &&
    (decide (info.m_core_running = none) || decide (info.m_core_running = some core_id))

/-- The score of a thread in `reschedule`, a signed number computed without sign. -/
def score (time : SubsecondTime) (thread_id : Nat) : Int64 :=
  let info := s.m_thread_info thread_id
  if info.m_core_running ≠ none then (getPS info.m_last_scheduled_in - getPS time).toInt64
  else (getPS time - getPS info.m_last_scheduled_out).toInt64

/-- One thread of the loop of `reschedule`. -/
def consider (time : SubsecondTime) (core_id : Fin n) (best : Option Nat × Int64)
    (thread_id : Nat) : Option Nat × Int64 :=
  if s.eligible core_id thread_id then
    if best.2 < s.score time thread_id then (some thread_id, s.score time thread_id) else best
  else best

/-- The thread that `reschedule` puts on the core. -/
def choose (time : SubsecondTime) (core_id : Fin n) : Option Nat :=
  ((List.range s.m_threads_runnable_size).foldl (s.consider time core_id)
    (none, Int64.minValue)).1

end System

/-! ### Moving threads -/

section Hooks
variable (again : Reentry n → System n → Except String (System n))

/-- The affinities that a script sets. -/
def setAffinities : List (Nat × Option (Fin n → Bool) × SubsecondTime) → System n →
    Except String (System n)
  | [], s => .ok s
  | (thread_id, mask, time) :: rest, s =>
    again (.threadSetAffinity thread_id mask time) s >>= setAffinities rest

/-- The script called next. -/
def callScript (s : System n) : Except String (System n) :=
  match s.scripts with
  | [] => .ok s
  | script :: rest => setAffinities again script { s with scripts := rest }

/-- `resumeThread`: scripts are called before and after the scheduler's hook. -/
def resumeThread (s : System n) (thread_id : Nat) (time : SubsecondTime) :
    Except String (System n) :=
  if s.num_threads ≤ thread_id then .error "Invalid thread_id"
  else
    callScript again (s.setStatus thread_id .RUNNING) >>= fun s =>
    again (.threadResume thread_id time) s >>= callScript again

/-- `ThreadManager::moveThread`. -/
def moveThread (s : System n) (thread_id : Nat) (core_id : Option (Fin n))
    (time : SubsecondTime) : Except String (System n) :=
  let s := s.idleCore thread_id
  match core_id with
  | none => s.setCore thread_id none >>= callScript again
  | some c =>
    (if s.thread_core thread_id = none ∧
        s.thread_state thread_id = ⟨.STALLED, .STALL_UNSCHEDULED⟩ then
      resumeThread again s thread_id time
    else .ok s) >>= fun s =>
    s.setCore thread_id (some c) >>= fun s =>
    callScript again
      (if (s.thread_state thread_id).status ≠ .STALLED then s.setCoreState c .RUNNING else s)

/-! ### The scheduler -/

/-- The first half of a change of threads in `reschedule`. -/
def unschedule (s : System n) (time : SubsecondTime) (core_id : Fin n) :
    Option Nat → Except String (System n)
  | none => .ok s
  | some current_thread_id =>
    let s := s.setCoreRunning current_thread_id none
    let s := s.setLastScheduledOut current_thread_id (time + 1000 * UInt64.ofNat core_id.val)
    moveThread again s current_thread_id none time

/-- If the thread runs on some core, that core is told that it leaves. -/
def vacate (s : System n) (thread_id : Nat) : System n :=
  match (s.m_thread_info thread_id).m_core_running with
  | some elsewhere => s.setThreadRunning elsewhere none
  | none => s

/-- The tables after a thread has been given a core. -/
def takeCore (s : System n) (time : SubsecondTime) (core_id : Fin n) (new_thread_id : Nat) :
    System n :=
  let s := vacate (s.setThreadRunning core_id (some new_thread_id)) new_thread_id
  (s.setCoreRunning new_thread_id (some core_id)).setLastScheduledIn new_thread_id time

/-- The second half of a change of threads in `reschedule`. -/
def schedule (s : System n) (time : SubsecondTime) (core_id : Fin n) :
    Option Nat → Except String (System n)
  | none => .ok (s.setThreadRunning core_id none)
  | some new_thread_id =>
    moveThread again (takeCore s time core_id new_thread_id) new_thread_id (some core_id) time

/-- The thread on the core is starting up. -/
def initializing (s : System n) : Option Nat → Bool
  | none => false
  | some thread_id => decide ((s.thread_state thread_id).status = .INITIALIZING)

def reschedule (s : System n) (time : SubsecondTime) (core_id : Fin n) :
    Except String (System n) :=
  let current_thread_id := s.m_core_thread_running core_id
  if initializing s current_thread_id then .ok s
  else
    let new_thread_id := s.choose time core_id
    (if current_thread_id = new_thread_id then .ok s
      else unschedule again s time core_id current_thread_id >>= fun s =>
        schedule again s time core_id new_thread_id) >>= fun s =>
    .ok (s.setQuantumLeft core_id s.m_quantum)

/-- A free core for the thread is rescheduled, if there is one. -/
def rescheduleFree (s : System n) (time : SubsecondTime) (thread_id : Nat) :
    Except String (System n) :=
  match s.findFreeCoreForThread thread_id with
  | some core_id => reschedule again s time core_id
  | none => .ok s

def threadYield (s : System n) (thread_id : Nat) (time : SubsecondTime) :
    Except String (System n) :=
  match (s.m_thread_info thread_id).m_core_running with
  | none => .ok s
  | some core_id =>
    reschedule again (s.setQuantumLeft core_id 0) time core_id >>= fun s =>
    if (s.m_thread_info thread_id).m_core_affinity core_id then .ok s
    else rescheduleFree again s time thread_id

/-- The affinity that `threadSetAffinity` records; without a mask it adds all cores. -/
def setAffinity (s : System n) (thread_id : Nat) (mask : Option (Fin n → Bool)) : System n :=
  let info := { s.m_thread_info thread_id with m_explicit_affinity := true }
  match mask with
  | none => s.setInfo thread_id
      { info with m_core_affinity := fun _ => true, m_has_affinity := info.m_has_affinity || 0 < n }
  | some cpus => s.setInfo thread_id
      { info with
        m_core_affinity := cpus
        m_has_affinity := info.m_has_affinity || (List.finRange n).any cpus }

/-- `threadSetAffinity`; `none` is the caller of a script. -/
def threadSetAffinity (s : System n) (calling_thread_id : Option Nat) (thread_id : Nat)
    (mask : Option (Fin n → Bool)) (time : SubsecondTime) : Except String (System n) :=
  let s := setAffinity s thread_id mask
  let info := s.m_thread_info thread_id
  if s.num_threads ≤ thread_id then .ok s
  else if calling_thread_id = some thread_id then threadYield again s thread_id time
  else
    match info.m_core_running with
    | some core_id =>
      .ok (if info.m_core_affinity core_id then s else s.setQuantumLeft core_id 0)
    | none => if s.m_threads_runnable thread_id then rescheduleFree again s time thread_id else .ok s

/-- `SchedulerDynamic::__threadResume` and `threadResume`. -/
def threadResume (s : System n) (thread_id : Nat) (time : SubsecondTime) :
    Except String (System n) :=
  rescheduleFree again (s.setRunnable thread_id true) time thread_id

/-- What a hook asks of the scheduler. -/
def handle : Reentry n → System n → Except String (System n)
  | .threadResume thread_id time, s => threadResume again s thread_id time
  | .threadSetAffinity thread_id mask time, s =>
    threadSetAffinity again s none thread_id mask time

/-- `SchedulerDynamic::__threadStart` and `threadStart`. -/
def threadStart (s : System n) (thread_id : Nat) (time : SubsecondTime) :
    Except String (System n) :=
  let size := s.m_threads_runnable_size
  let s := { s with m_threads_runnable_size := if size ≤ thread_id then size + 16 else size }
  rescheduleFree again (s.setRunnable thread_id true) time thread_id

/-- `SchedulerDynamic::__threadStall` and `threadStall`, and `__threadExit` and `threadExit`:
the thread can no longer run, and its core goes to somebody else. -/
def threadLeave (s : System n) (thread_id : Nat) (time : SubsecondTime) :
    Except String (System n) :=
  let s := s.setRunnable thread_id false
  match (s.m_thread_info thread_id).m_core_running with
  | some core_id => reschedule again s time core_id
  | none => .ok s

/-- The loop of `periodic`. -/
def periodicLoop (time delta : SubsecondTime) : List (Fin n) → System n → Except String (System n)
  | [], s => .ok s
  | core_id :: rest, s =>
    (if s.m_quantum_left core_id < delta ∨ s.m_core_thread_running core_id = none then
      reschedule again s time core_id
    else .ok (s.setQuantumLeft core_id (s.m_quantum_left core_id - delta))) >>=
    periodicLoop time delta rest

def periodic (s : System n) (time : SubsecondTime) : Except String (System n) :=
  periodicLoop again time (time - s.m_last_periodic) (List.finRange n) s >>= fun s =>
  .ok { s with m_last_periodic := time }

end Hooks

/-- The scheduler as the hooks find it, to a given depth. -/
def reenter : Nat → Reentry n → System n → Except String (System n)
  | 0, _, _ => .error "unfinished"
  | depth + 1, r, s => handle (reenter depth) r s

/-! ### Calls -/

section Calls
variable (again : Reentry n → System n → Except String (System n))

/-- `threadCreate` for a new thread: `affinity` is what `threadSetInitialAffinity` of the
derived class chooses when no affinity has been set before. -/
def threadCreate (s : System n) (thread_id : Nat) (affinity : Fin n → Bool) :
    Option (Fin n) × System n :=
  let info := s.m_thread_info thread_id
  let s := if info.m_has_affinity then s
    else s.setInfo thread_id
      { info with m_core_affinity := affinity, m_has_affinity := (List.finRange n).any affinity }
  match s.findFreeCoreForThread thread_id with
  | some free_core_id =>
    let s := s.setCoreRunning thread_id (some free_core_id)
    let s := s.setThreadRunning free_core_id (some thread_id)
    (some free_core_id, s.setQuantumLeft free_core_id s.m_quantum)
  | none => (none, s.setCoreRunning thread_id none)

/-- `ThreadManager::createThread_unlocked`. -/
def createThread (s : System n) (affinity : Fin n → Bool) : Except String (System n) :=
  let thread_id := s.num_threads
  let s := { s with num_threads := s.num_threads + 1 }
  let s := s.setStatus thread_id .INITIALIZING
  match threadCreate s thread_id affinity with
  | (none, s) => .ok s
  | (some core_id, s) =>
    s.setCore thread_id (some core_id) >>= fun s => .ok (s.setCoreState core_id .INITIALIZING)

/-- `ThreadManager::onThreadStart`. -/
def onThreadStart (s : System n) (thread_id : Nat) (time : SubsecondTime) :
    Except String (System n) :=
  if s.num_threads ≤ thread_id then .error "Invalid thread_id"
  else
    threadStart again (s.setStatus thread_id .RUNNING) thread_id time >>= fun s =>
    match s.thread_core thread_id with
    | some core_id =>
      callScript again ((s.setCoreState core_id .RUNNING).setStatus thread_id .RUNNING)
    | none =>
      .ok { s with
        thread_state :=
          update s.thread_state thread_id ⟨.STALLED, .STALL_UNSCHEDULED⟩ }

/-- `ThreadManager::stallThread_async`. -/
def stallThread (s : System n) (thread_id : Nat) (stall_reason : StallType)
    (time : SubsecondTime) : Except String (System n) :=
  let s := { s with
    thread_state := update s.thread_state thread_id ⟨.STALLED, stall_reason⟩ }
  if stall_reason = .STALL_UNSCHEDULED then .ok s else threadLeave again s thread_id time

/-- `ThreadManager::onThreadExit`, without those it wakes up first. -/
def onThreadExit (s : System n) (thread_id : Nat) (time : SubsecondTime) :
    Except String (System n) :=
  match s.thread_core thread_id with
  | none => .error "Thread ended while not running on a core?"
  | some core_id =>
    if (s.thread_state thread_id).status ≠ .RUNNING then .error "status == Core::RUNNING"
    else
      let s := (s.setStatus thread_id .IDLE).setCoreState core_id .IDLE
      s.setCore thread_id none >>= fun s => threadLeave again s thread_id time

end Calls

inductive Call (n : Nat) where
  | threadCreate (affinity : Fin n → Bool)
  | threadStart (thread_id : Nat) (time : SubsecondTime)
  | threadStall (thread_id : Nat) (stall_reason : StallType) (time : SubsecondTime)
  | threadResume (thread_id : Nat) (time : SubsecondTime)
  | threadExit (thread_id : Nat) (time : SubsecondTime)
  | threadYield (thread_id : Nat) (time : SubsecondTime)
  | threadSetAffinity (calling_thread_id : Option Nat) (thread_id : Nat)
      (mask : Option (Fin n → Bool)) (time : SubsecondTime)
  | periodic (time : SubsecondTime)

def exec (again : Reentry n → System n → Except String (System n)) (s : System n) :
    Call n → Except String (System n)
  | .threadCreate affinity => createThread s affinity
  | .threadStart thread_id time => onThreadStart again s thread_id time
  | .threadStall thread_id stall_reason time => stallThread again s thread_id stall_reason time
  | .threadResume thread_id time => resumeThread again s thread_id time
  | .threadExit thread_id time => onThreadExit again s thread_id time
  | .threadYield thread_id time => threadYield again s thread_id time
  | .threadSetAffinity calling_thread_id thread_id mask time =>
    threadSetAffinity again s calling_thread_id thread_id mask time
  | .periodic time => periodic again s time

/-- The state after the constructors. -/
structure Init (s : System n) : Prop where
  idle : ∀ c, s.m_core_thread_running c = none
  placed : ∀ t, (s.m_thread_info t).m_core_running = none
  runnable : ∀ t, s.m_threads_runnable t = false
  threads : s.num_threads = 0

/-- A call that returns, with any scripts called by the hooks on the way. -/
def Step (s s' : System n) : Prop :=
  ∃ depth scripts call, exec (reenter depth) { s with scripts := scripts } call = .ok s'

end Sniper.Threads.Pinned
