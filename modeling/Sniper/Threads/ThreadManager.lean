import Sniper.Threads.Manager

/-! # Threads, their start, their exit and who waits for it

`ThreadManager` with the host threads that call it. A thread that is to wait stalls itself, lets
the barrier advance while nobody runs, and waits on its condition variable unless it was resumed
meanwhile; a signal wakes it only when it waits there. All calls hold the thread-manager lock.
Times are left out. The servers are the set of threads that stand in one of their queues, and the
scheduler moves threads as it likes.
-/
namespace Sniper.Threads

/-- `ThreadManager::ThreadState`. -/
structure JoinState extends ThreadState where
  waiter : Option Nat

/-- What a thread does when it has a core again. -/
inductive After where
  | run
  /-- Return from `joinThread`, whose stall was resumed so many times. -/
  | join (join_thread_id resumes : Nat)
  /-- Go on in `runExit`, which may have been called by `unblock`. -/
  | runExit (unblock : Bool)

/-- The callers of `stallThread`. -/
inductive Staller where
  | joinThread (join_thread_id resumes : Nat)
  | server
  | reschedule (after : After)

/-- The parts of `stallThread`: the loop in which the barrier advances, the wait for a signal,
and after it. -/
inductive Stage where
  | advancing | waiting | signalled

/-- Where a host thread is. -/
inductive Host where
  | notStarted
  | running
  /-- In the wait of `waitForThreadStart`. -/
  | starting (wait_thread_id : Nat) (signalled : Bool)
  | stalling (stage : Stage) (staller : Staller)
  /-- Before `Thread::reschedule`. -/
  | rescheduling (after : After)
  /-- In a blocking system call. -/
  | blocked
  /-- In `unblock`, behind `runExit`. -/
  | unblocking
  | exited

/-- What is observed of a call: in which state `resumeThread` or `resumeThread_async` found the
thread, `stallThread` left it, and `joinThread` left the thread it was to join. -/
inductive Observed where
  | resumed (thread_id : Nat) (found : CoreState)
  | stallReturned (thread_id : Nat) (found : CoreState)
  | joinReturned (thread_id join_thread_id : Nat) (found : CoreState) (resumes : Option Nat)
  deriving DecidableEq

structure ThreadManager where
  /-- The number of `m_threads`. -/
  size : Nat
  m_thread_state : Nat → JoinState
  m_core : Nat → Option Nat
  host : Nat → Host
  /-- The threads in the queues of the sync and the syscall server. -/
  queued : Nat → Bool
  /-- The thread that holds `m_thread_lock` while the barrier advances. -/
  m_thread_lock : Option Nat
  observed : List Observed

/-- What a host thread does next, or what the servers or the scheduler do with a thread. -/
inductive ThreadCall where
  | onThreadStart
  | onThreadExit
  | joinThread (join_thread_id : Nat)
  | waitForThreadStart (wait_thread_id : Nat)
  /-- `stallThread` by a server. -/
  | stallThread (reason : StallType)
  /-- A blocking system call. -/
  | runEnter (pause : Bool)
  | runExit (unblock : Bool)
  /-- `resumeThread_async` in `unblock`. -/
  | unblock
  /-- The barrier has advanced until some thread runs. -/
  | advanced
  /-- The wait for the signal returns. -/
  | wake
  | reschedule
  /-- `resumeThread` by a server. -/
  | resumeThread
  | moveThread (core_id : Option Nat)

/-- A resumption counts for the joiner. -/
def Host.resumed : Host → Host
  | .stalling stage (.joinThread j resumes) => .stalling stage (.joinThread j (resumes + 1))
  | host => host

/-- A signal wakes a thread that waits. -/
def Host.signal : Host → Host
  | .starting w false => .starting w true
  | .stalling .waiting staller => .stalling .signalled staller
  | host => host

namespace ThreadManager

def new : ThreadManager where
  size := 0
  m_thread_state _ := ⟨⟨.IDLE, .STALL_UNSCHEDULED⟩, none⟩
  m_core _ := none
  host _ := .notStarted
  queued _ := false
  m_thread_lock := none
  observed := []

variable (tm : ThreadManager) (thread_id : Nat)

def setState (f : JoinState → JoinState) : ThreadManager :=
  { tm with m_thread_state :=
      Function.update tm.m_thread_state thread_id (f (tm.m_thread_state thread_id)) }

def goto (host : Host) : ThreadManager :=
  { tm with host := Function.update tm.host thread_id host }

def observe (o : Observed) : ThreadManager := { tm with observed := tm.observed ++ [o] }

/-- `createThread`; the scheduler may have a core for the thread. -/
def createThread (core_id : Option Nat) : ThreadManager :=
  { tm with
    size := tm.size + 1
    m_thread_state := Function.update tm.m_thread_state tm.size
      { tm.m_thread_state tm.size with status := .INITIALIZING, waiter := none }
    m_core := Function.update tm.m_core tm.size core_id
    host := Function.update tm.host tm.size .notStarted }

def signal : ThreadManager := tm.goto thread_id (tm.host thread_id).signal

def resumeThread_async : ThreadManager :=
  (((tm.observe (.resumed thread_id (tm.m_thread_state thread_id).status)).setState thread_id
    fun s => { s with status := .RUNNING })).goto thread_id (tm.host thread_id).resumed

def resumeThread : ThreadManager := (tm.signal thread_id).resumeThread_async thread_id

def stallThread_async (reason : StallType) : ThreadManager :=
  tm.setState thread_id fun s => { s with status := .STALLED, stalled_reason := reason }

/-- `stallThread` up to the loop in which the barrier advances. -/
def stallThread (reason : StallType) (staller : Staller) : ThreadManager :=
  { (tm.stallThread_async thread_id reason).goto thread_id (.stalling .advancing staller) with
    m_thread_lock := some thread_id }

/-- `onThreadStart`, and up to the `reschedule` behind it. -/
def onThreadStart : ThreadManager :=
  let tm := tm.setState thread_id fun s =>
    if (tm.m_core thread_id).isSome then { s with status := .RUNNING }
    else { s with status := .STALLED, stalled_reason := .STALL_UNSCHEDULED }
  let tm := tm.goto thread_id (.rescheduling .run)
  match (tm.m_thread_state thread_id).waiter with
  | some waiter => (tm.signal waiter).setState thread_id fun s => { s with waiter := none }
  | none => tm

def wakeUpWaiter : ThreadManager :=
  match (tm.m_thread_state thread_id).waiter with
  | some waiter => (tm.resumeThread waiter).setState thread_id fun s => { s with waiter := none }
  | none => tm

/-- `onThreadExit`; a thread without a core or that is not running fails an assertion. -/
def onThreadExit : Option ThreadManager :=
  if (tm.m_core thread_id).isNone ∨ (tm.m_thread_state thread_id).status ≠ .RUNNING then none
  else
    let tm := (tm.setState thread_id fun s => { s with status := .IDLE }).goto thread_id .exited
    let tm := tm.wakeUpWaiter thread_id
    some { tm with m_core := Function.update tm.m_core thread_id none }

/-- `joinThread` up to its `stallThread`; a second waiter fails an assertion. -/
def joinThread (join_thread_id : Nat) : Option ThreadManager :=
  let s := tm.m_thread_state join_thread_id
  if s.status = .IDLE then
    some (tm.observe (.joinReturned thread_id join_thread_id s.status none))
  else if s.waiter.isSome then none
  else
    let tm := tm.setState join_thread_id fun s => { s with waiter := some thread_id }
    some (tm.stallThread thread_id .STALL_JOIN (.joinThread join_thread_id 0))

def waitForThreadStart (wait_thread_id : Nat) : Option ThreadManager :=
  let s := tm.m_thread_state wait_thread_id
  if s.status = .INITIALIZING then
    if s.waiter.isSome then none
    else
      let tm := tm.setState wait_thread_id fun s => { s with waiter := some thread_id }
      some (tm.goto thread_id (.starting wait_thread_id false))
  else some tm

/-- The thread has a core. -/
def finish : After → ThreadManager
  | .run => tm.goto thread_id .running
  | .join j resumes =>
    (tm.observe (.joinReturned thread_id j (tm.m_thread_state j).status (some resumes))).goto
      thread_id .running
  | .runExit unblock => tm.goto thread_id (if unblock then .unblocking else .running)

/-- `Thread::reschedule`: it stalls as long as the thread has no core. -/
def reschedule (after : After) : ThreadManager :=
  match tm.m_core thread_id with
  | none => tm.stallThread thread_id .STALL_UNSCHEDULED (.reschedule after)
  | some _ => tm.finish thread_id after

/-- `stallThread` returns to its caller. -/
def stallReturns (staller : Staller) : ThreadManager :=
  let tm := { tm.observe (.stallReturned thread_id (tm.m_thread_state thread_id).status) with
    m_thread_lock := none }
  match staller with
  | .joinThread j resumes => tm.goto thread_id (.rescheduling (.join j resumes))
  | .server => tm.goto thread_id (.rescheduling .run)
  | .reschedule after => tm.reschedule thread_id after

def anyThreadRunning : Prop := ∃ t < tm.size,
  (tm.m_thread_state t).status = .RUNNING ∨ (tm.m_thread_state t).status = .INITIALIZING

instance : Decidable tm.anyThreadRunning :=
  inferInstanceAs (Decidable (∃ t, t < tm.size ∧ _))

def moveThread (core_id : Option Nat) : ThreadManager :=
  let s := tm.m_thread_state thread_id
  let resumes := core_id.isSome ∧ (tm.m_core thread_id).isNone ∧ s.status = .STALLED ∧
    s.stalled_reason = .STALL_UNSCHEDULED
  let tm := if resumes then tm.resumeThread thread_id else tm
  { tm with m_core := Function.update tm.m_core thread_id core_id }

/-- The reasons of the servers. -/
def serverReasons : List StallType :=
  [.STALL_MUTEX, .STALL_COND, .STALL_BARRIER, .STALL_FUTEX, .STALL_SLEEP]

/-- A call of a host thread that does not hold the lock. -/
def hostCall : ThreadCall → Host → Option ThreadManager
  | .onThreadStart, .notStarted => some (tm.onThreadStart thread_id)
  | .onThreadExit, .running => tm.onThreadExit thread_id
  | .joinThread j, .running =>
    if j < tm.size ∧ j ≠ thread_id then tm.joinThread thread_id j else none
  | .waitForThreadStart w, .running =>
    if w < tm.size then tm.waitForThreadStart thread_id w else none
  | .stallThread reason, .running =>
    if reason ∈ serverReasons then
      some { tm.stallThread thread_id reason .server with
        queued := Function.update tm.queued thread_id true }
    else none
  | .runEnter pause, .running =>
    some ((tm.stallThread_async thread_id
      (if pause then .STALL_PAUSE else .STALL_SYSCALL)).goto thread_id .blocked)
  | .runExit unblock, .blocked =>
    some ((tm.resumeThread_async thread_id).goto thread_id (.rescheduling (.runExit unblock)))
  | .unblock, .unblocking =>
    some ((tm.resumeThread_async thread_id).goto thread_id (.rescheduling .run))
  | .wake, .starting _ true => some (tm.goto thread_id .running)
  | .wake, .stalling .signalled staller => some (tm.stallReturns thread_id staller)
  | .reschedule, .running => some (tm.goto thread_id (.rescheduling .run))
  | .reschedule, .rescheduling after => some (tm.reschedule thread_id after)
  | _, _ => none

/-- A call that concerns a thread, if it can be made. The servers and the scheduler are called by
whoever holds the lock, also while the barrier advances. -/
def call (which : ThreadCall) : Option ThreadManager :=
  if tm.size ≤ thread_id then none
  else
    match which, tm.host thread_id with
    | .resumeThread, _ =>
      if tm.queued thread_id then
        some { tm.resumeThread thread_id with
          queued := Function.update tm.queued thread_id false }
      else none
    | .moveThread core_id, _ => some (tm.moveThread thread_id core_id)
    | .advanced, .stalling .advancing staller =>
      if tm.anyThreadRunning then
        if (tm.m_thread_state thread_id).status = .RUNNING then
          some (tm.stallReturns thread_id staller)
        else some { tm.goto thread_id (.stalling .waiting staller) with m_thread_lock := none }
      else none
    | which, host => if tm.m_thread_lock.isSome then none else tm.hostCall thread_id which host

/-- Calls, one after the other. -/
def calls : List (Nat × ThreadCall) → ThreadManager → Option ThreadManager
  | [], tm => some tm
  | (thread_id, which) :: rest, tm => do calls rest (← tm.call thread_id which)

end ThreadManager
end Sniper.Threads
