import Mathlib.Data.List.Basic
import Sniper.Threads.Manager

/-! # The trace manager

`TraceManager` counts the threads of each application and the runs it has completed. A thread
that ends an application asks the others to stop and calls `signalDone` in their place, one after
the other and without the lock, while they still run. Its iterator over the threads is invalid
once an append has moved them. Each thread is one host thread that makes one call after the other.
-/
namespace Sniper.Threads
open Function

/-- Where the host thread of a `TraceThread` is. -/
inductive Phase where
  | running
  /-- In the loop of `endApplication`, at an index; the thread there may already be asked. -/
  | ending (index : Nat) (asked : Bool)
  /-- In the loop of `endApplication`, with an iterator into an array that is no longer there. -/
  | dangling
  /-- Behind the run loop, with the argument for `signalDone`. -/
  | leaving (aborted : Bool)
  | done
  deriving DecidableEq

def Phase.isEnding : Phase → Bool
  | .ending _ _ => true
  | _ => false

structure TraceThread where
  appId : Nat
  m_time_start : SubsecondTime
  m_tracefile : String
  m_responsefile : String
  m_stop : Bool
  m_stopped : Bool
  phase : Phase

/-- The threads are moved to another array, and an iterator into the old one is invalid. -/
def TraceThread.invalidate (thread : TraceThread) : TraceThread :=
  match thread.phase with
  | .ending _ _ => { thread with phase := .dangling }
  | _ => thread

/-- `app_info_t`, with its defaults. -/
structure AppInfo where
  thread_count : Nat := 1
  num_threads : Nat := 1
  num_runs : Nat := 0

inductive Hook where
  | HOOK_APPLICATION_START (app_id : Nat)
  | HOOK_APPLICATION_EXIT (app_id : Nat)

/-- The section `traceinput`, and how a `std::vector` grows. -/
structure TraceInput where
  stop_with_first_app : Bool
  restart_apps : Bool
  num_apps : Nat
  trace_prefix : String
  /-- The entry `thread_` of an application. -/
  thread : Nat → String
  /-- Whether `push_back` moves a vector of so many elements, which is up to its implementation. -/
  reallocates : Nat → Bool

/-- Why a call does not return. -/
inductive TraceFault where
  /-- The thread is not at a point where it makes the call. -/
  | notCalled
  | assertion
  /-- An entry behind the last of `m_tracefiles` or `m_responsefiles` is read. -/
  | tracefile
  /-- An invalid iterator is used. -/
  | iterator
  deriving DecidableEq

structure TraceManager where
  m_threads : List TraceThread
  m_num_threads_running : Nat
  m_done : Nat
  m_num_apps : Nat
  m_num_apps_nonfinish : Nat
  m_app_info : Nat → AppInfo
  m_tracefiles : List String
  m_responsefiles : List String
  /-- The application hooks that were called. -/
  hooks : List Hook

namespace TraceInput

def getFifoName (cfg : TraceInput) (app_id thread_num : Nat) (response : Bool) : String :=
  cfg.trace_prefix ++ (if response then "_response" else "") ++ ".app" ++ toString app_id ++
    ".th" ++ toString thread_num ++ ".sift"

/-- `setupTraceFiles`: the response files are named only with a prefix. -/
def setupTraceFiles (cfg : TraceInput) : List String × List String :=
  let apps := List.range cfg.num_apps
  if cfg.trace_prefix ≠ "" then
    (apps.map fun i => cfg.getFifoName i 0 false, apps.map fun i => cfg.getFifoName i 0 true)
  else (apps.map cfg.thread, apps.map fun _ => "")

end TraceInput

namespace TraceManager

def new (cfg : TraceInput) : TraceManager where
  m_threads := []
  m_num_threads_running := 0
  m_done := 0
  m_num_apps := cfg.num_apps
  m_num_apps_nonfinish := cfg.num_apps
  m_app_info _ := {}
  m_tracefiles := cfg.setupTraceFiles.1
  m_responsefiles := cfg.setupTraceFiles.2
  hooks := []

variable (cfg : TraceInput) (tm : TraceManager)

/-- The trace and the response file of a new thread. -/
def threadFiles (app_id thread_num : Nat) (first init_fifo : Bool) :
    Except TraceFault (String × String) :=
  if init_fifo then
    .ok (cfg.getFifoName app_id thread_num false,
      if tm.m_responsefiles.isEmpty then "" else cfg.getFifoName app_id thread_num true)
  else if first then
    match tm.m_tracefiles[app_id]?, tm.m_responsefiles[app_id]? with
    | some tracefile, some responsefile => .ok (tracefile, responsefile)
    | some tracefile, none =>
      if tm.m_responsefiles.isEmpty then .ok (tracefile, "") else .error .tracefile
    | none, _ => .error .tracefile
  else .ok ("", "")

/-- `push_back` on `m_threads`. -/
def pushBack (threads : List TraceThread) (thread : TraceThread) : List TraceThread :=
  (if cfg.reallocates threads.length then threads.map TraceThread.invalidate else threads) ++
    [thread]

def newThread (app_id : Nat) (first init_fifo : Bool) (time : SubsecondTime) :
    Except TraceFault TraceManager :=
  if tm.m_num_apps ≤ app_id then .error .assertion
  else
    let info := tm.m_app_info app_id
    let thread_num := if first then 0 else info.thread_count
    let info := if first then { info with num_threads := 1, thread_count := 1 }
      else { info with
        num_threads := info.num_threads + 1
        thread_count := info.thread_count + 1 }
    (tm.threadFiles cfg app_id thread_num first init_fifo).map fun (tracefile, responsefile) =>
      { tm with
        m_app_info := update tm.m_app_info app_id info
        hooks := if first then tm.hooks ++ [.HOOK_APPLICATION_START app_id] else tm.hooks
        m_num_threads_running := tm.m_num_threads_running + 1
        m_threads := pushBack cfg tm.m_threads
          ⟨app_id, time, tracefile, responsefile, false, false, .running⟩ }

/-- The first thread of an application, from its trace file. -/
def initApp (tm : TraceManager) (app_id : Nat) : Except TraceFault TraceManager :=
  tm.newThread cfg app_id true false 0

def init : Except TraceFault TraceManager :=
  (List.range cfg.num_apps).foldlM (initApp cfg) (new cfg)

def createThread (app_id : Nat) (time : SubsecondTime) : Except TraceFault TraceManager :=
  tm.newThread cfg app_id false true time

def createApplication (time : SubsecondTime) : Except TraceFault TraceManager :=
  let app_id := tm.m_num_apps
  let tm := { tm with
    m_num_apps := tm.m_num_apps + 1
    m_num_apps_nonfinish := tm.m_num_apps_nonfinish + 1
    m_app_info := update tm.m_app_info app_id {} }
  tm.newThread cfg app_id true true time

/-- A change to the thread at an index. -/
def modifyThread (index : Nat) (f : TraceThread → TraceThread) : TraceManager :=
  { tm with m_threads := tm.m_threads.modify index f }

def stop : TraceManager :=
  { tm with
    m_threads := tm.m_threads.map fun thread => { thread with m_stop := true }
    m_done := tm.m_done + 1 }

/-- What `signalDone` does when a thread that was not aborted was the last of its application. -/
def runDone (app_id : Nat) (time : SubsecondTime) : Except TraceFault TraceManager :=
  let info := tm.m_app_info app_id
  let info := { info with num_runs := info.num_runs + 1 }
  let tm := { tm with
    m_app_info := update tm.m_app_info app_id info
    hooks := tm.hooks ++ [.HOOK_APPLICATION_EXIT app_id]
    m_num_apps_nonfinish :=
      if info.num_runs = 1 then tm.m_num_apps_nonfinish - 1 else tm.m_num_apps_nonfinish }
  if cfg.stop_with_first_app then .ok tm.stop
  else if tm.m_num_apps_nonfinish = 0 then .ok tm.stop
  else if cfg.restart_apps then tm.newThread cfg app_id true false time
  else .ok tm

def signalDone (index : Nat) (thread : TraceThread) (time : SubsecondTime) (aborted : Bool) :
    Except TraceFault TraceManager :=
  if thread.m_stopped then .ok tm
  else
    let app_id := thread.appId
    let info := tm.m_app_info app_id
    let info := { info with num_threads := info.num_threads - 1 }
    let tm := { tm.modifyThread index fun thread => { thread with m_stopped := true } with
      m_app_info := update tm.m_app_info app_id info }
    let done := if !aborted && info.num_threads = 0 then tm.runDone cfg app_id time else .ok tm
    done.map fun tm => { tm with m_num_threads_running := tm.m_num_threads_running - 1 }

/-! ### The threads -/

inductive TraceCall where
  | createThread
  | createApplication
  /-- `endApplication` begins, at an `exit_group`. -/
  | endApplication
  /-- The next step of `endApplication`. -/
  | endNext
  /-- The run loop ends. -/
  | leave
  | signalDone

/-- The thread goes on to another phase. -/
def goto (index : Nat) (phase : Phase) (tm : TraceManager) : TraceManager :=
  tm.modifyThread index fun thread => { thread with phase := phase }

/-- A step of the loop of `endApplication` by the thread at `index`: a thread of the application,
except the thread itself, is asked to stop, and then `signalDone` is called in its place. -/
def endNext (index : Nat) (thread : TraceThread) (other : Nat) (asked : Bool)
    (time : SubsecondTime) : Except TraceFault TraceManager :=
  match tm.m_threads[other]? with
  | none => .ok (tm.goto index .running)
  | some it =>
    if asked then
      (tm.signalDone cfg other it time true).map (goto index (.ending (other + 1) false))
    else if it.appId = thread.appId ∧ other ≠ index then
      .ok ((tm.modifyThread other fun it => { it with m_stop := true }).goto index
        (.ending other true))
    else .ok (tm.goto index (.ending (other + 1) false))

/-- A call of the thread at an index. -/
def call (index : Nat) (time : SubsecondTime) (which : TraceCall) :
    Except TraceFault TraceManager :=
  match tm.m_threads[index]? with
  | none => .error .notCalled
  | some thread =>
    match which, thread.phase with
    | .createThread, .running => tm.createThread cfg thread.appId time
    | .createApplication, .running => tm.createApplication cfg time
    | .endApplication, .running => .ok (tm.goto index (.ending 0 false))
    | .endNext, .ending other asked => tm.endNext cfg index thread other asked time
    | .endNext, .dangling => .error .iterator
    | .leave, .running => .ok (tm.goto index (.leaving thread.m_stop))
    | .signalDone, .leaving aborted =>
      (tm.signalDone cfg index thread time aborted).map (goto index .done)
    | _, _ => .error .notCalled

/-- Calls of threads, one after the other. -/
def calls : List (Nat × TraceCall) → TraceManager → Except TraceFault TraceManager
  | [], tm => .ok tm
  | (index, which) :: rest, tm => do calls rest (← tm.call cfg index 0 which)

end TraceManager
end Sniper.Threads
