import Mathlib.Logic.Function.Basic

/-! # The thread manager

What the servers that stall and resume threads use of `ThreadManager`: the state of each
thread, `stallThread` and `resumeThread`. Every `resumeThread` is recorded with the state
the thread was in, so that statements about a run can name it.
-/
namespace Sniper.Threads

/-- A time in femtoseconds. -/
abbrev SubsecondTime := UInt64

/-- `Core::State`. -/
inductive CoreState where
  | RUNNING | INITIALIZING | STALLED | SLEEPING | WAKING_UP | IDLE | BROKEN
  deriving DecidableEq

/-- `ThreadManager::stall_type_t`. -/
inductive StallType where
  | STALL_UNSCHEDULED | STALL_BROKEN | STALL_JOIN | STALL_MUTEX | STALL_COND | STALL_BARRIER
  | STALL_FUTEX | STALL_PAUSE | STALL_SLEEP | STALL_SYSCALL
  deriving DecidableEq

/-- `ThreadManager::ThreadState`, less the `pthread_join` caller. -/
structure ThreadState where
  status : CoreState
  stalled_reason : StallType
  deriving DecidableEq

/-- The thread is stalled for one of the reasons. -/
def ThreadState.StalledFor (reasons : List StallType) (s : ThreadState) : Prop :=
  s.status = .STALLED ∧ s.stalled_reason ∈ reasons

/-- A `resumeThread` call, and the state in which it found the thread. -/
structure Resumed (T : Type) where
  thread_id : T
  thread_by : Option T
  time : SubsecondTime
  msg : Bool
  found : ThreadState

structure Manager (T : Type) where
  m_thread_state : T → ThreadState
  resumed : List (Resumed T)

namespace Manager
variable {T : Type} [DecidableEq T]

/-- `stallThread`, up to the point where the thread waits for its wake-up. -/
def stallThread (tm : Manager T) (thread_id : T) (reason : StallType) : Manager T :=
  { tm with m_thread_state := Function.update tm.m_thread_state thread_id ⟨.STALLED, reason⟩ }

/-- `resumeThread`; `thread_by` is `none` for `INVALID_THREAD_ID`, and `msg` is what the
woken thread reads from `getWakeupMsg`. -/
def resumeThread (tm : Manager T) (thread_id : T) (thread_by : Option T) (time : SubsecondTime)
    (msg : Bool) : Manager T where
  m_thread_state := Function.update tm.m_thread_state thread_id
    { tm.m_thread_state thread_id with status := .RUNNING }
  resumed := tm.resumed ++ [⟨thread_id, thread_by, time, msg, tm.m_thread_state thread_id⟩]

variable {reasons : List StallType} {tm : Manager T}

theorem stalledFor_stallThread {reason} (hr : reason ∈ reasons) (x t : T) :
    ((tm.stallThread x reason).m_thread_state t).StalledFor reasons ↔
      t = x ∨ (tm.m_thread_state t).StalledFor reasons := by
  by_cases h : t = x
  · subst h; simp [stallThread, ThreadState.StalledFor, hr]
  · simp [stallThread, h]

theorem stalledFor_resumeThread (x t : T) (thread_by : Option T) (time : SubsecondTime) (msg : Bool) :
    ((tm.resumeThread x thread_by time msg).m_thread_state t).StalledFor reasons ↔
      t ≠ x ∧ (tm.m_thread_state t).StalledFor reasons := by
  by_cases h : t = x
  · subst h; simp [resumeThread, ThreadState.StalledFor]
  · simp [resumeThread, h]

end Manager
end Sniper.Threads
