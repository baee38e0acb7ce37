import Sniper.Lib.Simulation
import Sniper.Threads.Manager

/-! # The synchronization server

`SimMutex`, `SimCond`, `SimBarrier` and the calls of `SyncServer` on them. Mutexes and condition
variables are found by the address of the application's object, barriers by their number. A call
that stalls its thread ends, for the server, when the thread is stalled.
-/

namespace Sniper.Threads.Sync
open Lib.Simulation

/-- `SimMutex`; no owner is `NO_OWNER`. -/
structure SimMutex (T : Type) where
  m_owner : Option T
  m_waiting : List T

structure CondWaiter (T M : Type) where
  m_thread_id : T
  m_mutex : M

structure SimBarrier (T : Type) where
  m_waiting : List T
  m_count : UInt32

/-- `SyncServer` and the thread manager it calls. -/
structure Server (T M C : Type) where
  m_mutexes : M → Option (SimMutex T)
  m_conds : C → Option (List (CondWaiter T M))
  m_barriers : List (SimBarrier T)
  m_reschedule_cost : SubsecondTime
  tm : Manager T

variable {T M C : Type} [DecidableEq T] [DecidableEq M] [DecidableEq C]

namespace Server
variable (s : Server T M C)

/-- The mutex at an address, as `getMutex` creates it where there is none. -/
def mutex (m : M) : SimMutex T := (s.m_mutexes m).getD ⟨none, []⟩

def cond (c : C) : List (CondWaiter T M) := (s.m_conds c).getD []

def setMutex (m : M) (mu : SimMutex T) : Server T M C :=
  { s with m_mutexes := Function.update s.m_mutexes m (some mu) }

def setCond (c : C) (q : List (CondWaiter T M)) : Server T M C :=
  { s with m_conds := Function.update s.m_conds c (some q) }

/-- The barrier of a number; past the last one there is none, and nobody waits. -/
def barrier (b : Nat) : SimBarrier T := (s.m_barriers[b]?).getD ⟨[], 0⟩

def setBarrier (b : Nat) (bar : SimBarrier T) : Server T M C :=
  { s with m_barriers := s.m_barriers.set b bar }

def stallThread (thread_id : T) (reason : StallType) : Server T M C :=
  { s with tm := s.tm.stallThread thread_id reason }

def resumeThread (thread_id thread_by : T) (time : SubsecondTime) : Server T M C :=
  { s with tm := s.tm.resumeThread thread_id (some thread_by) time false }

/-! ### `SimMutex` -/

def isLocked (m : M) (thread_id : T) : Bool :=
  match (s.mutex m).m_owner with
  | none => false
  | some owner => decide (owner ≠ thread_id)

/-- `SimMutex::lock`: the time of the lock, or `none` when the thread is stalled. -/
def lock (m : M) (thread_id : T) (time : SubsecondTime) : Option SubsecondTime × Server T M C :=
  match (s.mutex m).m_owner with
  | none => (some time, s.setMutex m { s.mutex m with m_owner := some thread_id })
  | some _ => (none, (s.setMutex m { s.mutex m with
      m_waiting := (s.mutex m).m_waiting ++ [thread_id] }).stallThread thread_id .STALL_MUTEX)

/-- `SimMutex::lock_async`: the lock in the name of a stalled thread. -/
def lock_async (m : M) (thread_id thread_by : T) (time : SubsecondTime) : Bool × Server T M C :=
  match (s.mutex m).m_owner with
  | none => (true, (s.setMutex m { s.mutex m with
      m_owner := some thread_id }).resumeThread thread_id thread_by time)
  | some _ => (false, s.setMutex m { s.mutex m with
      m_waiting := (s.mutex m).m_waiting ++ [thread_id] })

/-- `SimMutex::unlock`: the new owner. -/
def unlock (m : M) (thread_id : T) (time : SubsecondTime) : Except String (Option T × Server T M C) :=
  if (s.mutex m).m_owner = some thread_id then
    match (s.mutex m).m_waiting with
    | [] => .ok (none, s.setMutex m { s.mutex m with m_owner := none })
    | waiter :: rest => .ok (some waiter,
        (s.setMutex m ⟨some waiter, rest⟩).resumeThread waiter thread_id time)
  else .error "m_owner == thread_id"

/-! ### `SimCond` -/

/-- `SimCond::wait`. -/
def condWait (c : C) (thread_id : T) (time : SubsecondTime) (m : M) : Except String (Server T M C) := do
  let (_, s) ← s.unlock m thread_id time
  pure ((s.setCond c (s.cond c ++ [⟨thread_id, m⟩])).stallThread thread_id .STALL_COND)

/-- `SimCond::signal`: the thread that got its mutex at once. -/
def condSignal (c : C) (thread_id : T) (time : SubsecondTime) : Option T × Server T M C :=
  match s.cond c with
  | [] => (none, s)
  | woken :: rest =>
    let (got, s') :=
      (s.setCond c rest).lock_async woken.m_mutex woken.m_thread_id thread_id time
    (if got then some woken.m_thread_id else none, s')

/-- The loop of `SimCond::broadcast`, for as many rounds as there are waiters. -/
def broadcastLoop (c : C) (thread_id : T) (time : SubsecondTime) :
    Nat → Server T M C → Server T M C
  | 0, s => s
  | left + 1, s =>
    match s.cond c with
    | [] => s
    | woken :: rest => broadcastLoop c thread_id time left
        ((s.setCond c rest).lock_async woken.m_mutex woken.m_thread_id thread_id time).2

def condBroadcast (c : C) (thread_id : T) (time : SubsecondTime) : Server T M C :=
  broadcastLoop c thread_id time (s.cond c).length s

/-! ### `SimBarrier` -/

/-- The loop of `SimBarrier::wait` that resumes the waiters, for as many rounds as there are
waiters. -/
def releaseLoop (b : Nat) (thread_by : T) (time : SubsecondTime) :
    Nat → Server T M C → Server T M C
  | 0, s => s
  | left + 1, s =>
    match s.barrier b with
    | ⟨[], _⟩ => s
    | ⟨waiter :: rest, count⟩ => releaseLoop b thread_by time left
        ((s.setBarrier b ⟨rest, count⟩).resumeThread waiter thread_by time)

/-- `SimBarrier::wait`: the time of the release, or `none` when the thread is stalled. -/
def barrierWait (b : Nat) (thread_id : T) (time : SubsecondTime) :
    Option SubsecondTime × Server T M C :=
  let bar := s.barrier b
  if bar.m_waiting.length = (bar.m_count - 1).toNat then
    (some time, releaseLoop b thread_id time bar.m_waiting.length s)
  else
    (none, (s.setBarrier b ⟨bar.m_waiting ++ [thread_id], bar.m_count⟩).stallThread thread_id
      .STALL_BARRIER)

end Server

/-! ### The calls -/

/-- The calls of `SyncServer`. -/
inductive Call (T M C : Type) where
  | mutexInit (thread_id : T) (mux : M)
  | mutexLock (thread_id : T) (mux : M) (tryLock : Bool)
  | mutexUnlock (thread_id : T) (mux : M)
  | condInit (thread_id : T) (cond : C)
  | condWait (thread_id : T) (cond : C) (mux : M)
  | condSignal (thread_id : T) (cond : C)
  | condBroadcast (thread_id : T) (cond : C)
  | barrierInit (thread_id : T) (count : UInt32)
  | barrierWait (thread_id : T) (barrier : Nat)

namespace Call

def thread : Call T M C → T
  | mutexInit t _ | mutexLock t _ _ | mutexUnlock t _ | condInit t _ | condWait t _ _
  | condSignal t _ | condBroadcast t _ | barrierInit t _ | barrierWait t _ => t

/-- How often the call makes a thread arrive at a barrier. -/
def arrivals (b : Nat) : Call T M C → Nat
  | barrierWait _ b' => if b' = b then 1 else 0
  | _ => 0

end Call

/-- What a call gives back: the time of its return with the success of a lock, or `none` when
its thread is stalled. -/
abbrev Reply := Option (SubsecondTime × Bool)

namespace Server

/-- `SyncServer`'s calls. `barrierWait` on a number no `barrierInit` gave out is undefined
behaviour. -/
def call (s : Server T M C) (time : SubsecondTime) : Call T M C → Except String (Reply × Server T M C)
  | .mutexInit _ mux => .ok (some (time, true), s.setMutex mux (s.mutex mux))
  | .mutexLock thread_id mux tryLock =>
    if tryLock && s.isLocked mux thread_id then .ok (some (time, false), s)
    else
      let (time_end, s') := s.lock mux thread_id time
      .ok (time_end.map fun t => (t + s.m_reschedule_cost, true), s')
  | .mutexUnlock thread_id mux =>
    if (s.m_mutexes mux).isSome then do
      let (new_owner, s') ← s.unlock mux thread_id (time + s.m_reschedule_cost)
      let cost := if new_owner.isNone then 0 else s.m_reschedule_cost
      pure (some (time + cost, true), s')
    else .error "Invalid mutex id passed"
  | .condInit _ cond => .ok (some (time, true), s.setCond cond (s.cond cond))
  | .condWait thread_id cond mux => do
    let s' ← s.condWait cond thread_id time mux
    pure (none, s')
  | .condSignal thread_id cond => .ok (some (time, true), (s.condSignal cond thread_id time).2)
  | .condBroadcast thread_id cond =>
    .ok (some (time, true), s.condBroadcast cond thread_id time)
  | .barrierInit _ count =>
    .ok (some (time, true), { s with m_barriers := s.m_barriers ++ [⟨[], count⟩] })
  | .barrierWait thread_id barrier =>
    if barrier < s.m_barriers.length then
      let (time_end, s') := s.barrierWait barrier thread_id time
      .ok (time_end.map fun t => (t, true), s')
    else .error "m_barriers"

end Server

/-! ### Runs -/

/-- The reasons for which the server stalls. -/
def reasons : List StallType := [.STALL_MUTEX, .STALL_COND, .STALL_BARRIER]

namespace Server

/-- The server stalled the thread and has not resumed it. -/
def Stalled (s : Server T M C) (t : T) : Prop := (s.tm.m_thread_state t).StalledFor reasons

def Running (s : Server T M C) (t : T) : Prop := (s.tm.m_thread_state t).status = .RUNNING

/-- What the callers promise: only a running thread calls, none locks a mutex it owns, the
owner unlocks and waits, a barrier is for one thread at least and is created before use. -/
structure Allowed (s : Server T M C) (c : Call T M C) : Prop where
  running : s.Running c.thread
  lock : ∀ t m tryLock, c = .mutexLock t m tryLock → (s.mutex m).m_owner ≠ some t
  unlock : ∀ t m, c = .mutexUnlock t m → (s.mutex m).m_owner = some t
  wait : ∀ t v m, c = .condWait t v m → (s.mutex m).m_owner = some t
  count : ∀ t count, c = .barrierInit t count → count ≠ 0
  barrier : ∀ t b, c = .barrierWait t b → b < s.m_barriers.length

end Server

/-- The server in a run, and how many threads arrived at each barrier so far. -/
structure System (T M C : Type) where
  server : Server T M C
  arrived : Nat → Nat

/-- A call, or a change of a thread the server has not stalled: its start and exit, and the
stalls and resumes of other components. -/
inductive Step : System T M C → System T M C → Prop
  | call {s} (c : Call T M C) (time : SubsecondTime) {reply s'} (ha : s.server.Allowed c)
      (h : s.server.call time c = .ok (reply, s')) :
      Step s ⟨s', fun b => s.arrived b + c.arrivals b⟩
  | elsewhere {s : System T M C} (t : T) (state : ThreadState) (ht : ¬ s.server.Stalled t)
      (hs : ¬ state.StalledFor reasons) :
      Step s { s with server.tm.m_thread_state :=
        Function.update s.server.tm.m_thread_state t state }

/-- No object exists and no thread is stalled by the server. -/
structure Init (s : System T M C) : Prop where
  mutexes : ∀ m, s.server.m_mutexes m = none
  conds : ∀ c, s.server.m_conds c = none
  barriers : s.server.m_barriers = []
  free : ∀ t, ¬ s.server.Stalled t
  resumed : s.server.tm.resumed = []
  arrived : ∀ b, s.arrived b = 0

def Runs : System T M C → Prop := Reachable Init Step

end Sniper.Threads.Sync
