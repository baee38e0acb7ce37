import Sniper.Memory.AddressHash
import Sniper.Threads.SchedulerSequential

/-! # The scheduler of big and small cores

`SchedulerBigSmall` over the pinned scheduler: threads chosen at random may run on the cores that
are tagged as big, the others on the small ones. Its hooks for threads that start or resume are
those of the pinned scheduler, also when a change of affinity enters them again.
-/
namespace Sniper.Threads.BigSmall
open Pinned Function

/-- `SchedulerBigSmall`, with the scheduler it is derived from. The times that cores and clock
show when an affinity is set are listed in the order they are read. -/
structure Scheduler (n : Nat) (R : Type) where
  system : System n
  m_num_big_cores : Nat
  m_mask_big : Fin n → Bool
  m_mask_small : Fin n → Bool
  m_last_reshuffle : SubsecondTime
  m_rng : R
  m_thread_isbig : Nat → Bool
  elapsed : List SubsecondTime

variable {n : Nat} {R : Type}

/-! ### The constructor -/

/-- `CPU_SET`: a set has room for 1024 cores. -/
def CPU_SET (cpu : Fin n) (mask : Fin n → Bool) : Fin n → Bool :=
  if cpu.val < 1024 then update mask cpu true else mask

/-- One core of the loop of the constructor. -/
def addCore (isBig : Fin n → Bool) (s : Scheduler n R) (coreId : Fin n) : Scheduler n R :=
  if isBig coreId then
    { s with
      m_num_big_cores := s.m_num_big_cores + 1
      m_mask_big := CPU_SET coreId s.m_mask_big }
  else { s with m_mask_small := CPU_SET coreId s.m_mask_small }

/-- The constructor; `isBig` are the tags. -/
def constructor (isBig : Fin n → Bool) (quantum : SubsecondTime) (rng : R) : Scheduler n R :=
  (List.finRange n).foldl (addCore isBig)
    { system := Sequential.pinnedBase n quantum
      m_num_big_cores := 0
      m_mask_big := fun _ => false
      m_mask_small := fun _ => false
      m_last_reshuffle := 0
      m_rng := rng
      m_thread_isbig := fun _ => false
      elapsed := [] }

namespace Scheduler
variable (s : Scheduler n R)

/-- The scheduler with what a call makes of the system. -/
def withSystem (system : Except String (System n)) : Except String (Scheduler n R) :=
  system.map fun system => { s with system := system }

/-- The threads that may be promoted. -/
def eligible : List Nat :=
  (List.range s.system.num_threads).filter fun thread_id =>
    !s.m_thread_isbig thread_id && s.system.m_threads_runnable thread_id

end Scheduler

/-! ### Moving threads between the pools -/

section Calls
variable (rng_next : R → Nat × R) (again : Reentry n → System n → Except String (System n))

/-- The affinity is set first, and then the flag. -/
def moveTo (s : Scheduler n R) (thread_id : Nat) (mask : Fin n → Bool) (isbig : Bool) :
    Except String (Scheduler n R) :=
  s.withSystem (threadSetAffinity again s.system none thread_id (some mask)
    (s.elapsed.headD 0)) >>= fun s =>
  .ok { s with
    elapsed := s.elapsed.tail
    m_thread_isbig := update s.m_thread_isbig thread_id isbig }

def moveToSmall (s : Scheduler n R) (thread_id : Nat) : Except String (Scheduler n R) :=
  moveTo again s thread_id s.m_mask_small false

def moveToBig (s : Scheduler n R) (thread_id : Nat) : Except String (Scheduler n R) :=
  moveTo again s thread_id s.m_mask_big true

def pickBigThread (s : Scheduler n R) : Except String (Scheduler n R) :=
  if h : 0 < s.eligible.length then
    let (number, rng) := rng_next s.m_rng
    let thread_id := s.eligible.get ⟨number % s.eligible.length, Nat.mod_lt number h⟩
    moveToBig again { s with m_rng := rng } thread_id
  else .ok s

def threadSetInitialAffinity (s : Scheduler n R) (thread_id : Nat) :
    Except String (Scheduler n R) :=
  moveToSmall again s thread_id

/-! ### The hooks -/

/-- `SchedulerPinnedBase::threadStall` and `threadExit`. -/
def leaveRunning (s : System n) (thread_id : Nat) (time : SubsecondTime) :
    Except String (System n) :=
  match (s.m_thread_info thread_id).m_core_running with
  | some core_id => reschedule again s time core_id
  | none => .ok s

/-- `SchedulerDynamic::__threadStall` and `threadStall`. -/
def threadStall (s : Scheduler n R) (thread_id : Nat) (time : SubsecondTime) :
    Except String (Scheduler n R) :=
  let s := { s with system := s.system.setRunnable thread_id false }
  (if s.m_thread_isbig thread_id then
    pickBigThread rng_next again s >>= fun s => moveToSmall again s thread_id
  else .ok s) >>= fun s =>
  s.withSystem (leaveRunning again s.system thread_id time)

/-- `SchedulerDynamic::__threadExit` and `threadExit`. -/
def threadExit (s : Scheduler n R) (thread_id : Nat) (time : SubsecondTime) :
    Except String (Scheduler n R) :=
  let s := { s with system := s.system.setRunnable thread_id false }
  (if s.m_thread_isbig thread_id then pickBigThread rng_next again s else .ok s) >>= fun s =>
  s.withSystem (leaveRunning again s.system thread_id time)

/-- The first loop of `periodic`: threads are moved back to the small cores. -/
def moveAllToSmall : List Nat → Scheduler n R → Except String (Scheduler n R)
  | [], s => .ok s
  | thread_id :: rest, s =>
    (if s.m_thread_isbig thread_id then moveToSmall again s thread_id else .ok s) >>=
    moveAllToSmall rest

/-- The second loop of `periodic`: as many threads are promoted. -/
def pickBigThreads : Nat → Scheduler n R → Except String (Scheduler n R)
  | 0, s => .ok s
  | i + 1, s => pickBigThread rng_next again s >>= pickBigThreads i

def periodic (s : Scheduler n R) (time : SubsecondTime) : Except String (Scheduler n R) :=
  (if s.m_last_reshuffle + s.system.m_quantum < time then
    moveAllToSmall again (List.range s.system.num_threads) s >>= fun s =>
    pickBigThreads rng_next again (min s.m_num_big_cores s.system.num_threads) s >>= fun s =>
    .ok { s with m_last_reshuffle := time }
  else .ok s) >>= fun s =>
  s.withSystem (Pinned.periodic again s.system time)

/-! ### Calls -/

/-- `threadCreate`: the affinity is the one that has been set. -/
def threadCreate (s : Scheduler n R) (thread_id : Nat) :
    Except String (Option (Fin n) × Scheduler n R) :=
  (if (s.system.m_thread_info thread_id).m_has_affinity then .ok s
  else threadSetInitialAffinity again s thread_id) >>= fun s =>
  let (core_id, system) :=
    Pinned.threadCreate s.system thread_id (s.system.m_thread_info thread_id).m_core_affinity
  .ok (core_id, { s with system := system })

/-- `ThreadManager::createThread_unlocked`. -/
def createThread (s : Scheduler n R) : Except String (Scheduler n R) :=
  let thread_id := s.system.num_threads
  let system := { s.system with num_threads := s.system.num_threads + 1 }
  threadCreate again { s with system := system.setStatus thread_id .INITIALIZING } thread_id >>=
  fun (core_id, s) =>
  match core_id with
  | none => .ok s
  | some core_id =>
    s.withSystem (s.system.setCore thread_id (some core_id) >>= fun system =>
      .ok (system.setCoreState core_id .INITIALIZING))

/-- `ThreadManager::stallThread_async`. -/
def stallThread (s : Scheduler n R) (thread_id : Nat) (stall_reason : StallType)
    (time : SubsecondTime) : Except String (Scheduler n R) :=
  let s := { s with
    system := { s.system with
      thread_state :=
        update s.system.thread_state thread_id ⟨.STALLED, stall_reason⟩ } }
  if stall_reason = .STALL_UNSCHEDULED then .ok s
  else threadStall rng_next again s thread_id time

/-- `ThreadManager::onThreadExit`, without those it wakes up first. -/
def onThreadExit (s : Scheduler n R) (thread_id : Nat) (time : SubsecondTime) :
    Except String (Scheduler n R) :=
  match s.system.thread_core thread_id with
  | none => .error "Thread ended while not running on a core?"
  | some core_id =>
    if (s.system.thread_state thread_id).status ≠ .RUNNING then .error "status == Core::RUNNING"
    else
      s.withSystem (((s.system.setStatus thread_id .IDLE).setCoreState core_id .IDLE).setCore
        thread_id none) >>= fun s => threadExit rng_next again s thread_id time

inductive Call where
  | threadCreate
  | threadStart (thread_id : Nat) (time : SubsecondTime)
  | threadStall (thread_id : Nat) (stall_reason : StallType) (time : SubsecondTime)
  | threadResume (thread_id : Nat) (time : SubsecondTime)
  | threadExit (thread_id : Nat) (time : SubsecondTime)
  | threadYield (thread_id : Nat) (time : SubsecondTime)
  | periodic (time : SubsecondTime)

def exec (s : Scheduler n R) : Call → Except String (Scheduler n R)
  | .threadCreate => createThread again s
  | .threadStart thread_id time =>
    s.withSystem (onThreadStart again s.system thread_id time)
  | .threadStall thread_id stall_reason time =>
    stallThread rng_next again s thread_id stall_reason time
  | .threadResume thread_id time =>
    s.withSystem (resumeThread again s.system thread_id time)
  | .threadExit thread_id time => onThreadExit rng_next again s thread_id time
  | .threadYield thread_id time =>
    s.withSystem (threadYield again s.system thread_id time)
  | .periodic time => periodic rng_next again s time

end Calls

/-! ### The pools -/

namespace Scheduler
variable (s : Scheduler n R)

/-- The thread exists and has not exited. -/
def Live (thread_id : Nat) : Prop :=
  thread_id < s.system.num_threads ∧ (s.system.thread_state thread_id).status ≠ .IDLE

instance (thread_id : Nat) : Decidable (s.Live thread_id) := inferInstanceAs (Decidable (_ ∧ _))

/-- The number of threads on the big cores that have not exited. -/
def bigThreads : Nat :=
  (List.range s.system.num_threads).countP fun thread_id =>
    s.m_thread_isbig thread_id && decide (s.Live thread_id)

/-- The cores that a thread may run on. -/
def affinity (thread_id : Nat) : Fin n → Bool :=
  (s.system.m_thread_info thread_id).m_core_affinity

/-- The affinity of each pool of threads. -/
def mask (isbig : Bool) : Fin n → Bool := if isbig then s.m_mask_big else s.m_mask_small

end Scheduler

/-- No thread starts, stalls, resumes or exits that does not exist or has exited. -/
def Allowed (s : Scheduler n R) : Call → Prop
  | .threadStart thread_id _ | .threadStall thread_id _ _ | .threadResume thread_id _
  | .threadExit thread_id _ => s.Live thread_id
  | .threadCreate | .threadYield _ _ | .periodic _ => True

instance (s : Scheduler n R) (call : Call) : Decidable (Allowed s call) :=
  match call with
  | .threadStart thread_id _ | .threadStall thread_id _ _ | .threadResume thread_id _
  | .threadExit thread_id _ => inferInstanceAs (Decidable (s.Live thread_id))
  | .threadCreate | .threadYield _ _ | .periodic _ => instDecidableTrue

/-- A call that returns, at whatever times its changes of affinity are made. -/
def Step (rng_next : R → Nat × R) (s s' : Scheduler n R) : Prop :=
  ∃ depth elapsed call, Allowed s call ∧
    exec rng_next (reenter depth) { s with elapsed := elapsed } call = .ok s'

end Sniper.Threads.BigSmall
