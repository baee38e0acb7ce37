import Mathlib.Algebra.Ring.Int.Defs
import Sniper.Threads.PinnedConservation

/-! # The sequential scheduler

`SchedulerSequential` over the pinned scheduler: every set of pinballs is executed on a core of
its own, one after the other. Sizes are the numbers that the sequence is made of. No scripts are
called by the hooks.
-/
namespace Sniper.Threads.Sequential
open Pinned Function

/-- `SchedulerSequential`, with the scheduler it is derived from. A priority queue is its
elements in order. -/
structure Scheduler (n : Nat) where
  system : System n
  seqs : List Int
  current_pinball_set : Nat
  core_waiting_threads : Fin n → List Nat
  next_thread_to_execute : Fin n → Int

variable {n : Nat}

/-- `NS(10000000000)`. -/
def quantum : SubsecondTime := 10000000000 * 1000000

/-- The constructor of `SchedulerPinnedBase`, before any thread exists. -/
def pinnedBase (n : Nat) (m_quantum : SubsecondTime) : System n where
  m_quantum := m_quantum
  m_last_periodic := 0
  m_thread_info _ := ⟨false, false, fun _ => false, none, 0, 0⟩
  m_core_thread_running _ := none
  m_quantum_left _ := 0
  m_threads_runnable _ := false
  m_threads_runnable_size := 16
  num_threads := 0
  thread_state _ := ⟨.IDLE, .STALL_UNSCHEDULED⟩
  thread_core _ := none
  core_state _ := .IDLE
  core_thread _ := none
  scripts := []

/-- The loop of the constructor over the cores: the first thread of each. -/
def firstThreads : Nat → List Int → Int → Except String (List Int)
  | 0, _, _ => .ok []
  | _ + 1, [], _ => .error "vector::_M_range_check"
  | cores + 1, size :: seqs, next_tte =>
    firstThreads cores seqs (next_tte + size) >>= fun rest => .ok (next_tte :: rest)

/-- The scheduler that is constructed. -/
def constructed (n : Nat) (seqs next_thread_to_execute : List Int) : Scheduler n where
  system := pinnedBase n quantum
  seqs := seqs
  current_pinball_set := 0
  core_waiting_threads _ := []
  next_thread_to_execute c := next_thread_to_execute.getD c.val 0

def constructor (n : Nat) (seqs : List Int) : Except String (Scheduler n) :=
  if n < seqs.length then
    .error "Not enought cores. Every pinballs set must be executed on a different core."
  else
    firstThreads n seqs 0 >>= fun next_thread_to_execute =>
    .ok (constructed n seqs next_thread_to_execute)

namespace Scheduler
variable (s : Scheduler n)

/-- `threadSetInitialAffinity`: the core, and the scheduler afterwards. -/
def threadSetInitialAffinity : Except String (Fin n × Scheduler n) :=
  if h : s.current_pinball_set < n then
    match s.seqs[s.current_pinball_set]? with
    | none => .error "index out of range"
    | some left => .ok (⟨s.current_pinball_set, h⟩,
      { s with
        seqs := s.seqs.set s.current_pinball_set (left - 1)
        current_pinball_set :=
          if left - 1 = 0 then s.current_pinball_set + 1 else s.current_pinball_set })
  else .error "index out of range"

/-- The core that a thread's affinity is read as: the number at the start of the string. -/
def affinityCore (thread_id : Nat) : Nat :=
  match (List.finRange n).find? (s.system.m_thread_info thread_id).m_core_affinity with
  | some c => c.val
  | none => 0

def threadStart (thread_id : Nat) : Except String (Scheduler n) :=
  if h : s.affinityCore thread_id < n then
    let core_id : Fin n := ⟨s.affinityCore thread_id, h⟩
    if s.system.m_core_thread_running core_id = some thread_id then
      .ok { s with
        next_thread_to_execute := update s.next_thread_to_execute core_id
          (s.next_thread_to_execute core_id + 1) }
    else
      .ok { s with
        system := s.system.setRunnable thread_id false
        core_waiting_threads := update s.core_waiting_threads core_id
          ((s.core_waiting_threads core_id).orderedInsert (· ≤ ·) thread_id) }
  else .error "index out of range"

/-- The next thread of the queue may run. -/
def takeNext (core_id : Fin n) (next_thread : Nat) (rest : List Nat) : Scheduler n :=
  { s with
    core_waiting_threads := update s.core_waiting_threads core_id rest
    system := s.system.setRunnable next_thread true
    next_thread_to_execute := update s.next_thread_to_execute core_id
      (s.next_thread_to_execute core_id + 1) }

/-- The thread runs if it has a core; otherwise it waits for one. -/
def setStarted (thread_id : Nat) : Scheduler n :=
  match s.system.thread_core thread_id with
  | some core_id =>
    { s with system := (s.system.setCoreState core_id .RUNNING).setStatus thread_id .RUNNING }
  | none =>
    { s with
      system := { s.system with
        thread_state :=
          update s.system.thread_state thread_id ⟨.STALLED, .STALL_UNSCHEDULED⟩ } }

/-- The scheduler with what a call makes of the system. -/
def withSystem (system : Except String (System n)) : Except String (Scheduler n) :=
  system.map fun system => { s with system := system }

end Scheduler

section Calls
variable (again : Reentry n → System n → Except String (System n))

/-- `SchedulerDynamic::__threadExit` and `threadExit`. -/
def threadExit (s : Scheduler n) (thread_id : Nat) (time : SubsecondTime) :
    Except String (Scheduler n) :=
  let s := { s with
    system := (s.system.setRunnable thread_id false).setLastScheduledOut thread_id time }
  if h : s.affinityCore thread_id < n then
    let core_id : Fin n := ⟨s.affinityCore thread_id, h⟩
    match s.core_waiting_threads core_id with
    | [] => .ok s
    | next_thread :: rest =>
      if (next_thread : Int) ≠ s.next_thread_to_execute core_id then .ok s
      else
        let s := s.takeNext core_id next_thread rest
        s.withSystem (reschedule again s.system time core_id)
  else .error "index out of range"

/-- `ThreadManager::createThread_unlocked`, with an affinity that is explicit. -/
def createThread (s : Scheduler n) : Except String (Scheduler n) :=
  let thread_id := s.system.num_threads
  let info := s.system.m_thread_info thread_id
  if info.m_has_affinity then s.withSystem (Pinned.createThread s.system fun _ => false)
  else
    s.threadSetInitialAffinity >>= fun (core, s) =>
    s.withSystem (Pinned.createThread
      (s.system.setInfo thread_id { info with m_explicit_affinity := true })
      fun c => decide (c = core))

/-- `ThreadManager::onThreadStart`, with `SchedulerDynamic::__threadStart`. -/
def onThreadStart (s : Scheduler n) (thread_id : Nat) : Except String (Scheduler n) :=
  if s.system.num_threads ≤ thread_id then .error "Invalid thread_id"
  else
    let system := s.system.setStatus thread_id .RUNNING
    let size := system.m_threads_runnable_size
    let size := if size ≤ thread_id then size + 16 else size
    if size ≤ thread_id then .error "index out of range"
    else
      let system := { system with m_threads_runnable_size := size }
      { s with system := system.setRunnable thread_id true }.threadStart thread_id >>= fun s =>
      .ok (s.setStarted thread_id)

/-- `ThreadManager::onThreadExit`, without those it wakes up first. -/
def onThreadExit (s : Scheduler n) (thread_id : Nat) (time : SubsecondTime) :
    Except String (Scheduler n) :=
  match s.system.thread_core thread_id with
  | none => .error "Thread ended while not running on a core?"
  | some core_id =>
    if (s.system.thread_state thread_id).status ≠ .RUNNING then .error "status == Core::RUNNING"
    else
      s.withSystem (((s.system.setStatus thread_id .IDLE).setCoreState core_id .IDLE).setCore
        thread_id none) >>= fun s => threadExit again s thread_id time

end Calls

/-- A thread is created, starts or exits. -/
inductive Call where
  | createThread
  | onThreadStart (thread_id : Nat)
  | onThreadExit (thread_id : Nat) (time : SubsecondTime)

def exec (again : Reentry n → System n → Except String (System n)) (s : Scheduler n) :
    Call → Except String (Scheduler n)
  | .createThread => createThread s
  | .onThreadStart thread_id => onThreadStart s thread_id
  | .onThreadExit thread_id time => onThreadExit again s thread_id time

/-! ### Sets of pinballs -/

/-- The first thread of the set. -/
def first (sizes : List Int) (set : Nat) : Int := (sizes.take set).sum

/-- The thread belongs to the set of the core. -/
def InSet (sizes : List Int) (set t : Nat) : Prop :=
  first sizes set ≤ t ∧ (t : Int) < first sizes (set + 1)

namespace Scheduler
variable (s : Scheduler n)

def Started (t : Nat) : Prop :=
  t < s.system.num_threads ∧ (s.system.thread_state t).status ≠ .INITIALIZING

def Exited (t : Nat) : Prop :=
  t < s.system.num_threads ∧ (s.system.thread_state t).status = .IDLE

instance (t : Nat) : Decidable (s.Started t) := inferInstanceAs (Decidable (_ ∧ _))

instance (t : Nat) : Decidable (s.Exited t) := inferInstanceAs (Decidable (_ ∧ _))

end Scheduler

/-- As many threads are created as the sizes add up to; each starts once, and exits while it runs
on a core. -/
def Allowed (sizes : List Int) (s : Scheduler n) : Call → Prop
  | .createThread => (s.system.num_threads : Int) < sizes.sum
  | .onThreadStart t =>
    t < s.system.num_threads ∧ (s.system.thread_state t).status = .INITIALIZING
  | .onThreadExit t _ => t < s.system.num_threads ∧ s.system.thread_core t ≠ none ∧
    (s.system.thread_state t).status = .RUNNING

instance (sizes : List Int) (s : Scheduler n) (call : Call) : Decidable (Allowed sizes s call) :=
  match call with
  | .createThread => inferInstanceAs (Decidable ((s.system.num_threads : Int) < sizes.sum))
  | .onThreadStart t => inferInstanceAs (Decidable
      (t < s.system.num_threads ∧ (s.system.thread_state t).status = .INITIALIZING))
  | .onThreadExit t _ => inferInstanceAs (Decidable (t < s.system.num_threads ∧
      s.system.thread_core t ≠ none ∧ (s.system.thread_state t).status = .RUNNING))

/-- No thread exits before the next one of its set has started, and none starts that is far
beyond the table of runnable threads. -/
def Careful (sizes : List Int) (s : Scheduler n) : Call → Prop
  | .createThread => True
  | .onThreadStart t => t < s.system.m_threads_runnable_size + 16
  | .onThreadExit t _ =>
    ∀ set, InSet sizes set t → InSet sizes set (t + 1) → s.Started (t + 1)

/-- A call that returns. -/
def Step (sizes : List Int) (s s' : Scheduler n) : Prop :=
  ∃ depth call, Allowed sizes s call ∧ exec (reenter depth) s call = .ok s'

def CarefulStep (sizes : List Int) (s s' : Scheduler n) : Prop :=
  ∃ depth call, Allowed sizes s call ∧ Careful sizes s call ∧ exec (reenter depth) s call = .ok s'

/-- Each core runs the threads of its set, one at a time and in the order of their numbers, and
the next one has the core once the one before it has exited and it has started. -/
structure Right (sizes : List Int) (s : Scheduler n) : Prop where
  home : ∀ t (c : Fin n), s.system.thread_core t = some c → InSet sizes c t
  alone : ∀ t u (c : Fin n), s.system.thread_core t = some c → s.system.thread_core u = some c →
    t = u
  order : ∀ t u (c : Fin n), InSet sizes c t → t < u →
    (s.system.thread_core u = some c ∨ InSet sizes c u ∧ s.Exited u) → s.Exited t
  next : ∀ t (c : Fin n), InSet sizes c t → InSet sizes c (t + 1) → s.Exited t → s.Started (t + 1) →
    s.system.thread_core (t + 1) = some c ∨ s.Exited (t + 1)

end Sniper.Threads.Sequential
