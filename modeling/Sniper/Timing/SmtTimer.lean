import Sniper.Lib.Simulation

/-! # The barrier of an SMT core

The part of `SmtTimer` by which the hardware threads of one core take turns: a thread with
enough instructions waits in the barrier, and the last to arrive chooses who executes. Every
function runs under `m_lock`, which is free only while threads wait on their conditions and
while the executing thread is in the global barrier (`in_sync`). The number of instructions
a hardware thread has left is what the derived class says at the time. There are at most 255
hardware threads, identifiers being 8 bits wide.
-/
namespace Sniper.Timing.Smt
open Function

/-- `SmtTimer::SmtThread`; its condition is the number of threads that wait on it. -/
structure SmtThread (T : Type) where
  thread : Option T
  in_wakeup : Bool
  running : Bool
  in_barrier : Bool
  waiting : Nat

/-- `threadNumSurplusInstructions` and `threadHasEnoughInstructions` of each thread. -/
structure Counts (k : Nat) where
  surplus : Fin k → UInt64
  hasEnough : Fin k → Bool

/-- `SmtTimer`. `woken` counts those signalled that wait for `m_lock`, `syncing` lists those in
`client->synchronize()`, and `executed` counts the returns of true from `barrier`. -/
structure Timer (k : Nat) (T C : Type) where
  m_threads : Fin k → SmtThread T
  core : Fin k → C
  in_sync : Bool
  enabled : Bool
  execute_thread : Option (Fin k)
  counts : Counts k
  woken : Fin k → Nat
  syncing : List (Fin k)
  executed : Nat

/-- Why a call does not return: an assertion, or a loop that does not end. -/
inductive Stop where
  | assertion
  | diverges

variable {k : Nat} {T C : Type}

/-- The counts are of instructions that are in memory. -/
def Counts.Small (counts : Counts k) : Prop := ∀ e, (counts.surplus e).toNat < 2 ^ 63

namespace Timer
variable (s : Timer k T C)

def setThread (e : Fin k) (thread : SmtThread T) : Timer k T C :=
  { s with m_threads := update s.m_threads e thread }

/-- `cond.signal()`: one of the waiting threads is woken. -/
def signalCond (e : Fin k) : Timer k T C :=
  if (s.m_threads e).waiting = 0 then s
  else
    { s.setThread e { s.m_threads e with waiting := (s.m_threads e).waiting - 1 } with
      woken := update s.woken e (s.woken e + 1) }

/-- `cond.wait(m_lock)`. -/
def waitCond (e : Fin k) : Timer k T C :=
  s.setThread e { s.m_threads e with waiting := (s.m_threads e).waiting + 1 }

def setInBarrier (e : Fin k) (in_barrier : Bool) : Timer k T C :=
  s.setThread e { s.m_threads e with in_barrier := in_barrier }

def setRunning (e : Fin k) (running : Bool) : Timer k T C :=
  s.setThread e { s.m_threads e with running := running }

def setExecute (e : Option (Fin k)) : Timer k T C := { s with execute_thread := e }

def isBarrierReached : Bool :=
  !s.in_sync &&
    !((List.finRange k).any fun e =>
      (s.m_threads e).running && !(s.m_threads e).in_barrier) &&
    (List.finRange k).any fun e => (s.m_threads e).in_barrier

/-- The timer and the local variables of `barrierRelease`. -/
structure Release (k : Nat) (T C : Type) where
  timer : Timer k T C
  release_me : Bool
  num_running : Nat

/-- A waiting thread is released, or the caller is told to go on. -/
def Release.wake (r : Release k T C) (thread_id : Option (Fin k)) (e : Fin k) :
    Release k T C :=
  if thread_id = some e then { r with release_me := true }
  else { r with timer := (r.timer.setInBarrier e false).signalCond e }

def Release.count (r : Release k T C) (e : Fin k) : Release k T C :=
  if (r.timer.m_threads e).running then { r with num_running := r.num_running + 1 } else r

/-- The first loop of `barrierRelease`: those of whom more instructions are wanted. -/
def wantedLoop (release_all : Bool) (thread_id : Option (Fin k)) :
    List (Fin k) → Release k T C → Release k T C
  | [], r => r
  | e :: rest, r =>
    if (r.timer.m_threads e).in_barrier = false then
      wantedLoop release_all thread_id rest (r.count e)
    else if r.timer.counts.hasEnough e then wantedLoop release_all thread_id rest r
    else
      let r := (r.count e).wake thread_id e
      if release_all then wantedLoop release_all thread_id rest r
      else { r with timer := r.timer.setExecute (some e) }

/-- One round of the second loop of `barrierRelease`: those with few instructions left. -/
def surplusLoop (release_all : Bool) (thread_id : Option (Fin k)) (limit : UInt64) :
    List (Fin k) → Release k T C → Release k T C
  | [], r => r
  | e :: rest, r =>
    if (r.timer.m_threads e).in_barrier ∧ (r.timer.m_threads e).running ∧
        r.timer.counts.surplus e < limit then
      let r := Release.wake { r with num_running := r.num_running + 1 } thread_id e
      if release_all then surplusLoop release_all thread_id limit rest r
      else { r with timer := r.timer.setExecute (some e) }
    else surplusLoop release_all thread_id limit rest r

/-- The second loop of `barrierRelease`, with the number of rounds after which `limit` has
become zero: no round after those releases anybody. -/
def forceLoop (release_all : Bool) (thread_id : Option (Fin k)) :
    Nat → UInt64 → Release k T C → Option (Release k T C)
  | 0, _, r => if r.num_running = 0 then none else some r
  | rounds + 1, limit, r =>
    if r.num_running = 0 then
      forceLoop release_all thread_id rounds (limit <<< 1)
        (surplusLoop release_all thread_id limit (List.finRange k) r)
    else some r

/-- `barrierRelease`; `none` when it does not return. -/
def barrierRelease (release_all : Bool) (thread_id : Option (Fin k)) :
    Option (Bool × Timer k T C) :=
  let s := { s.setExecute thread_id with executed := 0 }
  let r := wantedLoop release_all thread_id (List.finRange k) ⟨s, false, 0⟩
  (forceLoop release_all thread_id 64 1 r).map fun r => (r.release_me, r.timer)

/-- The end of `simulate` after a `barrier` that returned: the thread that executes gives up
`m_lock` in the global barrier, if the core has one; `counts` is what `execute` leaves. -/
def proceed (client : Bool) (counts : Counts k) (e : Fin k) : Except Stop (Timer k T C) :=
  if s.execute_thread = some e then
    let s := { s with executed := s.executed + 1, counts := counts, execute_thread := none }
    if client then .ok { s with in_sync := true, syncing := e :: s.syncing }
    else
      match s.barrierRelease true (some e) with
      | none => .error .diverges
      | some (_, s) => .ok s
  else .ok s

/-- `simulate` and `barrier`, until the thread waits or gives up `m_lock`. -/
def simulate (client : Bool) (counts : Counts k) (e : Fin k) : Except Stop (Timer k T C) :=
  if s.counts.surplus e ≤ 128 then .ok s
  else if s.enabled = false then .ok s
  else if (s.m_threads e).thread.isNone then .error .assertion
  else
    let s := s.setInBarrier e true
    if s.isBarrierReached then
      match s.barrierRelease false (some e) with
      | none => .error .diverges
      | some (true, s) => (s.setInBarrier e false).proceed client counts e
      | some (false, s) => .ok (s.waitCond e)
    else .ok (s.waitCond e)

/-- A woken thread gets `m_lock` and goes on in `simulate`. -/
def resume (client : Bool) (counts : Counts k) (e : Fin k) : Except Stop (Timer k T C) :=
  { s with woken := update s.woken e (s.woken e - 1) }.proceed client counts e

variable [DecidableEq T] [DecidableEq C]

/-- The rest of `simulate` after `client->synchronize()`. -/
def syncReturn (e : Fin k) : Except Stop (Timer k T C) :=
  let s := { s with in_sync := false, syncing := s.syncing.erase e }
  match s.barrierRelease true (some e) with
  | none => .error .diverges
  | some (_, s) => .ok s

def signalBarrier : Except Stop (Timer k T C) :=
  if s.isBarrierReached then
    match s.barrierRelease false none with
    | none => .error .diverges
    | some (_, s) => .ok s
  else .ok s

def findSmtThreadFromThread (thread_id : T) : Option (Fin k) :=
  (List.finRange k).find? fun e => decide ((s.m_threads e).thread = some thread_id)

/-- `findSmtThreadFromCore`; `none` is the invalid core. -/
def findSmtThreadFromCore (core_id : Option C) : Option (Fin k) :=
  (List.finRange k).find? fun e => decide (some (s.core e) = core_id)

def threadStart (thread_id : T) : Timer k T C :=
  match s.findSmtThreadFromThread thread_id with
  | some e => s.setRunning e true
  | none => s

/-- `threadExit` and `threadStall`. -/
def threadStall (thread_id : T) : Except Stop (Timer k T C) :=
  match s.findSmtThreadFromThread thread_id with
  | some e => (s.setRunning e false).signalBarrier
  | none => s.signalBarrier

def threadResume (thread_id : T) : Timer k T C :=
  match s.findSmtThreadFromThread thread_id with
  | some e => s.setThread e { s.m_threads e with in_wakeup := true, running := true }
  | none => s

/-- The first half of `threadMigrate`: the thread leaves this timer. -/
def depart (thread_id : T) : Timer k T C :=
  match s.findSmtThreadFromThread thread_id with
  | some e =>
    let s := s.setThread e { s.m_threads e with running := false, thread := none }
    if (s.m_threads e).in_barrier then (s.setInBarrier e false).signalCond e else s
  | none => s

/-- The second half of `threadMigrate`: the thread comes to a core of this timer. -/
def arrive (thread_id : T) (core_id : Option C) : Timer k T C :=
  match s.findSmtThreadFromCore core_id with
  | some e => s.setThread e { s.m_threads e with
      in_wakeup := true, running := true, thread := some thread_id }
  | none => s

def threadMigrate (thread_id : T) (core_id : Option C) : Timer k T C :=
  (s.depart thread_id).arrive thread_id core_id

def disable : Timer k T C :=
  (List.finRange k).foldl (fun s e =>
    if (s.m_threads e).in_barrier then (s.setInBarrier e false).signalCond e else s)
    { s with enabled := false }

/-! ### The system -/

end Timer

inductive Call (k : Nat) (T C : Type) where
  | simulate (e : Fin k) (counts : Counts k)
  | resume (e : Fin k) (counts : Counts k)
  | syncReturn (e : Fin k)
  | threadStart (thread_id : T)
  | threadExit (thread_id : T)
  | threadStall (thread_id : T)
  | threadResume (thread_id : T)
  | threadMigrate (thread_id : T) (core_id : Option C)
  | enable
  | disable
  | pushInstructions (counts : Counts k)

namespace Timer
variable [DecidableEq T] [DecidableEq C]

def exec (client : Bool) (s : Timer k T C) : Call k T C → Except Stop (Timer k T C)
  | .simulate e counts => s.simulate client counts e
  | .resume e counts => s.resume client counts e
  | .syncReturn e => s.syncReturn e
  | .threadStart thread_id => .ok (s.threadStart thread_id)
  | .threadExit thread_id | .threadStall thread_id => s.threadStall thread_id
  | .threadResume thread_id => .ok (s.threadResume thread_id)
  | .threadMigrate thread_id core_id => .ok (s.threadMigrate thread_id core_id)
  | .enable => .ok { s with enabled := true }
  | .disable => .ok s.disable
  | .pushInstructions counts => .ok { s with counts := counts }

/-- The calls that can come: a thread goes on after it has been signalled, and returns from
the global barrier after it has entered it. -/
def Allowed (s : Timer k T C) : Call k T C → Prop
  | .simulate _ counts => counts.Small
  | .resume e counts => 0 < s.woken e ∧ counts.Small
  | .syncReturn e => e ∈ s.syncing
  | .pushInstructions counts => counts.Small
  | _ => True

/-- After the constructor and the registration of the threads. -/
structure Init (s : Timer k T C) : Prop where
  few : k < 256
  threads : ∀ e, s.m_threads e = ⟨none, false, false, false, 0⟩
  released : s.in_sync = false
  execute : s.execute_thread = (List.finRange k).head?
  small : s.counts.Small
  woken : ∀ e, s.woken e = 0
  syncing : s.syncing = []
  executed : s.executed = 0

def Step (client : Bool) (s s' : Timer k T C) : Prop :=
  ∃ call, s.Allowed call ∧ s.exec client call = .ok s'

end Timer
end Sniper.Timing.Smt
