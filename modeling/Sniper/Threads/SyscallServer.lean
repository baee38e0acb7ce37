import Sniper.Lib.Parking
import Sniper.Lib.Simulation
import Sniper.Threads.Manager

/-! # The system call server

Sleeping threads and futexes of `SyscallServer`. A futex is found by the physical address of
its word; what the server reads from simulated memory (the futex word, the timeout) comes
with the call. A call that stalls its thread ends, for the server, when the thread is
stalled; the thread's own return value is then the `msg` of its wake-up.
-/
namespace Sniper.Threads.Syscall
open Lib.Parking Lib.Simulation

/-- The `int` of the futex interface. -/
abbrev CInt := BitVec 32

/-- `SubsecondTime::MaxTime()`. -/
def MaxTime : SubsecondTime := 0xffffffffffffffff

/-- `SimFutex::Waiter`. -/
structure Waiter (T : Type) where
  thread_id : T
  mask : CInt
  timeout : SubsecondTime
  deriving DecidableEq

/-- `SyscallServer` and the thread manager it calls; an address without an entry in
`m_futexes` has no waiters. -/
structure Server (T A : Type) where
  m_sleeping : List (Waiter T)
  m_futexes : A → List (Waiter T)
  m_reschedule_cost : SubsecondTime
  tm : Manager T

variable {T V A : Type} [DecidableEq T] [DecidableEq V] [DecidableEq A]

/-! ### Futex calls -/

/-- The commands the server handles, by their number after the private flag is removed. -/
inductive Cmd where
  | FUTEX_WAIT | FUTEX_WAKE | FUTEX_CMP_REQUEUE | FUTEX_WAKE_OP | FUTEX_WAIT_BITSET
  | FUTEX_WAKE_BITSET
  deriving DecidableEq

/-- `(args.op & FUTEX_CMD_MASK) & ~FUTEX_PRIVATE_FLAG`. -/
def Cmd.ofOp (op : CInt) : Option Cmd :=
  let cmd := (op &&& 0x7f) &&& ~~~128
  if cmd = 0 then some .FUTEX_WAIT
  else if cmd = 1 then some .FUTEX_WAKE
  else if cmd = 4 then some .FUTEX_CMP_REQUEUE
  else if cmd = 5 then some .FUTEX_WAKE_OP
  else if cmd = 9 then some .FUTEX_WAIT_BITSET
  else if cmd = 10 then some .FUTEX_WAKE_BITSET
  else none

def FUTEX_BITSET_MATCH_ANY : CInt := 0xffffffff

/-- `mask & it->mask` as a condition. -/
def meets (mask : CInt) (w : Waiter T) : Bool := decide (mask &&& w.mask ≠ 0)

/-- `futex_args_t`, with the time span a non-null `timeout` points to. -/
structure FutexArgs (V : Type) where
  uaddr : V
  op : CInt
  val : CInt
  timeout : Option SubsecondTime
  val2 : CInt
  uaddr2 : V
  val3 : CInt

/-- What the call reads besides its arguments: the word at `uaddr`, the word at `uaddr2`, and
whether the caller's core has executed an instruction. -/
structure Reads where
  act_val : CInt
  oldval : CInt
  executed : Bool

/-- What a call gives back: its result and end time, or `none` when its thread is stalled. -/
abbrev Reply := Option (Int × SubsecondTime)

def EWOULDBLOCK : Int := 11

/-- The rounds of `for (int i = 0; i < n; i++)`. -/
def rounds (n : CInt) : Nat := n.toInt.toNat

/-- `futexDoOp`: the new value of the word and whether the comparison holds. -/
def futexDoOp (encoded_op oldval : CInt) : Except String (CInt × Bool) := do
  let op := (encoded_op.sshiftRight 28) &&& 7
  let cmp := (encoded_op.sshiftRight 24) &&& 15
  let oparg := (encoded_op <<< 8).sshiftRight 20
  let cmparg := (encoded_op <<< 20).sshiftRight 20
  let oparg := if encoded_op &&& ((8 : CInt) <<< 28) ≠ 0 then (1 : CInt) <<< oparg else oparg
  let newval ←
    if op = 0 then pure oparg
    else if op = 1 then pure (oldval + oparg)
    else if op = 2 then pure (oldval ||| oparg)
    else if op = 3 then pure (oldval &&& ~~~oparg)
    else if op = 4 then pure (oldval ^^^ oparg)
    else throw "futexWakeOp: unknown op"
  let ret ←
    if cmp = 0 then pure (decide (oldval = cmparg))
    else if cmp = 1 then pure (decide (oldval ≠ cmparg))
    else if cmp = 2 then pure (oldval.slt cmparg)
    else if cmp = 5 then pure (cmparg.sle oldval)
    else if cmp = 3 then pure (oldval.sle cmparg)
    else if cmp = 4 then pure (cmparg.slt oldval)
    else throw "futexWakeOp: unknown cmp"
  pure (newval, ret)

namespace Server
variable (s : Server T A)

def setFutex (a : A) (q : List (Waiter T)) : Server T A :=
  { s with m_futexes := Function.update s.m_futexes a q }

def stallThread (thread_id : T) (reason : StallType) : Server T A :=
  { s with tm := s.tm.stallThread thread_id reason }

def resumeThread (thread_id : T) (thread_by : Option T) (time : SubsecondTime) (msg : Bool) :
    Server T A :=
  { s with tm := s.tm.resumeThread thread_id thread_by time msg }

/-! ### `SimFutex` -/

/-- `enqueueWaiter`, up to the stall of the thread. -/
def enqueueWaiter (a : A) (thread_id : T) (mask : CInt) (timeout_time : SubsecondTime) :
    Server T A :=
  (s.setFutex a (s.m_futexes a ++ [⟨thread_id, mask, timeout_time⟩])).stallThread thread_id
    .STALL_FUTEX

/-- `dequeueWaiter`: the first waiter whose mask meets `mask` is woken; `none` is
`INVALID_THREAD_ID`. -/
def dequeueWaiter (a : A) (thread_by : T) (mask : CInt) (time : SubsecondTime) :
    Option T × Server T A :=
  match takeFirst (meets mask) (s.m_futexes a) with
  | none => (none, s)
  | some (waiter, rest) => (some waiter.thread_id,
      (s.setFutex a rest).resumeThread waiter.thread_id (some thread_by) time true)

/-- `requeueWaiter`: the front waiter moves to the end of the other futex. -/
def requeueWaiter (a requeue : A) : Option T × Server T A :=
  match s.m_futexes a with
  | [] => (none, s)
  | waiter :: rest =>
    let s := s.setFutex a rest
    (some waiter.thread_id, s.setFutex requeue (s.m_futexes requeue ++ [waiter]))

/-- `wakeTimedOut`: one waiter whose timeout has passed. -/
def wakeTimedOut (time : SubsecondTime) (s : Server T A) (a : A) : Server T A :=
  match takeFirst (fun w => decide (w.timeout ≤ time)) (s.m_futexes a) with
  | none => s
  | some (waiter, rest) => (s.setFutex a rest).resumeThread waiter.thread_id none time false

/-! ### `SyscallServer` -/

def applyRescheduleCost (executed conditional : Bool) : SubsecondTime :=
  if conditional && executed then s.m_reschedule_cost else 0

/-- A loop of `dequeueWaiter`, ended by the first call that wakes nobody: the number woken. -/
def wakeLoop (a : A) (thread_by : T) (mask : CInt) (time : SubsecondTime) :
    Nat → Server T A → Nat × Server T A
  | 0, s => (0, s)
  | left + 1, s =>
    match s.dequeueWaiter a thread_by mask time with
    | (none, s) => (0, s)
    | (some _, s) =>
      let (woken, s) := wakeLoop a thread_by mask time left s
      (woken + 1, s)

/-- The loop of `futexCmpRequeue` that moves waiters until none is left; `none` when `fuel`
runs out. -/
def requeueLoop (a requeue : A) : Nat → Server T A → Option (Server T A)
  | 0, _ => none
  | fuel + 1, s =>
    match s.requeueWaiter a requeue with
    | (none, s) => some s
    | (some _, s) => requeueLoop a requeue fuel s

def futexWait (a : A) (thread_id : T) (val act_val mask : CInt) (curr_time timeout_time :
    SubsecondTime) : Reply × Server T A :=
  if val ≠ act_val then (some (-EWOULDBLOCK, curr_time), s)
  else (none, s.enqueueWaiter a thread_id mask timeout_time)

def futexWake (a : A) (thread_id : T) (nr_wake mask : CInt) (executed : Bool)
    (curr_time : SubsecondTime) : Reply × Server T A :=
  let (woken, s') := wakeLoop a thread_id mask
    (curr_time + s.applyRescheduleCost executed true) (rounds nr_wake) s
  (some (woken, curr_time + s.applyRescheduleCost executed (0 < woken)), s')

def futexWakeOp (a a2 : A) (thread_id : T) (nr_wake nr_wake2 op : CInt) (oldval : CInt)
    (executed : Bool) (curr_time : SubsecondTime) : Except String (Reply × Server T A) := do
  let (_, op_ret) ← futexDoOp op oldval
  let time := curr_time + s.applyRescheduleCost executed true
  let (woken, s₁) := wakeLoop a thread_id FUTEX_BITSET_MATCH_ANY time (rounds nr_wake) s
  let (woken2, s₂) :=
    if op_ret then wakeLoop a2 thread_id FUTEX_BITSET_MATCH_ANY time (rounds nr_wake2) s₁
    else (0, s₁)
  pure (some ((woken + woken2 : Nat),
    curr_time + s.applyRescheduleCost executed (0 < woken + woken2)), s₂)

def futexCmpRequeue (fuel : Nat) (a a2 : A) (thread_id : T) (val val3 act_val : CInt)
    (curr_time : SubsecondTime) : Option (Reply × Server T A) :=
  if val3 ≠ act_val then some (some (-EWOULDBLOCK, curr_time), s)
  else
    let (woken, s₁) :=
      wakeLoop a thread_id FUTEX_BITSET_MATCH_ANY curr_time (rounds val) s
    (requeueLoop a a2 fuel s₁).map fun s₂ => (some ((woken : Nat), curr_time), s₂)

def handleSleepCall (thread_id : T) (wake_time : SubsecondTime) : Server T A :=
  stallThread { s with m_sleeping := s.m_sleeping ++ [⟨thread_id, 0, wake_time⟩] } thread_id
    .STALL_SLEEP

end Server

/-- Why a call does not return. -/
inductive Stop where
  | error (text : String)
  | unfinished
  deriving DecidableEq

namespace Server

/-- The timeout of a waiting call: absolute with a bit set, relative without. -/
def timeoutTime (cmd : Cmd) (timeout : Option SubsecondTime) (curr_time : SubsecondTime) :
    SubsecondTime :=
  match timeout with
  | none => MaxTime
  | some timeout_val => if cmd = .FUTEX_WAIT_BITSET then timeout_val else curr_time + timeout_val

/-- `handleFutexCall`. In the waking branch the command is never `FUTEX_WAIT_BITSET`, so every
wake has the mask that matches any waiter. -/
def handleFutexCall (va2pa : T → V → A) (fuel : Nat) (s : Server T A) (thread_id : T)
    (args : FutexArgs V) (reads : Reads) (curr_time : SubsecondTime) :
    Except Stop (Reply × Server T A) :=
  let a := va2pa thread_id args.uaddr
  let a2 := va2pa thread_id args.uaddr2
  match Cmd.ofOp args.op with
  | none => .error (.error "op")
  | some cmd =>
    match cmd with
    | .FUTEX_WAIT | .FUTEX_WAIT_BITSET =>
      .ok (s.futexWait a thread_id args.val reads.act_val
        (if cmd = .FUTEX_WAIT_BITSET then args.val3 else FUTEX_BITSET_MATCH_ANY) curr_time
        (timeoutTime cmd args.timeout curr_time))
    | .FUTEX_WAKE | .FUTEX_WAKE_BITSET =>
      .ok (s.futexWake a thread_id args.val
        (if cmd = .FUTEX_WAIT_BITSET then args.val3 else FUTEX_BITSET_MATCH_ANY)
        reads.executed curr_time)
    | .FUTEX_WAKE_OP =>
      match s.futexWakeOp a a2 thread_id args.val args.val2 args.val3 reads.oldval
        reads.executed curr_time with
      | .error text => .error (.error text)
      | .ok r => .ok r
    | .FUTEX_CMP_REQUEUE =>
      if args.uaddr = args.uaddr2 then .error (.error "FUTEX_CMP_REQUEUE: uaddr == uaddr2")
      else
        match s.futexCmpRequeue fuel a a2 thread_id args.val args.val3 reads.act_val
          curr_time with
        | none => .error .unfinished
        | some r => .ok r

/-- The first loop of `futexPeriodic`: one sleeping thread whose time has come. -/
def wakeSleeping (s : Server T A) (time : SubsecondTime) : Server T A :=
  match takeFirst (fun w => decide (w.timeout ≤ time)) s.m_sleeping with
  | none => s
  | some (waiter, rest) => resumeThread { s with m_sleeping := rest } waiter.thread_id
      (some waiter.thread_id) time false

/-- `futexPeriodic`; `order` is the order in which the futexes are walked. -/
def futexPeriodic (s : Server T A) (order : List A) (time : SubsecondTime) : Server T A :=
  order.foldl (wakeTimedOut time) (s.wakeSleeping time)

/-! ### Runs -/

end Server

/-- The reasons for which the server stalls. -/
def reasons : List StallType := [.STALL_FUTEX, .STALL_SLEEP]

namespace Server

/-- The server stalled the thread and has not resumed it. -/
def Stalled (s : Server T A) (t : T) : Prop := (s.tm.m_thread_state t).StalledFor reasons

def Running (s : Server T A) (t : T) : Prop := (s.tm.m_thread_state t).status = .RUNNING

end Server

/-- A call by a running thread, a walk over the timeouts that visits each futex with waiters
once, or a change of a thread the server has not stalled. -/
inductive Step (va2pa : T → V → A) : Server T A → Server T A → Prop
  | sleep {s : Server T A} (t : T) (wake_time : SubsecondTime) (ht : s.Running t) :
      Step va2pa s (s.handleSleepCall t wake_time)
  | futex {s : Server T A} (fuel : Nat) (t : T) (args : FutexArgs V) (reads : Reads)
      (curr_time : SubsecondTime) {reply s'} (ht : s.Running t)
      (h : s.handleFutexCall va2pa fuel t args reads curr_time = .ok (reply, s')) :
      Step va2pa s s'
  | periodic {s : Server T A} (order : List A) (time : SubsecondTime) (hn : order.Nodup)
      (ho : ∀ a, s.m_futexes a ≠ [] → a ∈ order) : Step va2pa s (s.futexPeriodic order time)
  | elsewhere {s : Server T A} (t : T) (state : ThreadState) (ht : ¬ s.Stalled t)
      (hs : ¬ state.StalledFor reasons) :
      Step va2pa s { s with tm.m_thread_state := Function.update s.tm.m_thread_state t state }

/-- Nobody sleeps, no futex has waiters and no thread is stalled by the server. -/
structure Init (s : Server T A) : Prop where
  sleeping : s.m_sleeping = []
  futexes : ∀ a, s.m_futexes a = []
  free : ∀ t, ¬ s.Stalled t
  resumed : s.tm.resumed = []

def Runs (va2pa : T → V → A) : Server T A → Prop := Reachable Init (Step va2pa)

end Sniper.Threads.Syscall
