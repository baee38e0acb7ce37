import Mathlib.Algebra.Ring.Int.Defs
import Sniper.Timing.ContentionModel
import Sniper.Timing.Windows

/-! # The interval timer

`IntervalTimer`: micro-ops are added to the window until it is full and then dispatched at a rate
given by the critical path of the old window. Misses, mispredictions, serializing micro-ops and
long-latency loads are charged at once and restart the path. The memory behind the first-level
cache, the decoder and the core model are parameters; what is only counted is left out.
-/
namespace Sniper.Timing

/-- `getBarrierCompletionTime`: all slots are waited for and taken. -/
def ContentionModel.getBarrierCompletionTime (m : ContentionModel) (t_start t_delay tag : Nat) :
    Nat × ContentionModel :=
  match m.m_time with
  | [] => (t_start + t_delay, m)
  | _ :: _ =>
    let max_time := m.m_time.foldl (fun t slot => max t slot.1) t_start
    (max_time + t_delay, { m with m_time := m.m_time.map fun _ => (max_time + t_delay, tag) })

namespace Interval

structure IntervalConfig (Reg C : Type) where
  m_dispatch_width : Nat
  m_branch_misprediction_penalty : Nat
  m_mem_dep_mask : Nat
  m_lll_dep_mask : Nat
  m_do_functional_unit_contention : Bool
  /-- `CoreModel::getLongLatencyCutoff`. -/
  longLatencyCutoff : Nat
  /-- `CoreModel::getBypassLatency`. -/
  bypassLatency : IntervalUop Reg → Nat
  decoder : Decoder Reg
  contention : IntervalContention Reg C
  /-- The latency of an access in cycles, rounded, and where it hits. -/
  accessMemory : IntervalUop Reg → Nat × HitWhere
  /-- The period of the core's frequency domain. -/
  period : Nat

/-- `StopDispatchReason`, the reasons that a micro-op gives. -/
inductive StopDispatchReason where
  | STOP_DISPATCH_NO_REASON
  | STOP_DISPATCH_ICACHE_MISS
  | STOP_DISPATCH_BRANCH_MISPREDICT
  deriving DecidableEq

/-- `FixedPoint::m_one`. -/
def fixedOne : Nat := 0x4000

structure IntervalTimer (Reg C : Type) where
  /-- In parts of `fixedOne`. -/
  m_remaining_dispatch_bandwidth : Nat
  m_max_store_completion_time : Nat
  m_max_load_completion_time : Nat
  m_loadstore_contention : ContentionModel
  m_windows : Windows Reg C
  m_cpContrByType : CpContrType → Nat

def IntervalUop.isLongLatencyLoad {Reg : Type} (uop : IntervalUop Reg) (cutoff : Nat) : Bool :=
  uop.m_forceLongLatencyLoad || (cutoff > 0 && uop.execLatency > cutoff)

namespace IntervalTimer
variable {Reg C : Type} (cfg : IntervalConfig Reg C)

def new (window_size num_outstanding : Nat) (c : C) : IntervalTimer Reg C where
  m_remaining_dispatch_bandwidth := 0
  m_max_store_completion_time := 0
  m_max_load_completion_time := 0
  m_loadstore_contention := ⟨List.replicate num_outstanding (0, 0), 0⟩
  m_windows := .new window_size cfg.contention c
  m_cpContrByType := fun _ => 0

/-- `getEffectiveCriticalPathLength` of the windows. -/
def getEffectiveCriticalPathLength (ws : Windows Reg C) (critical_path_length : Nat)
    (update_reason : Bool) : Nat × Windows Reg C :=
  if !cfg.m_do_functional_unit_contention then (critical_path_length, ws)
  else
    let (length, c) := cfg.contention.getEffectiveCriticalPathLength critical_path_length
      update_reason ws.interval_contention
    (length, { ws with interval_contention := c })

/-- The memory operation of a micro-op is issued unless that was done before. -/
def issueMemOp (uop : IntervalUop Reg) : IntervalUop Reg :=
  if (uop.m_uop.isLoad || uop.m_uop.isStore) && uop.dCacheHitWhere = .UNKNOWN then
    let (latency, hit_where) := cfg.accessMemory uop
    { uop with
      execLatency := (uop.execLatency + latency) % 2 ^ 32
      dCacheHitWhere := hit_where }
  else uop

/-- `issueMemOp` on the entry at an index. -/
def issueMemOpAt (index : Nat) (ws : Windows Reg C) : Windows Reg C :=
  ws.modify index fun e => { e with uop := e.uop.map (issueMemOp cfg) }

/-- The loop over the producers, from the fetch time relative to the oldest entry. -/
def maxProducer (ws : Windows Reg C) (oldestStartTime relativeFetchTime : Int) :
    List Nat → Int → Except Halt Int
  | [], max_producer_exec_time => .ok max_producer_exec_time
  | dependency :: rest, max_producer_exec_time => do
    if ← ws.oldWindowContains dependency then
      let (_, producer) ← ws.getInstruction dependency
      let uop ← producer.getDynMicroOp
      let producerExecTime : Int := producer.execTime
      let relativeStartTime := producerExecTime - uop.execLatency - oldestStartTime
      let producerExecTime :=
        if relativeFetchTime > relativeStartTime then
          producerExecTime + (relativeFetchTime - max relativeStartTime 0)
        else producerExecTime
      maxProducer ws oldestStartTime relativeFetchTime rest
        (max max_producer_exec_time producerExecTime)
    else maxProducer ws oldestStartTime relativeFetchTime rest max_producer_exec_time

def getMaxProducerExecTime (ws : Windows Reg C) (e : WindowEntry Reg) : Except Halt Nat := do
  let oldest := ws.getOldestInstruction
  let oldestStartTime : Int := oldest.execTime - (← oldest.getDynMicroOp).execLatency
  let uop ← e.getDynMicroOp
  let max_producer_exec_time ←
    maxProducer ws oldestStartTime (e.fetchTime - oldest.fetchTime) uop.getDependencies 0
  return max_producer_exec_time.toNat

/-- The load/store queue counts in femtoseconds, what it is asked and answers is in cycles. -/
def getCompletionTime (contention : ContentionModel) (barrier : Bool) (t_start t_delay : Nat) :
    Nat × ContentionModel :=
  let (result, contention) :=
    if barrier then
      contention.getBarrierCompletionTime (t_start * cfg.period) (t_delay * cfg.period) 0
    else contention.getCompletionTime (t_start * cfg.period) (t_delay * cfg.period) 0
  (result / cfg.period, contention)

/-- The extra latency, and the windows after the micro-op at an index moved the path. -/
def updateCriticalPath (index : Nat) (ws : Windows Reg C) : Nat × Windows Reg C :=
  let e := ws.getInstructionByIndex index
  let lll := ws.longLatencyOperationLatency cfg.longLatencyCutoff e
  if lll = 0 then (0, ws.updateCriticalPathTail index)
  else (lll, ws.clearOldWindow cfg.contention e.execTime)

/-! ### Blocking the window -/

/-- Whether a micro-op waits for the load that blocks the window, through its dependencies. -/
def waitsForHead (ws : Windows Reg C) : List Nat → Except Halt Bool
  | [] => .ok false
  | dependency :: rest => do
    if ← ws.windowContains dependency then
      let (_, dependee) ← ws.getInstruction dependency
      if dependee.dependent = .DATA_DEP then return true
      else
        let uop ← dependee.getDynMicroOp
        -- the source asserts that a long-latency load is a load, and only looks at those that
        -- were marked as independent misses
        if dependee.dependent = .INDEP_MISS && uop.isLongLatencyLoad cfg.longLatencyCutoff then
          return true
        else waitsForHead ws rest
    else waitsForHead ws rest

/-- The marks on one micro-op behind the head of the window, given the head's address and
whether a memory barrier is pending. -/
def mark (ws : Windows Reg C) (head_address : Nat) (mem_barrier_pending : Bool)
    (e : WindowEntry Reg) (uop : IntervalUop Reg) : Except Halt (WindowEntry Reg) := do
  let dependent ← waitsForHead cfg ws uop.getDependencies
  let dependent := dependent ||
    (uop.m_uop.isLoad && uop.address &&& cfg.m_lll_dep_mask = head_address)
  let e := { e with
    icacheOverlap := true
    dependent := if dependent then .DATA_DEP else .NO_DEP }
  if uop.m_uop.branch && !dependent then return { e with bpredOverlap := true }
  else if uop.m_uop.isLoad && !dependent && !mem_barrier_pending && !e.dcacheOverlap then
    return { e with
      uop := e.uop.map (issueMemOp cfg)
      dcacheOverlap := true
      dependent := .INDEP_MISS
      execTime := ws.m_critical_path_head }
  else return e

/-- The loop over the window behind its head. -/
def blockLoop (head_address : Nat) :
    List Nat → Bool → Windows Reg C → Except Halt (Windows Reg C)
  | [], _, ws => .ok ws
  | index :: rest, mem_barrier_pending, ws => do
    let e := ws.getInstructionByIndex index
    let uop ← e.getDynMicroOp
    -- the marks are taken away before the dependencies are looked at
    let cleared := ws.modify index fun e =>
      { e with dependent := .NO_DEP, icacheOverlap := true }
    if uop.m_uop.serializing then return cleared
    else
      let mem_barrier_pending := mem_barrier_pending || uop.m_uop.m_membar
      let e ← mark cfg cleared head_address mem_barrier_pending
        (cleared.getInstructionByIndex index) uop
      blockLoop head_address rest mem_barrier_pending (cleared.modify index fun _ => e)

def blockWindow (ws : Windows Reg C) : Except Halt (Windows Reg C) := do
  match ws.getWindowIterator with
  | [] => return ws
  | head :: rest =>
    let ws := ws.modify head fun e => { e with dependent := .INDEP_MISS }
    let uop ← (ws.getInstructionByIndex head).getDynMicroOp
    let head_address := (if uop.m_uop.isLoad then uop.address else 0) &&& cfg.m_lll_dep_mask
    blockLoop cfg head_address rest false ws

/-! ### Dispatching -/

/-- The instruction-cache miss of the micro-op at an index: what it charges, and the reason. -/
def icacheMiss (index : Nat) (ws : Windows Reg C) :
    Except Halt (Nat × StopDispatchReason × Windows Reg C) := do
  let e := ws.getInstructionByIndex index
  let uop ← e.getDynMicroOp
  if uop.iCacheHitWhere ≠ .L1I && !e.icacheOverlap then
    return (uop.iCacheLatency, .STOP_DISPATCH_ICACHE_MISS,
      ws.clearOldWindow cfg.contention (e.cptail + uop.iCacheLatency))
  else return (0, .STOP_DISPATCH_NO_REASON, ws)

/-- The penalty is a `uint32_t`, to which the `int` of the resolution is added. -/
def mispredictionLatency (resolution : Int) : Nat :=
  ((cfg.m_branch_misprediction_penalty + resolution) % 2 ^ 32).toNat

/-- The misprediction of the branch at an index. -/
def branchMispredict (index : Nat) (reason : StopDispatchReason) (ws : Windows Reg C) :
    Except Halt (Nat × StopDispatchReason × Windows Reg C) := do
  let e := ws.getInstructionByIndex index
  let uop ← e.getDynMicroOp
  if uop.m_uop.branch && uop.branchMispredicted && !e.bpredOverlap then
    let (resolution, ws) ← ws.calculateBranchResolutionLatency
    let bpred_latency := mispredictionLatency cfg resolution
    return (bpred_latency, .STOP_DISPATCH_BRANCH_MISPREDICT,
      ws.clearOldWindow cfg.contention (e.cptail + bpred_latency))
  else return (0, reason, ws)

/-- The execution time of the entry at an index. -/
def setExecTime (index time : Nat) (ws : Windows Reg C) : Windows Reg C :=
  ws.modify index fun e => { e with execTime := time }

/-- The last part of `dispatchInstruction`: what executing the micro-op charges. -/
def execute (index max_producer_exec_time : Nat) (t : IntervalTimer Reg C) :
    Except Halt (Nat × IntervalTimer Reg C) := do
  let ws := t.m_windows
  let e := ws.getInstructionByIndex index
  let uop ← e.getDynMicroOp
  let dispatch_cycle := max max_producer_exec_time ws.m_critical_path_head
  if uop.m_uop.serializing || uop.interrupt then
    let flushLatency :=
      (max ws.getCriticalPathLength (ws.getMinimalFlushLatency cfg.m_dispatch_width)).toNat
    let ws := setExecTime index ws.m_critical_path_tail ws
    return (flushLatency + uop.execLatency, { t with
      m_windows := ws.clearOldWindow cfg.contention ws.m_critical_path_tail })
  else if uop.m_uop.uop_type = .execute && uop.m_uop.m_membar then
    let cycle_to_wait_until := max max_producer_exec_time
      (max t.m_max_store_completion_time t.m_max_load_completion_time)
    let (latency, ws) :=
      updateCriticalPath cfg index (setExecTime index (cycle_to_wait_until + uop.execLatency) ws)
    return (latency, { t with m_windows := ws })
  else if uop.m_uop.isLoad then
    if e.dcacheOverlap then
      return (0, { t with
        m_max_load_completion_time := max t.m_max_load_completion_time e.execTime })
    else
      let (completion, contention) := getCompletionTime cfg t.m_loadstore_contention
        uop.m_uop.m_membar dispatch_cycle uop.execLatency
      if uop.isLongLatencyLoad cfg.longLatencyCutoff then
        let long_latency_load_latency := sub64 completion dispatch_cycle
        let tail := ws.m_critical_path_tail
        let ws ← blockWindow cfg ((setExecTime index tail ws).clearOldWindow cfg.contention
          (tail + long_latency_load_latency))
        return (long_latency_load_latency, { t with
          m_windows := ws
          m_loadstore_contention := contention
          m_max_load_completion_time := max t.m_max_load_completion_time tail })
      else
        let (latency, ws) := updateCriticalPath cfg index (setExecTime index completion ws)
        return (latency, { t with
          m_windows := ws
          m_loadstore_contention := contention
          m_max_load_completion_time := max t.m_max_load_completion_time completion })
  else if uop.m_uop.isStore then
    let data_ready_cycle := dispatch_cycle + cfg.bypassLatency uop + 1
    let (latency, ws) := updateCriticalPath cfg index (setExecTime index data_ready_cycle ws)
    return (latency, { t with
      m_windows := ws
      m_max_store_completion_time :=
        max t.m_max_store_completion_time (dispatch_cycle + uop.execLatency) })
  else
    let (latency, ws) :=
      updateCriticalPath cfg index (setExecTime index (dispatch_cycle + uop.execLatency) ws)
    return (latency, { t with m_windows := ws })

/-- `dispatchInstruction` on the head of the window: the latency and the reason to stop. -/
def dispatchInstruction (t : IntervalTimer Reg C) :
    Except Halt (Nat × StopDispatchReason × IntervalTimer Reg C) := do
  let index := t.m_windows.m_window_head__old_window_tail
  let ws := issueMemOpAt cfg index t.m_windows
  let max_producer_exec_time ← getMaxProducerExecTime ws (ws.getInstructionByIndex index)
  let ws := ws.modify index fun e => { e with cptail := ws.m_critical_path_tail }
  let (icache_latency, reason, ws) ← icacheMiss cfg index ws
  let (bpred_latency, reason, ws) ← branchMispredict cfg index reason ws
  let (latency, t) ← execute cfg index max_producer_exec_time { t with m_windows := ws }
  return (icache_latency + bpred_latency + latency, reason, t)

/-! ### Simulating -/

/-- The dispatch rate, and the timer with what of it remains. -/
def calculateCurrentDispatchRate (t : IntervalTimer Reg C) : Nat × IntervalTimer Reg C :=
  let critical_path_length := t.m_windows.getCriticalPathLength
  if critical_path_length > 0 then
    let (length, ws) :=
      getEffectiveCriticalPathLength cfg t.m_windows critical_path_length.toNat false
    let ipc := t.m_windows.m_old_window_length * fixedOne / length +
      t.m_remaining_dispatch_bandwidth
    let dispatch_rate := ipc / fixedOne
    (dispatch_rate, { t with
      m_windows := ws
      m_remaining_dispatch_bandwidth :=
        if dispatch_rate < cfg.m_dispatch_width then ipc - dispatch_rate * fixedOne else 0 })
  else (cfg.m_dispatch_width, { t with m_remaining_dispatch_bandwidth := 0 })

/-- The loop of `dispatchWindow`, which takes a micro-op from the window in each round: the
instructions and micro-ops executed and the latency. -/
def dispatchLoop (dispatch_rate : Nat) : Nat → Nat → Nat → Nat → StopDispatchReason →
    IntervalTimer Reg C → Except Halt (Nat × Nat × Nat × IntervalTimer Reg C)
  | 0, instructions, micro_ops, latency, _, t => .ok (instructions, micro_ops, latency, t)
  | n + 1, instructions, micro_ops, latency, reason, t =>
    if !t.m_windows.wIsEmpty && instructions < cfg.m_dispatch_width &&
        micro_ops < dispatch_rate && reason = .STOP_DISPATCH_NO_REASON then do
      let head := t.m_windows.m_window_head__old_window_tail
      let (instruction_latency, reason, t) ← dispatchInstruction cfg t
      let ws ← t.m_windows.dispatchInstruction cfg.contention
      let uop ← (ws.getInstructionByIndex head).getDynMicroOp
      dispatchLoop dispatch_rate n (if uop.last then instructions + 1 else instructions)
        (micro_ops + 1) (latency + instruction_latency) reason { t with m_windows := ws }
    else .ok (instructions, micro_ops, latency, t)

/-- The shares of the types in the critical path are added up. -/
def addFractions (effective_cp_length : Nat) : List CpContrType → IntervalTimer Reg C →
    Except Halt (IntervalTimer Reg C)
  | [], t => .ok t
  | type :: rest, t => do
    let fraction ← t.m_windows.getCpContrFraction type effective_cp_length
    addFractions effective_cp_length rest { t with
      m_cpContrByType :=
        Function.update t.m_cpContrByType type (t.m_cpContrByType type + fraction) }

/-- The length that the shares refer to: an `int` that is made a `uint64_t`. -/
def fractionLength (t : IntervalTimer Reg C) : Nat × IntervalTimer Reg C :=
  let unsigned (length : Int) : Nat := (length % 2 ^ 64).toNat
  let (length, ws) := getEffectiveCriticalPathLength cfg t.m_windows
    (unsigned t.m_windows.getCriticalPathLength) true
  (unsigned (Int.bmod length (2 ^ 32)), { t with m_windows := ws })

def dispatchWindow (t : IntervalTimer Reg C) : Except Halt (Nat × Nat × IntervalTimer Reg C) := do
  let (dispatch_rate, t) := calculateCurrentDispatchRate cfg t
  let (instructions_executed, micro_ops_executed, latency, t) ←
    dispatchLoop cfg dispatch_rate t.m_windows.m_window_length 0 0 0 .STOP_DISPATCH_NO_REASON t
  if latency = 0 then
    if micro_ops_executed ≥ dispatch_rate then
      let (effective_cp_length, t) := fractionLength cfg t
      let t ← addFractions effective_cp_length CpContrType.all t
      return (instructions_executed, 1, t)
    else return (instructions_executed, 1, t)
  else return (instructions_executed, latency, t)

/-- The loop of `simulate` while the window is full, for at most `fuel` rounds. -/
def drain : Nat → Nat → Nat → IntervalTimer Reg C → Except Halt (Nat × Nat × IntervalTimer Reg C)
  | 0, _, _, _ => .error .outOfFuel
  | fuel + 1, instructions, latency, t =>
    if t.m_windows.wIsFull then do
      let (instructions_executed, l, t) ← dispatchWindow cfg t
      drain fuel (instructions + instructions_executed) (latency + l) t
    else .ok (instructions, latency, t)

/-- One micro-op of `simulate`: its address is masked and it is added to the window. -/
def addUop [DecidableEq Reg] (uop : IntervalUop Reg) (t : IntervalTimer Reg C) :
    Except Halt (IntervalTimer Reg C) := do
  let uop :=
    if uop.m_uop.isLoad || uop.m_uop.isStore then
      { uop with address := uop.address &&& cfg.m_mem_dep_mask }
    else uop
  let ws ← t.m_windows.add cfg.decoder uop
  return { t with m_windows := ws }

/-- `simulate`: the instructions executed and the latency. -/
def simulate [DecidableEq Reg] (fuel : Nat) : List (IntervalUop Reg) → Nat → Nat →
    IntervalTimer Reg C → Except Halt (Nat × Nat × IntervalTimer Reg C)
  | [], total_instructions_executed, total_latency, t =>
    .ok (total_instructions_executed, total_latency, t)
  | uop :: insts, total_instructions_executed, total_latency, t =>
    if uop.squashed then simulate fuel insts total_instructions_executed total_latency t
    else do
      let t ← addUop cfg uop t
      let (instructions, latency, t) ←
        drain cfg fuel total_instructions_executed total_latency t
      simulate fuel insts instructions latency t

end IntervalTimer
end Interval
end Sniper.Timing
