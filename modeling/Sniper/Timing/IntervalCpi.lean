import Sniper.Lib.Metering
import Sniper.Timing.IntervalTimer

/-! # The CPI stack of the interval timer

What `IntervalTimer` adds to its CPI components where it adds to the latency. At a constant
frequency they grow together by the cycles that `simulate` returns, in units of the period.
-/
namespace Sniper.Timing.Interval
open Lib.Metering

/-- The components of the CPI stack. -/
inductive CpiComponent where
  | Base
  | BranchPredictor
  | Serialization
  | LongLatency
  | InstructionCache (hit_where : HitWhere)
  | DataCache (hit_where : HitWhere)
  deriving DecidableEq

abbrev CpiStack : Type := Counters CpiComponent

/-- With the period that each micro-op was made with. -/
structure CpiConfig (Reg C : Type) extends IntervalConfig Reg C where
  /-- `DynamicMicroOp::getPeriod`. -/
  getPeriod : IntervalUop Reg → Nat

/-- The frequency has been that of the core whenever a micro-op was made. -/
def CpiConfig.ConstantFrequency {Reg C : Type} (cfg : CpiConfig Reg C) : Prop :=
  ∀ uop, cfg.getPeriod uop = cfg.period

namespace IntervalTimer
variable {Reg C : Type} (cfg : CpiConfig Reg C)

/-- What `updateCriticalPath` charges for the micro-op at an index. -/
def criticalPathCpi (index : Nat) (uop : IntervalUop Reg) (ws : Windows Reg C) (cpi : CpiStack) :
    CpiStack :=
  let lll := ws.longLatencyOperationLatency cfg.longLatencyCutoff (ws.getInstructionByIndex index)
  if lll = 0 then cpi else cpi.add .LongLatency (lll * cfg.getPeriod uop)

/-- `icacheMiss`, with its charge. -/
def icacheMissCpi (index : Nat) (ws : Windows Reg C) (cpi : CpiStack) :
    Except Halt ((Nat × StopDispatchReason × Windows Reg C) × CpiStack) := do
  let e := ws.getInstructionByIndex index
  let uop ← e.getDynMicroOp
  if uop.iCacheHitWhere ≠ .L1I && !e.icacheOverlap then
    return ((uop.iCacheLatency, .STOP_DISPATCH_ICACHE_MISS,
        ws.clearOldWindow cfg.contention (e.cptail + uop.iCacheLatency)),
      cpi.add (.InstructionCache uop.iCacheHitWhere) (uop.iCacheLatency * cfg.getPeriod uop))
  else return ((0, .STOP_DISPATCH_NO_REASON, ws), cpi)

/-- `branchMispredict`, with its charge. -/
def branchMispredictCpi (index : Nat) (reason : StopDispatchReason) (ws : Windows Reg C)
    (cpi : CpiStack) : Except Halt ((Nat × StopDispatchReason × Windows Reg C) × CpiStack) := do
  let e := ws.getInstructionByIndex index
  let uop ← e.getDynMicroOp
  if uop.m_uop.branch && uop.branchMispredicted && !e.bpredOverlap then
    let (resolution, ws) ← ws.calculateBranchResolutionLatency
    let bpred_latency := mispredictionLatency cfg.toIntervalConfig resolution
    return ((bpred_latency, .STOP_DISPATCH_BRANCH_MISPREDICT,
        ws.clearOldWindow cfg.contention (e.cptail + bpred_latency)),
      cpi.add .BranchPredictor (bpred_latency * cfg.getPeriod uop))
  else return ((0, reason, ws), cpi)

/-- `execute`, with its charges. -/
def executeCpi (index max_producer_exec_time : Nat) (t : IntervalTimer Reg C) (cpi : CpiStack) :
    Except Halt ((Nat × IntervalTimer Reg C) × CpiStack) := do
  let ws := t.m_windows
  let e := ws.getInstructionByIndex index
  let uop ← e.getDynMicroOp
  let dispatch_cycle := max max_producer_exec_time ws.m_critical_path_head
  if uop.m_uop.serializing || uop.interrupt then
    let flushLatency :=
      (max ws.getCriticalPathLength (ws.getMinimalFlushLatency cfg.m_dispatch_width)).toNat
    let ws := setExecTime index ws.m_critical_path_tail ws
    return ((flushLatency + uop.execLatency, { t with
        m_windows := ws.clearOldWindow cfg.contention ws.m_critical_path_tail }),
      cpi.add .Serialization ((flushLatency + uop.execLatency) * cfg.getPeriod uop))
  else if uop.m_uop.uop_type = .execute && uop.m_uop.m_membar then
    let cycle_to_wait_until := max max_producer_exec_time
      (max t.m_max_store_completion_time t.m_max_load_completion_time)
    let ws := setExecTime index (cycle_to_wait_until + uop.execLatency) ws
    let (latency, ws') := updateCriticalPath cfg.toIntervalConfig index ws
    return ((latency, { t with m_windows := ws' }), criticalPathCpi cfg index uop ws cpi)
  else if uop.m_uop.isLoad then
    if e.dcacheOverlap then
      return ((0, { t with
        m_max_load_completion_time := max t.m_max_load_completion_time e.execTime }), cpi)
    else
      let (completion, contention) := getCompletionTime cfg.toIntervalConfig
        t.m_loadstore_contention uop.m_uop.m_membar dispatch_cycle uop.execLatency
      if uop.isLongLatencyLoad cfg.longLatencyCutoff then
        let long_latency_load_latency := sub64 completion dispatch_cycle
        let tail := ws.m_critical_path_tail
        let ws ← blockWindow cfg.toIntervalConfig ((setExecTime index tail ws).clearOldWindow
          cfg.contention (tail + long_latency_load_latency))
        return ((long_latency_load_latency, { t with
            m_windows := ws
            m_loadstore_contention := contention
            m_max_load_completion_time := max t.m_max_load_completion_time tail }),
          cpi.add (.DataCache uop.dCacheHitWhere)
            (long_latency_load_latency * cfg.getPeriod uop))
      else
        let ws := setExecTime index completion ws
        let (latency, ws') := updateCriticalPath cfg.toIntervalConfig index ws
        return ((latency, { t with
            m_windows := ws'
            m_loadstore_contention := contention
            m_max_load_completion_time := max t.m_max_load_completion_time completion }),
          criticalPathCpi cfg index uop ws cpi)
  else if uop.m_uop.isStore then
    let data_ready_cycle := dispatch_cycle + cfg.bypassLatency uop + 1
    let ws := setExecTime index data_ready_cycle ws
    let (latency, ws') := updateCriticalPath cfg.toIntervalConfig index ws
    return ((latency, { t with
        m_windows := ws'
        m_max_store_completion_time :=
          max t.m_max_store_completion_time (dispatch_cycle + uop.execLatency) }),
      criticalPathCpi cfg index uop ws cpi)
  else
    let ws := setExecTime index (dispatch_cycle + uop.execLatency) ws
    let (latency, ws') := updateCriticalPath cfg.toIntervalConfig index ws
    return ((latency, { t with m_windows := ws' }), criticalPathCpi cfg index uop ws cpi)

/-- `dispatchInstruction`, with its charges. -/
def dispatchInstructionCpi (t : IntervalTimer Reg C) (cpi : CpiStack) :
    Except Halt ((Nat × StopDispatchReason × IntervalTimer Reg C) × CpiStack) := do
  let index := t.m_windows.m_window_head__old_window_tail
  let ws := issueMemOpAt cfg.toIntervalConfig index t.m_windows
  let max_producer_exec_time ← getMaxProducerExecTime ws (ws.getInstructionByIndex index)
  let ws := ws.modify index fun e => { e with cptail := ws.m_critical_path_tail }
  let ((icache_latency, reason, ws), cpi) ← icacheMissCpi cfg index ws cpi
  let ((bpred_latency, reason, ws), cpi) ← branchMispredictCpi cfg index reason ws cpi
  let ((latency, t), cpi) ←
    executeCpi cfg index max_producer_exec_time { t with m_windows := ws } cpi
  return ((icache_latency + bpred_latency + latency, reason, t), cpi)

/-- The loop of `dispatchWindow`, with the period of the last micro-op and its charges. -/
def dispatchLoopCpi (dispatch_rate : Nat) : Nat → Nat → Nat → Nat → StopDispatchReason →
    IntervalTimer Reg C → Nat → CpiStack →
    Except Halt ((Nat × Nat × Nat × IntervalTimer Reg C) × Nat × CpiStack)
  | 0, instructions, micro_ops, latency, _, t, micro_op_period, cpi =>
    .ok ((instructions, micro_ops, latency, t), micro_op_period, cpi)
  | n + 1, instructions, micro_ops, latency, reason, t, micro_op_period, cpi =>
    if !t.m_windows.wIsEmpty && instructions < cfg.m_dispatch_width &&
        micro_ops < dispatch_rate && reason = .STOP_DISPATCH_NO_REASON then do
      let head := t.m_windows.m_window_head__old_window_tail
      let ((instruction_latency, reason, t), cpi) ← dispatchInstructionCpi cfg t cpi
      let ws ← t.m_windows.dispatchInstruction cfg.contention
      let uop ← (ws.getInstructionByIndex head).getDynMicroOp
      dispatchLoopCpi dispatch_rate n (if uop.last then instructions + 1 else instructions)
        (micro_ops + 1) (latency + instruction_latency) reason { t with m_windows := ws }
        (cfg.getPeriod uop) cpi
    else .ok ((instructions, micro_ops, latency, t), micro_op_period, cpi)

/-- `dispatchWindow`, with its charges. -/
def dispatchWindowCpi (t : IntervalTimer Reg C) (cpi : CpiStack) :
    Except Halt ((Nat × Nat × IntervalTimer Reg C) × CpiStack) := do
  let (dispatch_rate, t) := calculateCurrentDispatchRate cfg.toIntervalConfig t
  let ((instructions_executed, micro_ops_executed, latency, t), micro_op_period, cpi) ←
    dispatchLoopCpi cfg dispatch_rate t.m_windows.m_window_length 0 0 0
      .STOP_DISPATCH_NO_REASON t cfg.period cpi
  if latency = 0 then
    if micro_ops_executed ≥ dispatch_rate then
      let (effective_cp_length, t) := fractionLength cfg.toIntervalConfig t
      let t ← addFractions effective_cp_length CpContrType.all t
      return ((instructions_executed, 1, t), cpi.add .Base (1 * micro_op_period))
    else return ((instructions_executed, 1, t), cpi.add .Base (1 * micro_op_period))
  else return ((instructions_executed, latency, t), cpi)

/-- `drain`, with its charges. -/
def drainCpi : Nat → Nat → Nat → IntervalTimer Reg C → CpiStack →
    Except Halt ((Nat × Nat × IntervalTimer Reg C) × CpiStack)
  | 0, _, _, _, _ => .error .outOfFuel
  | fuel + 1, instructions, latency, t, cpi =>
    if t.m_windows.wIsFull then do
      let ((instructions_executed, l, t), cpi) ← dispatchWindowCpi cfg t cpi
      drainCpi fuel (instructions + instructions_executed) (latency + l) t cpi
    else .ok ((instructions, latency, t), cpi)

/-- `simulate`, with its charges. -/
def simulateCpi [DecidableEq Reg] (fuel : Nat) : List (IntervalUop Reg) → Nat → Nat →
    IntervalTimer Reg C → CpiStack → Except Halt ((Nat × Nat × IntervalTimer Reg C) × CpiStack)
  | [], total_instructions_executed, total_latency, t, cpi =>
    .ok ((total_instructions_executed, total_latency, t), cpi)
  | uop :: insts, total_instructions_executed, total_latency, t, cpi =>
    if uop.squashed then simulateCpi fuel insts total_instructions_executed total_latency t cpi
    else do
      let t ← addUop cfg.toIntervalConfig uop t
      let ((instructions, latency, t), cpi) ←
        drainCpi cfg fuel total_instructions_executed total_latency t cpi
      simulateCpi fuel insts instructions latency t cpi

/-! ### Charges and cycles -/

/-- The result is that of the timer, and the components grow by its cycles. -/
def Charged {α : Type} (period : Nat) (cpi : CpiStack) (cycles : α → Nat) (a : α)
    (b : α × CpiStack) : Prop :=
  b.1 = a ∧ b.2.total = cpi.total + cycles a * period

section
variable {cfg : CpiConfig Reg C} (hfrequency : cfg.ConstantFrequency) {t : IntervalTimer Reg C}
  {cpi : CpiStack}
include hfrequency

theorem criticalPathCpi_total (index : Nat) (uop : IntervalUop Reg) (ws : Windows Reg C) :
    (criticalPathCpi cfg index uop ws cpi).total =
      cpi.total + (updateCriticalPath cfg.toIntervalConfig index ws).1 * cfg.period := by
  rw [criticalPathCpi, updateCriticalPath]
  split
  case isTrue => rw [Nat.zero_mul, Nat.add_zero]
  case isFalse => rw [Counters.total_add, hfrequency uop]

theorem icacheMissCpi_charged (index : Nat) (ws : Windows Reg C) :
    Lockstep (Charged cfg.period cpi fun a => a.1) (icacheMiss cfg.toIntervalConfig index ws)
      (icacheMissCpi cfg index ws cpi) := by
  refine .bind_same fun uop _ => .ite (fun _ => .ok ⟨rfl, ?_⟩) fun _ => .ok ⟨rfl, ?_⟩
  · rw [Counters.total_add, hfrequency uop]
  · rw [Nat.zero_mul, Nat.add_zero]

theorem branchMispredictCpi_charged (index : Nat) (reason : StopDispatchReason)
    (ws : Windows Reg C) :
    Lockstep (Charged cfg.period cpi fun a => a.1)
      (branchMispredict cfg.toIntervalConfig index reason ws)
      (branchMispredictCpi cfg index reason ws cpi) := by
  refine .bind_same fun uop _ => .ite (fun _ => .bind_same fun resolved _ => .ok ⟨rfl, ?_⟩)
    fun _ => .ok ⟨rfl, ?_⟩
  · rw [Counters.total_add, hfrequency uop]
  · rw [Nat.zero_mul, Nat.add_zero]

theorem executeCpi_charged (index max_producer_exec_time : Nat) :
    Lockstep (Charged cfg.period cpi fun a => a.1)
      (execute cfg.toIntervalConfig index max_producer_exec_time t)
      (executeCpi cfg index max_producer_exec_time t cpi) := by
  refine .bind_same fun uop _ => .ite (fun _ => .ok ⟨rfl, ?_⟩) fun _ => ?_
  · rw [Counters.total_add, hfrequency uop]
  refine .ite (fun _ => .ok ⟨rfl, criticalPathCpi_total hfrequency ..⟩) fun _ => ?_
  refine .ite (fun _ => .ite (fun _ => .ok ⟨rfl, ?_⟩) fun _ => ?_) fun _ => ?_
  · rw [Nat.zero_mul, Nat.add_zero]
  · refine .ite (fun _ => .bind_same fun ws _ => .ok ⟨rfl, ?_⟩)
      fun _ => .ok ⟨rfl, criticalPathCpi_total hfrequency ..⟩
    rw [Counters.total_add, hfrequency uop]
  · exact .ite (fun _ => .ok ⟨rfl, criticalPathCpi_total hfrequency ..⟩)
      fun _ => .ok ⟨rfl, criticalPathCpi_total hfrequency ..⟩

theorem dispatchInstructionCpi_charged :
    Lockstep (Charged cfg.period cpi fun a => a.1) (dispatchInstruction cfg.toIntervalConfig t)
      (dispatchInstructionCpi cfg t cpi) := by
  refine .bind_same fun max_producer_exec_time _ => ?_
  refine .bind (icacheMissCpi_charged hfrequency ..) ?_
  rintro ⟨icache_latency, reason, ws⟩ ⟨-, cpi₁⟩ - ⟨rfl, hicache⟩
  refine .bind (branchMispredictCpi_charged hfrequency ..) ?_
  rintro ⟨bpred_latency, reason', ws'⟩ ⟨-, cpi₂⟩ - ⟨rfl, hbpred⟩
  refine .bind (executeCpi_charged hfrequency ..) ?_
  rintro ⟨latency, t'⟩ ⟨-, cpi₃⟩ - ⟨rfl, hexecute⟩
  refine .ok ⟨rfl, ?_⟩
  dsimp only at hicache hbpred hexecute ⊢
  rw [hexecute, hbpred, hicache, Nat.add_mul, Nat.add_mul]
  omega

theorem dispatchLoopCpi_charged {rate n instructions micro_ops latency reason} :
    Lockstep (fun a b => b.1 = a ∧ b.2.1 = cfg.period ∧
        b.2.2.total + latency * cfg.period = cpi.total + a.2.2.1 * cfg.period)
      (dispatchLoop cfg.toIntervalConfig rate n instructions micro_ops latency reason t)
      (dispatchLoopCpi cfg rate n instructions micro_ops latency reason t cfg.period cpi) := by
  induction n generalizing instructions micro_ops latency reason t cpi with
  | zero => exact .ok ⟨rfl, rfl, rfl⟩
  | succ n ih =>
    refine .ite (fun _ => ?_) fun _ => .ok ⟨rfl, rfl, rfl⟩
    refine .bind (dispatchInstructionCpi_charged hfrequency) ?_
    rintro ⟨instruction_latency, reason', t'⟩ ⟨-, cpi'⟩ - ⟨rfl, hinstruction⟩
    refine .bind_same fun ws _ => .bind_same fun uop _ => ?_
    dsimp only at hinstruction ⊢
    rw [hfrequency uop]
    refine ih.mono fun a b => ?_
    rintro ⟨hresult, hperiod, htotal⟩
    refine ⟨hresult, hperiod, ?_⟩
    rw [Nat.add_mul, hinstruction] at htotal
    omega

theorem dispatchWindowCpi_charged :
    Lockstep (Charged cfg.period cpi fun a => a.2.1) (dispatchWindow cfg.toIntervalConfig t)
      (dispatchWindowCpi cfg t cpi) := by
  refine .bind (dispatchLoopCpi_charged hfrequency) ?_
  rintro ⟨instructions, micro_ops, latency, t'⟩ ⟨-, -, cpi'⟩ - ⟨rfl, rfl, htotal⟩
  rw [Nat.zero_mul, Nat.add_zero] at htotal
  refine .ite (fun hzero => ?_) fun _ => .ok ⟨rfl, htotal⟩
  have hbase : (cpi'.add .Base (1 * cfg.period)).total = cpi.total + 1 * cfg.period := by
    rw [Counters.total_add, htotal, hzero, Nat.zero_mul, Nat.add_zero]
  exact .ite (fun _ => .bind_same fun t'' _ => .ok ⟨rfl, hbase⟩) fun _ => .ok ⟨rfl, hbase⟩

theorem drainCpi_charged {fuel instructions latency} :
    Lockstep (fun a b => b.1 = a ∧
        b.2.total + latency * cfg.period = cpi.total + a.2.1 * cfg.period)
      (drain cfg.toIntervalConfig fuel instructions latency t)
      (drainCpi cfg fuel instructions latency t cpi) := by
  induction fuel generalizing instructions latency t cpi with
  | zero => exact .error _
  | succ fuel ih =>
    refine .ite (fun _ => ?_) fun _ => .ok ⟨rfl, rfl⟩
    refine .bind (dispatchWindowCpi_charged hfrequency) ?_
    rintro ⟨executed, l, t'⟩ ⟨-, cpi'⟩ - ⟨rfl, hwindow⟩
    refine ih.mono fun a b => ?_
    rintro ⟨hresult, htotal⟩
    refine ⟨hresult, ?_⟩
    dsimp only at hwindow
    rw [Nat.add_mul, hwindow] at htotal
    omega

theorem simulateCpi_charged [DecidableEq Reg] {fuel instructions latency insts} :
    Lockstep (fun a b => b.1 = a ∧
        b.2.total + latency * cfg.period = cpi.total + a.2.1 * cfg.period)
      (simulate cfg.toIntervalConfig fuel insts instructions latency t)
      (simulateCpi cfg fuel insts instructions latency t cpi) := by
  induction insts generalizing instructions latency t cpi with
  | nil => exact .ok ⟨rfl, rfl⟩
  | cons uop insts ih =>
    refine .ite (fun _ => ih) fun _ => .bind_same fun t' _ => ?_
    refine .bind (drainCpi_charged hfrequency) ?_
    rintro ⟨executed, l, t''⟩ ⟨-, cpi'⟩ - ⟨rfl, hdrain⟩
    refine ih.mono fun a b => ?_
    rintro ⟨hresult, htotal⟩
    refine ⟨hresult, ?_⟩
    dsimp only at hdrain
    omega

end

end IntervalTimer
end Sniper.Timing.Interval
