import Sniper.Lib.Draining
import Sniper.Timing.SquashedDependencies
import Sniper.Tracing.WarmupAccess

/-! # Issuing memory operations

With `m_issue_memops`, `DynamicInstruction::accessMemory` performs the accesses of an instruction
before its micro-ops are made; without it, a timer performs those of the micro-ops, in an order of
its own. The memory below the core is a parameter.
-/
namespace Sniper.Timing.MemoryIssue
open Tracing.Handlers (MemOp DecodedInst)

variable {Reg σ : Type}

/-! ### The core -/

/-- What is asked of `Core::accessMemory`. -/
structure Access where
  mem_op_type : MemOp
  d_addr : Nat
  data_size : Nat
  eip : Nat
  deriving DecidableEq

/-- The memory, with what has been asked of it. -/
structure Core (σ : Type) where
  memory : σ
  accesses : List Access

/-- How the memory answers an access at a time, if one is given: the latency in cycles and where
it hits. -/
abbrev Hierarchy (σ : Type) := σ → Option Nat → Access → Nat × HitWhere × σ

/-- `HitWhere::L1_OWN`. -/
def L1_OWN : HitWhere := .elsewhere 3
def PREDICATE_FALSE : HitWhere := .elsewhere 22
def PREFETCH_NO_MAPPING : HitWhere := .elsewhere 23

/-- `Core::accessMemory` with `MEM_MODELED_RETURN`. The last assertion of `initiateMemoryAccess`
is that it is known where the access hits. -/
def Core.accessMemory (hierarchy : Hierarchy σ) (now : Option Nat) (access : Access)
    (core : Core σ) : Except Stop (Nat × HitWhere × Core σ) :=
  let accesses := core.accesses ++ [access]
  if access.data_size = 0 then .ok (0, L1_OWN, { core with accesses := accesses })
  else
    let (latency, hit_where, memory) := hierarchy core.memory now access
    if hit_where = .UNKNOWN then .error .assertion
    else .ok (latency, hit_where, ⟨memory, accesses⟩)

/-! ### At fetch -/

/-- `DynamicInstruction::MemoryInfo`. -/
structure DynamicMemoryInfo extends MemoryInfo where
  executed : Bool
  size : Nat

/-- What the accesses read of an `Instruction`, with the sizes of the loads and stores that it is
decoded into. -/
structure Instruction where
  isAtomic : Bool
  address : Nat
  getOperands : List Operand
  memop_load_size : List Nat
  memop_store_size : List Nat

namespace Instruction
variable (instruction : Instruction)

/-- The access that `DynamicInstruction::accessMemory` makes for an operand. -/
def operandAccess (info : DynamicMemoryInfo) : Access where
  mem_op_type :=
    if info.dir = .READ then if instruction.isAtomic then .READ_EX else .READ else .WRITE
  d_addr := info.addr
  data_size := info.size
  eip := instruction.address

/-- `DynamicInstruction::accessMemory`. -/
def accessMemory (hierarchy : Hierarchy σ) : List DynamicMemoryInfo → Core σ →
    Except Stop (List DynamicMemoryInfo × Core σ)
  | [], core => .ok ([], core)
  | info :: rest, core =>
    if info.executed ∧ info.hit_where = .UNKNOWN then do
      let (latency, hit_where, core) ←
        core.accessMemory hierarchy none (instruction.operandAccess info)
      let (rest, core) ← accessMemory hierarchy rest core
      return ({ info with latency := latency, hit_where := hit_where } :: rest, core)
    else do
      let (rest, core) ← accessMemory hierarchy rest core
      return ({ info with latency := 1, hit_where := PREDICATE_FALSE } :: rest, core)

/-! ### At issue -/

/-- The sizes of the micro-ops for a direction. -/
def memopSizes : Direction → List Nat
  | .READ => instruction.memop_load_size
  | .WRITE => instruction.memop_store_size

/-- `getMemoryAccessSize`; it is not set for an execute. -/
def getMemoryAccessSize (uop : InstructionUop Reg) : Nat :=
  match uop.m_uop.uop_type with
  | .load => (instruction.memopSizes .READ)[uop.decodedOffset]?.getD 0
  | .execute => 0
  | .store => (instruction.memopSizes .WRITE)[uop.decodedOffset]?.getD 0

/-- The access that a timer makes for a load or a store. -/
def uopAccess (uop : InstructionUop Reg) : Access where
  mem_op_type := if uop.m_uop.isLoad then .READ else .WRITE
  d_addr := uop.address
  data_size := instruction.getMemoryAccessSize uop
  eip := instruction.address

/-- A timer issues the memory operation of a micro-op, unless it is known where that hits. -/
def issueMemory (hierarchy : Hierarchy σ) (now : Option Nat) (uop : InstructionUop Reg)
    (core : Core σ) : Except Stop (InstructionUop Reg × Core σ) :=
  if (uop.m_uop.isLoad || uop.m_uop.isStore) && uop.dCacheHitWhere = .UNKNOWN then do
    let (latency, hit_where, core) ←
      core.accessMemory hierarchy now (instruction.uopAccess uop)
    return ({ uop with execLatency := uop.execLatency + latency, dCacheHitWhere := hit_where },
      core)
  else return (uop, core)

/-- The access of `RobTimer::issueInstruction`; `RobSmtTimer` has the same. -/
def issueInstruction (hierarchy : Hierarchy σ) (now : Nat) :
    InstructionUop Reg → Core σ → Except Stop (InstructionUop Reg × Core σ) :=
  instruction.issueMemory hierarchy (some now)

/-- `IntervalTimer::issueMemOp`. -/
def issueMemOp (hierarchy : Hierarchy σ) :
    InstructionUop Reg → Core σ → Except Stop (InstructionUop Reg × Core σ) :=
  instruction.issueMemory hierarchy none

end Instruction

/-- The timers; the interval timer has a granularity for memory dependencies. -/
inductive Timer where
  | rob
  | interval (m_mem_dep_mask : Nat)

namespace Timer
variable (timer : Timer)

/-- The address that `simulate` leaves a load or a store. -/
def granule : Nat → Nat :=
  match timer with
  | .rob => id
  | .interval m_mem_dep_mask => fun address => address &&& m_mem_dep_mask

/-- The micro-ops that `simulate` takes in. -/
def simulate (uops : List (InstructionUop Reg)) : List (InstructionUop Reg) :=
  (uops.filter (!·.squashed)).map fun uop =>
    if uop.m_uop.isLoad || uop.m_uop.isStore then { uop with address := timer.granule uop.address }
    else uop

def issueOne (hierarchy : Hierarchy σ) (instruction : Instruction) (now : Nat) :
    InstructionUop Reg → Core σ → Except Stop (InstructionUop Reg × Core σ) :=
  match timer with
  | .rob => instruction.issueInstruction hierarchy now
  | .interval _ => instruction.issueMemOp hierarchy

/-- The timer comes to the micro-ops in an order of its own, the interval timer to some of them
twice. -/
def issue (hierarchy : Hierarchy σ) (instruction : Instruction) : List (Nat × Nat) →
    List (InstructionUop Reg) → Core σ → Except Stop (List (InstructionUop Reg) × Core σ)
  | [], entries, core => .ok (entries, core)
  | (index, now) :: order, entries, core =>
    match entries[index]? with
    | none => .error .assertion
    | some uop => do
      let (uop, core) ← timer.issueOne hierarchy instruction now uop core
      issue hierarchy instruction order (entries.set index uop) core

end Timer

/-! ### A traced instruction -/

/-- The memory operands that are read, or written; those of a NOP are ignored. -/
def memoryOperands (dec : DecodedInst) (selected : Nat → Bool) : List Nat :=
  if dec.is_nop then [] else (List.range dec.num_memory_operands).filter selected

/-- What `TraceThread::decode` and the decoder make of an instruction. A size is 16 bits wide
there. -/
def decode (t : Tracing.Translation.TraceThread) (dec : DecodedInst)
    (inst : Tracing.Handlers.Instruction) : Instruction where
  isAtomic := dec.is_atomic
  address := (t.va2pa inst.addr).1.toNat
  getOperands := (memoryOperands dec dec.op_read_mem).map (fun _ => .memory .READ) ++
    (memoryOperands dec dec.op_write_mem).map fun _ => .memory .WRITE
  memop_load_size := (memoryOperands dec dec.op_read_mem).map fun mem_idx =>
    (dec.size_mem_op mem_idx).toNat % 2 ^ 16
  memop_store_size := (memoryOperands dec dec.op_write_mem).map fun mem_idx =>
    (dec.size_mem_op mem_idx).toNat % 2 ^ 16

def direction : Tracing.Handlers.Direction → Direction
  | .READ => .READ
  | .WRITE => .WRITE

def hitWhere : Tracing.Handlers.HitWhere → HitWhere
  | .UNKNOWN => .UNKNOWN
  | .PREFETCH_NO_MAPPING => PREFETCH_NO_MAPPING

/-- An entry of the dynamic instruction, as the performance model finds it. -/
def memoryInfo (info : Tracing.Handlers.MemoryInfo) : DynamicMemoryInfo where
  dir := direction info.dir
  addr := info.addr.toNat
  latency := 0
  hit_where := hitWhere info.hit_where
  executed := info.executed
  size := info.size.toNat

end Sniper.Timing.MemoryIssue
