import Sniper.Timing.MicroOp

/-! # Squashing micro-ops

`MicroOpPerformanceModel::handleInstruction` up to `doSquashing`: an instruction is decoded into
loads, executes and stores, and a load or store that touches a cache line again is squashed. The
dependencies between the micro-ops of the instruction are counts and offsets, which `doSquashing`
corrects, and the timers then number those that are not squashed.
-/
namespace Sniper.Timing

/-- `MicroOp` with what squashing reads. -/
structure DecodedUop (Reg : Type) extends MicroOp Reg where
  microOpTypeOffset : Nat
  intraInstructionDependencies : Nat
  first : Bool
  last : Bool

/-- `DynamicMicroOp` with what squashing reads and writes; the offset is that of the `MicroOp`,
before the squashing. -/
structure InstructionUop (Reg : Type) extends DynamicMicroOp Reg where
  decodedOffset : Nat
  squashedCount : Nat
  first : Bool
  last : Bool

variable {Reg : Type}

/-! ### Decoding -/

namespace DecodedUop

def makeLoad (uop : MicroOp Reg) (offset : Nat) : DecodedUop Reg :=
  ⟨{ uop with uop_type := .load }, offset, 0, false, false⟩

def makeExecute (uop : MicroOp Reg) (offset num_loads : Nat) : DecodedUop Reg :=
  ⟨{ uop with uop_type := .execute }, offset, num_loads, false, false⟩

def makeStore (uop : MicroOp Reg) (offset num_execute : Nat) : DecodedUop Reg :=
  ⟨{ uop with uop_type := .store }, offset, num_execute, false, false⟩

/-- The loop of `InstructionDecoder::decode` over the micro-ops. -/
def generate (uops : Nat → MicroOp Reg) (numLoads numExecs numStores : Nat) :
    List (DecodedUop Reg) :=
  let totalMicroOps := numLoads + numExecs + numStores
  (List.range totalMicroOps).map fun index =>
    let currentMicroOp :=
      if index < numLoads then makeLoad (uops index) index
      else if index < numLoads + numExecs then
        makeExecute (uops index) (index - numLoads) numLoads
      else makeStore (uops index) (index - numLoads - numExecs) numExecs
    { currentMicroOp with first := index = 0, last := index = totalMicroOps - 1 }

/-- `InstructionDecoder::decode`: there is at least one micro-op. -/
def decode (uops : Nat → MicroOp Reg) (numLoads numExecs numStores : Nat) :
    List (DecodedUop Reg) :=
  generate uops numLoads (if numLoads + numExecs + numStores = 0 then 1 else numExecs) numStores

/-- The micro-ops of the instruction that the micro-op with an index depends on. -/
def dependsOn (uop : DecodedUop Reg) (index : Nat) : List Nat :=
  List.range' (index - uop.microOpTypeOffset - uop.intraInstructionDependencies)
    uop.intraInstructionDependencies

end DecodedUop

/-! ### Squashing -/

namespace InstructionUop

/-- `createDynamicMicroOp`. -/
def create (getInstructionLatency : DecodedUop Reg → Nat) (uop : DecodedUop Reg) :
    InstructionUop Reg where
  m_uop := uop.toMicroOp
  sequenceNumber := 2 ^ 64 - 1
  address := 0
  squashed := false
  intraInstructionDependencies := uop.intraInstructionDependencies
  microOpTypeOffset := uop.microOpTypeOffset
  dependencies := []
  execLatency := getInstructionLatency uop
  branchMispredicted := false
  dCacheHitWhere := .UNKNOWN
  iCacheHitWhere := .L1I
  iCacheLatency := 0
  decodedOffset := uop.microOpTypeOffset
  squashedCount := 0
  first := uop.first
  last := uop.last

/-- The first micro-op that is not squashed is changed. -/
def onFirst (f : InstructionUop Reg → InstructionUop Reg) :
    List (InstructionUop Reg) → List (InstructionUop Reg)
  | [] => []
  | uop :: rest => if uop.squashed then uop :: onFirst f rest else f uop :: rest

def setFirst (first : Bool) (uop : InstructionUop Reg) : InstructionUop Reg :=
  { uop with first := first }

def setLast (last : Bool) (uop : InstructionUop Reg) : InstructionUop Reg :=
  { uop with last := last }

def setSquashed (uop : InstructionUop Reg) : InstructionUop Reg := { uop with squashed := true }

/-- `squash`, with the micro-ops of the instruction. -/
def squash (index : Nat) (array : List (InstructionUop Reg)) : List (InstructionUop Reg) :=
  let array := array.modify index setSquashed
  let array := onFirst (setFirst true) array
  (onFirst (setLast true) array.reverse).reverse

/-! ### The corrections -/

/-- The first loop of `doSquashing`. -/
def countSquashed : Option UopType → Nat → Nat → List (InstructionUop Reg) →
    List (InstructionUop Reg)
  | _, _, _, [] => []
  | uop_type, squashedCount, microOpTypeOffset, uop :: rest =>
    if uop.squashed then
      { uop with squashedCount := squashedCount + 1 } ::
        countSquashed uop_type (squashedCount + 1) microOpTypeOffset rest
    else
      let microOpTypeOffset :=
        if uop_type = some uop.m_uop.uop_type then microOpTypeOffset else 0
      { uop with microOpTypeOffset := microOpTypeOffset, squashedCount := squashedCount } ::
        countSquashed (some uop.m_uop.uop_type) squashedCount (microOpTypeOffset + 1) rest

/-- The body of the second loop: the squashed micro-ops among the dependencies are taken off. -/
def correct (current_uops : List (InstructionUop Reg)) (i : Nat) (uop : InstructionUop Reg) :
    Except Stop (InstructionUop Reg) :=
  let intraDeps := uop.intraInstructionDependencies
  if uop.squashed ∨ intraDeps = 0 then .ok uop
  else
    let iBase := i - uop.decodedOffset
    if intraDeps ≤ iBase then
      match current_uops[iBase]?, current_uops[iBase - intraDeps]? with
      | some base, some first =>
        .ok { uop with intraInstructionDependencies :=
          intraDeps - (base.squashedCount - first.squashedCount) }
      | _, _ => .error .assertion
    else .error .assertion

/-- The second loop, from an index on. It leaves the counts of squashed micro-ops. -/
def correctFrom (current_uops : List (InstructionUop Reg)) (first_squashed : Nat) :
    Nat → List (InstructionUop Reg) → Except Stop (List (InstructionUop Reg))
  | _, [] => .ok []
  | i, uop :: rest => do
    let uop ← if i < first_squashed then pure uop else correct current_uops i uop
    let rest ← correctFrom current_uops first_squashed (i + 1) rest
    return uop :: rest

def doSquashing (current_uops : List (InstructionUop Reg)) (first_squashed : Nat) :
    Except Stop (List (InstructionUop Reg)) :=
  let current_uops := countSquashed none 0 0 current_uops
  correctFrom current_uops first_squashed 0 current_uops

/-- `++nextSequenceNumber` for each micro-op that is not squashed, as a timer enters them. -/
def number : Nat → List (InstructionUop Reg) → List (InstructionUop Reg)
  | _, [] => []
  | nextSequenceNumber, uop :: rest =>
    if uop.squashed then uop :: number nextSequenceNumber rest
    else { uop with sequenceNumber := nextSequenceNumber % 2 ^ 64 } ::
      number (nextSequenceNumber + 1) rest

end InstructionUop

/-! ### The memory operands -/

inductive Direction where
  | READ
  | WRITE
  deriving DecidableEq

/-- `Operand`: one in memory, or another. -/
inductive Operand where
  | memory (m_direction : Direction)
  | other

/-- `DynamicInstruction::MemoryInfo`, with the latency in cycles. -/
structure MemoryInfo where
  dir : Direction
  addr : Nat
  latency : Nat
  hit_where : HitWhere

/-- The variables of `handleInstruction`; what is kept for both directions is given by the
direction. -/
structure Operands (Reg : Type) where
  m_current_uops : List (InstructionUop Reg)
  m_cache_lines : Direction → List Nat
  num_done : Direction → Nat
  do_squashing : Bool

namespace Operands

/-- The type of the micro-ops for a direction. -/
def uopType : Direction → UopType
  | .READ => .load
  | .WRITE => .store

/-- The first load, or the first store. -/
def baseIndex (current_uops : List (InstructionUop Reg)) (direction : Direction) : Option Nat :=
  current_uops.findIdx? (·.m_uop.uop_type = uopType direction)

def cacheLine (addr : Nat) : Nat := addr / 64 * 64

/-- What the access of a micro-op sets. -/
def accessed (bypassLatency : InstructionUop Reg → Nat) (info : MemoryInfo)
    (uop : InstructionUop Reg) : InstructionUop Reg :=
  { uop with
    execLatency := info.latency + bypassLatency uop
    address := info.addr
    dCacheHitWhere := info.hit_where }

/-- The body of the loop over the operands, for one in memory. -/
def access (bypassLatency : InstructionUop Reg → Nat) (base : Direction → Option Nat)
    (info : MemoryInfo) (s : Operands Reg) : Except Stop (Operands Reg) :=
  match base info.dir with
  | none => .error .assertion
  | some base =>
    let index := base + s.num_done info.dir
    match s.m_current_uops[index]? with
    | none => .error .assertion
    | some uop =>
      if uop.m_uop.uop_type = uopType info.dir then
        let again := cacheLine info.addr ∈ s.m_cache_lines info.dir
        let current_uops :=
          if again then InstructionUop.squash index s.m_current_uops else s.m_current_uops
        .ok {
          m_current_uops := current_uops.modify index (accessed bypassLatency info)
          m_cache_lines := Function.update s.m_cache_lines info.dir
            (s.m_cache_lines info.dir ++ [cacheLine info.addr])
          num_done := Function.update s.num_done info.dir (s.num_done info.dir + 1)
          do_squashing := s.do_squashing || again }
      else .error .assertion

/-- The loop over the operands, with the memory accesses of those that are in memory. -/
def handle (bypassLatency : InstructionUop Reg → Nat) (base : Direction → Option Nat) :
    List Operand → List MemoryInfo → Operands Reg → Except Stop (Operands Reg)
  | [], _, s => .ok s
  | .other :: ops, memory_info, s => handle bypassLatency base ops memory_info s
  | .memory _ :: _, [], _ => .error .assertion
  | .memory m_direction :: ops, info :: memory_info, s =>
    if info.dir = m_direction then do
      handle bypassLatency base ops memory_info (← s.access bypassLatency base info)
    else .error .assertion

end Operands

/-- What `readInstructionMemory` has found. -/
def setICache (hit_where : HitWhere) (latency : Nat) (uop : InstructionUop Reg) :
    InstructionUop Reg :=
  { uop with iCacheHitWhere := hit_where, iCacheLatency := latency }

/-- `handleInstruction`, until the micro-ops have been squashed. -/
def handleInstruction (getInstructionLatency : DecodedUop Reg → Nat)
    (bypassLatency : InstructionUop Reg → Nat) (micro_ops : List (DecodedUop Reg))
    (icache : Option (HitWhere × Nat)) (ops : List Operand) (memory_info : List MemoryInfo) :
    Except Stop (List (InstructionUop Reg)) := do
  let current_uops := micro_ops.map (InstructionUop.create getInstructionLatency)
  let num (direction : Direction) :=
    current_uops.countP (·.m_uop.uop_type = Operands.uopType direction)
  let accessed_uops := match icache with
    | none => current_uops
    | some (hit_where, latency) => current_uops.modify 0 (setICache hit_where latency)
  let s ← Operands.handle bypassLatency (Operands.baseIndex current_uops) ops memory_info
    ⟨accessed_uops, fun _ => [], fun _ => 0, false⟩
  let current_uops ← if s.do_squashing then InstructionUop.doSquashing s.m_current_uops 0
    else pure s.m_current_uops
  if s.num_done .READ = num .READ ∧ s.num_done .WRITE = num .WRITE then return current_uops
  else throw .assertion

end Sniper.Timing
