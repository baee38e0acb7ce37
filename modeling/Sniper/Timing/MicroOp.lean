import Mathlib.Algebra.GroupWithZero.Nat
import Mathlib.Data.List.Basic

/-! # Micro-ops and their dependencies

`MicroOp`, `DynamicMicroOp`, `RegisterDependencies` and `MemoryDependencies`. A dependency is
the sequence number of a producer; sequence numbers are 64 bits wide, and what is computed from
them wraps around. A `LOG_ASSERT` that fails ends the simulation.
-/
namespace Sniper.Timing

/-- Why a call does not return. -/
inductive Stop where
  | assertion
  /-- More entries are written to a local array than it has. -/
  | overflow
  /-- The address of a store is not ready when the store issues. -/
  | address
  deriving DecidableEq

inductive UopType where
  | load
  | execute
  | store
  deriving DecidableEq

/-- `HitWhere::where_t`, as far as a timer looks at it. -/
inductive HitWhere where
  | L1I
  | UNKNOWN
  | elsewhere (level : Nat)
  deriving DecidableEq

structure MicroOp (Reg : Type) where
  uop_type : UopType
  sourceRegisters : List Reg
  addressRegisters : List Reg
  destinationRegisters : List Reg
  branch : Bool
  serializing : Bool
  m_membar : Bool
  deriving DecidableEq

/-- `Sim()->getDecoder()`, as far as the register dependencies use it. -/
structure Decoder (Reg : Type) where
  map_register : Reg → Reg
  /-- Below `last_reg()`. -/
  valid : Reg → Bool
  DL_REG_INVALID : Reg

namespace MicroOp
variable {Reg : Type} (uop : MicroOp Reg)

def isLoad : Bool := uop.uop_type = .load

def isStore : Bool := uop.uop_type = .store

/-- What `InstructionDecoder` makes of the registers: they are the largest enclosing ones,
which are mapped to themselves, and a memory access reads those of its address. -/
structure Decoded (decoder : Decoder Reg) : Prop where
  mapped : ∀ r ∈ uop.sourceRegisters, decoder.map_register r = r
  address : ∀ r ∈ uop.addressRegisters, r ∈ uop.sourceRegisters

end MicroOp

def MAXIMUM_NUMBER_OF_DEPENDENCIES : Nat := 14

structure DynamicMicroOp (Reg : Type) where
  m_uop : MicroOp Reg
  sequenceNumber : Nat
  address : Nat
  squashed : Bool
  intraInstructionDependencies : Nat
  microOpTypeOffset : Nat
  dependencies : List Nat
  execLatency : Nat
  branchMispredicted : Bool
  dCacheHitWhere : HitWhere
  iCacheHitWhere : HitWhere
  iCacheLatency : Nat
  deriving DecidableEq

namespace DynamicMicroOp
variable {Reg : Type} (uop : DynamicMicroOp Reg)

/-- A micro-op before its dependencies are set, which hits in the instruction cache. -/
def hit (m_uop : MicroOp Reg) (address execLatency : Nat) : DynamicMicroOp Reg where
  m_uop := m_uop
  sequenceNumber := 0
  address := address
  squashed := false
  intraInstructionDependencies := 0
  microOpTypeOffset := 0
  dependencies := []
  execLatency := execLatency
  branchMispredicted := false
  dCacheHitWhere := .UNKNOWN
  iCacheHitWhere := .L1I
  iCacheLatency := 0

/-- The sequence number of the intra-instruction dependency with so many behind it, itself
included. -/
def intraDependency (behind : Nat) : Nat :=
  (uop.sequenceNumber + 2 ^ 64 - (uop.microOpTypeOffset + behind) % 2 ^ 64) % 2 ^ 64

/-- The first intra-instruction dependencies, oldest first. -/
def intraDependencies : Nat → List Nat
  | 0 => []
  | behind + 1 => uop.intraDependency (behind + 1) :: intraDependencies behind

/-- `getDependency` for every index below `getDependenciesLength`. -/
def getDependencies : List Nat :=
  uop.intraDependencies uop.intraInstructionDependencies ++ uop.dependencies

def addDependency (sequenceNumber : Nat) : Except Stop (DynamicMicroOp Reg) :=
  if sequenceNumber ∈ uop.dependencies then .ok uop
  else if uop.dependencies.length < MAXIMUM_NUMBER_OF_DEPENDENCIES then
    .ok { uop with dependencies := uop.dependencies ++ [sequenceNumber] }
  else .error .assertion

/-- The first loop of `removeDependency`: intra-instruction dependencies become regular ones
until the one to be removed is the first. -/
def popIntra (sequenceNumber : Nat) : Nat → List Nat → Except Stop (Nat × List Nat)
  | 0, _ => .error .assertion
  | behind + 1, dependencies =>
    if sequenceNumber = uop.intraDependency (behind + 1) then .ok (behind, dependencies)
    else if dependencies.length + 1 < MAXIMUM_NUMBER_OF_DEPENDENCIES then
      popIntra sequenceNumber behind (dependencies ++ [uop.intraDependency (behind + 1)])
    else .error .assertion

/-- The element is swapped with the last one and dropped. -/
def swapRemove (dependencies : List Nat) (sequenceNumber : Nat) : Except Stop (List Nat) :=
  match dependencies.getLast? with
  | none => .error .assertion
  | some final =>
    if final = sequenceNumber then .ok dependencies.dropLast
    else if sequenceNumber ∈ dependencies then
      .ok (dependencies.set (dependencies.idxOf sequenceNumber) final).dropLast
    else .error .assertion

def removeDependency (sequenceNumber : Nat) : Except Stop (DynamicMicroOp Reg) :=
  if uop.intraDependency uop.intraInstructionDependencies ≤ sequenceNumber then
    (uop.popIntra sequenceNumber uop.intraInstructionDependencies uop.dependencies).map
      fun (intra, dependencies) =>
        { uop with intraInstructionDependencies := intra, dependencies := dependencies }
  else
    (swapRemove uop.dependencies sequenceNumber).map fun dependencies =>
      { uop with dependencies := dependencies }

end DynamicMicroOp

/-! ### Register dependencies -/

/-- `RegisterDependencies::producers`. -/
abbrev RegisterDependencies (Reg : Type) := Reg → Option Nat

namespace RegisterDependencies
variable {Reg : Type} [DecidableEq Reg]

/-- The loop over the source registers. -/
def readSources (decoder : Decoder Reg) (lowestValidSequenceNumber : Nat) :
    List Reg → RegisterDependencies Reg → DynamicMicroOp Reg →
    Except Stop (RegisterDependencies Reg × DynamicMicroOp Reg)
  | [], producers, microOp => .ok (producers, microOp)
  | sourceRegister :: rest, producers, microOp =>
    if decoder.valid sourceRegister = false then .error .assertion
    else
      match producers sourceRegister with
      | none => readSources decoder lowestValidSequenceNumber rest producers microOp
      | some producer =>
        if lowestValidSequenceNumber ≤ producer then do
          let microOp ← microOp.addDependency producer
          readSources decoder lowestValidSequenceNumber rest producers microOp
        else
          readSources decoder lowestValidSequenceNumber rest
            (Function.update producers (decoder.map_register sourceRegister) none) microOp

/-- The loop over the destination registers. -/
def writeDestinations (decoder : Decoder Reg) (sequenceNumber : Nat) :
    List Reg → RegisterDependencies Reg → Except Stop (RegisterDependencies Reg)
  | [], producers => .ok producers
  | destinationRegister :: rest, producers =>
    if decoder.valid destinationRegister = false then .error .assertion
    else
      writeDestinations decoder sequenceNumber rest
        (Function.update producers destinationRegister (some sequenceNumber))

def setDependencies (decoder : Decoder Reg) (producers : RegisterDependencies Reg)
    (microOp : DynamicMicroOp Reg) (lowestValidSequenceNumber : Nat) :
    Except Stop (RegisterDependencies Reg × DynamicMicroOp Reg) := do
  let (producers, microOp) ←
    readSources decoder lowestValidSequenceNumber microOp.m_uop.sourceRegisters producers microOp
  let producers ← writeDestinations decoder microOp.sequenceNumber
    microOp.m_uop.destinationRegisters producers
  return (producers, microOp)

def peekProducer (decoder : Decoder Reg) (producers : RegisterDependencies Reg) (reg : Reg)
    (lowestValidSequenceNumber : Nat) : Option Nat :=
  if reg = decoder.DL_REG_INVALID then none
  else (producers reg).filter (lowestValidSequenceNumber ≤ ·)

end RegisterDependencies

/-! ### Memory dependencies -/

/-- `MemoryDependencies`: the stores with their addresses, oldest first, and the last barrier. -/
structure MemoryDependencies where
  producers : List (Nat × Nat)
  membar : Option Nat

namespace MemoryDependencies
variable {Reg : Type} (deps : MemoryDependencies)

def clean (lowestValidSequenceNumber : Nat) : MemoryDependencies :=
  { deps with producers := deps.producers.dropWhile (·.1 < lowestValidSequenceNumber) }

def find (address : Nat) : Option Nat :=
  (deps.producers.reverse.find? (·.2 = address)).map (·.1)

/-- The queue of producers holds 1024. -/
def add (sequenceNumber address : Nat) : Except Stop MemoryDependencies :=
  if deps.producers.length < 1024 then
    .ok { deps with producers := deps.producers ++ [(sequenceNumber, address)] }
  else .error .assertion

/-- The dependency on the last barrier. -/
def onMembar (lowestValidSequenceNumber : Nat) (microOp : DynamicMicroOp Reg) :
    Except Stop (DynamicMicroOp Reg) :=
  match deps.membar with
  | none => .ok microOp
  | some membar =>
    if lowestValidSequenceNumber < membar then microOp.addDependency membar else .ok microOp

/-- The dependency of a load on the last store to its address. -/
def onStore (microOp : DynamicMicroOp Reg) : Except Stop (DynamicMicroOp Reg) :=
  match deps.find microOp.address with
  | some producer => microOp.addDependency producer
  | none => .ok microOp

def setDependencies (microOp : DynamicMicroOp Reg) (lowestValidSequenceNumber : Nat) :
    Except Stop (MemoryDependencies × DynamicMicroOp Reg) := do
  let deps := deps.clean lowestValidSequenceNumber
  if microOp.m_uop.isLoad then
    let microOp ← deps.onStore microOp
    let microOp ← deps.onMembar lowestValidSequenceNumber microOp
    return (deps, microOp)
  else if microOp.m_uop.isStore then
    let deps ← deps.add microOp.sequenceNumber microOp.address
    let microOp ← deps.onMembar lowestValidSequenceNumber microOp
    return (deps, microOp)
  else if microOp.m_uop.m_membar then
    let microOp ← deps.onMembar lowestValidSequenceNumber microOp
    return ({ deps with membar := some microOp.sequenceNumber }, microOp)
  else
    return (deps, microOp)

end MemoryDependencies
end Sniper.Timing
