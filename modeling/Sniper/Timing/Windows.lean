import Mathlib.Data.Int.Basic
import Sniper.Timing.MicroOp

/-! # The double window of the interval model

`Windows`: a ring of `2 * m_window_size` entries with the micro-ops that are still to be
dispatched, the window, and those dispatched before them, the old window. A slot that has been
left keeps its entry until it is used again. Times are natural numbers, as in the other timers; the
marks and the answer of `calculateBranchResolutionLatency` have the 32 bits of the source.
-/
namespace Sniper.Timing.Interval
open Function

/-- Why a call does not return. -/
inductive Halt where
  | stop (s : Stop)
  /-- The exit of `getInstruction`. -/
  | exit
  /-- The micro-op of an entry that was never used is read. -/
  | null
  | divideByZero
  | outOfFuel
  deriving DecidableEq

def ofStop {α : Type} (x : Except Stop α) : Except Halt α := x.mapError .stop

inductive UopSubtype where
  | FP_ADDSUB
  | FP_MULDIV
  | LOAD
  | STORE
  | GENERIC
  | BRANCH
  deriving DecidableEq

/-- A micro-op with what only this model reads: its subtype, two flags, and whether it was forced
to be a long-latency load. -/
structure IntervalUop (Reg : Type) extends DynamicMicroOp Reg where
  uop_subtype : UopSubtype
  interrupt : Bool
  last : Bool
  m_forceLongLatencyLoad : Bool
  deriving DecidableEq

inductive CpContrType where
  | FP_ADDSUB
  | FP_MULDIV
  | LOAD_L1
  | LOAD_L2
  | LOAD_L3
  | LOAD_LX
  | STORE
  | GENERIC
  | BRANCH
  deriving DecidableEq

/-- The types below `CPCONTR_TYPE_SIZE`. -/
def CpContrType.all : List CpContrType :=
  [.FP_ADDSUB, .FP_MULDIV, .LOAD_L1, .LOAD_L2, .LOAD_L3, .LOAD_LX, .STORE, .GENERIC, .BRANCH]

theorem CpContrType.mem_all (type : CpContrType) : type ∈ all := by
  cases type <;> decide

/-- By the numbers of `HitWhere::where_t`: `L1_OWN`, then `L2_OWN`, `L1_SIBLING` and
`L2_SIBLING`, then `L3_OWN` and `L3_SIBLING`. -/
def loadType : HitWhere → CpContrType
  | .elsewhere 3 => .LOAD_L1
  | .elsewhere 4 | .elsewhere 17 | .elsewhere 18 => .LOAD_L2
  | .elsewhere 5 | .elsewhere 19 => .LOAD_L3
  | _ => .LOAD_LX

def getCpContrType {Reg : Type} (uop : IntervalUop Reg) : CpContrType :=
  match uop.uop_subtype with
  | .FP_ADDSUB => .FP_ADDSUB
  | .FP_MULDIV => .FP_MULDIV
  | .LOAD => loadType uop.dCacheHitWhere
  | .STORE => .STORE
  | .GENERIC => .GENERIC
  | .BRANCH => .BRANCH

/-- `NO_DEP`, `DATA_DEP` and `INDEP_MISS`. -/
inductive Dependent where
  | NO_DEP
  | DATA_DEP
  | INDEP_MISS
  deriving DecidableEq

structure WindowEntry (Reg : Type) where
  uop : Option (IntervalUop Reg)
  execTime : Nat
  fetchTime : Nat
  cpContr : Nat
  cptail : Nat
  icacheOverlap : Bool
  bpredOverlap : Bool
  dcacheOverlap : Bool
  dependent : Dependent

namespace WindowEntry
variable {Reg : Type}

/-- What the constructor and `initialize` make of an entry. -/
def init (micro_op : Option (IntervalUop Reg)) : WindowEntry Reg :=
  ⟨micro_op, 0, 0, 0, 0, false, false, false, .NO_DEP⟩

def getDynMicroOp (e : WindowEntry Reg) : Except Halt (IntervalUop Reg) :=
  match e.uop with
  | some uop => .ok uop
  | none => .error .null

def getSequenceNumber (e : WindowEntry Reg) : Except Halt Nat :=
  (·.sequenceNumber) <$> e.getDynMicroOp

end WindowEntry

/-- `IntervalContention` of a core model, with the state `C`. -/
structure IntervalContention (Reg C : Type) where
  clearFunctionalUnitStats : C → C
  addFunctionalUnitStats : IntervalUop Reg → C → C
  removeFunctionalUnitStats : IntervalUop Reg → C → C
  getEffectiveCriticalPathLength : Nat → Bool → C → Nat × C

structure Windows (Reg C : Type) where
  m_window_size : Nat
  m_double_window : Nat → WindowEntry Reg
  m_exec_time_map : Nat → Nat
  m_next_sequence_number : Nat
  m_register_dependencies : RegisterDependencies Reg
  m_memory_dependencies : MemoryDependencies
  m_window_head__old_window_tail : Nat
  m_window_tail : Nat
  m_old_window_head : Nat
  m_window_length : Nat
  m_old_window_length : Nat
  m_critical_path_head : Nat
  m_critical_path_tail : Nat
  m_cpcontr_bytype : CpContrType → Nat
  m_cpcontr_total : Nat
  interval_contention : C

/-- Unsigned subtraction, which wraps around below zero. -/
def sub64 (a b : Nat) : Nat := if b ≤ a then a - b else a + 2 ^ 64 - b

namespace Windows
variable {Reg C : Type}

/-- The constructor, with `clear`. -/
def new (window_size : Nat) (contention : IntervalContention Reg C) (c : C) : Windows Reg C where
  m_window_size := window_size
  m_double_window := fun _ => .init none
  m_exec_time_map := fun _ => 0
  m_next_sequence_number := 0
  m_register_dependencies := fun _ => none
  m_memory_dependencies := ⟨[], none⟩
  m_window_head__old_window_tail := 0
  m_window_tail := 0
  m_old_window_head := 0
  m_window_length := 0
  m_old_window_length := 0
  m_critical_path_head := 0
  m_critical_path_tail := 0
  m_cpcontr_bytype := fun _ => 0
  m_cpcontr_total := 0
  interval_contention := contention.clearFunctionalUnitStats c

variable (ws : Windows Reg C)

def m_double_window_size : Nat := 2 * ws.m_window_size

def wIsFull : Bool := ws.m_window_length = ws.m_window_size

def wIsEmpty : Bool := ws.m_window_length = 0

def incrementIndex (index : Nat) : Nat := (index + 1) % ws.m_double_window_size

def decrementIndex (index : Nat) : Nat :=
  (index + ws.m_double_window_size - 1) % ws.m_double_window_size

/-- The remainder of `%` has the sign of the index, which the second step corrects. -/
def windowIndex (index : Int) : Nat := (index % ws.m_double_window_size).toNat

/-- Indices are remainders by the double window size, so none is out of bounds. -/
def getInstructionByIndex (index : Nat) : WindowEntry Reg := ws.m_double_window index

/-- An entry of the ring is changed. -/
def modify (index : Nat) (f : WindowEntry Reg → WindowEntry Reg) : Windows Reg C :=
  { ws with m_double_window :=
      update ws.m_double_window index (f (ws.m_double_window index)) }

def clearFunctionalUnitStats (contention : IntervalContention Reg C) : Windows Reg C :=
  { ws with
    m_cpcontr_bytype := fun _ => 0
    m_cpcontr_total := 0
    interval_contention := contention.clearFunctionalUnitStats ws.interval_contention }

def addFunctionalUnitStats (contention : IntervalContention Reg C) (e : WindowEntry Reg) :
    Except Halt (Windows Reg C) := do
  let uop ← e.getDynMicroOp
  let type := getCpContrType uop
  return { ws with
    m_cpcontr_bytype :=
      update ws.m_cpcontr_bytype type (ws.m_cpcontr_bytype type + e.cpContr)
    m_cpcontr_total := ws.m_cpcontr_total + e.cpContr
    interval_contention := contention.addFunctionalUnitStats uop ws.interval_contention }

def removeFunctionalUnitStats (contention : IntervalContention Reg C) (e : WindowEntry Reg) :
    Except Halt (Windows Reg C) := do
  let uop ← e.getDynMicroOp
  let type := getCpContrType uop
  return { ws with
    m_cpcontr_bytype :=
      update ws.m_cpcontr_bytype type (sub64 (ws.m_cpcontr_bytype type) e.cpContr)
    m_cpcontr_total := sub64 ws.m_cpcontr_total e.cpContr
    interval_contention := contention.removeFunctionalUnitStats uop ws.interval_contention }

/-- Adds a micro-op and calculates its dependencies. -/
def add [DecidableEq Reg] (decoder : Decoder Reg) (micro_op : IntervalUop Reg) :
    Except Halt (Windows Reg C) :=
  if ws.wIsFull then throw (.stop .assertion)
  else do
    let index := ws.m_window_tail
    let micro_op :=
      { micro_op with sequenceNumber := ws.m_next_sequence_number }
    let ws := { ws with
      m_window_tail := ws.incrementIndex index
      m_window_length := ws.m_window_length + 1
      m_next_sequence_number := ws.m_next_sequence_number + 1
      m_double_window := update ws.m_double_window index (.init (some micro_op)) }
    let lowestValidSequenceNumber ←
      (ws.getInstructionByIndex ws.m_old_window_head).getSequenceNumber
    let (registers, uop) ← ofStop (ws.m_register_dependencies.setDependencies decoder
      micro_op.toDynamicMicroOp lowestValidSequenceNumber)
    let (memory, uop) ← ofStop (ws.m_memory_dependencies.setDependencies uop
      lowestValidSequenceNumber)
    let micro_op := { micro_op with toDynamicMicroOp := uop }
    return { ws.modify index (fun e => { e with uop := some micro_op }) with
      m_register_dependencies := registers
      m_memory_dependencies := memory }

def getInstruction (sequenceNumber : Nat) : Except Halt (Nat × WindowEntry Reg) := do
  let windowHead := ws.getInstructionByIndex ws.m_window_head__old_window_tail
  let distance : Int := (← windowHead.getSequenceNumber) - sequenceNumber
  let index := ws.windowIndex (ws.m_window_head__old_window_tail - distance)
  let ret := ws.getInstructionByIndex index
  if (← ret.getSequenceNumber) = sequenceNumber then return (index, ret) else throw .exit

def getInstructionToDispatch : WindowEntry Reg :=
  ws.getInstructionByIndex ws.m_window_head__old_window_tail

def getOldestInstruction : WindowEntry Reg := ws.getInstructionByIndex ws.m_old_window_head

/-- The oldest micro-op leaves a full old window. -/
def retire (contention : IntervalContention Reg C) : Except Halt (Windows Reg C) := do
  let oldest := ws.getInstructionByIndex ws.m_old_window_head
  let ws ← ws.removeFunctionalUnitStats contention oldest
  return { ws with
    m_critical_path_head := max ws.m_critical_path_head oldest.execTime
    m_old_window_head := ws.incrementIndex ws.m_old_window_head
    m_old_window_length := ws.m_old_window_length - 1 }

def dispatchInstruction (contention : IntervalContention Reg C) :
    Except Halt (Windows Reg C) := do
  let ws ← if ws.m_old_window_length = ws.m_window_size then ws.retire contention else pure ws
  let ws ← ws.addFunctionalUnitStats contention
    (ws.getInstructionByIndex ws.m_window_head__old_window_tail)
  return { ws with
    m_window_head__old_window_tail := ws.incrementIndex ws.m_window_head__old_window_tail
    m_window_length := ws.m_window_length - 1
    m_old_window_length := ws.m_old_window_length + 1 }

def clearOldWindow (contention : IntervalContention Reg C) (newCpHead : Nat) : Windows Reg C :=
  { ws with
    m_critical_path_head := newCpHead
    m_critical_path_tail := newCpHead
    m_old_window_length := 0
    m_old_window_head := ws.m_window_head__old_window_tail }.clearFunctionalUnitStats contention

def windowContains (sequenceNumber : Nat) : Except Halt Bool := do
  let lowestValid ←
    (ws.getInstructionByIndex ws.m_window_head__old_window_tail).getSequenceNumber
  let highestValid ←
    (ws.getInstructionByIndex (ws.decrementIndex ws.m_window_tail)).getSequenceNumber
  return lowestValid ≤ sequenceNumber && sequenceNumber ≤ highestValid

def oldWindowContains (sequenceNumber : Nat) : Except Halt Bool := do
  let lowestValid ← (ws.getInstructionByIndex ws.m_old_window_head).getSequenceNumber
  let highestValid ← (ws.getInstructionByIndex
    (ws.decrementIndex ws.m_window_head__old_window_tail)).getSequenceNumber
  return lowestValid ≤ sequenceNumber && sequenceNumber ≤ highestValid

/-- The difference is cut to the 32 bits of an `int`. -/
def getCriticalPathLength : Int :=
  if ws.m_critical_path_head ≤ ws.m_critical_path_tail then
    Int.bmod (ws.m_critical_path_tail - ws.m_critical_path_head) (2 ^ 32)
  else 0

/-- Whether a micro-op extends the critical path by the cut-off or more; the extension itself is
not returned. -/
def longLatencyOperationLatency (cutoff : Nat) (e : WindowEntry Reg) : Nat :=
  if e.execTime < ws.m_critical_path_tail then 0
  else if e.execTime - ws.m_critical_path_tail < cutoff then 0
  else 1

/-- For the entry at an index. -/
def updateCriticalPathTail (index : Nat) : Windows Reg C :=
  let execTime := (ws.getInstructionByIndex index).execTime
  if execTime > ws.m_critical_path_tail then
    { ws.modify index (fun e => { e with cpContr := execTime - ws.m_critical_path_tail }) with
      m_critical_path_tail := execTime }
  else ws

def getMinimalFlushLatency (width : Nat) : Nat := (ws.m_old_window_length + (width - 1)) / width

def getCpContrFraction (type : CpContrType) (effective_cp_length : Nat) : Except Halt Nat :=
  if ¬ ws.m_cpcontr_bytype type ≤ ws.m_cpcontr_total then throw (.stop .assertion)
  else if ws.m_cpcontr_total > 0 then
    if effective_cp_length = 0 then throw .divideByZero
    else return 1000000 * ws.m_cpcontr_bytype type / effective_cp_length
  else return 0

/-- The indices of an `Iterator`; one that meets its end has fewer steps than the ring. -/
def indices : Nat → Nat → Nat → List Nat
  | 0, _, _ => []
  | fuel + 1, index, stop =>
    if index = stop then [] else index :: indices fuel (ws.incrementIndex index) stop

def getWindowIterator : List Nat :=
  ws.indices ws.m_double_window_size ws.m_window_head__old_window_tail ws.m_window_tail

/-! ### Branch resolution -/

/-- The producers among the dependencies that are in the old window get marked, by their latency,
the marks so far and their index. -/
def markProducers (mark : Nat → (Nat → Nat) → Nat → Nat) :
    List Nat → (Nat → Nat) → Except Halt (Nat → Nat)
  | [], m_exec_time_map => .ok m_exec_time_map
  | dependency :: rest, m_exec_time_map => do
    if ← ws.oldWindowContains dependency then
      let (index, producer) ← ws.getInstruction dependency
      let uop ← producer.getDynMicroOp
      markProducers mark rest (update m_exec_time_map index
        (mark uop.execLatency m_exec_time_map index))
    else markProducers mark rest m_exec_time_map

/-- What a mark, which is a `uint32_t`, keeps of a latency. -/
def cutMark (latency : Nat) : Nat := latency % 2 ^ 32

/-- The loop over the old window, youngest first: the latency, and the map. -/
def resolve : Nat → Nat → (Nat → Nat) → Nat → Except Halt (Nat × (Nat → Nat))
  | 0, _, m_exec_time_map, br_resolution_latency => .ok (br_resolution_latency, m_exec_time_map)
  | n + 1, i, m_exec_time_map, br_resolution_latency =>
    if m_exec_time_map i ≠ 0 then do
      let op ← (ws.getInstructionByIndex i).getDynMicroOp
      let m_exec_time_map ← ws.markProducers (fun execLatency marks index =>
        max (cutMark (execLatency + marks i)) (marks index)) op.getDependencies m_exec_time_map
      resolve n (ws.windowIndex (i - 1)) (update m_exec_time_map i 0)
        (max br_resolution_latency (m_exec_time_map i))
    else resolve n (ws.windowIndex (i - 1)) m_exec_time_map br_resolution_latency

/-- The `uint32_t` is returned as an `int`. -/
def calculateBranchResolutionLatency : Except Halt (Int × Windows Reg C) := do
  let micro_op ← ws.getInstructionToDispatch.getDynMicroOp
  let m_exec_time_map ← ws.markProducers (fun execLatency _ _ => cutMark execLatency)
    micro_op.getDependencies ws.m_exec_time_map
  let (br_resolution_latency, m_exec_time_map) ← ws.resolve ws.m_old_window_length
    (ws.windowIndex (ws.m_window_head__old_window_tail - 1)) m_exec_time_map 0
  return (Int.bmod br_resolution_latency (2 ^ 32),
    { ws with m_exec_time_map := m_exec_time_map })

end Windows
end Sniper.Timing.Interval
