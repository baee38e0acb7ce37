import Sniper.Lib.Simulation
import Sniper.Tracing.AddressTranslation

/-! # Memory accesses of a traced instruction

`handleInstructionWarmup` accesses the caches directly, `handleInstructionDetailed` records the
accesses in a `DynamicInstruction` for the performance model. Both compute the address of each
memory operand. What the decoder library says about an instruction is data here, and so is the
answer of the branch predictor. -/
namespace Sniper.Tracing.Handlers
open Translation (Word TraceThread)
open Lib.Simulation (of_bind_ok)

/-- An instruction as the decoder library answers for it. -/
structure DecodedInst where
  num_memory_operands : Nat
  op_read_mem : Nat → Bool
  op_write_mem : Nat → Bool
  size_mem_op : Nat → BitVec 32
  is_mem_pair : Bool
  is_atomic : Bool
  is_prefetch : Bool
  is_nop : Bool
  is_indirect_branch : Bool

/-- A record of the trace; `num_addresses` is the length of `addresses`. -/
structure Instruction where
  addr : Word
  addresses : List Word
  is_branch : Bool
  taken : Bool
  executed : Bool

inductive Fault where
  /-- "Did not receive enough data addresses", and the assertions of the detailed path. -/
  | notEnoughAddresses
  /-- An address in front of the first one is read. -/
  | outOfRange
  /-- "Got more than MAX_MEMORY(%d) memory operands". -/
  | tooManyOperands
  deriving DecidableEq

/-- `addresses[idx]`. -/
def addressAt (inst : Instruction) (idx : Nat) : Except Fault Word :=
  match inst.addresses[idx]? with
  | some address => .ok address
  | none => .error .notEnoughAddresses

/-- The address of the second element of a pair, behind the first. -/
def pairAddress (dec : DecodedInst) (inst : Instruction) (mem_idx : Nat) : Except Fault Word :=
  match mem_idx with
  | 0 => .error .outOfRange
  | idx + 1 => do
    let first ← addressAt inst idx
    .ok (first + (dec.size_mem_op mem_idx).setWidth 64)

/-- Whether `noMapping` may be set: only for a prefetch is it asked for. -/
def translate (t : TraceThread) (is_prefetch : Bool) (address : Word) : Word × Bool :=
  let (pa, no_mapping) := t.va2pa address
  (pa, is_prefetch && no_mapping)

/-! ### Warm-up -/

inductive MemOp where
  | READ
  | READ_EX
  | WRITE
  deriving DecidableEq

/-- What `handleInstructionWarmup` calls at the core. -/
inductive Event where
  | readInstructionMemory (address size : Word)
  | accessBranchPredictor (eip : Word) (taken indirect : Bool) (target : Word)
  | handleBranchMispredict
  | accessMemory (mem_op_type : MemOp) (d_addr : Word) (data_size : BitVec 32) (eip : Word)
  | logMemoryHit (mem_op_type : MemOp) (address eip : Word)
  deriving DecidableEq

/-- `mem_address` in the two loops of `handleInstructionWarmup`. -/
def warmupAddress (dec : DecodedInst) (inst : Instruction) (mem_idx : Nat) : Except Fault Word :=
  if dec.is_mem_pair && mem_idx == inst.addresses.length + 1 then
    if mem_idx < inst.addresses.length + 1 then pairAddress dec inst mem_idx
    else .error .notEnoughAddresses
  else addressAt inst mem_idx

/-- One of the loops over the operands: `selected` says which operands it takes and `access`
what it calls for one. -/
def warmupLoop (t : TraceThread) (dec : DecodedInst) (inst : Instruction)
    (selected : Nat → Bool) (access : Word → BitVec 32 → Event) :
    List Nat → Except Fault (List Event)
  | [] => .ok []
  | mem_idx :: rest =>
    if selected mem_idx then do
      let mem_address ← warmupAddress dec inst mem_idx
      let (pa, no_mapping) := translate t dec.is_prefetch mem_address
      let events ← warmupLoop t dec inst selected access rest
      .ok (if no_mapping then events else access pa (dec.size_mem_op mem_idx) :: events)
    else warmupLoop t dec inst selected access rest

def warmupRead (t : TraceThread) (dec : DecodedInst) (inst : Instruction) (pa : Word)
    (size : BitVec 32) : Event :=
  .accessMemory (if dec.is_atomic then .READ_EX else .READ) pa size (t.va2pa inst.addr).1

def warmupWrite (t : TraceThread) (dec : DecodedInst) (inst : Instruction) (pa : Word)
    (size : BitVec 32) : Event :=
  if dec.is_atomic then .logMemoryHit .WRITE pa (t.va2pa inst.addr).1
  else .accessMemory .WRITE pa size (t.va2pa inst.addr).1

def warmupData (t : TraceThread) (dec : DecodedInst) (inst : Instruction) :
    Except Fault (List Event) :=
  if inst.executed && !dec.is_nop then do
    let operands := List.range dec.num_memory_operands
    let reads ← warmupLoop t dec inst dec.op_read_mem (warmupRead t dec inst) operands
    let writes ← warmupLoop t dec inst dec.op_write_mem (warmupWrite t dec inst) operands
    .ok (reads ++ writes)
  else .ok []

/-- `handleInstructionWarmup`; `icache` is the block to warm up, where the instruction caches are
modelled, and `mispredict` the answer of the branch predictor. -/
def handleInstructionWarmup (t : TraceThread) (dec : DecodedInst) (inst next_inst : Instruction)
    (icache : Option (Word × Word)) (mispredict : Bool) : Except Fault (List Event) := do
  let fetch := match icache with
    | some (addr, size) => [Event.readInstructionMemory (t.va2pa addr).1 size]
    | none => []
  let branch :=
    if inst.is_branch then
      .accessBranchPredictor (t.va2pa inst.addr).1 inst.taken dec.is_indirect_branch
        (t.va2pa next_inst.addr).1 ::
        (if mispredict then [Event.handleBranchMispredict] else [])
    else []
  let data ← warmupData t dec inst
  .ok (fetch ++ branch ++ data)

/-! ### Detailed -/

inductive Direction where
  | READ
  | WRITE
  deriving DecidableEq

inductive HitWhere where
  | UNKNOWN
  | PREFETCH_NO_MAPPING
  deriving DecidableEq

/-- The entry that `addMemory` writes; latency and misses are 0. -/
structure MemoryInfo where
  executed : Bool
  dir : Direction
  addr : Word
  size : BitVec 32
  hit_where : HitWhere
  deriving DecidableEq

structure BranchInfo where
  is_indirect : Bool
  taken : Bool
  target : Word
  deriving DecidableEq

structure DynamicInstruction where
  eip : Word
  branch_info : Option BranchInfo
  /-- The first `num_memory` entries. -/
  memory_info : List MemoryInfo
  deriving DecidableEq

def MAX_MEMORY : Nat := 2

def DynamicInstruction.addMemory (dynins : DynamicInstruction) (info : MemoryInfo) :
    Except Fault DynamicInstruction :=
  if dynins.memory_info.length < MAX_MEMORY then
    .ok { dynins with memory_info := dynins.memory_info ++ [info] }
  else .error .tooManyOperands

/-- `mem_address` in `addDetailedMemoryInfo`. -/
def detailedAddress (dec : DecodedInst) (inst : Instruction) (mem_idx : Nat) :
    Except Fault Word :=
  if dec.is_mem_pair && mem_idx == inst.addresses.length then
    if mem_idx < inst.addresses.length + 1 then pairAddress dec inst mem_idx
    else .error .notEnoughAddresses
  else addressAt inst mem_idx

/-- The entry for an operand at a translated address. -/
def memoryInfo (dec : DecodedInst) (inst : Instruction) (op_type : Direction) (mem_idx : Nat) :
    Word × Bool → MemoryInfo
  | (_, true) => ⟨inst.executed, op_type, 0, dec.size_mem_op mem_idx, .PREFETCH_NO_MAPPING⟩
  | (pa, false) => ⟨inst.executed, op_type, pa, dec.size_mem_op mem_idx, .UNKNOWN⟩

def addDetailedMemoryInfo (t : TraceThread) (dec : DecodedInst) (inst : Instruction)
    (op_type : Direction) (dynins : DynamicInstruction) (mem_idx : Nat) :
    Except Fault DynamicInstruction := do
  let mem_address ← detailedAddress dec inst mem_idx
  dynins.addMemory (memoryInfo dec inst op_type mem_idx (translate t dec.is_prefetch mem_address))

/-- One of the loops over the operands. -/
def detailedLoop (t : TraceThread) (dec : DecodedInst) (inst : Instruction)
    (selected : Nat → Bool) (op_type : Direction) (operands : List Nat)
    (dynins : DynamicInstruction) : Except Fault DynamicInstruction :=
  operands.foldlM (fun dynins mem_idx =>
    if selected mem_idx then addDetailedMemoryInfo t dec inst op_type dynins mem_idx
    else .ok dynins) dynins

/-- `handleInstructionDetailed` up to `queueInstruction`. -/
def handleInstructionDetailed (t : TraceThread) (dec : DecodedInst)
    (inst next_inst : Instruction) : Except Fault DynamicInstruction := do
  let branch_info :=
    if inst.is_branch then
      some ⟨dec.is_indirect_branch, inst.taken, (t.va2pa next_inst.addr).1⟩
    else none
  let dynins : DynamicInstruction := ⟨(t.va2pa inst.addr).1, branch_info, []⟩
  if dec.is_nop then .ok dynins
  else do
    let operands := List.range dec.num_memory_operands
    let dynins ← detailedLoop t dec inst dec.op_read_mem .READ operands dynins
    detailedLoop t dec inst dec.op_write_mem .WRITE operands dynins

/-! ### The same accesses -/

/-- Direction, physical address and size of an access. -/
abbrev Access := Direction × Word × Option (BitVec 32)

/-- The data access of a call at the core. A logged hit has no size. -/
def performed : Event → Option Access
  | .accessMemory .WRITE pa size _ => some (.WRITE, pa, some size)
  | .accessMemory _ pa size _ => some (.READ, pa, some size)
  | .logMemoryHit .WRITE pa _ => some (.WRITE, pa, none)
  | .logMemoryHit _ pa _ => some (.READ, pa, none)
  | _ => none

/-- The size that the warm-up passes on: writes of atomic updates are only logged. -/
def sizeOf (dec : DecodedInst) (dir : Direction) (size : BitVec 32) : Option (BitVec 32) :=
  if dec.is_atomic && dir == .WRITE then none else some size

/-- What an entry of the `DynamicInstruction` asks of the warm-up: nothing without a mapping. -/
def recorded (dec : DecodedInst) (info : MemoryInfo) : Option Access :=
  if info.hit_where = .PREFETCH_NO_MAPPING then none
  else some (info.dir, info.addr, sizeOf dec info.dir info.size)

/-- The operands that an instruction reads or writes have an address of their own. -/
def OwnAddresses (dec : DecodedInst) (inst : Instruction) : Prop :=
  ∀ mem_idx < dec.num_memory_operands,
    dec.op_read_mem mem_idx ∨ dec.op_write_mem mem_idx → mem_idx < inst.addresses.length

section Loops
variable {t : TraceThread} {dec : DecodedInst} {inst : Instruction}

theorem addresses_agree {dec mem_idx} (h : mem_idx < inst.addresses.length) :
    warmupAddress dec inst mem_idx = .ok (inst.addresses[mem_idx]) ∧
      detailedAddress dec inst mem_idx = .ok (inst.addresses[mem_idx]) := by
  have hne : (mem_idx == inst.addresses.length) = false := by simp [h.ne]
  have hne' : (mem_idx == inst.addresses.length + 1) = false := by
    simp
    omega
  simp [warmupAddress, detailedAddress, addressAt, hne, hne', h]

theorem recorded_memoryInfo (op_type : Direction) (mem_idx : Nat) (p : Word × Bool) :
    recorded dec (memoryInfo dec inst op_type mem_idx p) =
      if p.2 then none
      else some (op_type, p.1, sizeOf dec op_type (dec.size_mem_op mem_idx)) := by
  obtain ⟨pa, _ | _⟩ := p
  all_goals simp [memoryInfo, recorded]

theorem addMemory_ok {dynins out : DynamicInstruction} {info : MemoryInfo}
    (h : dynins.addMemory info = .ok out) :
    out.memory_info = dynins.memory_info ++ [info] := by
  rw [DynamicInstruction.addMemory] at h
  split at h
  · cases h
    rfl
  · cases h

theorem warmupLoop_of_detailedLoop {selected op_type} (access : Word → BitVec 32 → Event)
    (haccess : ∀ pa size, performed (access pa size) = some (op_type, pa, sizeOf dec op_type size))
    {operands} (hown : ∀ i ∈ operands, selected i → i < inst.addresses.length)
    {dynins out : DynamicInstruction}
    (h : detailedLoop t dec inst selected op_type operands dynins = .ok out) :
    ∃ events, warmupLoop t dec inst selected access operands = .ok events ∧
      out.memory_info.filterMap (recorded dec) =
        dynins.memory_info.filterMap (recorded dec) ++ events.filterMap performed := by
  induction operands generalizing dynins with
  | nil =>
    cases h
    exact ⟨[], rfl, by simp⟩
  | cons mem_idx rest ih =>
    rw [detailedLoop, List.foldlM_cons] at h
    obtain ⟨next, hnext, hrest⟩ := of_bind_ok h
    obtain ⟨events, hevents, hsame⟩ := ih (fun i hi => hown i (List.mem_cons_of_mem _ hi)) hrest
    by_cases hsel : selected mem_idx
    · rw [if_pos hsel, addDetailedMemoryInfo] at hnext
      have hlt := hown _ List.mem_cons_self hsel
      obtain ⟨hwarm, hdetail⟩ := addresses_agree hlt
      rw [hdetail] at hnext
      have hinfo := addMemory_ok hnext
      refine ⟨_, by rw [warmupLoop, if_pos hsel, hwarm]; simp only [hevents]; rfl, ?_⟩
      rw [hsame, hinfo, List.filterMap_append, List.append_assoc, List.filterMap_cons,
        recorded_memoryInfo]
      cases hmap : (translate t dec.is_prefetch inst.addresses[mem_idx]).2 with
      | true => simp
      | false => simp [haccess]
    · rw [if_neg hsel] at hnext
      cases hnext
      exact ⟨events, by rw [warmupLoop, if_neg hsel, hevents], hsame⟩

theorem performed_warmupRead (pa : Word) (size : BitVec 32) :
    performed (warmupRead t dec inst pa size) = some (.READ, pa, sizeOf dec .READ size) := by
  cases hatomic : dec.is_atomic with
  | true | false => simp [warmupRead, performed, sizeOf, hatomic]

theorem performed_warmupWrite (pa : Word) (size : BitVec 32) :
    performed (warmupWrite t dec inst pa size) = some (.WRITE, pa, sizeOf dec .WRITE size) := by
  cases hatomic : dec.is_atomic with
  | true | false => simp [warmupWrite, performed, sizeOf, hatomic]

theorem warmupData_of_detailed {next_inst dynins} (hexec : inst.executed)
    (hown : dec.is_nop = false → OwnAddresses dec inst)
    (h : handleInstructionDetailed t dec inst next_inst = .ok dynins) :
    ∃ data, warmupData t dec inst = .ok data ∧
      data.filterMap performed = dynins.memory_info.filterMap (recorded dec) := by
  rw [handleInstructionDetailed] at h
  cases hnop : dec.is_nop with
  | true =>
    rw [if_pos hnop] at h
    cases h
    exact ⟨[], by simp [warmupData, hnop], rfl⟩
  | false =>
    rw [if_neg (by simp [hnop])] at h
    obtain ⟨mid, hreads, hwrites⟩ := of_bind_ok h
    have hbound : ∀ i ∈ List.range dec.num_memory_operands, i < dec.num_memory_operands :=
      fun i hi => List.mem_range.mp hi
    obtain ⟨reads, hr, hrsame⟩ := warmupLoop_of_detailedLoop (warmupRead t dec inst)
      performed_warmupRead
      (fun i hi hsel => hown hnop i (hbound i hi) (Or.inl hsel)) hreads
    obtain ⟨writes, hw, hwsame⟩ := warmupLoop_of_detailedLoop (warmupWrite t dec inst)
      performed_warmupWrite
      (fun i hi hsel => hown hnop i (hbound i hi) (Or.inr hsel)) hwrites
    refine ⟨reads ++ writes, ?_, ?_⟩
    · rw [warmupData, if_pos (by simp [hexec, hnop])]
      simp only [hr, hw]
      rfl
    · rw [hwsame, hrsame, List.filterMap_append, List.filterMap_nil, List.nil_append]

end Loops

/-- The calls of the warm-up in front of the data accesses. -/
def Frontend : Event → Prop
  | .readInstructionMemory .. | .accessBranchPredictor .. | .handleBranchMispredict => True
  | _ => False

theorem performed_eq_none {event} (h : Frontend event) : performed event = none := by
  cases event with
  | readInstructionMemory | accessBranchPredictor | handleBranchMispredict => rfl
  | accessMemory | logMemoryHit => exact h.elim

/-- Where each operand has an address of its own, the warm-up raises no assertion and performs
what the detailed path records, in the same order. -/
theorem warmup_performs_recorded (t : TraceThread) (dec : DecodedInst)
    (inst next_inst : Instruction) (icache : Option (Word × Word)) (mispredict : Bool)
    (dynins : DynamicInstruction) (hexec : inst.executed)
    (hown : dec.is_nop = false → OwnAddresses dec inst)
    (h : handleInstructionDetailed t dec inst next_inst = .ok dynins) :
    ∃ events, handleInstructionWarmup t dec inst next_inst icache mispredict = .ok events ∧
      events.filterMap performed = dynins.memory_info.filterMap (recorded dec) := by
  obtain ⟨data, hdata, hsame⟩ := warmupData_of_detailed hexec hown h
  unfold handleInstructionWarmup
  rw [hdata]
  refine ⟨_, rfl, ?_⟩
  rw [List.filterMap_append, hsame, List.filterMap_eq_nil_iff.mpr, List.nil_append]
  intro event hevent
  apply performed_eq_none
  rcases List.mem_append.mp hevent with hmem | hmem
  · cases icache with
    | none => simp at hmem
    | some block =>
      rw [List.mem_singleton.mp hmem]
      trivial
  · split at hmem
    · rcases List.mem_cons.mp hmem with rfl | hmem
      · trivial
      · split at hmem
        · rw [List.mem_singleton.mp hmem]
          trivial
        · simp at hmem
    · simp at hmem

/-! ### Inputs -/

/-- Application 3, without randomization. -/
def thread : TraceThread :=
  { m_trace_has_pa := false, trace := fun _ => 0, m_address_randomization := false,
    m_appid_from_coreid := false, m_address_randomization_table := id, coreId := 0, appId := 3 }

def loadPair : DecodedInst :=
  { num_memory_operands := 2, op_read_mem := fun _ => true, op_write_mem := fun _ => false,
    size_mem_op := fun _ => 8, is_mem_pair := true, is_atomic := false, is_prefetch := false,
    is_nop := false, is_indirect_branch := false }

def atomicUpdate : DecodedInst :=
  { num_memory_operands := 1, op_read_mem := fun _ => true, op_write_mem := fun _ => true,
    size_mem_op := fun _ => 4, is_mem_pair := false, is_atomic := true, is_prefetch := false,
    is_nop := false, is_indirect_branch := false }

/-- A record with the addresses `addresses`. -/
def recordOf (addresses : List Word) : Instruction :=
  { addr := 0x400000, addresses := addresses, is_branch := false, taken := false, executed := true }

theorem warmup_performs_recorded_atomic :
    ∃ events,
      handleInstructionWarmup thread atomicUpdate (recordOf [64]) (recordOf []) none false =
        .ok events ∧
      events.filterMap performed =
        [⟨true, .READ, 3 <<< 48 + 64, 4, .UNKNOWN⟩,
          ⟨true, .WRITE, 3 <<< 48 + 64, 4, .UNKNOWN⟩].filterMap (recorded atomicUpdate) :=
  warmup_performs_recorded thread atomicUpdate (recordOf [64]) (recordOf []) none false
    ⟨3 <<< 48 + 0x400000, none,
      [⟨true, .READ, 3 <<< 48 + 64, 4, .UNKNOWN⟩, ⟨true, .WRITE, 3 <<< 48 + 64, 4, .UNKNOWN⟩]⟩
    rfl (by unfold OwnAddresses; decide) (by decide +kernel)

/-- A pair with one address, for which the warm-up raises its assertion; and an atomic update,
whose write it leaves out. -/
theorem warmup_differs_from_detailed :
    (handleInstructionDetailed thread loadPair (recordOf [64]) (recordOf []) =
        .ok ⟨3 <<< 48 + 0x400000, none,
          [⟨true, .READ, 3 <<< 48 + 64, 8, .UNKNOWN⟩, ⟨true, .READ, 3 <<< 48 + 72, 8, .UNKNOWN⟩]⟩ ∧
      handleInstructionWarmup thread loadPair (recordOf [64]) (recordOf []) none false =
        .error .notEnoughAddresses) ∧
    (handleInstructionDetailed thread atomicUpdate (recordOf [64]) (recordOf []) =
        .ok ⟨3 <<< 48 + 0x400000, none,
          [⟨true, .READ, 3 <<< 48 + 64, 4, .UNKNOWN⟩,
            ⟨true, .WRITE, 3 <<< 48 + 64, 4, .UNKNOWN⟩]⟩ ∧
      handleInstructionWarmup thread atomicUpdate (recordOf [64]) (recordOf []) none false =
        .ok [.accessMemory .READ_EX (3 <<< 48 + 64) 4 (3 <<< 48 + 0x400000),
          .logMemoryHit .WRITE (3 <<< 48 + 64) (3 <<< 48 + 0x400000)]) := by
  refine ⟨⟨?_, ?_⟩, ?_, ?_⟩
  all_goals decide +kernel

end Sniper.Tracing.Handlers
