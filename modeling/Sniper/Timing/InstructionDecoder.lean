import Mathlib.Data.Finset.Sort
import Sniper.Lib.Simulation
import Sniper.Timing.MicroOp

/-! # The instruction decoder

`InstructionDecoder::decode` of `instruction_decoder_wlib.cc`. What the decoder library says about
registers and about an instruction is data; registers are numbers, and `std::set` iterates over
them in order. An array of registers that is full raises an assertion. -/
namespace Sniper.Timing.Decoding

/-- What the library says about registers. -/
structure Registers where
  invalid_register : ℕ → Bool
  largest_enclosing_register : ℕ → ℕ
  reg_is_program_counter : ℕ → Bool

/-- What the library says about an instruction. -/
structure DecodedInst where
  is_nop : Bool
  is_atomic : Bool
  is_serializing : Bool
  is_barrier : Bool
  is_X87 : Bool
  is_conditional_branch : Bool
  src_dst_merge : Bool
  inst_num_id : ℕ
  get_operand_size : ℕ
  num_memory_operands : ℕ
  mem_base_reg : ℕ → ℕ
  mem_index_reg : ℕ → ℕ
  op_read_mem : ℕ → Bool
  op_write_mem : ℕ → Bool
  size_mem_op : ℕ → ℕ
  num_operands : ℕ
  is_addr_gen : ℕ → Bool
  op_is_reg : ℕ → Bool
  get_op_reg : ℕ → ℕ
  op_read_reg : ℕ → Bool
  op_write_reg : ℕ → Bool
  get_exec_microops : ℕ → ℕ → ℕ
  exec_le : ∀ loads stores, get_exec_microops loads stores ≤ 2
  operands_lt : num_memory_operands < 2 ^ 32

/-- A `MicroOp` with the fields that `decode` sets. -/
structure Uop extends MicroOp ℕ where
  instructionPointer : ℕ
  operand_size : ℕ
  instructionOpcode : ℕ
  memoryAccessSize : ℕ
  microOpTypeOffset : ℕ
  intraInstructionDependencies : ℕ
  first : Bool
  last : Bool
  is_x87 : Bool

def MAXIMUM_NUMBER_OF_SOURCE_REGISTERS : ℕ := 14
def MAXIMUM_NUMBER_OF_ADDRESS_REGISTERS : ℕ := 2
def MAXIMUM_NUMBER_OF_DESTINATION_REGISTERS : ℕ := 14

def Uop.addSourceRegister (uop : Uop) (reg : ℕ) : Except Stop Uop :=
  if uop.sourceRegisters.length < MAXIMUM_NUMBER_OF_SOURCE_REGISTERS then
    .ok { uop with sourceRegisters := uop.sourceRegisters ++ [reg] }
  else .error .assertion

def Uop.addAddressRegister (uop : Uop) (reg : ℕ) : Except Stop Uop :=
  if uop.addressRegisters.length < MAXIMUM_NUMBER_OF_ADDRESS_REGISTERS then
    .ok { uop with addressRegisters := uop.addressRegisters ++ [reg] }
  else .error .assertion

def Uop.addDestinationRegister (uop : Uop) (reg : ℕ) : Except Stop Uop :=
  if uop.destinationRegisters.length < MAXIMUM_NUMBER_OF_DESTINATION_REGISTERS then
    .ok { uop with destinationRegisters := uop.destinationRegisters ++ [reg] }
  else .error .assertion

/-- Whether the loops of `addSrcs`, `addAddrs` and `addDsts` take a register: it is valid and not
the program counter. -/
def Registers.counts (dec : Registers) (reg : ℕ) : Bool :=
  !dec.invalid_register reg && !dec.reg_is_program_counter (dec.largest_enclosing_register reg)

/-- The registers that these loops add for a set. -/
def Registers.enclosing (dec : Registers) (regs : Finset ℕ) : List ℕ :=
  ((regs.sort (· ≤ ·)).filter dec.counts).map dec.largest_enclosing_register

def addSrcs (dec : Registers) (regs : Finset ℕ) (uop : Uop) : Except Stop Uop :=
  (dec.enclosing regs).foldlM Uop.addSourceRegister uop

def addAddrs (dec : Registers) (regs : Finset ℕ) (uop : Uop) : Except Stop Uop :=
  (dec.enclosing regs).foldlM Uop.addAddressRegister uop

def addDsts (dec : Registers) (regs : Finset ℕ) (uop : Uop) : Except Stop Uop :=
  (dec.enclosing regs).foldlM Uop.addDestinationRegister uop

/-! ### Registers and numbers of micro-ops -/

namespace DecodedInst
variable (ins : DecodedInst)

/-- The memory operands that the first loop looks at. -/
def memoryOperands : List ℕ := if ins.is_nop then [] else List.range ins.num_memory_operands

/-- The registers of the address of a memory operand. -/
def memRegs (mem_idx : ℕ) : Finset ℕ := {ins.mem_base_reg mem_idx, ins.mem_index_reg mem_idx}

/-- The memory operands that get a load. -/
def loads : List ℕ := ins.memoryOperands.filter ins.op_read_mem

/-- The memory operands that get a store. -/
def stores : List ℕ := ins.memoryOperands.filter ins.op_write_mem

def regs_mem : Finset ℕ := ins.memoryOperands.toFinset.biUnion ins.memRegs

def regs_src : Finset ℕ :=
  (Finset.range ins.num_operands).biUnion fun idx =>
    if ins.is_addr_gen idx then ins.regs_mem
    else if ins.op_is_reg idx then
      if ins.op_read_reg idx ∧ ins.get_op_reg idx ∉ ins.regs_mem then {ins.get_op_reg idx} else ∅
    else ∅

def regs_dst : Finset ℕ :=
  (Finset.range ins.num_operands).biUnion fun idx =>
    if ins.is_addr_gen idx then ∅
    else if ins.op_is_reg idx then
      if ins.op_write_reg idx then {ins.get_op_reg idx} else ∅
    else ∅

def numLoads : ℕ := ins.loads.length
def numStores : ℕ := ins.stores.length

/-- `numExecs`; an instruction without any micro-op gets an execute. -/
def numExecs : ℕ :=
  let execs := ins.get_exec_microops ins.numLoads ins.numStores
  if ins.numLoads + execs + ins.numStores = 0 then 1 else execs

def totalMicroOps : ℕ := ins.numLoads + ins.numExecs + ins.numStores

end DecodedInst

/-! ### Micro-ops -/

section Micro
variable (dec : Registers) (address : ℕ) (ins : DecodedInst)

/-- A micro-op behind `makeLoad`, `makeExecute` or `makeStore`. The sizes are 16-bit words. -/
def blank (uop_type : UopType) (offset dependencies mem_size : ℕ) (branch membar : Bool) : Uop where
  uop_type := uop_type
  sourceRegisters := []
  addressRegisters := []
  destinationRegisters := []
  branch := branch
  serializing := false
  m_membar := membar
  instructionPointer := address
  operand_size := ins.get_operand_size % 2 ^ 16
  instructionOpcode := ins.inst_num_id
  memoryAccessSize := mem_size % 2 ^ 16
  microOpTypeOffset := offset
  intraInstructionDependencies := dependencies
  first := false
  last := false
  is_x87 := false

/-- A call that is made only under a condition. -/
def when_ (c : Bool) (f : Uop → Except Stop Uop) (uop : Uop) : Except Stop Uop :=
  if c then f uop else .ok uop

def load (loadIndex mem_idx : ℕ) : Except Stop Uop := do
  let uop := blank address ins .load loadIndex 0 (ins.size_mem_op mem_idx) false false
  let uop ← addSrcs dec (ins.memRegs mem_idx) uop
  let uop ← addAddrs dec (ins.memRegs mem_idx) uop
  let uop ← when_ (ins.numExecs == 0) (addSrcs dec ins.regs_src) uop
  when_ (ins.numExecs == 0 && ins.numStores == 0) (addDsts dec ins.regs_dst) uop

def execute (execIndex : ℕ) : Except Stop Uop := do
  let uop := blank address ins .execute execIndex ins.numLoads 0 ins.is_conditional_branch
    ins.is_barrier
  let uop ← addSrcs dec ins.regs_src uop
  let uop ← addDsts dec ins.regs_dst uop
  when_ ins.src_dst_merge (addSrcs dec ins.regs_dst) uop

def store (storeIndex mem_idx : ℕ) : Except Stop Uop := do
  let uop := blank address ins .store storeIndex ins.numExecs (ins.size_mem_op mem_idx) false
    ins.is_atomic
  let uop ← addSrcs dec (ins.memRegs mem_idx) uop
  let uop ← addAddrs dec (ins.memRegs mem_idx) uop
  let uop ← when_ (ins.numExecs == 0) (addDsts dec ins.regs_dst) uop
  when_ (ins.numExecs == 0 && ins.numLoads == 0) (addSrcs dec ins.regs_src) uop

/-- The extra information of the first and the last micro-op. -/
def mark (index : ℕ) (uop : Uop) : Uop :=
  { uop with
    first := index == 0
    is_x87 := index == 0 && ins.is_X87
    last := index + 1 == ins.totalMicroOps
    serializing := index + 1 == ins.totalMicroOps && ins.is_serializing }

/-- One iteration of the loop over the micro-ops. -/
def microOp (index : ℕ) : Except Stop Uop :=
  (if index < ins.numLoads then
      match ins.loads[index]? with
      | some mem_idx => load dec address ins index mem_idx
      | none => .error .overflow
    else if index < ins.numLoads + ins.numExecs then
      execute dec address ins (index - ins.numLoads)
    else
      match ins.stores[index - ins.numLoads - ins.numExecs]? with
      | some mem_idx => store dec address ins (index - ins.numLoads - ins.numExecs) mem_idx
      | none => .error .overflow).map (mark ins index)

/-- `InstructionDecoder::decode`. -/
def decode : Except Stop (List Uop) :=
  (List.range ins.totalMicroOps).mapM (microOp dec address ins)

end Micro

/-! ### Full arrays -/

theorem foldlM_append {capacity : ℕ} {f : Uop → ℕ → Except Stop Uop} (get : Uop → List ℕ)
    (set : Uop → List ℕ → Uop) (hf : ∀ u r, f u r =
      if (get u).length < capacity then .ok (set u (get u ++ [r])) else .error .assertion)
    (hget : ∀ u l, get (set u l) = l) (hset : ∀ u l l', set (set u l) l' = set u l')
    (hself : ∀ u, set u (get u) = u) (regs : List ℕ) (u : Uop) (hu : (get u).length ≤ capacity) :
    regs.foldlM f u = if (get u ++ regs).length ≤ capacity then .ok (set u (get u ++ regs))
      else .error .assertion := by
  induction regs generalizing u with
  | nil => simp [hu, hself, pure, Except.pure]
  | cons r regs ih =>
    rw [List.foldlM_cons, hf]
    by_cases hlt : (get u).length < capacity
    · rw [if_pos hlt]
      simp only [bind, Except.bind]
      rw [ih _ (by rw [hget, List.length_append]; exact hlt), hget, hset]
      simp only [List.append_assoc, List.singleton_append]
    · rw [if_neg hlt, if_neg]
      · rfl
      · simp only [List.length_append, List.length_cons]
        omega

section Adding
variable (dec : Registers) (c : Bool) (regs : Finset ℕ) {u : Uop}

/-- The registers of a set, where a condition holds. -/
def Registers.enclosingIf : List ℕ := if c then dec.enclosing regs else []

theorem when_addSrcs (h : u.sourceRegisters.length ≤ MAXIMUM_NUMBER_OF_SOURCE_REGISTERS) :
    when_ c (addSrcs dec regs) u =
      if (u.sourceRegisters ++ dec.enclosingIf c regs).length ≤
          MAXIMUM_NUMBER_OF_SOURCE_REGISTERS then
        .ok { u with sourceRegisters := u.sourceRegisters ++ dec.enclosingIf c regs }
      else .error .assertion := by
  cases c with
  | false => simp [when_, Registers.enclosingIf, h]
  | true =>
    exact foldlM_append (fun u => u.sourceRegisters) (fun u l => { u with sourceRegisters := l })
      (fun _ _ => rfl) (fun _ _ => rfl) (fun _ _ _ => rfl) (fun _ => rfl) (dec.enclosing regs) u h

theorem when_addDsts
    (h : u.destinationRegisters.length ≤ MAXIMUM_NUMBER_OF_DESTINATION_REGISTERS) :
    when_ c (addDsts dec regs) u =
      if (u.destinationRegisters ++ dec.enclosingIf c regs).length ≤
          MAXIMUM_NUMBER_OF_DESTINATION_REGISTERS then
        .ok { u with destinationRegisters := u.destinationRegisters ++ dec.enclosingIf c regs }
      else .error .assertion := by
  cases c with
  | false => simp [when_, Registers.enclosingIf, h]
  | true =>
    exact foldlM_append (fun u => u.destinationRegisters)
      (fun u l => { u with destinationRegisters := l }) (fun _ _ => rfl) (fun _ _ => rfl)
      (fun _ _ _ => rfl) (fun _ => rfl) (dec.enclosing regs) u h

theorem addSrcs_eq (h : u.sourceRegisters.length ≤ MAXIMUM_NUMBER_OF_SOURCE_REGISTERS) :
    addSrcs dec regs u =
      if (u.sourceRegisters ++ dec.enclosing regs).length ≤ MAXIMUM_NUMBER_OF_SOURCE_REGISTERS then
        .ok { u with sourceRegisters := u.sourceRegisters ++ dec.enclosing regs }
      else .error .assertion :=
  when_addSrcs dec true regs h

theorem addDsts_eq
    (h : u.destinationRegisters.length ≤ MAXIMUM_NUMBER_OF_DESTINATION_REGISTERS) :
    addDsts dec regs u =
      if (u.destinationRegisters ++ dec.enclosing regs).length ≤
          MAXIMUM_NUMBER_OF_DESTINATION_REGISTERS then
        .ok { u with destinationRegisters := u.destinationRegisters ++ dec.enclosing regs }
      else .error .assertion :=
  when_addDsts dec true regs h

theorem length_enclosing_le : (dec.enclosing regs).length ≤ regs.card := by
  rw [Registers.enclosing, List.length_map, ← Finset.length_sort (· ≤ ·)]
  exact List.length_filter_le _ _

theorem length_memRegs_le (ins : DecodedInst) (mem_idx : ℕ) :
    (dec.enclosing (ins.memRegs mem_idx)).length ≤ 2 :=
  (length_enclosing_le dec _).trans Finset.card_le_two

theorem addSrcs_addAddrs (ins : DecodedInst) (mem_idx : ℕ) (u : Uop)
    (hsrc : u.sourceRegisters = []) (haddr : u.addressRegisters = []) :
    (do let u ← addSrcs dec (ins.memRegs mem_idx) u
        addAddrs dec (ins.memRegs mem_idx) u) =
      .ok { u with
        sourceRegisters := dec.enclosing (ins.memRegs mem_idx)
        addressRegisters := dec.enclosing (ins.memRegs mem_idx) } := by
  have hle := length_memRegs_le dec ins mem_idx
  have hs : addSrcs dec (ins.memRegs mem_idx) u =
      .ok { u with sourceRegisters := dec.enclosing (ins.memRegs mem_idx) } := by
    have := addSrcs_eq dec (ins.memRegs mem_idx) (u := u) (by simp [hsrc])
    rw [hsrc, if_pos] at this
    · exact this
    · exact hle.trans (by decide)
  rw [hs]
  refine (foldlM_append (fun u => u.addressRegisters)
    (fun u l => { u with addressRegisters := l }) (fun _ _ => rfl) (fun _ _ => rfl)
    (fun _ _ _ => rfl) (fun _ => rfl) (dec.enclosing (ins.memRegs mem_idx)) _ ?_).trans ?_
  · simp [haddr]
  · simp only [haddr, List.nil_append]
    rw [if_pos]
    exact hle

end Adding

/-! ### Each micro-op in one piece -/

/-- The arrays have room for the registers. -/
def Uop.Fits (u : Uop) : Prop :=
  u.sourceRegisters.length ≤ MAXIMUM_NUMBER_OF_SOURCE_REGISTERS ∧
    u.destinationRegisters.length ≤ MAXIMUM_NUMBER_OF_DESTINATION_REGISTERS

instance (u : Uop) : Decidable u.Fits := inferInstanceAs (Decidable (_ ∧ _))

section Pieces
variable (dec : Registers) (address : ℕ) (ins : DecodedInst)

def loadUop (loadIndex mem_idx : ℕ) : Uop :=
  { blank address ins .load loadIndex 0 (ins.size_mem_op mem_idx) false false with
    sourceRegisters := dec.enclosing (ins.memRegs mem_idx) ++
      dec.enclosingIf (ins.numExecs == 0) ins.regs_src
    addressRegisters := dec.enclosing (ins.memRegs mem_idx)
    destinationRegisters := dec.enclosingIf (ins.numExecs == 0 && ins.numStores == 0) ins.regs_dst }

def executeUop (execIndex : ℕ) : Uop :=
  { blank address ins .execute execIndex ins.numLoads 0 ins.is_conditional_branch
      ins.is_barrier with
    sourceRegisters := dec.enclosing ins.regs_src ++ dec.enclosingIf ins.src_dst_merge ins.regs_dst
    destinationRegisters := dec.enclosing ins.regs_dst }

def storeUop (storeIndex mem_idx : ℕ) : Uop :=
  { blank address ins .store storeIndex ins.numExecs (ins.size_mem_op mem_idx) false
      ins.is_atomic with
    sourceRegisters := dec.enclosing (ins.memRegs mem_idx) ++
      dec.enclosingIf (ins.numExecs == 0 && ins.numLoads == 0) ins.regs_src
    addressRegisters := dec.enclosing (ins.memRegs mem_idx)
    destinationRegisters := dec.enclosingIf (ins.numExecs == 0) ins.regs_dst }

theorem bind_ite {p q : Prop} [Decidable p] [Decidable q] {u : Uop} {v : Uop}
    {f : Uop → Except Stop Uop} {x : Except Stop Uop} {e : Stop}
    (hx : x = if p then .ok u else .error e) (hf : f u = if q then .ok v else .error e) :
    x >>= f = if p ∧ q then .ok v else .error e := by
  rw [hx]
  by_cases hp : p
  · by_cases hq : q
    all_goals simp [hp, hq, hf, bind, Except.bind]
  · simp [hp, bind, Except.bind]

theorem load_eq (loadIndex mem_idx : ℕ) :
    load dec address ins loadIndex mem_idx =
      if (loadUop dec address ins loadIndex mem_idx).Fits then
        .ok (loadUop dec address ins loadIndex mem_idx)
      else .error .assertion := by
  have haddr := addSrcs_addAddrs dec ins mem_idx
    (blank address ins .load loadIndex 0 (ins.size_mem_op mem_idx) false false) rfl rfl
  have hle := length_memRegs_le dec ins mem_idx
  rw [load, ← bind_assoc, haddr]
  change (when_ _ _ _ >>= when_ _ _) = _
  exact bind_ite (when_addSrcs dec _ _ (hle.trans (by decide : 2 ≤ 14)))
    (when_addDsts dec _ _ (Nat.zero_le 14))

theorem execute_eq (execIndex : ℕ) :
    execute dec address ins execIndex =
      if (executeUop dec address ins execIndex).Fits then
        .ok (executeUop dec address ins execIndex)
      else .error .assertion := by
  rw [execute]
  have hdst := addDsts_eq dec ins.regs_dst (u :=
    { blank address ins .execute execIndex ins.numLoads 0 ins.is_conditional_branch
        ins.is_barrier with sourceRegisters := dec.enclosing ins.regs_src }) (Nat.zero_le 14)
  by_cases hfits : (dec.enclosing ins.regs_src).length ≤ 14
  · have hsrc := addSrcs_eq dec ins.regs_src (u := blank address ins .execute execIndex
      ins.numLoads 0 ins.is_conditional_branch ins.is_barrier) (Nat.zero_le 14)
    refine (bind_ite hsrc (bind_ite hdst (when_addSrcs dec ins.src_dst_merge ins.regs_dst
      (u := { executeUop dec address ins execIndex with
        sourceRegisters := dec.enclosing ins.regs_src }) hfits))).trans (if_congr ?_ rfl rfl)
    constructor
    · rintro ⟨-, hd, hs⟩
      exact ⟨hs, hd⟩
    · rintro ⟨hs, hd⟩
      exact ⟨hfits, hd, hs⟩
  · have hsrc := addSrcs_eq dec ins.regs_src (u := blank address ins .execute execIndex
      ins.numLoads 0 ins.is_conditional_branch ins.is_barrier) (Nat.zero_le 14)
    rw [hsrc.trans (if_neg hfits), if_neg]
    · rfl
    · rintro ⟨hs, -⟩
      rw [executeUop, List.length_append] at hs
      exact hfits ((Nat.le_add_right _ _).trans hs)

theorem store_eq (storeIndex mem_idx : ℕ) :
    store dec address ins storeIndex mem_idx =
      if (storeUop dec address ins storeIndex mem_idx).Fits then
        .ok (storeUop dec address ins storeIndex mem_idx)
      else .error .assertion := by
  have haddr := addSrcs_addAddrs dec ins mem_idx
    (blank address ins .store storeIndex ins.numExecs (ins.size_mem_op mem_idx) false
      ins.is_atomic) rfl rfl
  have hle := length_memRegs_le dec ins mem_idx
  rw [store, ← bind_assoc, haddr]
  change (when_ _ _ _ >>= when_ _ _) = _
  refine (bind_ite (when_addDsts dec _ ins.regs_dst (u :=
    { blank address ins .store storeIndex ins.numExecs (ins.size_mem_op mem_idx) false
        ins.is_atomic with
      sourceRegisters := dec.enclosing (ins.memRegs mem_idx)
      addressRegisters := dec.enclosing (ins.memRegs mem_idx) }) (Nat.zero_le 14))
    (when_addSrcs dec (ins.numExecs == 0 && ins.numLoads == 0) ins.regs_src
      (hle.trans (by decide : 2 ≤ 14)))).trans (if_congr and_comm rfl rfl)

/-- The micro-op at a position of the instruction. -/
def uopAt (index : ℕ) : Uop :=
  mark ins index
    (if index < ins.numLoads then loadUop dec address ins index (ins.loads[index]?.getD 0)
    else if index < ins.numLoads + ins.numExecs then
      executeUop dec address ins (index - ins.numLoads)
    else
      storeUop dec address ins (index - ins.numLoads - ins.numExecs)
        (ins.stores[index - ins.numLoads - ins.numExecs]?.getD 0))

theorem fits_mark (index : ℕ) (u : Uop) : (mark ins index u).Fits ↔ u.Fits := Iff.rfl

theorem microOp_eq {index} (h : index < ins.totalMicroOps) :
    microOp dec address ins index =
      if (uopAt dec address ins index).Fits then .ok (uopAt dec address ins index)
      else .error .assertion := by
  have hmap : ∀ u : Uop, (if u.Fits then Except.ok u else .error Stop.assertion).map
      (mark ins index) = if (mark ins index u).Fits then .ok (mark ins index u)
        else .error .assertion := by
    intro u
    by_cases hu : u.Fits
    · rw [if_pos hu, if_pos ((fits_mark ins index u).mpr hu)]
      rfl
    · rw [if_neg hu, if_neg (hu ∘ (fits_mark ins index u).mp)]
      rfl
  rw [microOp, uopAt]
  split
  · rename_i hload
    rw [List.getElem?_eq_getElem hload]
    simp only [load_eq, Option.getD_some]
    exact hmap _
  · split
    · rw [execute_eq]
      exact hmap _
    · rename_i hload hexec
      have hstore : index - ins.numLoads - ins.numExecs < ins.stores.length := by
        unfold DecodedInst.totalMicroOps DecodedInst.numStores at h
        omega
      rw [List.getElem?_eq_getElem hstore]
      simp only [store_eq, Option.getD_some]
      exact hmap _

theorem mapM_ite {β : Type} {p : ℕ → Prop} [DecidablePred p] {g : ℕ → β} {e : Stop}
    {f : ℕ → Except Stop β} (list : List ℕ)
    (hf : ∀ i ∈ list, f i = if p i then .ok (g i) else .error e) :
    list.mapM f = if ∀ i ∈ list, p i then .ok (list.map g) else .error e := by
  induction list with
  | nil => simp [pure, Except.pure]
  | cons i rest ih =>
    rw [List.mapM_cons, hf i List.mem_cons_self, ih fun j hj => hf j (List.mem_cons_of_mem i hj)]
    by_cases hi : p i
    · by_cases hrest : ∀ j ∈ rest, p j
      · rw [if_pos hi, if_pos hrest, if_pos (List.forall_mem_cons.mpr ⟨hi, hrest⟩)]
        rfl
      · rw [if_pos hi, if_neg hrest, if_neg fun h => hrest (List.forall_mem_cons.mp h).2]
        rfl
    · have hnot : ¬ ∀ j ∈ i :: rest, p j := fun h => hi (h i List.mem_cons_self)
      rw [if_neg hi, if_neg hnot]
      rfl

theorem decode_eq : decode dec address ins =
    if ∀ index ∈ List.range ins.totalMicroOps, (uopAt dec address ins index).Fits then
      .ok ((List.range ins.totalMicroOps).map (uopAt dec address ins))
    else .error .assertion :=
  mapM_ite _ fun _ hindex => microOp_eq dec address ins (List.mem_range.mp hindex)

end Pieces

end Sniper.Timing.Decoding
