import Sniper.Timing.DependencyList
import Sniper.Timing.InstructionDecoder

/-! # Dataflow of decoded instructions

What the micro-ops of an instruction preserve of it: the registers that its operands read and
write, the dependencies between its parts, and its ordering. The decoder preserves them under
conditions on what the library says about the instruction. -/
namespace Sniper.Timing.Decoding

/-! ### What an instruction reads and writes -/

namespace DecodedInst
variable (ins : DecodedInst)

/-- A register operand, which is no address generation. -/
def IsRegister (idx : ℕ) : Prop :=
  idx < ins.num_operands ∧ ins.is_addr_gen idx = false ∧ ins.op_is_reg idx = true

def ReadsOperand (r : ℕ) : Prop :=
  ∃ idx, ins.IsRegister idx ∧ ins.op_read_reg idx = true ∧ ins.get_op_reg idx = r

def Writes (r : ℕ) : Prop :=
  ∃ idx, ins.IsRegister idx ∧ ins.op_write_reg idx = true ∧ ins.get_op_reg idx = r

/-- An address generation reads the registers of all addresses. -/
def GeneratesAddress (r : ℕ) : Prop :=
  r ∈ ins.regs_mem ∧ ∃ idx < ins.num_operands, ins.is_addr_gen idx = true

/-- A memory operand that is read or written reads the registers of its address. -/
def Addresses (r : ℕ) : Prop := ∃ mem_idx ∈ ins.loads ++ ins.stores, r ∈ ins.memRegs mem_idx

/-- The registers that an operand reads. -/
def Reads (r : ℕ) : Prop := ins.ReadsOperand r ∨ ins.GeneratesAddress r ∨ ins.Addresses r

/-- The registers that some micro-op has as a source: a register that an operand reads is left
out where it is also part of an address. -/
def Carries (r : ℕ) : Prop :=
  (ins.ReadsOperand r ∧ r ∉ ins.regs_mem) ∨ ins.GeneratesAddress r ∨ ins.Addresses r ∨
    (ins.src_dst_merge = true ∧ 0 < ins.numExecs ∧ ins.Writes r)

theorem mem_regs_src {r} :
    r ∈ ins.regs_src ↔ (ins.ReadsOperand r ∧ r ∉ ins.regs_mem) ∨ ins.GeneratesAddress r := by
  rw [regs_src, Finset.mem_biUnion]
  constructor
  · rintro ⟨idx, hidx, hmem⟩
    have hlt := Finset.mem_range.mp hidx
    split at hmem
    · exact .inr ⟨hmem, idx, hlt, by assumption⟩
    · split at hmem
      · split at hmem
        · rename_i haddr hreg hread
          rw [Finset.mem_singleton] at hmem
          subst hmem
          exact .inl ⟨⟨idx, ⟨hlt, by simpa using haddr, hreg⟩, hread.1, rfl⟩, hread.2⟩
        · exact absurd hmem (Finset.notMem_empty r)
      · exact absurd hmem (Finset.notMem_empty r)
  · rintro (⟨⟨idx, hreg, hread, rfl⟩, hnot⟩ | ⟨hmem, idx, hlt, haddr⟩)
    · refine ⟨idx, Finset.mem_range.mpr hreg.1, ?_⟩
      simp [hreg.2.1, hreg.2.2, hread, hnot]
    · exact ⟨idx, Finset.mem_range.mpr hlt, by rwa [if_pos haddr]⟩

theorem mem_regs_dst {r} : r ∈ ins.regs_dst ↔ ins.Writes r := by
  rw [regs_dst, Finset.mem_biUnion]
  constructor
  · rintro ⟨idx, hidx, hmem⟩
    have hlt := Finset.mem_range.mp hidx
    split at hmem
    · exact absurd hmem (Finset.notMem_empty r)
    · split at hmem
      · split at hmem
        · rename_i haddr hreg hwrite
          rw [Finset.mem_singleton] at hmem
          exact ⟨idx, ⟨hlt, by simpa using haddr, hreg⟩, hwrite, hmem.symm⟩
        · exact absurd hmem (Finset.notMem_empty r)
      · exact absurd hmem (Finset.notMem_empty r)
  · rintro ⟨idx, hreg, hwrite, rfl⟩
    refine ⟨idx, Finset.mem_range.mpr hreg.1, ?_⟩
    simp [hreg.2.1, hreg.2.2, hwrite]

theorem numExecs_pos_or : 0 < ins.numExecs ∨ 0 < ins.numLoads + ins.numStores := by
  unfold numExecs
  dsimp only
  split <;> omega

theorem totalMicroOps_pos : 0 < ins.totalMicroOps := by
  have := ins.numExecs_pos_or
  unfold totalMicroOps
  omega

theorem totalMicroOps_le : ins.totalMicroOps ≤ 2 ^ 64 := by
  have hoperands : ins.memoryOperands.length ≤ ins.num_memory_operands := by
    unfold memoryOperands
    split <;> simp
  have hloads : ins.numLoads ≤ ins.memoryOperands.length := List.length_filter_le _ _
  have hstores : ins.numStores ≤ ins.memoryOperands.length := List.length_filter_le _ _
  have hexecs : ins.numExecs ≤ 2 := by
    have := ins.exec_le ins.numLoads ins.numStores
    unfold numExecs
    dsimp only
    split <;> omega
  have := ins.operands_lt
  unfold totalMicroOps
  omega

end DecodedInst

/-! ### What the micro-ops preserve -/

/-- Loads first, then executes, then stores. -/
def rank : UopType → ℕ
  | .load => 0
  | .execute => 1
  | .store => 2

/-- A micro-op as it enters the pipeline, without dependencies on other instructions. -/
def Uop.dynamic (u : Uop) (sequenceNumber : ℕ) : DynamicMicroOp ℕ where
  m_uop := u.toMicroOp
  sequenceNumber := sequenceNumber
  address := 0
  squashed := false
  intraInstructionDependencies := u.intraInstructionDependencies
  microOpTypeOffset := u.microOpTypeOffset
  dependencies := []
  execLatency := 0
  branchMispredicted := false
  dCacheHitWhere := .UNKNOWN
  iCacheHitWhere := .UNKNOWN
  iCacheLatency := 0

/-- The micro-op at `k` depends on the one at `j`, where the instruction starts at the sequence
number `base`. -/
def DependsOn (base : ℕ) (uops : List Uop) (k j : ℕ) : Prop :=
  ∃ u, uops[k]? = some u ∧ base + j ∈ (u.dynamic (base + k)).getDependencies

structure Preserves (dec : Registers) (ins : DecodedInst) (uops : List Uop) : Prop where
  nonempty : uops ≠ []
  order : (uops.map fun u => rank u.uop_type).Pairwise (· ≤ ·)
  first : ∀ k u, uops[k]? = some u → (u.first = true ↔ k = 0)
  last : ∀ k u, uops[k]? = some u → (u.last = true ↔ k + 1 = uops.length)
  sources : ∀ r, ins.Reads r → dec.counts r = true →
    ∃ u ∈ uops, dec.largest_enclosing_register r ∈ u.sourceRegisters
  destinations : ∀ r, ins.Writes r → dec.counts r = true →
    ∃ u ∈ uops, dec.largest_enclosing_register r ∈ u.destinationRegisters
  written : ∀ u ∈ uops, ∀ d ∈ u.destinationRegisters,
    ∃ r, ins.Writes r ∧ dec.largest_enclosing_register r = d
  executes : ∀ base j k u v, base + uops.length ≤ 2 ^ 64 → uops[j]? = some u →
    uops[k]? = some v → u.uop_type = .load → v.uop_type = .execute → DependsOn base uops k j
  stores : ∀ base j k u v, base + uops.length ≤ 2 ^ 64 → uops[j]? = some u →
    uops[k]? = some v → u.uop_type ≠ .store → v.uop_type = .store →
    Relation.TransGen (DependsOn base uops) k j
  barrier : ins.is_barrier = true → ∃ u ∈ uops, u.m_membar = true
  atomicStore : ins.is_atomic = true → 0 < ins.numStores → ∃ u ∈ uops, u.m_membar = true
  serializing : ins.is_serializing = true → ∃ u ∈ uops, u.serializing = true

/-- The arrays of the micro-ops have room for the registers that they get. -/
structure Room (dec : Registers) (ins : DecodedInst) : Prop where
  load : ∀ mem_idx ∈ ins.loads,
    (dec.enclosing (ins.memRegs mem_idx)).length +
        (dec.enclosingIf (ins.numExecs == 0) ins.regs_src).length ≤ 14 ∧
      (dec.enclosingIf (ins.numExecs == 0 && ins.numStores == 0) ins.regs_dst).length ≤ 14
  execute : 0 < ins.numExecs →
    (dec.enclosing ins.regs_src).length +
        (dec.enclosingIf ins.src_dst_merge ins.regs_dst).length ≤ 14 ∧
      (dec.enclosing ins.regs_dst).length ≤ 14
  store : ∀ mem_idx ∈ ins.stores,
    (dec.enclosing (ins.memRegs mem_idx)).length +
        (dec.enclosingIf (ins.numExecs == 0 && ins.numLoads == 0) ins.regs_src).length ≤ 14 ∧
      (dec.enclosingIf (ins.numExecs == 0) ins.regs_dst).length ≤ 14

/-- What the decoder needs of an instruction. -/
structure Supported (dec : Registers) (ins : DecodedInst) : Prop where
  room : Room dec ins
  /-- No instruction has loads and stores with no execute in between. -/
  linked : ¬ (ins.numExecs = 0 ∧ 0 < ins.numLoads ∧ 0 < ins.numStores)
  /-- A register that is read and also part of an address is carried by something else. -/
  carried : ∀ r, ins.ReadsOperand r → r ∈ ins.regs_mem → dec.counts r = true →
    ∃ r', ins.Carries r' ∧ dec.counts r' = true ∧
      dec.largest_enclosing_register r' = dec.largest_enclosing_register r
  /-- A barrier without an execute has an atomic store. -/
  fenced : ins.is_barrier = true → ins.numExecs = 0 → ins.is_atomic = true ∧ 0 < ins.numStores

theorem mem_enclosing {dec : Registers} {regs d} :
    d ∈ dec.enclosing regs ↔
      ∃ r ∈ regs, dec.counts r = true ∧ dec.largest_enclosing_register r = d := by
  simp [Registers.enclosing, and_assoc]

theorem mem_enclosingIf {dec : Registers} {c regs d} :
    d ∈ dec.enclosingIf c regs ↔ c = true ∧
      ∃ r ∈ regs, dec.counts r = true ∧ dec.largest_enclosing_register r = d := by
  rw [Registers.enclosingIf]
  split
  · rename_i hc
    simp [hc, mem_enclosing]
  · rename_i hc
    simp [hc]

section Positions
variable (dec : Registers) (address : ℕ) (ins : DecodedInst)

/-- The micro-ops of the instruction. -/
def uops : List Uop := (List.range ins.totalMicroOps).map (uopAt dec address ins)

variable {dec address ins}

theorem length_uops : (uops dec address ins).length = ins.totalMicroOps := by
  simp [uops]

theorem getElem?_uops {k u} :
    (uops dec address ins)[k]? = some u ↔ k < ins.totalMicroOps ∧ u = uopAt dec address ins k := by
  rw [uops, List.getElem?_map]
  by_cases h : k < ins.totalMicroOps
  · simp [h, eq_comm]
  · simp [h]

theorem mem_uops {u} : u ∈ uops dec address ins ↔
    ∃ k < ins.totalMicroOps, u = uopAt dec address ins k := by
  simp [uops, eq_comm]

variable (dec address) in
theorem uopAt_load {k} (h : k < ins.numLoads) : ∃ mem_idx ∈ ins.loads,
    uopAt dec address ins k = mark ins k (loadUop dec address ins k mem_idx) := by
  have h' : k < ins.loads.length := h
  refine ⟨ins.loads[k], List.getElem_mem h', ?_⟩
  rw [uopAt, if_pos h, List.getElem?_eq_getElem h', Option.getD_some]

theorem uopAt_execute {k} (hle : ins.numLoads ≤ k) (h : k < ins.numLoads + ins.numExecs) :
    uopAt dec address ins k =
      mark ins k (executeUop dec address ins (k - ins.numLoads)) := by
  rw [uopAt, if_neg (by omega), if_pos h]

variable (dec address) in
theorem uopAt_store {k} (hle : ins.numLoads + ins.numExecs ≤ k) (h : k < ins.totalMicroOps) :
    ∃ mem_idx ∈ ins.stores, uopAt dec address ins k =
      mark ins k (storeUop dec address ins (k - ins.numLoads - ins.numExecs) mem_idx) := by
  have h' : k - ins.numLoads - ins.numExecs < ins.stores.length := by
    unfold DecodedInst.totalMicroOps DecodedInst.numStores at h
    omega
  refine ⟨ins.stores[k - ins.numLoads - ins.numExecs], List.getElem_mem h', ?_⟩
  rw [uopAt, if_neg (by omega), if_neg (by omega), List.getElem?_eq_getElem h', Option.getD_some]

/-! ### Order and dependencies -/

variable (dec address) in
theorem rank_uopAt {k} (h : k < ins.totalMicroOps) :
    rank (uopAt dec address ins k).uop_type =
      if k < ins.numLoads then 0 else if k < ins.numLoads + ins.numExecs then 1 else 2 := by
  by_cases hl : k < ins.numLoads
  · obtain ⟨mem_idx, -, hu⟩ := uopAt_load dec address hl
    rw [hu, if_pos hl]
    rfl
  · by_cases he : k < ins.numLoads + ins.numExecs
    · rw [uopAt_execute (by omega) he, if_neg hl, if_pos he]
      rfl
    · obtain ⟨mem_idx, -, hu⟩ := uopAt_store dec address (by omega) h
      rw [hu, if_neg hl, if_neg he]
      rfl

theorem order_uops :
    ((uops dec address ins).map fun u => rank u.uop_type).Pairwise (· ≤ ·) := by
  rw [uops, List.map_map, List.pairwise_map]
  refine List.pairwise_lt_range.imp_of_mem fun {j k} hj hk hlt => ?_
  simp only [Function.comp_apply, rank_uopAt dec address (List.mem_range.mp hj),
    rank_uopAt dec address (List.mem_range.mp hk)]
  split_ifs <;> omega

theorem dependsOn_iff {base k j} (hbase : base + ins.totalMicroOps ≤ 2 ^ 64)
    (hk : k < ins.totalMicroOps) :
    DependsOn base (uops dec address ins) k j ↔
      (ins.numLoads ≤ k ∧ k < ins.numLoads + ins.numExecs ∧ j < ins.numLoads) ∨
        (ins.numLoads + ins.numExecs ≤ k ∧ ins.numLoads ≤ j ∧
          j < ins.numLoads + ins.numExecs) := by
  have hself : DependsOn base (uops dec address ins) k j ↔
      base + j ∈ ((uopAt dec address ins k).dynamic (base + k)).getDependencies := by
    constructor
    · rintro ⟨u, hu, hmem⟩
      rwa [(getElem?_uops.mp hu).2] at hmem
    · exact fun hmem => ⟨_, getElem?_uops.mpr ⟨hk, rfl⟩, hmem⟩
  have hmem : ∀ u : Uop, u.microOpTypeOffset + u.intraInstructionDependencies ≤ k →
      (base + j ∈ (u.dynamic (base + k)).getDependencies ↔
        k ≤ j + u.microOpTypeOffset + u.intraInstructionDependencies ∧
          j + u.microOpTypeOffset < k) := by
    intro u hu
    have hle : (u.dynamic (base + k)).microOpTypeOffset + u.intraInstructionDependencies ≤
        (u.dynamic (base + k)).sequenceNumber := by
      simp only [Uop.dynamic]
      omega
    have hwidth : (u.dynamic (base + k)).sequenceNumber < 2 ^ 64 := by
      simp only [Uop.dynamic]
      omega
    rw [DynamicMicroOp.getDependencies, show (u.dynamic (base + k)).dependencies = [] from rfl,
      List.append_nil]
    refine (DynamicMicroOp.mem_intraDependencies hle hwidth).trans ?_
    simp only [Uop.dynamic]
    omega
  rw [hself]
  by_cases hl : k < ins.numLoads
  · obtain ⟨mem_idx, -, hu⟩ := uopAt_load dec address hl
    rw [hu, hmem _ (by simp only [mark, loadUop, blank]; omega)]
    simp only [mark, loadUop, blank]
    omega
  · by_cases he : k < ins.numLoads + ins.numExecs
    · rw [uopAt_execute (by omega) he, hmem _ (by simp only [mark, executeUop, blank]; omega)]
      simp only [mark, executeUop, blank]
      omega
    · obtain ⟨mem_idx, -, hu⟩ := uopAt_store dec address (by omega) hk
      rw [hu, hmem _ (by simp only [mark, storeUop, blank]; omega)]
      simp only [mark, storeUop, blank]
      omega

/-! ### Registers -/

variable (dec address) in
theorem exists_loadUop {mem_idx} (h : mem_idx ∈ ins.loads) :
    ∃ k < ins.numLoads, uopAt dec address ins k =
      mark ins k (loadUop dec address ins k mem_idx) := by
  obtain ⟨k, hk, rfl⟩ := List.getElem_of_mem h
  refine ⟨k, hk, ?_⟩
  rw [uopAt, if_pos (show k < ins.numLoads from hk), List.getElem?_eq_getElem hk,
    Option.getD_some]

variable (dec address) in
theorem exists_executeUop (h : 0 < ins.numExecs) :
    ∃ k < ins.totalMicroOps, uopAt dec address ins k =
      mark ins k (executeUop dec address ins 0) := by
  refine ⟨ins.numLoads, by unfold DecodedInst.totalMicroOps; omega, ?_⟩
  rw [uopAt_execute le_rfl (by omega), Nat.sub_self]

variable (dec address) in
theorem exists_storeUop {mem_idx} (h : mem_idx ∈ ins.stores) :
    ∃ k < ins.totalMicroOps, ∃ storeIndex, uopAt dec address ins k =
      mark ins k (storeUop dec address ins storeIndex mem_idx) := by
  obtain ⟨i, hi, rfl⟩ := List.getElem_of_mem h
  refine ⟨ins.numLoads + ins.numExecs + i, Nat.add_lt_add_left hi _, i, ?_⟩
  have hsub : ins.numLoads + ins.numExecs + i - ins.numLoads - ins.numExecs = i := by omega
  rw [uopAt, if_neg (by omega), if_neg (by omega), hsub, List.getElem?_eq_getElem hi,
    Option.getD_some]

theorem numLoads_le : ins.numLoads ≤ ins.totalMicroOps := by
  unfold DecodedInst.totalMicroOps
  omega

theorem exists_source_of_mem {r} (hr : r ∈ ins.regs_src) (hc : dec.counts r = true) :
    ∃ u ∈ uops dec address ins, dec.largest_enclosing_register r ∈ u.sourceRegisters := by
  rcases Nat.eq_zero_or_pos ins.numExecs with he | he
  · rcases Nat.eq_zero_or_pos ins.numLoads with hl | hl
    · have hs : 0 < ins.stores.length := by
        have hor := ins.numExecs_pos_or
        have : ins.numStores = ins.stores.length := rfl
        omega
      obtain ⟨k, hk, i, hu⟩ := exists_storeUop dec address
        (List.getElem_mem hs)
      refine ⟨_, mem_uops.mpr ⟨k, hk, rfl⟩, ?_⟩
      rw [hu]
      exact List.mem_append_right _ (mem_enclosingIf.mpr ⟨by simp [he, hl], r, hr, hc, rfl⟩)
    · obtain ⟨k, hk, hu⟩ := exists_loadUop dec address
        (List.getElem_mem (show 0 < ins.loads.length from hl))
      refine ⟨_, mem_uops.mpr ⟨k, hk.trans_le numLoads_le, rfl⟩, ?_⟩
      rw [hu]
      exact List.mem_append_right _ (mem_enclosingIf.mpr ⟨by simp [he], r, hr, hc, rfl⟩)
  · obtain ⟨k, hk, hu⟩ := exists_executeUop dec address he
    refine ⟨_, mem_uops.mpr ⟨k, hk, rfl⟩, ?_⟩
    rw [hu]
    exact List.mem_append_left _ (mem_enclosing.mpr ⟨r, hr, hc, rfl⟩)

theorem exists_source_iff {d} :
    (∃ u ∈ uops dec address ins, d ∈ u.sourceRegisters) ↔
      ∃ r, ins.Carries r ∧ dec.counts r = true ∧ dec.largest_enclosing_register r = d := by
  constructor
  · rintro ⟨u, hu, hd⟩
    obtain ⟨k, hk, rfl⟩ := mem_uops.mp hu
    by_cases hl : k < ins.numLoads
    · obtain ⟨mem_idx, hmem, hu⟩ := uopAt_load dec address hl
      rw [hu] at hd
      rcases List.mem_append.mp hd with hd | hd
      · obtain ⟨r, hr, hc, he⟩ := mem_enclosing.mp hd
        exact ⟨r, .inr (.inr (.inl ⟨mem_idx, List.mem_append_left _ hmem, hr⟩)), hc, he⟩
      · obtain ⟨-, r, hr, hc, he⟩ := mem_enclosingIf.mp hd
        exact ⟨r, (ins.mem_regs_src.mp hr).imp_right .inl, hc, he⟩
    · by_cases he : k < ins.numLoads + ins.numExecs
      · rw [uopAt_execute (by omega) he] at hd
        rcases List.mem_append.mp hd with hd | hd
        · obtain ⟨r, hr, hc, he⟩ := mem_enclosing.mp hd
          exact ⟨r, (ins.mem_regs_src.mp hr).imp_right .inl, hc, he⟩
        · obtain ⟨hmerge, r, hr, hc, hr'⟩ := mem_enclosingIf.mp hd
          exact ⟨r, .inr (.inr (.inr ⟨hmerge, by omega, ins.mem_regs_dst.mp hr⟩)), hc, hr'⟩
      · obtain ⟨mem_idx, hmem, hu⟩ := uopAt_store dec address (by omega) hk
        rw [hu] at hd
        rcases List.mem_append.mp hd with hd | hd
        · obtain ⟨r, hr, hc, he⟩ := mem_enclosing.mp hd
          exact ⟨r, .inr (.inr (.inl ⟨mem_idx, List.mem_append_right _ hmem, hr⟩)), hc, he⟩
        · obtain ⟨-, r, hr, hc, he⟩ := mem_enclosingIf.mp hd
          exact ⟨r, (ins.mem_regs_src.mp hr).imp_right .inl, hc, he⟩
  · rintro ⟨r, hr, hc, rfl⟩
    rcases hr with hr | hr | ⟨mem_idx, hmem, hr⟩ | ⟨hmerge, he, hr⟩
    · exact exists_source_of_mem (ins.mem_regs_src.mpr (.inl hr)) hc
    · exact exists_source_of_mem (ins.mem_regs_src.mpr (.inr hr)) hc
    · rcases List.mem_append.mp hmem with hmem | hmem
      · obtain ⟨k, hk, hu⟩ := exists_loadUop dec address hmem
        refine ⟨_, mem_uops.mpr ⟨k, hk.trans_le numLoads_le, rfl⟩, ?_⟩
        rw [hu]
        exact List.mem_append_left _ (mem_enclosing.mpr ⟨r, hr, hc, rfl⟩)
      · obtain ⟨k, hk, i, hu⟩ := exists_storeUop dec address hmem
        refine ⟨_, mem_uops.mpr ⟨k, hk, rfl⟩, ?_⟩
        rw [hu]
        exact List.mem_append_left _ (mem_enclosing.mpr ⟨r, hr, hc, rfl⟩)
    · obtain ⟨k, hk, hu⟩ := exists_executeUop dec address he
      refine ⟨_, mem_uops.mpr ⟨k, hk, rfl⟩, ?_⟩
      rw [hu]
      exact List.mem_append_right _
        (mem_enclosingIf.mpr ⟨hmerge, r, ins.mem_regs_dst.mpr hr, hc, rfl⟩)

theorem exists_destination_of_writes {r} (hr : ins.Writes r) (hc : dec.counts r = true) :
    ∃ u ∈ uops dec address ins, dec.largest_enclosing_register r ∈ u.destinationRegisters := by
  have hmem := ins.mem_regs_dst.mpr hr
  rcases Nat.eq_zero_or_pos ins.numExecs with he | he
  · rcases Nat.eq_zero_or_pos ins.numStores with hs | hs
    · have hl : 0 < ins.loads.length := by
        have hor := ins.numExecs_pos_or
        have : ins.numLoads = ins.loads.length := rfl
        omega
      obtain ⟨k, hk, hu⟩ := exists_loadUop dec address (List.getElem_mem hl)
      refine ⟨_, mem_uops.mpr ⟨k, hk.trans_le numLoads_le, rfl⟩, ?_⟩
      rw [hu]
      exact mem_enclosingIf.mpr ⟨by simp [he, hs], r, hmem, hc, rfl⟩
    · obtain ⟨k, hk, i, hu⟩ := exists_storeUop dec address
        (List.getElem_mem (show 0 < ins.stores.length from hs))
      refine ⟨_, mem_uops.mpr ⟨k, hk, rfl⟩, ?_⟩
      rw [hu]
      exact mem_enclosingIf.mpr ⟨by simp [he], r, hmem, hc, rfl⟩
  · obtain ⟨k, hk, hu⟩ := exists_executeUop dec address he
    refine ⟨_, mem_uops.mpr ⟨k, hk, rfl⟩, ?_⟩
    rw [hu]
    exact mem_enclosing.mpr ⟨r, hmem, hc, rfl⟩

theorem writes_of_destination {k d} (hk : k < ins.totalMicroOps)
    (hd : d ∈ (uopAt dec address ins k).destinationRegisters) :
    ∃ r, ins.Writes r ∧ dec.largest_enclosing_register r = d := by
  have hwritten : d ∈ dec.enclosing ins.regs_dst := by
    by_cases hl : k < ins.numLoads
    · obtain ⟨mem_idx, -, hu⟩ := uopAt_load dec address hl
      rw [hu] at hd
      exact mem_enclosing.mpr (mem_enclosingIf.mp hd).2
    · by_cases he : k < ins.numLoads + ins.numExecs
      · rw [uopAt_execute (by omega) he] at hd
        exact hd
      · obtain ⟨mem_idx, -, hu⟩ := uopAt_store dec address (by omega) hk
        rw [hu] at hd
        exact mem_enclosing.mpr (mem_enclosingIf.mp hd).2
  obtain ⟨r, hr, -, he⟩ := mem_enclosing.mp hwritten
  exact ⟨r, ins.mem_regs_dst.mp hr, he⟩

/-! ### Room -/

theorem fits_iff_room :
    (∀ k ∈ List.range ins.totalMicroOps, (uopAt dec address ins k).Fits) ↔ Room dec ins := by
  constructor
  · intro h
    have hfits : ∀ {k}, k < ins.totalMicroOps → (uopAt dec address ins k).Fits :=
      fun hk => h _ (List.mem_range.mpr hk)
    refine ⟨fun mem_idx hmem => ?_, fun he => ?_, fun mem_idx hmem => ?_⟩
    · obtain ⟨k, hk, hu⟩ := exists_loadUop dec address hmem
      obtain ⟨hsrc, hdst⟩ := hu ▸ hfits (hk.trans_le numLoads_le)
      exact ⟨List.length_append ▸ hsrc, hdst⟩
    · obtain ⟨k, hk, hu⟩ := exists_executeUop dec address he
      obtain ⟨hsrc, hdst⟩ := hu ▸ hfits hk
      exact ⟨List.length_append ▸ hsrc, hdst⟩
    · obtain ⟨k, hk, i, hu⟩ := exists_storeUop dec address hmem
      obtain ⟨hsrc, hdst⟩ := hu ▸ hfits hk
      exact ⟨List.length_append ▸ hsrc, hdst⟩
  · intro h k hk
    have hk := List.mem_range.mp hk
    by_cases hl : k < ins.numLoads
    · obtain ⟨mem_idx, hmem, hu⟩ := uopAt_load dec address hl
      rw [hu]
      exact ⟨List.length_append ▸ (h.load _ hmem).1, (h.load _ hmem).2⟩
    · by_cases he : k < ins.numLoads + ins.numExecs
      · rw [uopAt_execute (by omega) he]
        exact ⟨List.length_append ▸ (h.execute (by omega)).1, (h.execute (by omega)).2⟩
      · obtain ⟨mem_idx, hmem, hu⟩ := uopAt_store dec address (by omega) hk
        rw [hu]
        exact ⟨List.length_append ▸ (h.store _ hmem).1, (h.store _ hmem).2⟩

/-! ### What is preserved -/

theorem load_lt {k} (hk : k < ins.totalMicroOps) (h : (uopAt dec address ins k).uop_type = .load) :
    k < ins.numLoads := by
  have hrank := rank_uopAt dec address hk
  rw [h, rank] at hrank
  split_ifs at hrank
  assumption

theorem execute_lt {k} (hk : k < ins.totalMicroOps)
    (h : (uopAt dec address ins k).uop_type = .execute) :
    ins.numLoads ≤ k ∧ k < ins.numLoads + ins.numExecs := by
  have hrank := rank_uopAt dec address hk
  rw [h, rank] at hrank
  split_ifs at hrank <;> omega

variable (dec address) in
theorem store_le {k} (hk : k < ins.totalMicroOps) :
    (uopAt dec address ins k).uop_type = .store ↔ ins.numLoads + ins.numExecs ≤ k := by
  have hrank := rank_uopAt dec address hk
  constructor
  · intro h
    rw [h, rank] at hrank
    split_ifs at hrank <;> omega
  · intro h
    rw [if_neg (by omega), if_neg (by omega)] at hrank
    cases hu : (uopAt dec address ins k).uop_type with
    | store => rfl
    | load | execute => simp [hu, rank] at hrank

theorem store_reaches (hlinked : ¬ (ins.numExecs = 0 ∧ 0 < ins.numLoads ∧ 0 < ins.numStores))
    {base j k} (hbase : base + ins.totalMicroOps ≤ 2 ^ 64) (hk : k < ins.totalMicroOps)
    (hj : j < ins.numLoads + ins.numExecs) (hstore : ins.numLoads + ins.numExecs ≤ k) :
    Relation.TransGen (DependsOn base (uops dec address ins)) k j := by
  by_cases hl : j < ins.numLoads
  · have he : 0 < ins.numExecs := by
      unfold DecodedInst.totalMicroOps at hk
      omega
    refine .tail (.single ((dependsOn_iff hbase hk).mpr (.inr ⟨hstore, le_rfl, by omega⟩)))
      ((dependsOn_iff hbase (by omega)).mpr (.inl ⟨le_rfl, by omega, hl⟩))
  · exact .single ((dependsOn_iff hbase hk).mpr (.inr ⟨hstore, by omega, hj⟩))

theorem preserves_of_supported (h : Supported dec ins) :
    Preserves dec ins (uops dec address ins) := by
  have hpos := ins.totalMicroOps_pos
  refine
    { nonempty := ?_, order := order_uops, first := ?_, last := ?_, sources := ?_,
      destinations := fun r hr hc => exists_destination_of_writes hr hc, written := ?_,
      executes := ?_, stores := ?_, barrier := ?_, atomicStore := ?_, serializing := ?_ }
  · rw [← List.length_pos_iff, length_uops]
    exact hpos
  · intro k u hu
    rw [(getElem?_uops.mp hu).2]
    simp [uopAt, mark]
  · intro k u hu
    rw [(getElem?_uops.mp hu).2, length_uops]
    simp [uopAt, mark]
  · intro r hr hc
    refine exists_source_iff.mpr ?_
    rcases hr with hr | hr | hr
    · by_cases hmem : r ∈ ins.regs_mem
      · exact h.carried r hr hmem hc
      · exact ⟨r, .inl ⟨hr, hmem⟩, hc, rfl⟩
    · exact ⟨r, .inr (.inl hr), hc, rfl⟩
    · exact ⟨r, .inr (.inr (.inl hr)), hc, rfl⟩
  · intro u hu d hd
    obtain ⟨k, hk, rfl⟩ := mem_uops.mp hu
    exact writes_of_destination hk hd
  · intro base j k u v hbase hj hk hload hexec
    rw [length_uops] at hbase
    obtain ⟨hj', rfl⟩ := getElem?_uops.mp hj
    obtain ⟨hk', rfl⟩ := getElem?_uops.mp hk
    obtain ⟨hle, hlt⟩ := execute_lt hk' hexec
    exact (dependsOn_iff hbase hk').mpr (.inl ⟨hle, hlt, load_lt hj' hload⟩)
  · intro base j k u v hbase hj hk hnot hstore
    rw [length_uops] at hbase
    obtain ⟨hj', rfl⟩ := getElem?_uops.mp hj
    obtain ⟨hk', rfl⟩ := getElem?_uops.mp hk
    rw [Ne, store_le dec address hj', not_le] at hnot
    exact store_reaches h.linked hbase hk' hnot ((store_le dec address hk').mp hstore)
  · intro hbarrier
    rcases Nat.eq_zero_or_pos ins.numExecs with he | he
    · obtain ⟨hatomic, hs⟩ := h.fenced hbarrier he
      obtain ⟨k, hk, i, hu⟩ := exists_storeUop dec address
        (List.getElem_mem (show 0 < ins.stores.length from hs))
      exact ⟨_, mem_uops.mpr ⟨k, hk, rfl⟩, by rw [hu]; exact hatomic⟩
    · obtain ⟨k, hk, hu⟩ := exists_executeUop dec address he
      exact ⟨_, mem_uops.mpr ⟨k, hk, rfl⟩, by rw [hu]; exact hbarrier⟩
  · intro hatomic hs
    obtain ⟨k, hk, i, hu⟩ := exists_storeUop dec address
      (List.getElem_mem (show 0 < ins.stores.length from hs))
    exact ⟨_, mem_uops.mpr ⟨k, hk, rfl⟩, by rw [hu]; exact hatomic⟩
  · intro hserializing
    refine ⟨_, mem_uops.mpr ⟨ins.totalMicroOps - 1, by omega, rfl⟩, ?_⟩
    simp [uopAt, mark, hserializing, show ins.totalMicroOps - 1 + 1 = ins.totalMicroOps by omega]

theorem linked_of_preserves (h : Preserves dec ins (uops dec address ins)) :
    ¬ (ins.numExecs = 0 ∧ 0 < ins.numLoads ∧ 0 < ins.numStores) := by
  rintro ⟨he, hl, hs⟩
  have htotal : ins.totalMicroOps = ins.numLoads + ins.numStores := by
    simp [DecodedInst.totalMicroOps, he]
  have hbase : 0 + ins.totalMicroOps ≤ 2 ^ 64 := by
    rw [Nat.zero_add]
    exact ins.totalMicroOps_le
  have hnone : ∀ k j, ¬ DependsOn 0 (uops dec address ins) k j := by
    rintro k j hdep
    obtain ⟨u, hu, -⟩ := id hdep
    rcases (dependsOn_iff hbase (getElem?_uops.mp hu).1).mp hdep with hdep | hdep <;> omega
  have hstore := (store_le dec address
    (show ins.numLoads < ins.totalMicroOps by omega)).mpr (by omega)
  have hload : (uopAt dec address ins 0).uop_type ≠ .store := by
    rw [Ne, store_le dec address (by omega)]
    omega
  obtain ⟨j, hj, -⟩ := Relation.TransGen.head'_iff.mp (h.stores 0 0 ins.numLoads _ _
    (by rwa [length_uops]) (getElem?_uops.mpr ⟨by omega, rfl⟩)
    (getElem?_uops.mpr ⟨by omega, rfl⟩) hload hstore)
  exact hnone _ _ hj

theorem supported_of_preserves (hroom : Room dec ins)
    (h : Preserves dec ins (uops dec address ins)) : Supported dec ins := by
  refine ⟨hroom, linked_of_preserves h, fun r hr _ hc => ?_, fun hbarrier he => ?_⟩
  · exact exists_source_iff.mp (h.sources r (.inl hr) hc)
  · obtain ⟨u, hu, hmembar⟩ := h.barrier hbarrier
    obtain ⟨k, hk, rfl⟩ := mem_uops.mp hu
    by_cases hl : k < ins.numLoads
    · obtain ⟨mem_idx, -, hu⟩ := uopAt_load dec address hl
      rw [hu] at hmembar
      exact absurd hmembar (by simp [mark, loadUop, blank])
    · obtain ⟨mem_idx, hmem, hu⟩ := uopAt_store dec address
        (by omega) hk
      rw [hu] at hmembar
      exact ⟨hmembar, List.length_pos_of_mem hmem⟩

end Positions

/-- The decoder preserves the dataflow and the ordering of just the instructions that it
supports. -/
theorem decode_preserves_iff (dec : Registers) (address : ℕ) (ins : DecodedInst) :
    (∃ list, decode dec address ins = .ok list ∧ Preserves dec ins list) ↔
      Supported dec ins := by
  rw [decode_eq]
  by_cases hroom : Room dec ins
  · rw [if_pos (fits_iff_room.mpr hroom)]
    constructor
    · rintro ⟨list, hlist, h⟩
      cases hlist
      exact supported_of_preserves hroom h
    · exact fun h => ⟨_, rfl, preserves_of_supported h⟩
  · rw [if_neg (hroom ∘ fits_iff_room.mp)]
    constructor
    · rintro ⟨list, hlist, -⟩
      cases hlist
    · exact fun h => absurd h.room hroom

/-! ### A copy from memory to memory -/

/-- Registers that enclose only themselves. -/
def plainRegisters : Registers where
  invalid_register _ := false
  largest_enclosing_register r := r
  reg_is_program_counter _ := false

/-- The first memory operand is read, the second one written, and there is nothing to execute. -/
def copy : DecodedInst where
  is_nop := false
  is_atomic := false
  is_serializing := false
  is_barrier := false
  is_X87 := false
  is_conditional_branch := false
  src_dst_merge := false
  inst_num_id := 0
  get_operand_size := 64
  num_memory_operands := 2
  mem_base_reg mem_idx := 2 * mem_idx
  mem_index_reg mem_idx := 2 * mem_idx + 1
  op_read_mem mem_idx := mem_idx == 0
  op_write_mem mem_idx := mem_idx == 1
  size_mem_op _ := 8
  num_operands := 0
  is_addr_gen _ := false
  op_is_reg _ := false
  get_op_reg _ := 0
  op_read_reg _ := false
  op_write_reg _ := false
  get_exec_microops _ _ := 0
  exec_le := by simp
  operands_lt := by simp

/-- The store of a copy depends on nothing, although it writes what the load reads. -/
theorem copy_not_preserved :
    ¬ ∃ list, decode plainRegisters 0x400000 copy = .ok list ∧
      Preserves plainRegisters copy list := by
  rintro ⟨list, hlist, h⟩
  rw [decode_eq] at hlist
  split at hlist
  · cases hlist
    exact linked_of_preserves h ⟨by decide, by decide, by decide⟩
  · cases hlist

end Sniper.Timing.Decoding
