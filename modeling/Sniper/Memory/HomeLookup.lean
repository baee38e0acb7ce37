import Sniper.Lib.Interleave
import Sniper.Memory.AddressHash

/-! # The homes of addresses

`AddressHomeLookup` deals chunks of `2 ^ m_ahl_param` bytes to its modules in turn, and numbers
the bytes of a module without gaps.
-/
namespace Sniper.Memory.AddressHash
open SetAssoc (IntPtr)
open Lib

/-- A list of distinct home cores, as many as the `SInt32` in `getHome` counts, and a chunk that
has room for a cache block. -/
structure HomeLookup where
  m_ahl_param : Nat
  m_core_list : List Nat
  m_cache_block_size : Nat
  cores_pos : 0 < m_core_list.length
  cores_lt : m_core_list.length < 2 ^ 31
  cores_nodup : m_core_list.Nodup
  /-- 2^AHL param must be >= Cache Block Size. -/
  block_le : m_cache_block_size ≤ 2 ^ m_ahl_param
  /-- A 64-bit word is shifted by it. -/
  param_lt : m_ahl_param < 64

namespace HomeLookup
variable (h : HomeLookup)

/-- The lookup of the linear addresses. -/
def linear : AddressHomeLookup := ⟨h.m_ahl_param, h.m_core_list.length, h.cores_pos⟩

/-- `module_num` in `getHome`, which asserts that it is one of the modules. -/
def moduleNum (address : IntPtr) : Nat :=
  (address.toNat >>> h.m_ahl_param) % h.m_core_list.length

theorem moduleNum_lt (address : IntPtr) : h.moduleNum address < h.m_core_list.length :=
  Nat.mod_lt _ h.cores_pos

def getHome (address : IntPtr) : Nat :=
  h.m_core_list.get ⟨h.moduleNum address, h.moduleNum_lt address⟩

def getLinearAddress (address : IntPtr) : Nat := h.linear.getLinearAddress address.toNat

def chunks : Nat := 2 ^ (64 - h.m_ahl_param)

/-! ### Chunks in turn -/

variable {h} {a b : IntPtr}

theorem chunk_pos : 0 < 2 ^ h.m_ahl_param := Nat.two_pow_pos _

theorem moduleNum_eq (a : IntPtr) :
    h.moduleNum a = Interleave.lane (2 ^ h.m_ahl_param) h.m_core_list.length a.toNat := by
  rw [moduleNum, Nat.shiftRight_eq_div_pow]
  rfl

theorem getLinearAddress_eq (a : IntPtr) : h.getLinearAddress a =
    Interleave.inLane (2 ^ h.m_ahl_param) h.m_core_list.length a.toNat := by
  have hblock : h.linear.getLinearBlock a.toNat =
      a.toNat / 2 ^ h.m_ahl_param / h.m_core_list.length := by
    unfold AddressHomeLookup.getLinearBlock
    rw [Nat.shiftRight_eq_div_pow]
    rfl
  have hlt : a.toNat / 2 ^ h.m_ahl_param / h.m_core_list.length * 2 ^ h.m_ahl_param < 2 ^ 64 := calc
    _ ≤ a.toNat / 2 ^ h.m_ahl_param * 2 ^ h.m_ahl_param :=
      Nat.mul_le_mul_right _ (Nat.div_le_self _ _)
    _ ≤ a.toNat := Nat.div_mul_le_self _ _
    _ < 2 ^ 64 := a.isLt
  unfold getLinearAddress AddressHomeLookup.getLinearAddress
  change (h.linear.getLinearBlock a.toNat <<< h.m_ahl_param) % 2 ^ 64 |||
    a.toNat &&& (2 ^ h.m_ahl_param - 1) = _
  rw [hblock, Nat.and_two_pow_sub_one_eq_mod, Nat.shiftLeft_eq, Nat.mod_eq_of_lt hlt, ← Nat.shiftLeft_eq,
    ← Nat.shiftLeft_add_eq_or_of_lt (Nat.mod_lt _ chunk_pos), Nat.shiftLeft_eq]
  rfl

theorem getHome_inj : h.getHome a = h.getHome b ↔ h.moduleNum a = h.moduleNum b := by
  unfold getHome
  rw [List.Nodup.get_inj_iff h.cores_nodup, Fin.mk.injEq]

theorem lane_eq (hhome : h.getHome a = h.getHome b) :
    Interleave.lane (2 ^ h.m_ahl_param) h.m_core_list.length a.toNat =
      Interleave.lane (2 ^ h.m_ahl_param) h.m_core_list.length b.toNat := by
  rw [← moduleNum_eq, ← moduleNum_eq]
  exact getHome_inj.mp hhome

theorem exists_address {n} (hn : n < 2 ^ 64) {l}
    (hin : Interleave.inLane (2 ^ h.m_ahl_param) h.m_core_list.length n = l) :
    ∃ a : IntPtr, h.moduleNum a = Interleave.lane (2 ^ h.m_ahl_param) h.m_core_list.length n ∧
      h.getLinearAddress a = l := by
  refine ⟨BitVec.ofNat 64 n, ?_, ?_⟩
  · rw [moduleNum_eq, BitVec.toNat_ofNat, Nat.mod_eq_of_lt hn]
  · rw [getLinearAddress_eq, BitVec.toNat_ofNat, Nat.mod_eq_of_lt hn, hin]

theorem chunks_mul : h.chunks * 2 ^ h.m_ahl_param = 2 ^ 64 := by
  have hle : h.m_ahl_param ≤ 64 := h.param_lt.le
  rw [chunks, ← Nat.pow_add, Nat.sub_add_cancel hle]

/-- A home and a linear address are one address, and the linear addresses of a home are the first
numbers, in order. -/
structure Indexed (h : HomeLookup) : Prop where
  injective : Function.Injective fun a => (h.getHome a, h.getLinearAddress a)
  gapless : ∀ a, ∀ l ≤ h.getLinearAddress a, ∃ b, h.getHome b = h.getHome a ∧
    h.getLinearAddress b = l
  /-- The full rounds reach every home. -/
  rounds : ∀ home ∈ h.m_core_list, ∀ l, l / 2 ^ h.m_ahl_param < h.chunks / h.m_core_list.length →
    ∃ b, h.getHome b = home ∧ h.getLinearAddress b = l
  /-- One round may be partial. -/
  last : ∀ a, h.getLinearAddress a / 2 ^ h.m_ahl_param ≤ h.chunks / h.m_core_list.length
  offset : ∀ a, h.getLinearAddress a % 2 ^ h.m_ahl_param = a.toNat % 2 ^ h.m_ahl_param
  order : ∀ a b, h.getHome a = h.getHome b →
    (h.getLinearAddress a < h.getLinearAddress b ↔ a < b)
  /-- A cache at a home has one number for each line. -/
  lines : ∀ c : CacheBase, c.m_ahl = some h.linear → c.m_blocksize = h.m_cache_block_size →
    ∀ a b, h.getHome a = h.getHome b → c.blockNum a = c.blockNum b →
      a >>> c.m_log_blocksize = b >>> c.m_log_blocksize

theorem injective (h : HomeLookup) :
    Function.Injective fun a => (h.getHome a, h.getLinearAddress a) := by
  intro a b heq
  obtain ⟨hhome, hlinear⟩ := Prod.mk.inj heq
  rw [getLinearAddress_eq, getLinearAddress_eq] at hlinear
  exact BitVec.eq_of_toNat_eq (Interleave.ext chunk_pos (lane_eq hhome) hlinear)

theorem gapless (h : HomeLookup) (a : IntPtr) (l : Nat) (hl : l ≤ h.getLinearAddress a) :
    ∃ b, h.getHome b = h.getHome a ∧ h.getLinearAddress b = l := by
  rw [getLinearAddress_eq] at hl
  obtain ⟨n, hn, hlane, hin⟩ := Interleave.exists_of_le chunk_pos h.cores_pos hl
  obtain ⟨b, hmodule, hlinear⟩ := exists_address (hn.trans_lt a.isLt) hin
  refine ⟨b, getHome_inj.mpr ?_, hlinear⟩
  rw [hmodule, hlane, moduleNum_eq]

theorem rounds (h : HomeLookup) {home} (hhome : home ∈ h.m_core_list) (l : Nat)
    (hl : l / 2 ^ h.m_ahl_param < h.chunks / h.m_core_list.length) :
    ∃ b, h.getHome b = home ∧ h.getLinearAddress b = l := by
  obtain ⟨⟨i, hi⟩, rfl⟩ := List.get_of_mem hhome
  obtain ⟨n, hn, hlane, hin⟩ := Interleave.exists_of_round chunk_pos hi hl
  rw [chunks_mul] at hn
  obtain ⟨b, hmodule, hlinear⟩ := exists_address hn hin
  refine ⟨b, ?_, hlinear⟩
  unfold getHome
  rw [List.Nodup.get_inj_iff h.cores_nodup, Fin.mk.injEq, hmodule, hlane]

theorem last (h : HomeLookup) (a : IntPtr) :
    h.getLinearAddress a / 2 ^ h.m_ahl_param ≤ h.chunks / h.m_core_list.length := by
  rw [getLinearAddress_eq, Interleave.inLane_div chunk_pos]
  refine Nat.div_le_div_right (Nat.div_le_of_le_mul ?_)
  rw [Nat.mul_comm, chunks_mul]
  exact a.isLt.le

theorem order (h : HomeLookup) {a b} (hhome : h.getHome a = h.getHome b) :
    h.getLinearAddress a < h.getLinearAddress b ↔ a < b := by
  rw [getLinearAddress_eq, getLinearAddress_eq,
    Interleave.inLane_lt_iff chunk_pos h.cores_pos (lane_eq hhome), BitVec.lt_def]

theorem log_blocksize_le {c : CacheBase} (hsize : c.m_blocksize = h.m_cache_block_size) :
    c.m_log_blocksize ≤ h.m_ahl_param := by
  rw [CacheBase.m_log_blocksize, floorLog2_eq c.blocksize_pos c.blocksize_lt, Int.toNat_natCast]
  refine (Nat.pow_le_pow_iff_right Nat.one_lt_two).mp ?_
  calc 2 ^ c.m_blocksize.log2 ≤ c.m_blocksize := Nat.log2_self_le c.blocksize_pos.ne'
    _ ≤ 2 ^ h.m_ahl_param := hsize.trans_le h.block_le

theorem lines {c : CacheBase} (hahl : c.m_ahl = some h.linear)
    (hsize : c.m_blocksize = h.m_cache_block_size) (hhome : h.getHome a = h.getHome b)
    (hblock : c.blockNum a = c.blockNum b) :
    a >>> c.m_log_blocksize = b >>> c.m_log_blocksize := by
  have hpos : 0 < 2 ^ c.m_log_blocksize := Nat.two_pow_pos _
  have hchunk : 2 ^ h.m_ahl_param =
      2 ^ c.m_log_blocksize * 2 ^ (h.m_ahl_param - c.m_log_blocksize) := by
    rw [← Nat.pow_add, Nat.add_sub_cancel' (log_blocksize_le hsize)]
  have hnum : ∀ a, c.blockNum a = h.getLinearAddress a / 2 ^ c.m_log_blocksize := by
    intro a
    unfold CacheBase.blockNum
    rw [hahl, Nat.shiftRight_eq_div_pow]
    rfl
  have hlane := lane_eq hhome
  rw [hnum, hnum, getLinearAddress_eq, getLinearAddress_eq, hchunk, Interleave.inLane_block hpos,
    Interleave.inLane_block hpos] at hblock
  rw [hchunk, Interleave.lane_block, Interleave.lane_block] at hlane
  refine BitVec.eq_of_toNat_eq ?_
  rw [BitVec.toNat_ushiftRight, BitVec.toNat_ushiftRight, Nat.shiftRight_eq_div_pow,
    Nat.shiftRight_eq_div_pow]
  exact Interleave.ext (Nat.two_pow_pos _) hlane hblock

/-- **Home and linear address index the address space.** -/
theorem home_lookup_indexed (h : HomeLookup) : h.Indexed where
  injective := h.injective
  gapless := h.gapless
  rounds := fun _ hhome => h.rounds hhome
  last := h.last
  offset := fun a => by rw [getLinearAddress_eq, Interleave.inLane_mod]
  order := fun _ _ => h.order
  lines := fun _ hahl hsize _ _ => lines hahl hsize

/-- Chunks of 64 bytes on three cores. -/
def onThree : HomeLookup where
  m_ahl_param := 6
  m_core_list := [0, 4, 8]
  m_cache_block_size := 64
  cores_pos := by decide
  cores_lt := by decide
  cores_nodup := by decide
  block_le := by decide
  param_lt := by decide

example : onThree.getHome 461 = 4 ∧ onThree.getLinearAddress 461 = 141 := by decide

end HomeLookup
end Sniper.Memory.AddressHash
