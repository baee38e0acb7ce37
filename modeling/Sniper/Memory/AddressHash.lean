import Mathlib.Data.Nat.Bitwise
import Mathlib.Data.Nat.Factorization.Basic
import Sniper.Memory.SetAssoc

/-! # Address hashes

`CacheBase::splitAddress` and what it uses: the set of a line is a hash of its block number.
Set counts are below `2 ^ 32` and block numbers below `2 ^ 64`; the index of a set fits in 32
bits. A division by zero is `none`. -/

namespace Sniper.Memory.AddressHash
open SetAssoc (IntPtr)

/-! ### The position of the highest bit -/

/-- One line of `floorLog2`: a set bit under the mask moves the number down. -/
def halve (mask width : Nat) : Int × Nat → Int × Nat
  | (p, n) => if n &&& mask ≠ 0 then (p + width, n >>> width) else (p, n)

/-- `floorLog2` of 32 bits. -/
def floorLog2 (n : Nat) : Int :=
  if n = 0 then -1
  else
    let (p, n) := halve 0xffff0000 16 (0, n)
    let (p, n) := halve 0x0000ff00 8 (p, n)
    let (p, n) := halve 0x000000f0 4 (p, n)
    let (p, n) := halve 0x0000000c 2 (p, n)
    if n &&& 0x00000002 ≠ 0 then p + 1 else p

theorem and_mask_ne_zero {n w} (hn : n < 2 ^ (2 * w)) :
    n &&& ((2 ^ w - 1) <<< w) ≠ 0 ↔ 2 ^ w ≤ n := by
  constructor
  · intro hne
    by_contra hlt
    refine hne (Nat.eq_of_testBit_eq fun i => ?_)
    rw [Nat.testBit_and, Nat.zero_testBit, Nat.testBit_shiftLeft]
    by_cases hi : w ≤ i
    · rw [Nat.testBit_lt_two_pow ((not_le.mp hlt).trans_le (Nat.pow_le_pow_right two_pos hi)),
        Bool.false_and]
    · simp [hi]
  · intro hle hzero
    have hne : n ≠ 0 := (hle.trans_lt' (Nat.two_pow_pos w)).ne'
    have hbit := congrArg (·.testBit n.log2) hzero
    have hlow : w ≤ n.log2 := (Nat.le_log2 hne).mpr hle
    have hhigh : n.log2 - w < w := by
      have := (Nat.log2_lt hne).mpr hn
      omega
    simp [Nat.testBit_and, Nat.testBit_log2 hne, Nat.testBit_shiftLeft, hlow, hhigh] at hbit

/-- What is left of a number after its shifts. -/
def Rest (n : Nat) (width : Nat) (x : Int × Nat) : Prop :=
  ∃ p : Nat, x.1 = p ∧ x.2 = n >>> p ∧ 0 < x.2 ∧ x.2 < 2 ^ width

theorem Rest.halve {n w x} (h : Rest n (2 * w) x) :
    Rest n w (halve ((2 ^ w - 1) <<< w) w x) := by
  obtain ⟨p, rest⟩ := x
  obtain ⟨q, hp, hrest, hpos, hlt⟩ := h
  dsimp only at hp hrest hpos hlt
  unfold AddressHash.halve
  dsimp only
  by_cases hle : 2 ^ w ≤ rest
  · rw [if_pos ((and_mask_ne_zero hlt).mpr hle)]
    refine ⟨q + w, by rw [hp]; rfl, ?_, ?_, ?_⟩
    · rw [hrest, ← Nat.shiftRight_add]
    · rw [Nat.shiftRight_eq_div_pow]
      exact Nat.div_pos hle (Nat.two_pow_pos w)
    · rw [Nat.shiftRight_eq_div_pow, Nat.div_lt_iff_lt_mul (Nat.two_pow_pos w), ← Nat.pow_add]
      rwa [two_mul] at hlt
  · rw [if_neg (mt (and_mask_ne_zero hlt).mp hle)]
    exact ⟨q, hp, hrest, hpos, not_le.mp hle⟩

theorem floorLog2_eq_halve {n} (hn : n ≠ 0) :
    floorLog2 n = (halve ((2 ^ 1 - 1) <<< 1) 1 (halve ((2 ^ 2 - 1) <<< 2) 2
      (halve ((2 ^ 4 - 1) <<< 4) 4 (halve ((2 ^ 8 - 1) <<< 8) 8
        (halve ((2 ^ 16 - 1) <<< 16) 16 (0, n)))))).1 := by
  have hlast : ∀ x : Int × Nat,
      (if x.2 &&& 0x00000002 ≠ 0 then x.1 + 1 else x.1) = (halve ((2 ^ 1 - 1) <<< 1) 1 x).1 := by
    intro ⟨p, rest⟩
    change (if rest &&& 2 ≠ 0 then p + 1 else p) =
      (if rest &&& 2 ≠ 0 then (p + 1, rest >>> 1) else (p, rest)).1
    split_ifs <;> rfl
  rw [floorLog2, if_neg hn, ← hlast]
  rfl

theorem floorLog2_eq {n} (hpos : 0 < n) (hlt : n < 2 ^ 32) : floorLog2 n = n.log2 := by
  have hstart : Rest n (2 * 16) (0, n) := ⟨0, rfl, rfl, hpos, hlt⟩
  obtain ⟨p, hp, hrest, hone, htwo⟩ : Rest n 1 _ :=
    hstart.halve.halve (w := 8) |>.halve (w := 4) |>.halve (w := 2) |>.halve (w := 1)
  rw [floorLog2_eq_halve hpos.ne', hp]
  have heq : n / 2 ^ p = 1 := by
    omega
  have hlog : n.log2 = p := by
    refine (Nat.log2_eq_iff hpos.ne').mpr ⟨?_, ?_⟩
    · exact (Nat.one_le_div_iff (Nat.two_pow_pos p)).mp heq.ge
    · rw [Nat.pow_succ, mul_comm]
      exact (Nat.div_lt_iff_lt_mul (Nat.two_pow_pos p)).mp (by rw [heq]; decide)
  rw [hlog]

/-! ### Pseudo-random numbers -/

def RNG_A : Nat := 0x5DEECE66D
def RNG_C : Nat := 0xB
def RNG_M : Nat := 2 ^ 48 - 1

/-- `rng_next`: the number and the new state. -/
def rng_next (state : Nat) : Nat × Nat :=
  let state := (RNG_A * state + RNG_C) % 2 ^ 64 &&& RNG_M
  (state >>> 16, state)

def rng_seed (seed : Nat) : Nat := (seed <<< 16 + 0x330E) % 2 ^ 64

/-! ### Splitting an address -/

/-- `AddressHomeLookup`, less the list of its modules, which `getLinearBlock` divides by. -/
structure AddressHomeLookup where
  m_ahl_param : Nat
  m_total_modules : Nat
  modules_pos : 0 < m_total_modules

namespace AddressHomeLookup
variable (ahl : AddressHomeLookup)

def getLinearBlock (address : Nat) : Nat := (address >>> ahl.m_ahl_param) / ahl.m_total_modules

def getLinearAddress (address : Nat) : Nat :=
  (ahl.getLinearBlock address <<< ahl.m_ahl_param) % 2 ^ 64 ||| address &&& (2 ^ ahl.m_ahl_param - 1)

end AddressHomeLookup

/-- `CacheBase::hash_t`. -/
inductive hash_t where
  | HASH_MASK | HASH_MOD | HASH_RNG1_MOD | HASH_RNG2_MOD | HASH_PRIME_DIS | HASH_XOR_MOD
  | HASH_MER_MOD
  deriving DecidableEq

/-- The remainder, where the divisor is not zero. -/
def rem (a b : Nat) : Option Nat := if b = 0 then none else some (a % b)

def setOf (m_hash : hash_t) (m_num_sets m_log_num_sets block_num : Nat) : Option Nat :=
  match m_hash with
  | .HASH_MASK => some (block_num &&& (m_num_sets - 1))
  | .HASH_MOD => rem block_num m_num_sets
  | .HASH_RNG1_MOD => rem (rng_next (rng_seed block_num)).1 m_num_sets
  | .HASH_RNG2_MOD => rem (rng_next (rng_next (rng_seed block_num)).2).1 m_num_sets
  | .HASH_PRIME_DIS => do
    let si ← rem block_num m_num_sets
    let Ti := block_num >>> m_log_num_sets
    let rho := 3
    rem ((rho * Ti + si) % 2 ^ 64) m_num_sets
  | .HASH_XOR_MOD => do
    let si ← rem block_num m_num_sets
    let ti ← rem (block_num >>> m_log_num_sets) m_num_sets
    return si ^^^ ti
  | .HASH_MER_MOD => rem block_num (m_num_sets - 1)

/-- `CacheBase` as its constructor accepts it: the size in blocks is a quotient by the block
size, and a mask needs a power of two. -/
structure CacheBase where
  m_num_sets : Nat
  m_blocksize : Nat
  m_hash : hash_t
  m_ahl : Option AddressHomeLookup
  sets_pos : 0 < m_num_sets
  sets_lt : m_num_sets < 2 ^ 32
  blocksize_pos : 0 < m_blocksize
  blocksize_lt : m_blocksize < 2 ^ 32
  power : m_num_sets = 1 <<< (floorLog2 m_num_sets).toNat ∨ m_hash ≠ .HASH_MASK

namespace CacheBase
variable (c : CacheBase)

def m_log_blocksize : Nat := (floorLog2 c.m_blocksize).toNat

def m_log_num_sets : Nat := (floorLog2 c.m_num_sets).toNat

/-- `block_num` in `splitAddress`. -/
def blockNum (addr : IntPtr) : Nat :=
  let linearAddress := match c.m_ahl with
    | some ahl => ahl.getLinearAddress addr.toNat
    | none => addr.toNat
  linearAddress >>> c.m_log_blocksize

/-- `splitAddress`: the tag and the index of the set. -/
def splitAddress (addr : IntPtr) : Option (IntPtr × Nat) :=
  (setOf c.m_hash c.m_num_sets c.m_log_num_sets (c.blockNum addr)).map fun set_index =>
    (addr >>> c.m_log_blocksize, set_index)

end CacheBase

/-! ### Sets in range -/

/-- The set counts for which a hash stays in range. -/
def Fits (m_hash : hash_t) (m_num_sets : Nat) : Prop :=
  (m_hash = .HASH_XOR_MOD → m_num_sets = 1 <<< (floorLog2 m_num_sets).toNat) ∧
    (m_hash = .HASH_MER_MOD → m_num_sets ≠ 1)

theorem rem_lt {a b} (hb : 0 < b) : ∃ i, rem a b = some i ∧ i < b :=
  ⟨a % b, if_neg hb.ne', Nat.mod_lt a hb⟩

theorem setOf_lt {m_hash n} (hn : 0 < n) (hfits : Fits m_hash n) (m_log_num_sets block_num : Nat) :
    ∃ i, setOf m_hash n m_log_num_sets block_num = some i ∧ i < n := by
  cases m_hash with
  | HASH_MASK => exact ⟨_, rfl, Nat.and_le_right.trans_lt (Nat.sub_lt hn one_pos)⟩
  | HASH_MOD | HASH_RNG1_MOD | HASH_RNG2_MOD => exact rem_lt hn
  | HASH_PRIME_DIS =>
    simp only [setOf, rem, if_neg hn.ne', Option.bind_eq_bind, Option.bind_some]
    exact ⟨_, rfl, Nat.mod_lt _ hn⟩
  | HASH_XOR_MOD =>
    have hpower := hfits.1 rfl
    rw [Nat.one_shiftLeft] at hpower
    simp only [setOf, rem, if_neg hn.ne', Option.bind_eq_bind, Option.bind_some]
    refine ⟨_, rfl, ?_⟩
    rw [hpower]
    exact Nat.xor_lt_two_pow (Nat.mod_lt _ (Nat.two_pow_pos _)) (Nat.mod_lt _ (Nat.two_pow_pos _))
  | HASH_MER_MOD =>
    have hone := hfits.2 rfl
    have hpos : 0 < n - 1 := by omega
    obtain ⟨i, hi, hlt⟩ := rem_lt (a := block_num) hpos
    exact ⟨i, hi, hlt.trans (Nat.sub_lt hn one_pos)⟩

theorem xor_out {j m si ti} (hm : Odd m) (hsi : si / 2 ^ j = m - 1) (hti : ti / 2 ^ j = 1) :
    2 ^ j * m ≤ si ^^^ ti := by
  have heven : Even (m - 1) := Nat.Odd.sub_odd hm odd_one
  have hquot : (si ^^^ ti) / 2 ^ j = m := by
    rw [Nat.xor_div_two_pow, hsi, hti, Nat.xor_one_of_even heven, Nat.sub_add_cancel hm.pos]
  rw [← hquot]
  exact Nat.mul_div_le _ _

theorem exists_mod_eq {n r} (hr : r < n) (x : Nat) : ∃ d < n, (x + d) % n = r := by
  refine ⟨(r + (n - x % n)) % n, Nat.mod_lt _ (r.zero_le.trans_lt hr), ?_⟩
  have hdiv := Nat.div_add_mod x n
  have hlt := Nat.mod_lt x (r.zero_le.trans_lt hr)
  have hsum : x + (r + (n - x % n)) = r + n * (x / n + 1) := by
    rw [Nat.mul_succ]
    omega
  rw [Nat.add_mod_mod, hsum, Nat.add_mul_mod_self_left, Nat.mod_eq_of_lt hr]

theorem exists_xor_out {n} (hn : 0 < n) (hlt : n < 2 ^ 32) (hpower : n ≠ 2 ^ n.log2) :
    ∃ block < 2 ^ 64, n ≤ (block % n) ^^^ (block / 2 ^ n.log2 % n) := by
  obtain ⟨j, m, hodd, hjm⟩ := Nat.exists_eq_two_pow_mul_odd hn.ne'
  have hlow := Nat.log2_self_le hn.ne'
  have hhigh := Nat.lt_log2_self (n := n)
  have hk : n.log2 < 32 := (Nat.log2_lt hn.ne').mpr hlt
  have hj := Nat.two_pow_pos j
  have hthree : 3 ≤ m := by
    by_contra hless
    have hone : m = 1 := by
      obtain ⟨t, ht⟩ := hodd
      omega
    rw [hone, mul_one] at hjm
    refine hpower ?_
    rw [hjm, Nat.log2_two_pow]
  have hsmall : 2 ^ (j + 1) < n := by
    rw [Nat.pow_succ, hjm]
    exact (Nat.mul_lt_mul_left hj).mpr (by omega)
  have hjk : j + 1 ≤ n.log2 := (Nat.le_log2 hn.ne').mpr hsmall.le
  -- a block in the right range whose remainder is the first of the last `2 ^ j`
  obtain ⟨block, hge, hless, hmod⟩ : ∃ block, 2 ^ (j + n.log2) ≤ block ∧
      block < 2 ^ (j + n.log2 + 1) ∧ block % n = n - 2 ^ j := by
    obtain hzero | hpos := Nat.eq_zero_or_pos j
    · rw [hzero, zero_add, pow_zero]
      exact ⟨n - 1, by omega, by omega, Nat.mod_eq_of_lt (by omega)⟩
    · obtain ⟨d, hd, hmod⟩ := exists_mod_eq (n := n) (Nat.sub_lt hn hj) (2 ^ (j + n.log2))
      refine ⟨_, Nat.le_add_right .., ?_, hmod⟩
      have hle : 2 ^ (n.log2 + 1) ≤ 2 ^ (j + n.log2) := Nat.pow_le_pow_right two_pos (by omega)
      omega
  have hquot : block / 2 ^ n.log2 / 2 ^ j = 1 := by
    rw [Nat.div_div_eq_div_mul, ← Nat.pow_add, add_comm n.log2 j]
    refine Nat.div_eq_of_lt_le (by rwa [one_mul]) ?_
    rw [one_add_one_eq_two, ← Nat.pow_succ']
    exact hless
  have hti : block / 2 ^ n.log2 < n := by
    refine hsmall.trans' ?_
    rw [Nat.div_lt_iff_lt_mul (Nat.two_pow_pos _), ← Nat.pow_add]
    exact hless.trans_le (Nat.pow_le_pow_right two_pos (by omega))
  refine ⟨block, hless.trans_le (Nat.pow_le_pow_right two_pos (by omega)), ?_⟩
  rw [hmod, Nat.mod_eq_of_lt hti]
  have hsi : (n - 2 ^ j) / 2 ^ j = m - 1 := by
    rw [hjm, ← Nat.mul_sub_one, Nat.mul_div_cancel_left _ hj]
  exact hjm.le.trans (xor_out hodd hsi hquot)

/-- The cache with one byte a line and its lines in one place. -/
def CacheBase.bytewise (c : CacheBase) : CacheBase :=
  { c with m_blocksize := 1, m_ahl := none, blocksize_pos := one_pos, blocksize_lt := by decide }

theorem CacheBase.bytewise_split (c : CacheBase) {block} (hblock : block < 2 ^ 64) :
    (c.bytewise.splitAddress (BitVec.ofNat 64 block)).map (·.2) =
      setOf c.m_hash c.m_num_sets c.m_log_num_sets block := by
  have hlog : c.bytewise.m_log_blocksize = 0 := by
    change (floorLog2 1).toNat = 0
    decide
  have hnum : c.bytewise.blockNum (BitVec.ofNat 64 block) = block := by
    unfold blockNum
    rw [hlog]
    dsimp only [bytewise]
    rw [Nat.shiftRight_zero, BitVec.toNat_ofNat, Nat.mod_eq_of_lt hblock]
  rw [splitAddress, hnum, Option.map_map]
  exact Option.map_id'

/-- Caches with that hash and number of sets look up sets they have, whatever the size of a
line and wherever its home is. -/
def InRange (m_hash : hash_t) (m_num_sets : Nat) : Prop :=
  ∀ c : CacheBase, c.m_hash = m_hash → c.m_num_sets = m_num_sets → ∀ addr,
    ∃ tag set_index, c.splitAddress addr = some (tag, set_index) ∧ set_index < c.m_num_sets

theorem inRange_of_fits {m_hash n} (hfits : Fits m_hash n) : InRange m_hash n := by
  rintro c rfl rfl addr
  obtain ⟨i, hi, hlt⟩ := setOf_lt c.sets_pos hfits c.m_log_num_sets (c.blockNum addr)
  exact ⟨_, i, by rw [CacheBase.splitAddress, hi]; rfl, hlt⟩

/-- The set indices of a cache are in range but for `xor_mod` with a number of sets that is no
power of two and `mersenne_mod` with one set. -/
theorem set_index_in_range (c : CacheBase) :
    InRange c.m_hash c.m_num_sets ↔ Fits c.m_hash c.m_num_sets := by
  refine ⟨fun hrange => ?_, inRange_of_fits⟩
  have hset : ∀ block < 2 ^ 64, ∃ i,
      setOf c.m_hash c.m_num_sets c.m_log_num_sets block = some i ∧ i < c.m_num_sets := by
    intro block hblock
    obtain ⟨tag, i, hi, hlt⟩ := hrange c.bytewise rfl rfl (BitVec.ofNat 64 block)
    refine ⟨i, ?_, hlt⟩
    rw [← c.bytewise_split hblock, hi]
    rfl
  have hlog := floorLog2_eq c.sets_pos c.sets_lt
  constructor
  · intro hxor
    by_contra hpower
    rw [hlog, Nat.one_shiftLeft] at hpower
    obtain ⟨block, hblock, hout⟩ := exists_xor_out c.sets_pos c.sets_lt hpower
    obtain ⟨i, hi, hlt⟩ := hset block hblock
    rw [hxor, CacheBase.m_log_num_sets, hlog] at hi
    simp only [setOf, rem, if_neg c.sets_pos.ne', Option.bind_eq_bind, Option.bind_some] at hi
    rw [← Option.some.inj hi, Int.toNat_natCast, Nat.shiftRight_eq_div_pow] at hlt
    exact absurd hlt hout.not_gt
  · intro hmersenne hone
    obtain ⟨i, hi, -⟩ := hset 0 (by decide)
    rw [hmersenne, hone] at hi
    cases hi

/-- Three sets of lines of 64 bytes. -/
def threeSets : CacheBase where
  m_num_sets := 3
  m_blocksize := 64
  m_hash := .HASH_XOR_MOD
  m_ahl := none
  sets_pos := Nat.succ_pos 2
  sets_lt := by decide
  blocksize_pos := by decide
  blocksize_lt := by decide
  power := .inr (by decide)

/-- One set of lines of 64 bytes. -/
def oneSet : CacheBase where
  m_num_sets := 1
  m_blocksize := 64
  m_hash := .HASH_MER_MOD
  m_ahl := none
  sets_pos := by decide
  sets_lt := by decide
  blocksize_pos := by decide
  blocksize_lt := by decide
  power := .inr (by decide)

/-- `xor_mod` of three sets looks up a fourth one, and `mersenne_mod` of one divides by zero. -/
theorem set_index_out_of_range :
    threeSets.splitAddress 128 = some (2, 3) ∧ oneSet.splitAddress 0 = none := by
  decide

end Sniper.Memory.AddressHash
