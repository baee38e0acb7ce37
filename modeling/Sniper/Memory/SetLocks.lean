import Sniper.Memory.SetIndexing

/-! # Set locks

`CacheMasterCntlr::getSetLock`: the caches below one last-level cache share the locks of its
sets, as many as the first-level data cache has sets. An operation holds the lock of its line
and may change any line in the same set of any of these caches. Set counts are products that
fit in 32 bits, and non-application cores are cores like the others. -/

namespace Sniper.Memory.AddressHash
open SetAssoc (IntPtr)

/-- `CacheParameters` as its constructor asserts them, and as `CacheBase` accepts them; the size
is in kilobytes. -/
structure CacheParameters where
  size : Nat
  associativity : Nat
  block_size : Nat
  hash_function : hash_t
  shared_cores : Nat
  size_pos : 0 < size
  size_lt : 1024 * size < 2 ^ 32
  exact : 1024 * size = 1024 * size / (associativity * block_size) * associativity * block_size
  power : 1024 * size / (associativity * block_size) =
    1 <<< (floorLog2 (1024 * size / (associativity * block_size))).toNat ∨
      hash_function ≠ .HASH_MASK

namespace CacheParameters
variable (p : CacheParameters)

def num_sets : Nat := 1024 * p.size / (p.associativity * p.block_size)

theorem product : 1024 * p.size = p.num_sets * p.associativity * p.block_size := p.exact

theorem sets_pos : 0 < p.num_sets := by
  refine Nat.pos_of_ne_zero fun hzero => ?_
  have hsize := p.product
  rw [hzero, zero_mul, zero_mul] at hsize
  have := p.size_pos
  omega

theorem block_pos : 0 < p.block_size := by
  refine Nat.pos_of_ne_zero fun hzero => ?_
  have hsize := p.product
  rw [hzero, mul_zero] at hsize
  have := p.size_pos
  omega

theorem sets_mul_block : p.num_sets * p.block_size < 2 ^ 32 := by
  have hassoc : p.associativity ≠ 0 := by
    intro hzero
    have hsize := p.product
    rw [hzero, mul_zero, zero_mul] at hsize
    have := p.size_pos
    omega
  refine p.size_lt.trans_le' ?_
  rw [p.product]
  exact Nat.mul_le_mul_right _ (Nat.le_mul_of_pos_right _ (Nat.pos_of_ne_zero hassoc))

theorem sets_lt : p.num_sets < 2 ^ 32 :=
  (Nat.le_mul_of_pos_right _ p.block_pos).trans_lt p.sets_mul_block

theorem block_lt : p.block_size < 2 ^ 32 :=
  (Nat.le_mul_of_pos_left _ p.sets_pos).trans_lt p.sets_mul_block

/-- The `Cache` that is made from the parameters. -/
def cache : CacheBase where
  m_num_sets := p.num_sets
  m_blocksize := p.block_size
  m_hash := p.hash_function
  m_ahl := none
  sets_pos := p.sets_pos
  sets_lt := p.sets_lt
  blocksize_pos := p.block_pos
  blocksize_lt := p.block_lt
  power := p.power

end CacheParameters

/-- `MemComponent::L1_DCACHE`, the component after `L1_ICACHE`. -/
def L1_DCACHE : Nat := 1

/-- The caches of all cores; components count from `L1_ICACHE`. -/
structure Hierarchy where
  applicationCores : Nat
  m_last_level_cache : Nat
  m_cache_block_size : Nat
  /-- By core and component. -/
  cache_parameters : Nat → Nat → CacheParameters
  same : ∀ core component, component ≤ m_last_level_cache →
    (cache_parameters core component).block_size = m_cache_block_size
  levels : L1_DCACHE < m_last_level_cache

namespace Hierarchy
variable (h : Hierarchy)

/-- The core whose cache a core uses, found from one master to the next. -/
def findMaster (component : Nat) : Nat → Nat → Nat
  | 0, core => core
  | fuel + 1, core =>
    let shared_cores := (h.cache_parameters core component).shared_cores
    if core % shared_cores = 0 then core
    else findMaster component fuel (core - core % shared_cores)

def master (component core : Nat) : Nat := h.findMaster component core core

/-- The cache that a core uses. -/
def cacheAt (core component : Nat) : CacheBase :=
  (h.cache_parameters (h.master component core) component).cache

/-- The number of set locks that `MemoryManager` creates for the master of a last-level cache. -/
def createSetLocks (core : Nat) : Nat :=
  let l1_dcache := h.cache_parameters core L1_DCACHE
  let num_sets := if l1_dcache.num_sets ≠ 1 <<< (floorLog2 l1_dcache.num_sets).toNat then 1
    else l1_dcache.num_sets
  (List.range h.applicationCores).foldl (fun num_sets core_id =>
    let other := h.cache_parameters core_id L1_DCACHE
    let num_sets := if other.size ≠ l1_dcache.size then 1 else num_sets
    if other.hash_function ≠ .HASH_MASK then 1 else num_sets) num_sets

/-- The set locks that a core uses. -/
def m_num_sets (core : Nat) : Nat := h.createSetLocks (h.master h.m_last_level_cache core)

def getSetLock (core : Nat) (addr : IntPtr) : Nat :=
  addr.toNat >>> (floorLog2 h.m_cache_block_size).toNat &&& (h.m_num_sets core - 1)

/-- What an operation of a core may change, the lines in the set of its own line in any cache it
uses, is under the lock it holds. -/
def Covered (core : Nat) : Prop :=
  ∀ component ≤ h.m_last_level_cache, ∀ addr addr' tag tag' set_index,
    (h.cacheAt core component).splitAddress addr = some (tag, set_index) →
    (h.cacheAt core component).splitAddress addr' = some (tag', set_index) →
    h.getSetLock core addr' = h.getSetLock core addr

/-! ### The number of locks -/

theorem createSetLocks_pow (core : Nat) : ∃ s ≤ 32, h.createSetLocks core = 2 ^ s := by
  unfold createSetLocks
  dsimp only
  have hstart : ∃ s ≤ 32, (if (h.cache_parameters core L1_DCACHE).num_sets ≠
      1 <<< (floorLog2 (h.cache_parameters core L1_DCACHE).num_sets).toNat then 1
      else (h.cache_parameters core L1_DCACHE).num_sets) = 2 ^ s := by
    split_ifs with hpower
    · exact ⟨0, by decide, rfl⟩
    · rw [not_not, Nat.one_shiftLeft] at hpower
      refine ⟨_, ?_, hpower⟩
      have hlt := (h.cache_parameters core L1_DCACHE).sets_lt
      rw [hpower] at hlt
      exact ((Nat.pow_lt_pow_iff_right (by decide)).mp hlt).le
  generalize (if (h.cache_parameters core L1_DCACHE).num_sets ≠ _ then 1 else _) = num_sets
    at hstart ⊢
  induction h.applicationCores generalizing num_sets with
  | zero => exact hstart
  | succ cores ih =>
    rw [List.range_succ, List.foldl_append, List.foldl_cons, List.foldl_nil]
    obtain ⟨s, hs, heq⟩ := ih num_sets hstart
    split_ifs
    · exact ⟨0, by decide, rfl⟩
    · exact ⟨0, by decide, rfl⟩
    · exact ⟨s, hs, heq⟩

/-! ### What the locks cover -/

theorem covered_iff_determines {c : CacheBase} (hahl : c.m_ahl = none) {locks s}
    (hlocks : locks = 2 ^ s) (hblock : c.m_log_blocksize ≤ 64) :
    (∀ (addr addr' tag tag' : IntPtr) (set_index : Nat),
        c.splitAddress addr = some (tag, set_index) →
        c.splitAddress addr' = some (tag', set_index) →
        (addr'.toNat >>> c.m_log_blocksize &&& (locks - 1)) =
          addr.toNat >>> c.m_log_blocksize &&& (locks - 1)) ↔
      Determines locks (2 ^ (64 - c.m_log_blocksize)) c.m_hash c.m_num_sets c.m_log_num_sets := by
  have hnum : ∀ addr, c.blockNum addr = addr.toNat >>> c.m_log_blocksize := by
    intro addr
    unfold CacheBase.blockNum
    rw [hahl]
  have hmod : ∀ x : Nat, x &&& (locks - 1) = x % locks := by
    intro x
    rw [hlocks, Nat.and_two_pow_sub_one_eq_mod]
  have hpow : 2 ^ 64 = 2 ^ (64 - c.m_log_blocksize) * 2 ^ c.m_log_blocksize := by
    rw [← Nat.pow_add, Nat.sub_add_cancel hblock]
  constructor
  · intro h x hx y hy i hxi hyi
    -- the first address of a block
    have haddr : ∀ z < 2 ^ (64 - c.m_log_blocksize),
        (BitVec.ofNat 64 (z <<< c.m_log_blocksize)).toNat >>> c.m_log_blocksize = z := by
      intro z hz
      have hlt : z * 2 ^ c.m_log_blocksize < 2 ^ 64 := by
        rw [hpow]
        exact (Nat.mul_lt_mul_right (Nat.two_pow_pos _)).mpr hz
      rw [BitVec.toNat_ofNat, Nat.shiftLeft_eq, Nat.mod_eq_of_lt hlt, Nat.shiftRight_eq_div_pow,
        Nat.mul_div_cancel _ (Nat.two_pow_pos _)]
    have hsplit : ∀ z < 2 ^ (64 - c.m_log_blocksize),
        setOf c.m_hash c.m_num_sets c.m_log_num_sets z = some i →
        ∃ tag, c.splitAddress (BitVec.ofNat 64 (z <<< c.m_log_blocksize)) = some (tag, i) := by
      intro z hz hzi
      rw [CacheBase.splitAddress, hnum, haddr z hz, hzi]
      exact ⟨_, rfl⟩
    obtain ⟨tag, hxs⟩ := hsplit x hx hxi
    obtain ⟨tag', hys⟩ := hsplit y hy hyi
    have hlock := h _ _ tag tag' i hxs hys
    rw [haddr x hx, haddr y hy, hmod, hmod] at hlock
    exact hlock.symm
  · intro h addr addr' tag tag' i hsplit hsplit'
    have hset : ∀ addr tag, c.splitAddress addr = some (tag, i) →
        setOf c.m_hash c.m_num_sets c.m_log_num_sets (addr.toNat >>> c.m_log_blocksize) =
          some i := by
      intro addr tag hs
      rw [CacheBase.splitAddress, hnum, Option.map_eq_some_iff] at hs
      obtain ⟨j, hj, hpair⟩ := hs
      rw [hj, (Prod.mk.inj hpair).2]
    have hlt : ∀ addr : IntPtr, addr.toNat >>> c.m_log_blocksize < 2 ^ (64 - c.m_log_blocksize) := by
      intro addr
      rw [Nat.shiftRight_eq_div_pow, Nat.div_lt_iff_lt_mul (Nat.two_pow_pos _), ← hpow]
      exact addr.isLt
    have hlock := h _ (hlt addr') _ (hlt addr) i (hset addr' tag' hsplit') (hset addr tag hsplit)
    rw [hmod, hmod]
    exact hlock

/-- The number of set locks fits a cache. -/
def LocksFit (core component : Nat) : Prop :=
  Nests (h.m_num_sets core) (h.cacheAt core component).m_hash (h.cacheAt core component).m_num_sets

theorem covered_at (core : Nat) {component} (hcomponent : component ≤ h.m_last_level_cache) :
    (∀ addr addr' tag tag' set_index,
        (h.cacheAt core component).splitAddress addr = some (tag, set_index) →
        (h.cacheAt core component).splitAddress addr' = some (tag', set_index) →
        h.getSetLock core addr' = h.getSetLock core addr) ↔ h.LocksFit core component := by
  obtain ⟨s, hs, hlocks⟩ := h.createSetLocks_pow (h.master h.m_last_level_cache core)
  have hsame : (floorLog2 h.m_cache_block_size).toNat =
      (h.cacheAt core component).m_log_blocksize := by
    rw [← h.same (h.master component core) component hcomponent]
    rfl
  unfold getSetLock LocksFit m_num_sets
  rw [hsame, hlocks]
  have hparams : ∃ p, h.cacheAt core component = CacheParameters.cache p := ⟨_, rfl⟩
  generalize h.cacheAt core component = c at hparams ⊢
  obtain ⟨p, rfl⟩ := hparams
  have hsets := floorLog2_eq p.sets_pos p.sets_lt
  have hblock := floorLog2_eq p.block_pos p.block_lt
  have hlogsets : p.cache.m_log_num_sets = p.num_sets.log2 := by
    exact congrArg Int.toNat hsets
  have hlogblock : p.cache.m_log_blocksize = p.block_size.log2 := by
    exact congrArg Int.toNat hblock
  have hlow : p.block_size.log2 < 32 := (Nat.log2_lt p.block_pos.ne').mpr p.block_lt
  rw [covered_iff_determines rfl rfl (by omega), hlogsets, hlogblock]
  refine determines_iff p.sets_pos p.sets_lt hs ?_ ?_ ?_ ?_
  · -- three times the cache fits in the address space
    have hproduct : p.cache.m_num_sets * 2 ^ p.block_size.log2 < 2 ^ 32 :=
      (Nat.mul_le_mul_left _ (Nat.log2_self_le p.block_pos.ne')).trans_lt p.sets_mul_block
    have hpow : 2 ^ 64 = 2 ^ (64 - p.block_size.log2) * 2 ^ p.block_size.log2 := by
      rw [← Nat.pow_add, Nat.sub_add_cancel (by omega)]
    refine Nat.lt_of_mul_lt_mul_right (a := 2 ^ p.block_size.log2) ?_
    rw [← hpow, mul_assoc]
    omega
  · exact Nat.pow_le_pow_right two_pos (by omega)
  · exact Nat.pow_le_pow_right two_pos (by omega)
  · intro hmask
    obtain hpower | hother := p.cache.power
    · refine hpower.trans ?_
      rw [Nat.one_shiftLeft]
      exact congrArg (2 ^ ·) hlogsets
    · exact absurd hmask hother

/-- The lock of a line covers what an operation on it may change where the number of locks
divides the number of sets of every cache; some hashes need more. -/
theorem set_locks_cover (core : Nat) :
    h.Covered core ↔ ∀ component ≤ h.m_last_level_cache, h.LocksFit core component :=
  forall₂_congr fun _ hcomponent => h.covered_at core hcomponent

/-! ### A second-level cache with fewer sets -/

def smallL1 : CacheParameters where
  size := 32
  associativity := 8
  block_size := 64
  hash_function := .HASH_MASK
  shared_cores := 1
  size_pos := by decide
  size_lt := by decide
  exact := by decide
  power := by decide

def wideL2 : CacheParameters where
  size := 256
  associativity := 128
  block_size := 64
  hash_function := .HASH_MASK
  shared_cores := 1
  size_pos := by decide
  size_lt := by decide
  exact := by decide
  power := by decide

def twoLevels : Hierarchy where
  applicationCores := 1
  m_last_level_cache := 2
  m_cache_block_size := 64
  cache_parameters _ component := if component = 2 then wideL2 else smallL1
  same := by
    intro _ component _
    split_ifs <;> rfl
  levels := by decide

/-- The first-level data cache has 64 sets and the second level 32: lines 0 and 32 are in one set
there, with different locks. -/
theorem wide_set_has_two_locks : ¬ twoLevels.Covered 0 := by
  intro h
  have hlock := h 2 le_rfl 0 2048 0 32 0 (by decide) (by decide)
  exact absurd hlock (by decide)

end Hierarchy
end Sniper.Memory.AddressHash
