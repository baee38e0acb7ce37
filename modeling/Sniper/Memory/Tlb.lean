import Sniper.Lib.Prefixes
import Sniper.Memory.ReplacementPolicies

/-! # TLBs

A chain of `TLB`s. A miss of the first one fills it, and each hands the page that it evicts to the
next one, which inserts it without looking it up and has kept it where it hit before.
-/
namespace Sniper.Memory.SetAssoc.Cache

variable {B : CacheBase} {R V : Type} {c : Cache B R V} {pol : ReplacementPolicy B.assoc R V}
  {addr : IntPtr} {fill : V}

/-- The block in a way of a set. -/
def block (c : Cache B R V) (way : Fin B.numSets × Fin B.assoc) : Block V :=
  (c.sets way.1).blocks way.2

/-- No line is in two ways. -/
def Once (c : Cache B R V) : Prop :=
  ∀ way way', (c.block way).isValid = true → (c.block way).tag = (c.block way').tag → way = way'

/-- A line is in the set of its number. -/
def Home (c : Cache B R V) : Prop :=
  ∀ way, (c.block way).isValid = true → B.setIndex (c.block way).tag = way.1

/-- The way that the next line takes. -/
def replaced (pol : ReplacementPolicy B.assoc R V) (c : Cache B R V) (addr : IntPtr) :
    Fin B.numSets × Fin B.assoc :=
  let set := c.sets (B.setIndex (B.tagOf addr))
  (B.setIndex (B.tagOf addr), (pol.getReplacementIndex set.blocks set.repl).1)

/-- A way that holds the line is the one that is replaced by it. -/
def Replaces (pol : ReplacementPolicy B.assoc R V) (c : Cache B R V) (addr : IntPtr) : Prop :=
  ∀ way, (c.block way).tag = B.tagOf addr → way = c.replaced pol addr

theorem insert_block (way : Fin B.numSets × Fin B.assoc) :
    (c.insertSingleLine pol addr fill).2.block way =
      if way = c.replaced pol addr then .fresh (B.tagOf addr) fill else c.block way := by
  obtain ⟨set, i⟩ := way
  change ((Function.update c.sets _ _) set).blocks i = _
  by_cases hset : set = B.setIndex (B.tagOf addr)
  · subst hset
    rw [Function.update_self]
    change Function.update _ _ _ i = _
    rw [Function.update_apply]
    by_cases hi : i = (c.replaced pol addr).2
    · have hway : (B.setIndex (B.tagOf addr), i) = c.replaced pol addr := Prod.ext rfl hi
      exact (if_pos hi).trans (if_pos hway).symm
    · exact (if_neg hi).trans (if_neg fun h => hi (congrArg Prod.snd h)).symm
  · rw [Function.update_of_ne hset, if_neg fun h => hset (congrArg Prod.fst h)]
    rfl

theorem valid_of_tag {way} (h : (c.block way).tag = B.tagOf addr) :
    (c.block way).isValid = true := by
  simpa [Block.isValid, h] using B.tagOf_ne_invalid addr

theorem insert_home (pol : ReplacementPolicy B.assoc R V) (addr : IntPtr) (fill : V) (h : c.Home) :
    (c.insertSingleLine pol addr fill).2.Home := by
  intro way hvalid
  rw [insert_block] at hvalid ⊢
  split
  case isTrue heq =>
    rw [heq]
    rfl
  case isFalse hne =>
    rw [if_neg hne] at hvalid
    exact h way hvalid

theorem insert_iff (pol : ReplacementPolicy B.assoc R V) (addr : IntPtr) (fill : V) (h : c.Once) :
    (c.insertSingleLine pol addr fill).2.Once ↔ c.Replaces pol addr := by
  constructor
  · intro hafter way htag
    by_contra hne
    refine hne (hafter way (c.replaced pol addr) ?_ ?_)
    · rw [insert_block, if_neg hne]
      exact valid_of_tag htag
    · rw [insert_block, insert_block, if_neg hne, if_pos rfl]
      exact htag
  · intro hreplaces way way' hvalid htag
    rw [insert_block] at hvalid
    rw [insert_block, insert_block] at htag
    split at htag
    case isTrue heq =>
      split at htag
      case isTrue heq' => exact heq.trans heq'.symm
      case isFalse hne' => exact absurd (hreplaces way' htag.symm) hne'
    case isFalse hne =>
      rw [if_neg hne] at hvalid
      split at htag
      case isTrue => exact absurd (hreplaces way htag) hne
      case isFalse => exact h way way' hvalid htag

theorem touch_block (way : Fin B.numSets × Fin B.assoc) :
    (c.touchLine pol addr).block way = c.block way := by
  unfold Cache.touchLine block
  dsimp only
  split
  · rfl
  · unfold Cache.updateSet
    dsimp only
    by_cases hset : way.1 = B.setIndex (B.tagOf addr)
    · rw [hset, Function.update_self]
    · rw [Function.update_of_ne hset]

theorem touch_once : (c.touchLine pol addr).Once ↔ c.Once := by
  refine forall₂_congr fun way way' => ?_
  rw [touch_block, touch_block]

theorem touch_home : (c.touchLine pol addr).Home ↔ c.Home := by
  refine forall_congr' fun way => ?_
  rw [touch_block]

end Sniper.Memory.SetAssoc.Cache

namespace Sniper.Memory.Tlb
open SetAssoc Replacement
open Lib.Prefixes (forall_prefix_iff)

/-- `CacheSetLRU` with the single attempt of "lru". -/
def lru (n : Nat) (V : Type) : ReplacementPolicy (n + 1) (Bits n) V where
  getReplacementIndex blocks m_lru_bits :=
    let index := (firstInvalid blocks).getD (LRU.scan blocks m_lru_bits)
    (index, moveToMRU m_lru_bits index)
  updateReplacementIndex accessed_index m_lru_bits := moveToMRU m_lru_bits accessed_index

/-- What the constructor is given: the number of sets, the associativity (at least one, here less
one) and the hash of the page numbers. -/
structure Geometry where
  num_sets : Nat
  n : Nat
  setIndex : IntPtr → Fin num_sets

/-- Lines of the size of a page. -/
def Geometry.base (g : Geometry) : CacheBase := ⟨g.num_sets, g.n + 1, 12, g.setIndex, by decide⟩

structure TLB where
  geometry : Geometry
  m_cache : Cache geometry.base (Bits geometry.n) Unit
  m_access : Nat
  m_miss : Nat

namespace TLB
variable (t : TLB)

def create (g : Geometry) : TLB := ⟨g, .init g.base (fun _ => Repl.initialBits g.n) (), 0, 0⟩

def policy : ReplacementPolicy t.geometry.base.assoc (Bits t.geometry.n) Unit :=
  lru t.geometry.n Unit

/-- `m_cache.accessSingleLine` of no bytes, and the counts. -/
def access (address : IntPtr) : Bool × TLB :=
  let hit := (t.m_cache.peekSingleLine address).isSome
  (hit, { t with
    m_cache := t.m_cache.touchLine t.policy address
    m_access := t.m_access + 1
    m_miss := if hit then t.m_miss else t.m_miss + 1 })

/-- `m_cache.insertSingleLine`, with the address of the evicted page. -/
def insert (address : IntPtr) : Option IntPtr × TLB :=
  let result := t.m_cache.insertSingleLine t.policy address ()
  (result.1.map fun block => t.geometry.base.tagToAddress block.tag,
    { t with m_cache := result.2 })

end TLB

/-- `TLB::allocate`: the next level is a victim cache. -/
def allocate : List TLB → IntPtr → List TLB
  | [], _ => []
  | t :: next_level, address =>
    let (evict_addr, t) := t.insert address
    match evict_addr with
    | some evict_addr => t :: allocate next_level evict_addr
    | none => t :: next_level

/-- `TLB::lookup`. -/
def lookup : List TLB → IntPtr → Bool → Bool × List TLB
  | [], _, _ => (false, [])
  | t :: next_level, address, allocate_on_miss =>
    let (hit, t) := t.access address
    if hit then (true, t :: next_level)
    else
      let (hit, next_level) := lookup next_level address false
      (hit, if allocate_on_miss then allocate (t :: next_level) address else t :: next_level)

/-- Lookups with allocation on the first level. -/
def run (chain : List TLB) (addresses : List IntPtr) : List TLB :=
  addresses.foldl (fun chain address => (lookup chain address true).2) chain

/-! ### Pages -/

namespace TLB
variable (t : TLB)

/-- The page numbers of the valid entries. -/
def pages : List IntPtr :=
  ((List.finRange t.geometry.base.numSets ×ˢ List.finRange t.geometry.base.assoc).filter fun way =>
    (t.m_cache.block way).isValid).map fun way => (t.m_cache.block way).tag

theorem pages_nodup (h : t.m_cache.Once) : t.pages.Nodup := by
  refine List.Nodup.map_on (fun way hway way' _ heq => ?_)
    (((List.nodup_finRange _).product (List.nodup_finRange _)).filter _)
  exact h way way' (List.mem_filter.mp hway).2 heq

theorem card_pages (h : t.m_cache.Once) : t.pages.toFinset.card = t.pages.length :=
  List.toFinset_card_of_nodup (t.pages_nodup h)

end TLB

/-- The page that an insertion hands down takes the place of its old copy, if there is one, and so
do the pages that are handed down from there. -/
def Passes : List TLB → IntPtr → Prop
  | [], _ => True
  | t :: next_level, address => t.m_cache.Replaces t.policy address ∧
      ∀ evict_addr, (t.insert address).1 = some evict_addr → Passes next_level evict_addr

/-- After a miss of the first level. -/
def Careful : List TLB → IntPtr → Prop
  | [], _ => True
  | t :: next_level, address => (t.access address).1 = false → ∀ evict_addr,
      ((t.access address).2.insert address).1 = some evict_addr →
        Passes (lookup next_level address false).2 evict_addr

variable {chain : List TLB} {address : IntPtr}

/-- Every level holds its pages once. -/
def AllOnce (chain : List TLB) : Prop := ∀ t ∈ chain, t.m_cache.Once

def AllHome (chain : List TLB) : Prop := ∀ t ∈ chain, t.m_cache.Home

theorem allocate_home (h : AllHome chain) : AllHome (allocate chain address) := by
  induction chain generalizing address with
  | nil => exact h
  | cons t next_level ih =>
    obtain ⟨ht, hnext⟩ := List.forall_mem_cons.mp h
    have hinsert : (t.insert address).2.m_cache.Home :=
      Cache.insert_home t.policy address () ht
    unfold allocate
    dsimp only
    split
    · exact List.forall_mem_cons.mpr ⟨hinsert, ih hnext⟩
    · exact List.forall_mem_cons.mpr ⟨hinsert, hnext⟩

theorem allocate_iff (honce : AllOnce chain) :
    AllOnce (allocate chain address) ↔ Passes chain address := by
  induction chain generalizing address with
  | nil => exact iff_of_true honce trivial
  | cons t next_level ih =>
    obtain ⟨ht, hnext⟩ := List.forall_mem_cons.mp honce
    have hinsert : (t.insert address).2.m_cache.Once ↔ t.m_cache.Replaces t.policy address :=
      Cache.insert_iff t.policy address () ht
    unfold allocate Passes
    dsimp only
    split
    case h_1 evict_addr hevict =>
      unfold AllOnce
      rw [List.forall_mem_cons, hinsert]
      refine and_congr_right fun _ => (ih hnext).trans ?_
      simp only [hevict, Option.some.injEq, forall_eq']
    case h_2 hevict =>
      unfold AllOnce
      rw [List.forall_mem_cons, hinsert]
      refine and_congr_right fun _ => ?_
      simp only [hevict, reduceCtorEq, false_imp_iff, implies_true, iff_true]
      exact hnext

theorem lookup_false {P : TLB → Prop} (hP : ∀ t, P (t.access address).2 ↔ P t) :
    (∀ t ∈ (lookup chain address false).2, P t) ↔ ∀ t ∈ chain, P t := by
  induction chain with
  | nil => exact Iff.rfl
  | cons t next_level ih =>
    unfold lookup
    dsimp only
    split
    · rw [List.forall_mem_cons, List.forall_mem_cons, hP]
    · rw [if_neg Bool.false_ne_true, List.forall_mem_cons, List.forall_mem_cons, hP, ih]

theorem access_once (t : TLB) : (t.access address).2.m_cache.Once ↔ t.m_cache.Once :=
  Cache.touch_once

theorem access_home (t : TLB) : (t.access address).2.m_cache.Home ↔ t.m_cache.Home :=
  Cache.touch_home

theorem access_replaces (t : TLB) (h : t.m_cache.Home) (hmiss : (t.access address).1 = false) :
    (t.access address).2.m_cache.Replaces (t.access address).2.policy address := by
  have hnone : t.m_cache.peekSingleLine address = none :=
    Option.isNone_iff_eq_none.mp (Option.isSome_eq_false_iff.mp hmiss)
  intro way htag
  have htag' : (t.m_cache.block way).tag = t.geometry.base.tagOf address :=
    (congrArg Block.tag (Cache.touch_block way)).symm.trans htag
  obtain ⟨set, i⟩ := way
  have hset : t.geometry.base.setIndex (t.geometry.base.tagOf address) = set := by
    rw [← htag']
    exact h _ (Cache.valid_of_tag htag')
  subst hset
  exact absurd htag' (Cache.lookup_eq_none.mp hnone i)

theorem lookup_iff (hhome : AllHome chain) (honce : AllOnce chain) :
    AllOnce (lookup chain address true).2 ↔ Careful chain address := by
  cases chain with
  | nil => exact iff_of_true honce trivial
  | cons t next_level =>
    obtain ⟨ht, hnext⟩ := List.forall_mem_cons.mp honce
    have haccess : (t.access address).2.m_cache.Once := (access_once t).mpr ht
    have hlookup : AllOnce (lookup next_level address false).2 :=
      (lookup_false access_once).mpr hnext
    unfold lookup Careful
    dsimp only
    split
    case isTrue hhit =>
      refine iff_of_true (List.forall_mem_cons.mpr ⟨haccess, hnext⟩) fun hmiss => ?_
      exact absurd hhit (by rw [hmiss]; exact Bool.false_ne_true)
    case isFalse hmiss =>
      have hmiss := Bool.eq_false_iff.mpr hmiss
      rw [if_pos rfl, allocate_iff (List.forall_mem_cons.mpr ⟨haccess, hlookup⟩)]
      constructor
      · intro hboth _
        exact hboth.2
      · intro hpasses
        exact ⟨access_replaces t (List.forall_mem_cons.mp hhome).1 hmiss, hpasses hmiss⟩

theorem lookup_home (h : AllHome chain) : AllHome (lookup chain address true).2 := by
  cases chain with
  | nil => exact h
  | cons t next_level =>
    obtain ⟨ht, hnext⟩ := List.forall_mem_cons.mp h
    have haccess : (t.access address).2.m_cache.Home := (access_home t).mpr ht
    unfold lookup
    dsimp only
    split
    · exact List.forall_mem_cons.mpr ⟨haccess, hnext⟩
    · exact allocate_home (List.forall_mem_cons.mpr ⟨haccess, (lookup_false access_home).mpr hnext⟩)

/-! ### Runs -/

theorem run_append (before : List IntPtr) (a : IntPtr) :
    run chain (before ++ [a]) = (lookup (run chain before) a true).2 :=
  List.foldl_append

theorem run_home (h : AllHome chain) (addresses : List IntPtr) : AllHome (run chain addresses) := by
  induction addresses using List.reverseRecOn with
  | nil => exact h
  | append_singleton before a ih =>
    rw [run_append]
    exact lookup_home ih

theorem run_iff (hhome : AllHome chain) (honce : AllOnce chain) (addresses : List IntPtr) :
    (∀ before, before <+: addresses → AllOnce (run chain before)) ↔
      ∀ before a, before ++ [a] <+: addresses → Careful (run chain before) a := by
  refine forall_prefix_iff honce fun before a hbefore => ?_
  rw [run_append]
  exact lookup_iff (run_home hhome before) hbefore

theorem create_invalid (g : Geometry) (way) : ((TLB.create g).m_cache.block way).isValid = false :=
  rfl

theorem create_home (levels : List Geometry) : AllHome (levels.map TLB.create) := by
  refine List.forall_mem_map.mpr fun g _ way hvalid => ?_
  exact absurd hvalid (by rw [create_invalid]; exact Bool.false_ne_true)

theorem create_once (levels : List Geometry) : AllOnce (levels.map TLB.create) := by
  refine List.forall_mem_map.mpr fun g _ way _ hvalid => ?_
  exact absurd hvalid (by rw [create_invalid]; exact Bool.false_ne_true)

/-- In every state of a run no level holds a page in two ways, and there are as many pages as valid
entries, just if no lookup hands a page to a level that holds it elsewhere. -/
theorem pages_once_iff (levels : List Geometry) (addresses : List IntPtr) :
    (∀ before, before <+: addresses → ∀ t ∈ run (levels.map TLB.create) before,
      t.m_cache.Once ∧ t.pages.toFinset.card = t.pages.length) ↔
        ∀ before a, before ++ [a] <+: addresses →
          Careful (run (levels.map TLB.create) before) a := by
  rw [← run_iff (create_home levels) (create_once levels)]
  refine forall₂_congr fun before _ => forall₂_congr fun t _ => ?_
  exact and_iff_left_of_imp t.card_pages

open scoped Lib.Sizes

/-- One entry before four: the page that hits in the second level stays there, and it is inserted
again when the first level evicts it. -/
def victims : List TLB :=
  run ([⟨1, 0, fun _ => 0⟩, ⟨1, 3, fun _ => 0⟩].map TLB.create) [0, 0x1000, 0, 0x1000]

theorem victims_repeat :
    ¬ ∀ t ∈ victims, t.m_cache.Once ∧ t.pages.toFinset.card = t.pages.length := by
  have hpages : ¬ ∀ t ∈ victims, t.pages.toFinset.card = t.pages.length := by decide +kernel
  exact fun h => hpages fun t ht => (h t ht).2

end Sniper.Memory.Tlb
