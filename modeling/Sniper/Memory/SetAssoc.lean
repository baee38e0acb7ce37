import Mathlib.Data.BitVec
import Sniper.Lib.Simulation

/-! # Set-associative caches with contents

`CacheBlockInfo`, `CacheSet` and `Cache` as every component that keeps lines uses them (the DRAM
cache, the NUCA slice). The replacement policy is a parameter, the address hash is a function of
the block number, and the bytes of `m_blocks` travel with the block they belong to. The second
half views a cache as a partial map from block numbers to blocks.
-/
namespace Sniper.Memory.SetAssoc
open Function

abbrev IntPtr := BitVec 64

/-- `CacheState::cstate_t`, less the states used only for reporting. -/
inductive CState where
  | INVALID | SHARED | SHARED_UPGRADING | EXCLUSIVE | OWNED | MODIFIED
  deriving DecidableEq

inductive Access where
  | LOAD | STORE
  deriving DecidableEq

/-- The tag `~0` of a `CacheBlockInfo` that holds no line. -/
def invalidTag : IntPtr := BitVec.allOnes 64

/-- `CacheBlockInfo` (tag, state, prefetch option) with the line's bytes. -/
structure Block (V : Type) where
  tag : IntPtr
  cstate : CState
  prefetch : Bool
  data : V

namespace Block

variable {V : Type}

def isValid (b : Block V) : Bool := b.tag != invalidTag

/-- The default-constructed `CacheBlockInfo` over zeroed bytes. -/
def empty (zero : V) : Block V := ⟨invalidTag, .INVALID, false, zero⟩

/-- A fresh `CacheBlockInfo` with only its tag set, as `insertSingleLine` creates it. -/
def fresh (tag : IntPtr) (data : V) : Block V := ⟨tag, .INVALID, false, data⟩

def setCState (b : Block V) (s : CState) : Block V := { b with cstate := s }
def setPrefetch (b : Block V) (p : Bool) : Block V := { b with prefetch := p }
def setData (b : Block V) (d : V) : Block V := { b with data := d }

@[simp] theorem setCState_data (b : Block V) (s) : (b.setCState s).data = b.data := rfl
@[simp] theorem setData_data (b : Block V) (d) : (b.setData d).data = d := rfl
@[simp] theorem fresh_tag (t : IntPtr) (d : V) : (fresh t d).tag = t := rfl
@[simp] theorem fresh_data (t : IntPtr) (d : V) : (fresh t d).data = d := rfl

end Block

/-- A replacement policy: its per-set state `R` may depend on anything it has seen. -/
structure ReplacementPolicy (assoc : Nat) (R V : Type) where
  getReplacementIndex : (Fin assoc → Block V) → R → Fin assoc × R
  updateReplacementIndex : Fin assoc → R → R

open scoped Lib.Sizes

/-- `CacheSetRoundRobin::getReplacementIndex`: the way is returned when the next one is not
being upgraded. The source recurses without a bound when every way is. -/
def roundRobinIndex {n : Nat} {V : Type} (blocks : Fin (n + 1) → Block V) :
    Nat → Fin (n + 1) → Fin (n + 1) × Fin (n + 1)
  | 0, curr => (curr, curr)
  | fuel + 1, curr =>
    let next := if curr = 0 then Fin.last n else curr - 1
    if (blocks next).cstate = .SHARED_UPGRADING then roundRobinIndex blocks fuel next
    else (curr, next)

/-- `CacheSetRoundRobin`; its replacement index starts at the last way. -/
def roundRobin (n : Nat) (V : Type) : ReplacementPolicy (n + 1) (Fin (n + 1)) V where
  getReplacementIndex blocks curr := roundRobinIndex blocks (n + 1) curr
  updateReplacementIndex _ curr := curr

structure CacheSet (assoc : Nat) (R V : Type) where
  blocks : Fin assoc → Block V
  repl : R

namespace CacheSet

variable {assoc : Nat} {R V : Type}

/-- `CacheSet::find`: the ways are searched from the last one down. -/
def find (s : CacheSet assoc R V) (tag : IntPtr) : Option (Fin assoc) :=
  (List.finRange assoc).reverse.find? fun i => (s.blocks i).tag == tag

/-- `CacheSet::insert`: the replaced block is reported when it held a line. -/
def insert (pol : ReplacementPolicy assoc R V) (s : CacheSet assoc R V) (new : Block V) :
    Option (Block V) × CacheSet assoc R V :=
  let (index, repl) := pol.getReplacementIndex s.blocks s.repl
  let old := s.blocks index
  (if old.isValid then some old else none,
    { blocks := update s.blocks index new, repl })

theorem find_tag {s : CacheSet assoc R V} {tag i} (h : s.find tag = some i) :
    (s.blocks i).tag = tag := by
  simpa using List.find?_some h

theorem find_eq_none {s : CacheSet assoc R V} {tag} :
    s.find tag = none ↔ ∀ i, (s.blocks i).tag ≠ tag := by
  simp [find, List.find?_eq_none]

theorem find_congr {s s' : CacheSet assoc R V}
    (h : ∀ i, (s'.blocks i).tag = (s.blocks i).tag) (tag : IntPtr) : s'.find tag = s.find tag := by
  simp [find, h]

theorem update_tag {f : Block V → Block V} (hf : ∀ b, (f b).tag = b.tag) (i : Fin assoc)
    {s : CacheSet assoc R V} (j : Fin assoc) :
    (update s.blocks i (f (s.blocks i)) j).tag = (s.blocks j).tag := by
  by_cases h : j = i
  · subst h; simp [hf]
  · simp [h]

end CacheSet

/-- The geometry of a cache (`CacheBase`). Blocks have at least two bytes, so that `~0`
is no block's number; `setIndex` is `m_hash` applied to the (linear) block number. -/
structure CacheBase where
  numSets : Nat
  assoc : Nat
  logBlocksize : Nat
  setIndex : IntPtr → Fin numSets
  logBlocksize_pos : 0 < logBlocksize

namespace CacheBase

variable (B : CacheBase)

/-- The tag half of `splitAddress`: the block number of an address. -/
def tagOf (addr : IntPtr) : IntPtr := addr >>> B.logBlocksize

def blockOffset (addr : IntPtr) : IntPtr := addr &&& (BitVec.twoPow 64 B.logBlocksize - 1)

def tagToAddress (tag : IntPtr) : IntPtr := tag <<< B.logBlocksize

theorem tagOf_ne_invalid (addr : IntPtr) : B.tagOf addr ≠ invalidTag := by
  intro h
  have hbit : (B.tagOf addr).getLsbD 63 = true := by rw [h]; simp [invalidTag]
  have hpos := B.logBlocksize_pos
  simp only [tagOf, BitVec.getLsbD_ushiftRight] at hbit
  rw [BitVec.getLsbD_of_ge _ _ (by omega)] at hbit
  cases hbit

theorem tagOf_tagToAddress_tagOf (addr : IntPtr) :
    B.tagOf (B.tagToAddress (B.tagOf addr)) = B.tagOf addr := by
  apply BitVec.eq_of_getLsbD_eq
  intro i hi
  simp only [tagOf, tagToAddress, BitVec.getLsbD_ushiftRight, BitVec.getLsbD_shiftLeft]
  by_cases hlt : B.logBlocksize + i < 64
  · simp [hlt]
  · rw [show B.logBlocksize + (B.logBlocksize + i - B.logBlocksize) = B.logBlocksize + i by omega,
      BitVec.getLsbD_of_ge addr _ (by omega)]
    simp

end CacheBase

structure Cache (B : CacheBase) (R V : Type) where
  sets : Fin B.numSets → CacheSet B.assoc R V

namespace Cache

variable {B : CacheBase} {R V : Type}

/-- A cache whose ways hold no line. -/
def init (B : CacheBase) (repl : Fin B.numSets → R) (zero : V) : Cache B R V where
  sets s := { blocks := fun _ => .empty zero, repl := repl s }

def updateSet (c : Cache B R V) (s : Fin B.numSets)
    (f : CacheSet B.assoc R V → CacheSet B.assoc R V) : Cache B R V where
  sets := update c.sets s (f (c.sets s))

/-- The block of a block number, where the cache holds it. -/
def lookup (c : Cache B R V) (tag : IntPtr) : Option (Block V) :=
  ((c.sets (B.setIndex tag)).find tag).map (c.sets (B.setIndex tag)).blocks

/-- `Cache::peekSingleLine`. -/
def peekSingleLine (c : Cache B R V) (addr : IntPtr) : Option (Block V) :=
  c.lookup (B.tagOf addr)

/-- An update through the pointer `peekSingleLine` returns. -/
def modifyLine (c : Cache B R V) (addr : IntPtr) (f : Block V → Block V) : Cache B R V :=
  let tag := B.tagOf addr
  match (c.sets (B.setIndex tag)).find tag with
  | none => c
  | some i => c.updateSet (B.setIndex tag) fun s =>
      { s with blocks := update s.blocks i (f (s.blocks i)) }

/-- `updateReplacementIndex` on the way that holds the line. -/
def touchLine (pol : ReplacementPolicy B.assoc R V) (c : Cache B R V) (addr : IntPtr) :
    Cache B R V :=
  let tag := B.tagOf addr
  match (c.sets (B.setIndex tag)).find tag with
  | none => c
  | some i => c.updateSet (B.setIndex tag) fun s =>
      { s with repl := pol.updateReplacementIndex i s.repl }

/-- `Cache::accessSingleLine` for a whole line with `update_replacement` set: `none` is the failed
assertion `offset + bytes <= m_blocksize` of `read_line` and `write_line`. -/
def accessSingleLine (pol : ReplacementPolicy B.assoc R V) (c : Cache B R V)
    (access : Access) (addr : IntPtr) (buf : V) : Option (V × Cache B R V) :=
  match c.peekSingleLine addr with
  | none => some (buf, c)
  | some b =>
    if B.blockOffset addr = 0 then
      match access with
      | .LOAD => some (b.data, c.touchLine pol addr)
      | .STORE => some (buf, (c.modifyLine addr (·.setData buf)).touchLine pol addr)
    else none

/-- `Cache::insertSingleLine`: the evicted block, where there was one. -/
def insertSingleLine (pol : ReplacementPolicy B.assoc R V) (c : Cache B R V)
    (addr : IntPtr) (fill : V) : Option (Block V) × Cache B R V :=
  let tag := B.tagOf addr
  let (evict, set) := (c.sets (B.setIndex tag)).insert pol (.fresh tag fill)
  (evict, { sets := update c.sets (B.setIndex tag) set })

/-! ## The cache as a partial map -/

/-- Every way that holds a line is tagged with a block number, and a line has one way at
most, in the set its block number hashes to. -/
structure WellPlaced (c : Cache B R V) : Prop where
  tagged : ∀ s i, ((c.sets s).blocks i).isValid = true →
    ∃ addr, ((c.sets s).blocks i).tag = B.tagOf addr
  unique : ∀ s i j, ((c.sets s).blocks i).isValid = true →
    ((c.sets s).blocks i).tag = ((c.sets s).blocks j).tag → i = j
  home : ∀ s i, ((c.sets s).blocks i).isValid = true →
    B.setIndex ((c.sets s).blocks i).tag = s

theorem init_wellPlaced (repl : Fin B.numSets → R) (zero : V) :
    (init B repl zero).WellPlaced := by
  constructor <;> simp [init, Block.empty, Block.isValid]

theorem lookup_tag {c : Cache B R V} {t} {b : Block V} (h : c.lookup t = some b) : b.tag = t := by
  obtain ⟨i, hi, rfl⟩ := Option.map_eq_some_iff.mp h
  exact CacheSet.find_tag hi

theorem lookup_eq_none {c : Cache B R V} {t} :
    c.lookup t = none ↔ ∀ i, ((c.sets (B.setIndex t)).blocks i).tag ≠ t := by
  simp [lookup, CacheSet.find_eq_none]

theorem init_lookup (repl : Fin B.numSets → R) (zero : V) {t} (ht : t ≠ invalidTag) :
    (init B repl zero).lookup t = none :=
  lookup_eq_none.mpr fun _ h => ht h.symm

theorem WellPlaced.lookup_eq {c : Cache B R V} (hc : c.WellPlaced) {s i}
    (hv : ((c.sets s).blocks i).isValid = true) :
    c.lookup ((c.sets s).blocks i).tag = some ((c.sets s).blocks i) := by
  have hs := hc.home s i hv
  cases hl : c.lookup ((c.sets s).blocks i).tag with
  | none => exact absurd (by rw [hs]) (lookup_eq_none.mp hl i)
  | some b =>
    obtain ⟨j, hj, rfl⟩ := Option.map_eq_some_iff.mp hl
    have ht := CacheSet.find_tag hj
    rw [hs] at ht ⊢
    rw [hc.unique s i j hv ht.symm]

theorem lookup_updateSet_of_tags {c : Cache B R V} {s f}
    (hf : ∀ i, ((f (c.sets s)).blocks i).tag = ((c.sets s).blocks i).tag) (t : IntPtr) :
    (c.updateSet s f).lookup t =
      if B.setIndex t = s then ((c.sets s).find t).map (f (c.sets s)).blocks
      else c.lookup t := by
  by_cases hs : B.setIndex t = s
  · subst hs
    simp only [lookup, updateSet, update_self, if_pos]
    rw [CacheSet.find_congr hf]
  · simp [lookup, updateSet, hs]

theorem WellPlaced.updateSet {c : Cache B R V} (hc : c.WellPlaced) {s f}
    (hf : ∀ i, ((f (c.sets s)).blocks i).tag = ((c.sets s).blocks i).tag) :
    (c.updateSet s f).WellPlaced := by
  have htag : ∀ u i, (((c.updateSet s f).sets u).blocks i).tag = ((c.sets u).blocks i).tag := by
    intro u i
    by_cases hu : u = s
    · subst hu; simpa [Cache.updateSet] using hf i
    · simp [Cache.updateSet, hu]
  refine ⟨fun u i hv => ?_, fun u i j hv ht => ?_, fun u i hv => ?_⟩
  · rw [htag]
    exact hc.tagged u i (by simpa [Block.isValid, htag] using hv)
  · rw [htag, htag] at ht
    exact hc.unique u i j (by simpa [Block.isValid, htag] using hv) ht
  · rw [htag]
    exact hc.home u i (by simpa [Block.isValid, htag] using hv)

theorem lookup_modifyLine {c : Cache B R V} (addr : IntPtr) {f : Block V → Block V}
    (hf : ∀ b, (f b).tag = b.tag) (t : IntPtr) :
    (c.modifyLine addr f).lookup t =
      if t = B.tagOf addr then (c.lookup t).map f else c.lookup t := by
  unfold modifyLine
  cases hi : (c.sets (B.setIndex (B.tagOf addr))).find (B.tagOf addr) with
  | none =>
    have hn : c.lookup (B.tagOf addr) = none := by simp [lookup, hi]
    by_cases h : t = B.tagOf addr
    · subst h; simp [hi, hn]
    · simp [hi, h]
  | some i =>
    simp only [hi]
    rw [lookup_updateSet_of_tags (CacheSet.update_tag hf i)]
    by_cases h : t = B.tagOf addr
    · subst h; simp [lookup, hi]
    · split
      case isFalse => rfl
      case isTrue hs =>
        rw [lookup, hs]
        refine Option.map_congr fun j hj => ?_
        have hji : j ≠ i := by
          rintro rfl; exact h ((CacheSet.find_tag hj).symm.trans (CacheSet.find_tag hi))
        simp [hji]

theorem WellPlaced.modifyLine {c : Cache B R V} (hc : c.WellPlaced) (addr : IntPtr)
    {f : Block V → Block V} (hf : ∀ b, (f b).tag = b.tag) :
    (c.modifyLine addr f).WellPlaced := by
  unfold Cache.modifyLine
  dsimp only
  split
  · exact hc
  · exact hc.updateSet (CacheSet.update_tag hf _)

@[simp] theorem lookup_touchLine (pol : ReplacementPolicy B.assoc R V) (c : Cache B R V)
    (addr t : IntPtr) : (c.touchLine pol addr).lookup t = c.lookup t := by
  unfold touchLine
  dsimp only
  split
  · rfl
  · rw [lookup_updateSet_of_tags fun _ => rfl]
    split
    case isTrue hs => rw [lookup, hs]
    case isFalse => rfl

theorem WellPlaced.touchLine {c : Cache B R V} (hc : c.WellPlaced)
    (pol : ReplacementPolicy B.assoc R V) (addr : IntPtr) :
    (c.touchLine pol addr).WellPlaced := by
  unfold Cache.touchLine
  dsimp only
  split
  · exact hc
  · exact hc.updateSet fun _ => rfl

theorem accessSingleLine_load {pol} {c c' : Cache B R V} (hc : c.WellPlaced) {addr buf data}
    {b : Block V} (hb : c.peekSingleLine addr = some b)
    (h : c.accessSingleLine pol .LOAD addr buf = some (data, c')) :
    c'.WellPlaced ∧ data = b.data ∧ ∀ t, c'.lookup t = c.lookup t := by
  rw [accessSingleLine, hb] at h
  by_cases ho : B.blockOffset addr = 0
  · simp only [ho, if_true] at h
    obtain ⟨rfl, rfl⟩ := Prod.mk.inj (Option.some.inj h)
    exact ⟨hc.touchLine _ _, rfl, fun t => by simp⟩
  · simp only [ho, if_false, reduceCtorEq] at h

theorem accessSingleLine_store {pol} {c c' : Cache B R V} (hc : c.WellPlaced) {addr buf data b}
    (hb : c.peekSingleLine addr = some b)
    (h : c.accessSingleLine pol .STORE addr buf = some (data, c')) :
    c'.WellPlaced ∧ data = buf ∧
      ∀ t, c'.lookup t =
        if t = B.tagOf addr then (c.lookup t).map (·.setData buf) else c.lookup t := by
  rw [accessSingleLine, hb] at h
  by_cases ho : B.blockOffset addr = 0
  · simp only [ho, if_true] at h
    obtain ⟨rfl, rfl⟩ := Prod.mk.inj (Option.some.inj h)
    have hf : ∀ b : Block V, (b.setData buf).tag = b.tag := fun _ => rfl
    exact ⟨(hc.modifyLine addr hf).touchLine pol addr, rfl, fun t => by
      rw [lookup_touchLine, lookup_modifyLine addr hf]⟩
  · simp only [ho, if_false, reduceCtorEq] at h

/-- What an insertion of an absent line does to the map: the new line appears, the
evicted block leaves, every other line stays. -/
structure Inserted (c c' : Cache B R V) (new : Block V) (evict : Option (Block V)) : Prop where
  wellPlaced : c'.WellPlaced
  self : c'.lookup new.tag = some new
  held : ∀ v, evict = some v → c.lookup v.tag = some v
  tagged : ∀ v, evict = some v → ∃ a, v.tag = B.tagOf a
  gone : ∀ v, evict = some v → c'.lookup v.tag = none
  other : ∀ t, t ≠ new.tag → t ≠ invalidTag → (∀ v, evict = some v → t ≠ v.tag) →
    c'.lookup t = c.lookup t

theorem exists_of_lookup {c : Cache B R V} {t b} (h : c.lookup t = some b) :
    ∃ i, (c.sets (B.setIndex t)).blocks i = b := by
  obtain ⟨i, _, hi⟩ := Option.map_eq_some_iff.mp h
  exact ⟨i, hi⟩

theorem insertSingleLine_way (pol : ReplacementPolicy B.assoc R V) {c : Cache B R V}
    {addr fill evict c'} (h : c.insertSingleLine pol addr fill = (evict, c')) :
    ∃ i, (∀ u j, (c'.sets u).blocks j =
        if u = B.setIndex (B.tagOf addr) ∧ j = i then .fresh (B.tagOf addr) fill
        else (c.sets u).blocks j) ∧
      evict = if ((c.sets (B.setIndex (B.tagOf addr))).blocks i).isValid
        then some ((c.sets (B.setIndex (B.tagOf addr))).blocks i) else none := by
  obtain ⟨he, hc'⟩ := Prod.mk.inj h
  refine ⟨(pol.getReplacementIndex (c.sets (B.setIndex (B.tagOf addr))).blocks
    (c.sets (B.setIndex (B.tagOf addr))).repl).1, fun u j => ?_, he.symm⟩
  rw [← hc']
  by_cases hu : u = B.setIndex (B.tagOf addr)
  · subst hu; simp [update_apply]
  · simp [hu]

theorem insertSingleLine_spec (pol : ReplacementPolicy B.assoc R V) {c : Cache B R V}
    (hc : c.WellPlaced) {addr} (habs : c.peekSingleLine addr = none) {fill evict c'}
    (h : c.insertSingleLine pol addr fill = (evict, c')) :
    Inserted c c' (.fresh (B.tagOf addr) fill) evict := by
  obtain ⟨i, hway, hev⟩ := insertSingleLine_way pol h
  set t := B.tagOf addr with htdef
  have hnew : ((c'.sets (B.setIndex t)).blocks i) = .fresh t fill := by simp [hway]
  have hnewv : ((c'.sets (B.setIndex t)).blocks i).isValid = true := by
    rw [hnew]; simpa [Block.isValid] using B.tagOf_ne_invalid addr
  have hfree : ∀ j, ((c.sets (B.setIndex t)).blocks j).tag ≠ t := lookup_eq_none.mp habs
  have hfree' : ∀ u j, ((c.sets u).blocks j).isValid = true → ((c.sets u).blocks j).tag ≠ t := by
    intro u j hv ht
    have hu := hc.home u j hv
    rw [ht] at hu; subst hu
    exact hfree j ht
  have hwp : c'.WellPlaced := by
    refine ⟨?_, ?_, ?_⟩
    · intro u j hv
      rw [hway] at hv ⊢
      split_ifs at hv ⊢
      · exact ⟨addr, htdef⟩
      · exact hc.tagged u j hv
    · intro u j k hv ht
      rw [hway] at hv
      rw [hway, hway] at ht
      split_ifs at hv ht with h1 h2 h2
      · exact h1.2.trans h2.2.symm
      · exact absurd ht.symm (hfree' u k (by simpa [Block.isValid, ht.symm] using hv))
      · exact absurd ht (hfree' u j hv)
      · exact hc.unique u j k hv ht
    · intro u j hv
      rw [hway] at hv ⊢
      split_ifs at hv ⊢ with h1
      · exact h1.1.symm
      · exact hc.home u j hv
  have hout : ∀ v, evict = some v → (c.sets (B.setIndex t)).blocks i = v ∧ v.isValid = true := by
    intro v hv
    rw [hev] at hv
    split at hv
    · cases hv; exact ⟨rfl, by assumption⟩
    · cases hv
  refine ⟨hwp, ?_, ?_, ?_, ?_, ?_⟩
  · simpa [hnew] using hwp.lookup_eq hnewv
  · intro v hv
    obtain ⟨rfl, hvv⟩ := hout v hv
    exact hc.lookup_eq hvv
  · intro v hv
    obtain ⟨rfl, hvv⟩ := hout v hv
    exact hc.tagged _ _ hvv
  · intro v hv
    obtain ⟨rfl, hvv⟩ := hout v hv
    rw [lookup_eq_none, hc.home _ _ hvv]
    intro j hj
    rw [hway] at hj
    split_ifs at hj with h1
    · exact hfree' _ _ hvv hj.symm
    · exact h1 ⟨rfl, (hc.unique _ _ _ hvv hj.symm).symm⟩
  · intro u hu huv hne
    cases hl : c.lookup u with
    | none =>
      rw [lookup_eq_none] at hl ⊢
      intro j
      rw [hway]
      split_ifs with h1
      · exact Ne.symm hu
      · exact hl j
    | some b =>
      obtain ⟨j, hj⟩ := exists_of_lookup hl
      have hbt := lookup_tag hl
      have hbv : b.isValid = true := by simpa [Block.isValid, hbt] using huv
      have hkeep : (c'.sets (B.setIndex u)).blocks j = b := by
        rw [hway]
        split_ifs with h1
        · obtain ⟨hs, rfl⟩ := h1
          rw [hs] at hj
          exact absurd hbt.symm (hne b (by rw [hev, hj]; simp [hbv]))
        · exact hj
      have := hwp.lookup_eq (s := B.setIndex u) (i := j) (by rw [hkeep]; exact hbv)
      rwa [hkeep, hbt] at this

end Cache
end Sniper.Memory.SetAssoc
