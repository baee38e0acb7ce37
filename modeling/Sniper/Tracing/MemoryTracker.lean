import Mathlib.Data.Nat.Bitwise
import Sniper.Lib.AssocList
import Sniper.Lib.Prefixes
import Sniper.Lib.Segments

/-! # The owners of the cache lines

`MemoryTracker`: the cache lines of an allocation belong to the site that made it, which is known
by its call stack. The allocations are in a map by their ends. What the site counts of accesses
and evictions, and the output, are left out.
-/
namespace Sniper.Tracing
open Lib Lib.Prefixes Lib.SortedMap

local instance linearOrderUInt64 : LinearOrder UInt64 where
  le_refl := UInt64.le_refl
  le_trans _ _ _ := UInt64.le_trans
  lt_iff_le_not_ge _ _ := by
    rw [UInt64.lt_iff_toNat_lt, UInt64.le_iff_toNat_le, UInt64.le_iff_toNat_le]
    omega
  le_antisymm _ _ := UInt64.le_antisymm
  le_total := UInt64.le_total
  toDecidableLE := inferInstance
  toDecidableEq := inferInstance
  toDecidableLT := inferInstance

abbrev CallStack := List UInt64

structure AllocationSite where
  num_allocations : UInt64
  total_size : UInt64

/-- The site is its call stack. -/
structure Allocation where
  size : UInt64
  site : CallStack

/-- With the map of `ASSERT_FIND_OWNER`. -/
structure MemoryTracker where
  m_allocations : List (UInt64 × Allocation)
  m_allocation_sites : List (CallStack × AllocationSite)
  m_allocations_slow : UInt64 → Option CallStack

/-- What `logMalloc` is called with, and the call stack of the thread. -/
structure Malloc where
  stack : CallStack
  address : UInt64
  size : UInt64

namespace Malloc
variable (call : Malloc)

def lower : UInt64 := call.address &&& ~~~63

/-- The first line that does not belong to the allocation. -/
def upper : UInt64 := (call.address + call.size + 63) &&& ~~~63

end Malloc

namespace MemoryTracker
variable (s : MemoryTracker)

def create : MemoryTracker := ⟨[], [], fun _ => none⟩

/-- The lines of the loop over the slow map. -/
def slowLines (lower upper : UInt64) : List UInt64 :=
  if lower < upper then
    (List.range ((upper - lower) / 64).toNat).map fun i => lower + 64 * UInt64.ofNat i
  else []

/-- The part of the previous allocation that the new one takes is taken away. -/
def cutPrevious (lower upper : UInt64) (m : List (UInt64 × Allocation)) :
    List (UInt64 × Allocation) :=
  match upper_bound lower m with
  | some (first, previous) =>
    if first - previous.size ≤ lower then
      let start := first - previous.size
      let m := if start < lower then assign lower ⟨lower - start, previous.site⟩ m else m
      if upper < first then assign first ⟨first - upper, previous.site⟩ m else erase first m
    else m
  | none => m

def logMalloc (call : Malloc) : MemoryTracker :=
  let site := (AssocList.lookup call.stack s.m_allocation_sites).getD ⟨0, 0⟩
  { m_allocations := assign call.upper ⟨call.upper - call.lower, call.stack⟩
      (cutPrevious call.lower call.upper s.m_allocations)
    m_allocation_sites := AssocList.assign call.stack
      ⟨site.num_allocations + 1, site.total_size + call.size⟩ s.m_allocation_sites
    m_allocations_slow := (slowLines call.lower call.upper).foldl
      (fun slow addr => Function.update slow addr (some call.stack)) s.m_allocations_slow }

def logFree : MemoryTracker := s

def ce_get_owner (address : UInt64) : Option CallStack :=
  match upper_bound address s.m_allocations with
  | some (first, a) => if first - a.size ≤ address then some a.site else none
  | none => none

def owner_slow (address : UInt64) : Option CallStack := s.m_allocations_slow (address &&& ~~~63)

end MemoryTracker

inductive Event where
  | malloc (call : Malloc)
  | free (address : UInt64)

def MemoryTracker.step (s : MemoryTracker) : Event → MemoryTracker
  | .malloc call => s.logMalloc call
  | .free _ => s.logFree

def run (events : List Event) : MemoryTracker := events.foldl MemoryTracker.step .create

/-! ## What the owner should be -/

/-- The address is in one of the cache lines of the allocation. -/
def Malloc.Covers (call : Malloc) (address : UInt64) : Prop :=
  call.address.toNat / 64 * 64 ≤ address.toNat ∧
    address.toNat < (call.address.toNat + call.size.toNat + 63) / 64 * 64

instance (call : Malloc) (address : UInt64) : Decidable (call.Covers address) := instDecidableAnd

/-- The site of the last allocation that covers the address. -/
def latest (address : UInt64) (events : List Event) : Option CallStack :=
  events.foldl (fun owner event =>
    match event with
    | .malloc call => if call.Covers address then some call.stack else owner
    | .free _ => owner) none

/-- The allocation ends in the address space; no other one starts inside of it, unless it also ends
with it; and if it is empty, then none goes on up to its line. -/
structure Careful (s : MemoryTracker) (call : Malloc) : Prop where
  fits : call.address.toNat + call.size.toNat + 63 < 2 ^ 64
  inside : ∀ e ∈ s.m_allocations, call.lower < e.1 - e.2.size → e.1 - e.2.size < call.upper →
    e.1 = call.upper
  empty : call.lower = call.upper → ∀ e ∈ s.m_allocations, e.1 - e.2.size < call.lower →
    e.1 < call.lower

/-! ## The map as segments -/

/-- An allocation starts its size before its end. -/
def segment (first : UInt64) (a : Allocation) : UInt64 × CallStack := (first - a.size, a.site)

def segments (s : MemoryTracker) : Segments.SegmentMap UInt64 CallStack :=
  mapValues segment s.m_allocations

theorem ce_get_owner_eq (s : MemoryTracker) (address : UInt64) :
    s.ce_get_owner address = Segments.holder address (segments s) := by
  unfold MemoryTracker.ce_get_owner Segments.holder segments
  rw [upper_bound_mapValues]
  cases upper_bound address s.m_allocations with
  | none | some e => rfl

theorem segment_sub (first start : UInt64) (site : CallStack) :
    segment first ⟨first - start, site⟩ = (start, site) := by
  unfold segment
  rw [UInt64.sub_eq_iff_eq_add.mpr (UInt64.add_comm start _ ▸ UInt64.sub_add_cancel first start).symm]

theorem segments_cutPrevious (lower upper : UInt64) (m : List (UInt64 × Allocation)) :
    mapValues segment (MemoryTracker.cutPrevious lower upper m) =
      Segments.cut lower upper (mapValues segment m) := by
  unfold Segments.cut
  unfold MemoryTracker.cutPrevious
  rw [upper_bound_mapValues]
  cases upper_bound lower m with
  | none => rfl
  | some e =>
    have hstart : mapValues segment (if e.1 - e.2.size < lower then
          assign lower ⟨lower - (e.1 - e.2.size), e.2.site⟩ m else m) =
        if e.1 - e.2.size < lower then
          assign lower (e.1 - e.2.size, e.2.site) (mapValues segment m)
        else mapValues segment m := by
      rw [apply_ite (mapValues segment), ← assign_mapValues, segment_sub]
    rw [apply_ite (mapValues segment), apply_ite (mapValues segment), ← assign_mapValues,
      segment_sub, ← erase_mapValues]
    exact if_congr Iff.rfl (by rw [← hstart]) rfl

theorem segments_logMalloc (s : MemoryTracker) (call : Malloc) :
    segments (s.logMalloc call) =
      Segments.record call.lower call.upper call.stack (segments s) := by
  change mapValues segment (assign _ _ (MemoryTracker.cutPrevious _ _ _)) = _
  rw [← assign_mapValues, segment_sub, segments_cutPrevious]
  rfl

/-! ## The lines of an allocation -/

theorem toNat_line (x : UInt64) : (x &&& ~~~63).toNat = x.toNat / 64 * 64 := by
  have hmask : (~~~63 : UInt64).toNat = (2 ^ 58 - 1) * 2 ^ 6 := by decide
  rw [UInt64.toNat_and, hmask]
  refine Nat.eq_of_testBit_eq fun i => ?_
  rw [Nat.testBit_and, Nat.testBit_mul_two_pow, Nat.testBit_two_pow_sub_one,
    show x.toNat / 64 * 64 = x.toNat / 2 ^ 6 * 2 ^ 6 from rfl, Nat.testBit_mul_two_pow,
    Nat.testBit_div_two_pow]
  by_cases hi : 6 ≤ i
  · have hsum : i - 6 + 6 = i := by omega
    by_cases hsize : i < 64
    · simp [hi, hsum, show i - 6 < 58 by omega]
    · have hx : x.toNat < 2 ^ i :=
        x.toNat_lt.trans_le (Nat.pow_le_pow_right (by decide) (by omega))
      simp [hi, hsum, Nat.testBit_lt_two_pow hx]
  · simp [hi]

section Lines
variable {call : Malloc} (hfits : call.address.toNat + call.size.toNat + 63 < 2 ^ 64)
include hfits

theorem toNat_upper :
    call.upper.toNat = (call.address.toNat + call.size.toNat + 63) / 64 * 64 := by
  have hsum : (call.address + call.size + 63).toNat =
      call.address.toNat + call.size.toNat + 63 := by
    change ((call.address.toNat + call.size.toNat) % 2 ^ 64 + 63) % 2 ^ 64 = _
    omega
  unfold Malloc.upper
  rw [toNat_line, hsum]

theorem lower_le_upper : call.lower ≤ call.upper := by
  rw [UInt64.le_iff_toNat_le, toNat_upper hfits]
  unfold Malloc.lower
  rw [toNat_line]
  omega

theorem covers_iff (address : UInt64) :
    call.Covers address ↔ call.lower ≤ address ∧ address < call.upper := by
  rw [UInt64.le_iff_toNat_le, UInt64.lt_iff_toNat_lt, toNat_upper hfits]
  unfold Malloc.lower
  rw [toNat_line]
  rfl

theorem mem_slowLines (address : UInt64) :
    address &&& ~~~63 ∈ MemoryTracker.slowLines call.lower call.upper ↔ call.Covers address := by
  have hupper := toNat_upper hfits
  have hlower : call.lower.toNat = call.address.toNat / 64 * 64 := toNat_line call.address
  have hcount : ((call.upper - call.lower) / 64).toNat =
      (call.upper.toNat - call.lower.toNat) / 64 := by
    rw [UInt64.toNat_div, UInt64.toNat_sub_of_le _ _ (lower_le_upper hfits)]
    rfl
  have hline : ∀ i < (call.upper.toNat - call.lower.toNat) / 64,
      (call.lower + 64 * UInt64.ofNat i).toNat = call.lower.toNat + 64 * i := by
    intro i hi
    change (call.lower.toNat + 64 * (i % 2 ^ 64) % 2 ^ 64) % 2 ^ 64 = _
    omega
  unfold MemoryTracker.slowLines Malloc.Covers
  split
  case isTrue hlt =>
    rw [List.mem_map]
    constructor
    · rintro ⟨i, hi, heq⟩
      rw [List.mem_range, hcount] at hi
      have hnat := congrArg UInt64.toNat heq
      rw [hline i hi, toNat_line] at hnat
      omega
    · rintro ⟨hle, hend⟩
      obtain ⟨i, hi⟩ : ∃ i, i = (address.toNat / 64 - call.address.toNat / 64) := ⟨_, rfl⟩
      have hrange : i < (call.upper.toNat - call.lower.toNat) / 64 := by omega
      refine ⟨i, List.mem_range.mpr (hcount ▸ hrange), ?_⟩
      rw [← UInt64.toNat_inj, hline i hrange, toNat_line]
      omega
  case isFalse hle =>
    rw [UInt64.lt_iff_toNat_lt] at hle
    refine iff_of_false List.not_mem_nil ?_
    omega

end Lines

theorem foldl_update (lines : List UInt64) (slow : UInt64 → Option CallStack)
    (owner : Option CallStack) (line : UInt64) :
    lines.foldl (fun slow addr => Function.update slow addr owner) slow line =
      if line ∈ lines then owner else slow line := by
  induction lines using List.reverseRecOn with
  | nil => rfl
  | append_singleton lines last ih =>
    rw [List.foldl_concat]
    by_cases hlast : line = last
    · subst hlast
      rw [Function.update_self, if_pos (List.mem_append_right _ (List.mem_singleton_self _))]
    · rw [Function.update_of_ne hlast, ih]
      refine if_congr ?_ rfl rfl
      rw [List.mem_append, List.mem_singleton, or_iff_left hlast]

/-! ## Runs -/

variable {before events : List Event}

theorem run_concat (before : List Event) (event : Event) :
    run (before ++ [event]) = (run before).step event := by
  unfold run
  rw [List.foldl_concat]

theorem latest_concat (address : UInt64) (before : List Event) (call : Malloc) :
    latest address (before ++ [.malloc call]) =
      if call.Covers address then some call.stack else latest address before := by
  unfold latest
  rw [List.foldl_concat]

theorem Careful.clear {s : MemoryTracker} {call : Malloc} (h : Careful s call) :
    Segments.Clear call.lower call.upper (segments s) := by
  refine ⟨lower_le_upper h.fits, fun e he => ?_, fun heq e he => ?_⟩
  · obtain ⟨a, ha, rfl⟩ := List.mem_map.mp he
    exact h.inside a ha
  · obtain ⟨a, ha, rfl⟩ := List.mem_map.mp he
    exact h.empty heq a ha

/-- The map is a cover by disjoint segments, and it agrees with the slow map. -/
structure Sound (before : List Event) : Prop where
  cover : Segments.Cover (segments (run before))
  owner : ∀ address, (run before).ce_get_owner address = latest address before
  slow : ∀ address, (run before).owner_slow address = latest address before

theorem Sound.nil : Sound [] := by
  refine ⟨⟨List.Pairwise.nil, fun e he => ?_, fun e he => ?_⟩, fun _ => rfl, fun _ => rfl⟩
  · cases he
  · cases he

theorem Sound.malloc (h : Sound before) {call : Malloc} (hcareful : Careful (run before) call) :
    Sound (before ++ [.malloc call]) := by
  have hrun : run (before ++ [.malloc call]) = (run before).logMalloc call := run_concat ..
  have hclear := hcareful.clear
  constructor <;> rw [hrun]
  · rw [segments_logMalloc]
    exact h.cover.record hclear call.stack
  · intro address
    rw [ce_get_owner_eq, segments_logMalloc, h.cover.holder_record hclear, ← ce_get_owner_eq,
      h.owner, latest_concat]
    exact if_congr (covers_iff hcareful.fits address).symm rfl rfl
  · intro address
    unfold MemoryTracker.owner_slow MemoryTracker.logMalloc
    dsimp only
    rw [foldl_update, latest_concat]
    exact if_congr (mem_slowLines hcareful.fits address) rfl (h.slow address)

theorem Sound.free (h : Sound before) (address : UInt64) : Sound (before ++ [.free address]) := by
  have hlatest : ∀ other, latest other (before ++ [.free address]) = latest other before := by
    intro other
    unfold latest
    rw [List.foldl_concat]
  have hrun : run (before ++ [.free address]) = run before := run_concat ..
  refine ⟨?_, fun other => ?_, fun other => ?_⟩
  · rw [hrun]
    exact h.cover
  · rw [hrun, hlatest]
    exact h.owner other
  · rw [hrun, hlatest]
    exact h.slow other

/-- In a run of careful allocations each address belongs to the last one that covers it. -/
theorem owner_latest (events : List Event)
    (hcareful : ∀ before call, before ++ [.malloc call] <+: events → Careful (run before) call)
    (before : List Event) (hbefore : before <+: events) (address : UInt64) :
    (run before).ce_get_owner address = latest address before ∧
      (run before).owner_slow address = latest address before := by
  have hsound : Sound before := by
    induction before using List.reverseRecOn with
    | nil => exact .nil
    | append_singleton before event ih =>
      have hfront := ih (prefix_of_concat hbefore)
      cases event with
      | malloc call => exact hfront.malloc (hcareful before call hbefore)
      | free address => exact hfront.free address
  exact ⟨hsound.owner address, hsound.slow address⟩

theorem owner_latest_split :
    (run [.malloc ⟨[1], 0, 256⟩, .malloc ⟨[2], 64, 64⟩]).ce_get_owner 200 =
        latest 200 [.malloc ⟨[1], 0, 256⟩, .malloc ⟨[2], 64, 64⟩] ∧
      (run [.malloc ⟨[1], 0, 256⟩, .malloc ⟨[2], 64, 64⟩]).owner_slow 200 =
        latest 200 [.malloc ⟨[1], 0, 256⟩, .malloc ⟨[2], 64, 64⟩] := by
  refine owner_latest _ ?_ _ (List.prefix_refl _) 200
  rintro before call ⟨rest, hevents⟩
  rcases before with _ | ⟨first, _ | ⟨second, before⟩⟩
  · cases hevents
    exact ⟨by decide, by decide +kernel, by decide +kernel⟩
  · cases hevents
    exact ⟨by decide, by decide +kernel, by decide +kernel⟩
  · have hnil := (List.cons.inj (List.cons.inj hevents).2).2
    simp at hnil

/-- An allocation over a smaller one loses the lines below it. -/
theorem owner_lost :
    (run [.malloc ⟨[1], 128, 64⟩, .malloc ⟨[2], 0, 256⟩]).ce_get_owner 64 = none ∧
      latest 64 [.malloc ⟨[1], 128, 64⟩, .malloc ⟨[2], 0, 256⟩] = some [2] := by
  decide +kernel

end Sniper.Tracing
