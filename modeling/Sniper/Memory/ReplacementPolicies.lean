import Sniper.Memory.SetAssoc

/-! # Replacement policies and pending upgrades

`CacheSetLRU` (with and without query-based selection), `CacheSetNRU`, `CacheSetNMRU`,
`CacheSetMRU`, `CacheSetRandom` and `CacheSetRoundRobin`. A way in state `SHARED_UPGRADING` waits
for the reply to its upgrade request and must not be replaced. Access and attempt histograms are
left out.
-/
namespace Sniper.Memory.Replacement
open Lib.Simulation SetAssoc Function

/-- Why a call does not return: an assertion, or a recursion that was cut off. -/
inductive Stop where
  | error (text : String)
  | unfinished
  deriving DecidableEq

theorem forall_returned {α β : Type} {x : Except Stop (α × β)} {a : α} {b : β} {P : α → Prop}
    (h : x = .ok (a, b)) : (∀ a' b', x = .ok (a', b') → P a') ↔ P a := by
  subst h
  refine ⟨fun hp => hp a b rfl, fun ha a' b' he => ?_⟩
  cases he
  exact ha

section Ways
variable {n : Nat} {V : Type}

abbrev Blocks (n : Nat) (V : Type) := Fin (n + 1) → Block V
abbrev Bits (n : Nat) := Fin (n + 1) → UInt8

/-- `CacheSet::isValidReplacement`. -/
def isValidReplacement (blocks : Blocks n V) (index : Fin (n + 1)) : Bool :=
  decide ((blocks index).cstate ≠ .SHARED_UPGRADING)

/-- The scan for an invalid block that most policies start with. -/
def firstInvalid (blocks : Blocks n V) : Option (Fin (n + 1)) :=
  (List.finRange (n + 1)).find? fun i => !(blocks i).isValid

/-- `moveToMRU` of `CacheSetLRU`, `updateReplacementIndex` of the NMRU and MRU sets. -/
def moveToMRU (bits : Bits n) (accessed_index : Fin (n + 1)) : Bits n := fun i =>
  if i = accessed_index then 0
  else if bits i < bits accessed_index then bits i + 1 else bits i

theorem firstInvalid_some {blocks : Blocks n V} {i : Fin (n + 1)}
    (h : firstInvalid blocks = some i) : (blocks i).isValid = false := by
  simpa using List.find?_some h

theorem firstInvalid_none {blocks : Blocks n V} :
    firstInvalid blocks = none ↔ ∀ i, (blocks i).isValid = true := by
  simp [firstInvalid, List.find?_eq_none]

/-- `m_replacement_pointer`: a byte below the associativity. -/
def Pointer (n : Nat) := { p : UInt8 // p.toNat < n + 1 }

namespace Pointer

def start (n : Nat) : Pointer n := ⟨0, by simp⟩

def way (p : Pointer n) : Fin (n + 1) := ⟨p.1.toNat, p.2⟩

/-- `(p + 1) % m_associativity`, cut to a byte. -/
def advance (p : Pointer n) : Pointer n :=
  ⟨UInt8.ofNat ((p.1.toNat + 1) % (n + 1)), by
    rw [UInt8.toNat_ofNat']
    exact (Nat.mod_le _ _).trans_lt (Nat.mod_lt _ n.succ_pos)⟩

end Pointer

/-- The search of the NRU and NMRU sets: `left` ways from the replacement pointer on, which
also moves when no way is found. -/
def pointerSearch (blocks : Blocks n V) (eligible : Fin (n + 1) → Bool) :
    Nat → Pointer n → Except Stop (Fin (n + 1) × Pointer n)
  | 0, _ => .error (.error "Error Finding LRU bits")
  | left + 1, p =>
    if eligible p.way && isValidReplacement blocks p.way then .ok (p.way, p.advance)
    else pointerSearch blocks eligible left p.advance

theorem pointerSearch_ready {blocks : Blocks n V} {eligible : Fin (n + 1) → Bool} {left : Nat}
    {p p' : Pointer n} {i : Fin (n + 1)} (h : pointerSearch blocks eligible left p = .ok (i, p')) :
    isValidReplacement blocks i = true := by
  induction left generalizing p with
  | zero => simp [pointerSearch] at h
  | succ left ih =>
    rw [pointerSearch] at h
    split at h
    case isTrue hw =>
      simp only [Except.ok.injEq, Prod.mk.injEq] at h
      rw [← h.1]
      exact (Bool.and_eq_true_iff.mp hw).2
    case isFalse => exact ih h

end Ways

/-! ## The policies -/

namespace LRU
variable {n : Nat} {V : Type}

/-- One way of the scan: index and position of the best replacement so far. -/
def improve (blocks : Blocks n V) (bits : Bits n) (best : Fin (n + 1) × UInt8)
    (i : Fin (n + 1)) : Fin (n + 1) × UInt8 :=
  if best.2 < bits i ∧ isValidReplacement blocks i then (i, bits i) else best

/-- One attempt of `CacheSetLRU`: the highest position among the valid replacements. Index 0
and position 0 stand when no way improves on them. -/
def scan (blocks : Blocks n V) (bits : Bits n) : Fin (n + 1) :=
  ((List.finRange (n + 1)).foldl (improve blocks bits) (0, 0)).1

/-- `CacheCntlr::isInLowerLevelCache`, asked only through a controller. -/
def isInLowerLevelCache (cntlr : Option (Block V → Bool)) (b : Block V) : Except Stop Bool :=
  match cntlr with
  | none => .error
      (.error "CacheCntlr == NULL, QBS can only be used when cntlr is passed in")
  | some query => .ok (query b)

/-- The attempts at evicting the block at LRU position, of which `left` remain. -/
def attempts (cntlr : Option (Block V → Bool)) (blocks : Blocks n V) :
    Nat → Bits n → Except Stop (Fin (n + 1) × Bits n)
  | 0, _ => .error (.error "Should not reach here")
  | left + 1, bits => do
    let index := scan blocks bits
    let qbs_reject ← if 0 < left then isInLowerLevelCache cntlr (blocks index) else pure false
    if qbs_reject then attempts cntlr blocks left (moveToMRU bits index)
    else pure (index, moveToMRU bits index)

def getReplacementIndex (cntlr : Option (Block V → Bool)) (blocks : Blocks n V)
    (m_num_attempts : UInt8) (m_lru_bits : Bits n) : Except Stop (Fin (n + 1) × Bits n) :=
  match firstInvalid blocks with
  | some i => .ok (i, moveToMRU m_lru_bits i)
  | none => attempts cntlr blocks m_num_attempts.toNat m_lru_bits

end LRU

structure NRU (n : Nat) where
  m_lru_bits : Bits n
  m_num_bits_set : UInt8
  m_replacement_pointer : Pointer n

namespace NRU
variable {n : Nat} {V : Type}

/-- The count of set bits also grows when the bit was set already. -/
def updateReplacementIndex (s : NRU n) (accessed_index : Fin (n + 1)) : NRU n :=
  if (s.m_num_bits_set + 1).toNat = n + 1 then
    { s with m_lru_bits := fun _ => 0, m_num_bits_set := 0 }
  else
    { s with m_lru_bits := update s.m_lru_bits accessed_index 1,
             m_num_bits_set := s.m_num_bits_set + 1 }

def getReplacementIndex (blocks : Blocks n V) (s : NRU n) : Except Stop (Fin (n + 1) × NRU n) :=
  match firstInvalid blocks with
  | some i => .ok (i, s.updateReplacementIndex i)
  | none => do
    let have_zero_bit := (List.finRange (n + 1)).any fun i =>
      s.m_lru_bits i == 0 && isValidReplacement blocks i
    let (index, p) ← pointerSearch blocks
      (fun i => s.m_lru_bits i == 0 || !have_zero_bit) (n + 1) s.m_replacement_pointer
    pure (index, { s with m_replacement_pointer := p }.updateReplacementIndex index)

end NRU

namespace NMRU
variable {n : Nat} {V : Type}

def getReplacementIndex (blocks : Blocks n V) (m_lru_bits : Bits n)
    (m_replacement_pointer : Pointer n) : Except Stop (Fin (n + 1) × Bits n × Pointer n) :=
  match firstInvalid blocks with
  | some i => .ok (i, moveToMRU m_lru_bits i, m_replacement_pointer)
  | none => do
    let (index, p) ← pointerSearch blocks (fun i => decide (m_lru_bits i ≠ 0)) (n + 1)
      m_replacement_pointer
    pure (index, moveToMRU m_lru_bits index, p)

end NMRU

namespace MRU
variable {n : Nat} {V : Type}

/-- The first valid replacement, from the most recently used position on. -/
def target (blocks : Blocks n V) (m_lru_bits : Bits n) : Option (Fin (n + 1)) :=
  (List.range (n + 1)).findSome? fun target =>
    (List.finRange (n + 1)).find? fun i =>
      (m_lru_bits i).toNat == target && isValidReplacement blocks i

def getReplacementIndex (blocks : Blocks n V) (m_lru_bits : Bits n) :
    Except Stop (Fin (n + 1) × Bits n) :=
  match firstInvalid blocks with
  | some i => .ok (i, moveToMRU m_lru_bits i)
  | none =>
    match target blocks m_lru_bits with
    | some i => .ok (i, moveToMRU m_lru_bits i)
    | none => .error (.error "Error Finding LRU bits")

end MRU

namespace Random
variable {n : Nat} {V : Type}

/-- `Random::next` with its default limit: the value drawn and the new seed. -/
def next (seed : UInt32) : UInt32 × UInt32 :=
  let seed := seed * 1103515245 + 12345
  ((seed / 65536) % 32768, seed)

/-- `CacheSetRandom::getReplacementIndex`, which calls itself until it draws a valid
replacement; `fuel` bounds the calls. -/
def getReplacementIndex (blocks : Blocks n V) :
    Nat → UInt32 → Except Stop (Fin (n + 1) × UInt32)
  | 0, _ => .error .unfinished
  | fuel + 1, m_rand =>
    match firstInvalid blocks with
    | some i => .ok (i, m_rand)
    | none =>
      let index := Fin.ofNat (n + 1) (next m_rand).1.toNat
      if isValidReplacement blocks index then .ok (index, (next m_rand).2)
      else getReplacementIndex blocks fuel (next m_rand).2

end Random

namespace RoundRobin
variable {n : Nat} {V : Type}

/-- The way below, and the last way after way 0. -/
def next (index : Fin (n + 1)) : Fin (n + 1) := if index = 0 then Fin.last n else index - 1

/-- `CacheSetRoundRobin::getReplacementIndex`: the check is on the next way, the way
returned is the current one. -/
def getReplacementIndex (blocks : Blocks n V) :
    Nat → Fin (n + 1) → Except Stop (Fin (n + 1) × Fin (n + 1))
  | 0, _ => .error .unfinished
  | fuel + 1, m_replacement_index =>
    if isValidReplacement blocks (next m_replacement_index) then
      .ok (m_replacement_index, next m_replacement_index)
    else getReplacementIndex blocks fuel (next m_replacement_index)

end RoundRobin

/-! ## The cache set -/

/-- `CacheBase::ReplacementPolicy`, less the tree-based and re-reference policies;
`LRU_QBS` with `qbs/attempts` as the configuration gives it. -/
inductive Policy where
  | ROUND_ROBIN | LRU | LRU_QBS (attempts : UInt8) | NRU | MRU | NMRU | RANDOM

/-- The replacement state of a set, one constructor for each subclass of `CacheSet`. -/
inductive Repl (n : Nat) where
  | roundRobin (m_replacement_index : Fin (n + 1))
  | lru (m_num_attempts : UInt8) (m_lru_bits : Bits n)
  | nru (s : NRU n)
  | mru (m_lru_bits : Bits n)
  | nmru (m_lru_bits : Bits n) (m_replacement_pointer : Pointer n)
  | random (m_rand : UInt32)

namespace Repl
variable {n : Nat} {V : Type}

/-- The positions the LRU, MRU and NMRU sets start with: the way's own number. -/
def initialBits (n : Nat) : Bits n := fun i => UInt8.ofNat i

/-- `CacheSet::createCacheSet`; `time` seeds the random policy. -/
def create (n : Nat) (time : UInt32) : Policy → Repl n
  | .ROUND_ROBIN => .roundRobin (Fin.last n)
  | .LRU => .lru 1 (initialBits n)
  | .LRU_QBS attempts => .lru attempts (initialBits n)
  | .NRU => .nru ⟨fun _ => 0, 0, .start n⟩
  | .MRU => .mru (initialBits n)
  | .NMRU => .nmru (initialBits n) (.start n)
  | .RANDOM => .random time

/-- `getReplacementIndex` of the set's class; `fuel` bounds the calls to itself. -/
def getReplacementIndex (fuel : Nat) (cntlr : Option (Block V → Bool)) (blocks : Blocks n V) :
    Repl n → Except Stop (Fin (n + 1) × Repl n)
  | .roundRobin index =>
    (RoundRobin.getReplacementIndex blocks fuel index).map (Prod.map id .roundRobin)
  | .lru k bits => (LRU.getReplacementIndex cntlr blocks k bits).map (Prod.map id (.lru k))
  | .nru s => (s.getReplacementIndex blocks).map (Prod.map id .nru)
  | .mru bits => (MRU.getReplacementIndex blocks bits).map (Prod.map id .mru)
  | .nmru bits p =>
    (NMRU.getReplacementIndex blocks bits p).map (Prod.map id fun r => .nmru r.1 r.2)
  | .random seed => (Random.getReplacementIndex blocks fuel seed).map (Prod.map id .random)

def updateReplacementIndex (accessed_index : Fin (n + 1)) : Repl n → Repl n
  | .roundRobin index => .roundRobin index
  | .lru k bits => .lru k (moveToMRU bits accessed_index)
  | .nru s => .nru (s.updateReplacementIndex accessed_index)
  | .mru bits => .mru (moveToMRU bits accessed_index)
  | .nmru bits p => .nmru (moveToMRU bits accessed_index) p
  | .random seed => .random seed

end Repl

section System
variable {n : Nat} {V : Type}

abbrev PolicySet (n : Nat) (V : Type) := CacheSet (n + 1) (Repl n) V

/-- `CacheSet::insert`: the replaced block is reported when it held a line. -/
def insert (fuel : Nat) (cntlr : Option (Block V → Bool)) (s : PolicySet n V) (new : Block V) :
    Except Stop (Option (Block V) × PolicySet n V) := do
  let (index, repl) ← s.repl.getReplacementIndex fuel cntlr s.blocks
  let old := s.blocks index
  pure (if old.isValid then some old else none,
    { blocks := update s.blocks index new, repl })

/-- `CacheBlockInfo::invalidate`. -/
def invalidate (b : Block V) : Block V := { b with tag := invalidTag, cstate := .INVALID }

def setBlock (s : PolicySet n V) (i : Fin (n + 1)) (b : Block V) : PolicySet n V :=
  { s with blocks := update s.blocks i b }

/-- What a cache does with one of its sets. Tags are block numbers, so none is `~0`, and
the line a reader, writer, invalidation or state change is about is found by its tag. -/
inductive Step : PolicySet n V → PolicySet n V → Prop
  | insert {s s'} (fuel : Nat) (cntlr : Option (Block V → Bool)) (tag : IntPtr) (data : V)
      (old : Option (Block V)) (ht : tag ≠ invalidTag)
      (h : insert fuel cntlr s (.fresh tag data) = .ok (old, s')) : Step s s'
  | access {s : PolicySet n V} (tag : IntPtr) (i : Fin (n + 1)) (data : V) (ht : tag ≠ invalidTag)
      (h : s.find tag = some i) (update_replacement : Bool) :
      Step s { setBlock s i ((s.blocks i).setData data) with
        repl := if update_replacement then s.repl.updateReplacementIndex i else s.repl }
  | invalidate {s : PolicySet n V} (tag : IntPtr) (i : Fin (n + 1)) (ht : tag ≠ invalidTag)
      (h : s.find tag = some i) : Step s (setBlock s i (invalidate (s.blocks i)))
  | setCState {s : PolicySet n V} (tag : IntPtr) (i : Fin (n + 1)) (cstate : CState)
      (ht : tag ≠ invalidTag) (h : s.find tag = some i) :
      Step s (setBlock s i ((s.blocks i).setCState cstate))

/-- A new set: no way holds a line. -/
def Init (policy : Policy) (s : PolicySet n V) : Prop :=
  ∃ (zero : V) (time : UInt32), s = ⟨fun _ => .empty zero, .create n time policy⟩

/-- The sets reachable under a policy. -/
def Runs (policy : Policy) : PolicySet n V → Prop := Reachable (Init policy) Step

end System

/-! ## LRU positions -/

namespace LRU
variable {n : Nat} {V : Type} {blocks : Blocks n V} {bits : Bits n}

/-- One way at most is at the MRU position. -/
def OneMRU (bits : Bits n) : Prop := ∀ i j, bits i = 0 → bits j = 0 → i = j

theorem byte_succ_ne_zero {a b : UInt8} (h : a < b) : a + 1 ≠ 0 := by
  intro h0
  have h1 : (a + 1).toNat = 0 := by rw [h0]; rfl
  have h2 := UInt8.lt_iff_toNat_lt.mp h
  have h3 := b.toNat_lt
  simp at h1 h3
  omega

theorem byte_pos {a : UInt8} : 0 < a ↔ a ≠ 0 := by
  rw [UInt8.lt_iff_toNat_lt, ne_eq, ← UInt8.toNat_inj]
  simp [Nat.pos_iff_ne_zero]

@[simp] theorem moveToMRU_self (bits : Bits n) (i : Fin (n + 1)) : moveToMRU bits i i = 0 := by
  simp [moveToMRU]

theorem moveToMRU_ne_zero {i j : Fin (n + 1)} (hj : j ≠ i) (hi : bits i ≠ 0) :
    moveToMRU bits i j ≠ 0 := by
  rw [moveToMRU, if_neg hj]
  split
  case isTrue h => exact byte_succ_ne_zero h
  case isFalse h =>
    intro h0
    rw [h0] at h
    exact h (byte_pos.mpr hi)

theorem moveToMRU_of_zero {i} (hi : bits i = 0) : moveToMRU bits i = bits := by
  funext j
  by_cases hj : j = i
  · subst hj; simp [hi]
  · simp [moveToMRU, hj, hi]

theorem oneMRU_moveToMRU {i} (hi : bits i ≠ 0) : OneMRU (moveToMRU bits i) := by
  intro j k hj hk
  have hji : j = i := by_contra fun hne => moveToMRU_ne_zero hne hi hj
  have hki : k = i := by_contra fun hne => moveToMRU_ne_zero hne hi hk
  rw [hji, hki]

theorem OneMRU.moveToMRU (h : OneMRU bits) (i : Fin (n + 1)) : OneMRU (moveToMRU bits i) := by
  by_cases hi : bits i = 0
  · rwa [moveToMRU_of_zero hi]
  · exact oneMRU_moveToMRU hi

theorem foldl_improve (blocks : Blocks n V) (bits : Bits n) (l : List (Fin (n + 1)))
    (best : Fin (n + 1) × UInt8) :
    (∃ i, l.foldl (improve blocks bits) best = (i, bits i) ∧
      isValidReplacement blocks i = true ∧ bits i ≠ 0) ∨
    (l.foldl (improve blocks bits) best = best ∧
      ∀ i ∈ l, isValidReplacement blocks i = true → bits i ≤ best.2) := by
  induction l generalizing best with
  | nil => right; simp
  | cons a l ih =>
    rw [List.foldl_cons, improve]
    by_cases ha : best.2 < bits a ∧ isValidReplacement blocks a = true
    · have hpos : bits a ≠ 0 := fun h0 => UInt8.not_lt_zero (h0 ▸ ha.1)
      rw [if_pos ha]
      rcases ih (a, bits a) with h | ⟨h, -⟩
      · exact .inl h
      · exact .inl ⟨a, h, ha.2, hpos⟩
    · rw [if_neg ha]
      rcases ih best with h | ⟨h, hle⟩
      · exact .inl h
      · right
        refine ⟨h, fun i hi hv => ?_⟩
        rcases List.mem_cons.mp hi with rfl | hi
        · exact UInt8.not_lt.mp fun hlt => ha ⟨hlt, hv⟩
        · exact hle i hi hv

theorem scan_cases (blocks : Blocks n V) (bits : Bits n) :
    (isValidReplacement blocks (scan blocks bits) = true ∧ bits (scan blocks bits) ≠ 0) ∨
    (scan blocks bits = 0 ∧ ∀ i, isValidReplacement blocks i = true → bits i = 0) := by
  rcases foldl_improve blocks bits (List.finRange (n + 1)) (0, 0) with ⟨i, h, hv, hb⟩ | ⟨h, hle⟩
  · left
    rw [scan, h]
    exact ⟨hv, hb⟩
  · right
    refine ⟨congrArg Prod.fst h, fun i hv => ?_⟩
    by_contra hne
    exact UInt8.not_lt.mpr (hle i (List.mem_finRange i) hv) (byte_pos.mpr hne)

theorem scan_ready (hone : OneMRU bits)
    (h : isValidReplacement blocks 0 = true ∨
      ∃ i j, i ≠ j ∧ isValidReplacement blocks i = true ∧ isValidReplacement blocks j = true) :
    isValidReplacement blocks (scan blocks bits) = true := by
  rcases scan_cases blocks bits with ⟨hv, -⟩ | ⟨h0, hz⟩
  · exact hv
  · rcases h with h | ⟨i, j, hne, hi, hj⟩
    · rwa [h0]
    · exact absurd (hone i j (hz i hi) (hz j hj)) hne

section Attempts
variable {left : Nat}

theorem attempts_last (cntlr : Option (Block V → Bool)) :
    attempts cntlr blocks 1 bits =
      .ok (scan blocks bits, moveToMRU bits (scan blocks bits)) := rfl

theorem attempts_none :
    attempts none blocks (left + 2) bits = .error
      (.error "CacheCntlr == NULL, QBS can only be used when cntlr is passed in") := rfl

variable {query : Block V → Bool}

theorem attempts_reject (h : query (blocks (scan blocks bits)) = true) :
    attempts (some query) blocks (left + 2) bits =
      attempts (some query) blocks (left + 1) (moveToMRU bits (scan blocks bits)) := by
  rw [attempts]
  simp [isInLowerLevelCache, bind, Except.bind, h]

theorem attempts_accept (h : query (blocks (scan blocks bits)) = false) :
    attempts (some query) blocks (left + 2) bits =
      .ok (scan blocks bits, moveToMRU bits (scan blocks bits)) := by
  rw [attempts]
  simp [isInLowerLevelCache, bind, Except.bind, pure, Except.pure, h]

end Attempts

theorem attempts_ready {cntlr k i bits'} (hone : OneMRU bits)
    (h : isValidReplacement blocks 0 = true ∨
      ∃ i j, i ≠ j ∧ isValidReplacement blocks i = true ∧ isValidReplacement blocks j = true)
    (hr : attempts cntlr blocks k bits = .ok (i, bits')) :
    isValidReplacement blocks i = true := by
  have hscan := scan_ready hone h
  induction k generalizing bits with
  | zero => cases hr
  | succ k ih =>
    cases k with
    | zero => cases hr; exact hscan
    | succ k =>
      cases cntlr with
      | none => cases hr
      | some query =>
        cases hq : query (blocks (scan blocks bits)) with
        | false => rw [attempts_accept hq] at hr; cases hr; exact hscan
        | true =>
          rw [attempts_reject hq] at hr
          exact ih (hone.moveToMRU _) hr (scan_ready (hone.moveToMRU _) h)

/-- Where `w` is the only valid replacement and not way 0, the attempts take `w` and way 0 in
turns. -/
def WayInTurn (query : Block V → Bool) (blocks : Blocks n V) (k : Nat) (bits : Bits n)
    (w : Fin (n + 1)) : Prop :=
  if bits w = 0 then
    2 ≤ k ∧ query (blocks 0) = true ∧ (query (blocks w) = false ∨ k % 2 = 0)
  else k = 1 ∨ query (blocks w) = false ∨ query (blocks 0) = true ∧ k % 2 = 1

theorem scan_lone (bits : Bits n) {w} (hlone : ∀ i, isValidReplacement blocks i = true ↔ i = w) :
    scan blocks bits = if bits w = 0 then 0 else w := by
  rcases scan_cases blocks bits with ⟨hv, hb⟩ | ⟨h0, hz⟩
  · have hw := (hlone _).mp hv
    rw [hw] at hb ⊢
    rw [if_neg hb]
  · rw [h0, if_pos (hz w ((hlone w).mpr rfl))]

theorem attempts_lone (query : Block V → Bool) {w} (hone : OneMRU bits)
    (hlone : ∀ i, isValidReplacement blocks i = true ↔ i = w) (hw : w ≠ 0) (k : Nat) :
    ∃ i bits', attempts (some query) blocks (k + 1) bits = .ok (i, bits') ∧
      (isValidReplacement blocks i = true ↔ WayInTurn query blocks (k + 1) bits w) := by
  have hscan := scan_lone bits hlone
  induction k generalizing bits with
  | zero =>
    refine ⟨_, _, attempts_last _, ?_⟩
    rw [hlone, hscan, WayInTurn]
    split
    case isTrue => simp [hw.symm]
    case isFalse => simp
  | succ k ih =>
    cases hq : query (blocks (scan blocks bits)) with
    | false =>
      refine ⟨_, _, attempts_accept hq, ?_⟩
      rw [hlone, hscan, WayInTurn]
      rw [hscan] at hq
      split at hq
      case isTrue hz => simp [hz, hw.symm, hq]
      case isFalse hz => simp [hz, hq]
    | true =>
      have hnext := hone.moveToMRU (scan blocks bits)
      obtain ⟨i, bits', hr, hi⟩ := ih hnext (scan_lone _ hlone)
      refine ⟨i, bits', by rwa [attempts_reject hq], hi.trans ?_⟩
      rw [WayInTurn, WayInTurn]
      rw [hscan] at hq ⊢
      by_cases hz : bits w = 0
      · -- way 0 is rejected and moves up, which pushes `w` off the MRU position
        have hb0 : bits 0 ≠ 0 := fun h0 => hw (hone w 0 hz h0)
        have hmoved : moveToMRU bits 0 w ≠ 0 := moveToMRU_ne_zero hw hb0
        grind
      · rw [if_neg hz, if_pos (moveToMRU_self bits w), if_neg hz]
        grind

theorem attempts_oneMRU {cntlr k i bits'} (hone : OneMRU bits)
    (hr : attempts cntlr blocks k bits = .ok (i, bits')) :
    OneMRU bits' := by
  induction k generalizing bits with
  | zero => cases hr
  | succ k ih =>
    cases k with
    | zero => cases hr; exact hone.moveToMRU _
    | succ k =>
      cases cntlr with
      | none => cases hr
      | some query =>
        cases hq : query (blocks (scan blocks bits)) with
        | false => rw [attempts_accept hq] at hr; cases hr; exact hone.moveToMRU _
        | true => rw [attempts_reject hq] at hr; exact ih (hone.moveToMRU _) hr

/-- When `CacheSetLRU` returns no way that is being upgraded: an invalid way is taken first; way 0
or a second valid replacement is there to fall back on; a lone valid replacement has to be the way
whose turn it is. A set without a controller has one attempt. -/
def Keeps (cntlr : Option (Block V → Bool)) (blocks : Blocks n V) (k : UInt8)
    (bits : Bits n) : Prop :=
  (∃ i, (blocks i).isValid = false) ∨
  isValidReplacement blocks 0 = true ∨
  (∃ i j, i ≠ j ∧ isValidReplacement blocks i = true ∧ isValidReplacement blocks j = true) ∨
  k = 0 ∨ (cntlr = none ∧ 2 ≤ k) ∨
  ∃ w, isValidReplacement blocks w = true ∧
    WayInTurn (cntlr.getD fun _ => false) blocks k.toNat bits w

theorem attempts_ready_iff {cntlr} {k : UInt8} (hone : OneMRU bits)
    (hfull : ∀ i, (blocks i).isValid = true) (hw : ∃ w, isValidReplacement blocks w = true) :
    (∀ i bits', attempts cntlr blocks k.toNat bits = .ok (i, bits') →
      isValidReplacement blocks i = true) ↔ Keeps cntlr blocks k bits := by
  obtain ⟨w, hw⟩ := hw
  by_cases h2 : isValidReplacement blocks 0 = true ∨
      ∃ i j, i ≠ j ∧ isValidReplacement blocks i = true ∧ isValidReplacement blocks j = true
  · refine iff_of_true (fun i bits' => attempts_ready hone h2) ?_
    rcases h2 with h | h
    · exact .inr (.inl h)
    · exact .inr (.inr (.inl h))
  · obtain ⟨h0, hpair⟩ := not_or.mp h2
    have hlone : ∀ i, isValidReplacement blocks i = true ↔ i = w := by
      intro i
      refine ⟨fun hi => ?_, fun hi => hi ▸ hw⟩
      by_contra hne
      exact hpair ⟨i, w, hne, hi, hw⟩
    have hw0 : w ≠ 0 := fun h => h0 (h ▸ hw)
    have hkeeps : Keeps cntlr blocks k bits ↔ k = 0 ∨ (cntlr = none ∧ 2 ≤ k) ∨
        WayInTurn (cntlr.getD fun _ => false) blocks k.toNat bits w := by
      simp [Keeps, h0, hfull, hlone]
    rw [hkeeps]
    have hk0 : k = 0 ↔ k.toNat = 0 := UInt8.toNat_inj.symm
    have hk2 : 2 ≤ k ↔ 2 ≤ k.toNat := UInt8.le_iff_toNat_le
    rw [hk0, hk2]
    match k.toNat, cntlr with
    | 0, _ => simp [attempts]
    | 1, none =>
      obtain ⟨i, bits', hr, hi⟩ := attempts_lone (fun _ => false) hone hlone hw0 0
      have hr' : attempts none blocks 1 bits = .ok (i, bits') := hr
      rw [forall_returned hr', hi]
      simp
    | k + 2, none => simp [attempts_none]
    | k + 1, some query =>
      obtain ⟨i, bits', hr, hi⟩ := attempts_lone query hone hlone hw0 k
      rw [forall_returned hr, hi]
      simp

end LRU

namespace RoundRobin
variable {n : Nat} {V : Type} {blocks : Blocks n V}

theorem next_val (i : Fin (n + 1)) : (next i).val = if i.val = 0 then n else i.val - 1 := by
  rw [next]
  split
  case isTrue h => simp [h]
  case isFalse h =>
    have h0 : i.val ≠ 0 := fun h0 => h (Fin.ext h0)
    rw [Fin.coe_sub_one, if_neg h, if_neg h0]

theorem iterate_next_val (i : Fin (n + 1)) {k} (hk : k ≤ i.val) :
    (next^[k] i).val = i.val - k := by
  induction k with
  | zero => simp
  | succ k ih =>
    rw [Function.iterate_succ_apply', next_val, ih (by omega), if_neg (by omega)]
    omega

theorem exists_iterate_next (i w : Fin (n + 1)) : ∃ d, next^[d + 1] i = w := by
  refine ⟨(n - w.val) + i.val, Fin.ext ?_⟩
  have hzero : (next^[i.val] i).val = 0 := by rw [iterate_next_val i le_rfl]; omega
  have hlast : (next^[i.val + 1] i).val = n := by
    rw [Function.iterate_succ_apply', next_val, if_pos hzero]
  rw [add_assoc, Function.iterate_add_apply, iterate_next_val _ (by omega), hlast]
  omega

theorem returns_of_ready {d i} (h : isValidReplacement blocks (next^[d + 1] i) = true) :
    ∃ r, getReplacementIndex blocks (d + 1) i = .ok r := by
  induction d generalizing i with
  | zero =>
    have hn : isValidReplacement blocks (next i) = true := h
    exact ⟨(i, next i), by rw [getReplacementIndex, if_pos hn]⟩
  | succ d ih =>
    rw [getReplacementIndex]
    split
    case isTrue => exact ⟨_, rfl⟩
    case isFalse => exact ih h

theorem upgrading_of_next {fuel i j k} (hi : isValidReplacement blocks (next i) = false)
    (h : getReplacementIndex blocks fuel i = .ok (j, k)) :
    isValidReplacement blocks j = false := by
  induction fuel generalizing i with
  | zero => cases h
  | succ fuel ih =>
    rw [getReplacementIndex, if_neg (by simp [hi])] at h
    cases hn : isValidReplacement blocks (next (next i)) with
    | false => exact ih hn h
    | true =>
      cases fuel with
      | zero => cases h
      | succ fuel =>
        rw [getReplacementIndex, if_pos hn] at h
        cases h
        exact hi

theorem ready_iff {i} (hw : ∃ w, isValidReplacement blocks w = true) :
    (∀ fuel j k, getReplacementIndex blocks fuel i = .ok (j, k) →
      isValidReplacement blocks j = true) ↔
    isValidReplacement blocks i = true ∧ isValidReplacement blocks (next i) = true := by
  obtain ⟨w, hw⟩ := hw
  constructor
  · intro h
    cases hn : isValidReplacement blocks (next i) with
    | true => exact ⟨h 1 i (next i) (by rw [getReplacementIndex, if_pos hn]), rfl⟩
    | false =>
      obtain ⟨d, hd⟩ := exists_iterate_next i w
      obtain ⟨⟨j, k⟩, hr⟩ := returns_of_ready (hd ▸ hw)
      exact absurd (h _ _ _ hr) (by simp [upgrading_of_next hn hr])
  · intro ⟨hi, hn⟩ fuel j k hr
    cases fuel with
    | zero => cases hr
    | succ fuel =>
      rw [getReplacementIndex, if_pos hn] at hr
      cases hr
      exact hi

end RoundRobin

/-! ## Reachable sets -/

section Invariant
variable {n : Nat} {V : Type}

/-- Under LRU at most one way is at the MRU position; before way 1 is filled the positions are the
initial ones. -/
structure Inv (s : PolicySet n V) : Prop where
  idle : ∀ i, (s.blocks i).isValid = false → (s.blocks i).cstate = .INVALID
  order : ∀ k bits, s.repl = .lru k bits →
    LRU.OneMRU bits ∨ bits = Repl.initialBits n ∧ ∀ i, i ≠ 0 → (s.blocks i).isValid = false

theorem oneMRU_of_le_one (h : n = 0) (bits : Bits n) : LRU.OneMRU bits := by
  subst h
  intro i j _ _
  exact Fin.ext (by omega)

theorem Inv.oneMRU {s : PolicySet n V} (hs : Inv s) (hfull : ∀ i, (s.blocks i).isValid = true)
    {k bits} (hr : s.repl = .lru k bits) : LRU.OneMRU bits := by
  rcases hs.order k bits hr with h | ⟨-, h⟩
  · exact h
  · refine oneMRU_of_le_one ?_ bits
    by_contra hn
    have hlast := h (Fin.last n) (by simpa [Fin.ext_iff] using hn)
    rw [hfull] at hlast
    cases hlast

theorem isValid_of_find {s : PolicySet n V} {tag i} (ht : tag ≠ invalidTag)
    (h : s.find tag = some i) : (s.blocks i).isValid = true := by
  simpa [Block.isValid, CacheSet.find_tag h] using ht

theorem initialBits_moveToMRU {blocks : Blocks n V} {i : Fin (n + 1)}
    (hrest : ∀ i, i ≠ 0 → (blocks i).isValid = false) (h : firstInvalid blocks = some i) :
    LRU.OneMRU (moveToMRU (Repl.initialBits n) i) ∨
    moveToMRU (Repl.initialBits n) i = Repl.initialBits n ∧ i = 0 := by
  by_cases hi : i = 0
  · exact .inr ⟨LRU.moveToMRU_of_zero (by simp [hi, Repl.initialBits]), hi⟩
  · left
    apply LRU.oneMRU_moveToMRU
    have h1 : i.val = 1 := by
      by_contra hne
      have hn : 1 < n + 1 := by
        omega
      have hbefore := (List.find?_eq_some_iff_getElem.mp h).2
      obtain ⟨k, hk, hki, hlt⟩ := hbefore
      have hik : i.val = k := by rw [← hki]; simp
      have := hlt 1 (by have : i.val ≠ 0 := fun h0 => hi (Fin.ext h0); omega)
      have hv : (blocks ⟨1, hn⟩).isValid = false := hrest _ (by simp [Fin.ext_iff])
      simp [hv] at this
    simp [Repl.initialBits, h1]

theorem init_inv {policy : Policy} {s : PolicySet n V} (h : Init policy s) : Inv s := by
  obtain ⟨zero, time, rfl⟩ := h
  refine ⟨fun i _ => rfl, fun k bits hr => .inr ⟨?_, fun i _ => by simp [Block.empty, Block.isValid]⟩⟩
  cases policy <;> cases hr <;> rfl

theorem Inv.order_returned {s : PolicySet n V} (hs : Inv s) {fuel : Nat}
    {cntlr : Option (Block V → Bool)} {index : Fin (n + 1)} {k : UInt8} {bits : Bits n}
    (h : s.repl.getReplacementIndex fuel cntlr s.blocks = .ok (index, .lru k bits)) :
    LRU.OneMRU bits ∨
      bits = Repl.initialBits n ∧ ∀ i, i ≠ 0 → i ≠ index ∧ (s.blocks i).isValid = false := by
  cases hrepl : s.repl with
  | lru k' bits' =>
    rw [hrepl, Repl.getReplacementIndex] at h
    obtain ⟨⟨i, b⟩, hr, he⟩ := of_map_ok h
    cases he
    rw [LRU.getReplacementIndex] at hr
    cases hi : firstInvalid s.blocks with
    | some i =>
      rw [hi] at hr
      cases hr
      rcases hs.order k bits' hrepl with hone | ⟨rfl, hrest⟩
      · exact .inl (hone.moveToMRU _)
      · rcases initialBits_moveToMRU hrest hi with hone | ⟨hb, rfl⟩
        · exact .inl hone
        · exact .inr ⟨hb, fun i hi0 => ⟨hi0, hrest i hi0⟩⟩
    | none =>
      rw [hi] at hr
      exact .inl (LRU.attempts_oneMRU (hs.oneMRU (firstInvalid_none.mp hi) hrepl) hr)
  | roundRobin | nru | mru | nmru | random =>
    rw [hrepl, Repl.getReplacementIndex] at h
    obtain ⟨_, -, he⟩ := of_map_ok h
    cases he

@[simp] theorem isValid_setData (b : Block V) (data : V) :
    (b.setData data).isValid = b.isValid := rfl

@[simp] theorem isValid_setCState (b : Block V) (cstate : CState) :
    (b.setCState cstate).isValid = b.isValid := rfl

@[simp] theorem setBlock_blocks (s : PolicySet n V) (i j : Fin (n + 1)) (b : Block V) :
    (setBlock s i b).blocks j = if j = i then b else s.blocks j := by
  simp [setBlock, update_apply]

theorem Inv.setBlock {s : PolicySet n V} (hs : Inv s) {i} {b : Block V}
    (hi : (s.blocks i).isValid = true) (hb : b.isValid = false → b.cstate = .INVALID) :
    Inv (setBlock s i b) := by
  refine ⟨fun j hj => ?_, fun k bits hr => ?_⟩
  · rw [setBlock_blocks] at hj ⊢
    split at hj
    case isTrue h => rw [if_pos h]; exact hb hj
    case isFalse h => rw [if_neg h]; exact hs.idle j hj
  · rcases hs.order k bits hr with hone | ⟨hb0, hrest⟩
    · exact .inl hone
    · refine .inr ⟨hb0, fun j hj => ?_⟩
      have hji : j ≠ i := by
        rintro rfl
        rw [hrest j hj] at hi
        cases hi
      rw [setBlock_blocks, if_neg hji]
      exact hrest j hj

theorem Inv.touch {s : PolicySet n V} (hs : Inv s) {i} (hi : (s.blocks i).isValid = true) :
    Inv { s with repl := s.repl.updateReplacementIndex i } := by
  refine ⟨hs.idle, fun k bits hr => ?_⟩
  cases hrepl : s.repl with
  | lru k' bits' =>
    simp only [hrepl, Repl.updateReplacementIndex, Repl.lru.injEq] at hr
    rw [← hr.2]
    rcases hs.order k' bits' hrepl with hone | ⟨rfl, hrest⟩
    · exact .inl (hone.moveToMRU i)
    · have hi0 : i = 0 := by
        by_contra hne
        rw [hrest i hne] at hi
        cases hi
      refine .inr ⟨LRU.moveToMRU_of_zero (by simp [hi0, Repl.initialBits]), hrest⟩
  | roundRobin | nru | mru | nmru | random =>
    rw [hrepl, Repl.updateReplacementIndex] at hr
    cases hr

theorem insert_returned {s s' : PolicySet n V} {fuel cntlr new old}
    (h : insert fuel cntlr s new = .ok (old, s')) :
    ∃ index repl, s.repl.getReplacementIndex fuel cntlr s.blocks = .ok (index, repl) ∧
      old = (if (s.blocks index).isValid then some (s.blocks index) else none) ∧
      s' = { setBlock s index new with repl } := by
  obtain ⟨⟨index, repl⟩, hr, h⟩ := of_bind_ok h
  cases h
  exact ⟨index, repl, hr, rfl, rfl⟩

theorem step_inv {s s' : PolicySet n V} (hs : Inv s) (h : Step s s') : Inv s' := by
  cases h with
  | insert fuel cntlr tag data old ht h =>
    obtain ⟨index, repl, hr, -, rfl⟩ := insert_returned h
    have hnew : (Block.fresh tag data).isValid = true := by
      simpa [Block.isValid, Block.fresh] using ht
    refine ⟨fun j hj => ?_, fun k bits hk => ?_⟩
    · simp only [setBlock_blocks] at hj ⊢
      split at hj
      case isTrue => rw [hnew] at hj; cases hj
      case isFalse h => rw [if_neg h]; exact hs.idle j hj
    · rw [show repl = .lru k bits from hk] at hr
      rcases hs.order_returned hr with hone | ⟨hb, hrest⟩
      · exact .inl hone
      · refine .inr ⟨hb, fun j hj => ?_⟩
        obtain ⟨hji, hjv⟩ := hrest j hj
        simpa [hji] using hjv
  | access tag i data ht h update_replacement =>
    have hi := isValid_of_find ht h
    have hset : Inv (setBlock s i ((s.blocks i).setData data)) :=
      hs.setBlock hi fun hv => by rw [isValid_setData, hi] at hv; cases hv
    cases update_replacement with
    | false => exact hset
    | true => exact hset.touch (by simpa using hi)
  | invalidate tag i ht h => exact hs.setBlock (isValid_of_find ht h) fun _ => rfl
  | setCState tag i cstate ht h =>
    have hi := isValid_of_find ht h
    exact hs.setBlock hi fun hv => by rw [isValid_setCState, hi] at hv; cases hv

theorem runs_inv {policy : Policy} {s : PolicySet n V} (h : Runs policy s) : Inv s :=
  Reachable.invariant (P := Inv) (fun _ => init_inv) (fun _ _ => step_inv) h

end Invariant

/-! ## Victims -/

section Victims
variable {n : Nat} {V : Type}

/-- Whatever way `getReplacementIndex` returns is not being upgraded, and so no insertion
evicts such a line. -/
structure ReadyVictims (cntlr : Option (Block V → Bool)) (s : PolicySet n V) : Prop where
  victim : ∀ fuel index repl,
    s.repl.getReplacementIndex fuel cntlr s.blocks = .ok (index, repl) →
      index.val < n + 1 ∧ (s.blocks index).cstate ≠ .SHARED_UPGRADING
  evicted : ∀ fuel new old s', insert fuel cntlr s new = .ok (some old, s') →
    old.cstate ≠ .SHARED_UPGRADING

theorem readyVictims_iff {cntlr} {s : PolicySet n V} :
    ReadyVictims cntlr s ↔ ∀ fuel index repl,
      s.repl.getReplacementIndex fuel cntlr s.blocks = .ok (index, repl) →
        isValidReplacement s.blocks index = true := by
  constructor
  · intro h fuel index repl hr
    simpa [isValidReplacement] using (h.victim fuel index repl hr).2
  · intro h
    refine ⟨fun fuel index repl hr => ⟨index.isLt, ?_⟩, fun fuel new old s' hi => ?_⟩
    · simpa [isValidReplacement] using h fuel index repl hr
    · obtain ⟨index, repl, hr, hold, -⟩ := insert_returned hi
      split at hold
      case isTrue => cases hold; simpa [isValidReplacement] using h fuel index repl hr
      case isFalse => cases hold

/-- Which states keep their pending upgrades, policy by policy. LRU falls back on index 0
unchecked, and round robin checks the way below the one it returns. -/
def Keeps (cntlr : Option (Block V → Bool)) (s : PolicySet n V) : Prop :=
  match s.repl with
  | .lru k bits => LRU.Keeps cntlr s.blocks k bits
  | .roundRobin index =>
    isValidReplacement s.blocks index = true ∧
      isValidReplacement s.blocks (RoundRobin.next index) = true
  | .nru _ | .mru _ | .nmru _ _ | .random _ => True

theorem Inv.firstInvalid_ready {s : PolicySet n V} (hs : Inv s) {i}
    (h : firstInvalid s.blocks = some i) : isValidReplacement s.blocks i = true := by
  simp [isValidReplacement, hs.idle i (firstInvalid_some h)]

theorem forall_map_returned {α β : Type} {x : Except Stop (Fin (n + 1) × α)} {f : α → β}
    {P : Fin (n + 1) → Prop} :
    (∀ i b, x.map (Prod.map id f) = .ok (i, b) → P i) ↔ ∀ i a, x = .ok (i, a) → P i := by
  constructor
  · intro h i a hx
    exact h i (f a) (by rw [hx]; rfl)
  · intro h i b hx
    obtain ⟨⟨j, a⟩, ha, he⟩ := of_map_ok hx
    cases he
    exact h j a ha

theorem LRU.ready_iff {s : PolicySet n V} (hs : Inv s) {k bits} (hr : s.repl = .lru k bits)
    (hw : ∃ w, isValidReplacement s.blocks w = true) {cntlr} :
    (∀ i bits', LRU.getReplacementIndex cntlr s.blocks k bits = .ok (i, bits') →
      isValidReplacement s.blocks i = true) ↔ LRU.Keeps cntlr s.blocks k bits := by
  cases hi : firstInvalid s.blocks with
  | some i =>
    have hkeeps : LRU.Keeps cntlr s.blocks k bits := .inl ⟨i, firstInvalid_some hi⟩
    simp only [LRU.getReplacementIndex, hi, hkeeps, iff_true]
    intro j bits' hj
    cases hj
    exact hs.firstInvalid_ready hi
  | none =>
    have hfull := firstInvalid_none.mp hi
    simp only [LRU.getReplacementIndex, hi]
    exact LRU.attempts_ready_iff (hs.oneMRU hfull hr) hfull hw

theorem NRU.ready {s : PolicySet n V} (hs : Inv s) {r r' : NRU n} {i}
    (h : r.getReplacementIndex s.blocks = .ok (i, r')) :
    isValidReplacement s.blocks i = true := by
  rw [NRU.getReplacementIndex] at h
  cases hi : firstInvalid s.blocks with
  | some j => rw [hi] at h; cases h; exact hs.firstInvalid_ready hi
  | none =>
    rw [hi] at h
    obtain ⟨_, hp, h⟩ := of_bind_ok h
    cases h
    exact pointerSearch_ready hp

theorem NMRU.ready {s : PolicySet n V} (hs : Inv s) {bits p r i}
    (h : NMRU.getReplacementIndex s.blocks bits p = .ok (i, r)) :
    isValidReplacement s.blocks i = true := by
  rw [NMRU.getReplacementIndex] at h
  cases hi : firstInvalid s.blocks with
  | some j => rw [hi] at h; cases h; exact hs.firstInvalid_ready hi
  | none =>
    rw [hi] at h
    obtain ⟨_, hp, h⟩ := of_bind_ok h
    cases h
    exact pointerSearch_ready hp

theorem MRU.ready {s : PolicySet n V} (hs : Inv s) {bits bits' i}
    (h : MRU.getReplacementIndex s.blocks bits = .ok (i, bits')) :
    isValidReplacement s.blocks i = true := by
  rw [MRU.getReplacementIndex] at h
  cases hi : firstInvalid s.blocks with
  | some j => rw [hi] at h; cases h; exact hs.firstInvalid_ready hi
  | none =>
    rw [hi] at h
    cases ht : MRU.target s.blocks bits with
    | none => rw [ht] at h; cases h
    | some j =>
      rw [ht] at h
      cases h
      obtain ⟨_, _, hj⟩ := List.exists_of_findSome?_eq_some ht
      have hv := List.find?_some hj
      exact (Bool.and_eq_true_iff.mp hv).2

theorem Random.ready {s : PolicySet n V} (hs : Inv s) {fuel seed seed' i}
    (h : Random.getReplacementIndex s.blocks fuel seed = .ok (i, seed')) :
    isValidReplacement s.blocks i = true := by
  induction fuel generalizing seed with
  | zero => cases h
  | succ fuel ih =>
    rw [Random.getReplacementIndex] at h
    cases hi : firstInvalid s.blocks with
    | some j => rw [hi] at h; cases h; exact hs.firstInvalid_ready hi
    | none =>
      rw [hi] at h
      dsimp only at h
      split at h
      case isTrue hv => cases h; exact hv
      case isFalse => exact ih h

/-- **Victims and pending upgrades**: in every reachable set with a way that is not being
upgraded, the policies other than LRU and round robin never give up a way that is, and
these two do not exactly where `Keeps` says so. -/
theorem victims_ready_iff {policy : Policy} {s : PolicySet n V} (h : Runs policy s)
    (hw : ∃ w, (s.blocks w).cstate ≠ .SHARED_UPGRADING) (cntlr : Option (Block V → Bool)) :
    ReadyVictims cntlr s ↔ Keeps cntlr s := by
  have hs := runs_inv h
  have hw : ∃ w, isValidReplacement s.blocks w = true := by simpa [isValidReplacement] using hw
  rw [readyVictims_iff, Keeps]
  cases hr : s.repl with
  | lru k bits =>
    simp only [Repl.getReplacementIndex, forall_map_returned]
    rw [← LRU.ready_iff hs hr hw]
    exact ⟨fun h => h 0, fun h _ => h⟩
  | roundRobin index =>
    simp only [Repl.getReplacementIndex, forall_map_returned]
    exact RoundRobin.ready_iff hw
  | nru r =>
    simp only [Repl.getReplacementIndex, forall_map_returned, iff_true]
    exact fun _ _ _ => NRU.ready hs
  | mru bits =>
    simp only [Repl.getReplacementIndex, forall_map_returned, iff_true]
    exact fun _ _ _ => MRU.ready hs
  | nmru bits p =>
    simp only [Repl.getReplacementIndex, forall_map_returned, iff_true]
    exact fun _ _ _ => NMRU.ready hs
  | random seed =>
    simp only [Repl.getReplacementIndex, forall_map_returned, iff_true]
    exact fun _ _ _ => Random.ready hs

/-- The set after an insertion that returns. -/
def inserted (s : PolicySet n V) (tag : IntPtr) (data : V) : PolicySet n V :=
  match insert 1 none s (.fresh tag data) with
  | .ok (_, s') => s'
  | .error _ => s

/-- Two ways filled with lines 1 and 2, and an upgrade of line 1, which went to `way`. -/
def upgrading (policy : Policy) (way : Fin 2) : PolicySet 1 Unit :=
  let s := inserted (inserted ⟨fun _ => .empty (), .create 1 0 policy⟩ 1 ()) 2 ()
  setBlock s way ((s.blocks way).setCState .SHARED_UPGRADING)

theorem runs_upgrading {policy way} (h : policy = .LRU ∧ way = 0 ∨
    policy = .ROUND_ROBIN ∧ way = 1) : Runs policy (upgrading policy way) := by
  have h0 : Runs policy (⟨fun _ => .empty (), .create 1 0 policy⟩ : PolicySet 1 Unit) :=
    .init ⟨(), 0, rfl⟩
  rcases h with ⟨rfl, rfl⟩ | ⟨rfl, rfl⟩
  all_goals
    have h1 := h0.step (.insert 1 none 1 () none (by decide) rfl)
    have h2 := h1.step (.insert 1 none 2 () none (by decide) rfl)
    exact h2.step (.setCState 1 _ .SHARED_UPGRADING (by decide) (by decide))

/-- Line 1 is lost while its upgrade is pending, though line 2 could have been replaced. -/
theorem upgrade_lost :
    (∃ s : PolicySet 1 Unit, Runs .LRU s ∧ isValidReplacement s.blocks 1 = true ∧
      ¬ ReadyVictims none s) ∧
    ∃ s : PolicySet 1 Unit, Runs .ROUND_ROBIN s ∧ isValidReplacement s.blocks 0 = true ∧
      ¬ ReadyVictims none s := by
  refine ⟨⟨upgrading .LRU 0, runs_upgrading (.inl ⟨rfl, rfl⟩), by decide, fun h => ?_⟩,
    upgrading .ROUND_ROBIN 1, runs_upgrading (.inr ⟨rfl, rfl⟩), by decide, fun h => ?_⟩
  all_goals exact h.evicted 1 (.fresh 3 ()) _ _ rfl rfl

theorem victims_ready_iff_upgrading :
    ReadyVictims none (upgrading .LRU 0) ↔ Keeps none (upgrading .LRU 0) :=
  victims_ready_iff (runs_upgrading (.inl ⟨rfl, rfl⟩)) ⟨1, by decide⟩ none

end Victims
end Sniper.Memory.Replacement
