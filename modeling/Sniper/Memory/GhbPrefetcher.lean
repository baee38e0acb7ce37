import Sniper.Lib.Log
import Sniper.Memory.SetAssoc

/-! # The global history buffer

`GhbPrefetcher`: a ring of the deltas between the addresses, linked by the delta that came before
each, with a table of the latest entry for a delta. Entries of the table and of the ring carry a
generation of two bits, which tells if the ring's entry was overwritten. -/
namespace Sniper.Memory.Ghb
open SetAssoc (IntPtr)

/-- `INT64_MAX`. -/
def INVALID_DELTA : BitVec 64 := .intMax 64

/-- `UINT32_MAX`. -/
def INVALID_INDEX : Nat := 2 ^ 32 - 1

def INVALID_ADDRESS : IntPtr := .allOnes 64

structure GHBEntry where
  nextIndex : Nat
  delta : BitVec 64
  generation : Nat
  deriving DecidableEq

structure TableEntry where
  ghbIndex : Nat
  delta : BitVec 64
  generation : Nat
  deriving DecidableEq

/-- The configuration; the size of the buffer is a `UInt32`. -/
structure GhbConfig where
  m_prefetchWidth : Nat
  m_prefetchDepth : Nat
  m_ghbSize : Nat
  m_tableSize : Nat
  ghb_lt : m_ghbSize < 2 ^ 32

structure GhbPrefetcher where
  m_lastAddress : IntPtr
  m_ghbHead : Nat
  m_generation : Nat
  m_ghb : List GHBEntry
  m_tableHead : Nat
  m_ghbTable : List TableEntry
  deriving DecidableEq

/-- What the constructors of the entries set. -/
def GHBEntry.create : GHBEntry := ⟨INVALID_INDEX, INVALID_DELTA, 0⟩

def TableEntry.create : TableEntry := ⟨INVALID_INDEX, INVALID_DELTA, 0⟩

namespace GhbPrefetcher
variable (cfg : GhbConfig) (s : GhbPrefetcher)

def create : GhbPrefetcher :=
  ⟨INVALID_ADDRESS, 0, 0, .replicate cfg.m_ghbSize .create, 0, .replicate cfg.m_tableSize .create⟩

/-- The search of the table, up to the first entry that is not used. -/
def findEntry (delta : BitVec 64) : Option (Nat × TableEntry) :=
  let i := s.m_ghbTable.findIdx fun entry => entry.delta = INVALID_DELTA || entry.delta = delta
  match s.m_ghbTable[i]? with
  | some entry => if entry.delta = delta then some (i, entry) else none
  | none => none

/-- If the table still points to the current generation; `none` is an access out of range. -/
def isLive (entry : TableEntry) : Option Bool :=
  s.m_ghb[entry.ghbIndex]?.map fun slot => entry.generation = slot.generation

/-- The index of the replay, in 32 bits. -/
def slotAt (ghbIndex depth : Nat) : Nat := (ghbIndex + depth) % 2 ^ 32 % cfg.m_ghbSize

/-- The inner loop of `getNextAddress`, with the rest of `m_prefetchDepth`. -/
def replay (ghbIndex : Nat) : Nat → Nat → IntPtr → List IntPtr → Option (List IntPtr)
  | 0, _, _, prefetchList => some prefetchList
  | left + 1, depth, newAddress, prefetchList =>
    match s.m_ghb[slotAt cfg ghbIndex depth]? with
    | none => none
    | some slot =>
      if slot.delta = INVALID_DELTA then some prefetchList
      else
        let newAddress := newAddress + slot.delta
        replay ghbIndex left (depth + 1) newAddress
          (if newAddress ∈ prefetchList then prefetchList else prefetchList ++ [newAddress])

/-- Where a link leads, if it is not taken for overwritten. -/
def follow (ghbIndex nextIndex : Nat) : Nat :=
  if (ghbIndex < nextIndex ∨ s.m_ghbHead < ghbIndex) ∧ nextIndex < s.m_ghbHead then INVALID_INDEX
  else nextIndex

/-- The outer loop, with the rest of `m_prefetchWidth`. -/
def walk (currentAddress : IntPtr) : Nat → Nat → List IntPtr → Option (List IntPtr)
  | 0, _, prefetchList => some prefetchList
  | left + 1, ghbIndex, prefetchList =>
    if ghbIndex = INVALID_INDEX then some prefetchList
    else
      match s.replay cfg ghbIndex cfg.m_prefetchDepth 0 currentAddress prefetchList,
          s.m_ghb[ghbIndex]? with
      | some prefetchList, some slot =>
        walk currentAddress left (s.follow ghbIndex slot.nextIndex) prefetchList
      | _, _ => none

/-- The addresses for the current delta. -/
def prefetch (currentAddress : IntPtr) (delta : BitVec 64) : Option (List IntPtr) :=
  match s.findEntry delta with
  | none => some []
  | some (_, entry) =>
    match s.isLive entry with
    | none => none
    | some false => some []
    | some true => s.walk cfg currentAddress cfg.m_prefetchWidth entry.ghbIndex []

/-- The entry for the delta before the one that was just added. -/
def updateTable (prevDelta : BitVec 64) : Option GhbPrefetcher :=
  if prevDelta = INVALID_DELTA then some s
  else
    match s.findEntry prevDelta with
    | some (i, entry) => (s.isLive entry).map fun live =>
      { s with
        m_ghb := s.m_ghb.modify s.m_ghbHead fun slot =>
          { slot with nextIndex := if live then entry.ghbIndex else INVALID_INDEX }
        m_ghbTable := s.m_ghbTable.set i
          { entry with ghbIndex := s.m_ghbHead, generation := s.m_generation } }
    | none =>
      if s.m_tableHead < s.m_ghbTable.length then
        some { s with
          m_ghbTable := s.m_ghbTable.set s.m_tableHead ⟨s.m_ghbHead, prevDelta, s.m_generation⟩
          m_tableHead := (s.m_tableHead + 1) % cfg.m_tableSize }
      else none

def advance : GhbPrefetcher :=
  if s.m_ghbHead + 1 = cfg.m_ghbSize then
    { s with m_ghbHead := 0, m_generation := (s.m_generation + 1) % 4 }
  else { s with m_ghbHead := s.m_ghbHead + 1 }

/-- The new delta is added to the buffer and the table. -/
def record (delta : BitVec 64) : Option GhbPrefetcher :=
  if s.m_ghbHead < s.m_ghb.length then
    let s := { s with m_ghb := s.m_ghb.set s.m_ghbHead ⟨INVALID_INDEX, delta, s.m_generation⟩ }
    let prevHead := if 0 < s.m_ghbHead then s.m_ghbHead - 1 else cfg.m_ghbSize - 1
    match s.m_ghb[prevHead]? with
    | none => none
    | some prev => (s.updateTable cfg prev.delta).map fun s => s.advance cfg
  else none

/-- `GhbPrefetcher::getNextAddress`; `none` is an access out of range. -/
def getNextAddress (currentAddress : IntPtr) : Option (List IntPtr × GhbPrefetcher) :=
  if s.m_lastAddress = INVALID_ADDRESS then some ([], { s with m_lastAddress := currentAddress })
  else
    let delta := currentAddress - s.m_lastAddress
    -- The search and the walk do not read `m_lastAddress`.
    match s.prefetch cfg currentAddress delta,
        { s with m_lastAddress := currentAddress }.record cfg delta with
    | some prefetchList, some s => some (prefetchList, s)
    | _, _ => none

/-- The prefetcher after these addresses. -/
def run (addresses : List IntPtr) : Option GhbPrefetcher :=
  addresses.foldlM (fun s address => (s.getNextAddress cfg address).map Prod.snd) (create cfg)

/-- What the call with the last address returns. -/
def returned (before : List IntPtr) (a : IntPtr) : Option (List IntPtr) :=
  (run cfg before).bind fun s => (s.getNextAddress cfg a).map Prod.fst

end GhbPrefetcher

end Sniper.Memory.Ghb
