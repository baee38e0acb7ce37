import Sniper.Tracing.AddressClusters

/-! # Counting accesses

`StrideTable::lookupAndUpdate` counts an access for its instruction and address, for its path, and
in the order of addresses of its instruction; `StrideTable::write` reports these counts and makes
the frequencies of instructions and addresses from the orders. -/
namespace Sniper.Tracing.AccessCounts
open Lib.SortedMap Lib.Simulation Clustering Function

/-- `typeCount[1]` counts loads, `typeCount[0]` stores. -/
@[ext]
structure DataInfo where
  typeCount : Bool → UInt32
  total_access : UInt32

namespace DataInfo

def new (access_type : Bool) : DataInfo :=
  ⟨update (fun _ => 0) access_type 1, 1⟩

/-- `incrTypeCount` and `incrTotalCount`. -/
def incr (dataInfo : DataInfo) (access_type : Bool) : DataInfo where
  typeCount := update dataInfo.typeCount access_type (dataInfo.typeCount access_type + 1)
  total_access := dataInfo.total_access + 1

end DataInfo

structure Call where
  access_type : Bool
  eip : UInt64
  addr : UInt64
  path : Text

/-- The stride clusters are those of `strides`, which has the keys of the table too. -/
structure AccessTable where
  strides : StrideTable
  table : List (Text × List (Text × DataInfo))
  countByNameInfo : List (Text × UInt32)
  total : UInt32

def updateAdd2data (add2data : List (Text × DataInfo)) (haddr : Text) (access_type : Bool) :
    List (Text × DataInfo) :=
  match find haddr add2data with
  | some dataInfo => assign haddr (dataInfo.incr access_type) add2data
  | none => assign haddr (.new access_type) add2data

def updateTable (table : List (Text × List (Text × DataInfo))) (hindex haddr : Text)
    (access_type : Bool) : List (Text × List (Text × DataInfo)) :=
  match find hindex table with
  | some add2data => assign hindex (updateAdd2data add2data haddr access_type) table
  | none => assign hindex [(haddr, .new access_type)] table

def countPath (countByNameInfo : List (Text × UInt32)) (path : Text) : List (Text × UInt32) :=
  match find path countByNameInfo with
  | some count => assign path (count + 1) countByNameInfo
  | none => assign path 1 countByNameInfo

def lookupAndUpdate (s : AccessTable) (call : Call) : Except String AccessTable :=
  (Clustering.lookupAndUpdate s.strides (call.eip, call.addr)).map fun strides => {
    strides := strides
    table := updateTable s.table (hex call.eip) (hex call.addr) call.access_type
    countByNameInfo := countPath s.countByNameInfo call.path
    total := s.total + 1 }

/-- The table after a sequence of calls. -/
def record (calls : List Call) : Except String AccessTable :=
  calls.foldlM lookupAndUpdate ⟨⟨[], []⟩, [], [], 0⟩

/-! ### The reports -/

/-- `Count::setCount`. -/
def setCount (count : Count) (strideOrder : StrideOrder) : Count :=
  { count with count := count.count + strideOrder.count }

/-- The instructions, each of which comes once; there are none when the file of the orders cannot
be opened. -/
def uniqueEIP (is_open : Bool) (s : StrideTable) : List (Text × Count) :=
  if is_open then s.strideClusterInfo.map fun e => (e.1, e.2.foldl setCount ⟨1, -1⟩) else []

structure Reports where
  pcBasedCluster : List ((Text × Text) × DataInfo)
  eipFreq : List (Text × UInt32)
  addrFreq : List (Text × UInt32)
  countByName : List (Text × UInt32)
  total : UInt32

def pairs (table : List (Text × List (Text × DataInfo))) : List ((Text × Text) × DataInfo) :=
  table.flatMap fun e => e.2.map fun e' => ((e.1, e'.1), e'.2)

def write (is_open : Bool) (s : AccessTable) : Except String Reports :=
  (Clustering.write is_open s.strides).map fun output => {
    pcBasedCluster := pairs s.table
    eipFreq := (uniqueEIP is_open s.strides).map fun e => (e.1, e.2.count)
    addrFreq := output.lines.map fun line => (line.address, line.frequency)
    countByName := s.countByNameInfo
    total := s.total }

/-! ### What the reports should be -/

/-- A report has a line for each key, with the number of times that the key comes. -/
structure Tells {K : Type} [BEq K] (report : List (K × UInt32)) (seen : List K) :
    Prop where
  keys : ∀ k, k ∈ report.map Prod.fst ↔ k ∈ seen
  counts : ∀ line ∈ report, line.2.toNat = seen.count line.1

/-- The sum of the counts of a report. -/
def sumOf {K : Type} (report : List (K × UInt32)) : ℕ :=
  (report.map fun line => line.2.toNat).sum

def pairOf (call : Call) : Text × Text := (hex call.eip, hex call.addr)

def totals (pcBasedCluster : List ((Text × Text) × DataInfo)) : List ((Text × Text) × UInt32) :=
  pcBasedCluster.map fun line => (line.1, line.2.total_access)

structure Agree (calls : List Call) (reports : Reports) : Prop where
  pairs : Tells (totals reports.pcBasedCluster) (calls.map pairOf)
  types : ∀ line ∈ reports.pcBasedCluster, line.2.total_access.toNat =
    (line.2.typeCount true).toNat + (line.2.typeCount false).toNat
  pcs : Tells reports.eipFreq (calls.map fun call => hex call.eip)
  addresses : Tells reports.addrFreq (calls.map fun call => hex call.addr)
  sums : sumOf (totals reports.pcBasedCluster) = calls.length ∧
    sumOf reports.eipFreq = calls.length ∧ sumOf reports.addrFreq = calls.length ∧
    sumOf reports.countByName = calls.length

/-! ### Counting instructions -/

section Instructions
variable {s s' : StrideTable}

theorem setStride_count {order order' haddr} (h : setStride order haddr = .ok order')
    (count : Count) :
    (order'.foldl setCount count).count = (order.foldl setCount count).count + 1 := by
  rw [setStride.eq_def] at h
  split at h
  · cases h
  · rename_i back hback
    have horder : order = order.dropLast ++ [back] :=
      (List.dropLast_append_getLast? back hback).symm
    obtain rfl := Except.ok.inj h
    split
    · rw [List.foldl_append]
      conv_rhs => rw [horder, List.foldl_append]
      exact (UInt32.add_assoc ..).symm
    · rw [List.foldl_append]
      rfl

/-- The order of an instruction counts its accesses, and starts at one. -/
structure Orders (s : StrideTable) (eips : List Text) : Prop where
  keys : ∀ k, k ∈ s.table ↔ k ∈ eips
  counts : ∀ e ∈ s.strideClusterInfo,
    (e.2.foldl setCount ⟨1, -1⟩).count = 1 + UInt32.ofNat (eips.count e.1)

theorem ofNat_count_concat {K : Type} [BEq K] [LawfulBEq K] [DecidableEq K] (l : List K) (a b : K) :
    UInt32.ofNat ((l ++ [a]).count b) = UInt32.ofNat (l.count b) + if a = b then 1 else 0 := by
  by_cases hab : a = b <;> simp [hab]

theorem Orders.step {eips texts access} (h : Orders s eips) (hs : Holds s texts)
    (hstep : Clustering.lookupAndUpdate s access = .ok s') :
    Orders s' (eips ++ [hex access.1]) := by
  rw [Clustering.lookupAndUpdate] at hstep
  split at hstep
  · rename_i hin
    split at hstep
    · cases hstep
    · rename_i order hfind
      obtain ⟨order', horder, hstep⟩ := of_bind_ok hstep
      obtain rfl := Except.ok.inj hstep
      refine ⟨fun k => ?_, fun e he => ?_⟩
      · rw [h.keys, List.mem_append, List.mem_singleton]
        constructor
        · exact .inl
        · rintro (hk | rfl)
          · exact hk
          · exact (h.keys _).mp hin
      · rw [ofNat_count_concat, ← UInt32.add_assoc]
        rcases hs.sorted.mem_assign.mp he with rfl | ⟨he, hne⟩
        · rw [if_pos rfl, setStride_count horder,
            h.counts _ (hs.sorted.find_eq_some_iff.mp hfind)]
        · rw [if_neg (Ne.symm hne), h.counts e he, UInt32.add_zero]
  · rename_i hnotin
    obtain rfl := Except.ok.inj hstep
    refine ⟨fun k => ?_, fun e he => ?_⟩
    · rw [List.mem_cons, h.keys, List.mem_append, List.mem_singleton, or_comm]
    · rw [ofNat_count_concat, ← UInt32.add_assoc]
      rcases hs.sorted.mem_assign.mp he with rfl | ⟨he, hne⟩
      · have hnone : eips.count (hex access.1) = 0 :=
          List.count_eq_zero.mpr fun hmem => hnotin ((h.keys _).mpr hmem)
        rw [if_pos rfl, hnone]
        rfl
      · rw [if_neg (Ne.symm hne), h.counts e he, UInt32.add_zero]

end Instructions

/-! ### What has been counted -/

structure Counted (s : AccessTable) (calls : List Call) : Prop where
  holds : Holds s.strides (calls.map fun call => hex call.addr)
  orders : Orders s.strides (calls.map fun call => hex call.eip)

theorem Counted.step {s s' calls call} (h : Counted s calls)
    (hstep : lookupAndUpdate s call = .ok s') : Counted s' (calls ++ [call]) := by
  obtain ⟨strides, hstrides, hholds⟩ := lookupAndUpdate_holds h.holds (call.eip, call.addr)
  obtain ⟨strides', hstrides', rfl⟩ := of_map_ok hstep
  obtain rfl := Except.ok.inj (hstrides.symm.trans hstrides')
  refine ⟨?_, ?_⟩
  · rw [List.map_append]
    exact hholds
  · rw [List.map_append]
    exact h.orders.step h.holds hstrides

theorem counted_record {s calls} (h : record calls = .ok s) :
    Counted s calls := by
  refine foldlM_history (P := Counted) (fun _ _ _ _ => Counted.step) ?_ h
  have hnil : ∀ {K V : Type} [LinearOrder K], Sorted ([] : List (K × V)) := List.Pairwise.nil
  refine ⟨⟨hnil, ?_, ?_, ?_⟩, ?_, ?_⟩ <;> simp

/-- Where the reports are written, every instruction has been counted once too often. -/
theorem pc_overcounted {s calls reports} (hs : record calls = .ok s)
    (hw : write true s = .ok reports) (call : Call) (h : call ∈ calls) :
    (hex call.eip, 1 + UInt32.ofNat ((calls.map fun call => hex call.eip).count (hex call.eip))) ∈
      reports.eipFreq := by
  obtain ⟨hholds, horders⟩ := counted_record hs
  obtain ⟨output, -, rfl⟩ := of_map_ok hw
  obtain ⟨e, he, hkey⟩ := List.mem_map.mp ((hholds.keys _).mp ((horders.keys (hex call.eip)).mpr
    (List.mem_map.mpr ⟨call, h, rfl⟩)))
  rw [← hkey, ← horders.counts e he]
  exact List.mem_map.mpr ⟨_, List.mem_map.mpr ⟨e, he, rfl⟩, rfl⟩

/-- The reports do not agree with the calls, whatever these are. -/
theorem reports_disagree (is_open : Bool) (calls : List Call) :
    ¬ ∃ reports, (record calls >>= write is_open) = .ok reports ∧ Agree calls reports := by
  rintro ⟨reports, hrun, hagree⟩
  obtain ⟨s, hs, hw⟩ := of_bind_ok hrun
  cases is_open with
  | false => cases hw
  | true =>
    cases calls with
    | nil =>
      obtain rfl := Except.ok.inj hs
      cases hw
    | cons call rest =>
      have hline := pc_overcounted hs hw call (List.mem_cons_self ..)
      have hcount := hagree.pcs.counts _ hline
      simp only [UInt32.toNat_add, UInt32.toNat_ofNat', UInt32.toNat_one] at hcount
      omega

/-- Two accesses of one instruction are reported as three. -/
theorem accesses_overcounted : ∃ reports,
    (record [⟨true, 0x400, 0x10, []⟩, ⟨true, 0x400, 0x14, []⟩] >>= write true) = .ok reports ∧
      reports.eipFreq = [("400".toList, 3)] ∧
      ¬ Agree [⟨true, 0x400, 0x10, []⟩, ⟨true, 0x400, 0x14, []⟩] reports := by
  refine ⟨_, rfl, rfl, fun h => ?_⟩
  have hcount := h.pcs.counts ("400".toList, 3) (List.mem_singleton.mpr rfl)
  cases hcount

end Sniper.Tracing.AccessCounts
