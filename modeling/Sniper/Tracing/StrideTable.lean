import Mathlib.Data.String.Basic
import Sniper.Lib.SortedMap
import Sniper.Lib.Simulation

/-! # The stride table

Which addresses each instruction has accessed, as `StrideTable::lookupAndUpdate` records them, and
the clusters that `StrideTable::write` makes of the addresses. A string is the list of its
characters.
-/
namespace Sniper.Tracing.Clustering
open Lib.SortedMap

abbrev Text := List Char

/-! ### Numbers as text -/

/-- `ss << std::hex << number`. -/
def hex (number : UInt64) : Text := Nat.toDigits 16 number.toNat

def digitValue (c : Char) : Nat := if c.isDigit then c.toNat - 48 else c.toNat - 87

/-- The number that the digits stand for, after the ones read so far. -/
def readDigits (digits : Text) (number : Nat) : Nat :=
  digits.foldl (fun number c => 16 * number + digitValue c) number

/-- `ss >> number` into an `int64_t`, of text that is a number: a number that is too large is read
as the largest one. -/
def readHex : Text → Nat
  | '0' :: 'x' :: digits => min (readDigits digits 0) (2 ^ 63 - 1)
  | digits => min (readDigits digits 0) (2 ^ 63 - 1)

/-- `diff` of two addresses. -/
def diff (addr next_addr : Text) : Int :=
  let diff := (readHex next_addr : Int) - readHex addr
  if diff < 0 then -1 * diff else diff

/-! ### Recording accesses -/

structure StrideOrder where
  address : Text
  count : UInt32

structure StrideTable where
  table : List Text
  strideClusterInfo : List (Text × List StrideOrder)

/-- `StrideCluster::setStride`: an address that comes again is counted. -/
def setStride (strideOrderList : List StrideOrder) (haddr : Text) :
    Except String (List StrideOrder) :=
  match strideOrderList.getLast? with
  | none => .error "back of an empty vector"
  | some back =>
    .ok (if haddr = back.address then
      strideOrderList.dropLast ++ [{ back with count := back.count + 1 }]
    else strideOrderList ++ [⟨haddr, 1⟩])

def lookupAndUpdate (s : StrideTable) (access : UInt64 × UInt64) : Except String StrideTable :=
  let hindex := hex access.1
  let haddr := hex access.2
  if hindex ∈ s.table then
    match find hindex s.strideClusterInfo with
    | none => .error "EIP is not here"
    | some strideCluster =>
      setStride strideCluster haddr >>= fun strideCluster =>
      .ok { s with strideClusterInfo := assign hindex strideCluster s.strideClusterInfo }
  else
    .ok {
      table := hindex :: s.table
      strideClusterInfo := assign hindex [⟨haddr, 1⟩] s.strideClusterInfo }

/-- The table after a sequence of accesses, each an instruction and an address. -/
def record (accesses : List (UInt64 × UInt64)) : Except String StrideTable :=
  accesses.foldlM lookupAndUpdate ⟨[], []⟩

/-! ### Collecting addresses -/

structure Count where
  count : UInt32
  cluster : Int

/-- One address of the loop that collects them. -/
def countAddr (uniqueAddr : List (Text × Count)) (address : Text) : List (Text × Count) :=
  match find address uniqueAddr with
  | none => assign address ⟨1, -1⟩ uniqueAddr
  | some count => assign address { count with count := count.count + 1 } uniqueAddr

/-- The distinct addresses; there are none when the file of the orders cannot be opened. -/
def uniqueAddr (is_open : Bool) (s : StrideTable) : List (Text × Count) :=
  if is_open then
    ((s.strideClusterInfo.flatMap Prod.snd).map StrideOrder.address).foldl countAddr []
  else []

/-! ### Clusters -/

/-- What the loop over the addresses keeps. -/
structure Scan where
  bag : List Text
  clusters : List (List Text)
  prev : Int

/-- One address of the loop, with the difference to the next one. -/
def visit (s : Scan) (addr : Text) (diff : Int) : Scan :=
  if s.prev = -1 then { s with prev := diff }
  else
    if diff ≠ s.prev then
      let bag := if s.prev < diff then s.bag ++ [addr] else s.bag
      let allow := !decide (s.prev < diff)
      { bag := if allow then [addr] else []
        clusters := if bag.length ≠ 0 then s.clusters ++ [bag] else s.clusters
        prev := diff }
    else { s with bag := s.bag ++ [addr] }

/-- `size() - 2`, without a sign. -/
def lastIndex (size : Nat) : Nat := if size < 2 then 2 ^ 64 + size - 2 else size - 2

/-- The loop over the vector of addresses, which is listed from `i` on; `i` is an `int`. -/
def scan (bound : Nat) : Nat → List Text → Scan → Except String Scan
  | i, addr :: next_addr :: rest, s =>
    if i ≤ bound then
      if i + 1 < 2 ^ 31 then
        scan bound (i + 1) (next_addr :: rest) (visit s addr (diff addr next_addr))
      else .error "signed overflow"
    else .ok s
  | i, [], s | i, [_], s => if i ≤ bound then .error "index out of range" else .ok s

/-- The addresses of a cluster get its number. -/
def setCluster (i : Nat) (uniqueAddr : List (Text × Count)) (address : Text) :
    List (Text × Count) :=
  match find address uniqueAddr with
  | none => uniqueAddr
  | some count => assign address { count with cluster := i } uniqueAddr

/-- The loop over the clusters, from `i` on. -/
def setClusters : Nat → List (List Text) → List (Text × Count) → List (Text × Count)
  | _, [], uniqueAddr => uniqueAddr
  | i, cluster :: rest, uniqueAddr =>
    setClusters (i + 1) rest (cluster.foldl (setCluster i) uniqueAddr)

structure Line where
  address : Text
  frequency : UInt32
  clusterNo : Int
  clusterSize : Nat

def lineOf (clusters : List (List Text)) (e : Text × Count) : Except String Line :=
  if e.2.cluster < 0 then .error "index out of range"
  else
    match clusters[e.2.cluster.toNat]? with
    | none => .error "index out of range"
    | some cluster => .ok ⟨e.1, e.2.count, e.2.cluster, cluster.length⟩

structure Output where
  clusters : List (List Text)
  lines : List Line

/-- The parts of `write` about clusters; the clusters get their numbers once more when they are
written. -/
def write (is_open : Bool) (s : StrideTable) : Except String Output :=
  let uniqueAddr := uniqueAddr is_open s
  let addrCountVec := uniqueAddr.map Prod.fst ++ ["0x0".toList]
  scan (lastIndex addrCountVec.length) 0 addrCountVec
    ⟨addrCountVec.take 1, [], -1⟩ >>= fun scanned =>
  let clusters := scanned.clusters
  let uniqueAddr := setClusters 0 clusters (setClusters 0 clusters uniqueAddr)
  uniqueAddr.mapM (lineOf clusters) >>= fun lines =>
  .ok ⟨clusters, lines⟩

/-! ### What the output should be -/

def recorded (accesses : List (UInt64 × UInt64)) : List Text :=
  accesses.map fun access => hex access.2

/-- Every address is in the clusters once, and has one line with the number and the size of its
cluster. -/
structure Right (accesses : List (UInt64 × UInt64)) (out : Output) : Prop where
  once : ∀ address,
    out.clusters.flatten.count address = if address ∈ recorded accesses then 1 else 0
  lines : (out.lines.map Line.address).Nodup
  listed : ∀ address, address ∈ out.lines.map Line.address ↔ address ∈ recorded accesses
  numbered : ∀ line ∈ out.lines, ∃ i cluster, line.clusterNo = (i : Nat) ∧
    out.clusters[i]? = some cluster ∧ line.address ∈ cluster ∧ line.clusterSize = cluster.length

/-- The number that is read of an address. -/
def value (address : UInt64) : Nat := min address.toNat (2 ^ 63 - 1)

/-- There are at least two addresses, and no more than an `int` counts. Of the last two in the
order of the hexadecimal strings, the first is not zero and less than twice the second. -/
def LastTwoNear (accesses : List (UInt64 × UInt64)) : Prop :=
  let addresses := accesses.map Prod.snd
  addresses.dedup.length < 2 ^ 31 ∧
  ∃ w ∈ addresses, ∃ u ∈ addresses, hex w < hex u ∧ (∀ a ∈ addresses, a = u ∨ hex a ≤ hex w) ∧
    0 < value w ∧ value w < 2 * value u

end Sniper.Tracing.Clustering
