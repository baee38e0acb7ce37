import Mathlib.Data.Finset.Sort
import Sniper.Lib.Simulation

/-! # Sharer containers

`DirectorySharersBitset` and `DirectorySharersVector`, and the two entries over either of them,
`DirectoryEntryLimitedNoBroadcast` and `DirectoryEntryLimitless`. What an entry records is one
set of sharers; what `getLatency` tells of a limitless entry is not what that set has been. Owner,
forwarder and the state of the block are left out.
-/
namespace Sniper.Directory.SharerSets

inductive Fault where
  | assertion
  /-- A container is indexed behind its end. -/
  | outOfRange

/-! ### Containers -/

/-- What the entries use of a container of sharers, and what it promises. -/
class DirectorySharers (S : Type) where
  create : ℕ → Except Fault S
  size : S → ℕ
  get : S → ℕ → Bool
  set : S → ℕ → Bool → S
  count : S → ℕ
  get_create : ∀ {max_num_sharers s}, create max_num_sharers = .ok s → ∀ i, get s i = false
  get_behind : ∀ {s i}, size s ≤ i → get s i = false
  size_set : ∀ s i b, size (set s i b) = size s
  get_set : ∀ {s i}, i < size s → ∀ b j, get (set s i b) j = if i = j then b else get s j
  count_eq : ∀ s, count s = (List.range (size s)).countP (get s)

structure DirectorySharersBitset (Size : ℕ) where
  bits : BitVec Size

namespace DirectorySharersBitset
variable {Size : ℕ}

def create (max_num_sharers : ℕ) : Except Fault (DirectorySharersBitset Size) :=
  if max_num_sharers ≤ Size then .ok ⟨0⟩ else .error .assertion

def set (s : DirectorySharersBitset Size) (i : ℕ) (b : Bool) : DirectorySharersBitset Size :=
  if b then ⟨s.bits ||| BitVec.twoPow Size i⟩ else ⟨s.bits &&& ~~~BitVec.twoPow Size i⟩

/-- `std::bitset::count`. -/
def count (s : DirectorySharersBitset Size) : ℕ := (List.range Size).countP s.bits.getLsbD

theorem get_set {s : DirectorySharersBitset Size} {i} (hi : i < Size) (b : Bool) (j : ℕ) :
    (s.set i b).bits.getLsbD j = if i = j then b else s.bits.getLsbD j := by
  by_cases hij : i = j
  · subst hij
    cases b with
    | true | false => simp [set, hi]
  · cases b with
    | true => simp [set, hij]
    | false =>
      by_cases hj : j < Size
      · simp [set, hij, hj, Ne.symm hij]
      · simp [set, hij, BitVec.getLsbD_of_ge, Nat.le_of_not_lt hj]

instance : DirectorySharers (DirectorySharersBitset Size) where
  create := create
  size _ := Size
  get s := s.bits.getLsbD
  set := set
  count := count
  get_create h i := by
    unfold create at h
    split at h
    · cases h
      exact BitVec.getLsbD_zero
    · cases h
  get_behind := BitVec.getLsbD_of_ge _ _
  size_set _ _ _ := rfl
  get_set := get_set
  count_eq _ := rfl

end DirectorySharersBitset

structure DirectorySharersVector where
  bits : List Bool

namespace DirectorySharersVector

def create (max_num_sharers : ℕ) : Except Fault DirectorySharersVector :=
  .ok ⟨List.replicate max_num_sharers false⟩

def get (s : DirectorySharersVector) (i : ℕ) : Bool := s.bits[i]?.getD false

/-- `count`, which is a loop over the vector. -/
def count (s : DirectorySharersVector) : ℕ :=
  (List.range s.bits.length).foldl
    (fun num_sharers j => if s.get j then num_sharers + 1 else num_sharers) 0

theorem foldl_count (p : ℕ → Bool) (l : List ℕ) (num_sharers : ℕ) :
    l.foldl (fun num_sharers j => if p j then num_sharers + 1 else num_sharers) num_sharers =
      num_sharers + l.countP p := by
  induction l generalizing num_sharers with
  | nil => rfl
  | cons j rest ih =>
    rw [List.foldl_cons, ih, List.countP_cons]
    split <;> omega

instance : DirectorySharers DirectorySharersVector where
  create := create
  size s := s.bits.length
  get := get
  set s i b := ⟨s.bits.set i b⟩
  count := count
  get_create h i := by
    cases h
    rw [get, List.getElem?_replicate]
    split <;> rfl
  get_behind h := by
    rw [get, List.getElem?_eq_none h]
    rfl
  size_set _ _ _ := List.length_set
  get_set {s i} hi b j := by
    rw [get, get, List.getElem?_set]
    by_cases hij : i = j
    · rw [if_pos hij, if_pos hij, if_pos (hij ▸ hi)]
      rfl
    · rw [if_neg hij, if_neg hij]
  count_eq s := (foldl_count s.get _ 0).trans (Nat.zero_add _)

end DirectorySharersVector

/-! ### What the entries share -/

section Shared
variable {S : Type} [DirectorySharers S]
open DirectorySharers

/-- `m_sharers[sharer_id]`. -/
def sharerAt (m_sharers : S) (sharer_id : ℕ) : Except Fault Bool :=
  if sharer_id < size m_sharers then .ok (get m_sharers sharer_id) else .error .outOfRange

def assert (c : Bool) : Except Fault Unit := if c then .ok () else .error .assertion

def removeSharer (m_sharers : S) (sharer_id : ℕ) (reply_expected : Bool) : Except Fault S := do
  assert !reply_expected
  assert (← sharerAt m_sharers sharer_id)
  return set m_sharers sharer_id false

def getNumSharers (m_sharers : S) : ℕ := count m_sharers

/-- The loop of `getSharersList`, with the list and the next index to write. -/
def fillList (m_sharers : S) : List ℕ → List ℕ × ℕ → Except Fault (List ℕ × ℕ)
  | [], state => .ok state
  | j :: rest, (second, i) =>
    if get m_sharers j then
      if i < second.length then do
        assert (i + 1 ≤ size m_sharers)
        fillList m_sharers rest (second.set i j, i + 1)
      else .error .outOfRange
    else fillList m_sharers rest (second, i)

/-- `getSharersList`; the list is resized to `getNumSharers` first. -/
def getSharersList (m_sharers : S) : Except Fault (Bool × List ℕ) := do
  let (second, _) ← fillList m_sharers (List.range (size m_sharers))
    (List.replicate (getNumSharers m_sharers) 0, 0)
  return (false, second)

end Shared

/-! ### The entries -/

/-- `Random::next`. -/
def next (seed : BitVec 32) (limit : ℕ) : ℕ × BitVec 32 :=
  let seed := seed * 1103515245#32 + 12345#32
  ((seed / 65536#32).toNat % limit, seed)

structure DirectoryEntryLimitedNoBroadcast (S : Type) where
  m_sharers : S
  m_rand_num : BitVec 32

namespace DirectoryEntryLimitedNoBroadcast
variable {S : Type} [DirectorySharers S]
open DirectorySharers

def create (max_num_sharers : ℕ) : Except Fault (DirectoryEntryLimitedNoBroadcast S) :=
  (DirectorySharers.create max_num_sharers).map fun m_sharers => ⟨m_sharers, 1#32⟩

variable (entry : DirectoryEntryLimitedNoBroadcast S)

def hasSharer (sharer_id : ℕ) : Except Fault Bool := sharerAt entry.m_sharers sharer_id

/-- `addSharer`, which tells whether the sharer was added. -/
def addSharer (sharer_id max_hw_sharers : ℕ) :
    Except Fault (Bool × DirectoryEntryLimitedNoBroadcast S) := do
  assert !(← sharerAt entry.m_sharers sharer_id)
  if getNumSharers entry.m_sharers ≥ max_hw_sharers then return (false, entry)
  else return (true, { entry with m_sharers := set entry.m_sharers sharer_id true })

def removeSharer (sharer_id : ℕ) (reply_expected : Bool) :
    Except Fault (DirectoryEntryLimitedNoBroadcast S) :=
  (SharerSets.removeSharer entry.m_sharers sharer_id reply_expected).map fun m_sharers =>
    { entry with m_sharers := m_sharers }

/-- `getOneSharer`: a random one. -/
def getOneSharer : Except Fault (ℕ × DirectoryEntryLimitedNoBroadcast S) := do
  let sharers_list ← getSharersList entry.m_sharers
  assert !sharers_list.1
  assert (sharers_list.2.length > 0)
  let (index, m_rand_num) := next entry.m_rand_num sharers_list.2.length
  match sharers_list.2[index]? with
  | some sharer_id => return (sharer_id, { entry with m_rand_num := m_rand_num })
  | none => throw .outOfRange

def getLatency : ℕ := 0

end DirectoryEntryLimitedNoBroadcast

structure DirectoryEntryLimitless (S : Type) where
  m_sharers : S
  m_software_trap_enabled : Bool
  m_software_trap_penalty : ℕ

namespace DirectoryEntryLimitless
variable {S : Type} [DirectorySharers S]
open DirectorySharers

def create (max_num_sharers software_trap_penalty : ℕ) : Except Fault (DirectoryEntryLimitless S) :=
  (DirectorySharers.create max_num_sharers).map fun m_sharers =>
    ⟨m_sharers, false, software_trap_penalty⟩

variable (entry : DirectoryEntryLimitless S)

def hasSharer (sharer_id : ℕ) : Except Fault Bool := sharerAt entry.m_sharers sharer_id

/-- `addSharer`. The trap is enabled by the size of the container. -/
def addSharer (sharer_id max_hw_sharers : ℕ) :
    Except Fault (Bool × DirectoryEntryLimitless S) := do
  assert !(← sharerAt entry.m_sharers sharer_id)
  return (true, { entry with
    m_software_trap_enabled :=
      entry.m_software_trap_enabled || size entry.m_sharers == max_hw_sharers
    m_sharers := set entry.m_sharers sharer_id true })

def removeSharer (sharer_id : ℕ) (reply_expected : Bool) :
    Except Fault (DirectoryEntryLimitless S) :=
  (SharerSets.removeSharer entry.m_sharers sharer_id reply_expected).map fun m_sharers =>
    { entry with m_sharers := m_sharers }

/-- `getOneSharer`: the first one. -/
def getOneSharer : Except Fault ℕ :=
  match (List.range (size entry.m_sharers)).find? (get entry.m_sharers) with
  | some sharer_id => .ok sharer_id
  | none => .error .assertion

def getLatency : ℕ := if entry.m_software_trap_enabled then entry.m_software_trap_penalty else 0

end DirectoryEntryLimitless

/-! ### Runs -/

/-- A call; no reply is expected of a removal. -/
inductive Call where
  | addSharer (sharer_id : ℕ)
  | removeSharer (sharer_id : ℕ)

section Runs
variable {S : Type} [DirectorySharers S] (max_hw_sharers : ℕ)

def DirectoryEntryLimitedNoBroadcast.call (entry : DirectoryEntryLimitedNoBroadcast S) :
    Call → Except Fault (DirectoryEntryLimitedNoBroadcast S)
  | .addSharer sharer_id => (entry.addSharer sharer_id max_hw_sharers).map Prod.snd
  | .removeSharer sharer_id => entry.removeSharer sharer_id false

def DirectoryEntryLimitless.call (entry : DirectoryEntryLimitless S) :
    Call → Except Fault (DirectoryEntryLimitless S)
  | .addSharer sharer_id => (entry.addSharer sharer_id max_hw_sharers).map Prod.snd
  | .removeSharer sharer_id => entry.removeSharer sharer_id false

def DirectoryEntryLimitedNoBroadcast.run (max_num_sharers : ℕ) (calls : List Call) :
    Except Fault (DirectoryEntryLimitedNoBroadcast S) := do
  calls.foldlM (call max_hw_sharers) (← create max_num_sharers)

def DirectoryEntryLimitless.run (max_num_sharers software_trap_penalty : ℕ)
    (calls : List Call) : Except Fault (DirectoryEntryLimitless S) := do
  calls.foldlM (call max_hw_sharers) (← create max_num_sharers software_trap_penalty)

end Runs

/-! ### The set -/

/-- A call on a set of sharers with room for `limit`, if there is one. -/
def record (limit : Option ℕ) (set : Finset ℕ) : Call → Finset ℕ
  | .addSharer sharer_id => if limit.all (set.card < ·) then insert sharer_id set else set
  | .removeSharer sharer_id => set.erase sharer_id

/-- The sharers behind some calls. -/
def recorded (limit : Option ℕ) (calls : List Call) : Finset ℕ := calls.foldl (record limit) ∅

/-- Some `addSharer` was made while that many sharers or more were recorded. -/
def Trapped (max_hw_sharers : ℕ) (calls : List Call) : Prop :=
  ∃ before sharer_id after, calls = before ++ .addSharer sharer_id :: after ∧
    max_hw_sharers ≤ (recorded none before).card

end Sniper.Directory.SharerSets
