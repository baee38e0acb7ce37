import Mathlib.Data.Finset.Card
import Mathlib.Data.Fintype.Basic

/-! # Directory entries

`DirectoryEntry` with its three organisations. The sharers of the three share one
implementation of everything but `addSharer` and `getOneSharer`. Latencies are left out.
A failed assertion of the source ends the simulation: it is an `Except.error` with the
assertion's text.
-/
namespace Sniper.Directory.DirectoryEntry

/-- `DirectoryState::dstate_t`. -/
inductive DState where
  | UNCACHED | SHARED | OWNED | MODIFIED | EXCLUSIVE
  deriving DecidableEq

inductive DirectoryType where
  | FULL_MAP | LIMITED_NO_BROADCAST | LIMITLESS
  deriving DecidableEq

/-- `caching_protocol/variant`. -/
inductive CoherencyProtocol where
  | MSI | MESI | MESIF
  deriving DecidableEq

structure Config where
  directoryType : DirectoryType
  maxHwSharers : Nat
  protocol : CoherencyProtocol

/-- Values from outside: the random number of `getOneSharer`, an uninitialised `m_forwarder_id`,
what a NUCA lookup finds and what a freed data buffer holds. -/
structure Choice (n : Nat) (V : Type) where
  rand : Nat
  forwarder : Option (Fin n)
  nuca : Option V
  freed : V

/-- A `DirectoryEntry` for `n` caches; `none` is `INVALID_CORE_ID`. -/
structure Entry (n : Nat) where
  dstate : DState
  sharers : Finset (Fin n)
  owner : Option (Fin n)
  forwarder : Option (Fin n)

variable {n : Nat} {V : Type}

/-- A new entry. The constructor does not set the forwarder. -/
def Entry.create (forwarder : Option (Fin n)) : Entry n := ⟨.UNCACHED, ∅, none, forwarder⟩

namespace Entry

def hasSharer (e : Entry n) (c : Fin n) : Bool := c ∈ e.sharers

def getNumSharers (e : Entry n) : Nat := e.sharers.card

def getSharersList (e : Entry n) : List (Fin n) :=
  (List.finRange n).filter (· ∈ e.sharers)

/-- `Directory::getMaxHwSharers`: a full map has room for every cache. -/
def getMaxHwSharers (cfg : Config) (n : Nat) : Nat :=
  match cfg.directoryType with
  | .FULL_MAP => n
  | _ => cfg.maxHwSharers

/-- `addSharer`: `false` when a sharer has to go first. A limitless entry traps to
software instead. -/
def addSharer (cfg : Config) (e : Entry n) (c : Fin n) : Except String (Bool × Entry n) :=
  if c ∈ e.sharers then .error "! m_sharers[sharer_id]"
  else if cfg.directoryType ≠ .LIMITLESS ∧ e.getNumSharers ≥ getMaxHwSharers cfg n then
    .ok (false, e)
  else .ok (true, { e with sharers := insert c e.sharers })

def removeSharer (e : Entry n) (c : Fin n) : Except String (Entry n) :=
  if c ∈ e.sharers then .ok { e with sharers := e.sharers.erase c }
  else .error "m_sharers[sharer_id]"

def setOwner (e : Entry n) (c : Fin n) : Except String (Entry n) :=
  if c ∈ e.sharers then .ok { e with owner := some c } else .error "m_sharers[owner_id]"

/-- `getOneSharer`: a random sharer, or the first one of a limitless entry. -/
def getOneSharer (cfg : Config) (ch : Choice n V) (e : Entry n) : Except String (Fin n) :=
  let index := if cfg.directoryType = .LIMITLESS then 0 else ch.rand % e.getSharersList.length
  match e.getSharersList[index]? with
  | some c => .ok c
  | none => .error "sharers_list.second.size() > 0"

@[simp] theorem mem_getSharersList {e : Entry n} {c} :
    c ∈ e.getSharersList ↔ c ∈ e.sharers := by
  simp [getSharersList]

theorem getSharersList_nodup (e : Entry n) : e.getSharersList.Nodup :=
  (List.nodup_finRange n).filter _

theorem getSharersList_eq_singleton {e : Entry n} {c} :
    e.getSharersList = [c] ↔ e.sharers = {c} := by
  constructor
  · intro h
    ext x
    rw [← mem_getSharersList, h]; simp
  · intro h
    refine List.perm_singleton.mp ((List.perm_ext_iff_of_nodup (getSharersList_nodup e)
      (List.nodup_singleton c)).mpr fun x => ?_)
    rw [mem_getSharersList, h]; simp

theorem addSharer_ok {cfg : Config} {e e' : Entry n} {c b} (h : e.addSharer cfg c = .ok (b, e')) :
    c ∉ e.sharers ∧
      ((b = false ∧ e' = e ∧ cfg.directoryType ≠ .LIMITLESS ∧
          getMaxHwSharers cfg n ≤ e.sharers.card) ∨
        (b = true ∧ e' = { e with sharers := insert c e.sharers } ∧
          (cfg.directoryType = .LIMITLESS ∨ e.sharers.card < getMaxHwSharers cfg n))) := by
  unfold addSharer at h
  split at h
  · cases h
  · rename_i hc
    refine ⟨hc, ?_⟩
    split at h
    · rename_i hfull; cases h; exact .inl ⟨rfl, rfl, hfull.1, hfull.2⟩
    · rename_i hroom
      cases h
      refine .inr ⟨rfl, rfl, ?_⟩
      by_contra hn
      exact hroom ⟨fun ht => hn (.inl ht), Nat.le_of_not_lt fun hlt => hn (.inr hlt)⟩

theorem removeSharer_ok {e e' : Entry n} {c} (h : e.removeSharer c = .ok e') :
    c ∈ e.sharers ∧ e' = { e with sharers := e.sharers.erase c } := by
  unfold removeSharer at h
  split at h
  · cases h; exact ⟨by assumption, rfl⟩
  · cases h

theorem setOwner_ok {e e' : Entry n} {c} (h : e.setOwner c = .ok e') :
    c ∈ e.sharers ∧ e' = { e with owner := some c } := by
  unfold setOwner at h
  split at h
  · cases h; exact ⟨by assumption, rfl⟩
  · cases h

theorem getOneSharer_ok {cfg : Config} {ch : Choice n V} {e : Entry n} {c : Fin n}
    (h : e.getOneSharer cfg ch = .ok c) : c ∈ e.sharers := by
  unfold getOneSharer at h
  dsimp only at h
  split at h
  · cases h
    rename_i hget
    exact mem_getSharersList.mp (List.mem_of_getElem? hget)
  · cases h

end Entry
end Sniper.Directory.DirectoryEntry
