import Sniper.Config.Lookup
import Sniper.Lib.Simulation

/-! # What a configuration holds under a path

The entries of one name in one section are a `Slot`. Every access by path acts on the slot of
its location and on nothing else, so the tree is a map from locations to slots.
-/
namespace Sniper.Configuration
open Lib

/-- The default and the overrides of one name in one section. -/
structure Slot where
  default : Option Key
  overrides : Option (List (Option Key))

namespace Slot

def empty : Slot := ⟨none, none⟩

/-- The overriding key at an index. -/
def override (slot : Slot) (index : UInt64) : Option Key :=
  match slot.overrides with
  | some arr => if arr.length ≥ (index + 1).toNat then arr[index.toNat]?.join else none
  | none => none

def overrideArray (slot : Slot) (index : UInt64) : List (Option Key) :=
  match slot.overrides with
  | some arr =>
    if arr.length < (index + 1).toNat then Section.resize (index + 1) arr
    else arr.set index.toNat none
  | none => Section.resize (index + 1) []

def addKey (key : Key) (index : UInt64) (slot : Slot) : Slot :=
  if index = noIndex then ⟨some key, none⟩
  else { slot with overrides := some ((slot.overrideArray index).set index.toNat (some key)) }

def hasKey (slot : Slot) (index : UInt64) : Bool :=
  if index = noIndex then slot.default.isSome || slot.overrides.isSome
  else (slot.override index).isSome || slot.default.isSome

/-- What a lookup finds. -/
def find? (slot : Slot) (index : UInt64) : Option Key :=
  if index = noIndex then slot.default else (slot.override index).or slot.default

end Slot

/-! ## Slots of a section -/

namespace Section
variable (caseSensitive : Bool)

def slot (iname : Text) (s : Section) : Slot :=
  ⟨AssocList.lookup iname s.m_keys, AssocList.lookup iname s.m_array_keys⟩

theorem slot_addKey_self (name value : Text) (index : UInt64) (s : Section) :
    (s.addKey caseSensitive name value index).slot (iname caseSensitive name) =
      (s.slot (iname caseSensitive name)).addKey ⟨name, value⟩ index := by
  unfold addKey Slot.addKey
  split
  · simp [slot, AssocList.lookup_insert_self]
  · unfold slot
    rw [AssocList.lookup_assign_self]
    rfl

theorem slot_addKey_of_ne {name value n} (h : n ≠ iname caseSensitive name) (index : UInt64)
    (s : Section) :
    (s.addKey caseSensitive name value index).slot n = s.slot n := by
  unfold addKey
  split
  · simp [slot, AssocList.lookup_insert_of_ne h, AssocList.lookup_erase_of_ne h]
  · simp [slot, AssocList.lookup_assign_of_ne h]

theorem subSections_addKey (name value : Text) (index : UInt64) (s : Section) :
    (s.addKey caseSensitive name value index).m_subSections = s.m_subSections := by
  unfold addKey
  split <;> rfl

theorem hasKey_slot (name : Text) (index : UInt64) (s : Section) :
    s.hasKey caseSensitive name index = (s.slot (iname caseSensitive name)).hasKey index := by
  unfold hasKey Slot.hasKey
  split
  · cases h : (AssocList.lookup (iname caseSensitive name) s.m_keys).isSome <;> simp [slot, h]
  · rfl

theorem getKey_slot (name : Text) (index : UInt64) (s : Section) :
    s.getKey caseSensitive name index =
      match (s.slot (iname caseSensitive name)).find? index with
      | some key => .ok key
      | none => .error (.missingKey (iname caseSensitive name)) := by
  unfold getKey Slot.find?
  dsimp only
  split
  · rfl
  · have harray : (s.slot (iname caseSensitive name)).override index =
        s.arrayKey (iname caseSensitive name) index := rfl
    rw [harray]
    cases s.arrayKey (iname caseSensitive name) index with
    | some key => rfl
    | none =>
      rfl

/-- The slot reached through canonical names; empty where a section is missing. -/
def slotAt : List Text → Text → Section → Slot
  | [], n, s => s.slot n
  | e :: es, n, s =>
    match AssocList.lookup e s.m_subSections with
    | some sub => slotAt es n sub
    | none => .empty

theorem slotAt_new (es : List Text) (n name : Text) : slotAt es n (new name) = .empty := by
  cases es <;> rfl

theorem slotAt_congr {s s'} (h : s'.m_subSections = s.m_subSections) {es} (hes : es ≠ []) (n : Text) :
    slotAt es n s' = slotAt es n s := by
  cases es with
  | nil => exact absurd rfl hes
  | cons e es => simp only [slotAt, h]

theorem slotAt_addSubsection (name : Text) (es : List Text) (n : Text) (s : Section) :
    slotAt es n (s.addSubsection caseSensitive name) = slotAt es n s := by
  cases es with
  | nil => rfl
  | cons e es =>
    simp only [slotAt, addSubsection]
    by_cases h : e = iname caseSensitive name
    · subst h
      rw [AssocList.lookup_insert_self]
      cases AssocList.lookup (iname caseSensitive name) s.m_subSections with
      | some sub => rfl
      | none => exact slotAt_new es n name
    · rw [AssocList.lookup_insert_of_ne h]

theorem slotAt_getOrAdd (name : Text) (es : List Text) (n : Text) (s : Section) :
    slotAt es n (if s.hasSection caseSensitive name then s else s.addSubsection caseSensitive name) =
      slotAt es n s := by
  split
  · rfl
  · exact slotAt_addSubsection caseSensitive name es n s

theorem exists_lookup_getOrAdd (name : Text) (s : Section) :
    ∃ sub, AssocList.lookup (iname caseSensitive name) (if s.hasSection caseSensitive name then s
      else s.addSubsection caseSensitive name).m_subSections = some sub := by
  split
  · next h => exact Option.isSome_iff_exists.mp h
  · exact ⟨_, AssocList.lookup_insert_self ..⟩

end Section

/-! ## Acting on one slot -/

variable {α : Type}

/-- `f` computes its result from the slot at `n` behind `es`, and changes only that slot. -/
structure Acts (f : Section → Except Fault (α × Section)) (es : List Text) (n : Text)
    (r : Slot → Except Fault α) (g : Slot → Slot) : Prop where
  result : ∀ s, (·.1) <$> f s = r (s.slotAt es n)
  effect : ∀ s a s', f s = .ok (a, s') → ∀ es' n', s'.slotAt es' n' =
    if es' = es ∧ n' = n then g (s.slotAt es n) else s.slotAt es' n'

theorem Acts.step {f : Section → Except Fault (α × Section)} {path es : List Text} {n : Text}
    {r : Slot → Except Fault α} {g : Slot → Slot} {caseSensitive : Bool}
    (h : Acts (Config.descend caseSensitive f path) es n r g) (element : Text) :
    Acts (Config.descend caseSensitive f (element :: path))
      (Section.iname caseSensitive element :: es) n r g := by
  refine ⟨fun s => ?_, fun s a s' hs => ?_⟩
  all_goals
    obtain ⟨sub, hsub⟩ := Section.exists_lookup_getOrAdd caseSensitive element s
    have hslots := fun es n => Section.slotAt_getOrAdd caseSensitive element es n s
    simp only [Config.descend] at *
    generalize (if s.hasSection caseSensitive element then s
      else s.addSubsection caseSensitive element) = t at *
    generalize Section.iname caseSensitive element = e at *
    have hat : t.slotAt (e :: es) n = sub.slotAt es n := by simp only [Section.slotAt, hsub]
    rw [← hslots, hat]
  · rw [hsub, ← h.result sub]
    dsimp only
    cases Config.descend caseSensitive f path sub with
    | error e | ok p => rfl
  · rw [hsub] at hs
    obtain ⟨⟨a₁, sub'⟩, hrun, hs⟩ := Simulation.of_bind_ok hs
    cases hs
    intro es' n'
    rw [← hslots]
    cases es' with
    | nil => simp [Section.slotAt, Section.slot]
    | cons e' es' =>
      by_cases he : e' = e
      · subst he
        simp only [Section.slotAt, AssocList.lookup_assign_self, List.cons.injEq, true_and, hsub]
        exact h.effect _ _ _ hrun es' n'
      · simp [Section.slotAt, AssocList.lookup_assign_of_ne he, he]

theorem Acts.descend {f : Section → Except Fault (α × Section)} {n : Text}
    {r : Slot → Except Fault α} {g : Slot → Slot} (caseSensitive : Bool) (h : Acts f [] n r g)
    (path : List Text) :
    Acts (Config.descend caseSensitive f path) (path.map (Section.iname caseSensitive)) n r g := by
  induction path with
  | nil => exact h
  | cons element path ih => exact ih.step element

end Sniper.Configuration
