import Mathlib.Data.List.Basic

/-! # Association lists as maps

A map with keys of type `κ` is a list of pairs. The first pair of a key counts, so each write
takes away the pairs it replaces.
-/
namespace Sniper.Lib.AssocList

variable {κ α : Type*} [DecidableEq κ]

def lookup (k : κ) (m : List (κ × α)) : Option α := List.lookup k m

/-- The map without `k`. -/
def erase (k : κ) (m : List (κ × α)) : List (κ × α) := m.filter fun e => e.1 ≠ k

/-- The map with `a` at `k`, whatever it had there. -/
def assign (k : κ) (a : α) (m : List (κ × α)) : List (κ × α) := (k, a) :: erase k m

/-- The map with `a` at `k` unless it already has something there. -/
def insert (k : κ) (a : α) (m : List (κ × α)) : List (κ × α) :=
  if (lookup k m).isSome then m else (k, a) :: m

@[simp] theorem lookup_erase_self (k : κ) (m : List (κ × α)) : lookup k (erase k m) = none := by
  unfold lookup
  rw [List.lookup_eq_none_iff]
  intro e he
  have hne : e.1 ≠ k := by simpa using (List.mem_filter.mp he).2
  simpa using hne.symm

theorem lookup_erase_of_ne {k k'} (h : k' ≠ k) (m : List (κ × α)) :
    lookup k' (erase k m) = lookup k' m := by
  unfold lookup erase
  induction m with
  | nil => rfl
  | cons e m ih =>
    rw [List.filter_cons]
    split
    · rw [List.lookup_cons, List.lookup_cons, ih]
    · next hk =>
      have hk : e.1 = k := by simpa using hk
      rw [List.lookup_cons, ih, beq_false_of_ne (hk ▸ h)]

@[simp] theorem lookup_assign_self (k : κ) (a : α) (m : List (κ × α)) :
    lookup k (assign k a m) = some a := List.lookup_cons_self

theorem lookup_assign_of_ne {k k'} (h : k' ≠ k) (a : α) (m : List (κ × α)) :
    lookup k' (assign k a m) = lookup k' m := by
  unfold lookup assign
  rw [List.lookup_cons, beq_false_of_ne h]
  exact lookup_erase_of_ne h m

theorem lookup_insert_self (k : κ) (a : α) (m : List (κ × α)) :
    lookup k (insert k a m) = some ((lookup k m).getD a) := by
  unfold insert
  split
  · next h =>
    obtain ⟨b, hb⟩ := Option.isSome_iff_exists.mp h
    simp [hb]
  · next h =>
    rw [Option.not_isSome_iff_eq_none.mp h]
    exact List.lookup_cons_self

theorem lookup_insert_of_ne {k k'} (h : k' ≠ k) (a : α) (m : List (κ × α)) :
    lookup k' (insert k a m) = lookup k' m := by
  unfold insert
  split
  · rfl
  · unfold lookup
    rw [List.lookup_cons, beq_false_of_ne h]

theorem mem_of_lookup {k : κ} {a : α} {m : List (κ × α)} (h : lookup k m = some a) :
    (k, a) ∈ m := by
  obtain ⟨front, back, rfl, _⟩ := List.lookup_eq_some_iff.mp h
  exact List.mem_append_right _ List.mem_cons_self

theorem lookup_map {β} (f : α → β) (k : κ) (m : List (κ × α)) :
    lookup k (m.map fun e => (e.1, f e.2)) = (lookup k m).map f := by
  unfold lookup
  induction m with
  | nil => rfl
  | cons e m ih =>
    rw [List.map_cons, List.lookup_cons, List.lookup_cons, ih]
    cases k == e.1 <;> rfl

end Sniper.Lib.AssocList
