import Mathlib.Data.List.Perm.Basic
import Mathlib.Data.List.ReduceOption

/-! # Draining requests

A list of places, some of which hold a request. A visit to a place performs its request, and the
place holds none afterwards. Whatever the order of the visits, and however often a place is
visited, what has been performed once all were visited is what the places held.
-/
namespace Sniper.Lib.Draining

variable {α : Type*} {places : List (Option α)}

theorem reduceOption_set_perm {i} (h : places[i]? = some none) (request : Option α) :
    (places.set i request).reduceOption.Perm (request.toList ++ places.reduceOption) := by
  induction places generalizing i with
  | nil => cases h
  | cons first rest ih =>
    cases i with
    | zero =>
      cases h
      cases request with
      | none | some a => exact List.Perm.refl _
    | succ i =>
      have hrest := ih (i := i) h
      cases first with
      | none => exact hrest
      | some a =>
        exact (hrest.cons a).trans List.perm_middle.symm

theorem take_perm {i request} (h : places[i]? = some request) :
    (request.toList ++ (places.set i none).reduceOption).Perm places.reduceOption := by
  have hi : i < places.length := (List.getElem?_eq_some_iff.mp h).1
  have hnone : (places.set i none)[i]? = some none := List.getElem?_set_self hi
  have hback : (places.set i none).set i request = places := by
    rw [List.set_set, ← (List.getElem?_eq_some_iff.mp h).2, List.set_getElem_self]
  have hperm := reduceOption_set_perm hnone request
  rw [hback] at hperm
  exact hperm.symm

/-- What the visits perform, in order. -/
def drain (places : List (Option α)) : List ℕ → List α
  | [] => []
  | i :: order => places[i]?.join.toList ++ drain (places.set i none) order

/-- What is left behind the visits. -/
def left (places : List (Option α)) (order : List ℕ) : List (Option α) :=
  order.foldl (fun places i => places.set i none) places

theorem drain_left_perm (places : List (Option α)) (order : List ℕ) :
    (drain places order ++ (left places order).reduceOption).Perm places.reduceOption := by
  induction order generalizing places with
  | nil => exact List.Perm.refl _
  | cons i order ih =>
    rw [drain, List.append_assoc]
    have hrest := (ih (places.set i none)).append_left places[i]?.join.toList
    refine hrest.trans ?_
    cases h : places[i]? with
    | none => rw [List.set_eq_of_length_le (List.getElem?_eq_none_iff.mp h)]; rfl
    | some request => exact take_perm h

theorem left_get (places : List (Option α)) (order : List ℕ) (i : ℕ) :
    (left places order)[i]? = if i ∈ order then places[i]?.map fun _ => none else places[i]? := by
  induction order generalizing places with
  | nil => exact (if_neg List.not_mem_nil).symm
  | cons j order ih =>
    have hset : (places.set j none)[i]? =
        if j = i then (fun _ => none) <$> places[i]? else places[i]? := List.getElem?_set'
    rw [left, List.foldl_cons, ← left, ih, hset]
    by_cases hji : j = i
    · rw [if_pos hji, if_pos (hji ▸ List.mem_cons_self : i ∈ j :: order)]
      split
      · cases places[i]? <;> rfl
      · rfl
    · have hmem : i ∈ j :: order ↔ i ∈ order :=
        ⟨fun h => (List.mem_cons.mp h).resolve_left (Ne.symm hji), List.mem_cons_of_mem j⟩
      rw [if_neg hji]
      exact if_congr hmem.symm rfl rfl

theorem drain_perm {order} (hall : ∀ i < places.length, i ∈ order) :
    (drain places order).Perm places.reduceOption := by
  have hleft : (left places order).reduceOption = [] := by
    refine List.filterMap_eq_nil_iff.mpr fun request hmem => ?_
    obtain ⟨i, hi⟩ := List.mem_iff_getElem?.mp hmem
    rw [left_get] at hi
    split at hi
    case isTrue =>
      obtain ⟨_, _, heq⟩ := Option.map_eq_some_iff.mp hi
      exact heq.symm
    case isFalse hnot => exact absurd (hall i (List.getElem?_eq_some_iff.mp hi).1) hnot
  have hperm := drain_left_perm places order
  rwa [hleft, List.append_nil] at hperm

/-! ### Requests in another form -/

/-- Requests that are performed in a normal form are the same, up to their order, when each of
them has that form. -/
theorem map_perm_self_iff {f} (hf : ∀ a, f (f a) = f a) {requests : List α} :
    (requests.map f).Perm requests ↔ ∀ a ∈ requests, f a = a := by
  constructor
  · intro hperm a ha
    obtain ⟨b, -, rfl⟩ := List.mem_map.mp (hperm.mem_iff.mpr ha)
    exact hf b
  · intro hall
    have hmap : requests.map f = requests := by
      calc
        requests.map f = requests.map id := List.map_congr_left hall
        _ = requests := List.map_id requests
    rw [hmap]

end Sniper.Lib.Draining
