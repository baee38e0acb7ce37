import Mathlib.Algebra.GroupWithZero.Nat
import Mathlib.Algebra.Order.BigOperators.Group.List
import Mathlib.Algebra.Order.Group.Nat

/-! # Paths with weights

Elements that each carry a time and a weight, one behind the other: the weights add up from the
start of the path to its end, and an element with a weight has its time where its part ends. The
weights are also kept by a key.
-/
namespace Sniper.Lib

section
variable {α : Type*} {time weight : α → Nat}

inductive Path (time weight : α → Nat) : Nat → List α → Nat → Prop
  | nil (start : Nat) : Path time weight start [] start
  | cons {start stop : Nat} {l : List α} (a : α) (hle : time a ≤ start + weight a)
      (heq : 0 < weight a → time a = start + weight a)
      (h : Path time weight (start + weight a) l stop) : Path time weight start (a :: l) stop

namespace Path
variable {start mid stop : Nat} {a : α} {l : List α}

theorem sum (h : Path time weight start l stop) : stop = start + (l.map weight).sum := by
  induction h with
  | nil => rfl
  | cons a _ _ _ ih =>
    rw [ih, List.map_cons, List.sum_cons]
    omega

theorem snoc (h : Path time weight start l mid) (hle : time a ≤ mid + weight a)
    (heq : 0 < weight a → time a = mid + weight a) :
    Path time weight start (l ++ [a]) (mid + weight a) := by
  induction h with
  | nil => exact .cons a hle heq (.nil _)
  | cons b hle' heq' _ ih => exact .cons b hle' heq' (ih hle heq)

theorem rest (h : Path time weight start (a :: l) stop) :
    Path time weight (max start (time a)) l stop := by
  cases h with
  | cons _ hle heq h =>
    have hstart : max start (time a) = start + weight a := by
      by_cases hpos : 0 < weight a
      · omega
      · omega
    rw [hstart]
    exact h

end Path
end

/-! ### By key -/

section
variable {α κ : Type*} [DecidableEq κ] {key : α → κ} {weight : α → Nat}

/-- The weight of the elements with a key. -/
def sumBy (key : α → κ) (weight : α → Nat) (k : κ) (l : List α) : Nat :=
  (l.map fun a => if key a = k then weight a else 0).sum

@[simp] theorem sumBy_nil (k : κ) : sumBy key weight k [] = 0 := rfl

@[simp] theorem sumBy_cons (k : κ) (a : α) (l : List α) :
    sumBy key weight k (a :: l) = (if key a = k then weight a else 0) + sumBy key weight k l := rfl

theorem sumBy_snoc (k : κ) (a : α) (l : List α) :
    sumBy key weight k (l ++ [a]) = sumBy key weight k l + if key a = k then weight a else 0 := by
  unfold sumBy
  rw [List.map_append, List.sum_append]
  rfl

theorem sumBy_le (k : κ) (l : List α) : sumBy key weight k l ≤ (l.map weight).sum := by
  refine List.sum_le_sum ?_
  intro a _
  split
  · exact Nat.le_refl _
  · exact Nat.zero_le _

theorem sum_sumBy {keys : List κ} (hnodup : keys.Nodup) {l : List α} (h : ∀ a ∈ l, key a ∈ keys) :
    (keys.map fun k => sumBy key weight k l).sum = (l.map weight).sum := by
  have hone : ∀ a, key a ∈ keys →
      (keys.map fun k => if key a = k then weight a else 0).sum = weight a := by
    intro a ha
    rw [List.sum_map_eq_nsmul_single (key a), hnodup.count, if_pos ha, if_pos rfl, one_nsmul]
    intro k hk _
    exact if_neg hk.symm
  induction l with
  | nil => simp
  | cons a l ih =>
    simp only [sumBy_cons, List.sum_map_add, List.map_cons, List.sum_cons]
    rw [hone a (h a (List.mem_cons_self ..)), ih (fun b hb => h b (List.mem_cons_of_mem _ hb))]

end

end Sniper.Lib
