import Mathlib.Algebra.GroupWithZero.Nat
import Mathlib.Logic.Equiv.Set

/-! # Inside-out shuffle

One step of the shuffle that builds a permutation while it goes: a new point takes the value of
a chosen point, which takes the new point as its value. Whatever is chosen, a bijection of a set
becomes one of the set with the new point. -/

namespace Sniper.Lib.Shuffle
open Function

variable {α : Type} [DecidableEq α]

def insideOut (f : α → α) (x j : α) : α → α :=
  update (update f x (f j)) j x

theorem insideOut_eq_swap (f : α → α) (x j : α) :
    insideOut f x j = update f x x ∘ Equiv.swap x j := by
  funext y
  unfold insideOut
  by_cases hj : y = j
  · subst hj
    simp
  · by_cases hx : y = x
    · subst hx
      simp [update_of_ne hj, update_of_ne (Ne.symm hj)]
    · simp [update_of_ne hj, update_of_ne hx, Equiv.swap_apply_of_ne_of_ne hx hj]

theorem insideOut_bijOn {f : α → α} {S : Set α} (hf : Set.BijOn f S S) {x j : α} (hx : x ∉ S)
    (hj : j ∈ insert x S) : Set.BijOn (insideOut f x j) (insert x S) (insert x S) := by
  have heq : Set.EqOn f (update f x x) S := fun y hy =>
    (update_of_ne (ne_of_mem_of_not_mem hy hx) _ _).symm
  have hnew : Set.BijOn (update f x x) (insert x S) (insert x S) := by
    have hself : update f x x x = x := by simp
    have := (hf.congr heq).insert (a := x) (by rwa [hself])
    rwa [hself] at this
  rw [insideOut_eq_swap]
  exact hnew.comp (Equiv.bijOn_swap (Set.mem_insert x S) hj)

theorem insideOut_eqOn {f g : α → α} {S : Set α} (h : Set.EqOn f g S) {x j : α}
    (hj : j ∈ insert x S) : Set.EqOn (insideOut f x j) (insideOut g x j) (insert x S) := by
  have hnew : Set.EqOn (update f x x) (update g x x) (insert x S) := by
    intro y hy
    by_cases hyx : y = x
    · simp [hyx]
    · rw [update_of_ne hyx, update_of_ne hyx]
      exact h (hy.resolve_left hyx)
  rw [insideOut_eq_swap, insideOut_eq_swap]
  exact fun y hy => hnew ((Equiv.bijOn_swap (Set.mem_insert x S) hj).mapsTo hy)

end Sniper.Lib.Shuffle
