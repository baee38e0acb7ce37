import Mathlib.Algebra.GroupWithZero.Nat
import Mathlib.Data.List.Infix

/-! # Prefixes

What holds of the prefixes of a list, such as the calls of a run up to each of its states. -/
namespace Sniper.Lib.Prefixes

variable {α : Type} {list front : List α} {a : α}

theorem prefix_of_concat (h : front ++ [a] <+: list) : front <+: list :=
  (List.prefix_append front [a]).trans h

theorem forall_prefix_iff {P : List α → Prop} {C : List α → α → Prop} (hnil : P [])
    (hconcat : ∀ front a, P front → (P (front ++ [a]) ↔ C front a)) :
    (∀ front, front <+: list → P front) ↔ ∀ front a, front ++ [a] <+: list → C front a := by
  constructor
  · intro h front a hprefix
    exact (hconcat front a (h front (prefix_of_concat hprefix))).mp (h _ hprefix)
  · intro h front
    induction front using List.reverseRecOn with
    | nil => exact fun _ => hnil
    | append_singleton front a ih =>
      intro hprefix
      exact (hconcat front a (ih (prefix_of_concat hprefix))).mpr (h front a hprefix)

end Sniper.Lib.Prefixes
