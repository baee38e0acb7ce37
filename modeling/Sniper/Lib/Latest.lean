import Mathlib.Data.List.Basic

/-! # The latest of a history

A history has its newest element first, and each element has a number, larger than those of the
elements before it. Of the elements with a property whose number is not below a bound, the newest
one is looked for; raising the bound can only lose it.
-/
namespace Sniper.Lib

variable {α : Type*} {number : α → Nat} {p : α → Bool} {low low' : Nat} {history : List α}

def Numbered (number : α → Nat) (history : List α) : Prop :=
  history.Pairwise fun a b => number b < number a

/-- The number of the newest element with a property, not below a bound. -/
def latest (number : α → Nat) (p : α → Bool) (low : Nat) (history : List α) : Option Nat :=
  (history.find? fun a => p a && decide (low ≤ number a)).map number

theorem latest_cons (a : α) : latest number p low (a :: history) =
    if p a = true ∧ low ≤ number a then some (number a) else latest number p low history := by
  rw [latest, List.find?_cons]
  split
  case h_1 h => rw [if_pos (by simpa using h)]; rfl
  case h_2 h =>
    rw [if_neg (by simpa using h)]
    rfl

theorem latest_le {n} (h : latest number p low history = some n) : low ≤ n := by
  obtain ⟨a, ha, rfl⟩ := Option.map_eq_some_iff.mp h
  have := List.find?_some ha
  rw [Bool.and_eq_true] at this
  exact of_decide_eq_true this.2

theorem latest_mem {n} (h : latest number p low history = some n) :
    ∃ a ∈ history, number a = n := by
  obtain ⟨a, ha, rfl⟩ := Option.map_eq_some_iff.mp h
  exact ⟨a, List.mem_of_find?_eq_some ha, rfl⟩

theorem latest_raise (hnum : Numbered number history) (hle : low ≤ low') :
    latest number p low' history =
      (latest number p low history).filter fun n => decide (low' ≤ n) := by
  induction history with
  | nil => rfl
  | cons a history ih =>
    obtain ⟨hbelow, hnum⟩ := List.pairwise_cons.mp hnum
    rw [latest_cons, latest_cons]
    by_cases hp : p a = true ∧ low ≤ number a
    · rw [if_pos hp]
      by_cases hlow : low' ≤ number a
      · rw [if_pos ⟨hp.1, hlow⟩]
        exact (Option.filter_some_pos (by simpa using hlow)).symm
      · rw [if_neg fun h => hlow h.2]
        -- everything behind is below the bound as well
        cases hrest : latest number p low' history with
        | none => exact (Option.filter_some_neg (by simpa using hlow)).symm
        | some n =>
          obtain ⟨b, hb, rfl⟩ := latest_mem hrest
          exact absurd (Nat.le_trans (latest_le hrest) (Nat.le_of_lt (hbelow b hb))) hlow
    · rw [if_neg hp, if_neg fun h => hp ⟨h.1, Nat.le_trans hle h.2⟩]
      exact ih hnum

theorem dropWhile_lt {l : List α} (h : l.Pairwise fun a b => number a < number b) :
    l.dropWhile (fun a => decide (number a < low)) =
      l.filter (fun a => decide (low ≤ number a)) := by
  induction l with
  | nil => rfl
  | cons a l ih =>
    obtain ⟨habove, h⟩ := List.pairwise_cons.mp h
    by_cases ha : number a < low
    · rw [List.dropWhile_cons_of_pos (by simpa using ha),
        List.filter_cons_of_neg (by simpa using ha)]
      exact ih h
    · rw [List.dropWhile_cons_of_neg (by simpa using ha)]
      refine (List.filter_eq_self.mpr fun b hb => ?_).symm
      rcases List.mem_cons.mp hb with rfl | hb
      · simpa using ha
      · have := habove b hb
        simp only [decide_eq_true_eq]
        omega

end Sniper.Lib
