import Mathlib.Data.List.Basic
import Mathlib.Data.List.Count

/-! # Numbering what is kept

Of the positions of a sequence some are kept, and those get consecutive numbers: a position gets
its rank, the number of positions kept before it. So what is kept of a range of positions has a
range of numbers.
-/
namespace Sniper.Lib.Compaction

variable {keep other : Nat → Bool}

/-- The positions kept before a position. -/
def rank (keep : Nat → Bool) (j : Nat) : Nat := (List.range j).countP keep

@[simp] theorem rank_zero : rank keep 0 = 0 := rfl

theorem rank_succ (j : Nat) : rank keep (j + 1) = rank keep j + if keep j then 1 else 0 := by
  rw [rank, rank, List.range_succ, List.countP_append, List.countP_singleton]

theorem rank_le_of_le (keep : Nat → Bool) {a b} (h : a ≤ b) :
    rank keep a ≤ rank keep b ∧ rank keep b ≤ rank keep a + (b - a) := by
  induction b with
  | zero =>
    obtain rfl := Nat.le_zero.mp h
    exact ⟨Nat.le_refl _, Nat.le_refl _⟩
  | succ b ih =>
    rcases Nat.lt_or_eq_of_le h with hlt | rfl
    · obtain ⟨hle, hge⟩ := ih (Nat.le_of_lt_succ hlt)
      rw [rank_succ]
      split <;> omega
    · exact ⟨Nat.le_refl _, Nat.le_add_right _ _⟩

theorem rank_eq_zero {j} (h : ∀ i < j, keep i = false) : rank keep j = 0 := by
  rw [rank, List.countP_eq_zero]
  exact fun i hi => by simp [h i (List.mem_range.mp hi)]

theorem rank_le (keep : Nat → Bool) (j : Nat) : rank keep j ≤ j := by
  have h := (rank_le_of_le keep (Nat.zero_le j)).2
  rw [rank_zero] at h
  omega

/-- Two ways of keeping that agree from `b` on, where the one keeps nothing before. -/
theorem rank_from {b i} (hb : b ≤ i) (hbefore : ∀ j < b, keep j = false)
    (hsame : ∀ j, b ≤ j → j < i → keep j = other j) :
    rank keep i = rank other i - rank other b := by
  induction i with
  | zero =>
    obtain rfl := Nat.le_zero.mp hb
    rfl
  | succ i ih =>
    rcases Nat.lt_or_eq_of_le hb with hlt | heq
    · have hle := (rank_le_of_le other (Nat.le_of_lt_succ hlt)).1
      rw [rank_succ, rank_succ, ih (Nat.le_of_lt_succ hlt)
        (fun j hj hji => hsame j hj (by omega)), hsame i (by omega) (by omega)]
      split <;> omega
    · rw [← heq, rank_eq_zero hbefore, Nat.sub_self]

theorem rank_interval {a b} (n : Nat) :
    rank (fun i => decide (a ≤ i ∧ i < b)) n = min n b - a := by
  induction n with
  | zero => simp
  | succ n ih =>
    rw [rank_succ, ih]
    by_cases h : a ≤ n ∧ n < b
    · rw [if_pos (decide_eq_true h)]
      omega
    · rw [if_neg (by simpa using h)]
      omega

theorem countP_take {α} (p : α → Bool) (l : List α) (j : Nat) :
    (l.take j).countP p = rank (fun i => (l[i]?).any p) j := by
  induction j with
  | zero => rfl
  | succ j ih =>
    rw [rank_succ, ← ih, List.take_add_one, List.countP_append]
    cases l[j]? with
    | none => rfl
    | some a => simp [List.countP_singleton]

theorem rank_congr {j} (h : ∀ i < j, keep i = other i) : rank keep j = rank other j :=
  List.countP_congr fun i hi => by rw [h i (List.mem_range.mp hi)]

theorem numbers_of_range (keep : Nat → Bool) (next a k : Nat) :
    ((List.range' a k).filter keep).map (fun j => next + rank keep j) =
      List.range' (next + rank keep a) (rank keep (a + k) - rank keep a) := by
  induction k with
  | zero => simp
  | succ k ih =>
    have hle := (rank_le_of_le keep (Nat.le_add_right a k)).1
    rw [List.range'_concat, List.filter_append, List.map_append, ih, ← Nat.add_assoc a k 1,
      rank_succ, Nat.one_mul]
    by_cases hkeep : keep (a + k) = true
    · rw [List.filter_cons_of_pos hkeep, if_pos hkeep]
      have hlength : rank keep (a + k) + 1 - rank keep a = rank keep (a + k) - rank keep a + 1 := by
        omega
      have hlast : next + rank keep (a + k) =
          next + rank keep a + 1 * (rank keep (a + k) - rank keep a) := by omega
      rw [hlength, List.range'_concat, ← hlast]
      rfl
    · rw [List.filter_cons_of_neg hkeep, if_neg hkeep]
      simp

end Sniper.Lib.Compaction
