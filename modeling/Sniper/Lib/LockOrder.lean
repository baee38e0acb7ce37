import Mathlib.Data.Nat.Notation

/-! # Locks taken in order

Threads take numbered locks, one at a time. Where a thread that wants a lock holds only lower
ones, a thread that is blocked leads to one that is not. -/

namespace Sniper.Lib.LockOrder

variable {T : Type} (holder : ℕ → Option T) (wants : T → Option ℕ)

/-- The lock that the thread wants is taken. -/
def Blocked (t : T) : Prop := ∃ i, wants t = some i ∧ holder i ≠ none

variable {holder wants}

theorem exists_not_blocked {n} (hbound : ∀ t i, wants t = some i → i < n)
    (horder : ∀ i u j, holder i = some u → wants u = some j → i < j) {t}
    (h : Blocked holder wants t) : ∃ u i, holder i = some u ∧ ¬ Blocked holder wants u := by
  -- along the holders the lock that is wanted increases
  suffices hk : ∀ k t i, n - i ≤ k → wants t = some i → holder i ≠ none →
      ∃ u i, holder i = some u ∧ ¬ Blocked holder wants u by
    obtain ⟨i, hi, hheld⟩ := h
    exact hk (n - i) t i (Nat.le_refl _) hi hheld
  intro k
  induction k with
  | zero =>
    intro t i hle hi _
    have := hbound t i hi
    omega
  | succ k ih =>
    intro t i hle hi hheld
    obtain ⟨u, hu⟩ := Option.ne_none_iff_exists'.mp hheld
    by_cases hblocked : Blocked holder wants u
    · obtain ⟨j, hj, htaken⟩ := hblocked
      have := horder i u j hu hj
      exact ih u j (by omega) hj htaken
    · exact ⟨u, i, hu, hblocked⟩

end Sniper.Lib.LockOrder
