import Mathlib.Data.List.Basic

/-! # Rings of cells

A ring of `n` cells with the place of the next one to fill and of the oldest one that is filled.
The two are equal where no cell is filled, so that one cell always stays free. -/
namespace Sniper.Lib.Ring

/-- The filled cells, the oldest one first. -/
def cells (n last first : ℕ) : List ℕ :=
  (List.range ((first + n - last) % n)).map fun i => (last + i) % n

variable {n last first : ℕ}

theorem next_eq (h : first < n) :
    (first + 1) % n = if first + 1 = n then 0 else first + 1 := by
  split
  · rename_i heq
    rw [heq, Nat.mod_self]
  · exact Nat.mod_eq_of_lt (by omega)

theorem next_lt (h : first < n) : (first + 1) % n < n := Nat.mod_lt _ (by omega)

theorem length_cells (hlast : last < n) (hfirst : first < n) :
    (cells n last first).length = if last ≤ first then first - last else first + n - last := by
  rw [cells, List.length_map, List.length_range]
  split
  · rw [show first + n - last = first - last + n by omega, Nat.add_mod_right]
    exact Nat.mod_eq_of_lt (by omega)
  · exact Nat.mod_eq_of_lt (by omega)

theorem cells_eq (n last first : ℕ) : cells n last first =
    (List.range (cells n last first).length).map fun i => (last + i) % n := by
  simp [cells]

theorem length_lt (hlast : last < n) (hfirst : first < n) :
    (cells n last first).length < n := by
  rw [length_cells hlast hfirst]
  split <;> omega

theorem length_eq_zero_iff (hlast : last < n) (hfirst : first < n) :
    (cells n last first).length = 0 ↔ first = last := by
  rw [length_cells hlast hfirst]
  split <;> omega

theorem length_eq_iff_next (hlast : last < n) (hfirst : first < n) :
    (cells n last first).length + 1 = n ↔ (first + 1) % n = last := by
  rw [length_cells hlast hfirst, next_eq hfirst]
  split <;> split <;> omega

theorem first_notMem (hlast : last < n) (hfirst : first < n) : first ∉ cells n last first := by
  rw [cells_eq, length_cells hlast hfirst]
  intro hmem
  obtain ⟨i, hi, heq⟩ := List.mem_map.mp hmem
  rw [List.mem_range] at hi
  rcases Nat.lt_or_ge (last + i) n with hlt | hge
  · rw [Nat.mod_eq_of_lt hlt] at heq
    split at hi <;> omega
  · rw [Nat.mod_eq_sub_mod hge] at heq
    have hsmall : last + i - n < n := by split at hi <;> omega
    rw [Nat.mod_eq_of_lt hsmall] at heq
    split at hi <;> omega

theorem cells_fill (hlast : last < n) (hfirst : first < n) (hroom : (first + 1) % n ≠ last) :
    cells n last ((first + 1) % n) = cells n last first ++ [first] := by
  have hlen : (cells n last ((first + 1) % n)).length = (cells n last first).length + 1 := by
    rw [length_cells hlast (next_lt hfirst), length_cells hlast hfirst]
    rw [next_eq hfirst] at hroom ⊢
    split at hroom <;> rename_i hend
    · rw [if_pos hend]
      split <;> split <;> omega
    · rw [if_neg hend]
      split <;> split <;> omega
  rw [cells_eq, hlen, List.range_succ, List.map_append, ← cells_eq, List.map_singleton]
  congr 2
  rw [length_cells hlast hfirst]
  split
  · rw [show last + (first - last) = first by omega, Nat.mod_eq_of_lt hfirst]
  · rw [show last + (first + n - last) = first + n by omega, Nat.add_mod_right,
      Nat.mod_eq_of_lt hfirst]

theorem cells_empty (hlast : last < n) (hfirst : first < n) (hfilled : first ≠ last) :
    cells n last first = last :: cells n ((last + 1) % n) first := by
  have hlen : (cells n last first).length = (cells n ((last + 1) % n) first).length + 1 := by
    rw [length_cells (next_lt hlast) hfirst, length_cells hlast hfirst, next_eq hlast]
    split <;> split <;> split <;> omega
  have hrest := cells_eq n ((last + 1) % n) first
  rw [hrest, cells_eq, hlen, List.range_succ_eq_map, List.map_cons, List.map_map, Nat.add_zero,
    Nat.mod_eq_of_lt hlast]
  congr 1
  refine List.map_congr_left fun i _ => ?_
  rw [Function.comp_apply, Nat.mod_add_mod]
  congr 1
  omega

end Sniper.Lib.Ring
