import Mathlib.Tactic.Ring

/-! # Interleaving

Places in chunks of `w`, the chunks dealt to `n` lanes in turn. A place is the lane that its
chunk goes to, with its place in the lane.
-/
namespace Sniper.Lib.Interleave
variable {w n i l l' a : Nat}

def lane (w n a : Nat) : Nat := a / w % n

def inLane (w n a : Nat) : Nat := a / w / n * w + a % w

/-- The place that is at `l` in lane `i`. -/
def place (w n i l : Nat) : Nat := (l / w * n + i) * w + l % w

theorem lane_lt (hn : 0 < n) : lane w n a < n := Nat.mod_lt _ hn

theorem mul_add_mod (q : Nat) : (q * w + a % w) % w = a % w := by
  rw [Nat.mul_comm, Nat.mul_add_mod, Nat.mod_mod]

theorem inLane_mod : inLane w n a % w = a % w := mul_add_mod _

theorem lane_block (u v : Nat) : lane (v * u) n a = lane u n (a / v) := by
  rw [lane, lane, Nat.div_div_eq_div_mul]

theorem inLane_block {v} (hv : 0 < v) (u : Nat) :
    inLane (v * u) n a / v = inLane u n (a / v) := by
  unfold inLane
  rw [Nat.mul_left_comm, Nat.mul_add_div hv, Nat.mod_mul_right_div_self, Nat.div_div_eq_div_mul a v u]

section Chunk
variable (hw : 0 < w)
include hw

theorem mul_add_div (q : Nat) : (q * w + a % w) / w = q := by
  rw [Nat.mul_comm, Nat.mul_add_div hw, Nat.div_eq_of_lt (Nat.mod_lt _ hw), Nat.add_zero]

theorem inLane_div : inLane w n a / w = a / w / n := mul_add_div hw _

theorem lane_place (hi : i < n) : lane w n (place w n i l) = i := by
  rw [lane, place, mul_add_div hw, Nat.mul_comm, Nat.mul_add_mod, Nat.mod_eq_of_lt hi]

theorem inLane_place (hi : i < n) : inLane w n (place w n i l) = l := by
  rw [inLane, place, mul_add_div hw, mul_add_mod, Nat.mul_comm _ n,
    Nat.mul_add_div (Nat.zero_lt_of_lt hi), Nat.div_eq_of_lt hi, Nat.add_zero, Nat.mul_comm,
    Nat.div_add_mod]

theorem place_inLane : place w n (lane w n a) (inLane w n a) = a := by
  rw [place, inLane_div hw, inLane_mod, lane, Nat.mul_comm _ n, Nat.div_add_mod, Nat.mul_comm,
    Nat.div_add_mod]

theorem place_strictMono (hn : 0 < n) (i : Nat) : StrictMono (place w n i) := by
  intro l l' hlt
  have hdiv := Nat.div_le_div_right (c := w) hlt.le
  have hmod := Nat.mod_lt l hw
  rcases hdiv.lt_or_eq with hchunk | hchunk
  · calc place w n i l < (l / w * n + i) * w + w := Nat.add_lt_add_left hmod _
      _ = (l / w * n + 1 + i) * w := by ring
      _ ≤ ((l / w + 1) * n + i) * w := Nat.mul_le_mul_right _ (by rw [Nat.succ_mul]; omega)
      _ ≤ (l' / w * n + i) * w :=
        Nat.mul_le_mul_right _ (Nat.add_le_add_right (Nat.mul_le_mul_right _ hchunk) _)
      _ ≤ place w n i l' := Nat.le_add_right _ _
  · have hl := Nat.div_add_mod l w
    have hl' := Nat.div_add_mod l' w
    unfold place
    rw [← hchunk] at hl' ⊢
    omega

theorem ext {b} (hlane : lane w n a = lane w n b) (hin : inLane w n a = inLane w n b) :
    a = b := by
  rw [← place_inLane (n := n) hw (a := a), hlane, hin, place_inLane hw]

theorem inLane_lt_iff (hn : 0 < n) {b} (hlane : lane w n a = lane w n b) :
    inLane w n a < inLane w n b ↔ a < b := by
  rw [← (place_strictMono hw hn (lane w n a)).lt_iff_lt, place_inLane hw, hlane, place_inLane hw]

theorem exists_of_le (hn : 0 < n) (hle : l ≤ inLane w n a) :
    ∃ b ≤ a, lane w n b = lane w n a ∧ inLane w n b = l := by
  refine ⟨place w n (lane w n a) l, ?_, lane_place hw (lane_lt hn), inLane_place hw (lane_lt hn)⟩
  calc place w n (lane w n a) l ≤ place w n (lane w n a) (inLane w n a) :=
        (place_strictMono hw hn _).monotone hle
    _ = a := place_inLane hw

theorem exists_of_round {chunks} (hi : i < n) (hl : l / w < chunks / n) :
    ∃ b < chunks * w, lane w n b = i ∧ inLane w n b = l := by
  refine ⟨place w n i l, ?_, lane_place hw hi, inLane_place hw hi⟩
  have hround : l / w * n + i < chunks := calc
    l / w * n + i < l / w * n + n := Nat.add_lt_add_left hi _
    _ = (l / w + 1) * n := (Nat.succ_mul _ _).symm
    _ ≤ chunks / n * n := Nat.mul_le_mul_right _ hl
    _ ≤ chunks := Nat.div_mul_le_self _ _
  calc place w n i l < (l / w * n + i) * w + w := Nat.add_lt_add_left (Nat.mod_lt _ hw) _
    _ = (l / w * n + i + 1) * w := (Nat.succ_mul _ _).symm
    _ ≤ chunks * w := Nat.mul_le_mul_right _ hround

end Chunk
end Sniper.Lib.Interleave
