import Mathlib.Tactic.Ring
import Mathlib.Tactic.NormNum
import Sniper.Network.Mesh

/-! # Routes through the mesh

On each axis a packet takes the shorter way round, except that on a ring with an odd number of
nodes it takes the longer way when the two differ by one hop. Every hop brings it one closer to
its destination.
-/
namespace Sniper.Network

open Mesh (gap)

/-! ## One axis -/

namespace Axis
variable (n : Nat) (wrap : Bool)

/-- `computeDistance` on one axis. -/
def distance (s d : Nat) : Nat := if wrap then min (gap s d) (n - gap s d) else gap s d

/-- The longer way round by one hop. -/
def Detour (s d : Nat) : Prop := wrap ∧ 2 * gap s d = n + 1

instance (s d : Nat) : Decidable (Detour n wrap s d) := inferInstanceAs (Decidable (_ ∧ _))

/-- The hops that a packet takes on one axis. -/
def hops (s d : Nat) : Nat := distance n wrap s d + if Detour n wrap s d then 1 else 0

/-- Whether it goes towards zero. -/
def back (s d : Nat) : Bool := xor (s > d) (wrap && gap s d > (n + 1) / 2)

def prev (s : Nat) : Nat := if s = 0 then n - 1 else s - 1
def next (s : Nat) : Nat := if s + 1 = n then 0 else s + 1

variable {n wrap} {s d : Nat}

theorem gap_eq (a b : Nat) : gap a b = (a - b) + (b - a) := by
  unfold gap
  omega

theorem hops_self : hops n wrap s s = 0 := by
  have hgap : gap s s = 0 := by simp [gap_eq]
  simp [hops, distance, Detour, hgap]

theorem distance_eq_zero (hs : s < n) (hd : d < n) : distance n wrap s d = 0 ↔ s = d := by
  have hgap := gap_eq s d
  unfold distance
  cases wrap with
  | false =>
    simp only [Bool.false_eq_true, ↓reduceIte]
    omega
  | true =>
    simp only [↓reduceIte]
    omega

theorem hops_eq_zero (hs : s < n) (hd : d < n) (h : hops n wrap s d = 0) : s = d := by
  unfold hops at h
  have hzero : distance n wrap s d = 0 := by omega
  exact (distance_eq_zero hs hd).mp hzero

theorem hops_lt (hs : s < n) (hd : d < n) : hops n wrap s d < n := by
  have hgap := gap_eq s d
  unfold hops distance Detour
  cases wrap with
  | false =>
    simp only [Bool.false_eq_true, ↓reduceIte, false_and]
    omega
  | true =>
    simp only [↓reduceIte, true_and]
    split <;> omega

theorem prev_lt (hs : s < n) : prev n s < n := by
  unfold prev
  split <;> omega

theorem next_lt (hs : s < n) : next n s < n := by
  unfold next
  split <;> omega

theorem hops_eq (hs : s < n) (_ : d < n) : hops n wrap s d =
    if wrap = true ∧ (n + 1) / 2 < gap s d then n - gap s d else gap s d := by
  unfold hops distance Detour
  cases wrap with
  | false => simp
  | true =>
    simp only [↓reduceIte, true_and]
    split <;> split <;> omega

theorem back_iff : back n wrap s d = true ↔
    (d < s ↔ ¬ (wrap = true ∧ (n + 1) / 2 < gap s d)) := by
  unfold back
  cases wrap with
  | false => simp
  | true =>
    by_cases hlt : d < s <;> by_cases hgap : (n + 1) / 2 < gap s d <;> simp [hlt, hgap]

theorem hops_prev (hs : s < n) (hd : d < n) (h : back n wrap s d = true) :
    hops n wrap (prev n s) d + 1 = hops n wrap s d := by
  have hgap := gap_eq s d
  have hgap' := gap_eq (prev n s) d
  rw [back_iff] at h
  rw [hops_eq (prev_lt hs) hd, hops_eq hs hd]
  have hprev : (s = 0 ∧ prev n s = n - 1) ∨ (s ≠ 0 ∧ prev n s = s - 1) := by
    unfold prev
    split <;> omega
  cases wrap with
  | false =>
    simp only [Bool.false_eq_true, false_and, not_false_eq_true, iff_true, ↓reduceIte] at h ⊢
    omega
  | true =>
    simp only [true_and] at h ⊢
    split <;> split <;> omega

theorem hops_next (hs : s < n) (hd : d < n) (hne : s ≠ d) (h : back n wrap s d = false) :
    hops n wrap (next n s) d + 1 = hops n wrap s d := by
  have hgap := gap_eq s d
  have hgap' := gap_eq (next n s) d
  rw [← Bool.not_eq_true, back_iff] at h
  rw [hops_eq (next_lt hs) hd, hops_eq hs hd]
  have hnext : (s + 1 = n ∧ next n s = 0) ∨ (s + 1 ≠ n ∧ next n s = s + 1) := by
    unfold next
    split <;> omega
  cases wrap with
  | false =>
    simp only [Bool.false_eq_true, false_and, not_false_eq_true, iff_true, ↓reduceIte] at h ⊢
    omega
  | true =>
    simp only [true_and] at h ⊢
    split <;> split <;> omega

theorem emod_prev (hs : s < n) : ((s : Int) - 1 + n) % n = prev n s := by
  unfold prev
  split
  · next h =>
    rw [Int.emod_eq_of_lt (by omega) (by omega)]
    omega
  · rw [Int.add_emod_right, Int.emod_eq_of_lt (by omega) (by omega)]
    omega

theorem emod_next (hs : s < n) : ((s : Int) + 1 + n) % n = next n s := by
  unfold next
  rw [Int.add_emod_right]
  split
  · next h =>
    have hn : (s : Int) + 1 = n := by omega
    rw [hn]
    simp
  · rw [Int.emod_eq_of_lt (by omega) (by omega)]
    omega

theorem emod_same (hs : s < n) : ((s : Int) + n) % n = s := by
  rw [Int.add_emod_right, Int.emod_eq_of_lt (by omega) (by omega)]

end Axis

/-! ## Positions -/

namespace Mesh
variable (m : Mesh)

/-- The master core at a position. -/
def coreAt (x y : Nat) : Nat := (y * m.m_mesh_width + x) * m.m_concentration

/-- An application core that is the master of its node. -/
def IsMaster (c : Nat) : Prop := c % m.m_concentration = 0 ∧ c < m.applicationCores

instance (c : Nat) : Decidable (m.IsMaster c) := inferInstanceAs (Decidable (_ ∧ _))

/-- The hops between the nodes of two cores. -/
def hopsTo (c r : Nat) : Nat :=
  Axis.hops m.m_mesh_width m.m_wrap_around (m.computePosition c).1 (m.computePosition r).1 +
    Axis.hops m.m_mesh_height m.m_wrap_around (m.computePosition c).2 (m.computePosition r).2

/-- A detour on one of the axes. -/
def Detour (c r : Nat) : Prop :=
  Axis.Detour m.m_mesh_width m.m_wrap_around (m.computePosition c).1 (m.computePosition r).1 ∨
    Axis.Detour m.m_mesh_height m.m_wrap_around (m.computePosition c).2 (m.computePosition r).2

instance (c r : Nat) : Decidable (m.Detour c r) := inferInstanceAs (Decidable (_ ∨ _))

/-- Cores of one concentrated node. -/
def SameNode (c r : Nat) : Prop := c / m.m_concentration = r / m.m_concentration

variable {m} {c r : Nat}

theorem computeDistance_eq : m.computeDistance c r =
    Axis.distance m.m_mesh_width m.m_wrap_around (m.computePosition c).1 (m.computePosition r).1 +
      Axis.distance m.m_mesh_height m.m_wrap_around (m.computePosition c).2
        (m.computePosition r).2 := by
  unfold computeDistance Axis.distance
  cases m.m_wrap_around <;> rfl

theorem distance_le_hopsTo : m.computeDistance c r ≤ m.hopsTo c r := by
  rw [computeDistance_eq]
  unfold hopsTo Axis.hops
  omega

theorem hopsTo_eq_distance : m.hopsTo c r = m.computeDistance c r ↔ ¬ m.Detour c r := by
  rw [computeDistance_eq]
  unfold hopsTo Axis.hops Detour
  split_ifs with hx hy hy
  all_goals
    simp only [hx, hy, or_self, or_false, false_or, not_true_eq_false, not_false_eq_true,
      iff_false, iff_true]
    omega

theorem fakeNode_eq_false (hc : c < m.applicationCores) :
    m.fakeNode c = false ↔ m.IsMaster c := by
  have happ : m.applicationCores = m.m_concentration * m.m_mesh_width * m.m_mesh_height := by
    unfold applicationCores
    ring
  have hlt : ¬ m.m_concentration * m.m_mesh_width * m.m_mesh_height ≤ c := by omega
  simp [fakeNode, IsMaster, hc, hlt]

theorem position_fst_lt : (m.computePosition c).1 < m.m_mesh_width := Nat.mod_lt _ m.width_pos

theorem position_snd_lt (hc : c < m.applicationCores) :
    (m.computePosition c).2 < m.m_mesh_height := by
  unfold computePosition
  rw [Nat.div_div_eq_div_mul, Nat.div_lt_iff_lt_mul (Nat.mul_pos m.concentration_pos m.width_pos)]
  have happ : m.applicationCores = m.m_mesh_height * (m.m_concentration * m.m_mesh_width) := by
    unfold applicationCores
    ring
  omega

theorem sameNode_iff : m.SameNode c r ↔ m.computePosition c = m.computePosition r := by
  unfold SameNode computePosition
  constructor
  · intro h
    rw [h]
  · intro h
    have hmod := congrArg Prod.fst h
    have hdiv := congrArg Prod.snd h
    simp only at hmod hdiv
    rw [← Nat.div_add_mod (c / m.m_concentration) m.m_mesh_width,
      ← Nat.div_add_mod (r / m.m_concentration) m.m_mesh_width, hmod, hdiv]

theorem hopsTo_eq_zero (hc : c < m.applicationCores) (hr : r < m.applicationCores) :
    m.hopsTo c r = 0 ↔ m.SameNode c r := by
  rw [sameNode_iff]
  constructor
  · intro h
    obtain ⟨hx, hy⟩ := Nat.add_eq_zero_iff.mp h
    exact Prod.ext (Axis.hops_eq_zero position_fst_lt position_fst_lt hx)
      (Axis.hops_eq_zero (position_snd_lt hc) (position_snd_lt hr) hy)
  · intro h
    simp only [hopsTo, h, Axis.hops_self]

theorem hopsTo_lt (hc : c < m.applicationCores) (hr : r < m.applicationCores) :
    m.hopsTo c r < m.m_mesh_width + m.m_mesh_height := by
  exact Nat.add_lt_add (Axis.hops_lt position_fst_lt position_fst_lt)
    (Axis.hops_lt (position_snd_lt hc) (position_snd_lt hr))

theorem computePosition_coreAt {x} (hx : x < m.m_mesh_width) (y : Nat) :
    m.computePosition (m.coreAt x y) = (x, y) := by
  unfold computePosition coreAt
  rw [Nat.mul_div_cancel _ m.concentration_pos, Nat.add_comm, Nat.add_mul_mod_self_right,
    Nat.mod_eq_of_lt hx, Nat.add_mul_div_right _ _ m.width_pos, Nat.div_eq_of_lt hx, Nat.zero_add]

theorem isMaster_coreAt {x y} (hx : x < m.m_mesh_width) (hy : y < m.m_mesh_height) :
    m.IsMaster (m.coreAt x y) := by
  refine ⟨Nat.mul_mod_left _ _, ?_⟩
  have hrow : y * m.m_mesh_width + x < m.m_mesh_height * m.m_mesh_width :=
    calc y * m.m_mesh_width + x < y * m.m_mesh_width + m.m_mesh_width := by omega
      _ = (y + 1) * m.m_mesh_width := by ring
      _ ≤ m.m_mesh_height * m.m_mesh_width := Nat.mul_le_mul_right _ hy
  have happ : m.applicationCores = m.m_mesh_height * m.m_mesh_width * m.m_concentration := by
    unfold applicationCores
    ring
  rw [happ]
  exact Nat.mul_lt_mul_of_pos_right hrow m.concentration_pos

theorem computeCoreId_eq {x y : Int} {a b : Nat} (hx : (x + m.m_mesh_width) % m.m_mesh_width = a)
    (hy : (y + m.m_mesh_height) % m.m_mesh_height = b) : m.computeCoreId x y = m.coreAt a b := by
  unfold computeCoreId coreAt
  rw [hx, hy]
  norm_cast

/-! ## The next node -/

theorem getNextDest_sameNode (hr : r < m.applicationCores) (h : m.SameNode c r) :
    m.getNextDest c r = (r, .DESTINATION) := by
  unfold getNextDest
  rw [if_neg (Nat.not_le.mpr hr), if_pos (by exact h)]

theorem getNextDest_closer (hc : m.IsMaster c) (hr : r < m.applicationCores)
    (h : ¬ m.SameNode c r) : ∃ c' direction, m.getNextDest c r = (c', direction) ∧
      direction.fake = false ∧ m.IsMaster c' ∧ m.hopsTo c' r + 1 = m.hopsTo c r := by
  have hfake := (fakeNode_eq_false hc.2).mpr hc
  have hsx : (m.computePosition c).1 < m.m_mesh_width := position_fst_lt
  have hdx : (m.computePosition r).1 < m.m_mesh_width := position_fst_lt
  have hsy := position_snd_lt hc.2
  have hdy := position_snd_lt hr
  rw [sameNode_iff] at h
  have hstep : ∀ x y, x < m.m_mesh_width → y < m.m_mesh_height →
      Axis.hops m.m_mesh_width m.m_wrap_around x (m.computePosition r).1 +
        Axis.hops m.m_mesh_height m.m_wrap_around y (m.computePosition r).2 + 1 = m.hopsTo c r →
      m.IsMaster (m.coreAt x y) ∧ m.hopsTo (m.coreAt x y) r + 1 = m.hopsTo c r := by
    intro x y hx hy hlt
    refine ⟨isMaster_coreAt hx hy, ?_⟩
    rw [hopsTo, computePosition_coreAt hx y]
    exact hlt
  unfold getNextDest
  have hnode : ¬ c / m.m_concentration = r / m.m_concentration :=
    fun hsame => h (sameNode_iff.mp hsame)
  rw [if_neg (Nat.not_le.mpr hr), if_neg hnode, hfake]
  unfold hopsTo at *
  generalize m.computePosition c = s at *
  generalize m.computePosition r = d at *
  obtain ⟨sx, sy⟩ := s
  obtain ⟨dx, dy⟩ := d
  simp only [Bool.false_eq_true, ↓reduceIte] at *
  by_cases hleft : Axis.back m.m_mesh_width m.m_wrap_around sx dx = true
  · obtain ⟨hmaster, hlt⟩ := hstep _ sy (Axis.prev_lt hsx) hsy (by
      have := Axis.hops_prev hsx hdx hleft
      omega)
    rw [if_pos (by exact hleft), computeCoreId_eq (Axis.emod_prev hsx) (Axis.emod_same hsy)]
    exact ⟨_, _, rfl, rfl, hmaster, hlt⟩
  rw [if_neg (by exact hleft)]
  by_cases hx : sx = dx
  · rw [if_neg (by simpa using hx)]
    by_cases hdown : Axis.back m.m_mesh_height m.m_wrap_around sy dy = true
    · obtain ⟨hmaster, hlt⟩ := hstep sx _ hsx (Axis.prev_lt hsy) (by
        have := Axis.hops_prev hsy hdy hdown
        omega)
      rw [if_pos (by exact hdown), computeCoreId_eq (Axis.emod_same hsx) (Axis.emod_prev hsy)]
      exact ⟨_, _, rfl, rfl, hmaster, hlt⟩
    · have hy : sy ≠ dy := fun hy => h (Prod.ext hx hy)
      obtain ⟨hmaster, hlt⟩ := hstep sx _ hsx (Axis.next_lt hsy) (by
        have := Axis.hops_next hsy hdy hy (by simpa using hdown)
        omega)
      rw [if_neg (by exact hdown), if_pos hy,
        computeCoreId_eq (Axis.emod_same hsx) (Axis.emod_next hsy)]
      exact ⟨_, _, rfl, rfl, hmaster, hlt⟩
  · obtain ⟨hmaster, hlt⟩ := hstep _ sy (Axis.next_lt hsx) hsy (by
      have := Axis.hops_next hsx hdx hx (by simpa using hleft)
      omega)
    rw [if_pos hx, computeCoreId_eq (Axis.emod_next hsx) (Axis.emod_same hsy)]
    exact ⟨_, _, rfl, rfl, hmaster, hlt⟩

end Mesh
end Sniper.Network
