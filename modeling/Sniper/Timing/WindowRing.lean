import Mathlib.Data.Int.ModEq
import Mathlib.Tactic.Linarith
import Sniper.Timing.Dependencies
import Sniper.Timing.Windows

/-! # The ring of the double window

The entry with sequence number `s` is in slot `s % m_double_window_size`, and the ring holds the
last micro-ops that it has room for. What the lookups answer follows from that.
-/
namespace Sniper.Timing.Interval

variable {Reg C : Type}

namespace Windows
variable {ws ws' : Windows Reg C}

/-- The sequence number of the head of the window. -/
def headNumber (ws : Windows Reg C) : Nat := ws.m_next_sequence_number - ws.m_window_length

/-- The sequence number of the head of the old window. -/
def oldNumber (ws : Windows Reg C) : Nat := ws.headNumber - ws.m_old_window_length

def slotOf (ws : Windows Reg C) (s : Nat) : Nat := s % ws.m_double_window_size

def numberAt (ws : Windows Reg C) (index : Nat) : Option Nat :=
  (ws.m_double_window index).uop.map (·.sequenceNumber)

structure Ring (ws : Windows Reg C) : Prop where
  size : 0 < ws.m_window_size
  window : ws.m_window_length ≤ ws.m_window_size
  old : ws.m_old_window_length ≤ ws.m_window_size
  total : ws.m_window_length + ws.m_old_window_length ≤ ws.m_next_sequence_number
  head : ws.m_window_head__old_window_tail = ws.slotOf ws.headNumber
  tail : ws.m_window_tail = ws.slotOf ws.m_next_sequence_number
  oldHead : ws.m_old_window_head = ws.slotOf ws.oldNumber
  held : ∀ s < ws.m_next_sequence_number,
    ws.m_next_sequence_number ≤ s + ws.m_double_window_size → ws.numberAt (ws.slotOf s) = some s
  unused : ∀ i < ws.m_double_window_size, ws.m_next_sequence_number ≤ i → ws.numberAt i = none
  started : 0 < ws.headNumber → 0 < ws.m_window_length + ws.m_old_window_length

theorem ring_new (contention : IntervalContention Reg C) (c : C) {w} (h : 0 < w) :
    Ring (new w contention c) := by
  constructor <;> simp [new, headNumber, oldNumber, slotOf, numberAt, WindowEntry.init, h]

/-! ### Indices -/

theorem Ring.double_pos (h : Ring ws) : 0 < ws.m_double_window_size := by
  have := h.size
  unfold m_double_window_size
  omega

theorem slotOf_succ (s : Nat) : ws.incrementIndex (ws.slotOf s) = ws.slotOf (s + 1) := by
  unfold incrementIndex slotOf
  rw [Nat.mod_add_mod]

theorem Ring.slotOf_pred (h : Ring ws) (s : Nat) :
    ws.decrementIndex (ws.slotOf (s + 1)) = ws.slotOf s := by
  have hpos := h.double_pos
  unfold decrementIndex slotOf
  rw [Nat.add_sub_assoc hpos, Nat.mod_add_mod]
  have hsum : s + 1 + (ws.m_double_window_size - 1) = s + ws.m_double_window_size := by omega
  rw [hsum, Nat.add_mod_right]

theorem windowIndex_slotOf (a s : Nat) :
    ws.windowIndex (ws.slotOf a - ((a : Int) - s)) = ws.slotOf s := by
  unfold windowIndex slotOf
  have hcast : ((a % ws.m_double_window_size : Nat) : Int) - ((a : Int) - s) =
      s + ws.m_double_window_size * -(a / ws.m_double_window_size : Nat) := by
    have hdiv := Nat.div_add_mod a ws.m_double_window_size
    have hdiv' := congrArg (Nat.cast (R := Int)) hdiv
    push_cast at hdiv' ⊢
    linarith
  rw [hcast, Int.add_mul_emod_self_left]
  norm_cast

theorem windowIndex_pred {s} (h : 0 < s) :
    ws.windowIndex (ws.slotOf s - 1) = ws.slotOf (s - 1) := by
  have hstep : ws.windowIndex _ = _ := windowIndex_slotOf s (s - 1)
  have hone : (s : Int) - (s - 1 : Nat) = 1 := by omega
  rw [hone] at hstep
  exact hstep

theorem slotOf_ne {a b} (hlt : a < b) (hclose : b < a + ws.m_double_window_size) :
    ws.slotOf a ≠ ws.slotOf b := by
  intro heq
  have hdvd : ws.m_double_window_size ∣ b - a :=
    (Nat.modEq_iff_dvd' hlt.le).mp heq
  have hle := Nat.le_of_dvd (by omega) hdvd
  omega

/-- Whatever slot is in use holds one of the last micro-ops that the ring has room for. -/
theorem Ring.numberAt_range (h : Ring ws) {index s} (hindex : index < ws.m_double_window_size)
    (hs : ws.numberAt index = some s) :
    s < ws.m_next_sequence_number ∧
      ws.m_next_sequence_number ≤ s + ws.m_double_window_size := by
  have hused : index < ws.m_next_sequence_number := by
    by_contra hge
    rw [h.unused index hindex (by omega)] at hs
    cases hs
  obtain ⟨rounds, hlow, hhigh⟩ : ∃ rounds,
      index + ws.m_double_window_size * rounds < ws.m_next_sequence_number ∧
      ws.m_next_sequence_number ≤
        index + ws.m_double_window_size * rounds + ws.m_double_window_size := by
    refine ⟨(ws.m_next_sequence_number - 1 - index) / ws.m_double_window_size, ?_⟩
    have hdiv := Nat.div_add_mod (ws.m_next_sequence_number - 1 - index) ws.m_double_window_size
    have hmod := Nat.mod_lt (ws.m_next_sequence_number - 1 - index) h.double_pos
    omega
  have hslot : ws.slotOf (index + ws.m_double_window_size * rounds) = index := by
    unfold slotOf
    rw [Nat.add_mul_mod_self_left, Nat.mod_eq_of_lt hindex]
  have hheld := h.held _ hlow hhigh
  rw [hslot, hs] at hheld
  cases hheld
  exact ⟨hlow, hhigh⟩

/-! ### Lookups -/

theorem getSequenceNumber_of_numberAt {index s} (h : ws.numberAt index = some s) :
    (ws.getInstructionByIndex index).getSequenceNumber = .ok s := by
  obtain ⟨uop, huop, hs⟩ := Option.map_eq_some_iff.mp h
  unfold getInstructionByIndex WindowEntry.getSequenceNumber WindowEntry.getDynMicroOp
  rw [huop, ← hs]
  rfl

theorem numberAt_of_getSequenceNumber {index s}
    (h : (ws.getInstructionByIndex index).getSequenceNumber = .ok s) :
    ws.numberAt index = some s := by
  unfold getInstructionByIndex WindowEntry.getSequenceNumber WindowEntry.getDynMicroOp at h
  unfold numberAt
  cases huop : (ws.m_double_window index).uop with
  | none =>
    rw [huop] at h
    cases h
  | some uop =>
    rw [huop] at h
    cases h
    rfl

theorem Ring.numberAt_head (h : Ring ws) (hw : 0 < ws.m_window_length) :
    ws.numberAt ws.m_window_head__old_window_tail = some ws.headNumber := by
  have htotal := h.total
  have hwindow := h.window
  rw [h.head]
  refine h.held _ ?_ ?_
  all_goals
    unfold headNumber
    try unfold m_double_window_size
    omega

theorem Ring.windowContains (h : Ring ws) (hw : 0 < ws.m_window_length) (s : Nat) :
    ws.windowContains s =
      .ok (decide (ws.headNumber ≤ s ∧ s < ws.m_next_sequence_number)) := by
  have hsize := h.size
  have htotal := h.total
  obtain ⟨n, hn⟩ : ∃ n, ws.m_next_sequence_number = n + 1 :=
    ⟨ws.m_next_sequence_number - 1, by omega⟩
  have hlast : ws.numberAt (ws.decrementIndex ws.m_window_tail) = some n := by
    rw [h.tail, hn, h.slotOf_pred]
    refine h.held n (by omega) ?_
    unfold m_double_window_size
    omega
  unfold Windows.windowContains
  rw [getSequenceNumber_of_numberAt (h.numberAt_head hw), getSequenceNumber_of_numberAt hlast, hn]
  simp only [Nat.lt_succ_iff, Bool.decide_and]
  rfl

theorem Ring.oldWindowContains (h : Ring ws) (hd : 0 < ws.headNumber) (s : Nat) :
    ws.oldWindowContains s = .ok (decide (ws.oldNumber ≤ s ∧ s < ws.headNumber)) := by
  have hsize := h.size
  have htotal := h.total
  have hwindow := h.window
  have hold := h.old
  have hstarted := h.started hd
  obtain ⟨n, hn⟩ : ∃ n, ws.headNumber = n + 1 := ⟨ws.headNumber - 1, by omega⟩
  have hlast : ws.numberAt (ws.decrementIndex ws.m_window_head__old_window_tail) = some n := by
    rw [h.head, hn, h.slotOf_pred]
    unfold headNumber at hn
    refine h.held n (by omega) ?_
    unfold m_double_window_size
    omega
  have hfirst : ws.numberAt ws.m_old_window_head = some ws.oldNumber := by
    rw [h.oldHead]
    refine h.held _ ?_ ?_
    all_goals
      unfold oldNumber headNumber
      try unfold m_double_window_size
      omega
  unfold Windows.oldWindowContains
  rw [getSequenceNumber_of_numberAt hfirst, getSequenceNumber_of_numberAt hlast, hn]
  simp only [Nat.lt_succ_iff, Bool.decide_and]
  rfl

theorem Ring.head_used (h : Ring ws)
    (hused : 0 < ws.m_window_length ∨ ws.m_double_window_size ≤ ws.m_next_sequence_number) :
    ∃ a, ws.numberAt ws.m_window_head__old_window_tail = some a ∧
      ws.slotOf a = ws.m_window_head__old_window_tail := by
  by_cases hw : 0 < ws.m_window_length
  · exact ⟨ws.headNumber, h.numberAt_head hw, h.head.symm⟩
  · have hfull := hused.resolve_left hw
    have hpos := h.double_pos
    -- the slot still has its entry of the round before
    have hslot : ws.slotOf (ws.m_next_sequence_number - ws.m_double_window_size) =
        ws.m_window_head__old_window_tail := by
      rw [h.head]
      unfold slotOf headNumber
      rw [← Nat.mod_eq_sub_mod hfull, Nat.eq_zero_of_not_pos hw]
      rfl
    refine ⟨_, ?_, hslot⟩
    rw [← hslot]
    exact h.held _ (by omega) (by omega)

theorem Ring.getInstruction (h : Ring ws)
    (hused : 0 < ws.m_window_length ∨ ws.m_double_window_size ≤ ws.m_next_sequence_number) {s}
    (hnext : s < ws.m_next_sequence_number)
    (hclose : ws.m_next_sequence_number ≤ s + ws.m_double_window_size) :
    ws.getInstruction s = .ok (ws.slotOf s, ws.m_double_window (ws.slotOf s)) := by
  obtain ⟨a, ha, hslot⟩ := h.head_used hused
  have hindex : ws.windowIndex (ws.m_window_head__old_window_tail - ((a : Int) - s)) =
      ws.slotOf s := by
    rw [← hslot]
    exact windowIndex_slotOf _ _
  unfold Windows.getInstruction
  dsimp only
  rw [getSequenceNumber_of_numberAt ha]
  simp only [bind, Except.bind]
  rw [hindex, getSequenceNumber_of_numberAt (h.held s hnext hclose)]
  simp only [↓reduceIte]
  rfl

end Windows
end Sniper.Timing.Interval
