import Sniper.Timing.TimerRuns

/-! # The double window is well formed

What the ring means for its users: the two windows follow each other in the ring with contiguous
numbers, the slot for the next micro-op is in neither, and the lookups answer by the numbers.
-/
namespace Sniper.Timing.Interval
open Lib.Simulation Relation

variable {Reg C : Type}

namespace Windows
variable {ws ws' : Windows Reg C}

def InWindow (ws : Windows Reg C) (s : Nat) : Prop :=
  ∃ k < ws.m_window_length,
    ws.numberAt ((ws.m_window_head__old_window_tail + k) % ws.m_double_window_size) = some s

def InOldWindow (ws : Windows Reg C) (s : Nat) : Prop :=
  ∃ k < ws.m_old_window_length,
    ws.numberAt ((ws.m_old_window_head + k) % ws.m_double_window_size) = some s

/-- The old window is asked once a micro-op has been dispatched, which it is after the first
`m_window_length` of them. An entry is looked up from the head of the window, which must have
been used. -/
structure WellFormed (ws : Windows Reg C) : Prop where
  window : ws.m_window_length ≤ ws.m_window_size
  old : ws.m_old_window_length ≤ ws.m_window_size
  head : ws.m_window_head__old_window_tail =
    (ws.m_old_window_head + ws.m_old_window_length) % ws.m_double_window_size
  tail : ws.m_window_tail =
    (ws.m_window_head__old_window_tail + ws.m_window_length) % ws.m_double_window_size
  contiguous : ∃ first, first + ws.m_old_window_length + ws.m_window_length =
      ws.m_next_sequence_number ∧ ∀ k < ws.m_old_window_length + ws.m_window_length,
    ws.numberAt ((ws.m_old_window_head + k) % ws.m_double_window_size) = some (first + k)
  spare : ws.m_window_length < ws.m_window_size →
    ∀ k < ws.m_old_window_length + ws.m_window_length,
      (ws.m_old_window_head + k) % ws.m_double_window_size ≠ ws.m_window_tail
  windowContains : 0 < ws.m_window_length →
    ∀ s, ∃ b, ws.windowContains s = .ok b ∧ (b = true ↔ ws.InWindow s)
  oldWindowContains : ws.m_window_length < ws.m_next_sequence_number →
    ∀ s, ∃ b, ws.oldWindowContains s = .ok b ∧ (b = true ↔ ws.InOldWindow s)
  getInstruction : 0 < ws.m_window_length ∨ ws.m_double_window_size ≤ ws.m_next_sequence_number →
    ∀ s, ws.windowContains s = .ok true ∨ ws.oldWindowContains s = .ok true →
      ∃ index e, ws.getInstruction s = .ok (index, e) ∧ e = ws.m_double_window index ∧
        ws.numberAt index = some s

/-! ### From the ring -/

theorem Ring.oldNumber_add (h : Ring ws) :
    ws.oldNumber + ws.m_old_window_length = ws.headNumber ∧
      ws.headNumber + ws.m_window_length = ws.m_next_sequence_number := by
  have htotal := h.total
  unfold oldNumber headNumber
  omega

theorem Ring.slot (h : Ring ws) (k : Nat) :
    (ws.m_old_window_head + k) % ws.m_double_window_size = ws.slotOf (ws.oldNumber + k) := by
  rw [h.oldHead]
  exact Nat.mod_add_mod ..

theorem Ring.windowSlot (h : Ring ws) (k : Nat) :
    (ws.m_window_head__old_window_tail + k) % ws.m_double_window_size =
      ws.slotOf (ws.headNumber + k) := by
  rw [h.head]
  exact Nat.mod_add_mod ..

theorem Ring.number (h : Ring ws) {s} (hold : ws.oldNumber ≤ s)
    (hnext : s < ws.m_next_sequence_number) : ws.numberAt (ws.slotOf s) = some s := by
  obtain ⟨hhead, hlast⟩ := h.oldNumber_add
  have hwindow := h.window
  have holdLength := h.old
  refine h.held s hnext ?_
  unfold m_double_window_size
  omega

theorem Ring.numberAt_oldHead (h : Ring ws) (hlt : ws.oldNumber < ws.m_next_sequence_number) :
    ws.numberAt ws.m_old_window_head = some ws.oldNumber := by
  rw [h.oldHead]
  exact h.number (Nat.le_refl _) hlt

theorem Ring.inWindow (h : Ring ws) (s : Nat) :
    ws.InWindow s ↔ ws.headNumber ≤ s ∧ s < ws.m_next_sequence_number := by
  obtain ⟨hhead, hlast⟩ := h.oldNumber_add
  constructor
  · intro ⟨k, hk, hs⟩
    rw [h.windowSlot, h.number (by omega) (by omega)] at hs
    cases hs
    omega
  · intro ⟨hlow, hhigh⟩
    refine ⟨s - ws.headNumber, by omega, ?_⟩
    have hs : ws.headNumber + (s - ws.headNumber) = s := by omega
    rw [h.windowSlot, hs]
    exact h.number (by omega) hhigh

theorem Ring.inOldWindow (h : Ring ws) (s : Nat) :
    ws.InOldWindow s ↔ ws.oldNumber ≤ s ∧ s < ws.headNumber := by
  obtain ⟨hhead, hlast⟩ := h.oldNumber_add
  constructor
  · intro ⟨k, hk, hs⟩
    rw [h.slot, h.number (by omega) (by omega)] at hs
    cases hs
    omega
  · intro ⟨hlow, hhigh⟩
    refine ⟨s - ws.oldNumber, by omega, ?_⟩
    have hs : ws.oldNumber + (s - ws.oldNumber) = s := by omega
    rw [h.slot, hs]
    exact h.number hlow (by omega)

theorem Ring.accepted (h : Ring ws) {s}
    (hs : ws.windowContains s = .ok true ∨ ws.oldWindowContains s = .ok true) :
    s < ws.m_next_sequence_number ∧
      ws.m_next_sequence_number ≤ s + ws.m_double_window_size := by
  have hpos := h.double_pos
  have hbetween : ∀ first final : Nat, first < ws.m_double_window_size →
      final < ws.m_double_window_size → (do
        let lowestValid ← (ws.getInstructionByIndex first).getSequenceNumber
        let highestValid ← (ws.getInstructionByIndex final).getSequenceNumber
        return (decide (lowestValid ≤ s) && decide (s ≤ highestValid) : Bool)) =
          Except.ok (ε := Halt) true →
      s < ws.m_next_sequence_number ∧
        ws.m_next_sequence_number ≤ s + ws.m_double_window_size := by
    intro first final hfirst hfinal hasked
    obtain ⟨low, hlow, hasked⟩ := of_bind_ok hasked
    obtain ⟨high, hhigh, hasked⟩ := of_bind_ok hasked
    have hrange := Except.ok.inj hasked
    rw [Bool.and_eq_true, decide_eq_true_iff, decide_eq_true_iff] at hrange
    have hfirst' := h.numberAt_range hfirst (numberAt_of_getSequenceNumber hlow)
    have hfinal' := h.numberAt_range hfinal (numberAt_of_getSequenceNumber hhigh)
    omega
  have hhead : ws.m_window_head__old_window_tail < ws.m_double_window_size := by
    rw [h.head]
    exact Nat.mod_lt _ hpos
  have holdHead : ws.m_old_window_head < ws.m_double_window_size := by
    rw [h.oldHead]
    exact Nat.mod_lt _ hpos
  rcases hs with hs | hs
  · exact hbetween _ _ hhead (Nat.mod_lt _ hpos) hs
  · exact hbetween _ _ holdHead (Nat.mod_lt _ hpos) hs

theorem Ring.wellFormed (h : Ring ws) : WellFormed ws := by
  obtain ⟨hhead, hlast⟩ := h.oldNumber_add
  have hwindow := h.window
  have hold := h.old
  refine ⟨hwindow, hold, ?_, ?_, ⟨ws.oldNumber, ?_, ?_⟩, ?_, ?_, ?_, ?_⟩
  · rw [h.slot, hhead]
    exact h.head
  · rw [h.windowSlot, hlast]
    exact h.tail
  · omega
  · intro k hk
    rw [h.slot]
    exact h.number (by omega) (by omega)
  · intro hroom k hk
    rw [h.slot, h.tail]
    refine slotOf_ne (by omega) ?_
    unfold m_double_window_size
    omega
  · intro hw s
    refine ⟨_, h.windowContains hw s, ?_⟩
    rw [decide_eq_true_iff, h.inWindow]
  · intro hd s
    refine ⟨_, h.oldWindowContains (by omega) s, ?_⟩
    rw [decide_eq_true_iff, h.inOldWindow]
  · intro hused s hs
    obtain ⟨hnext, hclose⟩ := h.accepted hs
    exact ⟨_, _, h.getInstruction hused hnext hclose, rfl, h.held s hnext hclose⟩

end Windows

/-! ### Over runs -/

namespace IntervalTimer
open Windows

theorem moves_ring [DecidableEq Reg] {decoder : Decoder Reg}
    {contention : IntervalContention Reg C} {c : C} {w : Nat} (hw : 0 < w) {ws : Windows Reg C}
    (h : ReflTransGen (Move decoder contention) (.new w contention c) ws) : Ring ws := by
  induction h with
  | refl => exact ring_new contention c hw
  | tail _ hmove ih => exact ih.move hmove

theorem moves_size [DecidableEq Reg] {decoder contention} {ws ws' : Windows Reg C}
    (h : ReflTransGen (Move decoder contention) ws ws') :
    ws'.m_window_size = ws.m_window_size := by
  induction h with
  | refl => rfl
  | tail _ hmove ih => exact hmove.size.trans ih

theorem steps_moves [DecidableEq Reg] {cfg : IntervalConfig Reg C} {t t' : IntervalTimer Reg C}
    (h : ReflTransGen (TimerStep cfg) t t') :
    ReflTransGen (Move cfg.decoder cfg.contention) t.m_windows t'.m_windows := by
  induction h with
  | refl => exact .refl
  | tail _ hstep ih => exact ih.trans (step_moves hstep)

/-- A run of `simulate` moves the windows, and wherever moves lead they are well formed. -/
theorem simulate_wellFormed [DecidableEq Reg] (cfg : IntervalConfig Reg C) (num_outstanding : Nat)
    (c : C) {w : Nat} (hw : 0 < w) :
    (∀ fuel insts instructions latency t,
      simulate cfg fuel insts 0 0 (new cfg w num_outstanding c) = .ok (instructions, latency, t) →
        ReflTransGen (Move cfg.decoder cfg.contention) (.new w cfg.contention c) t.m_windows) ∧
    ∀ ws, ReflTransGen (Move cfg.decoder cfg.contention) (.new w cfg.contention c) ws →
      WellFormed ws := by
  constructor
  · intro fuel insts instructions latency t h
    exact steps_moves (simulate_steps h)
  · intro ws h
    exact (moves_ring hw h).wellFormed

/-! ### A small core -/

/-- A core that dispatches one micro-op in a cycle. -/
def sample : IntervalConfig Nat Unit where
  m_dispatch_width := 1
  m_branch_misprediction_penalty := 8
  m_mem_dep_mask := 0xffffffffffffffff
  m_lll_dep_mask := 0xffffffffffffffc0
  m_do_functional_unit_contention := false
  longLatencyCutoff := 21
  bypassLatency _ := 0
  decoder := ⟨id, fun _ => true, 0⟩
  contention := ⟨id, fun _ c => c, fun _ c => c, fun length _ c => (length, c)⟩
  accessMemory _ := (0, .elsewhere 3)
  period := 10

/-- A micro-op of the core that reads and writes no register. -/
def sample.uop (execLatency : Nat) : IntervalUop Nat where
  toDynamicMicroOp := .hit ⟨.execute, [], [], [], false, false, false⟩ 0 execLatency
  uop_subtype := .GENERIC
  interrupt := false
  last := true
  m_forceLongLatencyLoad := false

/-- A run of `simulate` is through, and one more micro-op is in the window. -/
def sample.enter (w : Nat) (insts : List (IntervalUop Nat)) (uop : IntervalUop Nat) :
    Except Halt (IntervalTimer Nat Unit) := do
  let (_, _, t) ← simulate sample 4 insts 0 0 (new sample w 1 ())
  addUop sample uop t

theorem sample.enter_reached {w insts uop t} (h : sample.enter w insts uop = .ok t) :
    ReflTransGen (TimerStep sample) (new sample w 1 ()) t := by
  obtain ⟨⟨instructions, latency, t₀⟩, hrun, hadd⟩ := of_bind_ok h
  exact (simulate_steps hrun).tail (.add _ hadd)

/-- What a lookup answers after a run of one micro-op. -/
def sample.afterOne {α : Type} (w : Nat) (lookup : Windows Nat Unit → Except Halt α) :
    Except Halt α := do
  let (_, _, t) ← simulate sample 2 [sample.uop 1] 0 0 (new sample w 1 ())
  lookup t.m_windows

/-- With a window of two the old window cannot be asked: the slot before the head has no micro-op.
With a window of one the micro-op cannot be looked up: the slot at the head has none. -/
theorem lookup_unanswered :
    (sample.afterOne 2 (fun ws => pure ws.m_window_length) = .ok 1 ∧
      sample.afterOne 2 (fun ws => ws.oldWindowContains 0) = .error .null) ∧
    sample.afterOne 1 (fun ws => ws.oldWindowContains 0) = .ok true ∧
      sample.afterOne 1 (fun ws => (·.1) <$> ws.getInstruction 0) = .error .null := by
  decide

theorem simulate_wellFormed_sample :
    (∀ fuel insts instructions latency t,
      simulate sample fuel insts 0 0 (new sample 96 8 ()) = .ok (instructions, latency, t) →
        ReflTransGen (Move sample.decoder sample.contention) (.new 96 sample.contention ())
          t.m_windows) ∧
    ∀ ws, ReflTransGen (Move sample.decoder sample.contention) (.new 96 sample.contention ()) ws →
      WellFormed ws :=
  simulate_wellFormed sample 8 () (by decide)

end IntervalTimer
end Sniper.Timing.Interval
