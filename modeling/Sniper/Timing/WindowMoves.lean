import Sniper.Timing.IntervalTimer
import Sniper.Timing.WindowRing

/-! # What moves the windows

Every call on the windows is a `Move`, and every move keeps the ring. A run of the timer is a
sequence of moves, so the ring is kept at each of its steps.
-/
namespace Sniper.Timing.Interval
open Lib.Simulation Function

variable {Reg C : Type}

theorem ofStop_ok {α : Type} {x : Except Stop α} {a : α} (h : ofStop x = .ok a) : x = .ok a := by
  cases x with
  | error e => cases h
  | ok b =>
    cases h
    rfl

namespace Windows
variable {ws ws' : Windows Reg C}

/-! ### What the calls do -/

/-- The ring is the same; entries may differ in what they hold besides their sequence number. -/
structure SameRing (ws ws' : Windows Reg C) : Prop where
  m_window_size : ws'.m_window_size = ws.m_window_size
  numbers : ws'.numberAt = ws.numberAt
  m_next_sequence_number : ws'.m_next_sequence_number = ws.m_next_sequence_number
  head : ws'.m_window_head__old_window_tail = ws.m_window_head__old_window_tail
  tail : ws'.m_window_tail = ws.m_window_tail
  window : ws'.m_window_length = ws.m_window_length

theorem SameRing.headNumber (h : SameRing ws ws') : ws'.headNumber = ws.headNumber := by
  unfold Windows.headNumber
  rw [h.m_next_sequence_number, h.window]

theorem SameRing.slotOf (h : SameRing ws ws') : ws'.slotOf = ws.slotOf := by
  unfold Windows.slotOf m_double_window_size
  rw [h.m_window_size]

theorem Ring.congr (h : Ring ws) (hsame : SameRing ws ws')
    (hold : ws'.m_old_window_length ≤ ws.m_old_window_length)
    (hhead : ws'.m_old_window_head = ws'.slotOf ws'.oldNumber)
    (hstarted : 0 < ws.headNumber → 0 < ws.m_window_length + ws'.m_old_window_length) :
    Ring ws' := by
  have htotal := h.total
  refine ⟨hsame.m_window_size ▸ h.size, ?_, ?_, ?_, ?_, ?_, hhead, ?_, ?_, ?_⟩
  · rw [hsame.window, hsame.m_window_size]
    exact h.window
  · rw [hsame.m_window_size]
    exact hold.trans h.old
  · rw [hsame.window, hsame.m_next_sequence_number]
    omega
  · rw [hsame.head, hsame.slotOf, hsame.headNumber]
    exact h.head
  · rw [hsame.tail, hsame.slotOf, hsame.m_next_sequence_number]
    exact h.tail
  · intro s hs hclose
    rw [hsame.m_next_sequence_number] at hs hclose
    unfold m_double_window_size at hclose
    rw [hsame.m_window_size] at hclose
    rw [hsame.numbers, hsame.slotOf]
    exact h.held s hs hclose
  · intro i hi hnext
    unfold m_double_window_size at hi
    rw [hsame.m_window_size] at hi
    rw [hsame.m_next_sequence_number] at hnext
    rw [hsame.numbers]
    exact h.unused i hi hnext
  · rw [hsame.headNumber, hsame.window]
    exact hstarted

theorem add_ok [DecidableEq Reg] {decoder : Decoder Reg} {micro_op : IntervalUop Reg}
    (h : ws.add decoder micro_op = .ok ws') : ws.m_window_length ≠ ws.m_window_size ∧
    ∃ uop registers memory, uop.sequenceNumber = ws.m_next_sequence_number ∧ ws' = { ws with
      m_window_tail := ws.incrementIndex ws.m_window_tail
      m_window_length := ws.m_window_length + 1
      m_next_sequence_number := ws.m_next_sequence_number + 1
      m_double_window :=
        update ws.m_double_window ws.m_window_tail (.init (some uop))
      m_register_dependencies := registers
      m_memory_dependencies := memory } := by
  unfold add at h
  split at h
  · cases h
  · next hfull =>
    refine ⟨by simpa [wIsFull] using hfull, ?_⟩
    obtain ⟨lowest, -, h⟩ := of_bind_ok h
    obtain ⟨⟨registers, uop⟩, hregisters, h⟩ := of_bind_ok h
    obtain ⟨⟨memory, uop'⟩, hmemory, h⟩ := of_bind_ok h
    cases h
    have hsame := (RegisterDependencies.setDependencies_grows (ofStop_ok hregisters)).same.trans
      (MemoryDependencies.setDependencies_ok (ofStop_ok hmemory)).1.same
    refine ⟨{ micro_op with toDynamicMicroOp := uop' }, registers, memory,
      hsame.sequenceNumber, ?_⟩
    simp only [modify, update_idem, update_self]
    rfl

theorem retire_ok {contention} (h : ws.retire contention = .ok ws') :
    ∃ uop, (ws.m_double_window ws.m_old_window_head).uop = some uop ∧
      let oldest := ws.m_double_window ws.m_old_window_head
      let type := getCpContrType uop
      ws' = { ws with
        m_cpcontr_bytype := update ws.m_cpcontr_bytype type
          (sub64 (ws.m_cpcontr_bytype type) oldest.cpContr)
        m_cpcontr_total := sub64 ws.m_cpcontr_total oldest.cpContr
        interval_contention := contention.removeFunctionalUnitStats uop ws.interval_contention
        m_critical_path_head := max ws.m_critical_path_head oldest.execTime
        m_old_window_head := ws.incrementIndex ws.m_old_window_head
        m_old_window_length := ws.m_old_window_length - 1 } := by
  unfold retire removeFunctionalUnitStats getInstructionByIndex WindowEntry.getDynMicroOp at h
  cases huop : (ws.m_double_window ws.m_old_window_head).uop with
  | none =>
    simp only [huop] at h
    cases h
  | some uop =>
    simp only [huop] at h
    cases h
    exact ⟨uop, rfl, rfl⟩

theorem dispatchInstruction_ok {contention} (h : ws.dispatchInstruction contention = .ok ws') :
    ∃ ws₁ uop,
    (if ws.m_old_window_length = ws.m_window_size then ws.retire contention = .ok ws₁
      else ws₁ = ws) ∧
    (ws₁.m_double_window ws₁.m_window_head__old_window_tail).uop = some uop ∧
    let head := ws₁.m_double_window ws₁.m_window_head__old_window_tail
    let type := getCpContrType uop
    ws' = { ws₁ with
      m_cpcontr_bytype := update ws₁.m_cpcontr_bytype type
        (ws₁.m_cpcontr_bytype type + head.cpContr)
      m_cpcontr_total := ws₁.m_cpcontr_total + head.cpContr
      interval_contention := contention.addFunctionalUnitStats uop ws₁.interval_contention
      m_window_head__old_window_tail := ws₁.incrementIndex ws₁.m_window_head__old_window_tail
      m_window_length := ws₁.m_window_length - 1
      m_old_window_length := ws₁.m_old_window_length + 1 } := by
  have hadd : ∀ ws₁ : Windows Reg C, (do
      let ws ← ws₁.addFunctionalUnitStats contention
        (ws₁.getInstructionByIndex ws₁.m_window_head__old_window_tail)
      return { ws with
        m_window_head__old_window_tail := ws.incrementIndex ws.m_window_head__old_window_tail
        m_window_length := ws.m_window_length - 1
        m_old_window_length := ws.m_old_window_length + 1 }) = Except.ok ws' →
      ∃ uop, (ws₁.m_double_window ws₁.m_window_head__old_window_tail).uop = some uop ∧
        ws' = { ws₁ with
          m_cpcontr_bytype := update ws₁.m_cpcontr_bytype (getCpContrType uop)
            (ws₁.m_cpcontr_bytype (getCpContrType uop) +
              (ws₁.m_double_window ws₁.m_window_head__old_window_tail).cpContr)
          m_cpcontr_total := ws₁.m_cpcontr_total +
            (ws₁.m_double_window ws₁.m_window_head__old_window_tail).cpContr
          interval_contention := contention.addFunctionalUnitStats uop ws₁.interval_contention
          m_window_head__old_window_tail := ws₁.incrementIndex ws₁.m_window_head__old_window_tail
          m_window_length := ws₁.m_window_length - 1
          m_old_window_length := ws₁.m_old_window_length + 1 } := by
    intro ws₁ h
    unfold addFunctionalUnitStats getInstructionByIndex WindowEntry.getDynMicroOp at h
    cases huop : (ws₁.m_double_window ws₁.m_window_head__old_window_tail).uop with
    | none =>
      simp only [huop] at h
      cases h
    | some uop =>
      simp only [huop] at h
      cases h
      exact ⟨uop, rfl, rfl⟩
  unfold dispatchInstruction at h
  split at h
  · next hfull =>
    obtain ⟨ws₁, hretire, h⟩ := of_bind_ok h
    obtain ⟨uop, huop, hws⟩ := hadd ws₁ h
    exact ⟨ws₁, uop, by rwa [if_pos hfull], huop, hws⟩
  · next hfull =>
    obtain ⟨uop, huop, hws⟩ := hadd ws h
    exact ⟨ws, uop, by rw [if_neg hfull], huop, hws⟩

/-! ### Moves -/

/-- A call on the windows: `add`, `dispatchInstruction` and `clearOldWindow`, and what
`blockWindow` and the path do to entries and to the fields that no lookup reads. -/
inductive Move [DecidableEq Reg] (decoder : Decoder Reg) (contention : IntervalContention Reg C) :
    Windows Reg C → Windows Reg C → Prop
  | add {ws ws' : Windows Reg C} (uop : IntervalUop Reg) (h : ws.add decoder uop = .ok ws') :
      Move decoder contention ws ws'
  | dispatch {ws ws' : Windows Reg C} (hne : ws.m_window_length ≠ 0)
      (h : ws.dispatchInstruction contention = .ok ws') : Move decoder contention ws ws'
  | clear {ws : Windows Reg C} (hne : ws.m_window_length ≠ 0) (newCpHead : Nat) :
      Move decoder contention ws (ws.clearOldWindow contention newCpHead)
  | mark {ws : Windows Reg C} (entries : Nat → WindowEntry Reg)
      (h : ∀ i, (entries i).uop.map (·.sequenceNumber) = ws.numberAt i) :
      Move decoder contention ws { ws with m_double_window := entries }
  | path {ws : Windows Reg C} (tail : Nat) :
    Move decoder contention ws { ws with m_critical_path_tail := tail }
  | times {ws : Windows Reg C} (m_exec_time_map : Nat → Nat) :
      Move decoder contention ws { ws with m_exec_time_map := m_exec_time_map }
  | ports {ws : Windows Reg C} (c : C) : Move decoder contention ws { ws with interval_contention := c }

theorem Ring.add [DecidableEq Reg] {decoder uop} (h : Ring ws) (hadd : ws.add decoder uop = .ok ws') :
    Ring ws' := by
  obtain ⟨hfull, uop, registers, memory, hnumber, rfl⟩ := add_ok hadd
  have hwindow := h.window
  have htotal := h.total
  have hslots : ∀ s, s < ws.m_next_sequence_number →
      ws.m_next_sequence_number + 1 ≤ s + ws.m_double_window_size →
      ws.slotOf s ≠ ws.m_window_tail := by
    intro s hs hclose
    rw [h.tail]
    exact slotOf_ne hs (by omega)
  have hhead : ws.m_next_sequence_number + 1 - (ws.m_window_length + 1) = ws.headNumber := by
    unfold headNumber
    omega
  refine ⟨h.size, ?_, h.old, ?_, ?_, ?_, ?_, ?_, ?_, ?_⟩
  · dsimp only
    omega
  · dsimp only
    omega
  · rw [Windows.headNumber]
    rw [hhead]
    exact h.head
  · rw [h.tail]
    exact slotOf_succ _
  · unfold oldNumber
    rw [Windows.headNumber]
    rw [hhead]
    exact h.oldHead
  · intro s hs hclose
    dsimp only at hs
    by_cases hnew : s = ws.m_next_sequence_number
    · subst hnew
      have hslot : ws.m_window_tail = ws.slotOf ws.m_next_sequence_number := h.tail
      change (update ws.m_double_window ws.m_window_tail _ (ws.slotOf _)).uop.map _ = _
      rw [← hslot, update_self]
      exact congrArg some hnumber
    · have hs' : s < ws.m_next_sequence_number := by omega
      change (update ws.m_double_window ws.m_window_tail _ (ws.slotOf s)).uop.map _ = _
      rw [update_of_ne (hslots s hs' hclose)]
      exact h.held s hs' (by
        change ws.m_next_sequence_number + 1 ≤ s + ws.m_double_window_size at hclose
        omega)
  · intro i hi hnext
    change ws.m_next_sequence_number + 1 ≤ i at hnext
    change i < ws.m_double_window_size at hi
    have hne : i ≠ ws.m_window_tail := by
      rw [h.tail]
      unfold slotOf
      rw [Nat.mod_eq_of_lt (by omega)]
      omega
    change (update ws.m_double_window ws.m_window_tail _ i).uop.map _ = _
    rw [update_of_ne hne]
    exact h.unused i hi (by omega)
  · intro _
    dsimp only
    omega

theorem Ring.retire {contention} (h : Ring ws) (hpos : 0 < ws.m_old_window_length)
    (hw : 0 < ws.m_window_length) (hretire : ws.retire contention = .ok ws') : Ring ws' := by
  obtain ⟨uop, -, rfl⟩ := retire_ok hretire
  have htotal := h.total
  refine h.congr ⟨rfl, rfl, rfl, rfl, rfl, rfl⟩ (Nat.sub_le _ _) ?_ (fun _ => by omega)
  rw [h.oldHead]
  have hold : ws.oldNumber + 1 = ws.headNumber - (ws.m_old_window_length - 1) := by
    unfold oldNumber headNumber
    omega
  exact (slotOf_succ _).trans (congrArg ws.slotOf hold)

theorem Ring.dispatch {contention} (h : Ring ws) (hw : ws.m_window_length ≠ 0)
    (hdispatch : ws.dispatchInstruction contention = .ok ws') :
    Ring ws' := by
  obtain ⟨ws₁, uop, hretire, -, rfl⟩ := dispatchInstruction_ok hdispatch
  have hsize := h.size
  obtain ⟨h₁, hroom, hw₁⟩ : Ring ws₁ ∧ ws₁.m_old_window_length < ws₁.m_window_size ∧
      ws₁.m_window_length ≠ 0 := by
    split at hretire
    · next hfull =>
      have hring := h.retire (by omega) (by omega) hretire
      obtain ⟨uop, -, rfl⟩ := retire_ok hretire
      exact ⟨hring, by dsimp only; omega, hw⟩
    · next hfull =>
      subst hretire
      exact ⟨h, lt_of_le_of_ne h.old hfull, hw⟩
  have htotal := h₁.total
  have hhead : ws₁.headNumber + 1 = ws₁.m_next_sequence_number - (ws₁.m_window_length - 1) := by
    unfold headNumber
    omega
  refine ⟨h₁.size, ?_, hroom, ?_, ?_, h₁.tail, ?_, h₁.held, h₁.unused, fun _ => ?_⟩
  · have := h₁.window
    dsimp only
    omega
  · dsimp only
    omega
  · rw [h₁.head]
    exact (slotOf_succ _).trans (congrArg ws₁.slotOf hhead)
  · have hold : ws₁.oldNumber = ws₁.m_next_sequence_number - (ws₁.m_window_length - 1) -
        (ws₁.m_old_window_length + 1) := by
      unfold oldNumber
      omega
    exact h₁.oldHead.trans (congrArg ws₁.slotOf hold)
  · dsimp only
    omega

theorem Move.size [DecidableEq Reg] {decoder contention} (h : Move decoder contention ws ws') :
    ws'.m_window_size = ws.m_window_size := by
  cases h with
  | add uop hadd =>
    obtain ⟨-, uop, registers, memory, -, rfl⟩ := add_ok hadd
    rfl
  | dispatch hne hdispatch =>
    obtain ⟨ws₁, uop, hretire, -, rfl⟩ := dispatchInstruction_ok hdispatch
    split at hretire
    · obtain ⟨oldest, -, rfl⟩ := retire_ok hretire
      rfl
    · rw [hretire]
  | clear | mark | path | times | ports => rfl

theorem Ring.move [DecidableEq Reg] {decoder contention} (h : Ring ws)
    (hmove : Move decoder contention ws ws') :
    Ring ws' := by
  cases hmove with
  | add uop hadd => exact h.add hadd
  | dispatch hne hdispatch => exact h.dispatch hne hdispatch
  | clear hne newCpHead =>
    refine h.congr ⟨rfl, rfl, rfl, rfl, rfl, rfl⟩ (Nat.zero_le _) ?_ (fun _ => ?_)
    · exact h.head
    · omega
  | mark entries hentries =>
    exact h.congr ⟨rfl, funext hentries, rfl, rfl, rfl, rfl⟩ (Nat.le_refl _) h.oldHead h.started
  | path tail | times map
  | ports c => exact h.congr ⟨rfl, rfl, rfl, rfl, rfl, rfl⟩ (Nat.le_refl _) h.oldHead h.started

end Windows
end Sniper.Timing.Interval
