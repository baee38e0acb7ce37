import Mathlib.Algebra.BigOperators.Group.Finset.Basic
import Sniper.Timing.DispatchProgress

/-! # The critical path and the loop of `simulate`

The account of the path at every point of a run, and that the loop over a full window ends. Both
rest on the path being shorter than what an `int` can count: a path of `2 ^ 32` has the length
zero.
-/
namespace Sniper.Timing.Interval
open Lib Lib.Simulation Relation

variable {Reg C : Type} {cfg : IntervalConfig Reg C}

namespace Windows
variable {ws : Windows Reg C}

/-! ### Before the first dispatch -/

theorem Ring.oldWindowContains_null (h : Ring ws) (hne : 0 < ws.m_window_length)
    (hnone : ws.m_next_sequence_number ≤ ws.m_window_length) (dependency : Nat) :
    ws.oldWindowContains dependency = .error .null := by
  obtain ⟨hhead, hlast⟩ := h.oldNumber_add
  have hwindow := h.window
  have hdouble : ws.m_double_window_size = 2 * ws.m_window_size := rfl
  have hzero : ws.headNumber = 0 ∧ ws.oldNumber = 0 := by omega
  have hfirst := h.numberAt_oldHead (by omega)
  have hlastSlot : ws.decrementIndex ws.m_window_head__old_window_tail =
      ws.m_double_window_size - 1 := by
    unfold decrementIndex
    rw [h.head, hzero.1]
    unfold slotOf
    rw [Nat.zero_mod, Nat.zero_add]
    exact Nat.mod_eq_of_lt (by omega)
  have hunused := h.unused (ws.m_double_window_size - 1) (by omega) (by omega)
  have hnull : (ws.getInstructionByIndex (ws.m_double_window_size - 1)).getSequenceNumber =
      .error .null := by
    unfold getInstructionByIndex WindowEntry.getSequenceNumber WindowEntry.getDynMicroOp
    rw [Option.map_eq_none_iff.mp hunused]
    rfl
  unfold Windows.oldWindowContains
  rw [getSequenceNumber_of_numberAt hfirst, hlastSlot, hnull]
  rfl

end Windows

namespace IntervalTimer
open Windows
variable {t t' : IntervalTimer Reg C} {ws : Windows Reg C}

theorem getMaxProducerExecTime_null (h : Ring ws) (hne : 0 < ws.m_window_length)
    (hstarted : ¬ Started ws) :
    getMaxProducerExecTime ws ws.getInstructionToDispatch = .error .null := by
  obtain ⟨hhead, hlast⟩ := h.oldNumber_add
  unfold Started at hstarted
  push Not at hstarted
  obtain ⟨hnone, uop, huop, hdependencies⟩ := hstarted
  obtain ⟨dependency, rest, hcons⟩ := List.exists_cons_of_ne_nil hdependencies
  have hget : ws.getInstructionToDispatch.getDynMicroOp = .ok uop := by
    unfold WindowEntry.getDynMicroOp
    rw [huop]
  have hfirst := h.numberAt_oldHead (by omega)
  obtain ⟨oldest, -, holdest⟩ := getDynMicroOp_of_numberAt hfirst
  have holdest : ws.getOldestInstruction.getDynMicroOp = .ok oldest := holdest
  unfold getMaxProducerExecTime
  dsimp only
  rw [holdest, hget]
  simp only [bind, Except.bind]
  rw [hcons, maxProducer, h.oldWindowContains_null hne hnone]
  rfl

theorem started_of_issueMemOpAt (h : Started
    (issueMemOpAt cfg ws.m_window_head__old_window_tail ws)) : Started ws := by
  rcases h with hlt | hnone
  · exact .inl hlt
  · right
    intro uop huop
    have hself : (issueMemOpAt cfg ws.m_window_head__old_window_tail ws).getInstructionToDispatch =
        { ws.getInstructionToDispatch with
          uop := ws.getInstructionToDispatch.uop.map (issueMemOp cfg) } := modify_self _ _
    have hdependencies := hnone (issueMemOp cfg uop) (by rw [hself, huop]; rfl)
    rw [getDependencies_issueMemOp] at hdependencies
    exact hdependencies

theorem dispatchInstruction_null (h : Ring t.m_windows) (hne : 0 < t.m_windows.m_window_length)
    (hstarted : ¬ Started t.m_windows) : dispatchInstruction cfg t = .error .null := by
  have hring : Ring (issueMemOpAt cfg t.m_windows.m_window_head__old_window_tail t.m_windows) :=
    h.congr ⟨rfl, funext (numberAt_modify (map_issueMemOp _)), rfl, rfl, rfl, rfl⟩ (Nat.le_refl _)
      h.oldHead h.started
  have hnull := getMaxProducerExecTime_null hring hne (fun h => hstarted (started_of_issueMemOpAt h))
  have hnull : getMaxProducerExecTime
      (issueMemOpAt cfg t.m_windows.m_window_head__old_window_tail t.m_windows)
      ((issueMemOpAt cfg t.m_windows.m_window_head__old_window_tail
        t.m_windows).getInstructionByIndex t.m_windows.m_window_head__old_window_tail) =
      .error .null := hnull
  unfold dispatchInstruction
  dsimp only
  rw [hnull]
  rfl

theorem drain_null (htame : 0 < cfg.m_dispatch_width) (h : Ring t.m_windows)
    (hpath : t.m_windows.m_critical_path_tail = t.m_windows.m_critical_path_head)
    (hfull : t.m_windows.wIsFull = true) (hstarted : ¬ Started t.m_windows)
    (n instructions latency : Nat) : drain cfg (n + 1) instructions latency t = .error .null := by
  have hsize := h.size
  have hlength : t.m_windows.m_window_length = t.m_windows.m_window_size := of_decide_eq_true hfull
  have hrate : calculateCurrentDispatchRate cfg t =
      (cfg.m_dispatch_width, { t with m_remaining_dispatch_bandwidth := 0 }) := by
    have hzero : t.m_windows.getCriticalPathLength = 0 := by
      unfold Windows.getCriticalPathLength
      rw [hpath, if_pos (Nat.le_refl _), Int.sub_self]
      rfl
    unfold calculateCurrentDispatchRate
    rw [hzero]
    rfl
  obtain ⟨k, hk⟩ : ∃ k, t.m_windows.m_window_length = k + 1 :=
    ⟨t.m_windows.m_window_length - 1, by omega⟩
  have hdispatch : dispatchInstruction cfg { t with m_remaining_dispatch_bandwidth := 0 } =
      .error .null := dispatchInstruction_null h (by dsimp only; omega) hstarted
  have hgo : (!t.m_windows.wIsEmpty && 0 < cfg.m_dispatch_width && 0 < cfg.m_dispatch_width &&
      StopDispatchReason.STOP_DISPATCH_NO_REASON = .STOP_DISPATCH_NO_REASON) = true := by
    simp [wIsEmpty, hk, htame]
  have hwindow : dispatchWindow cfg t = .error .null := by
    unfold dispatchWindow
    rw [hrate]
    dsimp only
    rw [hk, dispatchLoop, if_pos hgo, hdispatch]
    rfl
  rw [drain, if_pos hfull, hwindow]
  rfl

/-! ### The account and the loop -/

/-- The account of the critical path between two dispatches. -/
structure PathAccount (ws : Windows Reg C) : Prop where
  path : ws.m_critical_path_head ≤ ws.m_critical_path_tail
  total : ws.m_critical_path_tail - ws.m_critical_path_head = ws.m_cpcontr_total
  bytype : ws.m_cpcontr_total = (CpContrType.all.map ws.m_cpcontr_bytype).sum
  old : ws.m_cpcontr_total = ((List.range ws.m_old_window_length).map fun k =>
    (ws.m_double_window ((ws.m_old_window_head + k) % ws.m_double_window_size)).cpContr).sum

theorem pathAccount {cutoff} (h : Accounted cutoff 0 ws) : PathAccount ws := by
  obtain ⟨hlength, -⟩ := h.length
  obtain ⟨hhead, hlast⟩ := h.ring.oldNumber_add
  have hold : (ws.entries ws.m_old_window_length).map WindowEntry.cpContr =
      (List.range ws.m_old_window_length).map fun k =>
        (ws.m_double_window ((ws.m_old_window_head + k) % ws.m_double_window_size)).cpContr := by
    unfold entries
    rw [List.map_map]
    refine List.map_congr_left ?_
    intro k _
    rw [h.ring.slot]
    rfl
  have htypes : ∀ e ∈ ws.entries ws.m_old_window_length,
      typeOf e ∈ CpContrType.all.map some := by
    intro e he
    obtain ⟨k, hk, rfl⟩ := mem_entries.mp he
    obtain ⟨uop, huop, -⟩ := getDynMicroOp_of_numberAt
      (h.ring.number (s := ws.oldNumber + k) (by omega) (by omega))
    exact List.mem_map.mpr ⟨_, CpContrType.mem_all _, (typeOf_eq huop).symm⟩
  refine ⟨by omega, by omega, ?_, ?_⟩
  · have hsum : ((CpContrType.all.map some).map fun type =>
        sumBy typeOf WindowEntry.cpContr type (ws.entries ws.m_old_window_length)).sum = _ :=
      sum_sumBy (by decide) htypes
    rw [h.total, ← hsum, List.map_map]
    congr 1
    refine List.map_congr_left ?_
    intro type _
    exact (h.bytype type).symm
  · rw [h.total, hold]

theorem not_vanishes [DecidableEq Reg] {w t} (h : Accounted cfg.longLatencyCutoff 0 t.m_windows)
    (hsize : t.m_windows.m_window_size = w) (hshort : w * (cfg.longLatencyCutoff - 1) < 4294967296)
    (hsteps : ReflTransGen (TimerStep cfg) t t') : ¬ Vanishes t'.m_windows := by
  have h' := accounted_steps h hsteps
  have hsize' : t'.m_windows.m_window_size = w := (moves_size (steps_moves hsteps)).trans hsize
  intro ⟨hpos, hdvd⟩
  have hbound : t'.m_windows.m_cpcontr_total ≤ w * (cfg.longLatencyCutoff - 1) :=
    h'.length.2.trans (Nat.mul_le_mul_right _ (hsize' ▸ h'.ring.old))
  omega

/-- At every point of a run the path is accounted for, and the loop over a full window returns
unless the path vanishes, which takes a window with room for a path of `2 ^ 32`. -/
theorem simulate_loop_ends [DecidableEq Reg] (cfg : IntervalConfig Reg C) {w : Nat} (hw : 0 < w)
    (hwidth : 0 < cfg.m_dispatch_width)
    (hcontention : cfg.m_do_functional_unit_contention = false)
    (hcutoff : cfg.longLatencyCutoff ≤ 16384) (num_outstanding : Nat) (c : C)
    {t : IntervalTimer Reg C}
    (h : ReflTransGen (TimerStep cfg) (new cfg w num_outstanding c) t) :
    PathAccount t.m_windows ∧
      (∀ fuel instructions latency, 16386 ≤ fuel →
        Ends cfg t (drain cfg fuel instructions latency t) ∨
          ¬ Started t.m_windows ∧ drain cfg fuel instructions latency t = .error .null) ∧
      (w * (cfg.longLatencyCutoff - 1) < 4294967296 →
        ∀ t', ReflTransGen (TimerStep cfg) t t' → ¬ Vanishes t'.m_windows) := by
  have haccounted : Accounted cfg.longLatencyCutoff 0 t.m_windows := accounted_reached hw h
  have hsize : t.m_windows.m_window_size = w := moves_size (steps_moves h)
  refine ⟨pathAccount haccounted, ?_, fun hshort t' => not_vanishes haccounted hsize hshort⟩
  intro fuel instructions latency hfuel
  have hone : fixedOne = 16384 := rfl
  by_cases hstarted : Started t.m_windows
  · left
    have hends := drain_ends ⟨hwidth, hcontention, hcutoff⟩ fixedOne haccounted hsize hstarted
      (Nat.le_add_left _ _) (fuel - (fixedOne + 2)) instructions latency
    have hsum : fuel - (fixedOne + 2) + fixedOne + 2 = fuel := by omega
    rw [hsum] at hends
    exact hends
  · obtain ⟨n, hn⟩ : ∃ n, fuel = n + 1 := ⟨fuel - 1, by omega⟩
    rw [hn]
    by_cases hfull : t.m_windows.wIsFull = true
    · right
      have hnone : t.m_windows.m_next_sequence_number ≤ t.m_windows.m_window_length := by
        by_contra hlt
        exact hstarted (.inl (Nat.lt_of_not_le hlt))
      have hold : t.m_windows.m_old_window_length = 0 := by
        have htotal := haccounted.ring.total
        omega
      have hpath := haccounted.length
      rw [hold, Nat.zero_mul] at hpath
      exact ⟨hstarted, drain_null hwidth haccounted.ring (by omega) hfull hstarted n _ _⟩
    · left
      rw [drain, if_neg hfull]
      exact .inl ⟨_, rfl⟩

/-- One micro-op has been dispatched and has extended the path, and two more have filled the window
again: the loop dispatches from it and returns. -/
theorem simulate_loop_ends_sample : ∃ t,
    sample.enter 2 [sample.uop 10, sample.uop 10] (sample.uop 10) = .ok t ∧
      t.m_windows.wIsFull = true ∧ t.m_windows.m_cpcontr_total = 10 ∧ PathAccount t.m_windows ∧
      ∃ r, drain sample 16386 0 0 t = .ok r := by
  have henter : (do
      let t ← sample.enter 2 [sample.uop 10, sample.uop 10] (sample.uop 10)
      pure (t.m_windows.wIsFull && t.m_windows.m_cpcontr_total = 10 &&
        t.m_windows.m_window_length < t.m_windows.m_next_sequence_number)) =
      Except.ok true := by decide
  obtain ⟨t, henter, hfacts⟩ := of_bind_ok henter
  have hfacts := Except.ok.inj hfacts
  simp only [Bool.and_eq_true, decide_eq_true_eq] at hfacts
  obtain ⟨⟨hfull, htotal⟩, hstarted⟩ := hfacts
  obtain ⟨haccount, hloop, hshort⟩ := simulate_loop_ends sample (by decide) (by decide) rfl
    (by decide) 1 () (sample.enter_reached henter)
  refine ⟨t, henter, hfull, htotal, haccount, ?_⟩
  rcases hloop 16386 0 0 (Nat.le_refl _) with hends | ⟨hnot, -⟩
  · rcases hends with hok | ⟨-, t', hsteps, hvanishes⟩
    · exact hok
    · exact absurd hvanishes (hshort (by decide) t' hsteps)
  · exact absurd (.inl hstarted) hnot

end IntervalTimer
end Sniper.Timing.Interval
