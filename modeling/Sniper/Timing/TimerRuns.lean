import Sniper.Timing.TimerSteps
import Sniper.Timing.WindowMoves

/-! # Runs of the interval timer

`simulate` is a sequence of steps: micro-ops are added, dispatched, and accounted for. Each step
is a sequence of moves of the windows, so the ring is kept in all of them.
-/
namespace Sniper.Timing.Interval
open Lib.Simulation Relation

variable {Reg C : Type} [DecidableEq Reg] {cfg : IntervalConfig Reg C}

namespace IntervalTimer
open Windows
variable {t t' : IntervalTimer Reg C} {ws ws' : Windows Reg C}

/-- A step of a run. A micro-op that is dispatched moves to the old window at once. -/
inductive TimerStep (cfg : IntervalConfig Reg C) : IntervalTimer Reg C → IntervalTimer Reg C → Prop
  | add {t t' : IntervalTimer Reg C} (uop : IntervalUop Reg) (h : addUop cfg uop t = .ok t') :
      TimerStep cfg t t'
  | rate (t : IntervalTimer Reg C) : TimerStep cfg t (calculateCurrentDispatchRate cfg t).2
  | dispatch {t t₁ : IntervalTimer Reg C} {charged : Nat} {reason : StopDispatchReason}
      {ws : Windows Reg C} (hne : t.m_windows.m_window_length ≠ 0)
      (h : dispatchInstruction cfg t = .ok (charged, reason, t₁))
      (hold : t₁.m_windows.dispatchInstruction cfg.contention = .ok ws) :
      TimerStep cfg t { t₁ with m_windows := ws }
  /-- The shares of the types are added up. -/
  | account (t : IntervalTimer Reg C) (c : C) (m_cpContrByType : CpContrType → Nat) :
      TimerStep cfg t { t with
        m_windows := { t.m_windows with interval_contention := c }
        m_cpContrByType := m_cpContrByType }

/-! ### Runs are steps -/

theorem dispatchLoop_steps {rate n instructions micro_ops latency reason r}
    (h : dispatchLoop cfg rate n instructions micro_ops latency reason t = .ok r) :
    ReflTransGen (TimerStep cfg) t r.2.2.2 := by
  induction n generalizing instructions micro_ops latency reason t with
  | zero =>
    cases h
    exact .refl
  | succ n ih =>
    rw [dispatchLoop] at h
    split at h
    · next hgo =>
      obtain ⟨⟨charged, reason, t₁⟩, hdispatch, h⟩ := of_bind_ok h
      obtain ⟨ws, hold, h⟩ := of_bind_ok h
      obtain ⟨uop, -, h⟩ := of_bind_ok h
      have hne : t.m_windows.m_window_length ≠ 0 := by
        simp only [Bool.and_eq_true, Bool.not_eq_true', wIsEmpty, decide_eq_false_iff_not] at hgo
        exact hgo.1.1.1
      exact .head (.dispatch hne hdispatch hold) (ih h)
    · cases h
      exact .refl

theorem account_steps {length}
    (h : addFractions length CpContrType.all (fractionLength cfg t).2 = .ok t') :
    TimerStep cfg t t' := by
  obtain ⟨counts, rfl⟩ := addFractions_ok h
  obtain ⟨c, hc⟩ := effective_ok cfg t.m_windows
    (t.m_windows.getCriticalPathLength % 2 ^ 64).toNat true
  have hlength : (fractionLength cfg t).2 =
      { t with m_windows := { t.m_windows with interval_contention := c } } :=
    congrArg (fun ws => { t with m_windows := ws }) hc
  rw [hlength]
  exact .account t c counts

theorem dispatchWindow_steps {r} (h : dispatchWindow cfg t = .ok r) :
    ReflTransGen (TimerStep cfg) t r.2.2 := by
  have hrate : TimerStep cfg t (calculateCurrentDispatchRate cfg t).2 := .rate t
  unfold dispatchWindow at h
  generalize calculateCurrentDispatchRate cfg t = start at h hrate
  obtain ⟨⟨instructions, micro_ops, latency, t₁⟩, hloop, h⟩ := of_bind_ok h
  have hsteps := ReflTransGen.head hrate (dispatchLoop_steps hloop)
  dsimp only at h
  split at h
  · split at h
    · obtain ⟨t₂, hfractions, h⟩ := of_bind_ok h
      cases h
      exact hsteps.tail (account_steps hfractions)
    · cases h
      exact hsteps
  · cases h
    exact hsteps

theorem drain_steps {fuel instructions latency r}
    (h : drain cfg fuel instructions latency t = .ok r) :
    ReflTransGen (TimerStep cfg) t r.2.2 := by
  induction fuel generalizing instructions latency t with
  | zero => cases h
  | succ fuel ih =>
    rw [drain] at h
    split at h
    · obtain ⟨⟨executed, l, t₁⟩, hwindow, h⟩ := of_bind_ok h
      exact (dispatchWindow_steps hwindow).trans (ih h)
    · cases h
      exact .refl

theorem simulate_steps {fuel instructions latency insts r}
    (h : simulate cfg fuel insts instructions latency t = .ok r) :
    ReflTransGen (TimerStep cfg) t r.2.2 := by
  induction insts generalizing instructions latency t with
  | nil =>
    cases h
    exact .refl
  | cons uop insts ih =>
    rw [simulate] at h
    split at h
    · exact ih h
    · obtain ⟨t₁, hadd, h⟩ := of_bind_ok h
      obtain ⟨⟨executed, l, t₂⟩, hdrain, h⟩ := of_bind_ok h
      exact .head (.add uop hadd) ((drain_steps hdrain).trans (ih h))

/-! ### Steps are moves -/

variable {decoder : Decoder Reg} {contention : IntervalContention Reg C}

theorem modify_move {index f}
    (h : (f (ws.m_double_window index)).uop.map (·.sequenceNumber) = ws.numberAt index) :
    Move decoder contention ws (ws.modify index f) := by
  refine .mark _ ?_
  intro i
  by_cases hi : i = index
  · rw [hi, Function.update_self]
    exact h
  · rw [Function.update_of_ne hi]
    rfl

theorem prepared_moves (index : Nat) (ws : Windows Reg C) :
    ReflTransGen (Move decoder contention) ws (prepared cfg index ws) :=
  .tail (.single (modify_move (map_issueMemOp _))) (modify_move rfl)

theorem restart_moves {charged} (hne : ws.m_window_length ≠ 0)
    (h : Restart contention ws charged ws') : ReflTransGen (Move decoder contention) ws ws' := by
  cases h with
  | none => exact .refl
  | some moved h marks c => exact .tail (.tail (.single (.clear hne _)) (.times marks)) (.ports c)

theorem updateCriticalPath_moves (cfg : IntervalConfig Reg C) (index : Nat)
    (hne : ws.m_window_length ≠ 0) :
    ReflTransGen (Move decoder cfg.contention) ws (updateCriticalPath cfg index ws).2 := by
  unfold updateCriticalPath
  dsimp only
  split
  · unfold updateCriticalPathTail
    dsimp only
    split
    · exact .tail (.single (modify_move rfl)) (.path _)
    · exact .refl
  · exact .single (.clear hne _)

theorem marked_moves {window} (h : Marked window ws ws') :
    Move decoder contention ws ws' := by
  rw [h.rest]
  exact .mark _ (congrFun h.number)

theorem executed_moves {index time charged} (hne : ws.m_window_length ≠ 0)
    (h : Executed cfg index ws time charged ws') :
    ReflTransGen (Move decoder cfg.contention) ws ws' := by
  have hset : ∀ time, Move decoder cfg.contention ws (setExecTime index time ws) ∧
      (setExecTime index time ws).m_window_length ≠ 0 := by
    intro time
    exact ⟨modify_move rfl, hne⟩
  cases h with
  | settle time => exact .head (hset time).1 (updateCriticalPath_moves cfg index (hset time).2)
  | overlap => exact .refl
  | flush => exact .tail (.single (hset _).1) (.clear (hset _).2 _)
  | load charged hblock =>
    have hmarked := blockWindow_ok hblock
    exact .tail (.tail (.single (hset _).1) (.clear (hset _).2 _)) (marked_moves hmarked)

theorem step_moves (h : TimerStep cfg t t') :
    ReflTransGen (Move cfg.decoder cfg.contention) t.m_windows t'.m_windows := by
  cases h with
  | add uop h =>
    obtain ⟨ws, hadd, h⟩ := of_bind_ok h
    cases h
    exact .single (.add _ hadd)
  | rate =>
    unfold calculateCurrentDispatchRate
    dsimp only
    split
    · obtain ⟨c, hc⟩ := effective_ok cfg t.m_windows
        t.m_windows.getCriticalPathLength.toNat false
      dsimp only
      rw [hc]
      exact .single (.ports c)
    · exact .refl
  | dispatch hne h hold =>
    obtain ⟨producers, missed, executed, ws, -, -, hrestart, hexecuted⟩ := dispatchInstruction_ok h
    have hne₁ : (prepared cfg t.m_windows.m_window_head__old_window_tail
        t.m_windows).m_window_length ≠ 0 := hne
    have hne₂ := hrestart.window.2 ▸ hne₁
    have hne₃ := hexecuted.window.2 ▸ hne₂
    have hmoves : ReflTransGen (Move cfg.decoder cfg.contention) _ ws :=
      restart_moves hne₁ hrestart
    exact (((prepared_moves _ _).trans hmoves).trans (executed_moves hne₂ hexecuted)).tail
      (.dispatch hne₃ hold)
  | account c counts => exact .single (.ports c)

end IntervalTimer
end Sniper.Timing.Interval
