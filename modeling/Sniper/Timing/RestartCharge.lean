import Sniper.Timing.PathAccount

/-! # Restarts are charged

The critical path only moves forward, and the head of a path that starts anew lies no further
behind the old tail than what the call charges. What the micro-op itself adds to the new path is
not charged with it, and neither is an execution that is cut off.
-/
namespace Sniper.Timing.Interval
open Lib.Simulation Relation Windows

variable {Reg C : Type} {cfg : IntervalConfig Reg C}

namespace IntervalTimer
variable {ws ws' : Windows Reg C} {t t' : IntervalTimer Reg C}

/-- The execution of the micro-op restarts the path: `updateCriticalPath` is called with a time
by the long-latency cut-off or more behind the tail that the misses of the call have left. -/
def cutOff (cfg : IntervalConfig Reg C) (t : IntervalTimer Reg C) : Bool :=
  match beforeExecution cfg t with
  | .ok (producers, _, ws) =>
    (updateTime cfg t.m_windows.m_window_head__old_window_tail producers
      { t with m_windows := ws }).any fun time =>
        ws.m_critical_path_tail + cfg.longLatencyCutoff ≤ time
  | .error _ => false

theorem restart_tail {contention missed} (hpath : ws.m_critical_path_head ≤ ws.m_critical_path_tail)
    (h : Restart contention ws missed ws') :
    ws.m_critical_path_tail ≤ ws'.m_critical_path_tail ∧
      ws'.m_critical_path_tail ≤ ws.m_critical_path_tail + missed ∧
      ws'.m_critical_path_head ≤ ws'.m_critical_path_tail := by
  cases h with
  | none => exact ⟨Nat.le_refl _, Nat.le_add_right _ _, hpath⟩
  | some moved hmoved marks c =>
    exact ⟨Nat.le_add_right _ _, Nat.add_le_add_left hmoved _, Nat.le_refl _⟩

theorem updateCriticalPath_tail (cfg : IntervalConfig Reg C) (index : Nat) (ws : Windows Reg C) :
    ws.m_critical_path_tail ≤ (updateCriticalPath cfg index ws).2.m_critical_path_tail ∧
      ((updateCriticalPath cfg index ws).1 = 0 →
        (updateCriticalPath cfg index ws).2.m_critical_path_head = ws.m_critical_path_head) := by
  have hzero := longLatencyOperationLatency_eq_zero ws cfg.longLatencyCutoff
    (ws.getInstructionByIndex index)
  unfold updateCriticalPath
  dsimp only
  split
  · unfold updateCriticalPathTail
    dsimp only
    split
    · next hgt => exact ⟨Nat.le_of_lt hgt, fun _ => rfl⟩
    · exact ⟨Nat.le_refl _, fun _ => rfl⟩
  · next hlong =>
    refine ⟨?_, fun h => absurd h hlong⟩
    by_contra hlt
    exact hlong (hzero.mpr (.inl (Nat.lt_of_not_le hlt)))

theorem updateCriticalPath_uncut {index time} (h : time < ws.m_critical_path_tail +
    cfg.longLatencyCutoff) : (updateCriticalPath cfg index (setExecTime index time ws)).1 = 0 := by
  have htime : ((setExecTime index time ws).getInstructionByIndex index).execTime = time :=
    congrArg WindowEntry.execTime (modify_self ..)
  have hzero := longLatencyOperationLatency_eq_zero (setExecTime index time ws)
    cfg.longLatencyCutoff ((setExecTime index time ws).getInstructionByIndex index)
  rw [htime] at hzero
  have htail : (setExecTime index time ws).m_critical_path_tail = ws.m_critical_path_tail := rfl
  unfold updateCriticalPath
  dsimp only
  rw [if_pos (hzero.mpr ?_)]
  rw [htail]
  omega

theorem executed_tail {index executed settled}
    (hpath : ws.m_critical_path_head ≤ ws.m_critical_path_tail)
    (h : Executed cfg index ws settled executed ws') :
    ws.m_critical_path_tail ≤ ws'.m_critical_path_tail ∧
      ((∀ time ∈ settled, time < ws.m_critical_path_tail + cfg.longLatencyCutoff) →
        ws'.m_critical_path_head ≤ ws.m_critical_path_tail + executed) := by
  cases h with
  | settle time =>
    obtain ⟨htail, hhead⟩ := updateCriticalPath_tail cfg index (setExecTime index time ws)
    refine ⟨htail, fun huncut => ?_⟩
    rw [hhead (updateCriticalPath_uncut (huncut time rfl))]
    exact hpath.trans (Nat.le_add_right _ _)
  | overlap => exact ⟨Nat.le_refl _, fun _ => hpath⟩
  | flush => exact ⟨Nat.le_refl _, fun _ => Nat.le_add_right _ _⟩
  | load charged hblock =>
    have hmarked := blockWindow_ok hblock
    rw [hmarked.rest]
    exact ⟨Nat.le_add_right _ _, fun _ => Nat.le_refl _⟩

/-- A call never moves the tail back. When the old window is empty behind it, the tail has moved by
no more than what is charged and what the micro-op contributes, unless its execution was cut off.
-/
theorem dispatchInstruction_charged [DecidableEq Reg] (cfg : IntervalConfig Reg C)
    {w : Nat} (hw : 0 < w) (num_outstanding : Nat) (c : C) {t t' : IntervalTimer Reg C}
    (hreached : ReflTransGen (TimerStep cfg) (new cfg w num_outstanding c) t)
    (hne : 0 < t.m_windows.m_window_length) {latency : Nat} {reason : StopDispatchReason}
    (h : dispatchInstruction cfg t = .ok (latency, reason, t')) :
    t.m_windows.m_critical_path_tail ≤ t'.m_windows.m_critical_path_tail ∧
      (t'.m_windows.m_old_window_length = 0 → cutOff cfg t = false →
        t'.m_windows.m_critical_path_tail - t.m_windows.m_critical_path_tail ≤
          latency + t'.m_windows.getInstructionToDispatch.cpContr) := by
  have haccounted : Accounted cfg.longLatencyCutoff 0 t.m_windows := accounted_reached hw hreached
  obtain ⟨haccounted', -⟩ := accounted_dispatchInstruction haccounted hne h
  obtain ⟨producers, missed, executed, ws, hbefore, hlatency, hrestart, hexecuted⟩ :=
    dispatchInstruction_ok h
  have hsum := haccounted.path.sum
  have hpath : (prepared cfg t.m_windows.m_window_head__old_window_tail
      t.m_windows).m_critical_path_head ≤ (prepared cfg
        t.m_windows.m_window_head__old_window_tail t.m_windows).m_critical_path_tail :=
    hsum ▸ Nat.le_add_right _ _
  obtain ⟨hle, hmissed, hpath'⟩ := restart_tail hpath hrestart
  have hle : t.m_windows.m_critical_path_tail ≤ ws.m_critical_path_tail := hle
  have hmissed : ws.m_critical_path_tail ≤ t.m_windows.m_critical_path_tail + missed := hmissed
  obtain ⟨htail, hhead⟩ := executed_tail hpath' hexecuted
  refine ⟨hle.trans htail, ?_⟩
  intro hempty hcut
  have hhead' : t'.m_windows.m_critical_path_head ≤ ws.m_critical_path_tail + executed := by
    refine hhead fun time htime => Nat.lt_of_not_le fun hle => ?_
    unfold cutOff at hcut
    rw [hbefore] at hcut
    dsimp only at hcut
    rw [Option.mem_def.mp htime] at hcut
    exact of_decide_eq_false hcut hle
  have hself : t'.m_windows.getInstructionToDispatch =
      t'.m_windows.entryOf (t'.m_windows.oldNumber + 0) := by
    have hnumbers := haccounted'.ring.oldNumber_add
    have hsame : t'.m_windows.oldNumber + 0 = t'.m_windows.headNumber := by omega
    unfold getInstructionToDispatch getInstructionByIndex entryOf
    rw [hsame, haccounted'.ring.head]
  have hsum' := haccounted'.path.sum
  rw [hempty, Nat.zero_add, entries_succ, ← hself] at hsum'
  change _ = _ + t'.m_windows.getInstructionToDispatch.cpContr at hsum'
  omega

/-- A micro-op of the small core whose instruction misses the instruction cache for five cycles
and that executes for ten. -/
def sample.missing : IntervalUop Nat :=
  { sample.uop 10 with
    iCacheHitWhere := .elsewhere 4
    iCacheLatency := 5 }

/-- The first call for it: its latency, by how much the tail moves, and the old window behind it. -/
def sample.firstCall (uop : IntervalUop Nat) : Except Halt (Nat × Nat × Nat) := do
  let t ← addUop sample uop (new sample 1 1 ())
  let (latency, _, t') ← dispatchInstruction sample t
  return (latency, t'.m_windows.m_critical_path_tail - t.m_windows.m_critical_path_tail,
    t'.m_windows.m_old_window_length)

/-- The restart charges the miss; the micro-op then moves the tail of the new path by as much as
it takes to execute. -/
theorem restart_undercharged : ∃ t t' latency reason,
    ReflTransGen (TimerStep sample) (new sample 1 1 ()) t ∧
      dispatchInstruction sample t = .ok (latency, reason, t') ∧
      t'.m_windows.m_old_window_length = 0 ∧
      latency < t'.m_windows.m_critical_path_tail - t.m_windows.m_critical_path_tail := by
  have hcall : sample.firstCall sample.missing = .ok (5, 15, 0) := by decide
  obtain ⟨t, hadd, hcall⟩ := of_bind_ok hcall
  obtain ⟨⟨latency, reason, t'⟩, hdispatch, hcall⟩ := of_bind_ok hcall
  obtain ⟨hlatency, hrest⟩ := Prod.mk.inj (Except.ok.inj hcall)
  obtain ⟨hmoved, hempty⟩ := Prod.mk.inj hrest
  refine ⟨t, t', latency, reason, .single (.add _ hadd), hdispatch, hempty, ?_⟩
  omega

/-- Behind a micro-op that has moved the tail to ten, the call misses, restarts the path, and its
execution is not cut off: the tail moves by the five cycles that are charged and the ten that the
micro-op contributes. -/
theorem dispatchInstruction_charged_missing : ∃ t t' latency reason,
    sample.enter 1 [sample.uop 10] sample.missing = .ok t ∧
      dispatchInstruction sample t = .ok (latency, reason, t') ∧
      t.m_windows.m_critical_path_tail = 10 ∧ t'.m_windows.m_old_window_length = 0 ∧
      cutOff sample t = false ∧
      t.m_windows.m_critical_path_tail ≤ t'.m_windows.m_critical_path_tail ∧
      t'.m_windows.m_critical_path_tail - t.m_windows.m_critical_path_tail ≤
        latency + t'.m_windows.getInstructionToDispatch.cpContr := by
  have hcall : (do
      let t ← sample.enter 1 [sample.uop 10] sample.missing
      let r ← dispatchInstruction sample t
      pure (0 < t.m_windows.m_window_length && t.m_windows.m_critical_path_tail = 10 &&
        r.2.2.m_windows.m_old_window_length = 0 && !cutOff sample t)) =
      Except.ok true := by decide
  obtain ⟨t, henter, hcall⟩ := of_bind_ok hcall
  obtain ⟨⟨latency, reason, t'⟩, hdispatch, hcall⟩ := of_bind_ok hcall
  have hfacts := Except.ok.inj hcall
  simp only [Bool.and_eq_true, decide_eq_true_eq, Bool.not_eq_true'] at hfacts
  obtain ⟨⟨⟨hne, htail⟩, hempty⟩, huncut⟩ := hfacts
  obtain ⟨hforward, hcharged⟩ := dispatchInstruction_charged sample (by decide) 1 ()
    (sample.enter_reached henter) hne hdispatch
  exact ⟨t, t', latency, reason, henter, hdispatch, htail, hempty, huncut, hforward,
    hcharged hempty huncut⟩

end IntervalTimer
end Sniper.Timing.Interval
