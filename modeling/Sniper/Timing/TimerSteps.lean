import Sniper.Timing.IntervalTimer
import Sniper.Timing.WindowRing

/-! # What the interval timer does to its windows

`dispatchInstruction` prepares the entry at the head of the window, may restart the critical path
for the misses of the micro-op, and executes it in one of four ways. Blocking the window marks
entries behind its head.
-/
namespace Sniper.Timing.Interval
open Lib.Simulation

variable {Reg C : Type} {cfg : IntervalConfig Reg C}

namespace Windows
variable {ws ws' ws'' : Windows Reg C}

theorem modify_self (index : Nat) (f : WindowEntry Reg → WindowEntry Reg) :
    (ws.modify index f).m_double_window index = f (ws.m_double_window index) :=
  Function.update_self ..

theorem modify_of_ne {index i} (h : i ≠ index) (f : WindowEntry Reg → WindowEntry Reg) :
    (ws.modify index f).m_double_window i = ws.m_double_window i :=
  Function.update_of_ne h ..

theorem longLatencyOperationLatency_eq_zero (ws : Windows Reg C) (cutoff : Nat)
    (e : WindowEntry Reg) :
    ws.longLatencyOperationLatency cutoff e = 0 ↔
      e.execTime < ws.m_critical_path_tail ∨ e.execTime - ws.m_critical_path_tail < cutoff := by
  unfold longLatencyOperationLatency
  split
  · next hlt => simp [hlt]
  · next hge =>
    split
    · next hshort => simp [hshort]
    · next hlong => simp [hge, hlong]

/-- Some entries of a part of the ring change: not in their number and contribution, and in their
execution time only to the head of the critical path. -/
structure Marked (window : List Nat) (ws ws' : Windows Reg C) : Prop where
  rest : ws' = { ws with m_double_window := ws'.m_double_window }
  outside : ∀ i ∉ window, ws'.m_double_window i = ws.m_double_window i
  number : ws'.numberAt = ws.numberAt
  cpContr : ∀ i, (ws'.m_double_window i).cpContr = (ws.m_double_window i).cpContr
  execTime : ∀ i, (ws'.m_double_window i).execTime = (ws.m_double_window i).execTime ∨
    (ws'.m_double_window i).execTime = ws.m_critical_path_head

theorem Marked.refl (window : List Nat) (ws : Windows Reg C) : Marked window ws ws :=
  ⟨rfl, fun _ _ => rfl, rfl, fun _ => rfl, fun _ => .inl rfl⟩

theorem Marked.trans {window} (h : Marked window ws ws') (h' : Marked window ws' ws'') :
    Marked window ws ws'' := by
  refine ⟨?_, ?_, h'.number.trans h.number, ?_, ?_⟩
  · rw [h'.rest, h.rest]
  · intro i hi
    rw [h'.outside i hi, h.outside i hi]
  · intro i
    rw [h'.cpContr i, h.cpContr i]
  · intro i
    have hhead : ws'.m_critical_path_head = ws.m_critical_path_head := by rw [h.rest]
    rcases h'.execTime i with heq | heq
    · rw [heq]
      exact h.execTime i
    · exact .inr (heq.trans hhead)

theorem Marked.modify {window index} (hmem : index ∈ window) {f}
    (hnumber : (f (ws.m_double_window index)).uop.map (·.sequenceNumber) = ws.numberAt index)
    (hcpContr : (f (ws.m_double_window index)).cpContr = (ws.m_double_window index).cpContr)
    (hexecTime : (f (ws.m_double_window index)).execTime = (ws.m_double_window index).execTime ∨
      (f (ws.m_double_window index)).execTime = ws.m_critical_path_head) :
    Marked window ws (ws.modify index f) := by
  refine ⟨rfl, ?_, ?_, ?_, ?_⟩
  · intro i hi
    refine modify_of_ne ?_ f
    rintro rfl
    exact hi hmem
  · funext i
    unfold numberAt
    by_cases hi : i = index
    · rw [hi, modify_self]
      exact hnumber
    · rw [modify_of_ne hi]
  · intro i
    by_cases hi : i = index
    · rw [hi, modify_self, hcpContr]
    · rw [modify_of_ne hi]
  · intro i
    by_cases hi : i = index
    · rw [hi, modify_self]
      exact hexecTime
    · exact .inl (congrArg _ (modify_of_ne hi f))

/-- What the misses of a micro-op make of the windows: nothing, or the critical path starts anew
no further behind its tail than what is charged. -/
inductive Restart (contention : IntervalContention Reg C) (ws : Windows Reg C) :
    Nat → Windows Reg C → Prop
  | none : Restart contention ws 0 ws
  | some {charged : Nat} (moved : Nat) (h : moved ≤ charged) (m_exec_time_map : Nat → Nat) (c : C) :
      Restart contention ws charged
        { ws.clearOldWindow contention (ws.m_critical_path_tail + moved) with
          m_exec_time_map := m_exec_time_map
          interval_contention := c }

theorem Restart.window {contention charged} (h : Restart contention ws charged ws') :
    ws'.m_window_head__old_window_tail = ws.m_window_head__old_window_tail ∧
      ws'.m_window_length = ws.m_window_length := by
  cases h with
  | none | some => exact ⟨rfl, rfl⟩

end Windows

namespace IntervalTimer
open Windows
variable {ws ws₁ ws₂ ws' : Windows Reg C} {t t' : IntervalTimer Reg C}

/-! ### Blocking the window -/

theorem issueMemOp_sequenceNumber (uop : IntervalUop Reg) :
    (issueMemOp cfg uop).sequenceNumber = uop.sequenceNumber := by
  unfold issueMemOp
  split
  · rfl
  · rfl

theorem map_issueMemOp (uop : Option (IntervalUop Reg)) :
    (uop.map (issueMemOp cfg)).map (·.sequenceNumber) = uop.map (·.sequenceNumber) := by
  rw [Option.map_map]
  congr 1
  funext uop
  exact issueMemOp_sequenceNumber uop

theorem mark_ok {head_address pending e e' uop}
    (h : mark cfg ws head_address pending e uop = .ok e') :
    e'.uop.map (·.sequenceNumber) = e.uop.map (·.sequenceNumber) ∧ e'.cpContr = e.cpContr ∧
      (e'.execTime = e.execTime ∨ e'.execTime = ws.m_critical_path_head) := by
  obtain ⟨dependent, -, h⟩ := of_bind_ok h
  dsimp only at h
  split at h
  · cases h
    exact ⟨rfl, rfl, .inl rfl⟩
  · split at h
    · cases h
      exact ⟨map_issueMemOp _, rfl, .inr rfl⟩
    · cases h
      exact ⟨rfl, rfl, .inl rfl⟩

theorem blockLoop_ok {head_address window rest pending} (hrest : ∀ i ∈ rest, i ∈ window)
    (h : blockLoop cfg head_address rest pending ws = .ok ws') :
    Marked window ws ws' := by
  induction rest generalizing ws pending with
  | nil =>
    cases h
    exact .refl _ _
  | cons index rest ih =>
    have hmem := hrest index (List.mem_cons_self ..)
    obtain ⟨uop, -, h⟩ := of_bind_ok h
    have hcleared : Marked window ws
        (ws.modify index fun e => { e with dependent := .NO_DEP, icacheOverlap := true }) :=
      .modify hmem rfl rfl (.inl rfl)
    split at h
    · cases h
      exact hcleared
    · obtain ⟨e, hmark, h⟩ := of_bind_ok h
      obtain ⟨hnumber, hcpContr, hexecTime⟩ := mark_ok hmark
      have hloop := ih (fun i hi => hrest i (List.mem_cons_of_mem _ hi)) h
      exact (hcleared.trans (.modify hmem hnumber hcpContr hexecTime)).trans hloop

theorem blockWindow_ok (h : blockWindow cfg ws = .ok ws') :
    Marked ws.getWindowIterator ws ws' := by
  unfold blockWindow at h
  split at h
  · cases h
    exact .refl _ _
  · next head rest hwindow =>
    rw [hwindow]
    obtain ⟨uop, -, h⟩ := of_bind_ok h
    have hmarked : Marked (head :: rest) ws
        (ws.modify head fun e => { e with dependent := .INDEP_MISS }) :=
      .modify (List.mem_cons_self ..) rfl rfl (.inl rfl)
    exact hmarked.trans (blockLoop_ok (fun i hi => List.mem_cons_of_mem _ hi) h)

/-! ### The misses -/

theorem icacheMiss_ok {index charged reason}
    (h : icacheMiss cfg index ws = .ok (charged, reason, ws')) :
    (charged = 0 ∧ ws' = ws) ∨ ws' = ws.clearOldWindow cfg.contention
      ((ws.getInstructionByIndex index).cptail + charged) := by
  obtain ⟨uop, -, h⟩ := of_bind_ok h
  split at h
  · cases h
    exact .inr rfl
  · cases h
    exact .inl ⟨rfl, rfl⟩

theorem branchMispredict_ok {index charged reason reason'}
    (h : branchMispredict cfg index reason ws = .ok (charged, reason', ws')) :
    (charged = 0 ∧ ws' = ws) ∨ ∃ m_exec_time_map,
      ws' = { ws with m_exec_time_map := m_exec_time_map }.clearOldWindow cfg.contention
        ((ws.getInstructionByIndex index).cptail + charged) := by
  obtain ⟨uop, -, h⟩ := of_bind_ok h
  split at h
  · obtain ⟨⟨resolution, ws₁⟩, hresolution, h⟩ := of_bind_ok h
    cases h
    obtain ⟨micro_op, -, hresolution⟩ := of_bind_ok hresolution
    obtain ⟨marks, -, hresolution⟩ := of_bind_ok hresolution
    obtain ⟨⟨latency, marks'⟩, -, hresolution⟩ := of_bind_ok hresolution
    obtain ⟨-, rfl⟩ := Prod.mk.inj (Except.ok.inj hresolution)
    exact .inr ⟨marks', rfl⟩
  · cases h
    exact .inl ⟨rfl, rfl⟩

theorem restart_ok {index icache bpred reason reason'}
    (hcptail : (ws.getInstructionByIndex index).cptail = ws.m_critical_path_tail)
    (hicache : icacheMiss cfg index ws = .ok (icache, reason, ws₁))
    (hbpred : branchMispredict cfg index reason ws₁ = .ok (bpred, reason', ws₂)) :
    Restart cfg.contention ws (icache + bpred) ws₂ := by
  rcases icacheMiss_ok hicache with ⟨rfl, rfl⟩ | rfl
  · rcases branchMispredict_ok hbpred with ⟨rfl, rfl⟩ | ⟨marks, rfl⟩
    · exact .none
    · rw [hcptail]
      exact .some _ (Nat.le_add_left _ _) marks _
  · rcases branchMispredict_ok hbpred with ⟨rfl, rfl⟩ | ⟨marks, rfl⟩
    · rw [hcptail]
      exact .some _ (Nat.le_add_right _ _) _ _
    · have hsaved : ((ws.clearOldWindow cfg.contention ((ws.getInstructionByIndex index).cptail +
          icache)).getInstructionByIndex index).cptail = ws.m_critical_path_tail := hcptail
      rw [hsaved]
      exact .some _ (Nat.le_add_left _ _) marks _

/-! ### Executing -/

/-- How the micro-op at an index is executed, with the time that the critical path is updated by
and with what that charges. -/
inductive Executed (cfg : IntervalConfig Reg C) (index : Nat) (ws : Windows Reg C) :
    Option Nat → Nat → Windows Reg C → Prop
  /-- It gets an execution time, by which the critical path is updated. -/
  | settle (time : Nat) : Executed cfg index ws (some time)
      (updateCriticalPath cfg index (setExecTime index time ws)).1
      (updateCriticalPath cfg index (setExecTime index time ws)).2
  /-- It was issued under an earlier long-latency load. -/
  | overlap : Executed cfg index ws none 0 ws
  /-- It serializes: the path restarts where it ends. -/
  | flush (charged : Nat) : Executed cfg index ws none charged
      ((setExecTime index ws.m_critical_path_tail ws).clearOldWindow cfg.contention
        ws.m_critical_path_tail)
  /-- It is a long-latency load. -/
  | load (charged : Nat) {ws' : Windows Reg C}
      (h : blockWindow cfg ((setExecTime index ws.m_critical_path_tail ws).clearOldWindow
        cfg.contention (ws.m_critical_path_tail + charged)) = .ok ws') :
      Executed cfg index ws none charged ws'

theorem updateCriticalPath_window (cfg : IntervalConfig Reg C) (index : Nat) (ws : Windows Reg C) :
    (updateCriticalPath cfg index ws).2.m_window_head__old_window_tail =
        ws.m_window_head__old_window_tail ∧
      (updateCriticalPath cfg index ws).2.m_window_length = ws.m_window_length := by
  unfold updateCriticalPath
  dsimp only
  split
  · unfold updateCriticalPathTail
    dsimp only
    split
    · exact ⟨rfl, rfl⟩
    · exact ⟨rfl, rfl⟩
  · exact ⟨rfl, rfl⟩

theorem Executed.window {index time charged} (h : Executed cfg index ws time charged ws') :
    ws'.m_window_head__old_window_tail = ws.m_window_head__old_window_tail ∧
      ws'.m_window_length = ws.m_window_length := by
  cases h with
  | settle time => exact updateCriticalPath_window cfg index _
  | overlap | flush => exact ⟨rfl, rfl⟩
  | load charged hblock =>
    rw [(blockWindow_ok hblock).rest]
    exact ⟨rfl, rfl⟩

/-- The execution time that `execute` updates the critical path by, where it does. -/
def updateTime (cfg : IntervalConfig Reg C) (index max_producer_exec_time : Nat)
    (t : IntervalTimer Reg C) : Option Nat :=
  let e := t.m_windows.getInstructionByIndex index
  let dispatch_cycle := max max_producer_exec_time t.m_windows.m_critical_path_head
  e.uop.bind fun uop =>
    if uop.m_uop.serializing || uop.interrupt then none
    else if uop.m_uop.uop_type = .execute && uop.m_uop.m_membar then
      some (max max_producer_exec_time
        (max t.m_max_store_completion_time t.m_max_load_completion_time) + uop.execLatency)
    else if uop.m_uop.isLoad then
      if e.dcacheOverlap || uop.isLongLatencyLoad cfg.longLatencyCutoff then none
      else some (getCompletionTime cfg t.m_loadstore_contention uop.m_uop.m_membar dispatch_cycle
        uop.execLatency).1
    else if uop.m_uop.isStore then some (dispatch_cycle + cfg.bypassLatency uop + 1)
    else some (dispatch_cycle + uop.execLatency)

theorem execute_ok {index producers charged : Nat}
    (h : execute cfg index producers t = .ok (charged, t')) :
    Executed cfg index t.m_windows (updateTime cfg index producers t) charged t'.m_windows := by
  obtain ⟨uop, huop, h⟩ := of_bind_ok h
  have huop : (t.m_windows.getInstructionByIndex index).uop = some uop := by
    unfold WindowEntry.getDynMicroOp at huop
    split at huop
    · next hsome => rw [hsome, Except.ok.inj huop]
    · cases huop
  simp only [updateTime, huop, Option.bind_some]
  split at h
  · next hflush =>
    cases h
    rw [if_pos hflush]
    exact .flush _
  · next hflush =>
    rw [if_neg hflush]
    split at h
    · next hbarrier =>
      cases h
      rw [if_pos hbarrier]
      exact .settle _
    · next hbarrier =>
      rw [if_neg hbarrier]
      split at h
      · next hload =>
        rw [if_pos hload]
        split at h
        · next hoverlap =>
          cases h
          rw [hoverlap, Bool.true_or, if_pos rfl]
          exact .overlap
        · next hoverlap =>
          rw [Bool.eq_false_iff.mpr hoverlap, Bool.false_or]
          split at h
          · next hlong =>
            obtain ⟨ws', hblock, h⟩ := of_bind_ok h
            cases h
            rw [if_pos hlong]
            exact .load _ hblock
          · next hlong =>
            cases h
            rw [if_neg hlong]
            exact .settle _
      · next hload =>
        rw [if_neg hload]
        split at h
        · next hstore =>
          cases h
          rw [if_pos hstore]
          exact .settle _
        · next hstore =>
          cases h
          rw [if_neg hstore]
          exact .settle _

/-- The windows once the memory operation of the micro-op at an index is issued and the tail of
the critical path is saved with it. -/
def prepared (cfg : IntervalConfig Reg C) (index : Nat) (ws : Windows Reg C) : Windows Reg C :=
  (issueMemOpAt cfg index ws).modify index fun e => { e with cptail := ws.m_critical_path_tail }

/-- What `dispatchInstruction` does before it executes the micro-op: when its producers are done,
what the misses charge, and the windows behind them. -/
def beforeExecution (cfg : IntervalConfig Reg C) (t : IntervalTimer Reg C) :
    Except Halt (Nat × Nat × Windows Reg C) := do
  let index := t.m_windows.m_window_head__old_window_tail
  let ws := issueMemOpAt cfg index t.m_windows
  let max_producer_exec_time ← getMaxProducerExecTime ws (ws.getInstructionByIndex index)
  let (icache_latency, reason, ws) ← icacheMiss cfg index (prepared cfg index t.m_windows)
  let (bpred_latency, _, ws) ← branchMispredict cfg index reason ws
  return (max_producer_exec_time, icache_latency + bpred_latency, ws)

theorem dispatchInstruction_ok {charged reason}
    (h : dispatchInstruction cfg t = .ok (charged, reason, t')) :
    ∃ producers missed executed ws, beforeExecution cfg t = .ok (producers, missed, ws) ∧
      charged = missed + executed ∧
      Restart cfg.contention
        (prepared cfg t.m_windows.m_window_head__old_window_tail t.m_windows) missed ws ∧
      Executed cfg t.m_windows.m_window_head__old_window_tail ws
        (updateTime cfg t.m_windows.m_window_head__old_window_tail producers
          { t with m_windows := ws }) executed t'.m_windows := by
  obtain ⟨producers, hproducers, h⟩ := of_bind_ok h
  obtain ⟨⟨icache, reason₁, ws₁⟩, hicache, h⟩ := of_bind_ok h
  obtain ⟨⟨bpred, reason₂, ws₂⟩, hbpred, h⟩ := of_bind_ok h
  obtain ⟨⟨latency, t₁⟩, hexecute, h⟩ := of_bind_ok h
  cases h
  refine ⟨producers, icache + bpred, latency, ws₂, ?_, rfl, restart_ok ?_ hicache hbpred,
    execute_ok hexecute⟩
  · exact bind_eq_of_ok hproducers (bind_eq_of_ok hicache (bind_eq_of_ok hbpred rfl))
  · exact congrArg WindowEntry.cptail (modify_self ..)

/-! ### Accounting -/

theorem addFractions_ok {length types} (h : addFractions length types t = .ok t') :
    ∃ m_cpContrByType, t' = { t with m_cpContrByType := m_cpContrByType } := by
  induction types generalizing t with
  | nil =>
    cases h
    exact ⟨t'.m_cpContrByType, rfl⟩
  | cons type rest ih =>
    obtain ⟨fraction, -, h⟩ := of_bind_ok h
    obtain ⟨counts, rfl⟩ := ih h
    exact ⟨counts, rfl⟩

theorem effective_ok (cfg : IntervalConfig Reg C) (ws : Windows Reg C) (length : Nat) (reason : Bool) :
    ∃ c, (getEffectiveCriticalPathLength cfg ws length reason).2 =
      { ws with interval_contention := c } := by
  unfold getEffectiveCriticalPathLength
  split
  · exact ⟨ws.interval_contention, rfl⟩
  · exact ⟨_, rfl⟩

end IntervalTimer
end Sniper.Timing.Interval
