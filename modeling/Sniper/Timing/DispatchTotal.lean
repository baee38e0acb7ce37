import Sniper.Timing.PathAccount

/-! # Dispatching returns

No lookup of the timer fails: what it asks for is in the ring. Only before the first micro-op has
been dispatched can the old window not be asked, and that micro-op must not ask for it.
-/
namespace Sniper.Timing.Interval
open Lib Lib.Simulation Relation

variable {Reg C : Type} {cfg : IntervalConfig Reg C}

namespace Windows
variable {ws ws' : Windows Reg C}

/-- A micro-op has been dispatched, or the one to be dispatched first depends on no other. -/
def Started (ws : Windows Reg C) : Prop :=
  ws.m_window_length < ws.m_next_sequence_number ∨
    ∀ uop, ws.getInstructionToDispatch.uop = some uop → uop.getDependencies = []

/-! ### Lookups -/

theorem getDynMicroOp_of_numberAt {index s} (h : ws.numberAt index = some s) :
    ∃ uop, (ws.m_double_window index).uop = some uop ∧
      (ws.getInstructionByIndex index).getDynMicroOp = .ok uop := by
  obtain ⟨uop, huop, -⟩ := Option.map_eq_some_iff.mp h
  refine ⟨uop, huop, ?_⟩
  unfold getInstructionByIndex WindowEntry.getDynMicroOp
  rw [huop]

theorem Ring.getInstruction_window (h : Ring ws) (hne : 0 < ws.m_window_length) {s}
    (hold : ws.oldNumber ≤ s) (hnext : s < ws.m_next_sequence_number) :
    ∃ index e uop, ws.getInstruction s = .ok (index, e) ∧ e.getDynMicroOp = .ok uop := by
  obtain ⟨hhead, hlast⟩ := h.oldNumber_add
  have hwindow := h.window
  have holdLength := h.old
  have hdouble : ws.m_double_window_size = 2 * ws.m_window_size := rfl
  obtain ⟨uop, -, huop⟩ := getDynMicroOp_of_numberAt (h.number hold hnext)
  exact ⟨_, _, uop, h.getInstruction (.inl hne) hnext (by omega), huop⟩

theorem Ring.producer (h : Ring ws) (hne : 0 < ws.m_window_length) (hd : 0 < ws.headNumber)
    (dependency : Nat) : ws.oldWindowContains dependency = .ok false ∨
      ws.oldWindowContains dependency = .ok true ∧ ∃ index e uop,
        ws.getInstruction dependency = .ok (index, e) ∧ e.getDynMicroOp = .ok uop := by
  obtain ⟨hhead, hlast⟩ := h.oldNumber_add
  rw [h.oldWindowContains hd]
  by_cases hin : ws.oldNumber ≤ dependency ∧ dependency < ws.headNumber
  · rw [decide_eq_true hin]
    exact .inr ⟨rfl, h.getInstruction_window hne hin.1 (by omega)⟩
  · rw [decide_eq_false hin]
    exact .inl rfl

theorem Ring.dependee (h : Ring ws) (hne : 0 < ws.m_window_length) (dependency : Nat) :
    ws.windowContains dependency = .ok false ∨
      ws.windowContains dependency = .ok true ∧ ∃ index e uop,
        ws.getInstruction dependency = .ok (index, e) ∧ e.getDynMicroOp = .ok uop := by
  obtain ⟨hhead, hlast⟩ := h.oldNumber_add
  rw [h.windowContains hne]
  by_cases hin : ws.headNumber ≤ dependency ∧ dependency < ws.m_next_sequence_number
  · rw [decide_eq_true hin]
    exact .inr ⟨rfl, h.getInstruction_window hne (by omega) hin.2⟩
  · rw [decide_eq_false hin]
    exact .inl rfl

/-! ### Branch resolution -/

theorem Ring.markProducers_total (h : Ring ws) (hne : 0 < ws.m_window_length) {dependencies}
    (hd : 0 < ws.headNumber ∨ dependencies = []) (mark : Nat → (Nat → Nat) → Nat → Nat)
    (marks : Nat → Nat) :
    ∃ marks', ws.markProducers mark dependencies marks = .ok marks' := by
  induction dependencies generalizing marks with
  | nil => exact ⟨marks, rfl⟩
  | cons dependency rest ih =>
    have hpos := hd.resolve_right nofun
    rw [markProducers]
    rcases h.producer hne hpos dependency with hout | ⟨hin, index, e, uop, hget, huop⟩
    · rw [hout]
      exact ih (.inl hpos) marks
    · rw [hin]
      simp only [bind, Except.bind, hget, huop, ↓reduceIte]
      exact ih (.inl hpos) _

theorem Ring.resolve_total (h : Ring ws) (hne : 0 < ws.m_window_length) {n}
    (hn : n ≤ ws.m_old_window_length) {index}
    (hindex : 0 < n → index = ws.slotOf (ws.oldNumber + n - 1)) (marks : Nat → Nat) (latency : Nat) :
    ∃ r, ws.resolve n index marks latency = .ok r := by
  obtain ⟨hhead, hlast⟩ := h.oldNumber_add
  induction n generalizing index marks latency with
  | zero => exact ⟨_, rfl⟩
  | succ n ih =>
    have hslot : index = ws.slotOf (ws.oldNumber + n) := hindex (Nat.succ_pos n)
    have hnext : 0 < n → ws.windowIndex (index - 1) = ws.slotOf (ws.oldNumber + n - 1) := by
      intro hpos
      rw [hslot]
      exact windowIndex_pred (by omega)
    rw [resolve]
    split
    · have hnumber := h.number (s := ws.oldNumber + n) (by omega) (by omega)
      obtain ⟨uop, -, huop⟩ := getDynMicroOp_of_numberAt hnumber
      have hd : 0 < ws.headNumber ∨ uop.getDependencies = [] := .inl (by omega)
      obtain ⟨marks', hmarks⟩ := h.markProducers_total hne hd
        (fun execLatency marks i => max (cutMark (execLatency + marks index)) (marks i)) marks
      rw [hslot] at hmarks ⊢
      rw [huop]
      simp only [bind, Except.bind, hmarks]
      rw [← hslot]
      exact ih (by omega) hnext _ _
    · exact ih (by omega) hnext _ _

theorem Ring.numberAt_headSlot (h : Ring ws) (hne : 0 < ws.m_window_length) :
    ∃ uop, ws.getInstructionToDispatch.uop = some uop ∧
      ws.getInstructionToDispatch.getDynMicroOp = .ok uop :=
  getDynMicroOp_of_numberAt (h.numberAt_head hne)

theorem Started.dependencies (h : Started ws) (hring : Ring ws) {uop}
    (huop : ws.getInstructionToDispatch.uop = some uop) :
    0 < ws.headNumber ∨ uop.getDependencies = [] := by
  rcases h with hlt | hnone
  · obtain ⟨hhead, hlast⟩ := hring.oldNumber_add
    exact .inl (by omega)
  · exact .inr (hnone uop huop)

theorem Ring.calculateBranchResolutionLatency_total (h : Ring ws) (hne : 0 < ws.m_window_length)
    (hstarted : Started ws) : ∃ r, ws.calculateBranchResolutionLatency = .ok r := by
  obtain ⟨hhead, hlast⟩ := h.oldNumber_add
  obtain ⟨uop, huop, hget⟩ := h.numberAt_headSlot hne
  obtain ⟨marks, hmarks⟩ := h.markProducers_total hne (hstarted.dependencies h huop)
    (fun execLatency _ _ => cutMark execLatency) ws.m_exec_time_map
  have hlastSlot : 0 < ws.m_old_window_length →
      ws.windowIndex (ws.m_window_head__old_window_tail - 1) =
        ws.slotOf (ws.oldNumber + ws.m_old_window_length - 1) := by
    intro hpos
    rw [hhead, h.head]
    exact windowIndex_pred (by omega)
  obtain ⟨⟨latency, marks'⟩, hresolve⟩ := h.resolve_total hne (Nat.le_refl _) hlastSlot marks 0
  unfold Windows.calculateBranchResolutionLatency
  rw [hget]
  simp only [bind, Except.bind, hmarks, hresolve]
  exact ⟨_, rfl⟩

theorem Ring.dispatchInstruction_total (h : Ring ws) (hne : 0 < ws.m_window_length)
    (contention : IntervalContention Reg C) :
    ∃ ws', ws.dispatchInstruction contention = .ok ws' := by
  obtain ⟨hhead, hlast⟩ := h.oldNumber_add
  have hfirst := h.numberAt_oldHead (by omega)
  obtain ⟨oldest, -, holdest⟩ := getDynMicroOp_of_numberAt hfirst
  obtain ⟨uop, -, huop⟩ := getDynMicroOp_of_numberAt (h.numberAt_head hne)
  unfold getInstructionByIndex at holdest huop
  unfold Windows.dispatchInstruction Windows.retire removeFunctionalUnitStats
    addFunctionalUnitStats getInstructionByIndex
  split
  · simp only [bind, Except.bind, holdest, huop, pure, Except.pure]
    exact ⟨_, rfl⟩
  · simp only [bind, Except.bind, huop, pure, Except.pure]
    exact ⟨_, rfl⟩

end Windows

namespace IntervalTimer
open Windows
variable {ws ws' : Windows Reg C} {t : IntervalTimer Reg C}

/-! ### Blocking the window -/

theorem waitsForHead_total (cfg : IntervalConfig Reg C) (h : Ring ws) (hne : 0 < ws.m_window_length)
    (dependencies : List Nat) : ∃ b, waitsForHead cfg ws dependencies = .ok b := by
  induction dependencies with
  | nil => exact ⟨false, rfl⟩
  | cons dependency rest ih =>
    rw [waitsForHead]
    rcases h.dependee hne dependency with hout | ⟨hin, index, e, uop, hget, huop⟩
    · rw [hout]
      exact ih
    · rw [hin]
      simp only [bind, Except.bind, hget, huop, ↓reduceIte]
      split
      · exact ⟨true, rfl⟩
      · split
        · exact ⟨true, rfl⟩
        · exact ih

theorem mark_total (cfg : IntervalConfig Reg C) (h : Ring ws) (hne : 0 < ws.m_window_length)
    (head_address : Nat) (pending : Bool) (e : WindowEntry Reg) (uop : IntervalUop Reg) :
    ∃ e', mark cfg ws head_address pending e uop = .ok e' := by
  obtain ⟨b, hb⟩ := waitsForHead_total cfg h hne uop.getDependencies
  unfold mark
  rw [hb]
  simp only [bind, Except.bind]
  split
  · exact ⟨_, rfl⟩
  · split
    · exact ⟨_, rfl⟩
    · exact ⟨_, rfl⟩

theorem ring_marked {window} (h : Ring ws) (hmarked : Marked window ws ws') :
    Ring ws' := by
  have hnumber := hmarked.number
  rw [hmarked.rest] at hnumber ⊢
  exact h.congr ⟨rfl, hnumber, rfl, rfl, rfl, rfl⟩ (Nat.le_refl _) h.oldHead h.started

theorem blockLoop_total {window rest : List Nat} (hrest : ∀ i ∈ rest, i ∈ window) (h : Ring ws)
    (hne : 0 < ws.m_window_length) (hused : ∀ i ∈ window, ∃ s, ws.numberAt i = some s)
    (head_address : Nat) (pending : Bool) :
    ∃ ws', blockLoop cfg head_address rest pending ws = .ok ws' := by
  induction rest generalizing ws pending with
  | nil => exact ⟨ws, rfl⟩
  | cons index rest ih =>
    have hmem := hrest index (List.mem_cons_self ..)
    obtain ⟨s, hs⟩ := hused index hmem
    obtain ⟨uop, huop, hget⟩ := getDynMicroOp_of_numberAt hs
    have hcleared : Marked window ws
        (ws.modify index fun e => { e with dependent := .NO_DEP, icacheOverlap := true }) :=
      .modify hmem rfl rfl (.inl rfl)
    have hring := ring_marked h hcleared
    rw [blockLoop]
    simp only [bind, Except.bind, hget]
    split
    · exact ⟨_, rfl⟩
    · obtain ⟨e, he⟩ := mark_total cfg hring hne head_address
        (pending || uop.m_uop.m_membar) (Windows.getInstructionByIndex _ index) uop
      obtain ⟨hnumber, hcpContr, hexecTime⟩ := mark_ok he
      have hmarked := hcleared.trans (.modify (f := fun _ => e) hmem hnumber hcpContr hexecTime)
      simp only [he]
      refine ih (fun i hi => hrest i (List.mem_cons_of_mem _ hi)) (ring_marked h hmarked) hne ?_ _
      rw [hmarked.number]
      exact hused

theorem blockWindow_total (cfg : IntervalConfig Reg C) (h : Ring ws)
    (hne : 0 < ws.m_window_length) : ∃ ws', blockWindow cfg ws = .ok ws' := by
  have hused : ∀ i ∈ ws.getWindowIterator, ∃ s, ws.numberAt i = some s := by
    intro i hi
    obtain ⟨hhead, hlast⟩ := h.oldNumber_add
    obtain ⟨s, hs, hnext, rfl⟩ := h.mem_getWindowIterator hi
    exact ⟨s, h.number (by omega) hnext⟩
  unfold blockWindow
  split
  · exact ⟨ws, rfl⟩
  · next head rest hwindow =>
    rw [hwindow] at hused
    have hmarked : Marked (head :: rest) ws
        (ws.modify head fun e => { e with dependent := .INDEP_MISS }) :=
      .modify (List.mem_cons_self ..) rfl rfl (.inl rfl)
    have hring := ring_marked h hmarked
    rw [← hmarked.number] at hused
    obtain ⟨s, hs⟩ := hused head (List.mem_cons_self ..)
    obtain ⟨uop, huop, hget⟩ := getDynMicroOp_of_numberAt hs
    dsimp only
    rw [hget]
    exact blockLoop_total (fun i hi => List.mem_cons_of_mem _ hi) hring hne hused _ false

/-! ### Dispatching -/

/-- What dispatching the micro-op at the head of the window takes. -/
structure Ready (ws : Windows Reg C) : Prop where
  ring : Ring ws
  nonempty : 0 < ws.m_window_length
  started : Started ws

theorem Ready.modify_head (h : Ready ws) {f}
    (hnumber : ∀ e, (f e).uop.map (·.sequenceNumber) = e.uop.map (·.sequenceNumber))
    (hdependencies : ∀ e,
      (f e).uop.map (·.getDependencies) = e.uop.map (·.getDependencies)) :
    Ready (ws.modify ws.m_window_head__old_window_tail f) := by
  refine ⟨?_, h.nonempty, ?_⟩
  · exact h.ring.congr ⟨rfl, funext (numberAt_modify (hnumber _)), rfl, rfl, rfl, rfl⟩
      (Nat.le_refl _) h.ring.oldHead h.ring.started
  · rcases h.started with hlt | hnone
    · exact .inl hlt
    · right
      intro uop huop
      have hself : (ws.modify ws.m_window_head__old_window_tail f).getInstructionToDispatch =
          f ws.getInstructionToDispatch := modify_self _ _
      have hmap := hdependencies ws.getInstructionToDispatch
      rw [← hself, huop] at hmap
      obtain ⟨uop₀, huop₀, heq⟩ := Option.map_eq_some_iff.mp hmap.symm
      exact heq.symm.trans (hnone uop₀ huop₀)

theorem Ready.clear (h : Ready ws) (contention : IntervalContention Reg C) (newCpHead : Nat) :
    Ready (ws.clearOldWindow contention newCpHead) :=
  ⟨h.ring.congr ⟨rfl, rfl, rfl, rfl, rfl, rfl⟩ (Nat.zero_le _) h.ring.head
    (fun _ => Nat.add_pos_left h.nonempty _), h.nonempty, h.started⟩

theorem maxProducer_total (h : Ring ws) (hne : 0 < ws.m_window_length) {dependencies}
    (hd : 0 < ws.headNumber ∨ dependencies = []) (oldestStartTime relativeFetchTime time : Int) :
    ∃ r, maxProducer ws oldestStartTime relativeFetchTime dependencies time = .ok r := by
  induction dependencies generalizing time with
  | nil => exact ⟨time, rfl⟩
  | cons dependency rest ih =>
    have hpos := hd.resolve_right nofun
    rw [maxProducer]
    rcases h.producer hne hpos dependency with hout | ⟨hin, index, e, uop, hget, huop⟩
    · rw [hout]
      exact ih (.inl hpos) time
    · rw [hin]
      simp only [bind, Except.bind, hget, huop, ↓reduceIte]
      exact ih (.inl hpos) _

theorem getMaxProducerExecTime_total (h : Ready ws) :
    ∃ time, getMaxProducerExecTime ws ws.getInstructionToDispatch = .ok time := by
  obtain ⟨hhead, hlast⟩ := h.ring.oldNumber_add
  have hne := h.nonempty
  have hfirst := h.ring.numberAt_oldHead (by omega)
  obtain ⟨oldest, -, holdest⟩ := getDynMicroOp_of_numberAt hfirst
  obtain ⟨uop, huop, hget⟩ := h.ring.numberAt_headSlot hne
  obtain ⟨time, htime⟩ := maxProducer_total h.ring hne (h.started.dependencies h.ring huop)
    ((ws.getOldestInstruction.execTime : Int) - oldest.execLatency)
    (ws.getInstructionToDispatch.fetchTime - ws.getOldestInstruction.fetchTime) 0
  unfold getMaxProducerExecTime
  have holdest' : ws.getOldestInstruction.getDynMicroOp = .ok oldest := holdest
  dsimp only
  rw [holdest', hget]
  simp only [bind, Except.bind, htime]
  exact ⟨_, rfl⟩

theorem icacheMiss_total (cfg : IntervalConfig Reg C) (h : Ready ws) : ∃ charged reason ws',
    icacheMiss cfg ws.m_window_head__old_window_tail ws = .ok (charged, reason, ws') ∧
      Ready ws' ∧ ws'.m_window_head__old_window_tail = ws.m_window_head__old_window_tail := by
  obtain ⟨uop, -, hget⟩ := h.ring.numberAt_headSlot h.nonempty
  have hget : (ws.getInstructionByIndex ws.m_window_head__old_window_tail).getDynMicroOp =
      .ok uop := hget
  unfold icacheMiss
  dsimp only
  rw [hget]
  simp only [bind, Except.bind]
  split
  · exact ⟨_, _, _, rfl, h.clear _ _, rfl⟩
  · exact ⟨_, _, _, rfl, h, rfl⟩

theorem branchMispredict_total (cfg : IntervalConfig Reg C) (h : Ready ws)
    (reason : StopDispatchReason) :
    ∃ charged reason' ws', branchMispredict cfg ws.m_window_head__old_window_tail reason ws =
        .ok (charged, reason', ws') ∧ Ready ws' ∧
      ws'.m_window_head__old_window_tail = ws.m_window_head__old_window_tail := by
  obtain ⟨uop, -, hget⟩ := h.ring.numberAt_headSlot h.nonempty
  have hget : (ws.getInstructionByIndex ws.m_window_head__old_window_tail).getDynMicroOp =
      .ok uop := hget
  obtain ⟨⟨resolution, ws₁⟩, hresolution⟩ :=
    h.ring.calculateBranchResolutionLatency_total h.nonempty h.started
  have htimes : ∃ marks, ws₁ = { ws with m_exec_time_map := marks } := by
    obtain ⟨micro_op, -, hresolution⟩ := of_bind_ok hresolution
    obtain ⟨marks, -, hresolution⟩ := of_bind_ok hresolution
    obtain ⟨⟨latency, marks'⟩, -, hresolution⟩ := of_bind_ok hresolution
    exact ⟨marks', (Prod.mk.inj (Except.ok.inj hresolution)).2.symm⟩
  obtain ⟨marks, rfl⟩ := htimes
  unfold branchMispredict
  dsimp only
  rw [hget]
  simp only [bind, Except.bind]
  split
  · rw [hresolution]
    have hready : Ready { ws with m_exec_time_map := marks } :=
      ⟨h.ring.congr ⟨rfl, rfl, rfl, rfl, rfl, rfl⟩ (Nat.le_refl _) h.ring.oldHead h.ring.started,
        h.nonempty, h.started⟩
    exact ⟨_, _, _, rfl, hready.clear _ _, rfl⟩
  · exact ⟨_, _, _, rfl, h, rfl⟩

theorem execute_total (cfg : IntervalConfig Reg C) (h : Ready t.m_windows)
    (max_producer_exec_time : Nat) : ∃ r,
    execute cfg t.m_windows.m_window_head__old_window_tail max_producer_exec_time t = .ok r := by
  obtain ⟨uop, -, hget⟩ := h.ring.numberAt_headSlot h.nonempty
  have hget : (t.m_windows.getInstructionByIndex
      t.m_windows.m_window_head__old_window_tail).getDynMicroOp = .ok uop := hget
  have hset : Ready (setExecTime t.m_windows.m_window_head__old_window_tail
      t.m_windows.m_critical_path_tail t.m_windows) :=
    h.modify_head (fun _ => rfl) (fun _ => rfl)
  unfold execute
  dsimp only
  rw [hget]
  simp only [bind, Except.bind]
  split
  · exact ⟨_, rfl⟩
  · split
    · exact ⟨_, rfl⟩
    · split
      · split
        · exact ⟨_, rfl⟩
        · split
          · have hcleared := fun newCpHead => hset.clear cfg.contention newCpHead
            obtain ⟨ws', hblock⟩ := blockWindow_total cfg (hcleared _).ring
              (hcleared _).nonempty
            rw [hblock]
            exact ⟨_, rfl⟩
          · exact ⟨_, rfl⟩
      · split
        · exact ⟨_, rfl⟩
        · exact ⟨_, rfl⟩

theorem getDependencies_issueMemOp (uop : IntervalUop Reg) :
    (issueMemOp cfg uop).getDependencies = uop.getDependencies := by
  have hintra := DynamicMicroOp.intraDependencies_congr uop.toDynamicMicroOp
    { uop.toDynamicMicroOp with
      execLatency := (uop.execLatency + (cfg.accessMemory uop).1) % 2 ^ 32
      dCacheHitWhere := (cfg.accessMemory uop).2 } rfl rfl uop.intraInstructionDependencies
  unfold issueMemOp
  split
  · exact congrArg (· ++ uop.dependencies) hintra
  · rfl

theorem dispatchInstruction_total (cfg : IntervalConfig Reg C) (h : Ready t.m_windows) :
    ∃ r, dispatchInstruction cfg t = .ok r := by
  have hissued : Ready (issueMemOpAt cfg t.m_windows.m_window_head__old_window_tail
      t.m_windows) := by
    refine h.modify_head (fun e => map_issueMemOp e.uop) ?_
    intro e
    rw [Option.map_map]
    congr 1
    funext uop
    exact getDependencies_issueMemOp uop
  obtain ⟨time, htime⟩ := getMaxProducerExecTime_total hissued
  have hprepared : Ready (prepared cfg t.m_windows.m_window_head__old_window_tail t.m_windows) :=
    hissued.modify_head (fun _ => rfl) (fun _ => rfl)
  obtain ⟨icache, reason₁, ws₁, hicache, hready₁, hhead₁⟩ := icacheMiss_total cfg hprepared
  obtain ⟨bpred, reason₂, ws₂, hbpred, hready₂, hhead₂⟩ :=
    branchMispredict_total cfg hready₁ reason₁
  obtain ⟨⟨latency, t'⟩, hexecute⟩ :=
    execute_total cfg (t := { t with m_windows := ws₂ }) hready₂ time
  have hsame : ws₁.m_window_head__old_window_tail = t.m_windows.m_window_head__old_window_tail :=
    hhead₁
  rw [hsame] at hbpred
  have hsame₂ : ws₂.m_window_head__old_window_tail = t.m_windows.m_window_head__old_window_tail :=
    hhead₂.trans hhead₁
  rw [hsame₂] at hexecute
  refine exists_bind_ok htime ?_
  refine exists_bind_ok hicache ?_
  refine exists_bind_ok hbpred ?_
  refine exists_bind_ok hexecute ?_
  exact ⟨_, rfl⟩

end IntervalTimer
end Sniper.Timing.Interval
