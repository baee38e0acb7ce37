import Sniper.Timing.PathLength

/-! # A path that vanishes

A core with a window of `2 ^ 19` and micro-ops that each wait for the one before and execute in
8192 cycles. The old window fills without ever losing a micro-op, and when it is full its path is
`2 ^ 32` long.
-/
namespace Sniper.Timing.Interval
open Lib Lib.Simulation Relation Windows IntervalTimer Function

namespace IntervalTimer

/-- The small core with the largest cut-off. -/
def long : IntervalConfig Nat Unit := { sample with longLatencyCutoff := 16384 }

/-- The micro-op of the stream: it reads the register that the one before has written. -/
def long.uop : IntervalUop Nat :=
  { sample.uop 8192 with m_uop := ⟨.execute, [0], [], [0], false, false, false⟩ }

/-- The one before. -/
def long.producer : Nat → Option Nat
  | 0 => none
  | s + 1 => some s

/-- It is in the window under its sequence number, with its dependency. -/
def long.entered (s : Nat) : IntervalUop Nat :=
  { long.uop with sequenceNumber := s, dependencies := (long.producer s).toList }

variable {t t₁ : IntervalTimer Nat Unit} {ws ws' : Windows Nat Unit}

/-- So many micro-ops have been added and so many of them dispatched, all into the old window. -/
structure Chained (t : IntervalTimer Nat Unit) (added dispatched : Nat) : Prop where
  accounted : Accounted 16384 0 t.m_windows
  size : t.m_windows.m_window_size = 524288
  next : t.m_windows.m_next_sequence_number = added
  head : t.m_windows.headNumber = dispatched
  old : t.m_windows.m_old_window_length = dispatched
  path : t.m_windows.m_critical_path_head = 0
  total : t.m_windows.m_cpcontr_total = 8192 * dispatched
  room : added ≤ 1048576
  producer : t.m_windows.m_register_dependencies 0 = long.producer added
  uops : ∀ s < added, (t.m_windows.entryOf s).uop = some (long.entered s) ∧
    (t.m_windows.entryOf s).fetchTime = 0
  executed : ∀ s < dispatched, (t.m_windows.entryOf s).execTime = 8192 * (s + 1)
  rest : t.m_remaining_dispatch_bandwidth < 16384

/-! ### Adding -/

theorem long.setDependencies {producers s} (h : producers 0 = long.producer s) :
    RegisterDependencies.setDependencies long.decoder producers
        { long.uop with sequenceNumber := s }.toDynamicMicroOp 0 =
      .ok (update producers 0 (some s), (long.entered s).toDynamicMicroOp) := by
  have hvalid : long.decoder.valid 0 = true := rfl
  cases s with
  | zero =>
    have hnone : producers 0 = none := h
    simp only [RegisterDependencies.setDependencies, long.uop, RegisterDependencies.readSources,
      hvalid, hnone]
    rfl
  | succ s =>
    have hsome : producers 0 = some s := h
    simp only [RegisterDependencies.setDependencies, long.uop, RegisterDependencies.readSources,
      hvalid, hsome]
    rfl

theorem long.add (h : Ring ws) (hroom : ws.m_window_length < ws.m_window_size)
    (hold : ws.oldNumber = 0)
    (hproducer : ws.m_register_dependencies 0 = long.producer ws.m_next_sequence_number) :
    ∃ ws', ws.add long.decoder long.uop = .ok ws' ∧
      ws'.m_double_window ws.m_window_tail =
        .init (some (long.entered ws.m_next_sequence_number)) ∧
      ws'.m_register_dependencies 0 = some ws.m_next_sequence_number ∧
      ∀ i ≠ ws.m_window_tail, ws'.m_double_window i = ws.m_double_window i := by
  obtain ⟨hhead, hlast⟩ := h.oldNumber_add
  have hlowest : ((update ws.m_double_window ws.m_window_tail
      (.init (some { long.uop with sequenceNumber := ws.m_next_sequence_number })))
        ws.m_old_window_head).getSequenceNumber = .ok 0 := by
    by_cases hnone : ws.m_next_sequence_number = 0
    · have htail : ws.m_old_window_head = ws.m_window_tail := by
        rw [h.oldHead, h.tail, hold, hnone]
      rw [htail, update_self, hnone]
      rfl
    · have hne : ws.m_old_window_head ≠ ws.m_window_tail := by
        have hdouble : ws.m_double_window_size = 2 * ws.m_window_size := rfl
        have hlength := h.old
        rw [h.oldHead, h.tail]
        exact slotOf_ne (by omega) (by omega)
      rw [update_of_ne hne]
      refine getSequenceNumber_of_numberAt ?_
      rw [h.oldHead, hold]
      exact h.number (by omega) (by omega)
  have hregisters := long.setDependencies hproducer
  have hadd : ws.add long.decoder long.uop = .ok { ws with
      m_window_tail := ws.incrementIndex ws.m_window_tail
      m_window_length := ws.m_window_length + 1
      m_next_sequence_number := ws.m_next_sequence_number + 1
      m_double_window := update ws.m_double_window ws.m_window_tail
        (.init (some (long.entered ws.m_next_sequence_number)))
      m_register_dependencies :=
        update ws.m_register_dependencies 0 (some ws.m_next_sequence_number)
      m_memory_dependencies := ws.m_memory_dependencies.clean 0 } := by
    unfold Windows.add
    rw [if_neg (by rw [wIsFull, decide_eq_true_iff]; omega)]
    dsimp only
    unfold getInstructionByIndex
    rw [hlowest]
    dsimp only at hregisters
    simp only [bind, Except.bind]
    rw [hregisters]
    change Except.ok (_ : Windows Nat Unit) = Except.ok _
    simp only [Windows.modify, update_idem, update_self]
    rfl
  refine ⟨_, hadd, update_self .., ?_, ?_⟩
  · dsimp only
    exact update_self ..
  · intro i hi
    exact update_of_ne hi ..

theorem chained_new : Chained (new long 524288 1 ()) 0 0 := by
  refine ⟨accounted_new long.contention () (by decide), rfl, rfl, rfl, rfl, rfl, rfl, by decide,
    rfl, ?_, ?_, by decide⟩
  · intro s hs
    omega
  · intro s hs
    omega

theorem Chained.add {added dispatched} (h : Chained t added dispatched)
    (hroom : added < dispatched + 524288) (hlast : added < 1048576) :
    ∃ t', addUop long long.uop t = .ok t' ∧ Chained t' (added + 1) dispatched := by
  have hring := h.accounted.ring
  obtain ⟨hhead, hnext⟩ := hring.oldNumber_add
  have hnumbers := And.intro h.head (And.intro h.next h.old)
  have hlength : t.m_windows.m_window_length < t.m_windows.m_window_size := by
    rw [h.size]
    omega
  have hproducer := h.producer
  rw [← h.next] at hproducer
  obtain ⟨ws, hadd, hself, hwrites, hother⟩ := long.add hring hlength (by omega) hproducer
  have haccounted := h.accounted.add hadd
  obtain ⟨-, uop, registers, memory, -, hws⟩ := add_ok hadd
  have hfields : ws.m_window_size = 524288 ∧ ws.m_next_sequence_number = added + 1 ∧
      ws.headNumber = dispatched ∧ ws.m_old_window_length = dispatched ∧
      ws.m_critical_path_head = 0 ∧ ws.m_cpcontr_total = 8192 * dispatched := by
    have hhead' : ws.headNumber = dispatched := by
      rw [hws]
      unfold headNumber at hnext hnumbers ⊢
      dsimp only
      omega
    rw [hws] at hhead' ⊢
    exact ⟨h.size, congrArg (· + 1) h.next, hhead', h.old, h.path, h.total⟩
  obtain ⟨hsize, hnextNumber, hheadNumber, hold, hpath, htotal⟩ := hfields
  have hslot : ∀ s, ws.entryOf s = ws.m_double_window (t.m_windows.slotOf s) := by
    intro s
    unfold entryOf slotOf m_double_window_size
    rw [hsize, h.size]
  have hsame : ∀ s < added, ws.entryOf s = t.m_windows.entryOf s := by
    intro s hs
    have hne : t.m_windows.slotOf s ≠ t.m_windows.m_window_tail := by
      have hdouble : t.m_windows.m_double_window_size = 2 * t.m_windows.m_window_size := rfl
      have hsize := h.size
      rw [hring.tail]
      exact slotOf_ne (by omega) (by omega)
    rw [hslot, hother _ hne]
    rfl
  have hadded : ws.entryOf added = .init (some (long.entered added)) := by
    rw [hslot, ← h.next, ← hring.tail, hself]
  have hnumber : t.m_windows.m_next_sequence_number = added := h.next
  refine ⟨{ t with m_windows := ws }, ?_, haccounted, hsize, hnextNumber, hheadNumber, hold, hpath,
    htotal, hlast, ?_, ?_, ?_, h.rest⟩
  · exact congrArg (· >>= fun ws => pure { t with m_windows := ws }) hadd
  · rw [hnumber] at hwrites
    exact hwrites
  · intro s hs
    by_cases heq : s = added
    · rw [heq, hadded]
      exact ⟨rfl, rfl⟩
    · rw [hsame s (by omega)]
      exact h.uops s (by omega)
  · intro s hs
    rw [hsame s (by omega)]
    exact h.executed s hs

/-! ### Dispatching -/

theorem Chained.tail {added dispatched} (h : Chained t added dispatched) :
    t.m_windows.m_critical_path_tail = 8192 * dispatched := by
  have hlength := h.accounted.length.1
  rw [h.path, h.total, Nat.zero_add] at hlength
  exact hlength

theorem Chained.oldNumber {added dispatched} (h : Chained t added dispatched) :
    t.m_windows.oldNumber = 0 := by
  obtain ⟨hhead, -⟩ := h.accounted.ring.oldNumber_add
  have hnumbers := And.intro h.head h.old
  omega

theorem Chained.getDynMicroOp {added dispatched s} (h : Chained t added dispatched) (hs : s < added) :
    (t.m_windows.entryOf s).getDynMicroOp = .ok (long.entered s) := by
  unfold WindowEntry.getDynMicroOp
  rw [(h.uops s hs).1]

theorem Chained.producers {added dispatched} (h : Chained t added dispatched)
    (hne : dispatched < added) :
    getMaxProducerExecTime t.m_windows (t.m_windows.entryOf dispatched) =
      .ok (8192 * dispatched) := by
  have hring := h.accounted.ring
  have hnumbers := And.intro h.head (And.intro h.next h.size)
  obtain ⟨hhead, hlast⟩ := hring.oldNumber_add
  have hzero := h.oldNumber
  have holdest : t.m_windows.getOldestInstruction = t.m_windows.entryOf 0 := by
    unfold getOldestInstruction getInstructionByIndex
    rw [hring.oldHead, hzero]
    rfl
  have hoffset : ((t.m_windows.entryOf dispatched).fetchTime : Int) -
      (t.m_windows.entryOf 0).fetchTime = 0 := by
    rw [(h.uops dispatched hne).2, (h.uops 0 (by omega)).2]
    rfl
  unfold getMaxProducerExecTime
  dsimp only
  rw [holdest, h.getDynMicroOp hne, h.getDynMicroOp (s := 0) (by omega)]
  simp only [bind, Except.bind, hoffset]
  cases dispatched with
  | zero => rfl
  | succ d =>
    have hdependencies : (long.entered (d + 1)).getDependencies = [d] := rfl
    have hlatency : (long.entered d).execLatency = 8192 ∧
        (long.entered 0).execLatency = 8192 := ⟨rfl, rfl⟩
    have hdouble : t.m_windows.m_double_window_size = 2 * t.m_windows.m_window_size := rfl
    have hroom := h.room
    have hcontains : t.m_windows.oldWindowContains d = .ok true := by
      rw [hring.oldWindowContains (by omega), decide_eq_true (by omega)]
    have hget : t.m_windows.getInstruction d =
        .ok (t.m_windows.slotOf d, t.m_windows.entryOf d) :=
      hring.getInstruction (.inl (by omega)) (by omega) (by omega)
    have hproducer := h.getDynMicroOp (s := d) (by omega)
    have htime := h.executed d (by omega)
    have holdestTime := h.executed 0 (by omega)
    rw [hdependencies, maxProducer, hcontains]
    simp only [bind, Except.bind, hget, hproducer, ↓reduceIte, htime, holdestTime, hlatency,
      maxProducer, pure, Except.pure]
    rw [if_neg (by omega)]
    congr 1

theorem issueMemOpAt_long {index s} (h : (ws.m_double_window index).uop = some (long.entered s)) :
    issueMemOpAt long index ws = ws := by
  have hissued : (ws.m_double_window index).uop.map (issueMemOp long) =
      (ws.m_double_window index).uop := by
    rw [h]
    rfl
  unfold issueMemOpAt Windows.modify
  dsimp only
  rw [hissued]
  exact congrArg (fun window => { ws with m_double_window := window })
    (update_eq_self index ws.m_double_window)

theorem long.dispatch {s cycle}
    (huop : (t.m_windows.m_double_window t.m_windows.m_window_head__old_window_tail).uop =
      some (long.entered s))
    (hproducers : getMaxProducerExecTime t.m_windows (t.m_windows.m_double_window
      t.m_windows.m_window_head__old_window_tail) = .ok cycle) :
    let index := t.m_windows.m_window_head__old_window_tail
    let ws := setExecTime index
      (max cycle t.m_windows.m_critical_path_head + (long.entered s).execLatency)
      (prepared long index t.m_windows)
    IntervalTimer.dispatchInstruction long t =
      .ok ((updateCriticalPath long index ws).1, .STOP_DISPATCH_NO_REASON,
        { t with m_windows := (updateCriticalPath long index ws).2 }) := by
  intro index ws
  have hissued : issueMemOpAt long index t.m_windows = t.m_windows := issueMemOpAt_long huop
  have hprepared : (prepared long index t.m_windows).m_double_window index =
      { t.m_windows.m_double_window index with
        cptail := t.m_windows.m_critical_path_tail } := by
    unfold prepared
    rw [modify_self, hissued]
  have hget : ((prepared long index t.m_windows).getInstructionByIndex index).getDynMicroOp =
      .ok (long.entered s) := by
    unfold getInstructionByIndex WindowEntry.getDynMicroOp
    rw [hprepared]
    dsimp only
    rw [huop]
  have hwaits : getMaxProducerExecTime (issueMemOpAt long index t.m_windows)
      ((issueMemOpAt long index t.m_windows).getInstructionByIndex index) = .ok cycle := by
    rw [hissued]
    exact hproducers
  have hicache : icacheMiss long index (prepared long index t.m_windows) =
      .ok (0, .STOP_DISPATCH_NO_REASON, prepared long index t.m_windows) := by
    unfold icacheMiss
    dsimp only
    rw [hget]
    rfl
  have hbpred : branchMispredict long index .STOP_DISPATCH_NO_REASON
      (prepared long index t.m_windows) =
        .ok (0, .STOP_DISPATCH_NO_REASON, prepared long index t.m_windows) := by
    unfold branchMispredict
    dsimp only
    rw [hget]
    rfl
  have hexecute : execute long index cycle
      { t with m_windows := prepared long index t.m_windows } =
      .ok ((updateCriticalPath long index ws).1,
        { t with m_windows := (updateCriticalPath long index ws).2 }) := by
    unfold execute
    dsimp only
    rw [hget]
    rfl
  refine bind_eq_of_ok hwaits (bind_eq_of_ok hicache (bind_eq_of_ok hbpred
    (bind_eq_of_ok hexecute ?_)))
  dsimp only
  rw [Nat.zero_add]
  rfl

theorem Chained.dispatchInstruction {added dispatched} (h : Chained t added dispatched)
    (hne : dispatched < added) : ∃ t₁,
      IntervalTimer.dispatchInstruction long t = .ok (0, .STOP_DISPATCH_NO_REASON, t₁) ∧
      t₁.m_windows.m_critical_path_tail = 8192 * (dispatched + 1) ∧
      t₁.m_remaining_dispatch_bandwidth = t.m_remaining_dispatch_bandwidth ∧
      (∀ s < added, (t₁.m_windows.entryOf s).uop = some (long.entered s) ∧
        (t₁.m_windows.entryOf s).fetchTime = 0) ∧
      (∀ s ≤ dispatched, (t₁.m_windows.entryOf s).execTime = 8192 * (s + 1)) ∧
      ∃ window, t₁.m_windows = { t.m_windows with
        m_double_window := window
        m_critical_path_tail := 8192 * (dispatched + 1) } := by
  have hring := h.accounted.ring
  have hdouble : t.m_windows.m_double_window_size = 2 * t.m_windows.m_window_size := rfl
  have hsize := h.size
  have hroom := h.room
  obtain ⟨index, hindex⟩ : ∃ index, t.m_windows.m_window_head__old_window_tail = index :=
    ⟨_, rfl⟩
  have hslot : index = t.m_windows.slotOf dispatched := by
    rw [← hindex, hring.head, h.head]
  have huop : (t.m_windows.m_double_window index).uop = some (long.entered dispatched) := by
    rw [hslot]
    exact (h.uops dispatched hne).1
  have hproducers : getMaxProducerExecTime t.m_windows (t.m_windows.m_double_window index) =
      .ok (8192 * dispatched) := by
    rw [hslot]
    exact h.producers hne
  have hdispatch := long.dispatch (hindex ▸ huop) (hindex ▸ hproducers)
  dsimp only at hdispatch
  have hlatency : (long.entered dispatched).execLatency = 8192 := rfl
  rw [hindex, h.path, Nat.max_zero, hlatency, ← Nat.mul_succ] at hdispatch
  have hself : (setExecTime index (8192 * (dispatched + 1))
      (prepared long index t.m_windows)).m_double_window index =
      { t.m_windows.m_double_window index with
        cptail := t.m_windows.m_critical_path_tail
        execTime := 8192 * (dispatched + 1) } := by
    unfold setExecTime prepared
    rw [issueMemOpAt_long huop, modify_self, modify_self]
  have hother : ∀ i ≠ index, (setExecTime index (8192 * (dispatched + 1))
      (prepared long index t.m_windows)).m_double_window i = t.m_windows.m_double_window i := by
    intro i hi
    unfold setExecTime prepared
    rw [issueMemOpAt_long huop, modify_of_ne hi, modify_of_ne hi]
  obtain ⟨ws, hws, hrest⟩ : ∃ ws, setExecTime index (8192 * (dispatched + 1))
      (prepared long index t.m_windows) = ws ∧
        ws = { t.m_windows with m_double_window := ws.m_double_window } := ⟨_, rfl, rfl⟩
  rw [hws] at hdispatch hself hother
  have htail : ws.m_critical_path_tail = 8192 * dispatched := by
    rw [hrest]
    exact h.tail
  have hexecTime : (ws.getInstructionByIndex index).execTime = 8192 * (dispatched + 1) :=
    congrArg WindowEntry.execTime hself
  have hshort : ws.longLatencyOperationLatency long.longLatencyCutoff
      (ws.getInstructionByIndex index) = 0 := by
    rw [longLatencyOperationLatency_eq_zero, hexecTime, htail]
    right
    change _ < 16384
    omega
  have hpath : updateCriticalPath long index ws =
      (0, { ws.modify index (fun e =>
          { e with cpContr := 8192 * (dispatched + 1) - 8192 * dispatched }) with
        m_critical_path_tail := 8192 * (dispatched + 1) }) := by
    unfold updateCriticalPath
    dsimp only
    rw [if_pos hshort]
    unfold updateCriticalPathTail
    dsimp only
    rw [hexecTime, htail, if_pos (by omega)]
  rw [hpath] at hdispatch
  have hentry : ∀ s < added, s ≠ dispatched →
      ((ws.modify index fun e => { e with
        cpContr := 8192 * (dispatched + 1) - 8192 * dispatched }).m_double_window
          (t.m_windows.slotOf s)) = t.m_windows.entryOf s := by
    intro s hs hother'
    have hne' : t.m_windows.slotOf s ≠ index := by
      rw [hslot]
      rcases Nat.lt_or_gt_of_ne hother' with hlt | hgt
      · exact slotOf_ne hlt (by omega)
      · exact (slotOf_ne hgt (by omega)).symm
    rw [modify_of_ne hne', hother _ hne']
    rfl
  have hhead : ((ws.modify index fun e => { e with
      cpContr := 8192 * (dispatched + 1) - 8192 * dispatched }).m_double_window
        (t.m_windows.slotOf dispatched)) =
      { t.m_windows.entryOf dispatched with
        cptail := t.m_windows.m_critical_path_tail
        execTime := 8192 * (dispatched + 1)
        cpContr := 8192 * (dispatched + 1) - 8192 * dispatched } := by
    rw [← hslot, modify_self, hself, hslot]
    rfl
  have hsame : ∀ d tail s, entryOf { ws.modify index d with m_critical_path_tail := tail } s =
      (ws.modify index d).m_double_window (t.m_windows.slotOf s) := by
    intro d tail s
    unfold entryOf slotOf
    rw [hrest]
    rfl
  refine ⟨_, hdispatch, rfl, rfl, ?_, ?_, ?_⟩
  · intro s hs
    dsimp only
    rw [hsame]
    by_cases heq : s = dispatched
    · rw [heq, hhead]
      exact h.uops dispatched hne
    · rw [hentry s hs heq]
      exact h.uops s hs
  · intro s hs
    dsimp only
    rw [hsame]
    by_cases heq : s = dispatched
    · rw [heq, hhead]
    · rw [hentry s (by omega) heq]
      exact h.executed s (by omega)
  · refine ⟨(ws.modify index fun e => { e with
      cpContr := 8192 * (dispatched + 1) - 8192 * dispatched }).m_double_window, ?_⟩
    dsimp only
    rw [hrest]
    rfl

theorem Chained.step {added dispatched} (h : Chained t added dispatched) (hne : dispatched < added)
    (hroom : dispatched < 524288) : ∃ t₁ ws uop,
      IntervalTimer.dispatchInstruction long t = .ok (0, .STOP_DISPATCH_NO_REASON, t₁) ∧
      t₁.m_windows.dispatchInstruction long.contention = .ok ws ∧
      (ws.getInstructionByIndex t.m_windows.m_window_head__old_window_tail).getDynMicroOp =
        .ok uop ∧ uop.last = true ∧
      Chained { t₁ with m_windows := ws } added (dispatched + 1) := by
  have hring := h.accounted.ring
  obtain ⟨hhead, hlast⟩ := hring.oldNumber_add
  have hnumbers := And.intro h.head h.next
  have hpos : 0 < t.m_windows.m_window_length := by omega
  have hstarted : Started t.m_windows := by
    by_cases hfirst : dispatched = 0
    · right
      intro uop huop
      have hself : t.m_windows.getInstructionToDispatch.uop = some (long.entered dispatched) := by
        unfold getInstructionToDispatch getInstructionByIndex
        rw [hring.head, h.head]
        exact (h.uops dispatched hne).1
      rw [hself, hfirst] at huop
      cases huop
      rfl
    · exact .inl (by omega)
  obtain ⟨t₁, hdispatch, htail, hrest, huops, hexecuted, window, hwindows⟩ :=
    h.dispatchInstruction hne
  have hbefore : Accounted long.longLatencyCutoff 0 t.m_windows := h.accounted
  obtain ⟨charged, reason, t₂, ws, uop, hdispatch₂, hjoin, huop, haccounted, -, hlength⟩ :=
    dispatch_total hbefore hpos hstarted
  rw [hdispatch] at hdispatch₂
  cases hdispatch₂
  obtain ⟨ws₁, uop₁, hretire, -, hws⟩ := Windows.dispatchInstruction_ok hjoin
  have hold : t₁.m_windows.m_old_window_length = dispatched := by
    rw [hwindows]
    exact h.old
  have hsize : t₁.m_windows.m_window_size = 524288 := by
    rw [hwindows]
    exact h.size
  rw [if_neg (by omega)] at hretire
  subst hretire
  have hentries : ∀ s, ws.entryOf s = t₁.m_windows.entryOf s := by
    intro s
    rw [hws]
    rfl
  have hfields : ws.m_next_sequence_number = added ∧ ws.m_old_window_length = dispatched + 1 ∧
      ws.m_critical_path_head = 0 ∧ ws.m_critical_path_tail = 8192 * (dispatched + 1) ∧
      ws.m_window_size = 524288 ∧
      ws.m_register_dependencies 0 = long.producer added := by
    rw [hws]
    refine ⟨?_, congrArg (· + 1) hold, ?_, htail, hsize, ?_⟩
    all_goals dsimp only
    all_goals rw [hwindows]
    · exact h.next
    · exact h.path
    · exact h.producer
  obtain ⟨hnext', hold', hpath', htail', hsize', hproducer'⟩ := hfields
  have hheadNumber : ws.headNumber = dispatched + 1 := by
    unfold headNumber at hhead hlast hnumbers ⊢
    omega
  have hlast' : uop.last = true := by
    have hslot : t.m_windows.m_window_head__old_window_tail = ws.slotOf dispatched := by
      rw [hring.head, h.head]
      unfold slotOf m_double_window_size
      rw [h.size, hsize']
    have hentry : (ws.entryOf dispatched).uop = some (long.entered dispatched) := by
      rw [hentries]
      exact (huops dispatched hne).1
    unfold getInstructionByIndex WindowEntry.getDynMicroOp at huop
    unfold entryOf at hentry
    rw [hslot, hentry] at huop
    cases huop
    rfl
  refine ⟨t₁, ws, uop, hdispatch, hjoin, huop, hlast', haccounted, hsize', hnext', hheadNumber,
    hold', hpath', ?_, h.room, hproducer', ?_, ?_, ?_⟩
  · have htotal := haccounted.length.1
    dsimp only
    omega
  · intro s hs
    dsimp only
    rw [hentries]
    exact huops s hs
  · intro s hs
    dsimp only
    rw [hentries]
    exact hexecuted s (by omega)
  · dsimp only
    rw [hrest]
    exact h.rest

/-! ### The loop -/

theorem Chained.rate {added dispatched} (h : Chained t added dispatched)
    (hroom : dispatched < 524288) :
    ∃ rate rest, calculateCurrentDispatchRate long t =
        (rate, { t with m_remaining_dispatch_bandwidth := rest }) ∧ rate ≤ 1 ∧ rest < 16384 ∧
      (0 < rate ∨ t.m_remaining_dispatch_bandwidth + 1 ≤ rest) := by
  have hcontention : long.m_do_functional_unit_contention = false := rfl
  have hone : fixedOne = 16384 := rfl
  have hwidth : long.m_dispatch_width = 1 := rfl
  have hrest := h.rest
  unfold calculateCurrentDispatchRate
  dsimp only
  rw [effective_off hcontention, h.accounted.getCriticalPathLength, h.total, h.old]
  split
  · next hpos =>
    have hlength : 0 < dispatched ∧
        (Int.bmod (8192 * dispatched : Nat) 4294967296).toNat = 8192 * dispatched := by
      rw [Int.bmod_def] at hpos ⊢
      split at hpos
      · next hlow =>
        omega
      · omega
    obtain ⟨hsome, hlength⟩ := hlength
    generalize (Int.bmod (8192 * dispatched : Nat) 4294967296).toNat = length at hlength ⊢
    refine ⟨_, _, rfl, ?_⟩
    dsimp only
    have hshare : dispatched * fixedOne / length = 2 := by
      rw [hone, hlength]
      exact Nat.div_eq_of_lt_le (by omega) (by omega)
    rw [hshare]
    by_cases hfew : 2 + t.m_remaining_dispatch_bandwidth < 16384
    · have hrate : (2 + t.m_remaining_dispatch_bandwidth) / fixedOne = 0 := by
        rw [hone]
        omega
      rw [hrate, hwidth, if_pos Nat.one_pos]
      omega
    · have hrate : (2 + t.m_remaining_dispatch_bandwidth) / fixedOne = 1 := by
        rw [hone]
        omega
      rw [hrate, hwidth, if_neg (Nat.lt_irrefl 1)]
      omega
  · exact ⟨_, _, rfl, Nat.le_refl _, by decide, .inl Nat.one_pos⟩

theorem Chained.congr {added dispatched} (h : Chained t added dispatched)
    (hwindows : t₁.m_windows = t.m_windows) (hrest : t₁.m_remaining_dispatch_bandwidth < 16384) :
    Chained t₁ added dispatched := by
  refine ⟨?_, ?_, ?_, ?_, ?_, ?_, ?_, h.room, ?_, ?_, ?_, hrest⟩
  all_goals rw [hwindows]
  · exact h.accounted
  · exact h.size
  · exact h.next
  · exact h.head
  · exact h.old
  · exact h.path
  · exact h.total
  · exact h.producer
  · exact h.uops
  · exact h.executed

theorem Chained.dispatchLoop {added dispatched rate} (h : Chained t added dispatched)
    (hne : dispatched < added) (hroom : dispatched < 524288) (hrate : 0 < rate) : ∃ t₁,
      IntervalTimer.dispatchLoop long rate t.m_windows.m_window_length 0 0 0
        .STOP_DISPATCH_NO_REASON t = .ok (1, 1, 0, t₁) ∧ Chained t₁ added (dispatched + 1) := by
  obtain ⟨hhead, hlast⟩ := h.accounted.ring.oldNumber_add
  have hnumbers := And.intro h.head h.next
  obtain ⟨t₁, ws, uop, hdispatch, hjoin, huop, hlast', hchained⟩ := h.step hne hroom
  obtain ⟨n, hn⟩ : ∃ n, t.m_windows.m_window_length = n + 1 :=
    ⟨t.m_windows.m_window_length - 1, by omega⟩
  have hgo : (!t.m_windows.wIsEmpty && 0 < long.m_dispatch_width && 0 < rate &&
      StopDispatchReason.STOP_DISPATCH_NO_REASON = .STOP_DISPATCH_NO_REASON) = true := by
    simp [wIsEmpty, hn, hrate, long, sample]
  refine ⟨_, ?_, hchained⟩
  rw [hn, IntervalTimer.dispatchLoop, if_pos hgo]
  refine bind_eq_of_ok hdispatch (bind_eq_of_ok hjoin (bind_eq_of_ok huop ?_))
  rw [hlast']
  cases n with
  | zero => rfl
  | succ n =>
    rw [IntervalTimer.dispatchLoop, if_neg]
    · rfl
    · simp [long, sample]

/-- What a round of the loop over the full window makes of it. -/
inductive Round (t : IntervalTimer Nat Unit) (added dispatched : Nat) :
    Except Halt (Nat × Nat × IntervalTimer Nat Unit) → Prop
  | wait {r : Nat × Nat × IntervalTimer Nat Unit} (h : Chained r.2.2 added dispatched)
      (hmore : t.m_remaining_dispatch_bandwidth + 1 ≤ r.2.2.m_remaining_dispatch_bandwidth) :
      Round t added dispatched (.ok r)
  | dispatch {r : Nat × Nat × IntervalTimer Nat Unit} (hroom : dispatched + 1 < 524288)
      (h : Chained r.2.2 added (dispatched + 1)) : Round t added dispatched (.ok r)
  | vanish (hfull : dispatched + 1 = 524288) : Round t added dispatched (.error .divideByZero)

theorem Chained.dispatchWindow {added dispatched} (h : Chained t added dispatched)
    (hne : dispatched < added) (hroom : dispatched < 524288) :
    Round t added dispatched (IntervalTimer.dispatchWindow long t) := by
  have htame : Tame long := ⟨by decide, rfl, Nat.le_refl _⟩
  obtain ⟨rate, rest, hrate, hone, hrest, hprogress⟩ := h.rate hroom
  have hrated : Chained { t with m_remaining_dispatch_bandwidth := rest } added dispatched :=
    h.congr rfl hrest
  unfold IntervalTimer.dispatchWindow
  rw [hrate]
  dsimp only
  by_cases hzero : 0 < rate
  · obtain ⟨t₁, hloop, h₁⟩ := hrated.dispatchLoop hne hroom hzero
    have haccounted : Accounted long.longLatencyCutoff 0 t₁.m_windows := h₁.accounted
    rw [hloop]
    simp only [bind, Except.bind]
    rw [if_pos trivial, if_pos hone]
    by_cases hfull : dispatched + 1 = 524288
    · have hvanishes : Vanishes t₁.m_windows := by
        unfold Vanishes
        rw [h₁.total, hfull]
        decide
      rw [account_fails htame haccounted hvanishes]
      exact .vanish hfull
    · have hvanishes : ¬ Vanishes t₁.m_windows := by
        unfold Vanishes
        rw [h₁.total]
        omega
      obtain ⟨t₂, haccount, hwindows, hrest₂⟩ := account_returns htame haccounted hvanishes
      rw [haccount]
      exact .dispatch (by omega) (h₁.congr hwindows (hrest₂ ▸ h₁.rest))
  · have hnone : rate = 0 := by omega
    have hloop : IntervalTimer.dispatchLoop long rate t.m_windows.m_window_length 0 0 0
        .STOP_DISPATCH_NO_REASON { t with m_remaining_dispatch_bandwidth := rest } =
        .ok (0, 0, 0, { t with m_remaining_dispatch_bandwidth := rest }) := by
      cases t.m_windows.m_window_length with
      | zero => rfl
      | succ n =>
        rw [IntervalTimer.dispatchLoop, if_neg]
        simp [hnone]
    have haccounted : Accounted long.longLatencyCutoff 0
        ({ t with m_remaining_dispatch_bandwidth := rest } : IntervalTimer Nat Unit).m_windows :=
      h.accounted
    have hvanishes : ¬ Vanishes t.m_windows := by
      unfold Vanishes
      rw [h.total]
      omega
    obtain ⟨t₂, haccount, hwindows, hrest₂⟩ := account_returns htame haccounted hvanishes
    rw [hloop]
    simp only [bind, Except.bind]
    rw [if_pos trivial, if_pos (show 0 ≥ rate by omega), haccount]
    have hrest₂ : t₂.m_remaining_dispatch_bandwidth = rest := hrest₂
    exact .wait (hrated.congr hwindows (by rw [hrest₂]; exact hrest))
      (by dsimp only; rw [hrest₂]; exact hprogress.resolve_left hzero)

theorem Chained.isFull {added dispatched} (h : Chained t added dispatched)
    (hfull : added = dispatched + 524288) : t.m_windows.wIsFull = true := by
  obtain ⟨hhead, hlast⟩ := h.accounted.ring.oldNumber_add
  have hnumbers := And.intro h.head h.next
  unfold wIsFull
  rw [decide_eq_true_iff, h.size]
  omega

theorem Chained.notFull {added dispatched} (h : Chained t added dispatched)
    (hfull : added ≠ dispatched + 524288) : ¬ t.m_windows.wIsFull = true := by
  obtain ⟨hhead, hlast⟩ := h.accounted.ring.oldNumber_add
  have hnumbers := And.intro h.head h.next
  unfold wIsFull
  rw [decide_eq_true_iff, h.size]
  omega

theorem Chained.drain {added dispatched} (h : Chained t added dispatched)
    (hfull : added = dispatched + 524288) (hroom : dispatched < 524288) {missing}
    (hmissing : 16384 ≤ t.m_remaining_dispatch_bandwidth + missing)
    (extra instructions latency : Nat) :
    (dispatched + 1 < 524288 ∧ ∃ r,
      IntervalTimer.drain long (extra + missing + 1) instructions latency t = .ok r ∧
        Chained r.2.2 added (dispatched + 1)) ∨
    dispatched + 1 = 524288 ∧
      IntervalTimer.drain long (extra + missing + 1) instructions latency t =
        .error .divideByZero := by
  induction missing generalizing t instructions latency with
  | zero =>
    have := h.rest
    omega
  | succ missing ih =>
    have hwindow := h.dispatchWindow (by omega) hroom
    rw [← Nat.add_assoc, IntervalTimer.drain, if_pos (h.isFull hfull)]
    cases hresult : IntervalTimer.dispatchWindow long t with
    | error e =>
      rw [hresult] at hwindow
      cases hwindow with
      | vanish hlastOne => exact .inr ⟨hlastOne, rfl⟩
    | ok r =>
      obtain ⟨executed, l, t₁⟩ := r
      rw [hresult] at hwindow
      cases hwindow with
      | wait hchained hmore =>
        have hmore : t.m_remaining_dispatch_bandwidth + 1 ≤ t₁.m_remaining_dispatch_bandwidth :=
          hmore
        exact ih hchained (by omega) _ _
      | dispatch hroom' hchained =>
        have hnot := hchained.notFull (by omega)
        refine .inl ⟨hroom', (instructions + executed, latency + l, t₁), ?_, hchained⟩
        change IntervalTimer.drain long (extra + missing + 1) _ _ t₁ = _
        rw [IntervalTimer.drain, if_neg hnot]

/-! ### The run -/

theorem Chained.simulate {k n} (h : Chained t k (k - 524287)) (hend : k + n = 1048575)
    (hsome : 0 < n) (instructions latency : Nat) :
    IntervalTimer.simulate long 16386 (List.replicate n long.uop) instructions latency t =
      .error .divideByZero := by
  induction n generalizing k t instructions latency with
  | zero => omega
  | succ n ih =>
    obtain ⟨t₁, hadd, h₁⟩ := h.add (by omega) (by omega)
    have hlive : long.uop.squashed = false := rfl
    rw [List.replicate_succ, IntervalTimer.simulate, hlive, if_neg Bool.false_ne_true, hadd]
    simp only [bind, Except.bind]
    by_cases hfull : k + 1 = k - 524287 + 524288
    · rcases h₁.drain hfull (by omega) (Nat.le_add_left 16384 _) 1 instructions latency with
        ⟨hroom, ⟨⟨executed, l, t₂⟩, hdrain, h₂⟩⟩ | ⟨hlastOne, hdrain⟩
      · rw [hdrain]
        have hsucc : k - 524287 + 1 = k + 1 - 524287 := by omega
        rw [hsucc] at h₂
        exact ih h₂ (by omega) (by omega) _ _
      · rw [hdrain]
    · have hnot := h₁.notFull hfull
      have hdrain : IntervalTimer.drain long 16386 instructions latency t₁ =
          .ok (instructions, latency, t₁) := by
        rw [IntervalTimer.drain, if_neg hnot]
      rw [hdrain]
      have hzero : k - 524287 = k + 1 - 524287 := by omega
      rw [hzero] at h₁
      exact ih h₁ (by omega) (by omega) _ _

/-- The 524288th dispatch makes the path `2 ^ 32` long, and the shares of its types are divided
by its length. -/
theorem path_vanishes :
    IntervalTimer.simulate long 16386 (List.replicate 1048575 long.uop) 0 0
        (new long 524288 1 ()) = .error .divideByZero :=
  chained_new.simulate (Nat.zero_add _) (by decide) 0 0

end IntervalTimer
end Sniper.Timing.Interval
