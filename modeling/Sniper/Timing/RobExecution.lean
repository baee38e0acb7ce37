import Sniper.Timing.RobIssuing

/-! # Runs of the reorder buffer

Committing keeps the invariant, so every call does, and so does every run.
-/
namespace Sniper.Timing.Rob
open Lib.Simulation

variable {Reg K M : Type} {cfg : Config Reg K M}

/-! ### Dispatch and the address of a store -/

theorem dispatchLoop_ne_address {width} (s : RobTimer Reg K M) (t : Time) :
    dispatchLoop cfg width s t ≠ .error .address := by
  induction width generalizing s t with
  | zero =>
    rw [dispatchLoop.eq_def]
    dsimp only
    split
    · simp
    · split <;> simp
  | succ width ih =>
    rw [dispatchLoop.eq_def]
    dsimp only
    split
    · simp
    · split
      · simp
      · split
        · simp
        · rename_i e _ _
          generalize (if e.uop.iCacheHitWhere ≠ .L1I then { s with in_icache_miss := false }
            else s) = s₁
          split
          · simp
          · split
            · simp
            · exact ih _ _

theorem doDispatch_ne_address (s : RobTimer Reg K M) : doDispatch cfg s ≠ .error .address := by
  rw [doDispatch]
  split
  · exact bind_ne_error (dispatchLoop_ne_address _ _) fun _ _ => by simp [pure, Except.pure]
  · simp

namespace Inv
variable {base : Nat} {s s' : RobTimer Reg K M}

/-! ### Commit -/

theorem commit {front rob} (h : Inv cfg base { s with rob := front :: rob })
    (hdone : front.done ≤ (s.now : Time)) :
    Inv cfg (base + 1) { s with
      rob := rob
      m_num_in_rob := s.m_num_in_rob - 1
      log := .committed front.seqnr :: s.log } := by
  have hne : front.done ≠ ⊤ := fun htop => time_ne_top s.now (top_le_iff.mp (htop ▸ hdone))
  have horder : Ordered cfg base (front.core :: rob.map RobEntry.core) s.m_num_in_rob
      s.m_rs_entries_used s.nextSequenceNumber s.log := h.order
  obtain ⟨owed, hlinked, howes⟩ := h.links
  have hnil : owed front.seqnr = [] := by
    rw [howes front (List.mem_cons_self ..), if_neg hne]
  have hfront : front.seqnr = base := h.seqnr_of_getElem (i := 0) rfl
  have hproducer : ∀ q x, x ∈ owed q → ∃ p ∈ rob, p.seqnr = q := by
    intro q x hx
    obtain ⟨p, hp, rfl⟩ := hlinked.producer q x hx
    rcases List.mem_cons.mp hp with rfl | hp
    · rw [hnil] at hx
      cases hx
    · exact ⟨p, hp, rfl⟩
  refine ⟨horder.commit hne, ⟨owed, ⟨fun e he => hlinked.count e (List.mem_cons_of_mem _ he),
    hproducer, fun q x hx => ?_, hlinked.younger⟩,
    fun p hp => howes p (List.mem_cons_of_mem _ hp)⟩, fun e he => ?_⟩
  · obtain ⟨e, he, rfl⟩ := hlinked.dependant q x hx
    rcases List.mem_cons.mp he with rfl | he
    · -- nothing is older than the oldest
      obtain ⟨p, hp, rfl⟩ := hproducer q _ hx
      have hyounger := hlinked.younger _ _ hx
      have hbase := (horder.seqnr_lt (List.mem_cons_of_mem _ (List.mem_map_of_mem hp))).1
      have hseq : p.core.seqnr = p.seqnr := rfl
      omega
    · exact ⟨e, he, rfl⟩
  · refine (h.fed e (List.mem_cons_of_mem _ he)).mono fun a _ ha => ?_
    obtain ⟨c, hc, hca⟩ := ha
    exact ⟨c, List.mem_cons_of_mem _ hc, hca⟩

theorem commitLoop {rob} (h : Inv cfg base { s with rob := rob }) (num_committed : Nat) :
    ∃ base', Inv cfg base' (Rob.commitLoop cfg s rob num_committed) := by
  induction rob generalizing base s num_committed with
  | nil => exact ⟨base, h⟩
  | cons front rob ih =>
    rw [Rob.commitLoop]
    split
    case isTrue hdone =>
      have h₁ := h.commit hdone
      split
      · exact ⟨_, h₁⟩
      · exact ih h₁ _
    case isFalse => exact ⟨base, h⟩

/-! ### Calls -/

theorem cycle (h : Inv cfg base s) : Rob.cycle cfg s ≠ .error .address ∧
    ∀ s' t, Rob.cycle cfg s = .ok (s', t) → ∃ base', Inv cfg base' s' := by
  refine ⟨bind_ne_error (doDispatch_ne_address s) fun p hp =>
    bind_ne_error (h.doDispatch hp).doIssue.1 fun _ _ => nofun, fun s' t hs' => ?_⟩
  obtain ⟨⟨s₁, t₁⟩, hdispatch, hs'⟩ := of_bind_ok hs'
  obtain ⟨⟨s₂, t₂⟩, hissue, hs'⟩ := of_bind_ok hs'
  cases hs'
  have h₂ := (h.doDispatch hdispatch).doIssue.2 s₂ t₂ hissue
  exact commitLoop (s := s₂) h₂ 0

theorem execute (h : Inv cfg base s) : Rob.execute cfg s ≠ .error .address ∧
    ∀ s' t, Rob.execute cfg s = .ok (s', t) → ∃ base', Inv cfg base' s' := by
  rw [Rob.execute]
  split
  · refine ⟨nofun, fun s' t hs' => ?_⟩
    cases hs'
    exact ⟨base, h⟩
  · refine ⟨bind_ne_error h.cycle.1 fun _ _ => nofun, fun s' t hs' => ?_⟩
    obtain ⟨⟨s₁, t₁⟩, hcycle, hs'⟩ := of_bind_ok hs'
    obtain ⟨base', h₁⟩ := h.cycle.2 s₁ t₁ hcycle
    cases hs'
    exact ⟨base', h₁.congr rfl rfl rfl rfl rfl⟩

theorem exec [DecidableEq Reg] (h : Inv cfg base s) {call} (ha : Allowed cfg call)
    (hs' : Rob.exec cfg s call = .ok s') : ∃ base', Inv cfg base' s' := by
  cases call with
  | enter uop => exact ⟨base, h.enter ha.1 hs'⟩
  | execute =>
    obtain ⟨⟨s₁, t⟩, hexec, rfl⟩ := of_map_ok hs'
    exact h.execute.2 s₁ t hexec
  | synchronize time | setPeriod period =>
    cases hs'
    exact ⟨base, h.congr rfl rfl rfl rfl rfl⟩

theorem init (h : Init cfg s) : Inv cfg 0 s := by
  refine ⟨?_, ⟨fun _ => [], ?_, ?_⟩, ?_⟩
  · rw [h.rob, h.num_in_rob, h.rs_entries, h.next, h.log]
    exact {
      numbered := fun i c hc => by cases hc
      total := rfl
      fits := Nat.le_refl _
      window := Nat.zero_le _
      waiting := fun i c hc => by cases hc
      rs_used := rfl
      rs_fits := Nat.zero_le _
      length_entered := rfl
      entries := fun c hc => by cases hc
      length_dispatches := rfl
      mem_dispatches := fun x => by simp [dispatches]
      length_commits := rfl
      issued := fun j hj => by cases hj
      done := fun c hc => by cases hc
      committed := fun x hx => absurd hx (Nat.not_lt_zero x)
      available := fun j hj => by cases hj
      disciplined := trivial }
  · rw [h.rob]
    exact ⟨fun e he => (by cases he), fun q x hx => (by cases hx), fun q x hx => (by cases hx),
      fun q x hx => by cases hx⟩
  all_goals
    rw [h.rob]
    exact fun e he => by cases he

theorem of_reachable [DecidableEq Reg] (h : Reachable (Init cfg) (Step cfg) s) :
    ∃ base, Inv cfg base s := by
  refine h.invariant (P := fun s => ∃ base, Inv cfg base s) (fun s hs => ⟨0, init hs⟩)
    fun s s' ih hstep => ?_
  obtain ⟨base, h⟩ := ih
  obtain ⟨call, ha, hs'⟩ := hstep
  exact h.exec ha hs'

end Inv

/-! ### What every run keeps -/

/-- The micro-ops that are dispatched and have not issued. -/
def outstanding (log : List (Event Reg)) : List Nat :=
  (dispatches log).filter fun x => (issues log).all fun j => decide (j.seqnr ≠ x)

theorem Disciplined.dispatches {log : List (Event Reg)} (h : Disciplined log) :
    Rob.dispatches log = (List.range (Rob.dispatches log).length).reverse := by
  induction log with
  | nil => rfl
  | cons event log ih =>
    have hrest := ih h.2
    cases event with
    | dispatched x =>
      have hx : x = (Rob.dispatches log).length := h.1.1
      show x :: Rob.dispatches log = (List.range ((Rob.dispatches log).length + 1)).reverse
      rw [List.range_succ, List.reverse_append, ← hrest, hx]
      rfl
    | entered | issued | committed => exact hrest

theorem Ordered.outstanding {base num_in_rob rs_entries_used next : Nat} {cores : List (Core Reg)}
    {log : List (Event Reg)} (h : Ordered cfg base cores num_in_rob rs_entries_used next log) :
    rs_entries_used = (Rob.outstanding log).length := by
  have hnumbers : (cores.take num_in_rob).map Core.seqnr =
      (List.range num_in_rob).map (base + ·) := by
    refine List.ext_getElem (by simpa using h.fits) fun i hi _ => ?_
    rw [List.length_map, List.length_take] at hi
    rw [List.getElem_map, List.getElem_take, List.getElem_map, List.getElem_range]
    exact h.numbered i _ (List.getElem?_eq_getElem (by omega))
  rw [Rob.outstanding, ← List.countP_eq_length_filter, h.disciplined.dispatches,
    h.length_dispatches, List.countP_reverse, List.range_add, List.countP_append, ← hnumbers,
    List.countP_map, h.rs_used]
  have hold : (List.range base).countP
      (fun x => (issues log).all fun j => decide (j.seqnr ≠ x)) = 0 := by
    refine List.countP_eq_zero.mpr fun x hx hall => ?_
    obtain ⟨j, hj, hjx⟩ := h.committed x (List.mem_range.mp hx)
    exact of_decide_eq_true (List.all_eq_true.mp hall j hj) hjx
  rw [hold, Nat.zero_add]
  refine List.countP_congr fun c hc => ?_
  have hc : c ∈ cores := List.mem_of_mem_take hc
  rw [decide_eq_true_eq, Function.comp_apply, List.all_eq_true]
  constructor
  · intro hdone j hj
    refine decide_eq_true fun heq => ?_
    rcases h.issued j hj with hlt | ⟨d, hd, hdj, hddone⟩
    · have hbase := (h.seqnr_lt hc).1
      omega
    · rw [h.eq_of_seqnr hd hc (hdj.trans heq), hdone] at hddone
      exact time_ne_top _ hddone.symm
  · intro hall
    by_contra hne
    obtain ⟨j, hj, hjc, -⟩ := h.done c hc hne
    exact of_decide_eq_true (hall j hj) hjc

variable [DecidableEq Reg]

/-- The structure of the reorder buffer and the order of its events. -/
structure Structured (cfg : Config Reg K M) (s : RobTimer Reg K M) : Prop where
  contiguous : ∀ i e e', s.rob[i]? = some e → s.rob[i + 1]? = some e' → e'.seqnr = e.seqnr + 1
  window : s.m_num_in_rob ≤ cfg.windowSize
  rs_used : s.m_rs_entries_used = (outstanding s.log).length
  rs_fits : s.m_rs_entries_used ≤ cfg.rsEntries
  disciplined : Disciplined s.log
  address : execute cfg s ≠ .error .address

/-- Whatever enters the reorder buffer, and whenever the clock or its period is changed. -/
theorem structured {s : RobTimer Reg K M} (h : Reachable (Init cfg) (Step cfg) s) :
    Structured cfg s := by
  obtain ⟨base, hinv⟩ := Inv.of_reachable h
  refine ⟨fun i e e' he he' => ?_, hinv.order.window, hinv.order.outstanding, hinv.order.rs_fits,
    hinv.order.disciplined, hinv.execute.1⟩
  have hseq := hinv.seqnr_of_getElem he
  have hseq' := hinv.seqnr_of_getElem he'
  omega

/-! ### A small core -/

/-- A core that dispatches two micro-ops in a cycle of ten. -/
def small : Config Nat Unit Unit where
  dispatchWidth := 2
  commitWidth := 2
  windowSize := 4
  rsEntries := 4
  misprediction_penalty := 8
  m_store_to_load_forwarding := false
  m_no_address_disambiguation := true
  inorder := false
  m_rob_contention := none
  decoder := ⟨id, fun _ => true, 0⟩
  accessMemory _ _ _ _ := (0, .L1I, ())

def small.start : RobTimer Nat Unit Unit where
  rob := []
  m_num_in_rob := 0
  m_rs_entries_used := 0
  contention := ()
  now := 0
  period := 10
  frontend_stalled_until := 0
  in_icache_miss := false
  last_store_done := 0
  load_queue := ⟨[(0, 0)], 0⟩
  store_queue := ⟨[(0, 0)], 0⟩
  nextSequenceNumber := 0
  registerDependencies _ := none
  memoryDependencies := ⟨[], none⟩
  memory := ()
  log := []

theorem small.init : Init small small.start :=
  ⟨rfl, rfl, rfl, rfl, by decide, rfl, rfl, rfl, rfl, fun _ => rfl, rfl, rfl, by decide⟩

/-- A new micro-op of the decoder of `small`. -/
def small.uop (uop_type : UopType) (sources destinations : List Nat) (m_membar : Bool)
    (execLatency : Nat) : DynamicMicroOp Nat :=
  .hit ⟨uop_type, sources, [], destinations, false, false, m_membar⟩ 64 execLatency

@[simp] theorem small.allowed (uop_type : UopType) (sources destinations : List Nat)
    (m_membar : Bool) (execLatency : Nat) :
    Allowed small (.enter (small.uop uop_type sources destinations m_membar execLatency)) :=
  ⟨⟨fun _ _ => rfl, nofun⟩, rfl⟩

@[simp] theorem small.allowed_execute : Allowed small .execute := trivial

def small.run (calls : List (Call Nat)) : Except Stop (RobTimer Nat Unit Unit) :=
  calls.foldlM (exec small) small.start

theorem small.reachable {calls} (ha : ∀ call ∈ calls, Allowed small call) {s}
    (h : small.run calls = .ok s) :
    Reachable (Init small) (Step small) s :=
  Reachable.foldlM (fun call hcall _ _ hs => ⟨call, ha call hcall, hs⟩) (.init small.init) h

/-- A load, a micro-op that needs its result, and six more. -/
def small.dependent : List (Call Nat) :=
  [.enter (small.uop .load [1] [2] false 3), .enter (small.uop .execute [2] [3] false 1),
    .enter (small.uop .execute [4] [5] false 1), .enter (small.uop .execute [4] [6] false 1),
    .enter (small.uop .execute [4] [7] false 1), .enter (small.uop .store [3] [] false 1),
    .enter (small.uop .load [1] [8] false 3), .enter (small.uop .execute [8] [9] false 1),
    .execute, .execute, .execute, .execute, .execute, .execute, .execute]

theorem structured_dependent : ∃ s, (issues s.log).map Issue.seqnr = [1, 3, 2, 0] ∧
    commits s.log = [2, 1, 0] ∧ Structured small s := by
  have hends : ∃ s ∈ (small.run small.dependent).toOption,
      (issues s.log).map Issue.seqnr = [1, 3, 2, 0] ∧ commits s.log = [2, 1, 0] := by
    decide +kernel
  obtain ⟨s, hrun, hissues, hcommits⟩ := exists_of_toOption hends
  refine ⟨s, hissues, hcommits, structured (small.reachable ?_ hrun)⟩
  simp [small.dependent]

end Sniper.Timing.Rob
