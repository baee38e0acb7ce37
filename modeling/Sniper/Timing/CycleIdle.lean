import Sniper.Timing.CycleGrid
import Sniper.Timing.IssuePorts
import Sniper.Timing.RobShelter

/-! # Cycles in which nothing happens

When a cycle announces no event before some time, then no cycle before it dispatches, issues or
commits anything: the three stages look at everything that could, or find something that makes
them execute the next cycle.
-/
namespace Sniper.Timing.Rob
open Lib.Simulation

variable {Reg K M : Type} {cfg : Config Reg K M} {s s' : RobTimer Reg K M} {t : Time}

/-! ### Issue ports -/

/-- What the issue ports know of earlier cycles does not depend on the cycles in which nothing
issued, and at the start of a cycle there are ports left. -/
structure RobContention.Resets (model : RobContention Reg K) : Prop where
  initCycle_initCycle : ∀ k now now',
    model.initCycle (model.initCycle k now) now' = model.initCycle k now'
  noMore_initCycle : ∀ k now, model.noMore (model.initCycle k now) = false

theorem nehalem_resets (core : Ports.CoreModel Reg Ports.Nehalem.UopPort Ports.Nehalem.UopAlu) :
    (Ports.Nehalem.RobContentionNehalem.model core).Resets :=
  ⟨fun _ _ _ => rfl, fun _ _ => rfl⟩

theorem cortexA53_resets (core : Ports.CoreModel Reg Ports.CortexA53.UopPort Ports.CortexA53.UopAlu)
    (getIssueSlot : DynamicMicroOp Reg → Ports.CortexA53.UopIssueSlot) :
    (Ports.CortexA53.RobContentionCortexA53.model core getIssueSlot).Resets :=
  ⟨fun _ _ _ => rfl, fun _ _ => rfl⟩

theorem cortexA72_resets
    (core : Ports.CoreModel Reg Ports.CortexA72.UopPort Ports.CortexA72.UopAlu) :
    (Ports.CortexA72.RobContentionCortexA72.model core).Resets :=
  ⟨fun _ _ _ => rfl, fun _ _ => rfl⟩

/-- What both ways to execute rely on. -/
structure Steady (cfg : Config Reg K M) : Prop where
  width : 0 < cfg.dispatchWidth
  resets : ∀ model ∈ cfg.m_rob_contention, model.Resets

/-- The ports at the start of a cycle. -/
def portsAt (cfg : Config Reg K M) (contention : K) (now : Nat) : K :=
  match cfg.m_rob_contention with
  | some model => model.initCycle contention now
  | none => contention

theorem portsAt_portsAt (hcfg : Steady cfg) (contention : K) (now now' : Nat) :
    portsAt cfg (portsAt cfg contention now) now' = portsAt cfg contention now' := by
  unfold portsAt
  cases hmodel : cfg.m_rob_contention with
  | none => rfl
  | some model => exact (hcfg.resets model hmodel).initCycle_initCycle _ _ _

theorem initCycle_eq (cfg : Config Reg K M) (s : RobTimer Reg K M) :
    initCycle cfg s = { s with contention := portsAt cfg s.contention s.now } := rfl

theorem doIssue_eq (cfg : Config Reg K M) (s : RobTimer Reg K M) [DecidableEq Reg] :
    doIssue cfg s = issueLoop cfg s.m_num_in_rob 0 (initCycle cfg s) .start := rfl

theorem noMore_initCycle (hcfg : Steady cfg) {scan} (h : scan.num_issued = 0) :
    noMore cfg (initCycle cfg s) scan = false := by
  rw [initCycle_eq]
  unfold noMore portsAt
  cases hmodel : cfg.m_rob_contention with
  | none => exact decide_eq_false (by rw [h]; exact Nat.ne_of_lt hcfg.width)
  | some model => exact (hcfg.resets model hmodel).noMore_initCycle _ _

/-! ### Issue -/

/-- The micro-ops in the reorder buffer from the position `i` on that could issue are not ready
before `t`; in order, only the first of them could. -/
def Waits (inorder : Bool) (rob : List (RobEntry Reg)) (t : Time) : Nat → Nat → Prop
  | 0, _ => True
  | count + 1, i => ∃ e, rob[i]? = some e ∧
      if e.done = ⊤ then t ≤ e.ready ∧ (inorder = false → Waits inorder rob t count (i + 1))
      else Waits inorder rob t count (i + 1)

section Scan
variable {count i : Nat} {scan : Scan} {e : RobEntry Reg}

theorem issueLoop_done (he : s.rob[i]? = some e) (hdone : e.done ≠ ⊤) :
    issueLoop cfg (count + 1) i s scan =
      issueLoop cfg count (i + 1) s { scan with next_event := min scan.next_event e.done } := by
  rw [issueLoop.eq_def]
  simp only [he, if_pos hdone]

theorem issueLoop_waiting (he : s.rob[i]? = some e) (hdone : e.done = ⊤)
    (hready : (s.now : Time) < e.ready) (hmore : noMore cfg s scan = false) :
    issueLoop cfg (count + 1) i s scan =
      if cfg.inorder = true then .ok (s, min scan.next_event e.ready)
      else issueLoop cfg count (i + 1) s
        (holdBack s { scan with next_event := min scan.next_event e.ready } e) := by
  have hcan : canIssue cfg s { scan with next_event := min scan.next_event e.ready } e =
      (.hold, { scan with next_event := min scan.next_event e.ready }) := by
    rw [canIssue, if_pos hready]
  have hmore' : noMore cfg s (holdBack s
      { scan with next_event := min scan.next_event e.ready } e) = false := hmore
  rw [issueLoop.eq_def]
  dsimp only
  rw [he]
  dsimp only
  rw [if_neg (not_not.mpr hdone), hcan]
  dsimp only
  rw [if_neg (by decide : ¬ Decision.hold = .issue), if_neg Bool.false_ne_true, hmore',
    Bool.or_false]
  rfl

theorem Waits.issueLoop (h : Waits cfg.inorder s.rob t count i) (hnow : (s.now : Time) < t)
    (hmore : noMore cfg s scan = false) :
    ∃ t', Rob.issueLoop cfg count i s scan = .ok (s, t') := by
  induction count generalizing i scan with
  | zero => exact ⟨_, rfl⟩
  | succ count ih =>
    obtain ⟨e, he, h⟩ := h
    split at h
    case isTrue hdone =>
      rw [issueLoop_waiting he hdone (hnow.trans_le h.1) hmore]
      split
      case isTrue => exact ⟨_, rfl⟩
      case isFalse hnot => exact ih (h.2 (by simpa using hnot)) hmore
    case isFalse hdone =>
      rw [issueLoop_done he hdone]
      exact ih h hmore

theorem issueInstruction_le {t'} (h : issueInstruction cfg s e t = .ok (s', t')) :
    t' ≤ t := by
  obtain ⟨_, -, -, rfl⟩ := issueInstruction_spec h
  exact min_le_left _ _

theorem issueInstruction_period {t'} (h : issueInstruction cfg s e t = .ok (s', t')) :
    s'.period = s.period := by
  obtain ⟨_, hissue⟩ := issueInstruction_ok h
  exact hissue.period

theorem issueLoop_le (h : Rob.issueLoop cfg count i s scan = .ok (s', t)) :
    t ≤ scan.next_event :=
  issueLoop_invariant (P := fun _ t => t ≤ scan.next_event)
    (fun _ _ _ _ ht => (min_le_left _ _).trans ht) (fun _ _ _ _ ht => (min_le_left _ _).trans ht)
    (fun _ _ _ ht => ht) (fun _ _ _ _ _ _ ht hs => (issueInstruction_le hs).trans ht) (le_refl _) h

theorem issueLoop_le_ready (he : s.rob[i]? = some e) (hdone : e.done = ⊤)
    (h : Rob.issueLoop cfg (count + 1) i s scan = .ok (s', t)) : t ≤ e.ready := by
  -- the scan begins as one that already knows of this time
  have hstart : Rob.issueLoop cfg (count + 1) i s
      { scan with next_event := min scan.next_event e.ready } = .ok (s', t) := by
    rw [issueLoop.eq_def] at h ⊢
    dsimp only at h ⊢
    rw [he] at h ⊢
    dsimp only at h ⊢
    rw [if_neg (not_not.mpr hdone)] at h ⊢
    rwa [min_assoc, min_self]
  exact (issueLoop_le hstart).trans (min_le_right _ _)

theorem issueLoop_idle (h : Rob.issueLoop cfg count i s scan = .ok (s', t))
    (hnow : (s.now : Time) < t) (hmore : noMore cfg s scan = false) :
    s' = s ∧ Waits cfg.inorder s.rob t count i := by
  induction count generalizing i scan with
  | zero =>
    cases h
    exact ⟨rfl, trivial⟩
  | succ count ih =>
    cases he : s.rob[i]? with
    | none =>
      rw [issueLoop.eq_def] at h
      simp only [he] at h
      cases h
    | some e =>
      by_cases hdone : e.done = ⊤
      · have hle := issueLoop_le_ready he hdone h
        rw [issueLoop_waiting he hdone (hnow.trans_le hle) hmore] at h
        split at h
        case isTrue hinorder =>
          cases h
          refine ⟨rfl, e, he, ?_⟩
          rw [if_pos hdone]
          exact ⟨hle, fun hnot => by simp [hinorder] at hnot⟩
        case isFalse =>
          obtain ⟨hs', hwaits⟩ := ih h hmore
          exact ⟨hs', e, he, by rw [if_pos hdone]; exact ⟨hle, fun _ => hwaits⟩⟩
      · rw [issueLoop_done he hdone] at h
        obtain ⟨hs', hwaits⟩ := ih h hmore
        exact ⟨hs', e, he, by rw [if_neg hdone]; exact hwaits⟩

end Scan

/-! ### Idle cycles -/

/-- Nothing is dispatched, issued or committed before `t`. -/
structure Idle (cfg : Config Reg K M) (s : RobTimer Reg K M) (t : Time) : Prop where
  front : cfg.windowSize ≤ s.m_num_in_rob ∨ t ≤ s.frontend_stalled_until
  waits : Waits cfg.inorder s.rob t s.m_num_in_rob 0
  head : ∀ e ∈ s.rob.head?, t ≤ e.done

theorem doDispatch_stalled (h : cfg.windowSize ≤ s.m_num_in_rob ∨ t ≤ s.frontend_stalled_until)
    (hnow : (s.now : Time) < t) : ∃ t', doDispatch cfg s = .ok (s, t') := by
  rw [doDispatch]
  split
  case isTrue hstalled =>
    have hfull : cfg.windowSize ≤ s.m_num_in_rob :=
      h.resolve_right fun hle => absurd (hnow.trans_le (hle.trans hstalled)) (lt_irrefl _)
    have hloop : dispatchLoop cfg cfg.dispatchWidth s ⊤ = .ok (s, ⊤) := by
      rw [dispatchLoop.eq_def]
      exact if_pos hfull
    rw [hloop]
    exact ⟨_, rfl⟩
  case isFalse => exact ⟨_, rfl⟩

theorem commitLoop_idle (h : ∀ e ∈ s.rob.head?, (s.now : Time) < e.done) :
    commitLoop cfg s s.rob 0 = s := by
  cases hrob : s.rob with
  | nil =>
    rw [commitLoop, ← hrob]
  | cons front rob =>
    rw [commitLoop, if_neg (not_le.mpr (h front (by rw [hrob]; rfl))), ← hrob]

theorem Idle.cycle [DecidableEq Reg] (hcfg : Steady cfg) (h : Idle cfg s t)
    (hnow : (s.now : Time) < t) :
    ∃ t', Rob.cycle cfg s = .ok (initCycle cfg s, t') := by
  obtain ⟨t₁, hdispatch⟩ := doDispatch_stalled h.front hnow
  obtain ⟨t₂, hissue⟩ : ∃ t₂, doIssue cfg s = .ok (initCycle cfg s, t₂) := by
    rw [doIssue_eq]
    exact Waits.issueLoop (s := initCycle cfg s) h.waits hnow (noMore_initCycle hcfg rfl)
  have hcommit : commitLoop cfg (initCycle cfg s) (initCycle cfg s).rob 0 = initCycle cfg s :=
    commitLoop_idle fun e he => hnow.trans_le (h.head e he)
  refine ⟨min t₁ (min t₂ ((s.rob.head?.map (·.done)).getD ⊤)),
    bind_eq_of_ok hdispatch (bind_eq_of_ok hissue ?_)⟩
  simp only [doCommit, hcommit]
  rfl

theorem Waits.mono {inorder : Bool} {rob : List (RobEntry Reg)} {t' : Time} {count i : Nat}
    (h : Waits inorder rob t count i) (hle : t' ≤ t) : Waits inorder rob t' count i := by
  induction count generalizing i with
  | zero => trivial
  | succ count ih =>
    obtain ⟨e, he, h⟩ := h
    refine ⟨e, he, ?_⟩
    split
    case isTrue hdone =>
      rw [if_pos hdone] at h
      exact ⟨hle.trans h.1, fun hnot => ih (h.2 hnot)⟩
    case isFalse hdone =>
      rw [if_neg hdone] at h
      exact ih h

theorem Moves.now_eq (h : Moves cfg s s') : s'.now = s.now :=
  h.invariant (P := fun s₁ => s₁.now = s.now) rfl fun _ _ h₁ hmove => by
    cases hmove with
    | dispatch | commit => exact h₁
    | issue _ _ _ _ hissue => exact hissue.now.trans h₁
    | other hsame => exact hsame.now.trans h₁

theorem doDispatch_front (h : doDispatch cfg s = .ok (s', t)) :
    cfg.windowSize ≤ s'.m_num_in_rob ∨ t ≤ s'.frontend_stalled_until := by
  have hevent : ∀ (s₁ : RobTimer Reg K M) (t₁ : Time), cfg.windowSize ≤ s₁.m_num_in_rob ∨
      (if s₁.m_num_in_rob = cfg.windowSize then t₁ else min s₁.frontend_stalled_until t₁) ≤
        s₁.frontend_stalled_until := by
    intro s₁ t₁
    split
    case isTrue hfull => exact .inl hfull.ge
    case isFalse => exact .inr (min_le_left _ _)
  rw [doDispatch] at h
  split at h
  · obtain ⟨p, -, h⟩ := of_bind_ok h
    cases h
    exact hevent _ _
  · cases h
    exact hevent _ _

variable [DecidableEq Reg]

theorem head_later {base} (hinv : Inv cfg base s) (h : doIssue cfg s = .ok (s', t)) :
    ∀ e ∈ s.rob.head?, t ≤ e.done := by
  intro e he
  by_cases hdone : e.done = ⊤
  · rw [hdone]
    exact le_top
  · have he₀ : s.rob[0]? = some e := by rw [← List.head?_eq_getElem?]; exact he
    cases hnum : s.m_num_in_rob with
    | zero =>
      refine absurd (hinv.order.waiting 0 e.core ?_ (by omega)) hdone
      rw [List.getElem?_map, he₀]
      rfl
    | succ num =>
      rw [doIssue_eq, hnum, issueLoop_done (s := initCycle cfg s) he₀ hdone] at h
      exact (issueLoop_le h).trans (min_le_right _ _)

/-- **A cycle that announces only later events is followed by idle ones.** It may have dispatched
micro-ops. -/
theorem cycle_idle {base : Nat} (hcfg : Steady cfg) (hinv : Inv cfg base s)
    (h : Rob.cycle cfg s = .ok (s', t)) (hnow : (s.now : Time) < t) : Idle cfg s' t := by
  obtain ⟨⟨s₁, t₁⟩, hdispatch, h⟩ := of_bind_ok h
  obtain ⟨⟨s₂, t₂⟩, hissue, h⟩ := of_bind_ok h
  have hinv₁ := hinv.doDispatch hdispatch
  have hnow₁ : s₁.now = s.now := (doDispatch_moves hdispatch).now_eq
  cases h
  have hlt := lt_min_iff.mp (lt_min_iff.mp hnow).2
  have hlt₂ : (s₁.now : Time) < t₂ := hnow₁ ▸ hlt.1
  -- nothing issues, and so nothing is committed
  have hhead := head_later hinv₁ hissue
  rw [doIssue_eq] at hissue
  obtain ⟨rfl, hwaits⟩ := issueLoop_idle hissue hlt₂ (noMore_initCycle hcfg rfl)
  have hcommit : commitLoop cfg (initCycle cfg s₁) (initCycle cfg s₁).rob 0 = initCycle cfg s₁ :=
    commitLoop_idle fun e he => hlt₂.trans_le (hhead e he)
  rw [hcommit]
  refine ⟨?_, hwaits.mono ?_, fun e he => le_trans ?_ (hhead e he)⟩
  · exact (doDispatch_front hdispatch).imp_right (min_le_left _ _).trans
  all_goals exact (min_le_right _ _).trans (min_le_left _ _)

end Sniper.Timing.Rob
