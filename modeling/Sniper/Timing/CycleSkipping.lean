import Sniper.Timing.CycleIdle
import Sniper.Timing.PortMatching
import Sniper.Timing.RobFencing

/-! # Skipping cycles

`execute` jumps to the next event; a build with `ASSERT_SKIP` executes every cycle. Both do the
same to every micro-op at the same time, as long as the clock is only set by whole cycles while
something is still to come.
-/
namespace Sniper.Timing.Rob
open Lib.Simulation

variable {Reg K M : Type} {cfg : Config Reg K M} {s s' s₀ : RobTimer Reg K M}

/-- `execute` in a build with `ASSERT_SKIP`. -/
def executeEveryCycle (cfg : Config Reg K M) (s : RobTimer Reg K M) :
    Except Stop (RobTimer Reg K M × Nat) := do
  if starved cfg s then return (s, 0)
  let (s, _) ← cycle cfg s
  return ({ s with now := s.now + s.period }, s.period)

/-- What a call of `execute` has done to the micro-ops, with the time. -/
def happened (s s' : RobTimer Reg K M) : List (Nat × Event Reg) :=
  (s'.log.take (s'.log.length - s.log.length)).map (s.now, ·)

/-- The runs that begin in `s₀`, with what has happened to the micro-ops, the latest first. -/
inductive Run [DecidableEq Reg] (cfg : Config Reg K M)
    (execute : RobTimer Reg K M → Except Stop (RobTimer Reg K M × Nat)) (s₀ : RobTimer Reg K M) :
    List (List (DynamicMicroOp Reg)) → List (Nat × Event Reg) → RobTimer Reg K M → Prop
  | start : Run cfg execute s₀ [] [] s₀
  | simulate {stream history s s'} (h : Run cfg execute s₀ stream history s)
      (hstarved : starved cfg s = true) {insts : List (DynamicMicroOp Reg)}
      (hnew : ∀ uop ∈ insts, Allowed cfg (.enter uop))
      (henter : insts.foldlM (enter cfg) s = .ok s') :
      Run cfg execute s₀ (stream ++ [insts]) history s'
  | cycle {stream history s s' latency} (h : Run cfg execute s₀ stream history s)
      (hstarved : starved cfg s = false) (hexec : execute s = .ok (s', latency)) :
      Run cfg execute s₀ stream (happened s s' ++ history) s'

/-! ### What does not depend on the clock and the ports -/

/-- The state with another clock and other ports. -/
def RobTimer.at (s : RobTimer Reg K M) (now : Nat) (contention : K) : RobTimer Reg K M :=
  { s with now := now, contention := contention }

theorem enter_at [DecidableEq Reg] (now : Nat) (contention : K) (uop : DynamicMicroOp Reg) :
    enter cfg (s.at now contention) uop = (enter cfg s uop).map (·.at now contention) := by
  rw [enter, enter]
  split
  case isTrue => rfl
  case isFalse =>
    dsimp only [RobTimer.at]
    split
    case isTrue hfull => exact if_pos hfull
    case isFalse hfull =>
      refine (if_neg hfull).trans ?_
      refine bind_eq_map_bind fun e => ?_
      refine bind_eq_map_bind fun p => ?_
      refine bind_eq_map_bind fun p => ?_
      refine bind_eq_map_bind fun uop => ?_
      refine bind_eq_map_bind fun p => ?_
      exact bind_eq_map_bind fun uop => rfl

theorem enters_at [DecidableEq Reg] (now : Nat) (contention : K)
    (insts : List (DynamicMicroOp Reg)) :
    insts.foldlM (enter cfg) (s.at now contention) =
      (insts.foldlM (enter cfg) s).map (·.at now contention) := by
  induction insts generalizing s with
  | nil => rfl
  | cons uop insts ih =>
    rw [List.foldlM_cons, List.foldlM_cons, enter_at]
    cases enter cfg s uop with
    | error e => rfl
    | ok s₁ => exact ih

theorem dispatchLoop_contention (contention : K) {width t} :
    dispatchLoop cfg width { s with contention := contention } t =
      (dispatchLoop cfg width s t).map fun p => ({ p.1 with contention := contention }, p.2) := by
  induction width generalizing s t with
  | zero =>
    rw [dispatchLoop.eq_def, dispatchLoop.eq_def cfg 0 s t]
    dsimp only
    split
    · rfl
    · split <;> rfl
  | succ width ih =>
    rw [dispatchLoop.eq_def, dispatchLoop.eq_def cfg (width + 1) s t]
    dsimp only
    by_cases hfull : cfg.windowSize ≤ s.m_num_in_rob
    · rw [if_pos hfull, if_pos hfull]
      rfl
    rw [if_neg hfull, if_neg hfull]
    cases s.rob[s.m_num_in_rob]? with
    | none => rfl
    | some e =>
      dsimp only
      split
      case isTrue => rfl
      case isFalse =>
        by_cases hmiss : e.uop.iCacheHitWhere ≠ .L1I
        · simp only [if_pos hmiss]
          split
          case isTrue => rfl
          case isFalse =>
            split
            case isTrue => rfl
            case isFalse => exact ih (s := dispatch { s with in_icache_miss := false } e)
        · simp only [if_neg hmiss]
          split
          case isTrue => rfl
          case isFalse =>
            split
            case isTrue => rfl
            case isFalse => exact ih (s := dispatch s e)

theorem doDispatch_contention (cfg : Config Reg K M) (s : RobTimer Reg K M) (contention : K) :
    doDispatch cfg { s with contention := contention } =
      (doDispatch cfg s).map fun p => ({ p.1 with contention := contention }, p.2) := by
  rw [doDispatch, doDispatch]
  split
  · rw [dispatchLoop_contention]
    cases dispatchLoop cfg cfg.dispatchWidth s ⊤ with
    | error e | ok p => rfl
  · rfl

theorem doDispatch_ports {t} (h : doDispatch cfg s = .ok (s', t)) :
    s'.contention = s.contention := by
  have hsame := doDispatch_contention cfg s s.contention
  rw [show { s with contention := s.contention } = s from rfl, h] at hsame
  exact congrArg (fun p => p.1.contention) (Except.ok.inj hsame)

theorem cycle_contention [DecidableEq Reg] {contention}
    (h : ∀ now, portsAt cfg contention now = portsAt cfg s.contention now) :
    cycle cfg { s with contention := contention } = cycle cfg s := by
  rw [cycle, cycle, doDispatch_contention]
  cases hdispatch : doDispatch cfg s with
  | error e => rfl
  | ok p =>
    obtain ⟨s₁, t⟩ := p
    have hissue : doIssue cfg { s₁ with contention := contention } = doIssue cfg s₁ := by
      rw [doIssue_eq, doIssue_eq, initCycle_eq, initCycle_eq]
      dsimp only
      rw [doDispatch_ports hdispatch, ← h]
    show (doIssue cfg { s₁ with contention := contention } >>= _) = _
    rw [hissue]
    rfl

/-! ### Entered -/

/-- What entering does not change. -/
structure Entered (s s' : RobTimer Reg K M) : Prop where
  now : s'.now = s.now
  period : s'.period = s.period
  contention : s'.contention = s.contention
  num_in_rob : s'.m_num_in_rob = s.m_num_in_rob
  stalled : s'.frontend_stalled_until = s.frontend_stalled_until
  entries : ∀ (i : Nat) (e : RobEntry Reg), s.rob[i]? = some e →
    ∃ e' : RobEntry Reg, s'.rob[i]? = some e' ∧ e'.done = e.done ∧ e'.ready = e.ready
  head : ∀ e ∈ s'.rob.head?, e.done = ⊤ ∨ ∃ e₀ ∈ s.rob.head?, e.done = e₀.done

theorem Entered.refl (s : RobTimer Reg K M) : Entered s s :=
  ⟨rfl, rfl, rfl, rfl, rfl, fun _ e he => ⟨e, he, rfl, rfl⟩, fun e he => .inr ⟨e, he, rfl⟩⟩

theorem Inv.entered [DecidableEq Reg] {base} (h : Inv cfg base s) {uop}
    (hs' : Rob.enter cfg s uop = .ok s') :
    Entered s s' := by
  rcases enter_cases hs' with ⟨-, rfl⟩ | ⟨-, e₁, registers, uop₁, memory, uop₂, uop₃, rob, dtr,
    readyMax, uop₄, haddr, -, -, -, hlink, -, rfl⟩
  · exact .refl _
  · obtain ⟨hrob, -⟩ := link_ok hlink h.unique
    have hdone₁ : e₁.done = ⊤ := by
      rw [(setAddress_ok haddr rfl rfl rfl).1]
      rfl
    subst hrob
    have hattach : ∀ e : RobEntry Reg, (attach s.nextSequenceNumber uop₃.getDependencies e).done =
        e.done ∧ (attach s.nextSequenceNumber uop₃.getDependencies e).ready = e.ready := by
      intro e
      rw [attach]
      split <;> exact ⟨rfl, rfl⟩
    refine ⟨rfl, rfl, rfl, rfl, rfl, fun i e he => ⟨_, ?_, hattach e⟩, fun e he => ?_⟩
    · rw [List.getElem?_append_left, List.getElem?_map, he]
      · rfl
      · rw [List.length_map]
        exact (List.getElem?_eq_some_iff.mp he).1
    · dsimp only at he
      cases hrob : s.rob with
      | nil =>
        rw [hrob] at he
        cases he
        exact .inl hdone₁
      | cons front rob =>
        rw [hrob] at he
        cases he
        exact .inr ⟨front, rfl, (hattach front).1⟩

theorem Waits.entered {inorder t rob rob'}
    (hrob : ∀ (i : Nat) (e : RobEntry Reg), rob[i]? = some e →
      ∃ e' : RobEntry Reg, rob'[i]? = some e' ∧ e'.done = e.done ∧ e'.ready = e.ready) {count i}
    (h : Waits inorder rob t count i) : Waits inorder rob' t count i := by
  induction count generalizing i with
  | zero => trivial
  | succ count ih =>
    obtain ⟨e, he, h⟩ := h
    obtain ⟨e', he', hdone, hready⟩ := hrob i e he
    refine ⟨e', he', ?_⟩
    rw [hdone, hready]
    split
    case isTrue htop =>
      rw [if_pos htop] at h
      exact ⟨h.1, fun hnot => ih (h.2 hnot)⟩
    case isFalse htop =>
      rw [if_neg htop] at h
      exact ih h

theorem Idle.entered {t} (h : Idle cfg s t) (hs' : Entered s s') : Idle cfg s' t where
  front := by
    rw [hs'.num_in_rob, hs'.stalled]
    exact h.front
  waits := by
    rw [hs'.num_in_rob]
    exact h.waits.entered hs'.entries
  head e he := by
    rcases hs'.head e he with htop | ⟨e₀, he₀, heq⟩
    · rw [htop]
      exact le_top
    · rw [heq]
      exact h.head e₀ he₀

/-! ### The timer that skips is ahead -/

/-- What holds of the timer that skips. -/
structure Sound (cfg : Config Reg K M) (s : RobTimer Reg K M) : Prop where
  aligned : Aligned s
  inv : ∃ base, Inv cfg base s

/-- `s'` has idle cycles to execute until it is where `s` is. -/
structure Behind (cfg : Config Reg K M) (s s' : RobTimer Reg K M) : Prop where
  same : s' = s.at s'.now s'.contention
  cycles : ∃ k, s.now = s'.now + k * s.period
  ports : ∀ now, portsAt cfg s'.contention now = portsAt cfg s.contention now
  idle : s'.now < s.now → Idle cfg s (s.now : Time)

namespace Behind

theorem refl (s : RobTimer Reg K M) : Behind cfg s s :=
  ⟨rfl, ⟨0, by omega⟩, fun _ => rfl, fun h => absurd h (lt_irrefl _)⟩

theorem le (h : Behind cfg s s') : s'.now ≤ s.now := by
  obtain ⟨k, hk⟩ := h.cycles
  omega

theorem period_eq (h : Behind cfg s s') : s'.period = s.period := by rw [h.same]; rfl

theorem starved_imp (h : Behind cfg s s') (hs : starved cfg s' = true) : starved cfg s = true := by
  rw [h.same] at hs
  obtain ⟨hstalled, hfew⟩ := Bool.and_eq_true_iff.mp hs
  have hle : ((s.at s'.now s'.contention).now : Time) ≤ (s.now : Time) := time_le.mpr h.le
  exact Bool.and_eq_true_iff.mpr ⟨decide_eq_true ((of_decide_eq_true hstalled).trans hle), hfew⟩

theorem starved_eq (h : Behind cfg s s') (hnow : s'.now = s.now) :
    starved cfg s' = starved cfg s := by
  rw [h.same, hnow]
  rfl

variable [DecidableEq Reg]

theorem enters {insts : List (DynamicMicroOp Reg)} {s₁} (h : Behind cfg s s') (hsound : Sound cfg s)
    (hnew : ∀ uop ∈ insts, Allowed cfg (.enter uop)) (hs₁ : insts.foldlM (enter cfg) s = .ok s₁) :
    Sound cfg s₁ ∧ ∃ s₁', insts.foldlM (enter cfg) s' = .ok s₁' ∧ Behind cfg s₁ s₁' := by
  induction insts generalizing s s' with
  | nil =>
    cases hs₁
    exact ⟨hsound, s', rfl, h⟩
  | cons uop insts ih =>
    obtain ⟨s₂, hs₂, hs₁⟩ := of_bind_ok hs₁
    obtain ⟨base, hinv⟩ := hsound.inv
    have hentered := hinv.entered hs₂
    have hsound₂ : Sound cfg s₂ :=
      ⟨hsound.aligned.enter hs₂, base, hinv.enter (hnew uop (List.mem_cons_self ..)).1 hs₂⟩
    have h₂ : Behind cfg s₂ (s₂.at s'.now s'.contention) := by
      refine ⟨rfl, ?_, fun now => ?_, fun hlt => ?_⟩
      · rw [hentered.now, hentered.period]
        exact h.cycles
      · rw [hentered.contention]
        exact h.ports now
      · rw [hentered.now] at hlt ⊢
        exact (h.idle hlt).entered hentered
    have hs₂' : enter cfg s' uop = .ok (s₂.at s'.now s'.contention) := by
      rw [h.same, enter_at, hs₂]
      rfl
    obtain ⟨hsound₁, s₁', hs₁', h₁⟩ :=
      ih h₂ hsound₂ (fun uop huop => hnew uop (List.mem_cons_of_mem _ huop)) hs₁
    exact ⟨hsound₁, s₁', (List.foldlM_cons ..).trans (bind_eq_of_ok hs₂' hs₁'), h₁⟩

theorem idle_cycle (hcfg : Steady cfg) (h : Behind cfg s s') (hnow : s'.now < s.now)
    (hstarved : starved cfg s' = false) : ∃ s₁, executeEveryCycle cfg s' = .ok (s₁, s'.period) ∧
      Behind cfg s s₁ ∧ s₁.now = s'.now + s'.period ∧ s₁.log = s'.log := by
  have hidle : Idle cfg s' (s.now : Time) := by
    rw [h.same]
    have hs := h.idle hnow
    exact ⟨hs.front, hs.waits, hs.head⟩
  obtain ⟨t, hcycle⟩ := hidle.cycle hcfg (WithTop.coe_lt_coe.mpr hnow)
  refine ⟨{ initCycle cfg s' with now := s'.now + s'.period }, ?_,
    ⟨?_, ?_, fun now => ?_, fun _ => ?_⟩, rfl, rfl⟩
  · rw [executeEveryCycle, if_neg (by rw [hstarved]; exact Bool.false_ne_true), hcycle]
    rfl
  · have hstep : ∀ now contention, s' = s.at now contention →
        ({ initCycle cfg s' with now := s'.now + s'.period } : RobTimer Reg K M) =
          s.at (s'.now + s'.period) (portsAt cfg s'.contention s'.now) := by
      rintro _ _ rfl
      rfl
    exact hstep _ _ h.same
  · obtain ⟨k, hk⟩ := h.cycles
    cases k with
    | zero => omega
    | succ k =>
      refine ⟨k, ?_⟩
      dsimp only
      rw [h.period_eq, hk, Nat.succ_mul]
      omega
  · exact (portsAt_portsAt hcfg _ _ _).trans (h.ports now)
  · exact h.idle hnow

theorem cycle {s₁ t} (hcfg : Steady cfg) (h : Behind cfg s s') (hsound : Sound cfg s)
    (hnow : s'.now = s.now) (hstarved : starved cfg s = false)
    (hcycle : Rob.cycle cfg s = .ok (s₁, t)) :
    Rob.execute cfg s = .ok ({ s₁ with now := s₁.now + skip s₁.now s₁.period t },
      skip s₁.now s₁.period t) ∧
    executeEveryCycle cfg s' = .ok ({ s₁ with now := s₁.now + s₁.period }, s₁.period) ∧
    Sound cfg { s₁ with now := s₁.now + skip s₁.now s₁.period t } ∧
    Behind cfg { s₁ with now := s₁.now + skip s₁.now s₁.period t }
      { s₁ with now := s₁.now + s₁.period } := by
  obtain ⟨base, hinv⟩ := hsound.inv
  obtain ⟨base₁, hinv₁⟩ := hinv.cycle.2 s₁ t hcycle
  have hforeseen := cycle_foreseen hsound.aligned hcycle
  have ht := hforeseen.event
  rw [← hforeseen.now_eq, ← hforeseen.period_eq] at ht
  obtain ⟨k, hk⟩ := ht.skip_eq
  have hsame : Rob.cycle cfg s' = .ok (s₁, t) := by
    rw [h.same, hnow, ← hcycle]
    exact cycle_contention h.ports
  refine ⟨?_, ?_, ⟨?_, base₁, hinv₁.congr rfl rfl rfl rfl rfl⟩,
    ⟨rfl, ⟨k, ?_⟩, fun _ => rfl, fun hlt => ?_⟩⟩
  · rw [execute_eq cfg s hstarved, hcycle]
    rfl
  · rw [executeEveryCycle, if_neg (by rw [h.starved_eq hnow, hstarved]; exact Bool.false_ne_true),
      hsame]
    rfl
  · rw [hk]
    exact hforeseen.aligned.later _
  · dsimp only
    rw [hk, Nat.succ_mul]
    omega
  · -- the next event is later than the next cycle
    cases t with
    | none => exact absurd hlt (lt_irrefl _)
    | some event =>
      dsimp only [skip] at hlt ⊢
      split at hlt
      case isFalse => exact absurd hlt (lt_irrefl _)
      case isTrue hevent =>
        have hlater : s.now < event := by
          rw [← hforeseen.now_eq]
          exact Nat.lt_of_le_of_lt (Nat.le_add_right _ _) hevent
        have hidle : Idle cfg s₁ (event : Time) :=
          cycle_idle hcfg hinv hcycle (WithTop.coe_lt_coe.mpr hlater)
        rw [if_pos hevent, show s₁.now + (event - s₁.now) = event by omega]
        exact ⟨hidle.front, hidle.waits, hidle.head⟩

/-- The timer that skips nothing executes idle cycles until it has to stop too or is where the
other one is. -/
theorem catch_up {stream history} (hcfg : Steady cfg) (h : Behind cfg s s')
    (hrun : Run cfg (executeEveryCycle cfg) s₀ stream history s') :
    ∃ s₁, Run cfg (executeEveryCycle cfg) s₀ stream history s₁ ∧ Behind cfg s s₁ ∧
      (starved cfg s₁ = true ∨ s₁.now = s.now) := by
  obtain ⟨k, hk⟩ := h.cycles
  induction k generalizing s' with
  | zero => exact ⟨s', hrun, h, .inr (by omega)⟩
  | succ k ih =>
    rcases Nat.lt_or_eq_of_le h.le with hlt | heq
    · cases hstarved : starved cfg s' with
      | true => exact ⟨s', hrun, h, .inl hstarved⟩
      | false =>
        obtain ⟨s₁, hexec, h₁, hnow, hlog⟩ := h.idle_cycle hcfg hlt hstarved
        have hrun₁ := hrun.cycle hstarved hexec
        rw [happened, hlog, Nat.sub_self] at hrun₁
        refine ih h₁ hrun₁ ?_
        rw [hnow, h.period_eq, hk, Nat.succ_mul]
        omega
    · exact ⟨s', hrun, h, .inr heq⟩

end Behind

/-! ### Both timers -/

variable {stream : List (List (DynamicMicroOp Reg))} {history : List (Nat × Event Reg)}
  [DecidableEq Reg]

theorem Run.every_cycle (hcfg : Steady cfg) (hsound : Sound cfg s₀)
    (h : Run cfg (execute cfg) s₀ stream history s) : Sound cfg s ∧
      ∃ s', Run cfg (executeEveryCycle cfg) s₀ stream history s' ∧ Behind cfg s s' := by
  induction h with
  | start => exact ⟨hsound, s₀, .start, .refl s₀⟩
  | @simulate stream history s s₁ h hstarved insts hnew henter ih =>
    obtain ⟨hs, s', hrun, hbehind⟩ := ih
    obtain ⟨s₂, hrun₂, hbehind₂, hstop⟩ := hbehind.catch_up hcfg hrun
    have hstarved₂ : starved cfg s₂ = true :=
      hstop.elim id fun hnow => (hbehind₂.starved_eq hnow).trans hstarved
    obtain ⟨hs₁, s₃, henter₃, hbehind₃⟩ := hbehind₂.enters hs hnew henter
    exact ⟨hs₁, s₃, hrun₂.simulate hstarved₂ hnew henter₃, hbehind₃⟩
  | @cycle stream history s s₁ latency h hstarved hexec ih =>
    obtain ⟨hs, s', hrun, hbehind⟩ := ih
    obtain ⟨s₂, hrun₂, hbehind₂, hstop⟩ := hbehind.catch_up hcfg hrun
    have hnow : s₂.now = s.now := hstop.resolve_left fun hs₂ => by
      rw [hbehind₂.starved_imp hs₂] at hstarved
      cases hstarved
    rw [execute_eq cfg s hstarved] at hexec
    obtain ⟨⟨s₃, t⟩, hcycle, hexec⟩ := of_bind_ok hexec
    obtain ⟨-, hexec₂, hs₁, hbehind₁⟩ := hbehind₂.cycle hcfg hs hnow hstarved hcycle
    cases hexec
    refine ⟨hs₁, _, ?_, hbehind₁⟩
    have hrun₃ := hrun₂.cycle (by rw [hbehind₂.starved_eq hnow, hstarved]) hexec₂
    have hlog : s₂.log = s.log := by rw [hbehind₂.same]; rfl
    rwa [happened, hlog, hnow] at hrun₃

theorem Run.skipping (hcfg : Steady cfg) (hsound : Sound cfg s₀)
    (h : Run cfg (executeEveryCycle cfg) s₀ stream history s') :
    ∃ s, Sound cfg s ∧ Run cfg (execute cfg) s₀ stream history s ∧ Behind cfg s s' := by
  induction h with
  | start => exact ⟨s₀, hsound, .start, .refl s₀⟩
  | @simulate stream history s' s₁' h hstarved insts hnew henter ih =>
    obtain ⟨s, hs, hrun, hbehind⟩ := ih
    rw [hbehind.same, enters_at] at henter
    obtain ⟨s₁, henter₁, -⟩ := of_map_ok henter
    obtain ⟨hs₁, s₂', henter₂, hbehind₁⟩ := hbehind.enters hs hnew henter₁
    rw [hbehind.same, enters_at, henter] at henter₂
    cases henter₂
    exact ⟨s₁, hs₁, hrun.simulate (hbehind.starved_imp hstarved) hnew henter₁, hbehind₁⟩
  | @cycle stream history s' s₁' latency h hstarved hexec ih =>
    obtain ⟨s, hs, hrun, hbehind⟩ := ih
    rcases Nat.lt_or_eq_of_le hbehind.le with hlt | hnow
    · -- the cycle was skipped
      obtain ⟨s₂', hexec₂, hbehind₁, -, hlog⟩ := hbehind.idle_cycle hcfg hlt hstarved
      rw [hexec] at hexec₂
      cases hexec₂
      refine ⟨s, hs, ?_, hbehind₁⟩
      rwa [happened, hlog, Nat.sub_self]
    · have hstarved_s : starved cfg s = false := (hbehind.starved_eq hnow).symm.trans hstarved
      have hexec' := hexec
      rw [executeEveryCycle, if_neg (by rw [hstarved]; exact Bool.false_ne_true)] at hexec'
      obtain ⟨⟨s₁, t⟩, hcycle, -⟩ := of_bind_ok hexec'
      have hcycle' : Rob.cycle cfg s = .ok (s₁, t) := by
        rw [← hcycle, hbehind.same, hnow]
        exact (cycle_contention hbehind.ports).symm
      obtain ⟨hexec₁, hexec₂, hs₁, hbehind₁⟩ :=
        hbehind.cycle hcfg hs hnow hstarved_s hcycle'
      rw [hexec] at hexec₂
      cases hexec₂
      have hrun₁ := hrun.cycle hstarved_s hexec₁
      have hlog : s'.log = s.log := by rw [hbehind.same]; rfl
      refine ⟨_, hs₁, ?_, hbehind₁⟩
      rwa [happened, hlog, hnow]

/-! ### Runs on the grid -/

/-- When the clock or its period is set, what is still to come is whole cycles away. -/
def OnTime (s : RobTimer Reg K M) : Call Reg → Prop
  | .enter _ => True
  | .execute => True
  | .synchronize time => Aligned { s with now := time }
  | .setPeriod period => Aligned { s with period := period }

instance (s : RobTimer Reg K M) (call : Call Reg) : Decidable (OnTime s call) :=
  match call with
  | .enter _ => isTrue trivial
  | .execute => isTrue trivial
  | .synchronize time => inferInstanceAs (Decidable (Aligned { s with now := time }))
  | .setPeriod period => inferInstanceAs (Decidable (Aligned { s with period := period }))

def TimelyStep (cfg : Config Reg K M) (s s' : RobTimer Reg K M) : Prop :=
  ∃ call, Allowed cfg call ∧ OnTime s call ∧ exec cfg s call = .ok s'

omit [DecidableEq Reg] in
theorem Init.aligned (h : Init cfg s) : Aligned s where
  entries e he := by
    rw [h.rob] at he
    cases he
  stalled := by
    rw [h.stalled]
    exact .zero

theorem Aligned.exec (h : Aligned s) {call} (htime : OnTime s call)
    (hs' : Rob.exec cfg s call = .ok s') : Aligned s' := by
  cases call with
  | enter uop => exact h.enter hs'
  | execute =>
    obtain ⟨⟨s₁, latency⟩, hexec, rfl⟩ := of_map_ok hs'
    exact (h.execute hexec).1
  | synchronize time | setPeriod period =>
    cases hs'
    exact htime

theorem Sound.of_reachable (h : Reachable (Init cfg) (TimelyStep cfg) s) :
    Sound cfg s ∧ 0 < cfg.dispatchWidth := by
  refine h.invariant (P := fun s => Sound cfg s ∧ 0 < cfg.dispatchWidth)
    (fun s hs => ⟨⟨hs.aligned, 0, .init hs⟩, hs.widths.1⟩) ?_
  intro s s' ⟨⟨haligned, base, hinv⟩, hwidth⟩ ⟨call, hallowed, htime, hs'⟩
  exact ⟨⟨haligned.exec htime hs', hinv.exec hallowed hs'⟩, hwidth⟩

/-- **Skipping cycles changes nothing** as long as the clock is on time. -/
theorem skipping_exact (hresets : ∀ model ∈ cfg.m_rob_contention, model.Resets)
    (h : Reachable (Init cfg) (TimelyStep cfg) s₀) (stream : List (List (DynamicMicroOp Reg)))
    (history : List (Nat × Event Reg)) :
    (∃ s, Run cfg (execute cfg) s₀ stream history s) ↔
      ∃ s, Run cfg (executeEveryCycle cfg) s₀ stream history s := by
  obtain ⟨hsound, hwidth⟩ := Sound.of_reachable h
  have hcfg : Steady cfg := ⟨hwidth, hresets⟩
  constructor
  · intro ⟨s, hrun⟩
    obtain ⟨-, s', hrun', -⟩ := hrun.every_cycle hcfg hsound
    exact ⟨s', hrun'⟩
  · intro ⟨s', hrun'⟩
    obtain ⟨s, -, hrun, -⟩ := hrun'.skipping hcfg hsound
    exact ⟨s, hrun⟩

/-- The small core, with issue ports. -/
def ported : Config Nat Ports.Nehalem.RobContentionNehalem Unit :=
  { small with m_rob_contention := some (Ports.Nehalem.RobContentionNehalem.model
      Ports.Nehalem.simple) }

def ported.start : RobTimer Nat Ports.Nehalem.RobContentionNehalem Unit :=
  { small.start with contention := Ports.Nehalem.fresh }

theorem ported.init : Init ported ported.start :=
  ⟨rfl, rfl, rfl, rfl, by decide, rfl, rfl, rfl, rfl, fun _ => rfl, rfl, rfl, by decide⟩

def ported.timely (s : RobTimer Nat Ports.Nehalem.RobContentionNehalem Unit) (call : Call Nat) :
    Except Stop (RobTimer Nat Ports.Nehalem.RobContentionNehalem Unit) :=
  if OnTime s call then exec ported s call else .error .assertion

def small.needing : DynamicMicroOp Nat := small.uop .execute [2] [3] false 1

/-- A long micro-op, three that need its result, and some more. -/
def small.long : List (DynamicMicroOp Nat) :=
  [small.uop .execute [1] [2] false 5, small.needing, small.needing, small.needing, small.plain,
    small.plain, small.plain, small.plain]

/-- Nothing else can happen when the clock is set. -/
def small.jump (time : Nat) : List (Call Nat) := small.feed small.long 2 ++ [.synchronize time]

theorem small.jump_allowed (time : Nat) : ∀ call ∈ small.jump time, Allowed small call := by
  intro call hcall
  rcases List.mem_append.mp hcall with hcall | hcall
  · have hlong : ∀ uop ∈ small.long, Allowed small (.enter uop) := by
      simp [small.long, small.plain, small.needing]
    exact small.feed_allowed small.long hlong 2 call hcall
  · rw [List.mem_singleton.mp hcall]
    trivial

theorem skipping_exact_ported :
    ∃ s₀ : RobTimer Nat Ports.Nehalem.RobContentionNehalem Unit,
      s₀.now = 30 ∧ (issues s₀.log).map Issue.seqnr = [0] ∧
      ∀ stream history, (∃ s, Run ported (execute ported) s₀ stream history s) ↔
        ∃ s, Run ported (executeEveryCycle ported) s₀ stream history s := by
  have hrun : ∃ s ∈ ((small.jump 30).foldlM ported.timely ported.start).toOption,
      s.now = 30 ∧ (issues s.log).map Issue.seqnr = [0] := by
    decide +kernel
  obtain ⟨s₀, hs₀, hnow, hissues⟩ := exists_of_toOption hrun
  have hresets : ∀ model ∈ ported.m_rob_contention, model.Resets := by
    intro model hmodel
    cases hmodel
    exact nehalem_resets _
  refine ⟨s₀, hnow, hissues, skipping_exact hresets ?_⟩
  refine Reachable.foldlM (f := ported.timely) (fun call hcall s₁ s₂ hs₂ => ?_)
    (.init ported.init) hs₀
  have hallowed : Allowed ported call := small.jump_allowed 30 call hcall
  rw [ported.timely] at hs₂
  split at hs₂
  case isTrue htime => exact ⟨call, hallowed, htime, hs₂⟩
  case isFalse => cases hs₂

/-! ### Off the grid -/

omit [DecidableEq Reg] in
theorem cycle_period {base t} (hinv : Inv cfg base s) (hperiod : 0 < s.period)
    (h : cycle cfg s = .ok (s', t)) : s'.period = s.period := by
  obtain ⟨⟨s₁, t₁⟩, hdispatch, h⟩ := of_bind_ok h
  obtain ⟨⟨s₂, t₂⟩, hissue, h⟩ := of_bind_ok h
  cases h
  have h₁ := (hinv.doDispatch_dispatching hperiod hdispatch).scan.period
  have h₂ : s₂.period = s₁.period :=
    issueLoop_invariant (s := initCycle cfg s₁) (P := fun s _ => s.period = s₁.period)
      (fun _ _ _ _ h => h) (fun _ _ _ _ h => h) (fun _ _ _ h => h)
      (fun _ _ _ _ _ _ h hs => (issueInstruction_period hs).trans h) rfl hissue
  obtain ⟨rob, num, log, -, heq⟩ := commitLoop_eq cfg s₂ s₂.rob 0
  rw [heq]
  exact h₂.trans h₁

theorem Inv.enters {base : Nat} {insts : List (DynamicMicroOp Reg)} (h : Inv cfg base s)
    (hnew : ∀ uop ∈ insts, Allowed cfg (.enter uop))
    (hs' : insts.foldlM (Rob.enter cfg) s = .ok s') :
    Inv cfg base s' ∧ s'.now = s.now ∧ s'.period = s.period := by
  induction insts generalizing s with
  | nil =>
    cases hs'
    exact ⟨h, rfl, rfl⟩
  | cons uop insts ih =>
    rw [List.foldlM_cons] at hs'
    obtain ⟨s₁, hs₁, hs'⟩ := of_bind_ok hs'
    have hentered := h.entered hs₁
    obtain ⟨h', hnow, hperiod⟩ := ih (h.enter (hnew uop (List.mem_cons_self ..)).1 hs₁)
      (fun uop huop => hnew uop (List.mem_cons_of_mem _ huop)) hs'
    exact ⟨h', hnow.trans hentered.now, hperiod.trans hentered.period⟩

theorem Run.stamps {base} (hinv : Inv cfg base s₀) (hperiod : 0 < s₀.period)
    (h : Run cfg (executeEveryCycle cfg) s₀ stream history s) :
    (∃ base, Inv cfg base s) ∧ s.period = s₀.period ∧ (∃ k, s.now = s₀.now + k * s₀.period) ∧
      ∀ p ∈ history, ∃ k, p.1 = s₀.now + k * s₀.period := by
  induction h with
  | start => exact ⟨⟨base, hinv⟩, rfl, ⟨0, by rw [Nat.zero_mul, Nat.add_zero]⟩, nofun⟩
  | @simulate stream history s s' h hstarved insts hnew henter ih =>
    obtain ⟨⟨base, hinv⟩, hperiod_s, hnow, hhistory⟩ := ih
    obtain ⟨hinv', hnow', hperiod'⟩ := hinv.enters hnew henter
    exact ⟨⟨base, hinv'⟩, hperiod'.trans hperiod_s, hnow' ▸ hnow, hhistory⟩
  | @cycle stream history s s' latency h hstarved hexec ih =>
    obtain ⟨⟨base, hinv⟩, hperiod_s, ⟨k, hk⟩, hhistory⟩ := ih
    rw [executeEveryCycle, if_neg (by rw [hstarved]; exact Bool.false_ne_true)] at hexec
    obtain ⟨⟨s₁, t⟩, hcycle, hexec⟩ := of_bind_ok hexec
    cases hexec
    have hperiod₁ := cycle_period hinv (hperiod_s ▸ hperiod) hcycle
    obtain ⟨base₁, hinv₁⟩ := hinv.cycle.2 s₁ t hcycle
    refine ⟨⟨base₁, hinv₁.congr rfl rfl rfl rfl rfl⟩, hperiod₁.trans hperiod_s, ⟨k + 1, ?_⟩, ?_⟩
    · dsimp only
      rw [(cycle_moves hcycle).now_eq, hperiod₁, hperiod_s, hk, Nat.succ_mul, Nat.add_assoc]
    · intro p hp
      rcases List.mem_append.mp hp with hp | hp
      · obtain ⟨event, -, rfl⟩ := List.mem_map.mp hp
        exact ⟨k, hk⟩
      · exact hhistory p hp

/-- The clock is set to the middle of a cycle while a micro-op waits for a result: with skipping
it issues as soon as the result is there, and without it later. -/
theorem skipping_inexact : ∃ s₀, Reachable (Init small) (Step small) s₀ ∧
    (∃ history s, Run small (execute small) s₀ [] history s ∧ ∃ event, (60, event) ∈ history) ∧
    ∀ stream history s, Run small (executeEveryCycle small) s₀ stream history s →
      ∀ event, (60, event) ∉ history := by
  have hrun : ∃ s₀ ∈ (small.run (small.jump 25)).toOption,
      (s₀.now = 25 ∧ s₀.period = 10 ∧ starved small s₀ = false) ∧
      ∃ p ∈ (execute small s₀).toOption, starved small p.1 = false ∧
      ∃ q ∈ (execute small p.1).toOption, 60 ∈ (happened p.1 q.1).map Prod.fst := by
    decide +kernel
  obtain ⟨s₀, hs₀, ⟨hnow, hperiod, hstarved⟩, hrun⟩ := exists_of_toOption hrun
  obtain ⟨⟨s₁, latency₁⟩, hs₁, hstarved₁, hrun⟩ := exists_of_toOption hrun
  obtain ⟨⟨s₂, latency₂⟩, hs₂, hmem⟩ := exists_of_toOption hrun
  obtain ⟨⟨time, event⟩, hevent, rfl⟩ := List.mem_map.mp hmem
  have hreachable : Reachable (Init small) (Step small) s₀ :=
    small.reachable (small.jump_allowed 25) hs₀
  refine ⟨s₀, hreachable, ⟨_, s₂, (Run.start.cycle hstarved hs₁).cycle hstarved₁ hs₂, event,
    List.mem_append_left _ hevent⟩, fun stream history s h event hmem => ?_⟩
  obtain ⟨base, hinv⟩ := Inv.of_reachable hreachable
  obtain ⟨k, hk⟩ := (h.stamps hinv (by omega)).2.2.2 _ hmem
  rw [hnow, hperiod] at hk
  dsimp only at hk
  omega

end Sniper.Timing.Rob
