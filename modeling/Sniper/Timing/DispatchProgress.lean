import Sniper.Timing.DispatchTotal

/-! # Dispatching makes progress

While the window is full, the dispatch rate grows by what remains of it until a micro-op is
dispatched: the critical path is at most as long as the contributions of the old window, so some
of the rate always remains.
-/
namespace Sniper.Timing.Interval
open Lib Lib.Simulation Relation

variable {Reg C : Type} {cfg : IntervalConfig Reg C}

namespace Windows
variable {ws ws' : Windows Reg C} {cutoff : Nat}

theorem entries_sum_le (n bound : Nat) (h : ∀ e ∈ ws.entries n, e.cpContr ≤ bound) :
    ((ws.entries n).map WindowEntry.cpContr).sum ≤ n * bound := by
  have hle := List.sum_le_card_nsmul ((ws.entries n).map WindowEntry.cpContr) bound (by
    intro x hx
    obtain ⟨e, he, rfl⟩ := List.mem_map.mp hx
    exact h e he)
  have hlength : ((ws.entries n).map WindowEntry.cpContr).length = n := by
    unfold entries
    rw [List.length_map, List.length_map, List.length_range]
  rw [hlength] at hle
  exact hle

theorem Accounted.length (h : Accounted cutoff 0 ws) :
    ws.m_critical_path_tail = ws.m_critical_path_head + ws.m_cpcontr_total ∧
      ws.m_cpcontr_total ≤ ws.m_old_window_length * (cutoff - 1) := by
  refine ⟨?_, ?_⟩
  · rw [h.total]
    exact h.path.sum
  · rw [h.total]
    exact entries_sum_le _ _ h.small

theorem Accounted.getCriticalPathLength (h : Accounted cutoff 0 ws) :
    ws.getCriticalPathLength = Int.bmod ws.m_cpcontr_total 4294967296 := by
  obtain ⟨hlength, -⟩ := h.length
  unfold Windows.getCriticalPathLength
  rw [if_pos (by omega), hlength]
  congr 1
  omega

theorem Accounted.bytype_le (h : Accounted cutoff 0 ws) (type : CpContrType) :
    ws.m_cpcontr_bytype type ≤ ws.m_cpcontr_total := by
  rw [h.bytype, h.total]
  exact sumBy_le _ _

end Windows

namespace IntervalTimer
open Windows
variable {t t' : IntervalTimer Reg C} {ws : Windows Reg C}

/-! ### The shares of the types -/

theorem addFractions_total (length : Nat) (types : List CpContrType)
    (hle : ∀ type, t.m_windows.m_cpcontr_bytype type ≤ t.m_windows.m_cpcontr_total)
    (hlength : 0 < t.m_windows.m_cpcontr_total → length ≠ 0) :
    ∃ t', addFractions length types t = .ok t' := by
  induction types generalizing t with
  | nil => exact ⟨t, rfl⟩
  | cons type rest ih =>
    have hfraction : ∃ n, t.m_windows.getCpContrFraction type length = .ok n := by
      unfold getCpContrFraction
      rw [if_neg (not_not.mpr (hle type))]
      split
      · next hpos =>
        rw [if_neg (hlength hpos)]
        exact ⟨_, rfl⟩
      · exact ⟨0, rfl⟩
    obtain ⟨n, hn⟩ := hfraction
    exact exists_bind_ok hn (ih hle hlength)

/-- A length that has been cut to an `int` twice is zero when its lower 32 bits are. -/
theorem bmod_eq_zero {n : Nat} :
    ((Int.bmod (Int.bmod n 4294967296 % 18446744073709551616).toNat 4294967296) %
      18446744073709551616).toNat = 0 ↔ 4294967296 ∣ n := by
  have hcut : ∀ m : Int, 0 ≤ m % 4294967296 ∧ (Int.bmod m 4294967296 = m % 4294967296 ∧
        m % 4294967296 < 2147483648 ∨
      Int.bmod m 4294967296 = m % 4294967296 - 4294967296 ∧ 2147483648 ≤ m % 4294967296) := by
    intro m
    refine ⟨Int.emod_nonneg _ (by decide), ?_⟩
    rw [Int.bmod_def]
    split
    · next hlt => exact .inl ⟨rfl, hlt⟩
    · next hge => exact .inr ⟨rfl, Int.le_of_not_gt hge⟩
  have hfirst := hcut n
  generalize Int.bmod n 4294967296 = a at hfirst ⊢
  have hsecond := hcut (a % 18446744073709551616).toNat
  omega

theorem bmod_toNat_le {n : Nat} (hpos : 0 < Int.bmod n 4294967296) :
    0 < (Int.bmod n 4294967296).toNat ∧ (Int.bmod n 4294967296).toNat ≤ n := by
  have hle : Int.bmod n 4294967296 ≤ (n : Int) % 4294967296 := by
    rw [Int.bmod_def]
    split
    · exact Int.le_refl _
    · exact Int.sub_le_self _ (by decide)
  omega

theorem effective_off (hcontention : cfg.m_do_functional_unit_contention = false)
    (ws : Windows Reg C) (length : Nat) (reason : Bool) :
    getEffectiveCriticalPathLength cfg ws length reason = (length, ws) := by
  unfold getEffectiveCriticalPathLength
  rw [hcontention]
  rfl

theorem fractionLength_off (hcontention : cfg.m_do_functional_unit_contention = false)
    (t : IntervalTimer Reg C) : fractionLength cfg t =
      (((Int.bmod (t.m_windows.getCriticalPathLength % 18446744073709551616).toNat 4294967296) %
        18446744073709551616).toNat, t) := by
  unfold fractionLength
  simp only [effective_off hcontention, Int.reducePow, Nat.reducePow]

theorem fractionLength_eq_zero {cutoff : Nat} (h : Accounted cutoff 0 t.m_windows)
    (hcontention : cfg.m_do_functional_unit_contention = false) :
    (fractionLength cfg t).1 = 0 ↔ 4294967296 ∣ t.m_windows.m_cpcontr_total := by
  rw [← bmod_eq_zero, ← h.getCriticalPathLength, fractionLength_off hcontention]

/-! ### The dispatch rate -/

/-- A micro-op of the old window counts for at least one part of the fixed-point one, so a share
remains of a rate that is too small. -/
theorem rate_progress {n length cutoff} (remaining : Nat) (hpos : 0 < length)
    (hlength : length ≤ n * (cutoff - 1)) (hcutoff : cutoff ≤ fixedOne) :
    0 < (n * fixedOne / length + remaining) / fixedOne ∨
      (n * fixedOne / length + remaining) / fixedOne = 0 ∧
        remaining + 1 ≤ n * fixedOne / length + remaining ∧ remaining + 1 < fixedOne := by
  have hone : 1 ≤ n * fixedOne / length := by
    rw [Nat.le_div_iff_mul_le hpos, Nat.one_mul]
    calc length ≤ n * (cutoff - 1) := hlength
      _ ≤ n * fixedOne := Nat.mul_le_mul_left _ (by omega)
  generalize n * fixedOne / length = share at hone ⊢
  by_cases hrate : 0 < (share + remaining) / fixedOne
  · exact .inl hrate
  · have hzero := Nat.eq_zero_of_not_pos hrate
    refine .inr ⟨hzero, ?_⟩
    rw [Nat.div_eq_zero_iff] at hzero
    unfold fixedOne at hzero ⊢
    omega

theorem calculateCurrentDispatchRate_progress
    (h : Accounted cfg.longLatencyCutoff 0 t.m_windows)
    (hcontention : cfg.m_do_functional_unit_contention = false)
    (hwidth : 0 < cfg.m_dispatch_width) (hcutoff : cfg.longLatencyCutoff ≤ fixedOne) :
    ∃ rate rest, calculateCurrentDispatchRate cfg t =
        (rate, { t with m_remaining_dispatch_bandwidth := rest }) ∧
      (0 < rate ∨ t.m_remaining_dispatch_bandwidth + 1 ≤ rest ∧
        t.m_remaining_dispatch_bandwidth + 1 < fixedOne) := by
  obtain ⟨-, hbound⟩ := h.length
  unfold calculateCurrentDispatchRate
  dsimp only
  rw [effective_off hcontention, h.getCriticalPathLength]
  split
  · next hpos =>
    obtain ⟨hcut, hle⟩ := bmod_toNat_le hpos
    generalize (Int.bmod t.m_windows.m_cpcontr_total 4294967296).toNat = length at hcut hle ⊢
    refine ⟨_, _, rfl, ?_⟩
    rcases rate_progress t.m_remaining_dispatch_bandwidth hcut (hle.trans hbound) hcutoff with
      hrate | ⟨hzero, hmore, hsmall⟩
    · exact .inl hrate
    · refine .inr ⟨?_, hsmall⟩
      rw [if_pos (hzero ▸ hwidth), hzero, Nat.zero_mul, Nat.sub_zero]
      exact hmore
  · exact ⟨_, _, rfl, .inl hwidth⟩

/-! ### Dispatching the window -/

theorem dispatch_total (h : Accounted cfg.longLatencyCutoff 0 t.m_windows)
    (hne : 0 < t.m_windows.m_window_length) (hstarted : Started t.m_windows) :
    ∃ charged reason t₁ ws uop, dispatchInstruction cfg t = .ok (charged, reason, t₁) ∧
      t₁.m_windows.dispatchInstruction cfg.contention = .ok ws ∧
      (ws.getInstructionByIndex t.m_windows.m_window_head__old_window_tail).getDynMicroOp =
        .ok uop ∧
      Accounted cfg.longLatencyCutoff 0 ws ∧ Started ws ∧
      ws.m_window_length + 1 = t.m_windows.m_window_length := by
  obtain ⟨⟨charged, reason, t₁⟩, hdispatch⟩ :=
    dispatchInstruction_total cfg ⟨h.ring, hne, hstarted⟩
  obtain ⟨h₁, hne₁⟩ := accounted_dispatchInstruction h hne hdispatch
  obtain ⟨ws, hold⟩ := h₁.ring.dispatchInstruction_total hne₁ cfg.contention
  have hws := h₁.dispatch hne₁ hold
  obtain ⟨producers, missed, executed, ws₂, -, -, hrestart, hexecuted⟩ :=
    dispatchInstruction_ok hdispatch
  have hhead : t₁.m_windows.m_window_head__old_window_tail =
      t.m_windows.m_window_head__old_window_tail :=
    hexecuted.window.1.trans hrestart.window.1
  have hlength : t₁.m_windows.m_window_length = t.m_windows.m_window_length :=
    hexecuted.window.2.trans hrestart.window.2
  have hnumber := h₁.ring.numberAt_head hne₁
  obtain ⟨ws₃, uop', hretire, -, heq⟩ := Windows.dispatchInstruction_ok hold
  have hentries : ws.m_double_window = t₁.m_windows.m_double_window ∧
      ws.m_window_length = t₁.m_windows.m_window_length - 1 ∧ 0 < ws.m_old_window_length := by
    rw [heq]
    split at hretire
    · obtain ⟨oldest, -, rfl⟩ := retire_ok hretire
      exact ⟨rfl, rfl, Nat.succ_pos _⟩
    · rw [hretire]
      exact ⟨rfl, rfl, Nat.succ_pos _⟩
  have hsame : ws.numberAt = t₁.m_windows.numberAt := by
    unfold numberAt
    rw [hentries.1]
  rw [← hsame, hhead] at hnumber
  obtain ⟨uop, -, huop⟩ := getDynMicroOp_of_numberAt hnumber
  have htotal := hws.ring.total
  refine ⟨charged, reason, t₁, ws, uop, hdispatch, hold, huop, hws, .inl (by omega), ?_⟩
  omega

theorem dispatchLoop_total (rate n instructions micro_ops latency : Nat)
    (reason : StopDispatchReason) (h : Accounted cfg.longLatencyCutoff 0 t.m_windows)
    (hstarted : Started t.m_windows) :
    ∃ r, dispatchLoop cfg rate n instructions micro_ops latency reason t = .ok r ∧
      r.2.2.2.m_windows.m_window_length ≤ t.m_windows.m_window_length := by
  induction n generalizing instructions micro_ops latency reason t with
  | zero => exact ⟨_, rfl, Nat.le_refl _⟩
  | succ n ih =>
    rw [dispatchLoop]
    split
    · next hgo =>
      have hne : 0 < t.m_windows.m_window_length := by
        simp only [Bool.and_eq_true, Bool.not_eq_true', wIsEmpty, decide_eq_false_iff_not] at hgo
        exact Nat.pos_of_ne_zero hgo.1.1.1
      obtain ⟨charged, reason', t₁, ws, uop, hdispatch, hold, huop, hws, hstarted', hlength⟩ :=
        dispatch_total h hne hstarted
      obtain ⟨r, hr, hle⟩ := ih (if uop.last then instructions + 1 else instructions)
        (micro_ops + 1) (latency + charged) reason' (t := { t₁ with m_windows := ws }) hws hstarted'
      refine ⟨r, ?_, ?_⟩
      · rw [hdispatch]
        simp only [bind, Except.bind, hold, huop]
        exact hr
      · have hle : r.2.2.2.m_windows.m_window_length ≤ ws.m_window_length := hle
        omega
    · exact ⟨_, rfl, Nat.le_refl _⟩

theorem dispatchLoop_progress {rate} (h : Accounted cfg.longLatencyCutoff 0 t.m_windows)
    (hstarted : Started t.m_windows) (hrate : 0 < rate) (hwidth : 0 < cfg.m_dispatch_width)
    (hne : 0 < t.m_windows.m_window_length) :
    ∃ r, dispatchLoop cfg rate t.m_windows.m_window_length 0 0 0 .STOP_DISPATCH_NO_REASON t =
        .ok r ∧ r.2.2.2.m_windows.m_window_length < t.m_windows.m_window_length := by
  obtain ⟨n, hn⟩ : ∃ n, t.m_windows.m_window_length = n + 1 :=
    ⟨t.m_windows.m_window_length - 1, by omega⟩
  obtain ⟨charged, reason', t₁, ws, uop, hdispatch, hold, huop, hws, hstarted', hlength⟩ :=
    dispatch_total h hne hstarted
  obtain ⟨r, hr, hle⟩ := dispatchLoop_total rate n (if uop.last then 0 + 1 else 0) (0 + 1)
    (0 + charged) reason' (t := { t₁ with m_windows := ws }) hws hstarted'
  refine ⟨r, ?_, ?_⟩
  · have hgo : (!t.m_windows.wIsEmpty && 0 < cfg.m_dispatch_width && 0 < rate &&
        StopDispatchReason.STOP_DISPATCH_NO_REASON = .STOP_DISPATCH_NO_REASON) = true := by
      simp [wIsEmpty, hn, hwidth, hrate]
    rw [hn, dispatchLoop, if_pos hgo, hdispatch]
    simp only [bind, Except.bind, hold, huop]
    exact hr
  · have hle : r.2.2.2.m_windows.m_window_length ≤ ws.m_window_length := hle
    omega

/-- A core without functional-unit contention, with the cut-off within the fixed-point one. -/
structure Tame (cfg : IntervalConfig Reg C) : Prop where
  width : 0 < cfg.m_dispatch_width
  contention : cfg.m_do_functional_unit_contention = false
  cutoff : cfg.longLatencyCutoff ≤ fixedOne

/-- The path is not empty, and an `int` takes its length for zero. -/
def Vanishes (ws : Windows Reg C) : Prop :=
  0 < ws.m_cpcontr_total ∧ 4294967296 ∣ ws.m_cpcontr_total

theorem account_returns (htame : Tame cfg) (h : Accounted cfg.longLatencyCutoff 0 t.m_windows)
    (hvanishes : ¬ Vanishes t.m_windows) :
    ∃ t', addFractions (fractionLength cfg t).1 CpContrType.all (fractionLength cfg t).2 = .ok t' ∧
      t'.m_windows = t.m_windows ∧
        t'.m_remaining_dispatch_bandwidth = t.m_remaining_dispatch_bandwidth := by
  have hzero := fractionLength_eq_zero h htame.contention
  have htimer : (fractionLength cfg t).2 = t := by rw [fractionLength_off htame.contention]
  rw [htimer]
  obtain ⟨t', ht'⟩ := addFractions_total (fractionLength cfg t).1 CpContrType.all
    h.bytype_le (fun hpos hlength => hvanishes ⟨hpos, hzero.mp hlength⟩)
  obtain ⟨counts, rfl⟩ := addFractions_ok ht'
  exact ⟨_, ht', rfl, rfl⟩

theorem account_fails (htame : Tame cfg) (h : Accounted cfg.longLatencyCutoff 0 t.m_windows)
    (hvanishes : Vanishes t.m_windows) :
    addFractions (fractionLength cfg t).1 CpContrType.all (fractionLength cfg t).2 =
      .error .divideByZero := by
  have htimer : (fractionLength cfg t).2 = t := by rw [fractionLength_off htame.contention]
  obtain ⟨hpos, hdvd⟩ := hvanishes
  rw [htimer, (fractionLength_eq_zero h htame.contention).mpr hdvd]
  unfold CpContrType.all
  rw [addFractions]
  unfold getCpContrFraction
  rw [if_neg (not_not.mpr (h.bytype_le _)), if_pos hpos, if_pos rfl]
  rfl

theorem dispatchWindow_of_loop {rate instructions micro_ops latency} (htame : Tame cfg) {t₀ t₁}
    (hrate : calculateCurrentDispatchRate cfg t = (rate, t₀))
    (hloop : dispatchLoop cfg rate t₀.m_windows.m_window_length 0 0 0 .STOP_DISPATCH_NO_REASON t₀ =
      .ok (instructions, micro_ops, latency, t₁))
    (h : Accounted cfg.longLatencyCutoff 0 t₁.m_windows) :
    (∃ r, dispatchWindow cfg t = .ok r ∧ r.2.2.m_windows = t₁.m_windows ∧
        r.2.2.m_remaining_dispatch_bandwidth = t₁.m_remaining_dispatch_bandwidth) ∨
      Vanishes t₁.m_windows ∧ dispatchWindow cfg t = .error .divideByZero := by
  unfold dispatchWindow
  rw [hrate]
  dsimp only
  rw [hloop]
  simp only [bind, Except.bind]
  split
  · split
    · by_cases hvanishes : Vanishes t₁.m_windows
      · rw [account_fails htame h hvanishes]
        exact .inr ⟨hvanishes, rfl⟩
      · obtain ⟨t', ht', hwindows, hrest⟩ := account_returns htame h hvanishes
        rw [ht']
        exact .inl ⟨_, rfl, hwindows, hrest⟩
    · exact .inl ⟨_, rfl, rfl, rfl⟩
  · exact .inl ⟨_, rfl, rfl, rfl⟩

theorem dispatchWindow_progress [DecidableEq Reg] {w} (htame : Tame cfg)
    (h : Accounted cfg.longLatencyCutoff 0 t.m_windows) (hsize : t.m_windows.m_window_size = w)
    (hstarted : Started t.m_windows) (hfull : t.m_windows.m_window_length = w) :
    (∃ r, dispatchWindow cfg t = .ok r ∧ r.2.2.m_windows.m_window_size = w ∧
      (r.2.2.m_windows.m_window_length < w ∨
        r.2.2.m_windows = t.m_windows ∧
        t.m_remaining_dispatch_bandwidth + 1 ≤ r.2.2.m_remaining_dispatch_bandwidth ∧
        t.m_remaining_dispatch_bandwidth + 1 < fixedOne)) ∨
      dispatchWindow cfg t = .error .divideByZero ∧
        ∃ t', ReflTransGen (TimerStep cfg) t t' ∧ Vanishes t'.m_windows := by
  have hpos := h.ring.size
  obtain ⟨rate, rest, hrate, hprogress⟩ := calculateCurrentDispatchRate_progress h
    htame.contention htame.width htame.cutoff
  have hne : 0 < t.m_windows.m_window_length := by omega
  have hrated : TimerStep cfg t { t with m_remaining_dispatch_bandwidth := rest } := by
    have hstep : TimerStep cfg t (calculateCurrentDispatchRate cfg t).2 := .rate t
    rw [hrate] at hstep
    exact hstep
  by_cases hzero : 0 < rate
  · obtain ⟨⟨instructions, micro_ops, latency, t₁⟩, hloop, hless⟩ :=
      dispatchLoop_progress (t := { t with m_remaining_dispatch_bandwidth := rest }) h hstarted
        hzero htame.width hne
    have hsteps := dispatchLoop_steps hloop
    have h₁ := accounted_steps (t := { t with m_remaining_dispatch_bandwidth := rest }) h hsteps
    have hsize₁ : t₁.m_windows.m_window_size = w := (moves_size (steps_moves hsteps)).trans hsize
    rcases dispatchWindow_of_loop htame hrate hloop h₁ with
      ⟨r, hr, hwindows, -⟩ | ⟨hvanishes, herror⟩
    · refine .inl ⟨r, hr, ?_, .inl ?_⟩
      · rw [hwindows]
        exact hsize₁
      · rw [hwindows, ← hfull]
        exact hless
    · exact .inr ⟨herror, t₁, .head hrated hsteps, hvanishes⟩
  · have hnone : rate = 0 := by omega
    have hloop : dispatchLoop cfg rate t.m_windows.m_window_length 0 0 0 .STOP_DISPATCH_NO_REASON
        { t with m_remaining_dispatch_bandwidth := rest } =
        .ok (0, 0, 0, { t with m_remaining_dispatch_bandwidth := rest }) := by
      cases t.m_windows.m_window_length with
      | zero => rfl
      | succ n =>
        rw [dispatchLoop, if_neg]
        simp [hnone]
    rcases dispatchWindow_of_loop htame hrate hloop h with
      ⟨r, hr, hwindows, hrest⟩ | ⟨hvanishes, herror⟩
    · refine .inl ⟨r, hr, ?_, .inr ⟨hwindows, ?_⟩⟩
      · rw [hwindows]
        exact hsize
      · rw [hrest]
        exact hprogress.resolve_left hzero
    · exact .inr ⟨herror, _, .single hrated, hvanishes⟩

/-- How the loop over a full window ends: it returns, or divides by the length of a path that
has vanished on its way. -/
def Ends (cfg : IntervalConfig Reg C) (t : IntervalTimer Reg C) [DecidableEq Reg]
    (x : Except Halt (Nat × Nat × IntervalTimer Reg C)) : Prop :=
  (∃ r, x = .ok r) ∨ x = .error .divideByZero ∧
    ∃ t', ReflTransGen (TimerStep cfg) t t' ∧ Vanishes t'.m_windows

theorem drain_round [DecidableEq Reg] {w} (htame : Tame cfg)
    (h : Accounted cfg.longLatencyCutoff 0 t.m_windows) (hsize : t.m_windows.m_window_size = w)
    (hstarted : Started t.m_windows) (n : Nat)
    (hmore : ∀ t' instructions latency, t'.m_windows = t.m_windows →
      t.m_remaining_dispatch_bandwidth + 1 ≤ t'.m_remaining_dispatch_bandwidth →
      t.m_remaining_dispatch_bandwidth + 1 < fixedOne →
        Ends cfg t' (drain cfg (n + 1) instructions latency t')) (instructions latency : Nat) :
    Ends cfg t (drain cfg (n + 2) instructions latency t) := by
  rw [drain]
  split
  · next hfull =>
    have hfull : t.m_windows.m_window_length = w := hsize ▸ of_decide_eq_true hfull
    rcases dispatchWindow_progress htame h hsize hstarted hfull with
      ⟨⟨executed, l, t'⟩, hr, hsize', hprogress⟩ | ⟨herror, hvanishes⟩
    · dsimp only at hsize' hprogress
      have hsteps : ReflTransGen (TimerStep cfg) t t' := dispatchWindow_steps hr
      rw [hr]
      simp only [bind, Except.bind]
      rcases hprogress with hless | ⟨hwindows, hrest, hsmall⟩
      · rw [drain, if_neg]
        · exact .inl ⟨_, rfl⟩
        · unfold wIsFull
          rw [decide_eq_true_iff, hsize']
          omega
      · rcases hmore t' _ _ hwindows hrest hsmall with hr' | ⟨herror, t₁, hsteps₁, hvanishes⟩
        · exact .inl hr'
        · exact .inr ⟨herror, t₁, hsteps.trans hsteps₁, hvanishes⟩
    · rw [herror]
      exact .inr ⟨rfl, hvanishes⟩
  · exact .inl ⟨_, rfl⟩

theorem drain_ends [DecidableEq Reg] {w} (htame : Tame cfg) (missing : Nat)
    (h : Accounted cfg.longLatencyCutoff 0 t.m_windows) (hsize : t.m_windows.m_window_size = w)
    (hstarted : Started t.m_windows)
    (hmissing : fixedOne ≤ t.m_remaining_dispatch_bandwidth + missing)
    (extra instructions latency : Nat) :
    Ends cfg t (drain cfg (extra + missing + 2) instructions latency t) := by
  induction missing generalizing t instructions latency with
  | zero =>
    refine drain_round htame h hsize hstarted extra ?_ _ _
    intro t' _ _ _ _ hsmall
    omega
  | succ missing ih =>
    refine drain_round htame h hsize hstarted (extra + missing + 1) ?_ _ _
    intro t' instructions' latency' hwindows hrest _
    refine ih ?_ ?_ ?_ (by omega) _ _
    · rw [hwindows]
      exact h
    · rw [hwindows]
      exact hsize
    · rw [hwindows]
      exact hstarted

end IntervalTimer
end Sniper.Timing.Interval
