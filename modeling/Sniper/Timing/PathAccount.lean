import Sniper.Timing.CriticalPath

/-! # The account is kept

Every step of the timer keeps the account of the critical path: restarts empty the old window and
the statistics with it, a micro-op that is executed extends the path by what it contributes, and
one that leaves the old window takes its contribution out of the path at the other end.
-/
namespace Sniper.Timing.Interval
open Lib Lib.Simulation Relation Windows Function

variable {Reg C : Type} {cfg : IntervalConfig Reg C}

namespace IntervalTimer
variable {ws ws' : Windows Reg C} {cutoff : Nat} {t t' : IntervalTimer Reg C}

/-! ### Executing the head of the window -/

theorem issueMemOpAt_modify (index : Nat) (ws : Windows Reg C) :
    prepared cfg index ws = ws.modify index fun e =>
      { e with uop := e.uop.map (issueMemOp cfg), cptail := ws.m_critical_path_tail } := by
  unfold prepared issueMemOpAt Windows.modify
  dsimp only
  rw [update_idem, update_self]

theorem accounted_prepared (h : Accounted cutoff 0 ws) (hne : 0 < ws.m_window_length) :
    Accounted cutoff 0 (prepared cfg ws.m_window_head__old_window_tail ws) := by
  obtain ⟨hhead, hlast⟩ := h.ring.oldNumber_add
  obtain ⟨hcpContr, hexecTime⟩ := h.waiting ws.headNumber (Nat.le_refl _) (by omega)
  rw [issueMemOpAt_modify]
  exact h.modify_head hne (fun e => map_issueMemOp e.uop) hcpContr hexecTime

theorem accounted_restart {missed} (h : Accounted cutoff 0 ws) (hne : 0 < ws.m_window_length)
    (hrestart : Restart cfg.contention ws missed ws') :
    Accounted cutoff 0 ws' := by
  cases hrestart with
  | none => exact h
  | some moved hmoved marks c =>
    have hclear : Accounted cutoff 0
        (ws.clearOldWindow cfg.contention (ws.m_critical_path_tail + moved)) := by
      refine h.ring.accounted_clear cfg.contention cutoff hne ?_
      intro s hs hnext
      obtain ⟨hcpContr, hexecTime⟩ := h.waiting s hs hnext
      exact ⟨hcpContr, hexecTime.trans (Nat.le_add_right _ _)⟩
    exact ⟨hclear.ring.congr ⟨rfl, rfl, rfl, rfl, rfl, rfl⟩ (Nat.le_refl _) hclear.ring.oldHead
      hclear.ring.started, hclear.path, hclear.total, hclear.bytype, hclear.small, hclear.waiting⟩

theorem accounted_setExecTime_clear {time newCpHead} (h : Accounted cutoff 0 ws)
    (hne : 0 < ws.m_window_length) (htime : time ≤ newCpHead)
    (htail : ws.m_critical_path_tail ≤ newCpHead) :
    Accounted cutoff 0 ((setExecTime ws.m_window_head__old_window_tail time ws).clearOldWindow
      cfg.contention newCpHead) := by
  obtain ⟨hhead, hlast⟩ := h.ring.oldNumber_add
  have hring : Ring (setExecTime ws.m_window_head__old_window_tail time ws) :=
    h.ring.congr ⟨rfl, funext (numberAt_modify rfl), rfl, rfl, rfl, rfl⟩ (Nat.le_refl _)
      h.ring.oldHead h.ring.started
  refine hring.accounted_clear cfg.contention cutoff hne ?_
  intro s hs hnext
  have hs : ws.headNumber ≤ s := hs
  obtain ⟨hcpContr, hexecTime⟩ := h.waiting s hs hnext
  unfold setExecTime
  by_cases heq : s = ws.headNumber
  · rw [heq] at hcpContr ⊢
    rw [h.ring.entryOf_modify_head]
    exact ⟨hcpContr, htime⟩
  · rw [h.ring.entryOf_modify_head_of_ne hne _ (by omega) hnext heq]
    exact ⟨hcpContr, hexecTime.trans htail⟩

theorem accounted_settle (time : Nat) (h : Accounted cfg.longLatencyCutoff 0 ws)
    (hne : 0 < ws.m_window_length) : Accounted cfg.longLatencyCutoff 1
      (updateCriticalPath cfg ws.m_window_head__old_window_tail
        (setExecTime ws.m_window_head__old_window_tail time ws)).2 := by
  obtain ⟨hhead, hlast⟩ := h.ring.oldNumber_add
  obtain ⟨hcpContr, hexecTime⟩ := h.waiting ws.headNumber (Nat.le_refl _) (by omega)
  have htime : ((setExecTime ws.m_window_head__old_window_tail time ws).getInstructionByIndex
      ws.m_window_head__old_window_tail).execTime = time :=
    congrArg WindowEntry.execTime (modify_self ..)
  have htail : (setExecTime ws.m_window_head__old_window_tail time ws).m_critical_path_tail =
      ws.m_critical_path_tail := rfl
  have hzero := longLatencyOperationLatency_eq_zero
    (setExecTime ws.m_window_head__old_window_tail time ws) cfg.longLatencyCutoff
    ((setExecTime ws.m_window_head__old_window_tail time ws).getInstructionByIndex
      ws.m_window_head__old_window_tail)
  rw [htime, htail] at hzero
  unfold updateCriticalPath
  dsimp only
  rw [htime]
  split
  · next hshort =>
    replace hshort := hzero.mp hshort
    unfold updateCriticalPathTail
    dsimp only
    rw [htime, htail]
    split
    · next hgt =>
      have hmodify : (setExecTime ws.m_window_head__old_window_tail time ws).modify
          ws.m_window_head__old_window_tail
            (fun e => { e with cpContr := time - ws.m_critical_path_tail }) =
          ws.modify ws.m_window_head__old_window_tail (fun e =>
            { e with execTime := time, cpContr := time - ws.m_critical_path_tail }) := by
        unfold setExecTime Windows.modify
        dsimp only
        rw [update_idem, update_self]
      have hsmall : time - ws.m_critical_path_tail ≤ cfg.longLatencyCutoff - 1 := by omega
      rw [hmodify]
      exact h.extend hne hgt hsmall (fun e => rfl) rfl rfl
    · next hle =>
      have hkept := h.modify_head (f := fun e => { e with execTime := time }) hne (fun e => rfl)
        hcpContr (Nat.le_of_not_lt hle)
      exact hkept.settle hne
  · next hlong =>
    have hreach : ws.m_critical_path_tail ≤ time := by
      by_contra hlt
      exact hlong (hzero.mpr (.inl (Nat.lt_of_not_le hlt)))
    exact (accounted_setExecTime_clear h hne (Nat.le_refl _) hreach).settle hne

theorem accounted_marked (h : Accounted cutoff 0 ws) (hmarked : Marked ws.getWindowIterator ws ws')
    : Accounted cutoff 0 ws' := by
  obtain ⟨hhead, hlast⟩ := h.ring.oldNumber_add
  have hslot : ws'.slotOf = ws.slotOf := by
    rw [hmarked.rest]
    rfl
  have hentry : ∀ s, ws'.entryOf s = ws'.m_double_window (ws.slotOf s) := by
    intro s
    unfold entryOf
    rw [hslot]
  refine h.touch hmarked.rest hmarked.number ?_ ?_
  · intro s hs hlt
    rw [hentry]
    refine hmarked.outside _ ?_
    intro hmem
    obtain ⟨s', hs', hnext, heq⟩ := h.ring.mem_getWindowIterator hmem
    have := h.ring.slotOf_inj hs (by omega) (by omega) hnext heq
    omega
  · intro s hs hnext
    obtain ⟨hcpContr, hexecTime⟩ := h.waiting s hs hnext
    rw [hentry]
    refine ⟨(hmarked.cpContr _).trans hcpContr, ?_⟩
    rcases hmarked.execTime (ws.slotOf s) with heq | heq
    · rw [heq]
      exact hexecTime
    · have hsum := h.path.sum
      omega

theorem accounted_executed {time executed} (h : Accounted cfg.longLatencyCutoff 0 ws)
    (hne : 0 < ws.m_window_length)
    (hexecuted : Executed cfg ws.m_window_head__old_window_tail ws time executed ws') :
    Accounted cfg.longLatencyCutoff 1 ws' := by
  cases hexecuted with
  | settle time => exact accounted_settle time h hne
  | overlap => exact h.settle hne
  | flush =>
    exact (accounted_setExecTime_clear h hne (Nat.le_refl _) (Nat.le_refl _)).settle hne
  | load executed hblock =>
    have hclear : Accounted cfg.longLatencyCutoff 0
        ((setExecTime ws.m_window_head__old_window_tail ws.m_critical_path_tail ws).clearOldWindow
          cfg.contention (ws.m_critical_path_tail + executed)) :=
      accounted_setExecTime_clear h hne (Nat.le_add_right _ _) (Nat.le_add_right _ _)
    have hmarked := blockWindow_ok hblock
    exact (accounted_marked hclear hmarked).settle (hmarked.rest ▸ hne)

end IntervalTimer

/-! ### Moving to the old window -/

namespace Windows
variable {ws ws' : Windows Reg C} {cutoff : Nat}

theorem sub64_add_left (a b : Nat) : sub64 (a + b) a = b := by
  unfold sub64
  rw [if_pos (Nat.le_add_right a b), Nat.add_sub_cancel_left]

theorem typeOf_eq {e : WindowEntry Reg} {uop} (h : e.uop = some uop) :
    typeOf e = some (getCpContrType uop) := by
  unfold typeOf
  rw [h]
  rfl

theorem entries_cons {n} (hfirst : ws'.oldNumber = ws.oldNumber + 1)
    (h : ∀ s, ws'.entryOf s = ws.entryOf s) :
    ws.entries (n + 1) = ws.entryOf ws.oldNumber :: ws'.entries n := by
  unfold entries
  rw [List.range_succ_eq_map, List.map_cons, List.map_map, hfirst]
  refine congrArg _ (List.map_congr_left ?_)
  intro k _
  rw [h, Nat.add_right_comm, Nat.add_assoc]
  rfl

/-- The oldest micro-op takes its contribution with it: from the statistics, and from the path,
whose head moves to its execution time. -/
theorem Accounted.retire {contention} (h : Accounted cutoff 1 ws)
    (hpos : 0 < ws.m_old_window_length) (hne : 0 < ws.m_window_length)
    (hretire : ws.retire contention = .ok ws') : Accounted cutoff 1 ws' := by
  have hring := h.ring.retire hpos hne hretire
  obtain ⟨uop, huop, hws⟩ := retire_ok hretire
  obtain ⟨hhead, hlast⟩ := h.ring.oldNumber_add
  obtain ⟨n, hn⟩ : ∃ n, ws.m_old_window_length = n + 1 := ⟨ws.m_old_window_length - 1, by omega⟩
  have holdest : ws.m_double_window ws.m_old_window_head = ws.entryOf ws.oldNumber := by
    unfold entryOf
    rw [h.ring.oldHead]
  rw [holdest] at huop hws
  have htype := typeOf_eq huop
  have hold' : ws'.m_old_window_length = n := by
    rw [hws]
    exact Nat.sub_eq_of_eq_add hn
  have hentry : ∀ s, ws'.entryOf s = ws.entryOf s := by
    intro s
    rw [hws]
    rfl
  have hheadNumber : ws'.headNumber = ws.headNumber := by
    rw [hws]
    rfl
  have hnumbers' := hring.oldNumber_add
  have hcons : ∀ m, ws.entries (m + 1) = ws.entryOf ws.oldNumber :: ws'.entries m := by
    intro m
    exact entries_cons (by omega) hentry
  refine ⟨hring, ?_, ?_, ?_, ?_, ?_⟩
  · have hpath := h.path
    rw [hn, hcons] at hpath
    have hfields : ws'.m_critical_path_head =
          max ws.m_critical_path_head (ws.entryOf ws.oldNumber).execTime ∧
        ws'.m_critical_path_tail = ws.m_critical_path_tail := by
      rw [hws]
      exact ⟨rfl, rfl⟩
    rw [hold', hfields.1, hfields.2]
    exact hpath.rest
  · have htotal := h.total
    rw [hn, hcons, List.map_cons, List.sum_cons] at htotal
    rw [hold']
    have hfield : ws'.m_cpcontr_total =
        sub64 ws.m_cpcontr_total (ws.entryOf ws.oldNumber).cpContr := by
      rw [hws]
    rw [hfield, htotal, sub64_add_left]
  · intro type
    have hbytype := h.bytype type
    rw [hn, hcons, sumBy_cons, htype] at hbytype
    have hfield : ws'.m_cpcontr_bytype = update ws.m_cpcontr_bytype (getCpContrType uop)
        (sub64 (ws.m_cpcontr_bytype (getCpContrType uop)) (ws.entryOf ws.oldNumber).cpContr) := by
      rw [hws]
    rw [hold', hfield]
    by_cases heq : getCpContrType uop = type
    · subst heq
      rw [if_pos rfl] at hbytype
      rw [update_self, hbytype, sub64_add_left]
    · rw [if_neg (fun h => heq (Option.some.inj h)), Nat.zero_add] at hbytype
      rw [update_of_ne (Ne.symm heq), hbytype]
  · intro e he
    refine h.small e ?_
    rw [hn, hcons]
    rw [hold'] at he
    exact List.mem_cons_of_mem _ he
  · intro s hs hnext
    have hfields : ws'.m_next_sequence_number = ws.m_next_sequence_number ∧
        ws'.m_critical_path_tail = ws.m_critical_path_tail := by
      rw [hws]
      exact ⟨rfl, rfl⟩
    rw [hheadNumber] at hs
    rw [hfields.1] at hnext
    rw [hentry, hfields.2]
    exact h.waiting s hs hnext

theorem Accounted.dispatch {contention} (h : Accounted cutoff 1 ws) (hne : 0 < ws.m_window_length)
    (hdispatch : ws.dispatchInstruction contention = .ok ws') :
    Accounted cutoff 0 ws' := by
  have hring := h.ring.dispatch (Nat.ne_of_gt hne) hdispatch
  obtain ⟨ws₁, uop, hretire, huop, hws⟩ := dispatchInstruction_ok hdispatch
  obtain ⟨h₁, hne₁⟩ : Accounted cutoff 1 ws₁ ∧ 0 < ws₁.m_window_length := by
    have hsize := h.ring.size
    split at hretire
    · next hfull =>
      have h₁ := h.retire (by omega) hne hretire
      obtain ⟨uop, -, rfl⟩ := retire_ok hretire
      exact ⟨h₁, hne⟩
    · next hroom =>
      subst hretire
      exact ⟨h, hne⟩
  obtain ⟨hhead, hlast⟩ := h₁.ring.oldNumber_add
  have hfirst : ws₁.m_double_window ws₁.m_window_head__old_window_tail =
      ws₁.entryOf ws₁.headNumber := by
    unfold entryOf
    rw [h₁.ring.head]
  dsimp only at hws
  rw [hfirst] at huop hws
  have hnumbers : ws'.headNumber = ws₁.headNumber + 1 := by
    rw [hws]
    unfold headNumber at hlast ⊢
    dsimp only
    omega
  have hold' : ws'.m_old_window_length = ws₁.m_old_window_length + 1 := by
    rw [hws]
  have hentries : ∀ n, ws'.entries n = ws₁.entries n := by
    intro n
    have hnumbers' := hring.oldNumber_add
    refine entries_congr (by omega : ws'.oldNumber = ws₁.oldNumber) ?_
    intro k _
    rw [hws]
    rfl
  have hsucc := entries_succ ws₁ ws₁.m_old_window_length
  rw [hhead] at hsucc
  refine ⟨hring, ?_, ?_, ?_, ?_, ?_⟩
  · have hfields : ws'.m_critical_path_head = ws₁.m_critical_path_head ∧
        ws'.m_critical_path_tail = ws₁.m_critical_path_tail := by
      rw [hws]
      exact ⟨rfl, rfl⟩
    rw [hold', hentries, hfields.1, hfields.2]
    exact h₁.path
  · have hfield : ws'.m_cpcontr_total =
        ws₁.m_cpcontr_total + (ws₁.entryOf ws₁.headNumber).cpContr := by
      rw [hws]
    rw [hold', hentries, hsucc, hfield, h₁.total, List.map_append, List.sum_append]
    rfl
  · intro type
    have hfield : ws'.m_cpcontr_bytype = update ws₁.m_cpcontr_bytype (getCpContrType uop)
        (ws₁.m_cpcontr_bytype (getCpContrType uop) +
          (ws₁.entryOf ws₁.headNumber).cpContr) := by
      rw [hws]
    rw [hold', hentries, hsucc, sumBy_snoc, typeOf_eq huop, hfield]
    by_cases heq : getCpContrType uop = type
    · subst heq
      rw [update_self, if_pos rfl, h₁.bytype]
    · rw [update_of_ne (Ne.symm heq), if_neg (fun h => heq (Option.some.inj h)),
        h₁.bytype]
      rfl
  · intro e he
    rw [hold', hentries] at he
    exact h₁.small e he
  · intro s hs hnext
    have hfields : ws'.m_next_sequence_number = ws₁.m_next_sequence_number ∧
        ws'.m_critical_path_tail = ws₁.m_critical_path_tail := by
      rw [hws]
      exact ⟨rfl, rfl⟩
    have hentry : ws'.entryOf s = ws₁.entryOf s := by
      rw [hws]
      rfl
    rw [hnumbers] at hs
    rw [hfields.1] at hnext
    rw [hentry, hfields.2]
    exact h₁.waiting s hs hnext

theorem Accounted.add [DecidableEq Reg] {decoder uop} (h : Accounted cutoff 0 ws)
    (hadd : ws.add decoder uop = .ok ws') : Accounted cutoff 0 ws' := by
  have hring := h.ring.add hadd
  obtain ⟨hroom, uop, registers, memory, -, hws⟩ := add_ok hadd
  obtain ⟨hhead, hlast⟩ := h.ring.oldNumber_add
  have hnext' : ws'.m_next_sequence_number = ws.m_next_sequence_number + 1 := by
    rw [hws]
  have hlengths : ws'.m_window_length = ws.m_window_length + 1 ∧
      ws'.m_old_window_length = ws.m_old_window_length := by
    rw [hws]
    exact ⟨rfl, rfl⟩
  have hnumbers := hring.oldNumber_add
  have hentry : ∀ s, ws'.entryOf s = if ws.slotOf s = ws.m_window_tail then
      .init (some uop) else ws.entryOf s := by
    intro s
    unfold entryOf
    have hslot : ws'.slotOf s = ws.slotOf s := by
      rw [hws]
      rfl
    have hfield : ws'.m_double_window =
        update ws.m_double_window ws.m_window_tail (.init (some uop)) := by
      rw [hws]
    rw [hslot, hfield, update_apply]
  have hold : ∀ s, ws.oldNumber ≤ s → s < ws.m_next_sequence_number →
      ws'.entryOf s = ws.entryOf s := by
    intro s hs hlt
    have hsize : ws.m_double_window_size = 2 * ws.m_window_size := rfl
    have hwindow := h.ring.window
    have holdLength := h.ring.old
    rw [hentry, if_neg]
    rw [h.ring.tail]
    exact slotOf_ne hlt (by omega)
  have hentries : ws'.entries ws.m_old_window_length = ws.entries ws.m_old_window_length := by
    refine entries_congr (by omega : ws'.oldNumber = ws.oldNumber) ?_
    intro k hk
    exact hold _ (by omega) (by omega)
  have hfields : ws'.m_critical_path_head = ws.m_critical_path_head ∧
      ws'.m_critical_path_tail = ws.m_critical_path_tail ∧
      ws'.m_cpcontr_total = ws.m_cpcontr_total ∧ ws'.m_cpcontr_bytype = ws.m_cpcontr_bytype := by
    rw [hws]
    exact ⟨rfl, rfl, rfl, rfl⟩
  obtain ⟨hcpHead, hcpTail, htotal, hbytype⟩ := hfields
  refine ⟨hring, ?_, ?_, ?_, ?_, ?_⟩
  · rw [hlengths.2, Nat.add_zero, hentries, hcpHead, hcpTail]
    exact h.path
  · rw [hlengths.2, hentries, htotal]
    exact h.total
  · rw [hlengths.2, hentries, hbytype]
    exact h.bytype
  · rw [hlengths.2, Nat.add_zero, hentries]
    exact h.small
  · intro s hs hlt
    rw [hcpTail]
    by_cases heq : s = ws.m_next_sequence_number
    · rw [hentry, heq, h.ring.tail, if_pos rfl]
      exact ⟨rfl, Nat.zero_le _⟩
    · rw [hold s (by omega) (by omega)]
      exact h.waiting s (by omega) (by omega)

theorem accounted_new (contention : IntervalContention Reg C) (c : C) {w} (hw : 0 < w) :
    Accounted cutoff 0 (new w contention c) := by
  refine ⟨ring_new contention c hw, ?_, rfl, ?_, ?_, ?_⟩
  · exact Path.nil 0
  · intro type
    rfl
  · intro e he
    cases he
  · intro s _ hlt
    cases hlt

theorem Accounted.ports (h : Accounted cutoff 0 ws) (c : C) :
    Accounted cutoff 0 { ws with interval_contention := c } :=
  ⟨h.ring.congr ⟨rfl, rfl, rfl, rfl, rfl, rfl⟩ (Nat.le_refl _) h.ring.oldHead h.ring.started,
    h.path, h.total, h.bytype, h.small, h.waiting⟩

end Windows

/-! ### Over runs -/

namespace IntervalTimer
variable {t t' : IntervalTimer Reg C}

theorem accounted_dispatchInstruction {charged reason}
    (h : Accounted cfg.longLatencyCutoff 0 t.m_windows) (hne : 0 < t.m_windows.m_window_length)
    (hdispatch : dispatchInstruction cfg t = .ok (charged, reason, t')) :
    Accounted cfg.longLatencyCutoff 1 t'.m_windows ∧ 0 < t'.m_windows.m_window_length := by
  obtain ⟨producers, missed, executed, ws, -, -, hrestart, hexecuted⟩ :=
    dispatchInstruction_ok hdispatch
  have hprepared : Accounted cfg.longLatencyCutoff 0
      (prepared cfg t.m_windows.m_window_head__old_window_tail t.m_windows) :=
    accounted_prepared h hne
  have hrestarted := accounted_restart hprepared hne hrestart
  obtain ⟨hhead, hlength⟩ := hrestart.window
  have hne₁ : 0 < ws.m_window_length := hlength ▸ hne
  have hsame : ws.m_window_head__old_window_tail = t.m_windows.m_window_head__old_window_tail :=
    hhead
  rw [← hsame] at hexecuted
  exact ⟨accounted_executed hrestarted hne₁ hexecuted, hexecuted.window.2 ▸ hne₁⟩

theorem accounted_step [DecidableEq Reg] (h : Accounted cfg.longLatencyCutoff 0 t.m_windows)
    (hstep : TimerStep cfg t t') : Accounted cfg.longLatencyCutoff 0 t'.m_windows := by
  cases hstep with
  | add uop hadd =>
    obtain ⟨ws, hws, hend⟩ := of_bind_ok hadd
    cases hend
    exact h.add hws
  | rate =>
    unfold calculateCurrentDispatchRate
    dsimp only
    split
    · obtain ⟨c, hc⟩ := effective_ok cfg t.m_windows
        t.m_windows.getCriticalPathLength.toNat false
      rw [hc]
      exact h.ports c
    · exact h
  | dispatch hne hdispatch hold =>
    obtain ⟨h₁, hne₁⟩ := accounted_dispatchInstruction h (Nat.pos_of_ne_zero hne) hdispatch
    exact h₁.dispatch hne₁ hold
  | account c counts => exact h.ports c

theorem accounted_steps [DecidableEq Reg] (h : Accounted cfg.longLatencyCutoff 0 t.m_windows)
    (hsteps : ReflTransGen (TimerStep cfg) t t') :
    Accounted cfg.longLatencyCutoff 0 t'.m_windows := by
  induction hsteps with
  | refl => exact h
  | tail _ hstep ih => exact accounted_step ih hstep

theorem accounted_reached [DecidableEq Reg] {w num_outstanding c} (hw : 0 < w)
    (h : ReflTransGen (TimerStep cfg) (new cfg w num_outstanding c) t) :
    Accounted cfg.longLatencyCutoff 0 t.m_windows :=
  accounted_steps (accounted_new cfg.contention c hw) h

end IntervalTimer
end Sniper.Timing.Interval
