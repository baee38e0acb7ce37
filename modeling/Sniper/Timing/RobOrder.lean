import Sniper.Timing.RobTimer

/-! # The order of the reorder buffer

Which micro-ops are in the reorder buffer, which of them are dispatched and which have issued,
beside the log of what has happened: one lemma for each kind of event.
-/
namespace Sniper.Timing.Rob

variable {Reg K M : Type}

/-! ### The log -/

def entered (log : List (Event Reg)) : List Nat :=
  log.filterMap fun
    | .entered seqnr _ _ => some seqnr
    | _ => none

def dispatches (log : List (Event Reg)) : List Nat :=
  log.filterMap fun
    | .dispatched seqnr => some seqnr
    | _ => none

def issues (log : List (Event Reg)) : List (Issue Reg) :=
  log.filterMap fun
    | .issued issue => some issue
    | _ => none

def commits (log : List (Event Reg)) : List Nat :=
  log.filterMap fun
    | .committed seqnr => some seqnr
    | _ => none

/-- What has happened before each event: micro-ops enter, are dispatched and commit in order, issue
once between, and not before the results of their producers are available. -/
def Follows : Event Reg → List (Event Reg) → Prop
  | .entered seqnr _ _, log => seqnr = (entered log).length
  | .dispatched seqnr, log => seqnr = (dispatches log).length ∧ seqnr < (entered log).length
  | .issued i, log => i.seqnr ∈ dispatches log ∧ .entered i.seqnr i.uop i.producers ∈ log ∧
    (∀ j ∈ issues log, j.seqnr ≠ i.seqnr) ∧
    (∀ p ∈ i.producers, ∃ j ∈ issues log, j.seqnr = p ∧ j.available ≤ i.issued) ∧
    (i.uop.isStore = true → i.addressReady ≤ i.ready)
  | .committed seqnr, log => seqnr = (commits log).length ∧ ∃ j ∈ issues log, j.seqnr = seqnr

/-- Every event follows those before it. -/
def Disciplined : List (Event Reg) → Prop
  | [] => True
  | event :: log => Follows event log ∧ Disciplined log

/-! ### The order -/

/-- What the order of the events is about. -/
structure Core (Reg : Type) where
  seqnr : Nat
  uop : MicroOp Reg
  producers : List Nat
  done : Time

def RobEntry.core (entry : RobEntry Reg) : Core Reg :=
  ⟨entry.seqnr, entry.uop.m_uop, entry.producers, entry.done⟩

/-- The reorder buffer holds the micro-ops from `base` on. -/
structure Ordered (cfg : Config Reg K M) (base : Nat) (cores : List (Core Reg))
    (num_in_rob rs_entries_used next : Nat) (log : List (Event Reg)) : Prop where
  numbered : ∀ i c, cores[i]? = some c → c.seqnr = base + i
  total : next = base + cores.length
  fits : num_in_rob ≤ cores.length
  window : num_in_rob ≤ cfg.windowSize
  waiting : ∀ i c, cores[i]? = some c → num_in_rob ≤ i → c.done = ⊤
  rs_used : rs_entries_used = (cores.take num_in_rob).countP fun c => decide (c.done = ⊤)
  rs_fits : rs_entries_used ≤ cfg.rsEntries
  length_entered : (entered log).length = next
  entries : ∀ c ∈ cores, .entered c.seqnr c.uop c.producers ∈ log
  length_dispatches : (dispatches log).length = base + num_in_rob
  mem_dispatches : ∀ x, x ∈ dispatches log ↔ x < base + num_in_rob
  length_commits : (commits log).length = base
  issued : ∀ j ∈ issues log, j.seqnr < base ∨
    ∃ c ∈ cores, c.seqnr = j.seqnr ∧ c.done = (j.done : Time)
  done : ∀ c ∈ cores, c.done ≠ ⊤ → ∃ j ∈ issues log, j.seqnr = c.seqnr ∧ c.done = (j.done : Time)
  committed : ∀ x < base, ∃ j ∈ issues log, j.seqnr = x
  available : ∀ j ∈ issues log, j.available ≤ j.done
  disciplined : Disciplined log

namespace Ordered
variable {cfg : Config Reg K M} {base num_in_rob rs_entries_used next : Nat}
  {cores : List (Core Reg)} {log : List (Event Reg)}

theorem seqnr_lt (h : Ordered cfg base cores num_in_rob rs_entries_used next log) {c}
    (hc : c ∈ cores) : base ≤ c.seqnr ∧ c.seqnr < next := by
  obtain ⟨i, hi, rfl⟩ := List.mem_iff_getElem.mp hc
  have hseq := h.numbered i _ (List.getElem?_eq_getElem hi)
  have hnext := h.total
  omega

theorem eq_of_seqnr (h : Ordered cfg base cores num_in_rob rs_entries_used next log) {c c'}
    (hc : c ∈ cores) (hc' : c' ∈ cores) (heq : c.seqnr = c'.seqnr) : c = c' := by
  obtain ⟨i, hi, rfl⟩ := List.mem_iff_getElem.mp hc
  obtain ⟨j, hj, rfl⟩ := List.mem_iff_getElem.mp hc'
  have hi' := h.numbered i _ (List.getElem?_eq_getElem hi)
  have hj' := h.numbered j _ (List.getElem?_eq_getElem hj)
  have hij : i = j := by omega
  subst hij
  rfl

theorem enter (h : Ordered cfg base cores num_in_rob rs_entries_used next log) {c}
    (hseq : c.seqnr = next) (hdone : c.done = ⊤) :
    Ordered cfg base (cores ++ [c]) num_in_rob rs_entries_used (next + 1)
      (.entered c.seqnr c.uop c.producers :: log) := by
  have hnext := h.total
  have hfits := h.fits
  have hget : ∀ i d, (cores ++ [c])[i]? = some d → cores[i]? = some d ∨ i = cores.length ∧ d = c := by
    intro i d hd
    rcases Nat.lt_trichotomy i cores.length with hi | hi | hi
    · rw [List.getElem?_append_left hi] at hd
      exact .inl hd
    · subst hi
      simp at hd
      exact .inr ⟨rfl, hd.symm⟩
    · rw [List.getElem?_eq_none (by simp; omega)] at hd
      cases hd
  refine ⟨fun i d hd => ?_, by simp; omega, by simp; omega, h.window, fun i d hd hi => ?_, ?_,
    h.rs_fits, congrArg Nat.succ h.length_entered, fun d hd => ?_, h.length_dispatches,
    h.mem_dispatches, h.length_commits, fun j hj => ?_, fun d hd hne => ?_, h.committed,
    h.available, ⟨hseq.trans h.length_entered.symm, h.disciplined⟩⟩
  · rcases hget i d hd with hd | ⟨rfl, rfl⟩
    · exact h.numbered i d hd
    · exact hseq.trans hnext
  · rcases hget i d hd with hd | ⟨-, rfl⟩
    · exact h.waiting i d hd hi
    · exact hdone
  · rw [List.take_append_of_le_length hfits]
    exact h.rs_used
  · rcases List.mem_append.mp hd with hd | hd
    · exact List.mem_cons_of_mem _ (h.entries d hd)
    · cases List.mem_singleton.mp hd
      exact List.mem_cons_self ..
  · rcases h.issued j hj with hlt | ⟨d, hd, hdj⟩
    · exact .inl hlt
    · exact .inr ⟨d, List.mem_append_left _ hd, hdj⟩
  · rcases List.mem_append.mp hd with hd | hd
    · exact h.done d hd hne
    · cases List.mem_singleton.mp hd
      exact absurd hdone hne

theorem dispatch (h : Ordered cfg base cores num_in_rob rs_entries_used next log)
    (hfits : num_in_rob < cores.length) (hwindow : num_in_rob < cfg.windowSize)
    (hrs : rs_entries_used < cfg.rsEntries) :
    Ordered cfg base cores (num_in_rob + 1) (rs_entries_used + 1) next
      (.dispatched (base + num_in_rob) :: log) := by
  have hnext := h.total
  have hentered := h.length_entered
  refine ⟨h.numbered, h.total, hfits, hwindow, fun i d hd hi => h.waiting i d hd (by omega), ?_, hrs,
    h.length_entered, fun d hd => List.mem_cons_of_mem _ (h.entries d hd),
    congrArg Nat.succ h.length_dispatches, fun x => ?_, h.length_commits, h.issued, h.done,
    h.committed, h.available,
    ⟨⟨h.length_dispatches.symm, by omega⟩, h.disciplined⟩⟩
  · have hdone := h.waiting num_in_rob _ (List.getElem?_eq_getElem hfits) (Nat.le_refl _)
    rw [List.take_succ_eq_append_getElem hfits, List.countP_append, ← h.rs_used,
      List.countP_singleton, if_pos (decide_eq_true hdone)]
  · have hmem := h.mem_dispatches x
    show x ∈ (base + num_in_rob) :: dispatches log ↔ _
    rw [List.mem_cons, hmem]
    omega

theorem issue (h : Ordered cfg base cores num_in_rob rs_entries_used next log) {i c}
    (hc : cores[i]? = some c) (hi : i < num_in_rob) (hdone : c.done = ⊤) {e}
    (hseq : e.seqnr = c.seqnr) (huop : e.uop = c.uop) (hproducers : e.producers = c.producers)
    (havailable : e.available ≤ e.done)
    (hready : ∀ p ∈ e.producers, ∃ j ∈ issues log, j.seqnr = p ∧ j.available ≤ e.issued)
    (haddress : e.uop.isStore = true → e.addressReady ≤ e.ready) :
    Ordered cfg base (cores.set i { c with done := (e.done : Time) }) num_in_rob
      (rs_entries_used - 1) next (.issued e :: log) := by
  obtain ⟨hlt, hget⟩ := List.getElem?_eq_some_iff.mp hc
  have hnumber := h.numbered i c hc
  have hmem : c ∈ cores := hget ▸ List.getElem_mem hlt
  have hset : ∀ d ∈ cores.set i { c with done := (e.done : Time) },
      (d ∈ cores ∧ d.seqnr ≠ c.seqnr) ∨ d = { c with done := (e.done : Time) } := by
    intro d hd
    obtain ⟨j, hj, rfl⟩ := List.mem_iff_getElem.mp hd
    rw [List.length_set] at hj
    rw [List.getElem_set]
    split
    case isTrue => exact .inr rfl
    case isFalse hne =>
      have hj' := h.numbered j _ (List.getElem?_eq_getElem hj)
      exact .inl ⟨List.getElem_mem hj, by omega⟩
  have hkeep : ∀ d ∈ cores, d.seqnr ≠ c.seqnr →
      d ∈ cores.set i { c with done := (e.done : Time) } := by
    intro d hd hne
    obtain ⟨j, hj, rfl⟩ := List.mem_iff_getElem.mp hd
    have hij : i ≠ j := by
      rintro rfl
      exact hne (congrArg Core.seqnr hget)
    rw [← List.getElem_set_of_ne hij { c with done := (e.done : Time) } (by simpa using hj)]
    exact List.getElem_mem _
  have hnew : ({ c with done := (e.done : Time) } : Core Reg) ∈
      cores.set i { c with done := (e.done : Time) } := List.mem_set hlt _
  refine ⟨fun j d hd => ?_, by rw [List.length_set]; exact h.total,
    by rw [List.length_set]; exact h.fits, h.window, fun j d hd hj => ?_, ?_,
    Nat.le_trans (Nat.sub_le _ _) h.rs_fits, h.length_entered, fun d hd => ?_, h.length_dispatches,
    h.mem_dispatches, h.length_commits, fun j hj => ?_, fun d hd hne => ?_,
    fun x hx => ?_, fun j hj => ?_, ?_, h.disciplined⟩
  · rw [List.getElem?_set] at hd
    split at hd
    case isTrue hij =>
      cases hd
      exact hij ▸ hnumber
    case isFalse => exact h.numbered j d hd
  · rw [List.getElem?_set_ne (by omega)] at hd
    exact h.waiting j d hd hj
  · rw [List.take_set, List.countP_set (by rw [List.length_take]; omega), ← h.rs_used]
    rw [List.getElem_take, hget, if_pos (decide_eq_true hdone),
      if_neg (by simp)]
    rfl
  · rcases hset d hd with ⟨hd, -⟩ | rfl
    · exact List.mem_cons_of_mem _ (h.entries d hd)
    · exact List.mem_cons_of_mem _ (h.entries c hmem)
  · rcases List.mem_cons.mp hj with rfl | hj
    · exact .inr ⟨_, hnew, hseq.symm, rfl⟩
    · refine (h.issued j hj).imp_right fun hd => ?_
      obtain ⟨d, hd, hdj, hdd⟩ := hd
      refine ⟨d, hkeep d hd fun heq => ?_, hdj, hdd⟩
      rw [h.eq_of_seqnr hd hmem heq, hdone] at hdd
      exact time_ne_top _ hdd.symm
  · rcases hset d hd with ⟨hd, -⟩ | rfl
    · obtain ⟨j, hj, hjd⟩ := h.done d hd hne
      exact ⟨j, List.mem_cons_of_mem _ hj, hjd⟩
    · exact ⟨e, List.mem_cons_self .., hseq, rfl⟩
  · obtain ⟨j, hj, hjx⟩ := h.committed x hx
    exact ⟨j, List.mem_cons_of_mem _ hj, hjx⟩
  · rcases List.mem_cons.mp hj with rfl | hj
    · exact havailable
    · exact h.available j hj
  · refine ⟨(h.mem_dispatches _).mpr (by omega), ?_, fun j hj heq => ?_, hready, haddress⟩
    · rw [hseq, huop, hproducers]
      exact h.entries c hmem
    · rcases h.issued j hj with hlt | ⟨d, hd, hdj, hdd⟩
      · omega
      · rw [h.eq_of_seqnr hd hmem (hdj.trans (heq.trans hseq)), hdone] at hdd
        exact time_ne_top _ hdd.symm

theorem commit {c} (h : Ordered cfg base (c :: cores) num_in_rob rs_entries_used next log)
    (hdone : c.done ≠ ⊤) :
    Ordered cfg (base + 1) cores (num_in_rob - 1) rs_entries_used next (.committed c.seqnr :: log) := by
  have hfirst := h.numbered 0 c rfl
  have hnum : num_in_rob ≠ 0 := fun h0 => hdone (h.waiting 0 c rfl (by omega))
  obtain ⟨j₀, hj₀, hseq₀, -⟩ := h.done c (List.mem_cons_self ..) hdone
  have hnext := h.total
  have hfits := h.fits
  rw [List.length_cons] at hnext hfits
  refine ⟨fun i d hd => ?_, by omega, by omega, Nat.le_trans (Nat.sub_le _ _) h.window,
    fun i d hd hi => h.waiting (i + 1) d hd (by omega), ?_, h.rs_fits, h.length_entered,
    fun d hd => List.mem_cons_of_mem _ (h.entries d (List.mem_cons_of_mem _ hd)),
    h.length_dispatches.trans (by omega), fun x => (h.mem_dispatches x).trans (by omega),
    congrArg Nat.succ h.length_commits, fun j hj => ?_,
    fun d hd => h.done d (List.mem_cons_of_mem _ hd), fun x hx => ?_, h.available,
    ⟨⟨?_, j₀, hj₀, hseq₀⟩, h.disciplined⟩⟩
  · have hi := h.numbered (i + 1) d hd
    omega
  · obtain ⟨n, rfl⟩ := Nat.exists_eq_succ_of_ne_zero hnum
    rw [h.rs_used, List.take_succ_cons, List.countP_cons_of_neg (by simpa using hdone)]
    rfl
  · rcases h.issued j hj with hlt | ⟨d, hd, hdj⟩
    · exact .inl (by omega)
    · rcases List.mem_cons.mp hd with rfl | hd
      · exact .inl (by omega)
      · exact .inr ⟨d, hd, hdj⟩
  · rcases Nat.lt_succ_iff_lt_or_eq.mp hx with hx | rfl
    · exact h.committed x hx
    · exact ⟨j₀, hj₀, by omega⟩
  · rw [h.length_commits]
    omega

end Ordered
end Sniper.Timing.Rob
