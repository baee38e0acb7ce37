import Sniper.Threads.BarrierRelease

/-! # Who waits in the barrier

Every thread blocked on a condition variable is named by the acquire list or by the release
list, at every moment of every run. Disabling the barrier wakes those of the acquire list.
-/
namespace Sniper.Threads.Barrier
open Lib.Simulation Function

variable {n : Nat} {T : Type}

namespace Server

/-- The thread that the acquire list names for the core. -/
def marked (s : Server n T) (c : Fin n) : List T :=
  if s.m_barrier_acquire_list c then (s.m_core_thread c).toList else []

/-- Each condition variable holds one thread for each entry of the release list, and then the
one of the acquire list; the thread of the core `absent` runs inside the barrier. -/
structure Accounted (s : Server n T) (absent : Option (Fin n)) : Prop where
  queue : ∀ c, ∃ pend : List T, pend.length = s.m_to_release.count c ∧
    s.m_core_cond c = pend ++ (if absent = some c then [] else s.marked c)
  named : ∀ c, s.m_barrier_acquire_list c = true → ∃ t, s.m_core_thread c = some t
  disabled : s.m_disable = true → ∀ c, s.m_barrier_acquire_list c = false

variable {s s' : Server n T} {absent : Option (Fin n)}

theorem Accounted.congr (h : s.Accounted absent)
    (hacquire : s'.m_barrier_acquire_list = s.m_barrier_acquire_list)
    (hthread : s'.m_core_thread = s.m_core_thread) (hcond : s'.m_core_cond = s.m_core_cond)
    (hlist : s'.m_to_release = s.m_to_release) (hdisable : s'.m_disable = s.m_disable) :
    s'.Accounted absent := by
  refine ⟨fun c => ?_, fun c hc => ?_, fun hd c => ?_⟩
  · rw [hlist, hcond, marked, hacquire, hthread]
    exact h.queue c
  · rw [hthread]
    exact h.named c (hacquire ▸ hc)
  · rw [hacquire]
    exact h.disabled (hdisable ▸ hd) c

theorem Accounted.listed (h : s.Accounted absent) {c} (hc : s.m_core_cond c ≠ []) :
    s.m_barrier_acquire_list c = true ∨ c ∈ s.m_to_release := by
  obtain ⟨pend, hlen, hq⟩ := h.queue c
  by_cases ha : s.m_barrier_acquire_list c = true
  · exact .inl ha
  · have hm : s.marked c = [] := by simp [marked, ha]
    rw [hm, ite_self, List.append_nil] at hq
    have hpos : 0 < s.m_to_release.count c := by
      rw [← hlen, ← hq]
      exact List.length_pos_iff.mpr hc
    exact .inr (List.count_pos_iff.mp hpos)

theorem Accounted.change_absent {absent'} (h : s.Accounted absent)
    (h1 : ∀ c, absent = some c → s.m_barrier_acquire_list c = false)
    (h2 : ∀ c, absent' = some c → s.m_barrier_acquire_list c = false) : s.Accounted absent' := by
  refine ⟨fun c => ?_, h.named, h.disabled⟩
  have hskip : ∀ {o : Option (Fin n)}, (∀ c, o = some c → s.m_barrier_acquire_list c = false) →
      (if o = some c then [] else s.marked c) = s.marked c := by
    intro o ho
    split
    case isTrue he => simp [marked, ho c he]
    case isFalse => rfl
  obtain ⟨pend, hlen, hq⟩ := h.queue c
  rw [hskip h1] at hq
  exact ⟨pend, hlen, by rw [hskip h2, hq]⟩

theorem Accounted.doRelease (h : s.Accounted absent) (n_left : Int) :
    (s.doRelease n_left).Accounted absent := by
  refine doRelease_induction (P := fun s => s.Accounted absent) n_left h
    fun s l d h hl => ⟨fun c => ?_, h.named, h.disabled⟩
  obtain ⟨pend, hlen, hq⟩ := h.queue c
  rw [hl, List.count_append] at hlen
  by_cases hc : c = d
  · -- the woken thread is one of those the release list counts for this core
    subst hc
    rw [List.count_singleton_self] at hlen
    obtain ⟨t, pend, rfl⟩ := List.exists_cons_of_length_eq_add_one hlen
    refine ⟨pend, Nat.succ.inj hlen, ?_⟩
    show update s.m_core_cond c (s.m_core_cond c).tail c = _
    rw [update_self, hq]
    rfl
  · refine ⟨pend, ?_, ?_⟩
    · rw [hlen, List.count_singleton, if_neg (by simpa using Ne.symm hc)]; rfl
    · show update s.m_core_cond d (s.m_core_cond d).tail c = _
      rw [update_of_ne hc]
      exact hq

theorem Accounted.perm (h : s.Accounted absent) {l} (hl : l.Perm s.m_to_release) :
    Accounted { s with m_to_release := l } absent := by
  refine ⟨fun c => ?_, h.named, h.disabled⟩
  obtain ⟨pend, hlen, hq⟩ := h.queue c
  exact ⟨pend, hlen.trans (hl.count_eq c).symm, hq⟩

theorem Accounted.releaseThread [DecidableEq T] (h : s.Accounted absent) (t : T) :
    (s.releaseThread t).Accounted absent := by
  refine Accounted.doRelease ?_ 1
  exact h.congr rfl rfl rfl rfl rfl

theorem Accounted.enter (h : s.Accounted none) (he : s.m_disable = false) (master : Fin n)
    (hm : s.m_barrier_acquire_list master = false) (time : SubsecondTime) (t : T) :
    (s.enter master time t).Accounted (some master) := by
  refine ⟨fun c => ?_, fun c hc => ?_, fun hd => ?_⟩
  · obtain ⟨pend, hlen, hq⟩ := h.queue c
    refine ⟨pend, hlen, ?_⟩
    show s.m_core_cond c = _
    rw [hq]
    by_cases hc : c = master
    · subst hc; simp [marked, hm]
    · simp [Server.enter, marked, hc, Ne.symm hc]
  · by_cases hcm : c = master
    · exact ⟨t, by simp [Server.enter, hcm]⟩
    · have hc : s.m_barrier_acquire_list c = true := by simpa [Server.enter, hcm] using hc
      obtain ⟨t', ht'⟩ := h.named c hc
      exact ⟨t', by simp [Server.enter, hcm, ht']⟩
  · have hd : s.m_disable = true := hd
    rw [he] at hd
    cases hd

theorem Accounted.waitCond {master} (h : s.Accounted (some master)) {t}
    (ha : s.m_barrier_acquire_list master = true) (ht : s.m_core_thread master = some t) :
    (s.waitCond master t).Accounted none := by
  refine ⟨fun c => ?_, h.named, h.disabled⟩
  obtain ⟨pend, hlen, hq⟩ := h.queue c
  refine ⟨pend, hlen, ?_⟩
  show update s.m_core_cond master (s.m_core_cond master ++ [t]) c = _
  by_cases hc : c = master
  · subst hc
    rw [update_self, hq]
    simp [marked, Server.waitCond, ha, ht]
  · rw [if_neg (by simpa using Ne.symm hc)] at hq
    rw [update_of_ne hc, hq]
    rfl

theorem Accounted.setDisable (h : s.Accounted absent)
    (hlist : absent = none ∨ s.m_to_release = []) (disable : Bool) :
    (s.setDisable disable).Accounted absent := by
  cases disable with
  | false => exact ⟨h.queue, h.named, nofun⟩
  | true =>
    refine ⟨fun c => ?_, nofun, fun _ _ => rfl⟩
    obtain ⟨pend, hlen, hq⟩ := h.queue c
    have hnone : (s.setDisable true).marked c = [] := rfl
    simp only [hnone, ite_self, List.append_nil]
    show ∃ pend' : List T, pend'.length = s.m_to_release.count c ∧
      (if s.m_barrier_acquire_list c then (s.m_core_cond c).tail else s.m_core_cond c) = pend'
    refine ⟨_, ?_, rfl⟩
    by_cases ha : s.m_barrier_acquire_list c = true
    · obtain ⟨t, ht⟩ := h.named c ha
      rw [if_pos ha, hq, ← hlen]
      by_cases hc : absent = some c
      · have hnil : s.m_to_release = [] := hlist.resolve_left (by rw [hc]; nofun)
        rw [hnil] at hlen
        rw [List.length_eq_zero_iff.mp hlen, if_pos hc]
        rfl
      · rw [if_neg hc, marked, if_pos ha, ht]
        simp
    · have hm : s.marked c = [] := by simp [marked, ha]
      rw [if_neg ha, hq, hm, ite_self, List.append_nil, hlen]

theorem Accounted.blocked_setDisable (h : s.Accounted absent)
    (hlist : absent = none ∨ s.m_to_release = []) :
    (∀ c, (s.setDisable true).m_core_cond c = []) ↔ s.m_to_release = [] := by
  have hq := (h.setDisable hlist true).queue
  have hkeep : (s.setDisable true).m_to_release = s.m_to_release := rfl
  have hnone : ∀ c, (s.setDisable true).marked c = [] := fun _ => rfl
  simp only [hnone, ite_self, List.append_nil, hkeep] at hq
  constructor
  · intro hcond
    rw [List.eq_nil_iff_forall_not_mem]
    intro c hc
    obtain ⟨pend, hlen, hq⟩ := hq c
    rw [hcond c] at hq
    rw [← hq] at hlen
    exact absurd hlen.symm (Nat.ne_of_gt (List.count_pos_iff.mpr hc))
  · intro hnil c
    obtain ⟨pend, hlen, hq⟩ := hq c
    rw [hnil] at hlen
    rw [hq]
    exact List.length_eq_zero_iff.mp hlen

/-! ### While the hooks run -/

/-- The barrier while the hooks run: the caller has an entry in the acquire list, or the
hooks have disabled the barrier, which emptied the list. -/
structure Releasing (s : Server n T) (caller : Option (Fin n × T)) : Prop where
  accounted : s.Accounted (caller.map Prod.fst)
  drained : s.m_to_release = []
  own : ∀ me t, caller = some (me, t) → (∀ c, t ∉ s.m_core_cond c) ∧
    s.m_core_thread me = some t ∧
    (s.m_barrier_acquire_list me = true ∨ ∀ c, s.m_barrier_acquire_list c = false)

variable {caller : Option (Fin n × T)}

theorem Releasing.congr (h : s.Releasing caller)
    (hacquire : s'.m_barrier_acquire_list = s.m_barrier_acquire_list)
    (hthread : s'.m_core_thread = s.m_core_thread) (hcond : s'.m_core_cond = s.m_core_cond)
    (hlist : s'.m_to_release = s.m_to_release) (hdisable : s'.m_disable = s.m_disable) :
    s'.Releasing caller := by
  refine ⟨h.accounted.congr hacquire hthread hcond hlist hdisable, hlist.trans h.drained, ?_⟩
  rw [hacquire, hthread, hcond]
  exact h.own

theorem Accounted.startRelease (caller : Option (Fin n × T))
    (h : s.Accounted (caller.map Prod.fst))
    (hs : s.startRelease = .ok s')
    (hown : ∀ me t, caller = some (me, t) → (∀ c, t ∉ s.m_core_cond c) ∧
      s.m_core_thread me = some t ∧ s.m_barrier_acquire_list me = true) :
    s'.Releasing caller := by
  obtain ⟨hnil, next, rfl, -⟩ := startRelease_ok hs
  refine ⟨h.congr rfl rfl rfl rfl rfl, hnil, fun me t hc => ?_⟩
  obtain ⟨h1, h2, h3⟩ := hown me t hc
  exact ⟨h1, h2, .inl h3⟩

theorem Releasing.releaseThread [DecidableEq T] (h : s.Releasing caller) (t : T) :
    (s.releaseThread t).Releasing caller := by
  have hnil : (s.clearClock t).m_to_release = [] := h.drained
  rw [Server.releaseThread, doRelease_of_nil hnil]
  exact h.congr rfl rfl rfl rfl rfl

theorem Releasing.setDisable (h : s.Releasing caller) (disable : Bool) :
    (s.setDisable disable).Releasing caller := by
  refine ⟨h.accounted.setDisable (.inr h.drained) disable, ?_, fun me t hc => ?_⟩
  · cases disable <;> exact h.drained
  · obtain ⟨h1, h2, h3⟩ := h.own me t hc
    cases disable with
    | false => exact ⟨h1, h2, h3⟩
    | true =>
      refine ⟨fun c hmem => ?_, h2, .inr fun _ => rfl⟩
      have hmem : t ∈ if s.m_barrier_acquire_list c then (s.m_core_cond c).tail
        else s.m_core_cond c := hmem
      split at hmem
      case isTrue => exact h1 c (List.mem_of_mem_tail hmem)
      case isFalse => exact h1 c hmem

theorem Releasing.thread_ne (h : s.Releasing caller) {c} (hc : s.m_barrier_acquire_list c = true)
    (hme : caller.map Prod.fst ≠ some c) :
    s.m_core_thread c ≠ caller.map Prod.snd := by
  obtain ⟨t, ht⟩ := h.accounted.named c hc
  obtain ⟨pend, -, hq⟩ := h.accounted.queue c
  rw [if_neg hme] at hq
  have hmem : t ∈ s.m_core_cond c := by rw [hq]; simp [marked, hc, ht]
  rw [ht]
  rcases caller with _ | ⟨me, t'⟩
  · nofun
  · intro he
    cases he
    exact (h.own me t' rfl).1 c hmem

theorem Releasing.thread_eq (h : s.Releasing caller) {c} (hme : caller.map Prod.fst = some c) :
    s.m_core_thread c = caller.map Prod.snd := by
  rcases caller with _ | ⟨me, t⟩
  · cases hme
  · cases hme
    exact (h.own me t rfl).2.1

variable [DecidableEq T]

theorem Releasing.releaseRound (h : s.Releasing caller) :
    (s.releaseRound (caller.map Prod.snd)).server.Accounted (caller.map Prod.fst) := by
  rw [releaseRound_eq]
  refine ⟨fun c => ?_, fun c hc => ?_, fun hd c => ?_⟩
  · obtain ⟨pend, hlen, hq⟩ := h.accounted.queue c
    rw [h.drained] at hlen
    rw [List.length_eq_zero_iff.mp hlen, List.nil_append] at hq
    simp only [h.drained, List.nil_append, count_filter_finRange]
    by_cases hme : caller.map Prod.fst = some c
    · -- the caller's own core is not put on the release list
      refine ⟨[], ?_, ?_⟩
      · simp [dueOther, advanceNext, h.thread_eq hme]
      · rw [if_pos hme] at hq ⊢
        exact hq
    · rw [if_neg hme] at hq ⊢
      by_cases hd : s.advanceNext.due c = true
      · have ha : s.m_barrier_acquire_list c = true := Bool.and_elim_right hd
        obtain ⟨t, ht⟩ := h.accounted.named c ha
        refine ⟨[t], ?_, ?_⟩
        · have hne : ¬ s.advanceNext.m_core_thread c = caller.map Prod.snd := h.thread_ne ha hme
          rw [dueOther, hd, decide_eq_false hne]
          rfl
        · show s.m_core_cond c = _
          rw [hq]
          simp [marked, ha, ht, hd]
      · refine ⟨[], ?_, ?_⟩
        · simp [dueOther, hd]
        · have hd : s.advanceNext.due c = false := Bool.not_eq_true _ ▸ hd
          show s.m_core_cond c = _
          rw [hq, marked, marked]
          simp only [hd, Bool.not_false, Bool.and_true, List.nil_append]
          rfl
  · exact h.accounted.named c (Bool.and_elim_left hc)
  · have hoff := h.accounted.disabled hd c
    dsimp only
    rw [hoff, Bool.false_and]

theorem Releasing.startRound (h : s.Releasing caller)
    (hresumed : (s.releaseRound (caller.map Prod.snd)).core_resumed = false) :
    (s.releaseRound (caller.map Prod.snd)).server.startRound.Releasing caller := by
  rw [releaseRound_eq] at hresumed ⊢
  have hdue : ∀ c, s.advanceNext.due c = false := fun c =>
    Bool.not_eq_true _ ▸ List.any_eq_false.mp hresumed c (List.mem_finRange c)
  refine h.congr ?_ rfl rfl ?_ rfl
  · funext c
    show (s.m_barrier_acquire_list c && !s.advanceNext.due c) = _
    rw [hdue, Bool.not_false, Bool.and_true]
  · show s.m_to_release ++ _ = _
    rw [List.filter_eq_nil_iff.mpr, List.append_nil]
    intro c _ hc
    rw [dueOther, hdue] at hc
    cases hc

theorem Releasing.leave (h : s.Releasing caller) (s' : Server n T)
    (hresumed : (s.releaseRound (caller.map Prod.snd)).core_resumed = true)
    (haccounted : s'.Accounted (caller.map Prod.fst))
    (hacquire : s'.m_barrier_acquire_list =
      (s.releaseRound (caller.map Prod.snd)).server.m_barrier_acquire_list)
    (hthread : s'.m_core_thread = s.m_core_thread) :
    (Machine.leave s' (s.releaseRound (caller.map Prod.snd)).must_wait caller).Accounted none := by
  rcases caller with _ | ⟨me, t⟩
  · exact haccounted
  · obtain ⟨hnowait, ht, hme⟩ := h.own me t rfl
    rw [releaseRound_eq] at hresumed hacquire ⊢
    obtain ⟨d, -, hd⟩ := List.any_eq_true.mp hresumed
    have hme : s.m_barrier_acquire_list me = true := by
      refine hme.resolve_right fun hall => ?_
      have had : s.m_barrier_acquire_list d = true := Bool.and_elim_right hd
      rw [hall d] at had
      cases had
    have hmew : s'.m_barrier_acquire_list me = !s.advanceNext.due me := by
      rw [hacquire]
      dsimp only
      rw [hme, Bool.true_and]
    -- only the caller's own core can carry the caller's name
    have hown : ((List.finRange n).any (s.advanceNext.dueCaller (some t))) =
        s.advanceNext.due me := by
      rw [Bool.eq_iff_iff, List.any_eq_true]
      constructor
      · intro hany
        obtain ⟨c, -, hc⟩ := hany
        obtain ⟨hc, hct⟩ := Bool.and_eq_true_iff.mp hc
        by_cases hcm : c = me
        · exact hcm ▸ hc
        · have hac : s.m_barrier_acquire_list c = true := Bool.and_elim_right hc
          have hne := h.thread_ne hac fun he => hcm (by cases he; rfl)
          exact absurd (of_decide_eq_true hct) hne
      · intro hd
        refine ⟨me, List.mem_finRange me, ?_⟩
        rw [dueCaller, hd, Bool.true_and, decide_eq_true_iff]
        exact ht
    dsimp only [Machine.leave, Option.map_some]
    rw [hown]
    cases hdue : s.advanceNext.due me with
    | true =>
      rw [hdue] at hmew
      exact haccounted.change_absent (fun c hc => by cases hc; exact hmew) (by simp)
    | false =>
      rw [hdue] at hmew
      exact haccounted.waitCond hmew (by rw [hthread, ht])

end Server

/-! ### Runs -/

namespace Machine
open Server

variable {hostCores : Int} {m m' : Machine n T}

/-- The threads are accounted for, in a call of `barrierRelease` or outside. -/
def Conserved (m : Machine n T) : Prop :=
  match m.phase with
  | .idle => m.server.Accounted none
  | .hooks caller => m.server.Releasing caller

theorem Init.conserved (h : m.Init) : m.Conserved := by
  rw [Conserved, h.idle]
  refine ⟨fun c => ⟨[], ?_, ?_⟩, fun c hc => ?_, fun _ => h.acquired⟩
  · rw [h.released]; rfl
  · simp [h.cond, marked, h.acquired]
  · rw [h.acquired] at hc
    cases hc

theorem conserved_idle (h : m.phase = .idle) : m.Conserved ↔ m.server.Accounted none := by
  rw [Conserved, h]

theorem conserved_hooks {caller} (h : m.phase = .hooks caller) :
    m.Conserved ↔ m.server.Releasing caller := by
  rw [Conserved, h]

theorem conserved_of_accounted (h : m.phase = .idle) {s} (hs : s.Accounted none) :
    Conserved { m with server := s } := by
  rw [Conserved, h]
  exact hs

theorem conserved_of_releasing {caller} (h : m.phase = .hooks caller) {s} (hs : s.Releasing caller) :
    Conserved { m with server := s } := by
  rw [Conserved, h]
  exact hs

theorem Conserved.map {s} (h : m.Conserved) (hidle : m.server.Accounted none → s.Accounted none)
    (hhooks : ∀ caller, m.server.Releasing caller → s.Releasing caller) :
    Conserved { m with server := s } := by
  rw [Conserved] at h ⊢
  dsimp only
  split at h
  · exact hidle h
  · exact hhooks _ h

theorem Conserved.signal (h : m.server.Accounted none) (hp : m.phase = .idle)
    (hs : m.signal = .ok m') : m'.Conserved := by
  rw [Machine.signal] at hs
  split at hs
  · cases hs
    exact (conserved_idle hp).mpr h
  · split at hs
    · obtain ⟨s, hstart, rfl⟩ := of_map_ok hs
      exact Accounted.startRelease none h hstart nofun
    · cases hs
      exact (conserved_idle hp).mpr h

theorem Conserved.synchronize (h : m.server.Accounted none) (hp : m.phase = .idle) {core_id time}
    (hfree : ∀ t, (m.cores.core core_id).thread = some t → ∀ c, t ∉ m.server.m_core_cond c)
    (hs : m.synchronize core_id time = .ok m') : m'.Conserved := by
  rw [Machine.synchronize] at hs
  split at hs
  · cases hs
    exact (conserved_idle hp).mpr h
  case isFalse hen =>
    have hen : m.server.m_disable = false := Bool.not_eq_true _ ▸ hen
    dsimp only at hs
    split at hs
    · cases hs
    case h_2 thread_me ht =>
      split at hs
      · cases hs
      · split at hs
        · cases hs
        case isFalse hacq =>
          have hacq : m.server.m_barrier_acquire_list (m.server.masterOf core_id) = false :=
            Bool.not_eq_true _ ▸ hacq
          split at hs
          · cases hs
            exact (conserved_idle hp).mpr h
          · have hsame := doRelease_same m.server 1
            have hentered := (h.doRelease 1).enter (hsame.disable.trans hen)
              (m.server.masterOf core_id) (by rw [hsame.acquire, hacq]) time thread_me
            split at hs
            · obtain ⟨s, hstart, rfl⟩ := of_map_ok hs
              refine Accounted.startRelease (some (_, thread_me)) hentered hstart ?_
              intro me t he
              cases he
              refine ⟨fun c hc => hfree _ ht c (mem_cond_of_doRelease hc), ?_, ?_⟩
              all_goals exact update_self ..
            · cases hs
              refine conserved_of_accounted hp (hentered.waitCond ?_ ?_)
              all_goals exact update_self ..

variable [DecidableEq T]

theorem Conserved.hooksReturn (h : m.Conserved) {shuffle} (hperm : ∀ l, (shuffle l).Perm l)
    (hs : m.hooksReturn hostCores shuffle = .ok m') :
    m'.Conserved := by
  rw [Machine.hooksReturn] at hs
  split at hs
  · cases hs
  case h_2 caller hp =>
    have hr := (conserved_hooks hp).mp h
    split at hs
    case isTrue hd =>
      cases hs
      have hnone := hr.accounted.disabled hd
      exact (hr.accounted.change_absent (fun c _ => hnone c) nofun : m.server.Accounted none)
    case isFalse hd =>
      dsimp only at hs
      split at hs
      case isTrue hresumed =>
        cases hs
        have hround := hr.releaseRound.perm (hperm _)
        refine hr.leave _ hresumed (hround.doRelease _) ?_ ?_
        · exact (doRelease_same _ _).acquire
        · refine (doRelease_same _ _).thread.trans ?_
          rw [releaseRound_eq]
          rfl
      case isFalse hresumed =>
        cases hs
        exact conserved_of_releasing hp (hr.startRound (Bool.not_eq_true _ ▸ hresumed))

theorem Conserved.step (h : m.Conserved) (hst : Step hostCores m m') : m'.Conserved := by
  obtain ⟨call, hallow, hs⟩ := hst
  cases call with
  | synchronize core_id time => exact .synchronize ((conserved_idle hallow.1).mp h) hallow.1 hallow.2 hs
  | threadExit t | threadStall t =>
    have hidle := ((conserved_idle hallow).mp h).releaseThread t
    exact Conserved.signal (m := { m with server := _ }) hidle hallow hs
  | threadMigrate t =>
    cases hs
    exact h.map (fun h => h.releaseThread t) fun _ h => h.releaseThread t
  | setGroup core_id master =>
    obtain ⟨s, hset, rfl⟩ := of_map_ok hs
    rw [setGroup] at hset
    split at hset
    · cases hset
    · cases hset
      exact h.map (fun h => h.congr rfl rfl rfl rfl rfl) fun _ h => h.congr rfl rfl rfl rfl rfl
  | setFastForward fastforward next =>
    cases hs
    have hsame : ∀ s : Server n T, s.setFastForward fastforward next =
        { s with m_fastforward := fastforward,
                 m_next_barrier_time := (s.setFastForward fastforward next).m_next_barrier_time } := by
      intro s
      rw [setFastForward]
      split <;> rfl
    refine h.map (fun h => ?_) fun _ h => ?_
    all_goals rw [hsame]; exact h.congr rfl rfl rfl rfl rfl
  | setDisable disable =>
    cases hs
    exact h.map (fun h => h.setDisable (.inl rfl) disable) fun _ h => h.setDisable disable
  | environment cores =>
    cases hs
    exact h
  | hooksReturn shuffle => exact h.hooksReturn hallow hs

/-- At every moment of every run, each core blocked on its condition variable is in the
acquire list or in the release list; and disabling the barrier leaves nobody blocked if and
only if the release list is empty. -/
theorem blocked_listed_and_woken (h : Reachable Init (Step hostCores) m) :
    (∀ c, m.server.m_core_cond c ≠ [] →
      m.server.m_barrier_acquire_list c = true ∨ c ∈ m.server.m_to_release) ∧
    ((∀ c, (m.server.setDisable true).m_core_cond c = []) ↔ m.server.m_to_release = []) := by
  have hinv : m.Conserved := h.invariant (fun _ => Init.conserved) fun _ _ h hst => h.step hst
  rw [Conserved] at hinv
  split at hinv
  · exact ⟨fun _ => hinv.listed, hinv.blocked_setDisable (.inl rfl)⟩
  · exact ⟨fun _ => hinv.accounted.listed, hinv.accounted.blocked_setDisable (.inr hinv.drained)⟩

theorem threeCores_released : ∃ m : Machine 3 (Fin 3), Reachable Init (Step 1) m ∧
    m.server.m_core_cond 0 = [0] ∧ (m.server.setDisable true).m_core_cond 0 = [0] := by
  have h0 : Reachable Init (Step 1) (running 3) := .init (running_init 3)
  have h1 := h0.step ⟨.synchronize 0 100, ⟨rfl, fun _ _ _ => nofun⟩, rfl⟩
  have h2 := h1.step ⟨.synchronize 1 100, ⟨rfl, by decide⟩, rfl⟩
  have h3 := h2.step ⟨.synchronize 2 100, ⟨rfl, by decide⟩, rfl⟩
  have h4 := h3.step ⟨.hooksReturn id, fun _ => .rfl, rfl⟩
  exact ⟨_, h4, by decide, by decide⟩

theorem blocked_listed_and_woken_threeCores : ∃ m : Machine 3 (Fin 3),
    m.server.m_core_cond 0 = [0] ∧
    (∀ c, m.server.m_core_cond c ≠ [] →
      m.server.m_barrier_acquire_list c = true ∨ c ∈ m.server.m_to_release) ∧
    ((∀ c, (m.server.setDisable true).m_core_cond c = []) ↔ m.server.m_to_release = []) := by
  obtain ⟨m, h, hc, -⟩ := threeCores_released
  exact ⟨m, hc, blocked_listed_and_woken h⟩

/-- The running thread disables the barrier and the third one is never woken. -/
theorem disable_leaves_blocked : ∃ m : Machine 3 (Fin 3), Reachable Init (Step 1) m ∧
    ¬ ∀ c, (m.server.setDisable true).m_core_cond c = [] := by
  obtain ⟨m, h, -, hc⟩ := threeCores_released
  refine ⟨m, h, fun hall => ?_⟩
  rw [hall 0] at hc
  cases hc

end Machine
end Sniper.Threads.Barrier
