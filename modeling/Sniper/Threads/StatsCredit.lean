import Mathlib.Algebra.Order.BigOperators.Group.List
import Mathlib.Algebra.Order.Group.Nat
import Sniper.Threads.ThreadStats

/-! # Instructions are credited to the thread that ran them

A thread's pending instructions, those its core executed since its last snapshot, are its own as
long as the snapshot is taken again whenever the thread has moved. While listeners run, the
threads that are just being moved are exempt (`Exempt`); nothing is executed meanwhile.
-/
namespace Sniper.Threads.Stats
open Lib.Attribution Lib.Simulation
variable {n : Nat} {s s' : System n} {E E' : Nat → Prop} {st : ThreadStats n} {t : Nat}
  {again : System n → Except String (System n)}

/-! ### Statistics of one thread -/

/-- What the thread has been credited with is its own. -/
def ThreadStats.Sound (log : Fin n → List (Option Nat)) (t : Nat) (st : ThreadStats n) : Prop :=
  ∀ c, Claimed (log c) t (st.credited c) ∧ st.insn_by_core c = UInt64.ofNat (st.credited c).length

/-- What its core has executed since the last snapshot is the thread's as well. -/
structure ThreadStats.Pending (log : Fin n → List (Option Nat)) (t : Nat) (st : ThreadStats n)
    (c : Fin n) : Prop where
  last : st.m_last .INSTRUCTIONS = UInt64.ofNat st.position
  reached : st.position ≤ (log c).length
  credited : ∀ i ∈ st.credited c, i < st.position
  owned : OwnedFrom (log c) t st.position

/-- The two records differ only in what is not counted per instruction. -/
structure ThreadStats.Same (st st' : ThreadStats n) : Prop where
  core : st'.m_core_id = st.m_core_id
  insn : st'.insn_by_core = st.insn_by_core
  last : st'.m_last = st.m_last
  credited : st'.credited = st.credited
  position : st'.position = st.position

variable {log : Fin n → List (Option Nat)} {st' : ThreadStats n}

theorem ThreadStats.Sound.same (h : st.Sound log t) (hst : st.Same st') : st'.Sound log t := by
  intro c
  rw [hst.credited, hst.insn]
  exact h c

theorem ThreadStats.Pending.same {c} (h : st.Pending log t c) (hst : st.Same st') :
    st'.Pending log t c := by
  obtain ⟨_, _, hlast, hcredited, hposition⟩ := hst
  refine ⟨?_, ?_, ?_, ?_⟩
  · rw [hlast, hposition]
    exact h.last
  · rw [hposition]
    exact h.reached
  · rw [hcredited, hposition]
    exact h.credited
  · rw [hposition]
    exact h.owned

theorem sound_new : ThreadStats.new.Sound log t := fun _ => ⟨claimed_nil, rfl⟩

theorem ThreadStats.Sound.increment {c} (h : st.Sound s.instructions t)
    (hpending : st.Pending s.instructions t c) :
    (st.increment s c).Sound s.instructions t := by
  intro d
  by_cases hd : d = c
  · subst hd
    obtain ⟨hclaimed, hinsn⟩ := h d
    refine ⟨?_, ?_⟩
    · simpa [ThreadStats.increment] using hclaimed.extend hpending.credited hpending.owned
    · have hcount : s.getInstructionCount d - st.m_last .INSTRUCTIONS =
          UInt64.ofNat ((s.instructions d).length - st.position) := by
        rw [hpending.last, UInt64.ofNat_sub hpending.reached]
        rfl
      simp [ThreadStats.increment, hinsn, hcount]
  · simpa [ThreadStats.increment, hd] using h d

theorem ThreadStats.Sound.progress (time : SubsecondTime) (h : st.Sound s.instructions t)
    (hpending : ∀ c, st.m_core_id = some c → st.Pending s.instructions t c) :
    (st.progress s time).Sound s.instructions t := by
  cases hcore : st.m_core_id with
  | none =>
    simp only [ThreadStats.progress, hcore]
    exact h
  | some c =>
    simp only [ThreadStats.progress, hcore]
    exact h.increment (hpending c hcore)

theorem ThreadStats.Sound.snapshot (h : st.Sound s.instructions t) (core_id : Option (Fin n)) :
    (st.snapshot s core_id).Sound s.instructions t ∧
      ∀ c, (st.snapshot s core_id).m_core_id = some c →
        (st.snapshot s core_id).Pending s.instructions t c := by
  cases core_id with
  | none => exact ⟨h, nofun⟩
  | some c =>
    refine ⟨h, fun d hd => ?_⟩
    cases hd
    exact ⟨rfl, Nat.le_refl _, (h c).1.lt_length, ownedFrom_length⟩

theorem snapshot_core (core_id : Option (Fin n)) : (st.snapshot s core_id).m_core_id = core_id := by
  cases core_id <;> rfl

/-- The thread has statistics that are kept up to date: it has started and has not exited. -/
def System.Live (s : System n) (t : Nat) : Prop :=
  (s.thread_state t).status ≠ .IDLE ∧ (s.thread_state t).status ≠ .INITIALIZING

theorem update_of_live (time : SubsecondTime) (init : Bool) (hlive : s.Live t)
    (h : st.Sound s.instructions t)
    (hpending : ∀ c, st.m_core_id = some c → st.Pending s.instructions t c) :
    (st.update s t time init).Sound s.instructions t ∧
      (∀ c, (st.update s t time init).m_core_id = some c →
        (st.update s t time init).Pending s.instructions t c) ∧
      (st.update s t time init).m_core_id = s.thread_core t := by
  obtain ⟨hidle, hinit⟩ := hlive
  rw [ThreadStats.update.eq_def]
  simp only [hidle, hinit, or_self, if_false]
  generalize (if init = true ∨ time < st.m_time_last then 0 else time - st.m_time_last) = delta
  have hsame : st.Same { st with m_elapsed_time := st.m_elapsed_time + delta } :=
    ⟨rfl, rfl, rfl, rfl, rfl⟩
  have hprogress := (h.same hsame).progress delta
    fun c hc => (hpending c hc).same hsame
  obtain ⟨hsound, hnext⟩ := hprogress.snapshot (s.thread_core t)
  refine ⟨hsound.same ⟨rfl, rfl, rfl, rfl, rfl⟩, fun c hc => ?_, snapshot_core _⟩
  exact (hnext c hc).same ⟨rfl, rfl, rfl, rfl, rfl⟩

theorem update_of_not_live {time init} (hlive : ¬ s.Live t) :
    st.update s t time init = st := by
  have hstatus : (s.thread_state t).status = .IDLE ∨ (s.thread_state t).status = .INITIALIZING := by
    by_contra hnot
    exact hlive (not_or.mp hnot)
  simp [ThreadStats.update, hstatus]

/-! ### All threads -/

/-- The tables of cores and threads fit, and so do the statistics of all threads; those in `E`
may have moved since their last snapshot. -/
structure Fits (s : System n) (E : Nat → Prop) : Prop where
  placed : ∀ t c, s.thread_core t = some c ↔ s.core_thread c = some t
  created : ∀ t, s.num_threads ≤ t → s.thread_core t = none ∧ s.m_threads_stats t = none
  sound : ∀ t st, s.m_threads_stats t = some st → st.Sound s.instructions t
  pending : ∀ t st, s.m_threads_stats t = some st → s.Live t →
    ∀ c, st.m_core_id = some c → st.Pending s.instructions t c
  fresh : ∀ t st, s.m_threads_stats t = some st → (s.thread_state t).status = .INITIALIZING →
    st.m_core_id = none
  synced : ∀ t st, s.m_threads_stats t = some st → s.Live t → ¬ E t →
    st.m_core_id = s.thread_core t

/-- What no call of a hook changes. -/
structure Kept (s s' : System n) : Prop where
  threads : s'.num_threads = s.num_threads
  instructions : s'.instructions = s.instructions
  exited : ∀ t, (s'.thread_state t).status = .IDLE ↔ (s.thread_state t).status = .IDLE
  starting : ∀ t, (s'.thread_state t).status = .INITIALIZING →
    (s.thread_state t).status = .INITIALIZING

theorem Kept.same (hthreads : s'.num_threads = s.num_threads)
    (hlog : s'.instructions = s.instructions) (hstate : s'.thread_state = s.thread_state) :
    Kept s s' := by
  refine ⟨hthreads, hlog, fun t => ?_, fun t ht => ?_⟩
  · rw [hstate]
  · rwa [hstate] at ht

theorem Kept.trans {s''} (h : Kept s s') (h' : Kept s' s'') : Kept s s'' :=
  ⟨h'.threads.trans h.threads, h'.instructions.trans h.instructions,
    fun t => (h'.exited t).trans (h.exited t), fun t ht => h.starting t (h'.starting t ht)⟩

theorem Kept.not_idle (h : Kept s s') (ht : (s.thread_state t).status ≠ .IDLE) :
    (s'.thread_state t).status ≠ .IDLE :=
  fun hidle => ht ((h.exited t).mp hidle)

theorem Kept.live (h : Kept s s') (ht : s.Live t) : s'.Live t :=
  ⟨h.not_idle ht.1, fun hinit => ht.2 (h.starting t hinit)⟩

/-- What a call of a hook guarantees, whoever is being moved. -/
def Safe (again : System n → Except String (System n)) : Prop :=
  ∀ E s s', Fits s E → again s = .ok s' → Fits s' E ∧ Kept s s'

theorem Fits.mono (h : Fits s E) (hE : ∀ t, E t → E' t) : Fits s E' :=
  ⟨h.placed, h.created, h.sound, h.pending, h.fresh,
    fun t st hst hlive hnot => h.synced t st hst hlive fun ht => hnot (hE t ht)⟩

theorem Fits.stats {stats time} (h : Fits s E)
    (hstats : ∀ t st', stats t = some st' → ∃ st, s.m_threads_stats t = some st ∧ st.Same st') :
    Fits { s with m_threads_stats := stats, m_waiting_time_last := time } E := by
  refine ⟨h.placed, fun t ht => ⟨(h.created t ht).1, ?_⟩, fun t st' hst' => ?_,
    fun t st' hst' hlive c hc => ?_, fun t st' hst' hinit => ?_, fun t st' hst' hlive hnot => ?_⟩
  · dsimp only
    cases hst' : stats t with
    | none => rfl
    | some st' =>
      obtain ⟨st, hst, _⟩ := hstats t st' hst'
      rw [(h.created t ht).2] at hst
      cases hst
  all_goals obtain ⟨st, hst, hsame⟩ := hstats t st' hst'
  · exact (h.sound t st hst).same hsame
  · rw [hsame.core] at hc
    exact (h.pending t st hst hlive c hc).same hsame
  · rw [hsame.core]
    exact h.fresh t st hst hinit
  · rw [hsame.core]
    exact h.synced t st hst hlive hnot

theorem calculateWaitingCosts_fits (time : SubsecondTime) (h : Fits s E) :
    Fits (s.calculateWaitingCosts time) E ∧ Kept s (s.calculateWaitingCosts time) := by
  rw [System.calculateWaitingCosts.eq_def]
  dsimp only
  split
  case isTrue =>
    split
    case isTrue =>
      refine ⟨h.stats fun t st' hst' => ?_, .same rfl rfl rfl⟩
      dsimp only [System.addWaitingCost] at hst'
      split at hst'
      case isTrue =>
        obtain ⟨st, hst, hst'⟩ := Option.map_eq_some_iff.mp hst'
        exact ⟨st, hst, hst' ▸ ⟨rfl, rfl, rfl, rfl, rfl⟩⟩
      case isFalse => exact ⟨st', hst', ⟨rfl, rfl, rfl, rfl, rfl⟩⟩
    case isFalse =>
      exact ⟨h.stats fun t st' hst' => ⟨st', hst', ⟨rfl, rfl, rfl, rfl, rfl⟩⟩, .same rfl rfl rfl⟩
  case isFalse => exact ⟨h, .same rfl rfl rfl⟩

theorem Fits.update {time init} (h : Fits s E) (hst : s.m_threads_stats t = some st) :
    (st.update s t time init).Sound s.instructions t ∧
      (s.Live t → (∀ c, (st.update s t time init).m_core_id = some c →
        (st.update s t time init).Pending s.instructions t c) ∧
        (st.update s t time init).m_core_id = s.thread_core t) ∧
      ((s.thread_state t).status = .INITIALIZING →
        (st.update s t time init).m_core_id = none) := by
  by_cases hlive : s.Live t
  · obtain ⟨hsound, hpending, hcore⟩ := update_of_live time init hlive
      (h.sound t st hst) (h.pending t st hst hlive)
    exact ⟨hsound, fun _ => ⟨hpending, hcore⟩, fun hinit => absurd hinit hlive.2⟩
  · rw [update_of_not_live hlive]
    exact ⟨h.sound t st hst, fun hyes => absurd hyes hlive, h.fresh t st hst⟩

theorem Fits.updates {stats} (time : SubsecondTime) (h : Fits s E)
    (hstats : ∀ t st', stats t = some st' → ∃ st, s.m_threads_stats t = some st ∧
      ((∃ init, st' = st.update s t time init) ∨ st' = st ∧ (E t → E' t))) :
    Fits { s with m_threads_stats := stats } E' := by
  refine ⟨h.placed, fun t ht => ⟨(h.created t ht).1, ?_⟩, fun t st' hst' => ?_,
    fun t st' hst' hlive => ?_, fun t st' hst' hinit => ?_, fun t st' hst' hlive hnot => ?_⟩
  · dsimp only
    cases hst' : stats t with
    | none => rfl
    | some st' =>
      obtain ⟨st, hst, _⟩ := hstats t st' hst'
      rw [(h.created t ht).2] at hst
      cases hst
  all_goals obtain ⟨st, hst, ⟨init, rfl⟩ | ⟨rfl, hE⟩⟩ := hstats t st' hst'
  · exact (h.update hst).1
  · exact h.sound t _ hst
  · exact ((h.update hst).2.1 hlive).1
  · exact h.pending t _ hst hlive
  · exact (h.update hst).2.2 hinit
  · exact h.fresh t _ hst hinit
  · exact ((h.update hst).2.1 hlive).2
  · exact h.synced t _ hst hlive fun ht => hnot (hE ht)

theorem updateThread_fits {time init} (h : Fits s E) (hs : s.updateThread t time init = .ok s') :
    Fits s' (fun x => E x ∧ x ≠ t) ∧ Kept s s' := by
  rw [System.updateThread.eq_def] at hs
  split at hs
  case h_1 => cases hs
  case h_2 st hst =>
    cases hs
    refine ⟨h.updates time fun x st' hst' => ?_, .same rfl rfl rfl⟩
    by_cases hxt : x = t
    · subst hxt
      rw [Function.update_self] at hst'
      exact ⟨st, hst, .inl ⟨init, (Option.some.inj hst').symm⟩⟩
    · rw [Function.update_of_ne hxt] at hst'
      exact ⟨st', hst', .inr ⟨rfl, fun hE => ⟨hE, hxt⟩⟩⟩

theorem updateAll_fits {time} (h : Fits s E) :
    Fits (s.updateAll time) E ∧ Kept s (s.updateAll time) := by
  refine ⟨h.updates time fun x st' hst' => ?_, .same rfl rfl rfl⟩
  split at hst'
  case isTrue =>
    obtain ⟨st, hst, hst'⟩ := Option.map_eq_some_iff.mp hst'
    exact ⟨st, hst, .inl ⟨false, hst'.symm⟩⟩
  case isFalse => exact ⟨st', hst', .inr ⟨rfl, id⟩⟩

theorem system_update_fits {thread_id time} (h : Fits s E) (hs : s.update thread_id time = .ok s') :
    Fits s' (fun x => E x ∧ thread_id ≠ some x) ∧ Kept s s' := by
  rw [System.update.eq_def] at hs
  dsimp only at hs
  obtain ⟨hfits, hkept⟩ := calculateWaitingCosts_fits
    (if time = 0xffffffffffffffff then s.global_time else time) h
  cases thread_id with
  | none =>
    cases hs
    obtain ⟨hfits, hkept'⟩ := updateAll_fits hfits
    exact ⟨hfits.mono fun x hx => ⟨hx, nofun⟩, hkept.trans hkept'⟩
  | some t =>
    obtain ⟨hfits, hkept'⟩ := updateThread_fits hfits hs
    exact ⟨hfits.mono fun x hx => ⟨hx.1, fun heq => hx.2 (Option.some.inj heq).symm⟩,
      hkept.trans hkept'⟩

/-! ### Threads and cores -/

theorem setCoreState_fits {c state} (h : Fits s E) :
    Fits (s.setCoreState c state) E :=
  ⟨h.placed, h.created, h.sound, h.pending, h.fresh, h.synced⟩

theorem setCoreStateOf_fits (t : Nat) (state : CoreState) (h : Fits s E) :
    Fits (s.setCoreStateOf t state) E ∧ Kept s (s.setCoreStateOf t state) := by
  rw [System.setCoreStateOf.eq_def]
  split
  · exact ⟨setCoreState_fits h, .same rfl rfl rfl⟩
  · exact ⟨h, .same rfl rfl rfl⟩

theorem setState_fits (state : ThreadState) (h : Fits s E)
    (hidle : (s.thread_state t).status ≠ .IDLE)
    (hstate : state.status ≠ .IDLE ∧ state.status ≠ .INITIALIZING) :
    Fits (s.setState t state) (fun x => E x ∨ x = t) ∧ Kept s (s.setState t state) := by
  have hlive : ∀ x, (s.setState t state).Live x → x ≠ t → s.Live x := by
    intro x hx hne
    simpa [System.Live, System.setState, hne] using hx
  refine ⟨⟨h.placed, h.created, h.sound, fun x st hst hx c hc => ?_, fun x st hst hinit => ?_,
    fun x st hst hx hnot => ?_⟩, ⟨rfl, rfl, fun x => ?_, fun x hx => ?_⟩⟩
  · by_cases hxt : x = t
    · subst hxt
      by_cases hbefore : s.Live x
      · exact h.pending x st hst hbefore c hc
      · have hinit : (s.thread_state x).status = .INITIALIZING := by
          by_contra hne
          exact hbefore ⟨hidle, hne⟩
        rw [h.fresh x st hst hinit] at hc
        cases hc
    · exact h.pending x st hst (hlive x hx hxt) c hc
  · by_cases hxt : x = t
    · subst hxt
      simp [System.setState, hstate.2] at hinit
    · exact h.fresh x st hst (by simpa [System.setState, hxt] using hinit)
  · have hxt : x ≠ t := fun heq => hnot (.inr heq)
    exact h.synced x st hst (hlive x hx hxt) fun hE => hnot (.inl hE)
  · by_cases hxt : x = t
    · subst hxt
      simp [System.setState, hstate.1, hidle]
    · simp [System.setState, hxt]
  · by_cases hxt : x = t
    · subst hxt
      simp [System.setState, hstate.2] at hx
    · simpa [System.setState, hxt] using hx

theorem setState_live_fits {state} (h : Fits s E) (hlive : s.Live t)
    (hstate : state.status ≠ .IDLE ∧ state.status ≠ .INITIALIZING) :
    Fits (s.setState t state) E := by
  have hset := (setState_fits state h hlive.1 hstate).1
  refine ⟨h.placed, h.created, h.sound, hset.pending, hset.fresh, fun x st hst hx hnot => ?_⟩
  by_cases hxt : x = t
  · subst hxt
    exact h.synced x st hst hlive hnot
  · exact hset.synced x st hst hx (not_or.mpr ⟨hnot, hxt⟩)

theorem setStatus_idle_fits (h : Fits s E) : Fits (s.setStatus t .IDLE) E := by
  have hlive : ∀ x, (s.setStatus t .IDLE).Live x → s.Live x := by
    intro x hx
    by_cases hxt : x = t
    · subst hxt
      simp [System.Live, System.setStatus, System.setState] at hx
    · simpa [System.Live, System.setStatus, System.setState, hxt] using hx
  refine ⟨h.placed, h.created, h.sound, fun x st hst hx => h.pending x st hst (hlive x hx),
    fun x st hst hinit => ?_, fun x st hst hx => h.synced x st hst (hlive x hx)⟩
  by_cases hxt : x = t
  · subst hxt
    simp [System.setStatus, System.setState] at hinit
  · exact h.fresh x st hst (by simpa [System.setStatus, System.setState, hxt] using hinit)

theorem Fits.leaveCore (h : Fits s E) (c : Fin n) :
    (s.leaveCore t).core_thread c = if s.core_thread c = some t then none else s.core_thread c := by
  rw [System.leaveCore.eq_def]
  cases hcore : s.thread_core t with
  | none =>
    have hne : s.core_thread c ≠ some t := fun heq => by
      rw [(h.placed t c).mpr heq] at hcore
      cases hcore
    simp [hne]
  | some d =>
    by_cases hcd : c = d
    · subst hcd
      simp [(h.placed t c).mp hcore]
    · have hne : s.core_thread c ≠ some t := fun heq => by
        rw [(h.placed t c).mpr heq] at hcore
        exact hcd (Option.some.inj hcore)
      simp [hcd, hne]

theorem Fits.setCore {core_id} (h : Fits s E) (hs : s.setCore t core_id = .ok s') :
    (∀ x c, s'.thread_core x = some c ↔ s'.core_thread c = some x) ∧
      s' = { s with thread_core := Function.update s.thread_core t core_id,
                    core_thread := s'.core_thread } := by
  have hleave : s.leaveCore t = { s with core_thread := (s.leaveCore t).core_thread } := by
    rw [System.leaveCore.eq_def]
    split <;> rfl
  have hother : ∀ x c, x ≠ t →
      ((s.leaveCore t).core_thread c = some x ↔ s.thread_core x = some c) := by
    intro x c hxt
    rw [h.leaveCore, h.placed]
    split
    case isTrue heq => simp [heq, Ne.symm hxt]
    case isFalse => exact Iff.rfl
  have hself : ∀ c, (s.leaveCore t).core_thread c ≠ some t := by
    intro c
    rw [h.leaveCore]
    split
    · nofun
    · assumption
  rw [System.setCore.eq_def] at hs
  dsimp only at hs
  cases core_id with
  | none =>
    cases hs
    refine ⟨fun x c => ?_, by rw [hleave]⟩
    by_cases hxt : x = t
    · subst hxt
      simp [hself]
    · rw [hother x c hxt, hleave]
      simp [hxt]
  | some d =>
    dsimp only at hs
    split at hs
    case isTrue => cases hs
    case isFalse hfree =>
      rw [ne_eq, not_not] at hfree
      cases hs
      refine ⟨fun x c => ?_, by rw [hleave]⟩
      by_cases hxt : x = t
      · subst hxt
        by_cases hcd : c = d
        · simp [hcd]
        · simp [hcd, Ne.symm hcd, hself]
      · by_cases hcd : c = d
        · subst hcd
          have hnot : s.thread_core x ≠ some c := by
            rw [ne_eq, ← hother x c hxt, hfree]
            nofun
          rw [hleave]
          simp [hxt, Ne.symm hxt, hnot]
        · have hread := hother x c hxt
          rw [hleave] at hread ⊢
          simp [hxt, hcd, hread]

theorem setCore_fits {core_id} (h : Fits s E) (ht : t < s.num_threads)
    (hs : s.setCore t core_id = .ok s') : Fits s' (fun x => E x ∨ x = t) ∧ Kept s s' := by
  obtain ⟨hplaced, hs'⟩ := h.setCore hs
  generalize s'.core_thread = table at hs'
  subst hs'
  refine ⟨⟨hplaced, fun x hx => ⟨?_, (h.created x hx).2⟩, h.sound, h.pending, h.fresh,
    fun x st hst hlive hnot => ?_⟩, .same rfl rfl rfl⟩
  · have hxt : x ≠ t := Nat.ne_of_gt (Nat.lt_of_lt_of_le ht hx)
    simpa [hxt] using (h.created x hx).1
  · obtain ⟨hE, hxt⟩ := not_or.mp hnot
    simpa [hxt] using h.synced x st hst hlive hE

/-! ### Hooks -/

theorem resumeThread_fits {time} (hagain : Safe again) (h : Fits s E)
    (hidle : (s.thread_state t).status ≠ .IDLE) (hs : resumeThread again s t time = .ok s') :
    Fits s' E ∧ Kept s s' := by
  rw [resumeThread.eq_def] at hs
  split at hs
  · cases hs
  obtain ⟨s₁, h₁, hs⟩ := of_bind_ok hs
  obtain ⟨s₂, h₂, hs⟩ := of_bind_ok hs
  obtain ⟨hset, hkept⟩ := setState_fits ⟨.RUNNING, _⟩ h hidle ⟨nofun, nofun⟩
  obtain ⟨hfits, hkept₁⟩ := hagain _ _ _ hset h₁
  obtain ⟨hfits, hkept₂⟩ := calculateWaitingCosts_fits time hfits
  obtain ⟨hfits, hkept₃⟩ := updateThread_fits hfits h₂
  have hback : Fits s₂ E := hfits.mono fun x hx => hx.1.resolve_right hx.2
  obtain ⟨hfits, hkept₄⟩ := hagain _ _ _ hback hs
  exact ⟨hfits, (((hkept.trans hkept₁).trans hkept₂).trans hkept₃).trans hkept₄⟩

theorem resumeThreads_fits {time woken} (hagain : Safe again) (h : Fits s E)
    (hidle : ∀ t ∈ woken, (s.thread_state t).status ≠ .IDLE)
    (hs : resumeThreads again time woken s = .ok s') : Fits s' E ∧ Kept s s' := by
  induction woken generalizing s with
  | nil =>
    cases hs
    exact ⟨h, .same rfl rfl rfl⟩
  | cons t rest ih =>
    obtain ⟨s₁, h₁, hs⟩ := of_bind_ok hs
    obtain ⟨hfits, hkept⟩ := resumeThread_fits hagain h (hidle t (List.mem_cons_self ..)) h₁
    obtain ⟨hfits, hkept'⟩ := ih hfits
      (fun x hx => hkept.not_idle (hidle x (List.mem_cons_of_mem _ hx))) hs
    exact ⟨hfits, hkept.trans hkept'⟩

theorem wakeUnscheduled_fits {time} (hagain : Safe again) (h : Fits s E)
    (hs : wakeUnscheduled again s t time = .ok s') : Fits s' E ∧ Kept s s' := by
  rw [wakeUnscheduled.eq_def] at hs
  split at hs
  case isTrue hstalled =>
    refine resumeThread_fits hagain h ?_ hs
    simp [hstalled.2]
  case isFalse =>
    cases hs
    exact ⟨h, .same rfl rfl rfl⟩

theorem moveThread_fits {core_id time} (hagain : Safe again) (h : Fits s E)
    (hs : moveThread again s t core_id time = .ok s') :
    Fits s' (fun x => E x ∨ x = t) ∧ Kept s s' := by
  rw [moveThread.eq_def] at hs
  split at hs
  · cases hs
  case isFalse hlt =>
    have ht := Nat.not_le.mp hlt
    obtain ⟨hfits, hkept⟩ := setCoreStateOf_fits t .IDLE h
    cases core_id with
    | none =>
      obtain ⟨s₁, h₁, hs⟩ := of_bind_ok hs
      obtain ⟨hfits, hkept₁⟩ := setCore_fits hfits (hkept.threads.symm ▸ ht) h₁
      obtain ⟨hfits, hkept₂⟩ := hagain _ _ _ hfits hs
      exact ⟨hfits, (hkept.trans hkept₁).trans hkept₂⟩
    | some c =>
      obtain ⟨s₁, h₁, hs⟩ := of_bind_ok hs
      obtain ⟨s₂, h₂, hs⟩ := of_bind_ok hs
      obtain ⟨hfits, hkept₁⟩ := wakeUnscheduled_fits hagain hfits h₁
      have hkept := hkept.trans hkept₁
      obtain ⟨hfits, hkept₂⟩ := setCore_fits hfits (hkept.threads.symm ▸ ht) h₂
      have hkept := hkept.trans hkept₂
      split at hs
      · obtain ⟨hfits, hkept₃⟩ := hagain _ _ _ (setCoreState_fits hfits) hs
        have hsame : Kept s₂ (s₂.setCoreState c .RUNNING) := .same rfl rfl rfl
        exact ⟨hfits, (hkept.trans hsame).trans hkept₃⟩
      · obtain ⟨hfits, hkept₃⟩ := hagain _ _ _ hfits hs
        exact ⟨hfits, hkept.trans hkept₃⟩

theorem schedulerMoveThread_fits {core_id time} (hagain : Safe again) (h : Fits s E)
    (hs : schedulerMoveThread again s t core_id time = .ok s') : Fits s' E ∧ Kept s s' := by
  obtain ⟨s₁, h₁, hs⟩ := of_bind_ok hs
  obtain ⟨hfits, hkept₁⟩ := moveThread_fits hagain h h₁
  obtain ⟨hfits, hkept₂⟩ := system_update_fits hfits hs
  refine ⟨hfits.mono fun x hx => hx.1.resolve_right fun hxt => hx.2 ?_, hkept₁.trans hkept₂⟩
  rw [hxt]

theorem perform_fits {actions} (hagain : Safe again) (h : Fits s E)
    (hs : perform again actions s = .ok s') : Fits s' E ∧ Kept s s' := by
  induction actions generalizing s with
  | nil =>
    cases hs
    exact ⟨h, .same rfl rfl rfl⟩
  | cons action rest ih =>
    have hstep : ∃ s₁, Fits s₁ E ∧ Kept s s₁ ∧ perform again rest s₁ = .ok s' := by
      cases action with
      | moveThread t core_id time =>
        obtain ⟨s₁, h₁, hs⟩ := of_bind_ok hs
        obtain ⟨hfits, hkept⟩ := schedulerMoveThread_fits hagain h h₁
        exact ⟨s₁, hfits, hkept, hs⟩
      | update thread_id time =>
        obtain ⟨s₁, h₁, hs⟩ := of_bind_ok hs
        obtain ⟨hfits, hkept⟩ := system_update_fits h h₁
        exact ⟨s₁, hfits.mono fun x hx => hx.1, hkept, hs⟩
    obtain ⟨s₁, hfits, hkept, hs⟩ := hstep
    obtain ⟨hfits, hkept'⟩ := ih hfits hs
    exact ⟨hfits, hkept.trans hkept'⟩

theorem Fits.listeners {listeners} (h : Fits s E) :
    Fits { s with listeners := listeners } E :=
  ⟨h.placed, h.created, h.sound, h.pending, h.fresh, h.synced⟩

theorem notify_safe (depth : Nat) : Safe (notify (n := n) depth) := by
  induction depth with
  | zero => exact fun _ _ _ _ hs => nomatch hs
  | succ depth ih =>
    intro E s s' h hs
    rw [notify.eq_def] at hs
    dsimp only at hs
    split at hs
    · cases hs
      exact ⟨h, .same rfl rfl rfl⟩
    case h_2 actions rest _ =>
      obtain ⟨hfits, hkept⟩ := perform_fits ih h.listeners hs
      have hsame : Kept s { s with listeners := rest } := .same rfl rfl rfl
      exact ⟨hfits, hsame.trans hkept⟩

/-! ### Calls -/

/-- Nobody is being moved. -/
abbrev Settled (s : System n) : Prop := Fits s fun _ => False

theorem Fits.newStats (h : Fits s E) (ht : t < s.num_threads)
    (hinit : (s.thread_state t).status = .INITIALIZING) (hE : ∀ x, E x → x = t) :
    Settled { s with m_threads_stats := Function.update s.m_threads_stats t (some .new) } := by
  have hnotlive : ¬ s.Live t := fun hlive => hlive.2 hinit
  have hread : ∀ x st, Function.update s.m_threads_stats t (some .new) x = some st →
      x = t ∧ st = .new ∨ x ≠ t ∧ s.m_threads_stats x = some st := by
    intro x st hst
    by_cases hxt : x = t
    · subst hxt
      rw [Function.update_self] at hst
      exact .inl ⟨rfl, (Option.some.inj hst).symm⟩
    · rw [Function.update_of_ne hxt] at hst
      exact .inr ⟨hxt, hst⟩
  refine ⟨h.placed, fun x hx => ⟨(h.created x hx).1, ?_⟩, fun x st hst => ?_,
    fun x st hst hlive => ?_, fun x st hst hstart => ?_, fun x st hst hlive _ => ?_⟩
  · have hxt : x ≠ t := Nat.ne_of_gt (Nat.lt_of_lt_of_le ht hx)
    simpa [hxt] using (h.created x hx).2
  all_goals obtain ⟨rfl, rfl⟩ | ⟨hxt, hst⟩ := hread x st hst
  · exact sound_new
  · exact h.sound x st hst
  · exact absurd hlive hnotlive
  · exact h.pending x st hst hlive
  · rfl
  · exact h.fresh x st hst hstart
  · exact absurd hlive hnotlive
  · exact h.synced x st hst hlive fun hx => hxt (hE x hx)

theorem createThread_settled {core_id} (hagain : Safe again) (h : Settled s)
    (hs : createThread again s core_id = .ok s') : Settled s' := by
  rw [createThread.eq_def] at hs
  dsimp only at hs
  split at hs
  · cases hs
  obtain ⟨s₁, h₁, hs⟩ := of_bind_ok hs
  refine (hagain _ _ _ ?_ hs).1
  obtain ⟨hnowhere, hnostats⟩ := h.created s.num_threads (Nat.le_refl _)
  have hnew : Settled (({ s with num_threads := s.num_threads + 1 } : System n).setState
      s.num_threads ⟨.INITIALIZING, (s.thread_state s.num_threads).stalled_reason⟩) := by
    refine ⟨h.placed, fun t ht => h.created t (Nat.le_of_succ_le ht), h.sound,
      fun t st hst hlive => ?_, fun t st hst hinit => ?_, fun t st hst hlive => ?_⟩
    all_goals
      have hne : t ≠ s.num_threads := fun heq => by
        rw [heq] at hst
        exact nomatch hnostats.symm.trans hst
    · exact h.pending t st hst (by simpa [System.Live, System.setState, hne] using hlive)
    · exact h.fresh t st hst (by simpa [System.setState, hne] using hinit)
    · exact h.synced t st hst (by simpa [System.Live, System.setState, hne] using hlive)
  have hcore : Fits s₁ (fun x => x = s.num_threads) ∧
      (s₁.thread_state s.num_threads).status = .INITIALIZING ∧
      s₁.num_threads = s.num_threads + 1 := by
    cases core_id with
    | none =>
      cases h₁
      exact ⟨hnew.mono nofun, by simp [System.setState], rfl⟩
    | some c =>
      obtain ⟨s₂, h₂, h₁⟩ := of_bind_ok h₁
      cases h₁
      obtain ⟨_, hs₂⟩ := hnew.setCore h₂
      obtain ⟨hfits, hkept⟩ := setCore_fits hnew (Nat.lt_succ_self _) h₂
      refine ⟨setCoreState_fits (hfits.mono fun x hx => hx.resolve_left id), ?_, hkept.threads⟩
      rw [hs₂]
      simp [System.setCoreState, System.setState]
  obtain ⟨hfits, hinit, hthreads⟩ := hcore
  exact hfits.newStats (hthreads ▸ Nat.lt_succ_self _) hinit fun _ => id

theorem onThreadStart_settled {time} (hagain : Safe again) (h : Settled s)
    (hidle : (s.thread_state t).status ≠ .IDLE) (hs : onThreadStart again s t time = .ok s') :
    Settled s' := by
  rw [onThreadStart.eq_def] at hs
  split at hs
  · cases hs
  obtain ⟨s₁, h₁, hs⟩ := of_bind_ok hs
  obtain ⟨s₂, h₂, hs⟩ := of_bind_ok hs
  obtain ⟨s₃, h₃, hs⟩ := of_bind_ok hs
  have hrun : (s.setStatus t .RUNNING).Live t := by
    simp [System.Live, System.setStatus, System.setState]
  obtain ⟨hset, hkept⟩ := setState_fits ⟨.RUNNING, _⟩ h hidle ⟨nofun, nofun⟩
  obtain ⟨hfits, hkept₁⟩ := hagain _ _ _ hset h₁
  obtain ⟨hfits, hkept₂⟩ := updateThread_fits hfits h₂
  have hback : Settled s₂ := hfits.mono fun x hx => hx.1.resolve_right hx.2
  obtain ⟨hfits, hkept₃⟩ := hagain _ _ _ hback h₃
  have hlive := ((hkept₁.trans hkept₂).trans hkept₃).live hrun
  split at hs
  · refine (hagain _ _ _ ?_ hs).1
    exact setState_live_fits (setCoreState_fits hfits) hlive ⟨nofun, nofun⟩
  · cases hs
    exact setState_live_fits hfits hlive ⟨nofun, nofun⟩

theorem stallThread_settled {reason time} (hagain : Safe again) (h : Settled s)
    (hidle : (s.thread_state t).status ≠ .IDLE) (hs : stallThread again s t reason time = .ok s') :
    Settled s' := by
  rw [stallThread.eq_def] at hs
  split at hs
  · cases hs
  obtain ⟨s₁, h₁, hs⟩ := of_bind_ok hs
  obtain ⟨s₂, h₂, hs⟩ := of_bind_ok hs
  obtain ⟨hset, _⟩ := setState_fits ⟨.STALLED, reason⟩ h hidle ⟨nofun, nofun⟩
  obtain ⟨hfits, _⟩ := hagain _ _ _ hset h₁
  obtain ⟨hfits, _⟩ := calculateWaitingCosts_fits time hfits
  obtain ⟨hfits, _⟩ := updateThread_fits hfits h₂
  exact (hagain _ _ _ (hfits.mono fun x hx => hx.1.resolve_right hx.2) hs).1

theorem onThreadExit_settled {woken time} (hagain : Safe again) (h : Settled s)
    (hwoken : ∀ x ∈ woken, x ≠ t ∧ (s.thread_state x).status ≠ .IDLE)
    (hs : onThreadExit again s t woken time = .ok s') : Settled s' := by
  rw [onThreadExit.eq_def] at hs
  split at hs
  · cases hs
  case isFalse hcore =>
  split at hs
  · cases hs
  have ht : t < s.num_threads := by
    by_contra hge
    exact hcore (h.created t (Nat.not_lt.mp hge)).1
  have hidle : ∀ x ∈ woken, ((s.setStatus t .IDLE).thread_state x).status ≠ .IDLE := by
    intro x hx
    obtain ⟨hxt, hne⟩ := hwoken x hx
    simpa [System.setStatus, System.setState, hxt] using hne
  obtain ⟨s₁, h₁, hs⟩ := of_bind_ok hs
  obtain ⟨s₂, h₂, hs⟩ := of_bind_ok hs
  obtain ⟨s₃, h₃, hs⟩ := of_bind_ok hs
  obtain ⟨s₄, h₄, hs⟩ := of_bind_ok hs
  obtain ⟨hfits, hkept₁⟩ := resumeThreads_fits hagain (setStatus_idle_fits h) hidle h₁
  obtain ⟨hfits, hkept₂⟩ := setCoreStateOf_fits t .IDLE hfits
  have hlt := (hkept₁.trans hkept₂).threads
  obtain ⟨hfits, _⟩ := setCore_fits hfits (hlt.symm ▸ ht) h₂
  obtain ⟨hfits, _⟩ := hagain _ _ _ hfits h₃
  obtain ⟨hfits, _⟩ := calculateWaitingCosts_fits time hfits
  obtain ⟨hfits, _⟩ := updateThread_fits hfits h₄
  exact (hagain _ _ _ (hfits.mono fun x hx => hx.1.resolve_right hx.2) hs).1

theorem execute_settled {c count nonidle dynamic} (h : Settled s) :
    Settled (s.execute c count nonidle dynamic) := by
  refine ⟨h.placed, h.created, fun t st hst d => ?_, fun t st hst hlive d hd => ?_, h.fresh,
    h.synced⟩
  · by_cases hdc : d = c
    · subst hdc
      simpa [System.execute] using ⟨(h.sound t st hst d).1.append_log, (h.sound t st hst d).2⟩
    · simpa [System.execute, hdc] using h.sound t st hst d
  · have hpending := h.pending t st hst hlive d hd
    by_cases hdc : d = c
    · subst hdc
      have hthread : s.core_thread d = some t :=
        (h.placed t d).mp ((h.synced t st hst hlive id).symm.trans hd)
      have howned : ∀ x ∈ List.replicate count (s.core_thread d), x = some t :=
        fun x hx => (List.eq_of_mem_replicate hx).trans hthread
      refine ⟨hpending.last, ?_, hpending.credited, ?_⟩
      · have hreached := hpending.reached
        simp only [System.execute, Function.update_self, List.length_append]
        omega
      · simpa [System.execute] using hpending.owned.append_log howned
    · refine ⟨hpending.last, ?_, hpending.credited, ?_⟩
      · simpa [System.execute, hdc] using hpending.reached
      · simpa [System.execute, hdc] using hpending.owned

theorem exec_settled {call} (hagain : Safe again) (h : Settled s) (hspares : Spares s call)
    (hs : exec again s call = .ok s') : Settled s' := by
  cases call with
  | createThread core_id => exact createThread_settled hagain h hs
  | onThreadStart t time => exact onThreadStart_settled hagain h hspares hs
  | stallThread t reason time => exact stallThread_settled hagain h hspares hs
  | resumeThread t time => exact (resumeThread_fits hagain h hspares hs).1
  | onThreadExit t woken time => exact onThreadExit_settled hagain h hspares hs
  | moveThread t core_id time => exact (schedulerMoveThread_fits hagain h hs).1
  | update thread_id time => exact (system_update_fits h hs).1.mono fun x hx => hx.1
  | execute c count nonidle dynamic =>
    cases hs
    exact execute_settled h
  | advance global_time =>
    cases hs
    exact ⟨h.placed, h.created, h.sound, h.pending, h.fresh, h.synced⟩

theorem Init.settled (h : Init s) : Settled s := by
  have hnone : ∀ {t st} {p : Prop}, s.m_threads_stats t = some st → p := fun hst =>
    nomatch (h.stats _).symm.trans hst
  refine ⟨fun t c => ?_, fun t _ => ⟨h.placed t, h.stats t⟩, fun t st hst => hnone hst,
    fun t st hst => hnone hst, fun t st hst => hnone hst, fun t st hst => hnone hst⟩
  rw [h.placed, h.empty]
  exact ⟨nofun, nofun⟩

theorem Fits.step (h : Settled s) (hst : SparingStep s s') : Settled s' := by
  obtain ⟨depth, listeners, call, hspares, hs⟩ := hst
  refine exec_settled (notify_safe depth) h.listeners ?_ hs
  cases call <;> exact hspares

theorem Fits.credited (h : Fits s E) : Credited s := by
  have hthread : ∀ t c, Claimed (s.instructions c) t (s.credited t c) ∧
      s.insn_by_core t c = UInt64.ofNat (s.credited t c).length := by
    intro t c
    rw [System.credited.eq_def, System.insn_by_core.eq_def]
    cases hst : s.m_threads_stats t with
    | none => exact ⟨claimed_nil, rfl⟩
    | some st => exact h.sound t st hst c
  have htotal : ∀ c, ((List.range s.num_threads).map fun t => (s.insn_by_core t c).toNat).sum ≤
      (s.instructions c).length := by
    intro c
    have hclaims : ((List.range s.num_threads).map fun t => (s.credited t c).length).sum ≤
        (s.instructions c).length := sum_length_le List.nodup_range fun t _ => (hthread t c).1
    refine Nat.le_trans (List.sum_le_sum fun t _ => ?_) hclaims
    rw [(hthread t c).2, UInt64.toNat_ofNat']
    exact Nat.mod_le ..
  refine ⟨htotal, fun c hlt => ?_, fun t c => (hthread t c).2, fun t c => (hthread t c).1⟩
  have hcount : (s.getInstructionCount c).toNat = (s.instructions c).length := by
    rw [System.getInstructionCount, UInt64.toNat_ofNat', Nat.mod_eq_of_lt hlt]
  rw [hcount]
  exact htotal c

/-- As long as no thread that has exited is stalled, resumed or started, every instruction is
credited to the thread that was scheduled on the core, and only once. -/
theorem instructions_credited (h : Reachable Init SparingStep s) : Credited s :=
  (h.invariant (fun _ => Init.settled) fun _ _ h hst => h.step hst).credited

/-- One core before any thread exists. -/
def oneCore : System 1 where
  num_threads := 0
  thread_state _ := ⟨.IDLE, .STALL_UNSCHEDULED⟩
  thread_core _ := none
  core_state _ := .IDLE
  core_thread _ := none
  instructions _ := []
  nonidle_elapsed_time _ := 0
  dynamic _ _ := 0
  global_time := 0
  m_threads_stats _ := none
  m_waiting_time_last := 0
  listeners := []

theorem oneCore_init : Init oneCore := ⟨rfl, fun _ => rfl, fun _ => rfl, fun _ => rfl, fun _ => rfl⟩

/-- Two threads share the core: the second one is moved there when the first one exits. -/
theorem instructions_credited_shared : ∃ s : System 1, s.insn_by_core 0 0 = 7 ∧
    s.insn_by_core 1 0 = 20 ∧ Credited s := by
  have h0 : Reachable Init SparingStep oneCore := .init oneCore_init
  have h1 := h0.step ⟨2, [], .createThread (some 0), trivial, rfl⟩
  have h2 := h1.step ⟨2, [], .createThread none, trivial, rfl⟩
  have h3 := h2.step ⟨2, [], .onThreadStart 0 0, by decide, rfl⟩
  have h4 := h3.step ⟨2, [], .onThreadStart 1 0, by decide, rfl⟩
  have h5 := h4.step ⟨2, [], .execute 0 7 0 fun _ => 0, trivial, rfl⟩
  have h6 := h5.step ⟨2, [], .update none 0, trivial, rfl⟩
  have h7 := h6.step ⟨2, [], .execute 0 3 0 fun _ => 0, trivial, rfl⟩
  have h8 := h7.step ⟨2, [[], [.moveThread 0 none 0, .moveThread 1 (some 0) 0]],
    .onThreadExit 0 [] 0, by decide, rfl⟩
  have h9 := h8.step ⟨2, [], .execute 0 20 0 fun _ => 0, trivial, rfl⟩
  have h10 := h9.step ⟨2, [], .update none 0, trivial, rfl⟩
  exact ⟨_, by decide +kernel, by decide +kernel, instructions_credited h10⟩

/-- A frequency of zero stalls the thread with the number of the core: when that thread has exited,
it is credited with all that its last core has executed for another thread. -/
theorem exited_thread_credited : ¬ ∀ (n : Nat) (s s' : System n) (time : SubsecondTime),
    Reachable Init Step s → s.update none time = .ok s' → Credited s' := by
  intro hall
  have h0 : Reachable Init Step oneCore := .init oneCore_init
  have h1 := h0.step ⟨2, [], .createThread (some 0), rfl⟩
  have h2 := h1.step ⟨2, [], .createThread none, rfl⟩
  have h3 := h2.step ⟨2, [], .onThreadStart 0 0, rfl⟩
  have h4 := h3.step ⟨2, [], .onThreadStart 1 0, rfl⟩
  have h5 := h4.step ⟨2, [], .execute 0 10 0 fun _ => 0, rfl⟩
  have h6 := h5.step ⟨2, [[], [.moveThread 0 none 0, .moveThread 1 (some 0) 0]],
    .onThreadExit 0 [] 0, rfl⟩
  have h7 := h6.step ⟨2, [], .execute 0 20 0 fun _ => 0, rfl⟩
  have h8 := h7.step ⟨2, [], .stallThread 0 .STALL_BROKEN 0xffffffffffffffff, rfl⟩
  have htotal := (hall 1 _ _ 0 h8 rfl).total 0
  revert htotal
  decide +kernel

end Sniper.Threads.Stats
