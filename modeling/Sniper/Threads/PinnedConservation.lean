import Sniper.Threads.PinnedAssignment

/-! # Work conservation

No core is idle while a thread waits that may run on it, when no thread is preempted in favour
of another one while a core that is not looked at any more is free for it. Without scripts the
hooks only put waiting threads on free cores.
-/
namespace Sniper.Threads.Pinned
open Lib.Simulation Pinned.System Function

variable {n : Nat} {s s' s'' : System n}

/-- The thread is runnable, allowed on the core, and running nowhere. -/
def Waits (s : System n) (t : Nat) (c : Fin n) : Prop :=
  s.m_threads_runnable t = true ∧ (s.m_thread_info t).m_core_affinity c = true ∧ s.place t = none

/-- No core is idle while a thread waits that may run on it, up to what is excused. -/
def Kept (excused : Nat → Fin n → Prop) (s : System n) : Prop :=
  ∀ c, s.m_core_thread_running c = none → ∀ t, Waits s t c → excused t c

def Conserving (s : System n) : Prop :=
  ∀ c, s.m_core_thread_running c = none → ∀ t, ¬ Waits s t c

/-- The runnable threads have an entry in the vector. -/
def Sized (s : System n) : Prop :=
  ∀ t, s.m_threads_runnable t = true → t < s.m_threads_runnable_size

/-! ### Choosing -/

theorem getPS_lt (time : SubsecondTime) : (getPS time).toNat < 2 ^ 62 := by
  have htime := time.toNat_lt
  exact Nat.div_lt_of_lt_mul (htime.trans (by decide))

theorem minValue_lt_sub {a b : UInt64} (ha : a.toNat < 2 ^ 62) (hb : b.toNat < 2 ^ 62) :
    Int64.minValue < (a - b).toInt64 := by
  have hsub : (a - b).toBitVec.toNat = (2 ^ 64 - b.toNat + a.toNat) % 2 ^ 64 := UInt64.toNat_sub a b
  rw [Int64.lt_iff_toInt_lt, Int64.toInt_minValue, Int64.toInt, UInt64.toBitVec_toInt64,
    BitVec.toInt_eq_toNat_cond, hsub]
  split <;> omega

theorem minValue_lt_score (s : System n) (time : SubsecondTime) (t : Nat) :
    Int64.minValue < s.score time t := by
  rw [score]
  split <;> exact minValue_lt_sub (getPS_lt _) (getPS_lt _)

/-- While no thread has been found the score is the least one. -/
def Unbeaten (best : Option Nat × Int64) : Prop := best.1 = none → best.2 = Int64.minValue

theorem consider_unbeaten {time c best} (h : Unbeaten best) (t : Nat) :
    Unbeaten (s.consider time c best t) := by
  rw [consider]
  split_ifs
  · intro hnone
    cases hnone
  · exact h
  · exact h

theorem consider_ne_none {time c best} (hne : best.1 ≠ none) (t : Nat) :
    (s.consider time c best t).1 ≠ none := by
  rw [consider]
  split_ifs
  · simp
  · exact hne
  · exact hne

theorem choose_ne_none {time c t} (ht : t < s.m_threads_runnable_size) (h : s.eligible c t = true) :
    s.choose time c ≠ none := by
  obtain ⟨before, after, hrange⟩ := List.append_of_mem (List.mem_range.mpr ht)
  have hbefore : Unbeaten (before.foldl (s.consider time c) (none, Int64.minValue)) :=
    List.foldlRecOn before _ (fun _ => rfl) fun _ hb a _ => consider_unbeaten hb a
  rw [choose, hrange, List.foldl_append, List.foldl_cons]
  generalize before.foldl (s.consider time c) (none, Int64.minValue) = best at hbefore ⊢
  refine List.foldlRecOn after (motive := fun best : Option Nat × Int64 => best.1 ≠ none) _ ?_
    fun _ hne a _ =>
    consider_ne_none hne a
  cases hbest : best.1 with
  | none =>
    rw [consider, if_pos h, if_pos (hbefore hbest ▸ minValue_lt_score s time t)]
    simp
  | some u => exact consider_ne_none (by simp [hbest]) t

/-! ### States in which no thread waits that did not wait before -/

/-- Cores that are taken stay taken, and threads that are placed stay placed. -/
structure Improves (s s' : System n) : Prop where
  size : s'.m_threads_runnable_size = s.m_threads_runnable_size
  runnable : s'.m_threads_runnable = s.m_threads_runnable
  affinity : ∀ t, (s'.m_thread_info t).m_core_affinity = (s.m_thread_info t).m_core_affinity
  busy : ∀ c, s.m_core_thread_running c ≠ none → s'.m_core_thread_running c ≠ none
  placed : ∀ t, s.place t ≠ none → s'.place t ≠ none
  scripts : s.scripts = [] → s'.scripts = []

/-- The same, but for one thread and the core it leaves. -/
structure Drops (t : Nat) (c : Fin n) (s s' : System n) : Prop where
  size : s'.m_threads_runnable_size = s.m_threads_runnable_size
  runnable : s'.m_threads_runnable = s.m_threads_runnable
  affinity : ∀ u, (s'.m_thread_info u).m_core_affinity = (s.m_thread_info u).m_core_affinity
  busy : ∀ d, d ≠ c → s.m_core_thread_running d ≠ none → s'.m_core_thread_running d ≠ none
  placed : ∀ u, u ≠ t → s.place u ≠ none → s'.place u ≠ none
  scripts : s.scripts = [] → s'.scripts = []

theorem Improves.refl (s : System n) : Improves s s :=
  ⟨rfl, rfl, fun _ => rfl, fun _ h => h, fun _ h => h, fun h => h⟩

theorem Improves.trans (h : Improves s s') (h' : Improves s' s'') : Improves s s'' :=
  ⟨h'.size.trans h.size, h'.runnable.trans h.runnable,
    fun t => (h'.affinity t).trans (h.affinity t), fun c hc => h'.busy c (h.busy c hc),
    fun t ht => h'.placed t (h.placed t ht), fun hs => h'.scripts (h.scripts hs)⟩

theorem Drops.trans {t c} (h : Drops t c s s') (h' : Improves s' s'') :
    Drops t c s s'' :=
  ⟨h'.size.trans h.size, h'.runnable.trans h.runnable,
    fun u => (h'.affinity u).trans (h.affinity u), fun d hd hb => h'.busy d (h.busy d hd hb),
    fun u hu hp => h'.placed u (h.placed u hu hp), fun hs => h'.scripts (h.scripts hs)⟩

theorem Improves.waits (h : Improves s s') {t c} (hw : Waits s' t c) :
    Waits s t c := by
  obtain ⟨hrun, haffinity, hplace⟩ := hw
  refine ⟨h.runnable ▸ hrun, h.affinity t ▸ haffinity, ?_⟩
  by_contra hne
  exact h.placed t hne hplace

theorem Improves.idle (h : Improves s s') {c} (hc : s'.m_core_thread_running c = none) :
    s.m_core_thread_running c = none := by
  by_contra hne
  exact h.busy c hne hc

theorem Improves.sized (h : Improves s s') (hs : Sized s) : Sized s' := by
  intro t ht
  rw [h.size]
  exact hs t (h.runnable ▸ ht)

theorem Kept.improves {excused} (h : Kept excused s) (hi : Improves s s') :
    Kept excused s' :=
  fun c hc t hw => h c (hi.idle hc) t (hi.waits hw)

theorem Kept.imp {excused excused'} (h : Kept excused s)
    (himp : ∀ c, s.m_core_thread_running c = none → ∀ t, Waits s t c → excused t c →
      excused' t c) : Kept excused' s :=
  fun c hc t hw => himp c hc t hw (h c hc t hw)

theorem Kept.drops {excused} (h : Kept excused s) {t c} (hd : Drops t c s s')
    (hc : s'.m_core_thread_running c = none → ∀ u, ¬ Waits s' u c) :
    Kept (fun u d => d ≠ c ∧ (excused u d ∨ u = t)) s' := by
  intro d hidle u hw
  have hdc : d ≠ c := by
    intro heq
    subst heq
    exact hc hidle u hw
  refine ⟨hdc, ?_⟩
  by_cases hut : u = t
  · exact .inr hut
  · obtain ⟨hrun, haffinity, hplace⟩ := hw
    refine .inl (h d ?_ u ⟨hd.runnable ▸ hrun, hd.affinity u ▸ haffinity, ?_⟩)
    · by_contra hne
      exact hd.busy d hdc hne hidle
    · by_contra hne
      exact hd.placed u hut hne hplace

theorem SameTables.improves (h : SameTables s s')
    (hsize : s'.m_threads_runnable_size = s.m_threads_runnable_size)
    (hinfo : s'.m_thread_info = s.m_thread_info) (hscripts : s'.scripts = s.scripts) :
    Improves s s' := by
  refine ⟨hsize, h.runnable, fun t => by rw [hinfo], fun c hc => ?_, fun t ht => ?_, fun hs => ?_⟩
  · rwa [h.running]
  · rwa [h.place]
  · rwa [hscripts]

/-! ### Moving threads, without scripts -/

theorem idleCore_improves (s : System n) (t : Nat) : Improves s (s.idleCore t) := by
  refine (idleCore_same s t).improves ?_ ?_ ?_ <;> rw [idleCore] <;> split <;> rfl

theorem leaveCore_improves (s : System n) (t : Nat) : Improves s (s.leaveCore t) := by
  refine (leaveCore_same s t).improves ?_ ?_ ?_ <;> rw [leaveCore] <;> split <;> rfl

theorem setCore_improves {t c} (h : s.setCore t c = .ok s') :
    Improves s s' := by
  have hleft : Improves s ((s.leaveCore t).setThreadCore t c) :=
    (leaveCore_improves s t).trans (SameTables.improves ⟨rfl, rfl, rfl, rfl⟩ rfl rfl rfl)
  rw [setCore.eq_def] at h
  dsimp only at h
  split at h
  · cases h
    exact hleft
  · split at h
    · cases h
    · cases h
      exact hleft.trans (SameTables.improves ⟨rfl, rfl, rfl, rfl⟩ rfl rfl rfl)

theorem callScript_nil {again} (hs : s.scripts = []) (h : callScript again s = .ok s') :
    s' = s := by
  rw [callScript, hs] at h
  exact (Except.ok.inj h).symm

/-- What a hook does for a thread that is runnable already. -/
def Helps (again : Reentry n → System n → Except String (System n)) : Prop :=
  ∀ t time s s', Assigned none s → t < s.num_threads → s.m_threads_runnable t = true →
    s.scripts = [] → again (.threadResume t time) s = .ok s' → Improves s s'

section Hooks
variable {again : Reentry n → System n → Except String (System n)}

theorem resumeThread_improves (hhelps : Helps again) {t time} (h : Assigned none s)
    (hrun : s.m_threads_runnable t = true) (hscripts : s.scripts = [])
    (hs : resumeThread again s t time = .ok s') : Improves s s' := by
  rw [resumeThread] at hs
  split at hs
  · cases hs
  case isFalse ht =>
    obtain ⟨s₁, h₁, hs⟩ := of_bind_ok hs
    obtain ⟨s₂, h₂, h₃⟩ := of_bind_ok hs
    obtain rfl := callScript_nil (s := s.setStatus t .RUNNING) hscripts h₁
    have hi : Improves (s.setStatus t .RUNNING) s₂ :=
      hhelps t time _ s₂ (h.same ⟨rfl, rfl, rfl, rfl⟩) (Nat.lt_of_not_le ht) hrun hscripts h₂
    obtain rfl := callScript_nil (hi.scripts hscripts) h₃
    exact ⟨hi.size, hi.runnable, hi.affinity, hi.busy, hi.placed, hi.scripts⟩

theorem moveThread_away {t time} (hscripts : s.scripts = [])
    (hs : moveThread again s t none time = .ok s') : SameTables s s' ∧ Improves s s' := by
  rw [moveThread.eq_def] at hs
  obtain ⟨s₁, h₁, hs⟩ := of_bind_ok hs
  have hi := (idleCore_improves s t).trans (setCore_improves h₁)
  obtain rfl := callScript_nil (hi.scripts hscripts) hs
  exact ⟨(idleCore_same s t).trans (setCore_same h₁), hi⟩

theorem moveThread_improves (hhelps : Helps again) {t c time} (h : Assigned none s)
    (hrun : s.m_threads_runnable t = true) (hscripts : s.scripts = [])
    (hs : moveThread again s t (some c) time = .ok s') : Improves s s' := by
  rw [moveThread.eq_def] at hs
  have hidle := idleCore_improves s t
  obtain ⟨s₁, h₁, hs⟩ := of_bind_ok hs
  obtain ⟨s₂, h₂, hs⟩ := of_bind_ok hs
  have hi₁ : Improves (s.idleCore t) s₁ := by
    split at h₁
    · exact resumeThread_improves hhelps (h.same (idleCore_same s t))
        (hidle.runnable ▸ hrun) (hidle.scripts hscripts) h₁
    · cases h₁
      exact .refl _
  have hi₂ := hidle.trans (hi₁.trans (setCore_improves h₂))
  split at hs
  · have hi₃ : Improves s (s₂.setCoreState c .RUNNING) :=
      hi₂.trans (SameTables.improves ⟨rfl, rfl, rfl, rfl⟩ rfl rfl rfl)
    obtain rfl := callScript_nil (hi₃.scripts hscripts) hs
    exact hi₃
  · obtain rfl := callScript_nil (hi₂.scripts hscripts) hs
    exact hi₂

/-! ### Rescheduling a core -/

theorem setInfo_affinity {t info} (h : info.m_core_affinity = (s.m_thread_info t).m_core_affinity)
    (u : Nat) :
    ((s.setInfo t info).m_thread_info u).m_core_affinity =
      (s.m_thread_info u).m_core_affinity := by
  by_cases hut : u = t
  · subst hut
    simp [setInfo, h]
  · simp [setInfo, hut]

theorem setCoreRunning_affinity (s : System n) (t : Nat) (c : Option (Fin n)) (u : Nat) :
    ((s.setCoreRunning t c).m_thread_info u).m_core_affinity =
      (s.m_thread_info u).m_core_affinity := by
  refine setInfo_affinity ?_ u
  rfl

theorem setLastScheduledIn_affinity (s : System n) (t : Nat) (time : SubsecondTime) (u : Nat) :
    ((s.setLastScheduledIn t time).m_thread_info u).m_core_affinity =
      (s.m_thread_info u).m_core_affinity := by
  refine setInfo_affinity ?_ u
  rfl

theorem setLastScheduledOut_affinity (s : System n) (t : Nat) (time : SubsecondTime) (u : Nat) :
    ((s.setLastScheduledOut t time).m_thread_info u).m_core_affinity =
      (s.m_thread_info u).m_core_affinity := by
  refine setInfo_affinity ?_ u
  rfl

theorem takeCore_affinity (s : System n) (time : SubsecondTime) (c : Fin n) (t u : Nat) :
    ((takeCore s time c t).m_thread_info u).m_core_affinity =
      (s.m_thread_info u).m_core_affinity := by
  have hvacate : ∀ s : System n, (vacate s t).m_thread_info = s.m_thread_info := by
    intro s
    rw [vacate.eq_def]
    split <;> rfl
  rw [takeCore, setLastScheduledIn_affinity, setCoreRunning_affinity, hvacate]
  rfl

theorem takeCore_rest (s : System n) (time : SubsecondTime) (c : Fin n) (t : Nat) :
    (takeCore s time c t).m_threads_runnable_size = s.m_threads_runnable_size ∧
    (takeCore s time c t).m_threads_runnable = s.m_threads_runnable ∧
    (takeCore s time c t).scripts = s.scripts := by
  have hv : ∀ s : System n, (vacate s t).m_threads_runnable_size = s.m_threads_runnable_size ∧
      (vacate s t).m_threads_runnable = s.m_threads_runnable ∧
      (vacate s t).scripts = s.scripts := by
    intro s
    rw [vacate.eq_def]
    split <;> exact ⟨rfl, rfl, rfl⟩
  exact hv (s.setThreadRunning c (some t))

theorem takeCore_improves {time c t} (hp : s.place t = none) :
    Improves s (takeCore s time c t) := by
  obtain ⟨hsize, hrun, hscripts⟩ := takeCore_rest s time c t
  refine ⟨hsize, hrun, takeCore_affinity s time c t, fun d hd => ?_, fun u hu => ?_,
    fun hs => hscripts.trans hs⟩
  · rw [(takeCore_running s time c t).1 hp]
    by_cases hdc : d = c
    · rw [hdc, update_self]
      nofun
    · rwa [update_of_ne hdc]
  · rw [takeCore_place]
    by_cases hut : u = t
    · rw [hut, update_self]
      nofun
    · rwa [update_of_ne hut]

theorem eligible_of_waits {c t} (h : Waits s t c) : s.eligible c t = true := by
  obtain ⟨hrun, haffinity, hplace⟩ := h
  have hplace : (s.m_thread_info t).m_core_running = none := hplace
  simp [eligible, hrun, haffinity, hplace]

theorem reschedule_idle (hhelps : Helps again) {time c} (h : Assigned none s)
    (hscripts : s.scripts = []) (hc : s.m_core_thread_running c = none)
    (hs : reschedule again s time c = .ok s') :
    Improves s s' ∧ (Sized s → (∃ t, Waits s t c ∧ s'.place t ≠ none ∧
      s'.m_core_thread_running c ≠ none) ∨ ∀ t, ¬ Waits s t c) := by
  rw [reschedule.eq_def] at hs
  simp only [hc, initializing, Bool.false_eq_true, if_false] at hs
  obtain ⟨s₁, h₁, hs⟩ := of_bind_ok hs
  cases hs
  cases hnew : s.choose time c with
  | none =>
    rw [hnew, if_pos rfl] at h₁
    cases h₁
    refine ⟨(setQuantumLeft_same ..).improves rfl rfl rfl, fun hsized => .inr fun t hw => ?_⟩
    exact choose_ne_none (hsized t hw.1) (eligible_of_waits hw) hnew
  | some t =>
    have hsome : ¬ none = some t := by simp
    rw [hnew, if_neg hsome] at h₁
    obtain ⟨s₂, h₂, h₁⟩ := of_bind_ok h₁
    cases h₂
    have heligible := eligible_of_choose hnew
    obtain ⟨hrun, hplace⟩ := runnable_of_eligible heligible
    have hnone : s.place t = none := hplace.resolve_right fun hp =>
      absurd (h.matched.holds hp) (by simp [hc])
    have htaken : Keeps none s (takeCore s time c t) :=
      takeCore_free h hc (h.runnable t hrun) hnone
    have hi : Improves s (takeCore s time c t) := takeCore_improves hnone
    have hmoved := moveThread_improves hhelps htaken.1 (hi.runnable ▸ hrun)
      (hi.scripts hscripts) h₁
    have hplaced : (takeCore s time c t).place t ≠ none := by
      rw [takeCore_place, update_self]
      simp
    have hbusy : (takeCore s time c t).m_core_thread_running c ≠ none := by
      rw [(takeCore_running s time c t).1 hnone, update_self]
      simp
    refine ⟨(hi.trans hmoved).trans (SameTables.improves ⟨rfl, rfl, rfl, rfl⟩ rfl rfl rfl),
      fun _ => .inl ⟨t, ⟨hrun, ?_, hnone⟩, hmoved.placed t hplaced, hmoved.busy c hbusy⟩⟩
    exact Bool.and_elim_left (Bool.and_elim_left heligible)

/-- The thread that runs on a core would be taken off it, although it is runnable. -/
def Preempted (s : System n) (time : SubsecondTime) (c : Fin n) (t : Nat) : Prop :=
  s.m_core_thread_running c = some t ∧ initializing s (some t) = false ∧
    s.choose time c ≠ some t ∧ s.m_threads_runnable t = true

theorem unschedule_drops {time c t} (hscripts : s.scripts = [])
    (hs : unschedule again s time c (some t) = .ok s') :
    Drops t c s s' ∧ s'.place = update s.place t none := by
  have hs : moveThread again ((s.setCoreRunning t none).setLastScheduledOut t
      (time + 1000 * UInt64.ofNat c.val)) t none time = .ok s' := hs
  obtain ⟨hsame, hi⟩ := moveThread_away (s := (s.setCoreRunning t none).setLastScheduledOut t
    (time + 1000 * UInt64.ofNat c.val)) hscripts hs
  have hplace : s'.place = update s.place t none := by
    rw [hsame.place, place_setLastScheduledOut, place_setCoreRunning]
  refine ⟨⟨hi.size, hi.runnable, fun u => ?_, fun d _ hb => hi.busy d hb, fun u hu hp => ?_,
    hi.scripts⟩, hplace⟩
  · rw [hi.affinity, setLastScheduledOut_affinity, setCoreRunning_affinity]
  · rwa [hplace, update_of_ne hu]

theorem reschedule_busy (hagain : Safe again) (hhelps : Helps again) {time c t}
    (h : Assigned none s) (hscripts : s.scripts = []) (hc : s.m_core_thread_running c = some t)
    (hs : reschedule again s time c = .ok s') :
    Improves s s' ∨ initializing s (some t) = false ∧ s.choose time c ≠ some t ∧
      Drops t c s s' ∧ (Sized s → s'.m_core_thread_running c = none → ∀ u, ¬ Waits s' u c) := by
  rw [reschedule.eq_def] at hs
  simp only [hc] at hs
  split at hs
  · cases hs
    exact .inl (.refl _)
  case isFalse hinit =>
    obtain ⟨s₁, h₁, hs⟩ := of_bind_ok hs
    cases hs
    have hquantum : Improves s₁ (s₁.setQuantumLeft c s₁.m_quantum) :=
      (setQuantumLeft_same ..).improves rfl rfl rfl
    split at h₁
    · cases h₁
      exact .inl hquantum
    case isFalse hother =>
      obtain ⟨s₂, h₂, h₁⟩ := of_bind_ok h₁
      obtain ⟨hdrops, hplace₂⟩ := unschedule_drops hscripts h₂
      have hk₂ := unschedule_keeps hagain h hc h₂
      refine .inr ⟨Bool.eq_false_iff.mpr hinit, Ne.symm hother, ?_⟩
      cases hnew : s.choose time c with
      | none =>
        rw [hnew] at h₁
        cases h₁
        refine ⟨?_, fun hsized _ u hw => ?_⟩
        · refine ⟨hdrops.size, hdrops.runnable, hdrops.affinity, fun d hd hb => ?_,
            hdrops.placed, hdrops.scripts⟩
          show update s₂.m_core_thread_running c none d ≠ none
          rw [update_of_ne hd]
          exact hdrops.busy d hd hb
        · obtain ⟨hrun, haffinity, hplace⟩ := hw
          have hrun : s.m_threads_runnable u = true := hdrops.runnable ▸ hrun
          have haffinity : (s.m_thread_info u).m_core_affinity c = true :=
            hdrops.affinity u ▸ haffinity
          refine choose_ne_none (hsized u hrun) ?_ hnew
          by_cases hut : u = t
          · have hplace : (s.m_thread_info u).m_core_running = some c :=
              hut ▸ (h.matched.inverse_none c t).mp hc
            simp [eligible, hrun, haffinity, hplace]
          · refine eligible_of_waits ⟨hrun, haffinity, ?_⟩
            by_contra hne
            exact hdrops.placed u hut hne hplace
      | some v =>
        rw [hnew] at h₁
        obtain ⟨hrun, hplace⟩ := runnable_of_eligible (eligible_of_choose hnew)
        have hvt : v ≠ t := fun heq => hother (by rw [hnew, heq])
        have hnone : s.place v = none := hplace.resolve_right fun hp =>
          hvt (Option.some.inj ((h.matched.holds hp).symm.trans hc))
        have hnone₂ : s₂.place v = none := by rw [hplace₂, update_of_ne hvt, hnone]
        have htaken : Keeps none s₂ (takeCore s₂ time c v) :=
          takeCore_gap hk₂.1 (hk₂.2 ▸ h.runnable v hrun)
        have hi : Improves s₂ (takeCore s₂ time c v) := takeCore_improves hnone₂
        have hmoved := moveThread_improves hhelps htaken.1
          (hi.runnable ▸ hdrops.runnable ▸ hrun) (hi.scripts (hdrops.scripts hscripts)) h₁
        refine ⟨hdrops.trans ((hi.trans hmoved).trans hquantum), fun _ hidle => ?_⟩
        refine absurd hidle (hmoved.busy c ?_)
        rw [(takeCore_running s₂ time c v).1 hnone₂, update_self]
        simp

/-- What the reschedule of a core leaves: nobody waits for the core in vain, and of the threads
that wait for other idle cores only the one that was preempted is new. -/
structure Rescheduled (time : SubsecondTime) (c : Fin n) (excused : Nat → Fin n → Prop)
    (s s' : System n) : Prop where
  kept : Kept (fun t d => d ≠ c ∧ (excused t d ∨ Preempted s time c t)) s'
  sized : Sized s'
  scripts : s'.scripts = []
  runnable : s'.m_threads_runnable = s.m_threads_runnable
  affinity : ∀ t, (s'.m_thread_info t).m_core_affinity = (s.m_thread_info t).m_core_affinity
  idle : ∀ d, d ≠ c → s'.m_core_thread_running d = none → s.m_core_thread_running d = none

theorem reschedule_kept (hagain : Safe again) (hhelps : Helps again) {time c excused}
    (h : Assigned none s) (hsized : Sized s) (hscripts : s.scripts = []) (hkept : Kept excused s)
    (hs : reschedule again s time c = .ok s') : Rescheduled time c excused s s' := by
  have himproved : Improves s s' → (s'.m_core_thread_running c = none → ∀ u, ¬ Waits s' u c) →
      Rescheduled time c excused s s' := by
    intro hi hc
    refine ⟨(hkept.improves hi).imp fun d hidle t hw hex => ⟨?_, .inl hex⟩, hi.sized hsized,
      hi.scripts hscripts, hi.runnable, hi.affinity, fun d _ => hi.idle⟩
    intro hdc
    subst hdc
    exact hc hidle t hw
  cases hc : s.m_core_thread_running c with
  | none =>
    obtain ⟨hi, hfound⟩ := reschedule_idle hhelps h hscripts hc hs
    refine himproved hi fun hidle u hw => ?_
    obtain ⟨t, -, -, hbusy⟩ | hnobody := hfound hsized
    · exact hbusy hidle
    · exact hnobody u (hi.waits hw)
  | some t =>
    obtain hi | ⟨hinit, hother, hdrops, hnobody⟩ := reschedule_busy hagain hhelps h hscripts hc hs
    · exact himproved hi fun hidle => absurd hidle (hi.busy c (by rw [hc]; nofun))
    · refine ⟨(hkept.drops hdrops (hnobody hsized)).imp fun d _ u hw hex => ⟨hex.1, ?_⟩, ?_,
        hdrops.scripts hscripts, hdrops.runnable, hdrops.affinity, fun d hd hidle => ?_⟩
      · refine hex.2.imp_right fun hut => ?_
        subst hut
        exact ⟨hc, hinit, hother, hdrops.runnable ▸ hw.1⟩
      · intro u hu
        rw [hdrops.size]
        exact hsized u (hdrops.runnable ▸ hu)
      · by_contra hne
        exact hdrops.busy d hd hne hidle

theorem rescheduleFree_kept (hhelps : Helps again) {time t} (h : Assigned none s) (hsized : Sized s)
    (hscripts : s.scripts = []) (hkept : Kept (fun u _ => u = t) s)
    (hs : rescheduleFree again s time t = .ok s') :
    Conserving s' ∧ Improves s s' := by
  have hdone : Improves s s' → (∀ d, s'.m_core_thread_running d = none → ¬ Waits s' t d) →
      Conserving s' ∧ Improves s s' := by
    intro hi hnot
    refine ⟨fun d hidle u hw => ?_, hi⟩
    obtain rfl := hkept.improves hi d hidle u hw
    exact hnot d hidle hw
  rw [rescheduleFree] at hs
  split at hs
  case h_1 c hc =>
    have hfree := free_of_findFreeCoreForThread hc
    obtain ⟨hi, hfound⟩ := reschedule_idle hhelps h hscripts hfree hs
    refine hdone hi fun d hidle hw => ?_
    have hwaits := hi.waits hw
    have hallowed := List.find?_some hc
    have haffinity := Bool.and_elim_left hallowed
    obtain ⟨u, hu, hplaced, -⟩ | hnobody := hfound hsized
    · obtain rfl := hkept c hfree u hu
      exact hplaced hw.2.2
    · exact hnobody t ⟨hwaits.1, haffinity, hwaits.2.2⟩
  case h_2 hnone =>
    cases hs
    refine hdone (.refl _) fun d hidle hw => ?_
    have hall := List.find?_eq_none.mp hnone d (List.mem_finRange d)
    rw [hw.2.1, hidle] at hall
    exact hall rfl

theorem handle_helps (hhelps : Helps again) : Helps (handle again) := by
  intro t time s s' h ht hrun hscripts hs
  have hsame : s.setRunnable t true = s := by
    rw [setRunnable, ← hrun, update_eq_self]
  have hs : rescheduleFree again (s.setRunnable t true) time t = .ok s' := hs
  rw [hsame, rescheduleFree] at hs
  split at hs
  case h_1 c hc =>
    exact (reschedule_idle hhelps h hscripts (free_of_findFreeCoreForThread hc) hs).1
  case h_2 =>
    cases hs
    exact .refl _

end Hooks

theorem reenter_helps (depth : Nat) : Helps (reenter (n := n) depth) := by
  induction depth with
  | zero =>
    intro _ _ _ _ _ _ _ _ hs
    cases hs
  | succ depth ih => exact handle_helps ih

/-! ### Careful calls -/

/-- A thread that is preempted may run on an idle core. -/
def Stranded (s : System n) (time : SubsecondTime) (c : Fin n) (t : Nat) (d : Fin n) : Prop :=
  Preempted s time c t ∧ s.m_core_thread_running d = none ∧
    (s.m_thread_info t).m_core_affinity d = true

/-- No thread that stays allowed on its core gives it up while another core that it may run on
is idle. -/
def CarefulYield (s : System n) (t : Nat) (time : SubsecondTime) : Prop :=
  ∀ c ∈ s.place t, (s.m_thread_info t).m_core_affinity c = true → ∀ d, ¬ Stranded s time c t d

/-- As `periodic` visits the cores, no thread is taken off its core while a core that it may run
on has been visited and is idle. -/
def CarefulVisits (again : Reentry n → System n → Except String (System n))
    (time delta : SubsecondTime) : List (Fin n) → List (Fin n) → System n → Prop
  | [], _, _ => True
  | core_id :: rest, visited, s =>
    if s.m_quantum_left core_id < delta ∨ s.m_core_thread_running core_id = none then
      (∀ t ∈ s.m_core_thread_running core_id, ∀ d ∈ visited, ¬ Stranded s time core_id t d) ∧
        match reschedule again s time core_id with
        | .ok s => CarefulVisits again time delta rest (core_id :: visited) s
        | .error _ => True
    else CarefulVisits again time delta rest (core_id :: visited)
      (s.setQuantumLeft core_id (s.m_quantum_left core_id - delta))

/-- A thread that starts gets an entry in the vector, one that resumes has one, and one that
sets its own affinity runs, if it is runnable. -/
def Careful (again : Reentry n → System n → Except String (System n)) (s : System n) :
    Call n → Prop
  | .threadStart thread_id _ => thread_id < s.m_threads_runnable_size + 16
  | .threadResume thread_id _ => thread_id < s.m_threads_runnable_size
  | .threadYield thread_id time => CarefulYield s thread_id time
  | .threadSetAffinity calling_thread_id thread_id mask time =>
    calling_thread_id = some thread_id →
      (s.m_threads_runnable thread_id = true → s.place thread_id ≠ none) ∧
        CarefulYield (setAffinity s thread_id mask) thread_id time
  | .periodic time =>
    CarefulVisits again time (time - s.m_last_periodic) (List.finRange n) [] s
  | _ => True

instance (s : System n) (time : SubsecondTime) (c : Fin n) (t : Nat) :
    Decidable (Preempted s time c t) := inferInstanceAs (Decidable (_ ∧ _ ∧ _ ∧ _))

instance (s : System n) (time : SubsecondTime) (c : Fin n) (t : Nat) (d : Fin n) :
    Decidable (Stranded s time c t d) :=
  inferInstanceAs (Decidable (Preempted s time c t ∧ s.m_core_thread_running d = none ∧
    (s.m_thread_info t).m_core_affinity d = true))

instance (s : System n) (t : Nat) (time : SubsecondTime) : Decidable (CarefulYield s t time) :=
  inferInstanceAs (Decidable (∀ c ∈ s.place t, (s.m_thread_info t).m_core_affinity c = true →
    ∀ d, ¬ Stranded s time c t d))

instance decidableVisits (again : Reentry n → System n → Except String (System n))
    (time delta : SubsecondTime) : (l visited : List (Fin n)) → (s : System n) →
      Decidable (CarefulVisits again time delta l visited s)
  | [], _, _ => inferInstanceAs (Decidable True)
  | core_id :: rest, visited, s =>
    letI := decidableVisits again time delta rest (core_id :: visited)
    letI : Decidable (match reschedule again s time core_id with
        | .ok s => CarefulVisits again time delta rest (core_id :: visited) s
        | .error _ => True) :=
      match reschedule again s time core_id with
      | .ok s => this s
      | .error _ => inferInstanceAs (Decidable True)
    inferInstanceAs (Decidable (
      if s.m_quantum_left core_id < delta ∨ s.m_core_thread_running core_id = none then
        (∀ t ∈ s.m_core_thread_running core_id, ∀ d ∈ visited,
          ¬ Stranded s time core_id t d) ∧
          match reschedule again s time core_id with
          | .ok s => CarefulVisits again time delta rest (core_id :: visited) s
          | .error _ => True
      else CarefulVisits again time delta rest (core_id :: visited)
        (s.setQuantumLeft core_id (s.m_quantum_left core_id - delta))))

instance (again : Reentry n → System n → Except String (System n)) (s : System n)
    (call : Call n) : Decidable (Careful again s call) :=
  match call with
  | .threadStart .. | .threadResume .. => inferInstanceAs (Decidable (_ < _))
  | .threadYield .. => inferInstanceAs (Decidable (CarefulYield ..))
  | .threadSetAffinity .. => inferInstanceAs (Decidable (_ → (_ → _ ≠ _) ∧ CarefulYield ..))
  | .periodic .. => inferInstanceAs (Decidable (CarefulVisits ..))
  | .threadCreate .. | .threadStall .. | .threadExit .. => inferInstanceAs (Decidable True)

/-- A careful call that returns; no script sets an affinity on the way. -/
def CarefulStep (s s' : System n) : Prop :=
  ∃ depth call, Careful (reenter depth) { s with scripts := [] } call ∧
    exec (reenter depth) { s with scripts := [] } call = .ok s'

/-- What careful calls keep. -/
structure Settled (s : System n) : Prop where
  assigned : Assigned none s
  sized : Sized s
  conserving : Conserving s

theorem Settled.kept (h : Settled s) : Kept (fun _ _ => False) s := h.conserving

theorem Settled.same (h : Settled s) (hsame : SameTables s s') (hi : Improves s s') :
    Settled s' :=
  ⟨h.assigned.same hsame, hi.sized h.sized, Kept.improves h.kept hi⟩

theorem Settled.wake (h : Settled s) {t s₁} (hsize : t < s₁.m_threads_runnable_size)
    (hgrown : s.m_threads_runnable_size ≤ s₁.m_threads_runnable_size)
    (hrun : s₁.m_threads_runnable = update s.m_threads_runnable t true)
    (hinfo : s₁.m_thread_info = s.m_thread_info)
    (hrunning : s₁.m_core_thread_running = s.m_core_thread_running) :
    Sized s₁ ∧ Kept (fun u _ => u = t) s₁ := by
  constructor
  · intro u hu
    by_cases hut : u = t
    · exact hut ▸ hsize
    · rw [hrun, update_of_ne hut] at hu
      exact (h.sized u hu).trans_le hgrown
  · intro c hidle u hw
    by_contra hut
    obtain ⟨hu, haffinity, hplace⟩ := hw
    rw [hrun, update_of_ne hut] at hu
    rw [hinfo] at haffinity
    refine h.conserving c (hrunning ▸ hidle) u ⟨hu, haffinity, ?_⟩
    rwa [place, ← hinfo]

theorem Assigned.setRunnable {gap} (h : Assigned gap s) {t} (ht : t < s.num_threads) :
    Assigned gap (s.setRunnable t true) := by
  refine ⟨h.matched, h.stale, h.placed, fun u hu => ?_⟩
  by_cases hut : u = t
  · exact hut ▸ ht
  · exact h.runnable u (by simpa [System.setRunnable, hut] using hu)

section Calls
variable {again : Reentry n → System n → Except String (System n)}

theorem rescheduleFree_settled (hagain : Safe again) (hhelps : Helps again) {t time}
    (h : Assigned none s) (hwoken : Sized s ∧ Kept (fun u _ => u = t) s) (hscripts : s.scripts = [])
    (hs : rescheduleFree again s time t = .ok s') :
    Settled s' ∧ s'.scripts = [] := by
  obtain ⟨hconserving, hi⟩ := rescheduleFree_kept hhelps h hwoken.1 hscripts hwoken.2 hs
  exact ⟨⟨(rescheduleFree_keeps hagain h hs).1, hi.sized hwoken.1, hconserving⟩,
    hi.scripts hscripts⟩

theorem Settled.threadLeave (hagain : Safe again) (hhelps : Helps again) (h : Settled s)
    (hscripts : s.scripts = []) {t time} (hs : threadLeave again s t time = .ok s') :
    Settled s' := by
  have hassigned := threadLeave_assigned hagain h.assigned hs
  have hnot : (s.setRunnable t false).m_threads_runnable t = false := update_self ..
  have hrest : ∀ u, (s.setRunnable t false).m_threads_runnable u = true →
      s.m_threads_runnable u = true := by
    intro u hu
    by_cases hut : u = t
    · rw [hut, hnot] at hu
      cases hu
    · simpa [setRunnable, hut] using hu
  have hsized : Sized (s.setRunnable t false) := fun u hu => h.sized u (hrest u hu)
  have hkept : Kept (fun _ _ => False) (s.setRunnable t false) :=
    fun c hidle u hw => h.conserving c hidle u ⟨hrest u hw.1, hw.2.1, hw.2.2⟩
  have hassigned₁ : Assigned none (s.setRunnable t false) :=
    ⟨h.assigned.matched, by simp, h.assigned.placed, fun u hu => h.assigned.runnable u (hrest u hu)⟩
  rw [Pinned.threadLeave.eq_def] at hs
  dsimp only at hs
  split at hs
  case h_1 c hc =>
    obtain ⟨hkept', hsized', -⟩ :=
      reschedule_kept hagain hhelps hassigned₁ hsized hscripts hkept hs
    refine ⟨hassigned, hsized', fun d hidle u hw => ?_⟩
    obtain ⟨-, hfalse | hpreempted⟩ := hkept' d hidle u hw
    · exact hfalse
    · have hcore : s.m_core_thread_running c = some t :=
        (h.assigned.matched.inverse_none c t).mpr hc
      have hut : u = t := Option.some.inj (hpreempted.1.symm.trans hcore)
      rw [hut, Preempted, hnot] at hpreempted
      exact Bool.false_ne_true hpreempted.2.2.2
  case h_2 =>
    cases hs
    exact ⟨hassigned₁, hsized, hkept⟩

theorem Settled.onThreadStart (hagain : Safe again) (hhelps : Helps again) (h : Settled s)
    (hscripts : s.scripts = []) {t time} (hcareful : t < s.m_threads_runnable_size + 16)
    (hs : onThreadStart again s t time = .ok s') : Settled s' := by
  rw [Pinned.onThreadStart.eq_def] at hs
  split at hs
  · cases hs
  case isFalse ht =>
    obtain ⟨s₁, h₁, hs⟩ := of_bind_ok hs
    generalize hgrown : ({ s.setStatus t .RUNNING with
      m_threads_runnable_size := if s.m_threads_runnable_size ≤ t
        then s.m_threads_runnable_size + 16 else s.m_threads_runnable_size } : System n) = s₂
    have h₁ : Pinned.rescheduleFree again (s₂.setRunnable t true) time t = .ok s₁ := by
      subst hgrown
      exact h₁
    have hassigned : Assigned none s₂ ∧ t < s₂.num_threads ∧ s₂.scripts = [] := by
      subst hgrown
      exact ⟨h.assigned.same ⟨rfl, rfl, rfl, rfl⟩, Nat.lt_of_not_le ht, hscripts⟩
    have hwoken : Sized (s₂.setRunnable t true) ∧
        Kept (fun u _ => u = t) (s₂.setRunnable t true) := by
      subst hgrown
      refine h.wake ?_ ?_ rfl rfl rfl
      · show t < if s.m_threads_runnable_size ≤ t then _ else _
        split_ifs <;> omega
      · show s.m_threads_runnable_size ≤ if s.m_threads_runnable_size ≤ t then _ else _
        split_ifs <;> omega
    obtain ⟨hsettled, hscripts₁⟩ := rescheduleFree_settled hagain hhelps
      (hassigned.1.setRunnable hassigned.2.1) hwoken hassigned.2.2 h₁
    split at hs
    case h_1 c _ =>
      obtain rfl := callScript_nil (s := (s₁.setCoreState c .RUNNING).setStatus t .RUNNING)
        hscripts₁ hs
      exact hsettled.same ⟨rfl, rfl, rfl, rfl⟩ (SameTables.improves ⟨rfl, rfl, rfl, rfl⟩ rfl rfl rfl)
    case h_2 =>
      cases hs
      exact hsettled.same ⟨rfl, rfl, rfl, rfl⟩ (SameTables.improves ⟨rfl, rfl, rfl, rfl⟩ rfl rfl rfl)

theorem Settled.resumeThread {depth} (h : Settled s) (hscripts : s.scripts = []) {t time}
    (hcareful : t < s.m_threads_runnable_size) (hs : resumeThread (reenter depth) s t time = .ok s') :
    Settled s' := by
  rw [Pinned.resumeThread] at hs
  split at hs
  · cases hs
  case isFalse ht =>
    obtain ⟨s₁, h₁, hs⟩ := of_bind_ok hs
    obtain ⟨s₂, h₂, h₃⟩ := of_bind_ok hs
    obtain rfl := callScript_nil (s := s.setStatus t .RUNNING) hscripts h₁
    cases depth with
    | zero => cases h₂
    | succ depth =>
      have hassigned : Assigned none (s.setStatus t .RUNNING) :=
        h.assigned.same ⟨rfl, rfl, rfl, rfl⟩
      obtain ⟨hsettled, hscripts₂⟩ := rescheduleFree_settled (reenter_safe depth)
        (reenter_helps depth) (hassigned.setRunnable (Nat.lt_of_not_le ht))
        (h.wake hcareful le_rfl rfl rfl rfl) hscripts h₂
      obtain rfl := callScript_nil hscripts₂ h₃
      exact hsettled

theorem Settled.stallThread (hagain : Safe again) (hhelps : Helps again) (h : Settled s)
    (hscripts : s.scripts = []) {t stall_reason time}
    (hs : stallThread again s t stall_reason time = .ok s') : Settled s' := by
  have hset : Settled { s with
      thread_state := update s.thread_state t ⟨.STALLED, stall_reason⟩ } :=
    h.same ⟨rfl, rfl, rfl, rfl⟩ (SameTables.improves ⟨rfl, rfl, rfl, rfl⟩ rfl rfl rfl)
  rw [Pinned.stallThread.eq_def] at hs
  dsimp only at hs
  split at hs
  · cases hs
    exact hset
  · exact hset.threadLeave hagain hhelps hscripts hs

theorem Settled.onThreadExit (hagain : Safe again) (hhelps : Helps again) (h : Settled s)
    (hscripts : s.scripts = []) {t time} (hs : onThreadExit again s t time = .ok s') :
    Settled s' := by
  rw [Pinned.onThreadExit.eq_def] at hs
  split at hs
  · cases hs
  case h_2 c _ =>
    split at hs
    · cases hs
    · obtain ⟨s₁, h₁, hs⟩ := of_bind_ok hs
      have hidle : Improves s ((s.setStatus t .IDLE).setCoreState c .IDLE) :=
        SameTables.improves ⟨rfl, rfl, rfl, rfl⟩ rfl rfl rfl
      have hi := hidle.trans (setCore_improves h₁)
      have hsame : SameTables s s₁ := (⟨rfl, rfl, rfl, rfl⟩ : SameTables s
        ((s.setStatus t .IDLE).setCoreState c .IDLE)).trans (setCore_same h₁)
      exact (h.same hsame hi).threadLeave hagain hhelps (hi.scripts hscripts) hs

theorem threadCreate_rest (s : System n) (t : Nat) (affinity : Fin n → Bool) :
    (threadCreate s t affinity).2.m_threads_runnable_size = s.m_threads_runnable_size ∧
    (threadCreate s t affinity).2.m_threads_runnable = s.m_threads_runnable ∧
    (∀ u, u ≠ t → (threadCreate s t affinity).2.m_thread_info u = s.m_thread_info u) ∧
    ∀ d, s.m_core_thread_running d ≠ none →
      (threadCreate s t affinity).2.m_core_thread_running d ≠ none := by
  rw [threadCreate.eq_def]
  dsimp only
  generalize hs₁ : (if (s.m_thread_info t).m_has_affinity = true then s
    else s.setInfo t { s.m_thread_info t with
      m_core_affinity := affinity, m_has_affinity := (List.finRange n).any affinity }) = s₁
  have hsame : s₁.m_threads_runnable_size = s.m_threads_runnable_size ∧
      s₁.m_threads_runnable = s.m_threads_runnable ∧
      (∀ u, u ≠ t → s₁.m_thread_info u = s.m_thread_info u) ∧
      s₁.m_core_thread_running = s.m_core_thread_running := by
    subst hs₁
    split
    · exact ⟨rfl, rfl, fun _ _ => rfl, rfl⟩
    · exact ⟨rfl, rfl, fun u hu => update_of_ne hu .., rfl⟩
  obtain ⟨hsize, hrun, hinfo, hrunning⟩ := hsame
  split
  case h_1 c _ =>
    refine ⟨hsize, hrun, fun u hu => (update_of_ne hu ..).trans (hinfo u hu),
      fun d hd => ?_⟩
    show update s₁.m_core_thread_running c (some t) d ≠ none
    by_cases hdc : d = c
    · rw [hdc, update_self]
      simp
    · rwa [update_of_ne hdc, hrunning]
  case h_2 =>
    refine ⟨hsize, hrun, fun u hu => (update_of_ne hu ..).trans (hinfo u hu),
      fun d hd => ?_⟩
    show s₁.m_core_thread_running d ≠ none
    rwa [hrunning]

theorem Settled.createThread (h : Settled s) {affinity} (hs : createThread s affinity = .ok s') :
    Settled s' := by
  have hassigned := createThread_assigned h.assigned hs
  rw [Pinned.createThread.eq_def] at hs
  dsimp only at hs
  obtain ⟨hsize, hrun, hinfo, hbusy⟩ := threadCreate_rest (({ s with
    num_threads := s.num_threads + 1 } : System n).setStatus s.num_threads .INITIALIZING)
    s.num_threads affinity
  generalize threadCreate (({ s with num_threads := s.num_threads + 1 } : System n).setStatus
    s.num_threads .INITIALIZING) s.num_threads affinity = created at hs hsize hrun hinfo hbusy
  have hcreated : Sized created.2 ∧ Kept (fun _ _ => False) created.2 := by
    constructor
    · intro u hu
      rw [hsize]
      rw [hrun] at hu
      exact h.sized u hu
    · intro c hidle u hw
      obtain ⟨hu, haffinity, hplace⟩ := hw
      rw [hrun] at hu
      have hut : u ≠ s.num_threads := (h.assigned.runnable u hu).ne
      rw [hinfo u hut] at haffinity
      rw [place, hinfo u hut] at hplace
      refine h.conserving c ?_ u ⟨hu, haffinity, hplace⟩
      by_contra hne
      exact hbusy c hne hidle
  obtain ⟨core, s₁⟩ := created
  cases core with
  | none =>
    cases hs
    exact ⟨hassigned, hcreated.1, hcreated.2⟩
  | some core_id =>
    obtain ⟨s₂, h₂, hs⟩ := of_bind_ok hs
    cases hs
    have hi : Improves s₁ (s₂.setCoreState core_id .INITIALIZING) :=
      (setCore_improves h₂).trans (SameTables.improves ⟨rfl, rfl, rfl, rfl⟩ rfl rfl rfl)
    exact ⟨hassigned, hi.sized hcreated.1, hcreated.2.improves hi⟩

theorem Settled.threadYield (hagain : Safe again) (hhelps : Helps again) (h : Settled s)
    (hscripts : s.scripts = []) {t time} (hcareful : CarefulYield s t time)
    (hs : threadYield again s t time = .ok s') : Settled s' := by
  rw [Pinned.threadYield.eq_def] at hs
  split at hs
  · cases hs
    exact h
  case h_2 c hc =>
    obtain ⟨s₁, h₁, hs⟩ := of_bind_ok hs
    have hquantum : Settled (s.setQuantumLeft c 0) :=
      h.same (setQuantumLeft_same ..) ((setQuantumLeft_same ..).improves rfl rfl rfl)
    have hassigned := (reschedule_keeps hagain hquantum.assigned h₁).1
    obtain ⟨hkept, hsized, hscripts₁, hrun, haffinity, hidle⟩ :=
      reschedule_kept hagain hhelps hquantum.assigned hquantum.sized hscripts hquantum.kept h₁
    have hcurrent : s.m_core_thread_running c = some t :=
      (h.assigned.matched.inverse_none c t).mpr hc
    -- nobody else leaves the core
    have honly : ∀ u, Preempted (s.setQuantumLeft c 0) time c u → u = t := fun u hu =>
      Option.some.inj (hu.1.symm.trans hcurrent)
    split at hs
    case isTrue hstays =>
      cases hs
      refine ⟨hassigned, hsized, fun d hd u hw => ?_⟩
      obtain ⟨hdc, hfalse | hpreempted⟩ := hkept d hd u hw
      · exact hfalse
      · obtain rfl := honly u hpreempted
        rw [haffinity] at hstays
        have hallowed := hw.2.1
        rw [haffinity] at hallowed
        exact hcareful c hc hstays d ⟨hpreempted, hidle d hdc hd, hallowed⟩
    case isFalse =>
      have hwoken : Kept (fun u _ => u = t) s₁ := hkept.imp fun d _ u _ hex =>
        hex.2.elim False.elim (honly u)
      exact (rescheduleFree_settled hagain hhelps hassigned ⟨hsized, hwoken⟩ hscripts₁ hs).1

theorem setAffinity_rest (s : System n) (t : Nat) (mask : Option (Fin n → Bool)) :
    (setAffinity s t mask).m_threads_runnable_size = s.m_threads_runnable_size ∧
    (setAffinity s t mask).scripts = s.scripts ∧
    ∀ u, u ≠ t → (setAffinity s t mask).m_thread_info u = s.m_thread_info u := by
  rw [setAffinity.eq_def]
  dsimp only
  split <;> exact ⟨rfl, rfl, fun u hu => update_of_ne hu ..⟩

theorem Settled.setAffinity (h : Settled s) (t : Nat) (mask : Option (Fin n → Bool)) :
    Sized (setAffinity s t mask) ∧ Kept (fun u _ => u = t) (setAffinity s t mask) := by
  have hsame := setAffinity_same s t mask
  obtain ⟨hsize, -, hinfo⟩ := setAffinity_rest s t mask
  constructor
  · intro u hu
    rw [hsize]
    exact h.sized u (hsame.runnable ▸ hu)
  · intro c hidle u hw
    by_contra hut
    obtain ⟨hu, haffinity, hplace⟩ := hw
    rw [hinfo u hut] at haffinity
    rw [hsame.place] at hplace
    exact h.conserving c (hsame.running ▸ hidle) u ⟨hsame.runnable ▸ hu, haffinity, hplace⟩

theorem Settled.threadSetAffinity (hagain : Safe again) (hhelps : Helps again) (h : Settled s)
    (hscripts : s.scripts = []) {caller t mask time} (hcareful : caller = some t →
      (s.m_threads_runnable t = true → s.place t ≠ none) ∧
        CarefulYield (Pinned.setAffinity s t mask) t time)
    (hs : threadSetAffinity again s caller t mask time = .ok s') : Settled s' := by
  have hsame := setAffinity_same s t mask
  have hassigned := h.assigned.same hsame
  obtain ⟨hsized, hkept⟩ := h.setAffinity t mask
  have hnothing : (Pinned.setAffinity s t mask).scripts = [] :=
    (setAffinity_rest s t mask).2.1.trans hscripts
  have hsettled : (s.m_threads_runnable t = true → s.place t ≠ none) →
      Settled (Pinned.setAffinity s t mask) := by
    intro hplaced
    refine ⟨hassigned, hsized, fun c hidle u hw => ?_⟩
    obtain rfl := hkept c hidle u hw
    exact hplaced (hsame.runnable ▸ hw.1) (hsame.place ▸ hw.2.2)
  rw [Pinned.threadSetAffinity.eq_def] at hs
  dsimp only at hs
  split at hs
  case isTrue hnew =>
    cases hs
    refine hsettled fun hrun => absurd (h.assigned.runnable t hrun) (Nat.not_lt.mpr ?_)
    exact hsame.threads ▸ hnew
  case isFalse =>
    split at hs
    case isTrue hself =>
      obtain ⟨hplaced, hyield⟩ := hcareful hself
      exact (hsettled hplaced).threadYield hagain hhelps hnothing hyield hs
    case isFalse =>
      split at hs
      case h_1 c hc =>
        have hplace : s.place t = some c := hsame.place ▸ hc
        have hs₁ := hsettled fun _ => by simp [hplace]
        cases hs
        split
        · exact hs₁
        · exact hs₁.same (setQuantumLeft_same ..) ((setQuantumLeft_same ..).improves rfl rfl rfl)
      case h_2 =>
        split at hs
        · exact (rescheduleFree_settled hagain hhelps hassigned ⟨hsized, hkept⟩ hnothing hs).1
        case isFalse hnot =>
          cases hs
          exact hsettled fun hrun => absurd (hsame.runnable ▸ hrun) hnot

theorem periodicLoop_settled (hagain : Safe again) (hhelps : Helps again) {time delta l visited}
    (hall : ∀ c, c ∈ l ∨ c ∈ visited) (hcareful : CarefulVisits again time delta l visited s)
    (h : Assigned none s) (hsized : Sized s) (hscripts : s.scripts = [])
    (hkept : Kept (fun _ d => d ∉ visited) s) (hs : periodicLoop again time delta l s = .ok s') :
    Settled s' := by
  induction l generalizing s visited with
  | nil =>
    cases hs
    refine ⟨h, hsized, fun c hidle t hw => hkept c hidle t hw ?_⟩
    exact (hall c).resolve_left List.not_mem_nil
  | cons c l ih =>
    have hall' : ∀ d, d ∈ l ∨ d ∈ c :: visited := by
      intro d
      obtain hd | hd := hall d
      · obtain rfl | hd := List.mem_cons.mp hd
        · exact .inr List.mem_cons_self
        · exact .inl hd
      · exact .inr (List.mem_cons_of_mem _ hd)
    obtain ⟨s₁, h₁, hs⟩ := of_bind_ok hs
    rw [CarefulVisits] at hcareful
    split at h₁
    case isTrue hexpired =>
      rw [if_pos hexpired, h₁] at hcareful
      obtain ⟨hstranded, hrest⟩ := hcareful
      obtain ⟨hkept', hsized', hscripts', -, haffinity, hidle⟩ :=
        reschedule_kept hagain hhelps h hsized hscripts hkept h₁
      refine ih hall' hrest (reschedule_keeps hagain h h₁).1 hsized' hscripts' ?_ hs
      refine hkept'.imp fun d hd t hw hex => ?_
      obtain ⟨hdc, hnot | hpreempted⟩ := hex
      · exact List.not_mem_cons_of_ne_of_not_mem hdc hnot
      · refine List.not_mem_cons_of_ne_of_not_mem hdc fun hvisited => ?_
        exact hstranded t hpreempted.1 d hvisited
          ⟨hpreempted, hidle d hdc hd, haffinity t ▸ hw.2.1⟩
    case isFalse hleft =>
      rw [if_neg hleft] at hcareful
      cases h₁
      have hi : Improves s (s.setQuantumLeft c (s.m_quantum_left c - delta)) :=
        (setQuantumLeft_same ..).improves rfl rfl rfl
      refine ih hall' hcareful (h.same (setQuantumLeft_same ..)) (hi.sized hsized)
        (hi.scripts hscripts) ?_ hs
      refine (hkept.improves hi).imp fun d hd t _ hnot => ?_
      refine List.not_mem_cons_of_ne_of_not_mem (fun hdc => ?_) hnot
      exact hleft (.inr (hdc ▸ hd))

end Calls

theorem Settled.step (h : Settled s) (hstep : CarefulStep s s') : Settled s' := by
  obtain ⟨depth, call, hcareful, hs⟩ := hstep
  have hagain := reenter_safe (n := n) depth
  have hhelps := reenter_helps (n := n) depth
  have hset : Settled { s with scripts := [] } := by
    refine ⟨h.assigned.same ⟨rfl, rfl, rfl, rfl⟩, h.sized, h.conserving⟩
  cases call with
  | threadCreate affinity => exact hset.createThread hs
  | threadStart t time => exact hset.onThreadStart hagain hhelps rfl hcareful hs
  | threadStall t stall_reason time => exact hset.stallThread hagain hhelps rfl hs
  | threadResume t time => exact hset.resumeThread rfl hcareful hs
  | threadExit t time => exact hset.onThreadExit hagain hhelps rfl hs
  | threadYield t time => exact hset.threadYield hagain hhelps rfl hcareful hs
  | threadSetAffinity caller t mask time =>
    exact hset.threadSetAffinity hagain hhelps rfl hcareful hs
  | periodic time =>
    obtain ⟨s₁, h₁, hs⟩ := of_bind_ok hs
    cases hs
    have hsettled := periodicLoop_settled hagain hhelps (fun c => .inl (List.mem_finRange c))
      hcareful hset.assigned hset.sized rfl (hset.kept.imp fun _ _ _ _ hfalse => hfalse.elim) h₁
    exact hsettled.same ⟨rfl, rfl, rfl, rfl⟩ (SameTables.improves ⟨rfl, rfl, rfl, rfl⟩ rfl rfl rfl)

theorem Init.settled (h : Init s) : Settled s := by
  refine ⟨h.assigned, fun t ht => ?_, fun c _ t hw => ?_⟩
  · rw [h.runnable] at ht
    cases ht
  · have hrun := hw.1
    rw [h.runnable] at hrun
    cases hrun

/-- When every call is careful, no core is idle after a call while a thread waits that may run
on it. -/
theorem careful_conserving (h : Reachable Init CarefulStep s) : Conserving s :=
  (h.invariant (fun _ => Init.settled) fun _ _ h hstep => h.step hstep).conserving

/-- Two threads share core 0, and the first one yields it. -/
theorem careful_conserving_shared : ∃ s : System 2, s.m_core_thread_running 0 = some 1 ∧
    Waits s 0 0 ∧ Conserving s := by
  have h0 : Reachable Init CarefulStep twoCores := .init twoCores_init
  have h1 := h0.step ⟨0, .threadCreate fun c => c == 0, trivial, rfl⟩
  have h2 := h1.step ⟨0, .threadCreate fun c => c == 0, trivial, rfl⟩
  have h3 := h2.step ⟨2, .threadStart 0 0, by decide, rfl⟩
  have h4 := h3.step ⟨2, .threadStart 1 0, by decide, rfl⟩
  have h5 := h4.step ⟨2, .threadYield 0 2000, by decide, rfl⟩
  exact ⟨_, rfl, ⟨rfl, rfl, rfl⟩, careful_conserving h5⟩

/-- A thread that may run on both cores yields core 0 to one that may not run on core 1; and
`periodic` takes such a thread off core 1 after it has passed core 0. -/
theorem cores_left_idle :
    (∃ s : System 2, Reachable Init Step s ∧ s.m_core_thread_running 1 = none ∧ Waits s 0 1) ∧
    ∃ s : System 2, Reachable Init Step s ∧ s.m_core_thread_running 0 = none ∧ Waits s 1 0 := by
  have h0 : Reachable Init Step twoCores := .init twoCores_init
  constructor
  · have h1 := h0.step ⟨0, [], .threadCreate fun _ => true, rfl⟩
    have h2 := h1.step ⟨0, [], .threadCreate fun c => c == 0, rfl⟩
    have h3 := h2.step ⟨2, [], .threadStart 0 0, rfl⟩
    have h4 := h3.step ⟨2, [], .threadStart 1 0, rfl⟩
    have h5 := h4.step ⟨2, [], .threadYield 0 2000, rfl⟩
    exact ⟨_, h5, rfl, rfl, rfl, rfl⟩
  · have h1 := h0.step ⟨0, [], .threadCreate fun c => c == 0, rfl⟩
    have h2 := h1.step ⟨0, [], .threadCreate fun _ => true, rfl⟩
    have h3 := h2.step ⟨0, [], .threadCreate fun c => c == 1, rfl⟩
    have h4 := h3.step ⟨2, [], .threadStart 0 0, rfl⟩
    have h5 := h4.step ⟨2, [], .threadStart 1 0, rfl⟩
    have h6 := h5.step ⟨2, [], .threadStart 2 0, rfl⟩
    have h7 := h6.step ⟨2, [], .threadExit 0 1000, rfl⟩
    have h8 := h7.step ⟨2, [], .periodic 5000, rfl⟩
    exact ⟨_, h8, rfl, rfl, rfl, rfl⟩

end Sniper.Threads.Pinned
