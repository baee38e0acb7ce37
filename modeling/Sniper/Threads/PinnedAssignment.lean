import Sniper.Lib.Matching
import Sniper.Threads.PinnedScheduler

/-! # Threads and cores one to one

The scheduler's two tables, the thread of each core and the core of each thread, are inverse
between any two calls. `reschedule` erases a thread's core first and overwrites the core's
thread last; the hooks run in between find the core as a gap that no free-core search returns.
-/
namespace Sniper.Threads.Pinned
open Lib.Simulation Lib.Matching Function

variable {n : Nat}

namespace System

/-- `getCoreRunning` of a thread. -/
def place (s : System n) (t : Nat) : Option (Fin n) := (s.m_thread_info t).m_core_running

variable (s : System n)

theorem place_setInfo (t : Nat) (info : ThreadInfo n) :
    (s.setInfo t info).place = update s.place t info.m_core_running := by
  funext u
  by_cases h : u = t
  · subst h; simp [place, setInfo]
  · simp [place, setInfo, h]

theorem place_setInfo_self {t info} (h : info.m_core_running = s.place t) :
    (s.setInfo t info).place = s.place := by
  rw [place_setInfo, h, update_eq_self]

theorem place_setCoreRunning (t : Nat) (c : Option (Fin n)) :
    (s.setCoreRunning t c).place = update s.place t c :=
  s.place_setInfo t _

theorem place_setLastScheduledIn (t : Nat) (time : SubsecondTime) :
    (s.setLastScheduledIn t time).place = s.place := s.place_setInfo_self rfl

theorem place_setLastScheduledOut (t : Nat) (time : SubsecondTime) :
    (s.setLastScheduledOut t time).place = s.place := s.place_setInfo_self rfl

end System
open Pinned.System

variable {gap : Option (Fin n)} {s s' s'' : System n}

/-- The tables are inverse, up to a gap; only threads that exist run. -/
structure Assigned (gap : Option (Fin n)) (s : System n) : Prop where
  matched : Matched s.m_core_thread_running s.place gap
  stale : ∀ c, gap = some c → s.m_core_thread_running c ≠ none
  placed : ∀ t, s.place t ≠ none → t < s.num_threads
  runnable : ∀ t, s.m_threads_runnable t = true → t < s.num_threads

/-- Nothing that the assignment is about differs. -/
structure SameTables (s s' : System n) : Prop where
  running : s'.m_core_thread_running = s.m_core_thread_running
  place : s'.place = s.place
  threads : s'.num_threads = s.num_threads
  runnable : s'.m_threads_runnable = s.m_threads_runnable

theorem SameTables.trans (h : SameTables s s') (h' : SameTables s' s'') : SameTables s s'' :=
  ⟨h'.running.trans h.running, h'.place.trans h.place, h'.threads.trans h.threads,
    h'.runnable.trans h.runnable⟩

theorem Assigned.same (h : Assigned gap s) (hs : SameTables s s') : Assigned gap s' := by
  refine ⟨?_, ?_, ?_, ?_⟩
  · rw [hs.running, hs.place]; exact h.matched
  · rw [hs.running]; exact h.stale
  · rw [hs.place, hs.threads]; exact h.placed
  · rw [hs.runnable, hs.threads]; exact h.runnable

theorem leaveCore_same (s : System n) (t : Nat) : SameTables s (s.leaveCore t) := by
  rw [leaveCore]
  split <;> exact ⟨rfl, rfl, rfl, rfl⟩

theorem idleCore_same (s : System n) (t : Nat) : SameTables s (s.idleCore t) := by
  rw [idleCore]
  split <;> exact ⟨rfl, rfl, rfl, rfl⟩

theorem setCore_same {t c} (h : s.setCore t c = .ok s') :
    SameTables s s' := by
  have hleft : SameTables s ((s.leaveCore t).setThreadCore t c) :=
    (leaveCore_same s t).trans ⟨rfl, rfl, rfl, rfl⟩
  rw [setCore.eq_def] at h
  dsimp only at h
  split at h
  · cases h
    exact hleft
  · split at h
    · cases h
    · cases h
      exact hleft.trans ⟨rfl, rfl, rfl, rfl⟩

theorem setInfo_same {t info} (h : info.m_core_running = s.place t) :
    SameTables s (s.setInfo t info) :=
  ⟨rfl, s.place_setInfo_self h, rfl, rfl⟩

theorem setQuantumLeft_same (s : System n) (c : Fin n) (left : SubsecondTime) :
    SameTables s (s.setQuantumLeft c left) := ⟨rfl, rfl, rfl, rfl⟩

/-- The tables fit, and as many threads exist. -/
def Keeps (gap : Option (Fin n)) (s s' : System n) : Prop :=
  Assigned gap s' ∧ s'.num_threads = s.num_threads

theorem Assigned.keeps (h : Assigned gap s) (hs : SameTables s s') : Keeps gap s s' :=
  ⟨h.same hs, hs.threads⟩

theorem Keeps.trans (h : Keeps gap s s') (h' : Keeps gap s' s'') : Keeps gap s s'' :=
  ⟨h'.1, h'.2.trans h.2⟩

/-! ### What the hooks do -/

/-- The call is about a thread that exists. -/
def Reentry.Known (s : System n) : Reentry n → Prop
  | .threadResume thread_id _ => thread_id < s.num_threads
  | .threadSetAffinity .. => True

/-- The calls of the hooks keep the tables, whichever core is the gap. -/
def Safe (again : Reentry n → System n → Except String (System n)) : Prop :=
  ∀ gap r s s', Assigned gap s → r.Known s → again r s = .ok s' → Keeps gap s s'

section Hooks
variable {again : Reentry n → System n → Except String (System n)}

theorem setAffinities_keeps (hagain : Safe again) {script} (h : Assigned gap s)
    (hs : setAffinities again script s = .ok s') : Keeps gap s s' := by
  induction script generalizing s with
  | nil => cases hs; exact ⟨h, rfl⟩
  | cons call rest ih =>
    obtain ⟨t, mask, time⟩ := call
    obtain ⟨s₁, h₁, hs⟩ := of_bind_ok hs
    have hk := hagain gap (.threadSetAffinity t mask time) s s₁ h trivial h₁
    exact hk.trans (ih hk.1 hs)

theorem callScript_keeps (hagain : Safe again) (h : Assigned gap s)
    (hs : callScript again s = .ok s') : Keeps gap s s' := by
  rw [callScript] at hs
  split at hs
  · cases hs; exact ⟨h, rfl⟩
  case h_2 script rest _ =>
    have hrest : Assigned gap { s with scripts := rest } := h.same ⟨rfl, rfl, rfl, rfl⟩
    have hk := setAffinities_keeps hagain hrest hs
    exact hk

theorem resumeThread_keeps (hagain : Safe again) {t time} (h : Assigned gap s)
    (hs : resumeThread again s t time = .ok s') : Keeps gap s s' := by
  rw [resumeThread] at hs
  split at hs
  · cases hs
  case isFalse ht =>
    obtain ⟨s₁, h₁, hs⟩ := of_bind_ok hs
    obtain ⟨s₂, h₂, hs⟩ := of_bind_ok hs
    have hset : Assigned gap (s.setStatus t .RUNNING) := h.same ⟨rfl, rfl, rfl, rfl⟩
    have hk₁ := callScript_keeps hagain hset h₁
    have hknown : t < s₁.num_threads := hk₁.2 ▸ Nat.lt_of_not_le ht
    have hk₂ := hagain gap (.threadResume t time) s₁ s₂ hk₁.1 hknown h₂
    exact hk₁.trans (hk₂.trans (callScript_keeps hagain hk₂.1 hs))

theorem moveThread_keeps (hagain : Safe again) {t core time} (h : Assigned gap s)
    (hs : moveThread again s t core time = .ok s') :
    Keeps gap s s' := by
  have hsame := idleCore_same s t
  cases core with
  | none =>
    obtain ⟨s₁, h₁, hs⟩ := of_bind_ok hs
    have hk := h.keeps (hsame.trans (setCore_same h₁))
    exact hk.trans (callScript_keeps hagain hk.1 hs)
  | some c =>
    obtain ⟨s₁, h₁, hs⟩ := of_bind_ok hs
    obtain ⟨s₂, h₂, hs⟩ := of_bind_ok hs
    have hk₁ : Keeps gap (s.idleCore t) s₁ := by
      split at h₁
      · exact resumeThread_keeps hagain (h.same hsame) h₁
      · cases h₁
        exact ⟨h.same hsame, rfl⟩
    have hk₂ : Keeps gap s s₂ :=
      (h.keeps hsame).trans (hk₁.trans (hk₁.1.keeps (setCore_same h₂)))
    refine hk₂.trans ?_
    split at hs
    · have hset : Keeps gap s₂ (s₂.setCoreState c .RUNNING) := hk₂.1.keeps ⟨rfl, rfl, rfl, rfl⟩
      exact hset.trans (callScript_keeps hagain hset.1 hs)
    · exact callScript_keeps hagain hk₂.1 hs

/-! ### Rescheduling a core -/

theorem eligible_of_choose {time c t} (h : s.choose time c = some t) : s.eligible c t = true := by
  have hfold : ∀ (l : List Nat) (best : Option Nat × Int64),
      (∀ t, best.1 = some t → s.eligible c t = true) →
      ∀ t, (l.foldl (s.consider time c) best).1 = some t → s.eligible c t = true := by
    intro l
    induction l with
    | nil => exact fun _ h => h
    | cons a l ih =>
      intro best hbest
      refine ih _ fun t ht => ?_
      rw [consider] at ht
      split at ht
      case isTrue ha =>
        split at ht
        · cases ht
          exact ha
        · exact hbest t ht
      case isFalse => exact hbest t ht
  exact hfold _ _ (fun _ h => by cases h) t h

theorem runnable_of_eligible {c t} (h : s.eligible c t = true) :
    s.m_threads_runnable t = true ∧ (s.place t = none ∨ s.place t = some c) := by
  obtain ⟨h, hplace⟩ := Bool.and_eq_true_iff.mp h
  refine ⟨Bool.and_elim_right h, ?_⟩
  rcases Bool.or_eq_true_iff.mp hplace with hp | hp
  · exact .inl (of_decide_eq_true hp)
  · exact .inr (of_decide_eq_true hp)

theorem schedule_none {time c} (h : Assigned (some c) s)
    (hs : schedule again s time c none = .ok s') : Keeps none s s' := by
  cases hs
  exact ⟨⟨h.matched.close, nofun, h.placed, h.runnable⟩, rfl⟩

theorem vacate_running (s : System n) (t : Nat) :
    (s.place t = none → vacate s t = s) ∧
    (∀ d, s.place t = some d → vacate s t = s.setThreadRunning d none) := by
  rw [vacate.eq_def]
  refine ⟨fun h => ?_, fun d h => ?_⟩
  · have h : (s.m_thread_info t).m_core_running = none := h
    rw [h]
  · have h : (s.m_thread_info t).m_core_running = some d := h
    rw [h]

theorem vacate_rest (s : System n) (t : Nat) : (vacate s t).place = s.place ∧
    (vacate s t).num_threads = s.num_threads ∧
    (vacate s t).m_threads_runnable = s.m_threads_runnable := by
  rw [vacate.eq_def]
  split <;> exact ⟨rfl, rfl, rfl⟩

theorem takeCore_place (s : System n) (time : SubsecondTime) (c : Fin n) (t : Nat) :
    (takeCore s time c t).place = update s.place t (some c) := by
  rw [takeCore, place_setLastScheduledIn, place_setCoreRunning, (vacate_rest _ t).1]
  rfl

theorem takeCore_running (s : System n) (time : SubsecondTime) (c : Fin n) (t : Nat) :
    (s.place t = none → (takeCore s time c t).m_core_thread_running =
      update s.m_core_thread_running c (some t)) ∧
    (∀ d, s.place t = some d → (takeCore s time c t).m_core_thread_running =
      update (update s.m_core_thread_running c (some t)) d none) := by
  have hv := vacate_running (s.setThreadRunning c (some t)) t
  refine ⟨fun h => ?_, fun d h => ?_⟩
  · show (vacate _ t).m_core_thread_running = _
    rw [hv.1 h]
    rfl
  · show (vacate _ t).m_core_thread_running = _
    rw [hv.2 d h]
    rfl

theorem takeCore_assigned {time c t gap'} (h : Assigned gap s) (ht : t < s.num_threads)
    (hm : Matched (takeCore s time c t).m_core_thread_running
      (update s.place t (some c)) gap')
    (hstale : ∀ e, gap' = some e → (takeCore s time c t).m_core_thread_running e ≠ none) :
    Keeps gap' s (takeCore s time c t) := by
  obtain ⟨-, hthreads, hrun⟩ := vacate_rest (s.setThreadRunning c (some t)) t
  have hthreads : (takeCore s time c t).num_threads = s.num_threads := hthreads
  have hrun : (takeCore s time c t).m_threads_runnable = s.m_threads_runnable := hrun
  refine ⟨⟨?_, hstale, fun u hu => ?_, ?_⟩, hthreads⟩
  · rw [takeCore_place]
    exact hm
  · rw [takeCore_place] at hu
    rw [hthreads]
    by_cases hut : u = t
    · exact hut ▸ ht
    · rw [update_of_ne hut] at hu
      exact h.placed u hu
  · rw [hthreads, hrun]
    exact h.runnable

theorem takeCore_gap {time c t} (h : Assigned (some c) s) (ht : t < s.num_threads) :
    Keeps none s (takeCore s time c t) := by
  refine takeCore_assigned h ht ?_ nofun
  cases hp : s.place t with
  | none =>
    have hm := h.matched.close.assign nofun (update_self ..) hp
    rw [update_idem] at hm
    rwa [(takeCore_running s time c t).1 hp]
  | some d =>
    have hdc : c ≠ d := fun hcd => h.matched.unrecorded c t rfl (hcd ▸ hp)
    have hm := (h.matched.release hp).close.assign nofun (update_self ..)
      (update_self ..)
    rw [update_idem, update_idem, update_comm hdc.symm] at hm
    rwa [(takeCore_running s time c t).2 d hp]

theorem takeCore_free {time c t} (h : Assigned gap s) (hc : s.m_core_thread_running c = none)
    (ht : t < s.num_threads) (hp : s.place t = none) :
    Keeps gap s (takeCore s time c t) := by
  have hgap : gap ≠ some c := fun hg => h.stale c hg hc
  have hrun := (takeCore_running s time c t).1 hp
  refine takeCore_assigned h ht ?_ fun e he => ?_
  · rw [hrun]
    exact h.matched.assign hgap hc hp
  · rw [hrun, update_of_ne (fun hec => hgap (he.trans (congrArg some hec)))]
    exact h.stale e he

theorem reschedule_free (hagain : Safe again) {time c} (h : Assigned gap s)
    (hc : s.m_core_thread_running c = none) (hs : reschedule again s time c = .ok s') :
    Keeps gap s s' := by
  rw [reschedule.eq_def] at hs
  simp only [hc, initializing, Bool.false_eq_true, if_false] at hs
  obtain ⟨s₁, h₁, hs⟩ := of_bind_ok hs
  have hk : Keeps gap s s₁ := by
    split at h₁
    · cases h₁
      exact ⟨h, rfl⟩
    · obtain ⟨s₂, h₂, h₁⟩ := of_bind_ok h₁
      cases h₂
      cases hnew : s.choose time c with
      | none =>
        rw [hnew] at h₁
        cases h₁
        exact h.keeps ⟨by rw [setThreadRunning, ← hc, update_eq_self], rfl, rfl, rfl⟩
      | some t =>
        rw [hnew] at h₁
        obtain ⟨hrun, hplace⟩ := runnable_of_eligible (eligible_of_choose hnew)
        have hnone : s.place t = none := hplace.resolve_right fun hp =>
          absurd (h.matched.holds hp) (by rw [hc]; nofun)
        have htaken : Keeps gap s (takeCore s time c t) :=
          takeCore_free h hc (h.runnable t hrun) hnone
        have h₁ : moveThread again (takeCore s time c t) t (some c) time = .ok s₁ := h₁
        exact htaken.trans (moveThread_keeps hagain htaken.1 h₁)
  cases hs
  exact hk.trans (hk.1.keeps (setQuantumLeft_same ..))

theorem unschedule_keeps (hagain : Safe again) {time c t} (h : Assigned none s)
    (hc : s.m_core_thread_running c = some t) (hs : unschedule again s time c (some t) = .ok s') :
    Keeps (some c) s s' := by
  have hs : moveThread again ((s.setCoreRunning t none).setLastScheduledOut t
      (time + 1000 * UInt64.ofNat c.val)) t none time = .ok s' := hs
  have herased : Assigned (some c) (s.setCoreRunning t none) := by
    refine ⟨?_, fun d hd => ?_, fun u hu => ?_, h.runnable⟩
    · rw [place_setCoreRunning]
      exact h.matched.erase hc
    · obtain rfl := Option.some.inj hd
      show s.m_core_thread_running c ≠ none
      rw [hc]
      nofun
    · rw [place_setCoreRunning] at hu
      by_cases hut : u = t
      · rw [hut, update_self] at hu
        exact absurd rfl hu
      · rw [update_of_ne hut] at hu
        exact h.placed u hu
  have hout : Keeps (some c) s ((s.setCoreRunning t none).setLastScheduledOut t
      (time + 1000 * UInt64.ofNat c.val)) :=
    ⟨herased.same ⟨rfl, place_setLastScheduledOut .., rfl, rfl⟩, rfl⟩
  have hmoved := moveThread_keeps hagain hout.1 hs
  exact ⟨hmoved.1, hmoved.2⟩

theorem reschedule_keeps (hagain : Safe again) {time c} (h : Assigned none s)
    (hs : reschedule again s time c = .ok s') : Keeps none s s' := by
  cases hc : s.m_core_thread_running c with
  | none => exact reschedule_free hagain h hc hs
  | some current =>
    rw [reschedule.eq_def] at hs
    simp only [hc] at hs
    split at hs
    · cases hs
      exact ⟨h, rfl⟩
    · obtain ⟨s₁, h₁, hs⟩ := of_bind_ok hs
      have hk : Keeps none s s₁ := by
        split at h₁
        · cases h₁
          exact ⟨h, rfl⟩
        · obtain ⟨s₂, h₂, h₁⟩ := of_bind_ok h₁
          have hk₂ := unschedule_keeps hagain h hc h₂
          cases hnew : s.choose time c with
          | none =>
            rw [hnew] at h₁
            have hk₁ := schedule_none hk₂.1 h₁
            exact ⟨hk₁.1, hk₁.2.trans hk₂.2⟩
          | some t =>
            rw [hnew] at h₁
            have h₁ : moveThread again (takeCore s₂ time c t) t (some c) time = .ok s₁ := h₁
            have hrun := (runnable_of_eligible (eligible_of_choose hnew)).1
            have htaken : Keeps none s₂ (takeCore s₂ time c t) :=
              takeCore_gap hk₂.1 (hk₂.2 ▸ h.runnable t hrun)
            have hk₁ := htaken.trans (moveThread_keeps hagain htaken.1 h₁)
            exact ⟨hk₁.1, hk₁.2.trans hk₂.2⟩
      cases hs
      exact hk.trans (hk.1.keeps (setQuantumLeft_same ..))

theorem free_of_findFreeCoreForThread {t c} (h : s.findFreeCoreForThread t = some c) :
    s.m_core_thread_running c = none := by
  have hfound := List.find?_some h
  exact of_decide_eq_true (Bool.and_elim_right hfound)

theorem rescheduleFree_keeps (hagain : Safe again) {time t} (h : Assigned gap s)
    (hs : rescheduleFree again s time t = .ok s') : Keeps gap s s' := by
  rw [rescheduleFree] at hs
  split at hs
  case h_1 c hc => exact reschedule_free hagain h (free_of_findFreeCoreForThread hc) hs
  case h_2 =>
    cases hs
    exact ⟨h, rfl⟩

theorem setAffinity_same (s : System n) (t : Nat) (mask : Option (Fin n → Bool)) :
    SameTables s (setAffinity s t mask) := by
  rw [setAffinity.eq_def]
  split <;> exact setInfo_same rfl

theorem threadSetAffinity_script (hagain : Safe again) {t mask time} (h : Assigned gap s)
    (hs : threadSetAffinity again s none t mask time = .ok s') : Keeps gap s s' := by
  have hset := h.keeps (setAffinity_same s t mask)
  rw [threadSetAffinity.eq_def] at hs
  dsimp only at hs
  split at hs
  · cases hs
    exact hset
  · rw [if_neg nofun] at hs
    refine hset.trans ?_
    split at hs
    · cases hs
      split
      · exact ⟨hset.1, rfl⟩
      · exact hset.1.keeps (setQuantumLeft_same ..)
    · split at hs
      · exact rescheduleFree_keeps hagain hset.1 hs
      · cases hs
        exact ⟨hset.1, rfl⟩

theorem wake_keeps (hagain : Safe again) {t time} (h : Assigned gap s) (ht : t < s.num_threads)
    (hs : rescheduleFree again (s.setRunnable t true) time t = .ok s') :
    Keeps gap s s' := by
  have hset : Keeps gap s (s.setRunnable t true) := by
    refine ⟨⟨h.matched, h.stale, h.placed, fun u hu => ?_⟩, rfl⟩
    by_cases hut : u = t
    · exact hut ▸ ht
    · have hu : s.m_threads_runnable u = true := by simpa [setRunnable, hut] using hu
      exact h.runnable u hu
  exact hset.trans (rescheduleFree_keeps hagain hset.1 hs)

theorem handle_safe (hagain : Safe again) : Safe (handle again) := by
  intro gap r s s' h hknown hs
  cases r with
  | threadResume t time => exact wake_keeps hagain h hknown hs
  | threadSetAffinity t mask time => exact threadSetAffinity_script hagain h hs

end Hooks

theorem reenter_safe (depth : Nat) : Safe (reenter (n := n) depth) := by
  induction depth with
  | zero =>
    intro _ _ _ _ _ _ hs
    cases hs
  | succ depth ih => exact handle_safe ih

/-! ### Calls -/

section Calls
variable {again : Reentry n → System n → Except String (System n)}

theorem threadYield_assigned (hagain : Safe again) {t time} (h : Assigned none s)
    (hs : threadYield again s t time = .ok s') : Assigned none s' := by
  rw [threadYield.eq_def] at hs
  split at hs
  · cases hs
    exact h
  · obtain ⟨s₁, h₁, hs⟩ := of_bind_ok hs
    have hk₁ := reschedule_keeps hagain (h.same (setQuantumLeft_same ..)) h₁
    split at hs
    · cases hs
      exact hk₁.1
    · exact (rescheduleFree_keeps hagain hk₁.1 hs).1

theorem threadSetAffinity_assigned (hagain : Safe again) {caller t mask time} (h : Assigned none s)
    (hs : threadSetAffinity again s caller t mask time = .ok s') : Assigned none s' := by
  by_cases hcaller : caller = some t
  · rw [threadSetAffinity.eq_def] at hs
    dsimp only at hs
    have hset := h.same (setAffinity_same s t mask)
    split at hs
    · cases hs
      exact hset
    · exact threadYield_assigned hagain hset hs
  · -- any other caller is treated as a script is
    have hscript : threadSetAffinity again s none t mask time = .ok s' := by
      rw [← hs, threadSetAffinity.eq_def, threadSetAffinity.eq_def]
      simp only [hcaller, if_false, reduceCtorEq]
    exact (threadSetAffinity_script hagain h hscript).1

theorem threadLeave_assigned (hagain : Safe again) {t time} (h : Assigned none s)
    (hs : threadLeave again s t time = .ok s') : Assigned none s' := by
  have hset : Assigned none (s.setRunnable t false) := by
    refine ⟨h.matched, h.stale, h.placed, fun u hu => ?_⟩
    by_cases hut : u = t
    · rw [hut, setRunnable] at hu
      simp at hu
    · have hu : s.m_threads_runnable u = true := by simpa [setRunnable, hut] using hu
      exact h.runnable u hu
  rw [threadLeave.eq_def] at hs
  dsimp only at hs
  split at hs
  · exact (reschedule_keeps hagain hset hs).1
  · cases hs
    exact hset

theorem periodicLoop_assigned (hagain : Safe again) {time delta l} (h : Assigned none s)
    (hs : periodicLoop again time delta l s = .ok s') :
    Assigned none s' := by
  induction l generalizing s with
  | nil =>
    cases hs
    exact h
  | cons c l ih =>
    obtain ⟨s₁, h₁, hs⟩ := of_bind_ok hs
    refine ih ?_ hs
    split at h₁
    · exact (reschedule_keeps hagain h h₁).1
    · cases h₁
      exact h.same (setQuantumLeft_same ..)

theorem onThreadStart_assigned (hagain : Safe again) {t time} (h : Assigned none s)
    (hs : onThreadStart again s t time = .ok s') : Assigned none s' := by
  rw [onThreadStart.eq_def] at hs
  split at hs
  · cases hs
  case isFalse ht =>
    obtain ⟨s₁, h₁, hs⟩ := of_bind_ok hs
    have hgrown : Assigned none { s.setStatus t .RUNNING with
        m_threads_runnable_size := if s.m_threads_runnable_size ≤ t
          then s.m_threads_runnable_size + 16 else s.m_threads_runnable_size } :=
      h.same ⟨rfl, rfl, rfl, rfl⟩
    have hk₁ := wake_keeps hagain hgrown (Nat.lt_of_not_le ht) h₁
    split at hs
    case h_1 c _ =>
      have hset : Assigned none ((s₁.setCoreState c .RUNNING).setStatus t .RUNNING) :=
        hk₁.1.same ⟨rfl, rfl, rfl, rfl⟩
      exact (callScript_keeps hagain hset hs).1
    case h_2 =>
      cases hs
      exact hk₁.1.same ⟨rfl, rfl, rfl, rfl⟩

theorem stallThread_assigned (hagain : Safe again) {t stall_reason time} (h : Assigned none s)
    (hs : stallThread again s t stall_reason time = .ok s') : Assigned none s' := by
  have hset : Assigned none { s with
      thread_state := update s.thread_state t ⟨.STALLED, stall_reason⟩ } :=
    h.same ⟨rfl, rfl, rfl, rfl⟩
  rw [stallThread.eq_def] at hs
  split at hs
  · cases hs
    exact hset
  · exact threadLeave_assigned hagain hset hs

theorem onThreadExit_assigned (hagain : Safe again) {t time} (h : Assigned none s)
    (hs : onThreadExit again s t time = .ok s') : Assigned none s' := by
  rw [onThreadExit.eq_def] at hs
  split at hs
  · cases hs
  case h_2 c _ =>
    split at hs
    · cases hs
    · obtain ⟨s₁, h₁, hs⟩ := of_bind_ok hs
      have hidle : Assigned none ((s.setStatus t .IDLE).setCoreState c .IDLE) :=
        h.same ⟨rfl, rfl, rfl, rfl⟩
      exact threadLeave_assigned hagain (hidle.same (setCore_same h₁)) hs

theorem threadCreate_assigned (affinity : Fin n → Bool) {t} (h : Assigned none s)
    (ht : t < s.num_threads) (hp : s.place t = none) :
    Assigned none (threadCreate s t affinity).2 := by
  rw [threadCreate.eq_def]
  dsimp only
  generalize hs₁ : (if (s.m_thread_info t).m_has_affinity = true then s
    else s.setInfo t { s.m_thread_info t with
      m_core_affinity := affinity, m_has_affinity := (List.finRange n).any affinity }) = s₁
  have hsame : SameTables s s₁ := by
    subst hs₁
    split
    · exact ⟨rfl, rfl, rfl, rfl⟩
    · exact setInfo_same rfl
  have h₁ := h.same hsame
  rw [← hsame.threads] at ht
  rw [← hsame.place] at hp
  split
  case h_1 c hc =>
    have hfree := free_of_findFreeCoreForThread hc
    have htaken : Assigned none ((s₁.setCoreRunning t (some c)).setThreadRunning c (some t)) := by
      refine ⟨?_, nofun, fun u hu => ?_, h₁.runnable⟩
      · have hm := h₁.matched.assign nofun hfree hp
        rw [← place_setCoreRunning] at hm
        exact hm
      · by_cases hut : u = t
        · exact hut ▸ ht
        · have hu : (s₁.setCoreRunning t (some c)).place u ≠ none := hu
          rw [place_setCoreRunning, update_of_ne hut] at hu
          exact h₁.placed u hu
    exact htaken.same (setQuantumLeft_same ..)
  case h_2 =>
    refine h₁.same ⟨rfl, ?_, rfl, rfl⟩
    rw [place_setCoreRunning, ← hp, update_eq_self]

theorem createThread_assigned {affinity} (h : Assigned none s)
    (hs : createThread s affinity = .ok s') : Assigned none s' := by
  rw [createThread.eq_def] at hs
  dsimp only at hs
  have hnew : Assigned none (({ s with num_threads := s.num_threads + 1 } : System n).setStatus
      s.num_threads .INITIALIZING) :=
    ⟨h.matched, nofun, fun t ht => Nat.lt_succ_of_lt (h.placed t ht),
      fun t ht => Nat.lt_succ_of_lt (h.runnable t ht)⟩
  have hnone : s.place s.num_threads = none := by
    by_contra hne
    exact absurd (h.placed _ hne) (Nat.lt_irrefl _)
  have hcreated := threadCreate_assigned affinity hnew (Nat.lt_succ_self _) hnone
  split at hs
  case h_1 s₁ hcreate =>
    cases hs
    rw [hcreate] at hcreated
    exact hcreated
  case h_2 c s₁ hcreate =>
    rw [hcreate] at hcreated
    obtain ⟨s₂, h₂, hs⟩ := of_bind_ok hs
    cases hs
    exact (hcreated.same (setCore_same h₂)).same ⟨rfl, rfl, rfl, rfl⟩

theorem exec_assigned (hagain : Safe again) {call} (h : Assigned none s)
    (hs : exec again s call = .ok s') : Assigned none s' := by
  cases call with
  | threadCreate affinity => exact createThread_assigned h hs
  | threadStart t time => exact onThreadStart_assigned hagain h hs
  | threadStall t stall_reason time => exact stallThread_assigned hagain h hs
  | threadResume t time => exact (resumeThread_keeps hagain h hs).1
  | threadExit t time => exact onThreadExit_assigned hagain h hs
  | threadYield t time => exact threadYield_assigned hagain h hs
  | threadSetAffinity caller t mask time => exact threadSetAffinity_assigned hagain h hs
  | periodic time =>
    obtain ⟨s₁, h₁, hs⟩ := of_bind_ok hs
    cases hs
    exact (periodicLoop_assigned hagain h h₁).same ⟨rfl, rfl, rfl, rfl⟩

end Calls

theorem Init.assigned (h : Init s) : Assigned none s := by
  refine ⟨⟨fun c t _ => ?_, nofun⟩, nofun, fun t ht => absurd (h.placed t) ht, fun t ht => ?_⟩
  · rw [h.idle, place, h.placed]
    exact ⟨nofun, nofun⟩
  · rw [h.runnable] at ht
    cases ht

theorem Assigned.step (h : Assigned none s) (hst : Step s s') : Assigned none s' := by
  obtain ⟨depth, scripts, call, hs⟩ := hst
  have hscripts : Assigned none { s with scripts := scripts } := h.same ⟨rfl, rfl, rfl, rfl⟩
  exact exec_assigned (reenter_safe depth) hscripts hs

/-- In every reachable state the two tables of the scheduler are each other's inverse. -/
theorem running_iff_placed (h : Reachable Init Step s) (c : Fin n) (t : Nat) :
    s.m_core_thread_running c = some t ↔ (s.m_thread_info t).m_core_running = some c :=
  (h.invariant (fun _ => Init.assigned) fun _ _ h hst => h.step hst).matched.inverse_none c t

/-- Two cores before any thread exists. -/
def twoCores : System 2 where
  m_quantum := 1000
  m_last_periodic := 0
  m_thread_info := fun _ => ⟨false, false, fun _ => false, none, 0, 0⟩
  m_core_thread_running := fun _ => none
  m_quantum_left := fun _ => 0
  m_threads_runnable := fun _ => false
  m_threads_runnable_size := 16
  num_threads := 0
  thread_state := fun _ => ⟨.IDLE, .STALL_UNSCHEDULED⟩
  thread_core := fun _ => none
  core_state := fun _ => .IDLE
  core_thread := fun _ => none
  scripts := []

theorem twoCores_init : Init twoCores := ⟨fun _ => rfl, fun _ => rfl, fun _ => rfl, rfl⟩

/-- Two threads start on core 0, and the second is moved to core 1 by a change of affinity. -/
theorem running_iff_placed_twoThreads : ∃ s : System 2, s.m_core_thread_running 1 = some 1 ∧
    (s.m_core_thread_running 1 = some 1 ↔ (s.m_thread_info 1).m_core_running = some 1) := by
  have h0 : Reachable Init Step twoCores := .init twoCores_init
  have h1 := h0.step ⟨0, [], .threadCreate fun c => c == 0, rfl⟩
  have h2 := h1.step ⟨0, [], .threadCreate fun c => c == 0, rfl⟩
  have h3 := h2.step ⟨2, [], .threadStart 0 0, rfl⟩
  have h4 := h3.step ⟨2, [], .threadStart 1 0, rfl⟩
  have h5 := h4.step ⟨2, [], .threadSetAffinity none 1 (some fun c => c == 1) 100, rfl⟩
  exact ⟨_, by decide, running_iff_placed h5 1 1⟩

end Sniper.Threads.Pinned
