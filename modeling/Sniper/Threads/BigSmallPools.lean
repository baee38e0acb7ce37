import Sniper.Threads.SchedulerBigSmall

/-! # Threads on the big cores

What rescheduling leaves as it is, and from it how many threads may run on the big cores at any
time and which cores each thread may run on.
-/
namespace Sniper.Threads.BigSmall
open Pinned Pinned.System Lib.Simulation Function
variable {n : Nat}

/-! ### What rescheduling leaves as it is -/

section Rescheduling
variable {s s' s'' : System n} {t : Nat} {time : SubsecondTime}

/-- The affinities and who has exited are as before. -/
structure Untouched (s s' : System n) : Prop where
  threads : s'.num_threads = s.num_threads
  scripts : s'.scripts = s.scripts
  affinity : ∀ t, (s'.m_thread_info t).m_core_affinity = (s.m_thread_info t).m_core_affinity
  known : ∀ t, (s'.m_thread_info t).m_has_affinity = (s.m_thread_info t).m_has_affinity
  exited : ∀ t, (s'.thread_state t).status = .IDLE ↔ (s.thread_state t).status = .IDLE

theorem Untouched.refl (s : System n) : Untouched s s :=
  ⟨rfl, rfl, fun _ => rfl, fun _ => rfl, fun _ => Iff.rfl⟩

theorem Untouched.trans (h : Untouched s s') (h' : Untouched s' s'') : Untouched s s'' :=
  ⟨h'.threads.trans h.threads, h'.scripts.trans h.scripts,
    fun t => (h'.affinity t).trans (h.affinity t), fun t => (h'.known t).trans (h.known t),
    fun t => (h'.exited t).trans (h.exited t)⟩

theorem untouched_of_eq (hthreads : s'.num_threads = s.num_threads)
    (hscripts : s'.scripts = s.scripts) (hinfo : s'.m_thread_info = s.m_thread_info)
    (hstate : s'.thread_state = s.thread_state) : Untouched s s' :=
  ⟨hthreads, hscripts, fun t => by rw [hinfo], fun t => by rw [hinfo], fun t => by rw [hstate]⟩

theorem setInfo_untouched {info}
    (haffinity : info.m_core_affinity = (s.m_thread_info t).m_core_affinity)
    (hknown : info.m_has_affinity = (s.m_thread_info t).m_has_affinity) :
    Untouched s (s.setInfo t info) := by
  refine ⟨rfl, rfl, setInfo_affinity haffinity, fun u => ?_, fun _ => Iff.rfl⟩
  by_cases hut : u = t
  · simp [setInfo, hut, hknown]
  · simp [setInfo, hut]

theorem setCoreRunning_untouched (s : System n) (t : Nat) (core : Option (Fin n)) :
    Untouched s (s.setCoreRunning t core) :=
  setInfo_untouched rfl rfl

theorem setLastScheduledIn_untouched (s : System n) (t : Nat) (time : SubsecondTime) :
    Untouched s (s.setLastScheduledIn t time) :=
  setInfo_untouched rfl rfl

theorem setLastScheduledOut_untouched (s : System n) (t : Nat) (time : SubsecondTime) :
    Untouched s (s.setLastScheduledOut t time) :=
  setInfo_untouched rfl rfl

theorem setState_untouched {state} (hlive : (s.thread_state t).status ≠ .IDLE)
    (hstate : state.status ≠ .IDLE) :
    Untouched s { s with thread_state := update s.thread_state t state } := by
  refine ⟨rfl, rfl, fun _ => rfl, fun _ => rfl, fun u => ?_⟩
  by_cases hut : u = t
  · simp [hut, hlive, hstate]
  · simp [hut]

theorem setStatus_untouched {status} (hlive : (s.thread_state t).status ≠ .IDLE)
    (hstatus : status ≠ .IDLE) : Untouched s (s.setStatus t status) :=
  setState_untouched hlive hstatus

theorem setRunnable_untouched (s : System n) (t : Nat) (runnable : Bool) :
    Untouched s (s.setRunnable t runnable) :=
  untouched_of_eq rfl rfl rfl rfl

theorem setCoreState_untouched (s : System n) (c : Fin n) (state : CoreState) :
    Untouched s (s.setCoreState c state) :=
  untouched_of_eq rfl rfl rfl rfl

theorem setQuantumLeft_untouched (s : System n) (c : Fin n) (left : SubsecondTime) :
    Untouched s (s.setQuantumLeft c left) :=
  untouched_of_eq rfl rfl rfl rfl

theorem idleCore_untouched (s : System n) (t : Nat) : Untouched s (s.idleCore t) := by
  rw [idleCore.eq_def]
  split
  · exact setCoreState_untouched s _ _
  · exact .refl s

theorem leaveCore_untouched (s : System n) (t : Nat) : Untouched s (s.leaveCore t) := by
  rw [leaveCore.eq_def]
  split
  · exact untouched_of_eq rfl rfl rfl rfl
  · exact .refl s

theorem setCore_untouched {core} (h : s.setCore t core = .ok s') :
    Untouched s s' := by
  have hleft : Untouched s ((s.leaveCore t).setThreadCore t core) :=
    (leaveCore_untouched s t).trans (untouched_of_eq rfl rfl rfl rfl)
  rw [setCore.eq_def] at h
  dsimp only at h
  split at h
  · cases h
    exact hleft
  · split at h
    · cases h
    · cases h
      exact hleft.trans (untouched_of_eq rfl rfl rfl rfl)

theorem takeCore_untouched (s : System n) (time : SubsecondTime) (c : Fin n) (t : Nat) :
    Untouched s (takeCore s time c t) := by
  have hvacate : ∀ s : System n, Untouched s (vacate s t) := by
    intro s
    rw [vacate.eq_def]
    split
    · exact untouched_of_eq rfl rfl rfl rfl
    · exact .refl s
  have hrunning : Untouched s (s.setThreadRunning c (some t)) := untouched_of_eq rfl rfl rfl rfl
  rw [takeCore]
  refine (hrunning.trans (hvacate _)).trans ?_
  exact (setCoreRunning_untouched _ t (some c)).trans (setLastScheduledIn_untouched _ t time)

/-- The hook of a thread that resumes leaves the affinities. -/
def Harmless (again : Reentry n → System n → Except String (System n)) : Prop :=
  ∀ t time s s', s.scripts = [] → again (.threadResume t time) s = .ok s' → Untouched s s'

variable {again : Reentry n → System n → Except String (System n)}

theorem resumeThread_untouched (hagain : Harmless again) (hscripts : s.scripts = [])
    (hlive : (s.thread_state t).status ≠ .IDLE) (hs : resumeThread again s t time = .ok s') :
    Untouched s s' := by
  rw [resumeThread] at hs
  split at hs
  · cases hs
  · obtain ⟨s₁, h₁, hs⟩ := of_bind_ok hs
    obtain ⟨s₂, h₂, h₃⟩ := of_bind_ok hs
    obtain rfl := callScript_nil (s := s.setStatus t .RUNNING) hscripts h₁
    have hset : Untouched s (s.setStatus t .RUNNING) := setStatus_untouched hlive (by simp)
    have hresumed := hset.trans (hagain t time _ s₂ hscripts h₂)
    obtain rfl := callScript_nil (hresumed.scripts.trans hscripts) h₃
    exact hresumed

theorem moveThread_untouched (hagain : Harmless again) (hscripts : s.scripts = []) {core}
    (hs : moveThread again s t core time = .ok s') :
    Untouched s s' := by
  rw [moveThread.eq_def] at hs
  dsimp only at hs
  have hidle := idleCore_untouched s t
  cases core with
  | none =>
    obtain ⟨s₁, h₁, hs⟩ := of_bind_ok hs
    have hleft := hidle.trans (setCore_untouched h₁)
    obtain rfl := callScript_nil (hleft.scripts.trans hscripts) hs
    exact hleft
  | some c =>
    obtain ⟨s₁, h₁, hs⟩ := of_bind_ok hs
    obtain ⟨s₂, h₂, hs⟩ := of_bind_ok hs
    have hwoken : Untouched (s.idleCore t) s₁ := by
      split at h₁
      case isTrue hstalled =>
        refine resumeThread_untouched hagain (hidle.scripts.trans hscripts) ?_ h₁
        rw [hstalled.2]
        simp
      case isFalse =>
        cases h₁
        exact .refl _
    have hplaced := hidle.trans (hwoken.trans (setCore_untouched h₂))
    split at hs
    · have hrunning := hplaced.trans (setCoreState_untouched s₂ c .RUNNING)
      obtain rfl := callScript_nil (hrunning.scripts.trans hscripts) hs
      exact hrunning
    · obtain rfl := callScript_nil (hplaced.scripts.trans hscripts) hs
      exact hplaced

theorem unschedule_untouched (hagain : Harmless again) (hscripts : s.scripts = []) {c current}
    (hs : unschedule again s time c current = .ok s') :
    Untouched s s' := by
  cases current with
  | none =>
    cases hs
    exact .refl s
  | some t =>
    have hout : Untouched s ((s.setCoreRunning t none).setLastScheduledOut t
        (time + 1000 * UInt64.ofNat c.val)) :=
      (setCoreRunning_untouched s t none).trans (setLastScheduledOut_untouched _ t _)
    have hmoved : moveThread again _ t none time = .ok s' := hs
    exact hout.trans (moveThread_untouched hagain (hout.scripts.trans hscripts) hmoved)

theorem schedule_untouched (hagain : Harmless again) (hscripts : s.scripts = []) {c next}
    (hs : schedule again s time c next = .ok s') : Untouched s s' := by
  cases next with
  | none =>
    cases hs
    exact untouched_of_eq rfl rfl rfl rfl
  | some t =>
    have htaken := takeCore_untouched s time c t
    have hmoved : moveThread again (takeCore s time c t) t (some c) time = .ok s' := hs
    exact htaken.trans (moveThread_untouched hagain (htaken.scripts.trans hscripts) hmoved)

theorem reschedule_untouched (hagain : Harmless again) (hscripts : s.scripts = []) {c}
    (hs : reschedule again s time c = .ok s') : Untouched s s' := by
  rw [reschedule] at hs
  split at hs
  · cases hs
    exact .refl s
  · obtain ⟨s₁, h₁, hs⟩ := of_bind_ok hs
    cases hs
    have hchanged : Untouched s s₁ := by
      split at h₁
      · cases h₁
        exact .refl s
      · obtain ⟨s₂, h₂, h₁⟩ := of_bind_ok h₁
        have hout := unschedule_untouched hagain hscripts h₂
        exact hout.trans (schedule_untouched hagain (hout.scripts.trans hscripts) h₁)
    exact hchanged.trans (setQuantumLeft_untouched s₁ c _)

theorem rescheduleFree_untouched (hagain : Harmless again) (hscripts : s.scripts = [])
    (hs : rescheduleFree again s time t = .ok s') : Untouched s s' := by
  rw [rescheduleFree.eq_def] at hs
  split at hs
  · exact reschedule_untouched hagain hscripts hs
  · cases hs
    exact .refl s

theorem handle_harmless (hagain : Harmless again) : Harmless (handle again) := by
  intro t time s s' hscripts hs
  have hwoken := setRunnable_untouched s t true
  exact hwoken.trans (rescheduleFree_untouched hagain (hwoken.scripts.trans hscripts) hs)

theorem reenter_harmless (depth : Nat) : Harmless (reenter (n := n) depth) := by
  induction depth with
  | zero => exact fun _ _ _ _ _ hs => nomatch hs
  | succ depth ih => exact handle_harmless ih

/-! ### What the calls leave -/

theorem leaveRunning_untouched (hagain : Harmless again) (hscripts : s.scripts = [])
    (hs : leaveRunning again s t time = .ok s') : Untouched s s' := by
  rw [leaveRunning.eq_def] at hs
  split at hs
  · exact reschedule_untouched hagain hscripts hs
  · cases hs
    exact .refl s

theorem threadYield_untouched (hagain : Harmless again) (hscripts : s.scripts = [])
    (hs : threadYield again s t time = .ok s') : Untouched s s' := by
  rw [threadYield.eq_def] at hs
  split at hs
  · cases hs
    exact .refl s
  case h_2 c _ =>
    obtain ⟨s₁, h₁, hs⟩ := of_bind_ok hs
    have hquantum := setQuantumLeft_untouched s c 0
    have hyielded := hquantum.trans
      (reschedule_untouched hagain (hquantum.scripts.trans hscripts) h₁)
    split at hs
    · cases hs
      exact hyielded
    · exact hyielded.trans
        (rescheduleFree_untouched hagain (hyielded.scripts.trans hscripts) hs)

theorem periodicLoop_untouched (hagain : Harmless again) {delta cores} (hscripts : s.scripts = [])
    (hs : periodicLoop again time delta cores s = .ok s') : Untouched s s' := by
  induction cores generalizing s with
  | nil =>
    cases hs
    exact .refl _
  | cons c rest ih =>
    obtain ⟨s₁, h₁, hs⟩ := of_bind_ok hs
    have hvisited : Untouched s s₁ := by
      split at h₁
      · exact reschedule_untouched hagain hscripts h₁
      · cases h₁
        exact setQuantumLeft_untouched _ c _
    exact hvisited.trans (ih (hvisited.scripts.trans hscripts) hs)

theorem periodic_untouched (hagain : Harmless again) (hscripts : s.scripts = [])
    (hs : Pinned.periodic again s time = .ok s') : Untouched s s' := by
  obtain ⟨s₁, h₁, hs⟩ := of_bind_ok hs
  cases hs
  exact (periodicLoop_untouched hagain hscripts h₁).trans (untouched_of_eq rfl rfl rfl rfl)

theorem onThreadStart_untouched (hagain : Harmless again) (hscripts : s.scripts = [])
    (hlive : (s.thread_state t).status ≠ .IDLE) (hs : onThreadStart again s t time = .ok s') :
    Untouched s s' := by
  rw [onThreadStart] at hs
  split at hs
  · cases hs
  · obtain ⟨s₁, h₁, hs⟩ := of_bind_ok hs
    have hset : Untouched s (s.setStatus t .RUNNING) := setStatus_untouched hlive nofun
    have hgrown : Untouched s (System.setRunnable { s.setStatus t .RUNNING with
        m_threads_runnable_size := if s.m_threads_runnable_size ≤ t then
          s.m_threads_runnable_size + 16 else s.m_threads_runnable_size } t true) :=
      hset.trans (untouched_of_eq rfl rfl rfl rfl)
    have hstarted := hgrown.trans
      (rescheduleFree_untouched hagain (hgrown.scripts.trans hscripts) h₁)
    have hlive₁ : (s₁.thread_state t).status ≠ .IDLE := fun h => hlive ((hstarted.exited t).mp h)
    split at hs
    case h_1 c _ =>
      have hset₁ : Untouched s₁ ((s₁.setCoreState c .RUNNING).setStatus t .RUNNING) :=
        (setCoreState_untouched s₁ c .RUNNING).trans (setStatus_untouched hlive₁ nofun)
      have hrunning := hstarted.trans hset₁
      obtain rfl := callScript_nil (hrunning.scripts.trans hscripts) hs
      exact hrunning
    case h_2 =>
      cases hs
      exact hstarted.trans (setState_untouched hlive₁ nofun)

theorem threadSetAffinity_untouched (hagain : Harmless again) (hscripts : s.scripts = []) {mask}
    (hs : threadSetAffinity again s none t mask time = .ok s') :
    Untouched (setAffinity s t mask) s' := by
  rw [threadSetAffinity.eq_def] at hs
  dsimp only at hs
  split at hs
  · cases hs
    exact .refl _
  · have hnone : ¬ none = some t := by simp
    rw [if_neg hnone] at hs
    split at hs
    case h_1 c _ =>
      cases hs
      split
      · exact .refl _
      · exact setQuantumLeft_untouched _ c 0
    case h_2 =>
      split at hs
      · exact rescheduleFree_untouched hagain ((setAffinity_rest s t mask).2.1.trans hscripts) hs
      · cases hs
        exact .refl _

theorem threadCreate_untouched {affinity}
    (haffinity : (s.m_thread_info t).m_core_affinity = affinity)
    (hknown : (s.m_thread_info t).m_has_affinity = (List.finRange n).any affinity) :
    Untouched s (Pinned.threadCreate s t affinity).2 := by
  have hset : Untouched s (if (s.m_thread_info t).m_has_affinity then s
      else s.setInfo t { s.m_thread_info t with
        m_core_affinity := affinity, m_has_affinity := (List.finRange n).any affinity }) := by
    split
    · exact .refl s
    · exact setInfo_untouched haffinity.symm hknown.symm
  rw [Pinned.threadCreate.eq_def]
  dsimp only
  split
  case h_1 c _ =>
    refine hset.trans ((setCoreRunning_untouched _ t (some c)).trans ?_)
    exact untouched_of_eq rfl rfl rfl rfl
  case h_2 => exact hset.trans (setCoreRunning_untouched _ t none)

end Rescheduling

/-! ### Counting -/

theorem countP_add_of_agree {α : Type} [DecidableEq α] {l : List α} {a p q} (hl : l.Nodup)
    (ha : a ∈ l) (hagree : ∀ b ∈ l, b ≠ a → q b = p b) :
    l.countP q + (p a).toNat = l.countP p + (q a).toNat := by
  have hperm := List.perm_cons_erase ha
  have hrest : (l.erase a).countP q = (l.erase a).countP p := by
    refine List.countP_congr fun b hb => ?_
    rw [hagree b (List.mem_of_mem_erase hb) (hl.mem_erase_iff.mp hb).1]
  have hcount : ∀ r : α → Bool, l.countP r = (l.erase a).countP r + (r a).toNat := by
    intro r
    rw [hperm.countP_eq, List.countP_cons]
    cases r a <;> rfl
  rw [hcount q, hcount p, hrest]
  omega

/-! ### Moving threads -/

section Pools
variable {R : Type} {s s' s'' : Scheduler n R} {t k : Nat} {time : SubsecondTime}

/-- What the tags determine. -/
def Scheduler.pools (s : Scheduler n R) : Nat × (Bool → Fin n → Bool) :=
  (s.m_num_big_cores, s.mask)

/-- The pools of cores and who has exited are as before. -/
structure SamePools (s s' : Scheduler n R) : Prop where
  pools : s'.pools = s.pools
  threads : s'.system.num_threads = s.system.num_threads
  exited : ∀ t, (s'.system.thread_state t).status = .IDLE ↔
    (s.system.thread_state t).status = .IDLE

theorem SamePools.refl (s : Scheduler n R) : SamePools s s := ⟨rfl, rfl, fun _ => Iff.rfl⟩

theorem SamePools.trans (h : SamePools s s') (h' : SamePools s' s'') : SamePools s s'' :=
  ⟨h'.pools.trans h.pools, h'.threads.trans h.threads,
    fun t => (h'.exited t).trans (h.exited t)⟩

theorem SamePools.mask (h : SamePools s s') : s'.mask = s.mask := congrArg Prod.snd h.pools

theorem SamePools.big (h : SamePools s s') : s'.m_num_big_cores = s.m_num_big_cores :=
  congrArg Prod.fst h.pools

theorem SamePools.live (h : SamePools s s') : s'.Live t ↔ s.Live t :=
  and_congr (by rw [h.threads]) (not_congr (h.exited t))

theorem SamePools.bigThreads (h : SamePools s s') (hflags : s'.m_thread_isbig = s.m_thread_isbig) :
    s'.bigThreads = s.bigThreads := by
  rw [Scheduler.bigThreads, Scheduler.bigThreads, h.threads, hflags]
  refine List.countP_congr fun t _ => ?_
  simp [h.live]

/-- Every thread may run on the cores of its pool, and those to come have no affinity yet. -/
structure Pooled (s : Scheduler n R) : Prop where
  scripts : s.system.scripts = []
  fresh : ∀ t, s.system.num_threads ≤ t → (s.system.m_thread_info t).m_has_affinity = false
  affinity : ∀ t < s.system.num_threads, s.affinity t = s.mask (s.m_thread_isbig t)

theorem Pooled.untouched (h : Pooled s) {system} (hsystem : Untouched s.system system) :
    Pooled { s with system := system } ∧ SamePools s { s with system := system } := by
  refine ⟨⟨hsystem.scripts.trans h.scripts, fun t ht => ?_, fun t ht => ?_⟩,
    rfl, hsystem.threads, hsystem.exited⟩
  · rw [hsystem.known]
    exact h.fresh t (hsystem.threads ▸ ht)
  · have hknown : t < s.system.num_threads := hsystem.threads ▸ ht
    exact (hsystem.affinity t).trans (h.affinity t hknown)

/-- A thread has been moved to one of the pools. -/
structure Moved (t : Nat) (isbig : Bool) (s s' : Scheduler n R) : Prop where
  pooled : Pooled s'
  same : SamePools s s'
  flags : s'.m_thread_isbig = update s.m_thread_isbig t isbig

variable {again : Reentry n → System n → Except String (System n)}

theorem moveTo_spec (hagain : Harmless again) (hscripts : s.system.scripts = []) {mask isbig}
    (hs : moveTo again s t mask isbig = .ok s') :
    Untouched (setAffinity s.system t (some mask)) s'.system ∧ s'.pools = s.pools ∧
      s'.m_thread_isbig = update s.m_thread_isbig t isbig := by
  obtain ⟨s₁, h₁, hs⟩ := of_bind_ok hs
  obtain ⟨system, hsystem, rfl⟩ := of_map_ok h₁
  cases hs
  exact ⟨threadSetAffinity_untouched hagain hscripts hsystem, rfl, rfl⟩

theorem moveTo_moved (hagain : Harmless again) (h : Pooled s) (ht : t < s.system.num_threads)
    {isbig} (hs : moveTo again s t (s.mask isbig) isbig = .ok s') :
    Moved t isbig s s' := by
  obtain ⟨hsystem, hpools, hflags⟩ := moveTo_spec hagain h.scripts hs
  have hthreads : s'.system.num_threads = s.system.num_threads := hsystem.threads
  have hsame : SamePools s s' := ⟨hpools, hthreads, hsystem.exited⟩
  refine ⟨⟨hsystem.scripts.trans h.scripts, fun u hu => ?_, fun u hu => ?_⟩, hsame, hflags⟩
  · rw [hthreads] at hu
    have hut : u ≠ t := Nat.ne_of_gt (Nat.lt_of_lt_of_le ht hu)
    rw [hsystem.known, (setAffinity_rest s.system t _).2.2 u hut]
    exact h.fresh u hu
  · rw [Scheduler.affinity, hsystem.affinity, hsame.mask, hflags]
    by_cases hut : u = t
    · subst hut
      simp [setAffinity, setInfo]
    · rw [(setAffinity_rest s.system t _).2.2 u hut, update_of_ne hut]
      exact h.affinity u (hthreads ▸ hu)

theorem Moved.count {isbig} (h : Moved t isbig s s') (ht : t < s.system.num_threads) :
    s'.bigThreads + (s.m_thread_isbig t && decide (s.Live t)).toNat =
      s.bigThreads + (isbig && decide (s.Live t)).toNat := by
  have hcount := countP_add_of_agree (p := fun t => s.m_thread_isbig t && decide (s.Live t))
    (q := fun t => s'.m_thread_isbig t && decide (s'.Live t)) (List.nodup_range)
    (List.mem_range.mpr ht) fun u _ hut => by
      simp [h.flags, h.same.live, hut]
  rw [Scheduler.bigThreads, Scheduler.bigThreads, h.same.threads]
  simpa [h.flags, h.same.live] using hcount

/-- Up to so many more threads are on the big cores. -/
structure Grows (k : Nat) (s s' : Scheduler n R) : Prop where
  pooled : Pooled s'
  same : SamePools s s'
  few : s'.bigThreads ≤ s.bigThreads + k

theorem Grows.trans {m} (h : Grows k s s') (h' : Grows m s' s'') : Grows (k + m) s s'' := by
  refine ⟨h'.pooled, h.same.trans h'.same, ?_⟩
  have hfew := h.few
  have hfew' := h'.few
  omega

theorem Pooled.grows (h : Pooled s) {system} (hsystem : Untouched s.system system) :
    Grows 0 s { s with system := system } := by
  obtain ⟨hpooled, hsame⟩ := h.untouched hsystem
  exact ⟨hpooled, hsame, Nat.le_of_eq (hsame.bigThreads rfl)⟩

theorem Moved.grows {isbig} (h : Moved t isbig s s') (ht : t < s.system.num_threads) :
    Grows isbig.toNat s s' := by
  refine ⟨h.pooled, h.same, ?_⟩
  have hcount := h.count ht
  have hbit : (isbig && decide (s.Live t)).toNat ≤ isbig.toNat := by
    cases isbig
    · simp
    · exact Bool.toNat_le _
  omega

variable {rng_next : R → Nat × R}

theorem pickBigThread_grows (hagain : Harmless again) (h : Pooled s)
    (hs : pickBigThread rng_next again s = .ok s') :
    Grows 1 s s' ∧ ∀ t, s.m_thread_isbig t = true → s'.m_thread_isbig t = true := by
  rw [pickBigThread] at hs
  split at hs
  case isTrue hsome =>
    dsimp only at hs
    generalize hu : s.eligible.get _ = u at hs
    have hmem : u ∈ s.eligible := hu ▸ List.get_mem s.eligible _
    have hknown : u < s.system.num_threads := List.mem_range.mp (List.mem_of_mem_filter hmem)
    have hpooled : Pooled { s with m_rng := (rng_next s.m_rng).2 } :=
      ⟨h.scripts, h.fresh, h.affinity⟩
    have hmoved : Moved u true _ s' := moveTo_moved hagain hpooled hknown hs
    have hgrows := hmoved.grows hknown
    refine ⟨⟨hgrows.pooled, ⟨hgrows.same.pools, hgrows.same.threads, hgrows.same.exited⟩,
      hgrows.few⟩, fun t ht => ?_⟩
    rw [hmoved.flags]
    by_cases htu : t = u
    · simp [htu]
    · simp [htu, ht]
  case isFalse =>
    cases hs
    exact ⟨⟨h, .refl _, Nat.le_succ _⟩, fun _ ht => ht⟩

theorem pickBigThreads_grows (hagain : Harmless again) (h : Pooled s)
    (hs : pickBigThreads rng_next again k s = .ok s') : Grows k s s' := by
  induction k generalizing s with
  | zero =>
    cases hs
    exact ⟨h, .refl _, Nat.le_refl _⟩
  | succ k ih =>
    obtain ⟨s₁, h₁, hs⟩ := of_bind_ok hs
    have hpick := (pickBigThread_grows hagain h h₁).1
    have hrest := hpick.trans (ih hpick.pooled hs)
    rwa [Nat.add_comm] at hrest

theorem moveAllToSmall_spec (hagain : Harmless again) {threads} (h : Pooled s)
    (hthreads : ∀ t ∈ threads, t < s.system.num_threads)
    (hs : moveAllToSmall again threads s = .ok s') :
    Pooled s' ∧ SamePools s s' ∧
      ∀ t, s'.m_thread_isbig t = (s.m_thread_isbig t && t ∉ threads) := by
  induction threads generalizing s with
  | nil =>
    cases hs
    exact ⟨h, .refl _, fun t => by simp⟩
  | cons u rest ih =>
    obtain ⟨s₁, h₁, hs⟩ := of_bind_ok hs
    obtain ⟨hu, hrest⟩ := List.forall_mem_cons.mp hthreads
    have hfirst : Pooled s₁ ∧ SamePools s s₁ ∧
        ∀ t, s₁.m_thread_isbig t = (s.m_thread_isbig t && t ≠ u) := by
      split at h₁
      · have hmoved : Moved u false s s₁ := moveTo_moved hagain h hu h₁
        refine ⟨hmoved.pooled, hmoved.same, fun t => ?_⟩
        rw [hmoved.flags]
        by_cases htu : t = u
        · simp [htu]
        · simp [htu]
      case isFalse hsmall =>
        cases h₁
        refine ⟨h, .refl _, fun t => ?_⟩
        by_cases htu : t = u
        · simp [htu, hsmall]
        · simp [htu]
    obtain ⟨hpooled, hsame, hflags⟩ := hfirst
    obtain ⟨hpooled', hsame', hflags'⟩ := ih hpooled
      (fun t ht => hsame.threads.symm ▸ hrest t ht) hs
    refine ⟨hpooled', hsame.trans hsame', fun t => ?_⟩
    simp [hflags', hflags, Bool.and_assoc]

/-! ### What a call leaves -/

/-- No more threads are on the big cores than before or than there are big cores. -/
structure Settled (s s' : Scheduler n R) : Prop where
  pooled : Pooled s'
  pools : s'.pools = s.pools
  few : s'.bigThreads ≤ max s.bigThreads s.m_num_big_cores

theorem Grows.settled (h : Grows 0 s s') : Settled s s' :=
  ⟨h.pooled, h.same.pools, Nat.le_trans h.few (Nat.le_max_left _ _)⟩

theorem withSystem_settled (h : Pooled s) {x}
    (hx : ∀ system, x = .ok system → Untouched s.system system) (hs : s.withSystem x = .ok s') :
    Settled s s' := by
  obtain ⟨system, hsystem, rfl⟩ := of_map_ok hs
  exact (h.grows (hx system hsystem)).settled

theorem threadLeave_grows (hagain : Harmless again) (h : Pooled s)
    (hs : s.withSystem (leaveRunning again s.system t time) = .ok s') : Grows 0 s s' := by
  obtain ⟨system, hsystem, rfl⟩ := of_map_ok hs
  exact h.grows (leaveRunning_untouched hagain h.scripts hsystem)

theorem threadStall_grows (hagain : Harmless again) (h : Pooled s) (hlive : s.Live t)
    (hs : threadStall rng_next again s t time = .ok s') : Grows 0 s s' := by
  have hset := h.grows (setRunnable_untouched s.system t false)
  obtain ⟨s₁, h₁, hs⟩ := of_bind_ok hs
  have hmoved : Grows 0 s s₁ := by
    split at h₁
    case isTrue hbig =>
      obtain ⟨s₂, h₂, h₁⟩ := of_bind_ok h₁
      obtain ⟨hpick, hflags⟩ := pickBigThread_grows hagain hset.pooled h₂
      have hpicked := hset.trans hpick
      have hlive₂ : s₂.Live t := hpicked.same.live.mpr hlive
      have hback : Moved t false s₂ s₁ := moveTo_moved hagain hpicked.pooled hlive₂.1 h₁
      refine ⟨hback.pooled, hpicked.same.trans hback.same, ?_⟩
      have hcount := hback.count hlive₂.1
      have hfew := hpicked.few
      rw [hflags t hbig, decide_eq_true hlive₂] at hcount
      simp only [Bool.and_self, Bool.toNat_true, Bool.false_and, Bool.toNat_false] at hcount
      omega
    case isFalse =>
      cases h₁
      exact hset
  exact hmoved.trans (threadLeave_grows hagain hmoved.pooled hs)

theorem threadExit_grows (hagain : Harmless again) (h : Pooled s)
    (hs : threadExit rng_next again s t time = .ok s') :
    Grows (s.m_thread_isbig t).toNat s s' := by
  have hset := h.grows (setRunnable_untouched s.system t false)
  rw [threadExit] at hs
  dsimp only at hs
  obtain ⟨s₁, h₁, hs⟩ := of_bind_ok hs
  have hpicked : Grows (s.m_thread_isbig t).toNat s s₁ := by
    split at h₁
    case isTrue hbig =>
      have hpick := hset.trans (pickBigThread_grows hagain hset.pooled h₁).1
      simpa [hbig] using hpick
    case isFalse hsmall =>
      cases h₁
      simpa [hsmall] using hset
  exact hpicked.trans (threadLeave_grows hagain hpicked.pooled hs)

theorem stallThread_settled (hagain : Harmless again) (h : Pooled s) (hlive : s.Live t) {reason}
    (hs : stallThread rng_next again s t reason time = .ok s') :
    Settled s s' := by
  have hstate : Untouched s.system { s.system with
      thread_state := update s.system.thread_state t ⟨.STALLED, reason⟩ } :=
    setState_untouched hlive.2 nofun
  have hset := h.grows hstate
  rw [stallThread] at hs
  split at hs
  · cases hs
    exact hset.settled
  · have hstall := threadStall_grows hagain hset.pooled (hset.same.live.mpr hlive) hs
    exact (hset.trans hstall).settled

theorem onThreadExit_settled (hagain : Harmless again) (h : Pooled s) (hlive : s.Live t)
    (hs : onThreadExit rng_next again s t time = .ok s') : Settled s s' := by
  rw [onThreadExit.eq_def] at hs
  split at hs
  · cases hs
  case h_2 c _ =>
    split at hs
    · cases hs
    · obtain ⟨s₁, h₁, hs⟩ := of_bind_ok hs
      obtain ⟨system, hsystem, rfl⟩ := of_map_ok h₁
      have hleft : Untouched (s.system.setStatus t .IDLE) system :=
        (setCoreState_untouched _ c .IDLE).trans (setCore_untouched hsystem)
      have hthreads : system.num_threads = s.system.num_threads := hleft.threads
      have hexited : ∀ u, (system.thread_state u).status = .IDLE ↔
          (s.system.thread_state u).status = .IDLE ∨ u = t := by
        intro u
        rw [hleft.exited]
        by_cases hut : u = t
        all_goals simp [setStatus, hut]
      have hpooled : Pooled { s with system := system } := by
        refine ⟨hleft.scripts.trans h.scripts, fun u hu => ?_, fun u hu => ?_⟩
        · rw [hleft.known]
          exact h.fresh u (hleft.threads ▸ hu)
        · have hknown : u < s.system.num_threads := hleft.threads ▸ hu
          exact (hleft.affinity u).trans (h.affinity u hknown)
      have hothers : ∀ u, u ≠ t →
          (({ s with system := system } : Scheduler n R).Live u ↔ s.Live u) := by
        intro u hut
        simp [Scheduler.Live, hexited, hut, hthreads]
      have hcount := countP_add_of_agree (p := fun u => s.m_thread_isbig u && decide (s.Live u))
        (q := fun u => s.m_thread_isbig u &&
          decide (({ s with system := system } : Scheduler n R).Live u)) List.nodup_range
        (List.mem_range.mpr hlive.1) fun u _ hut => by
          rw [decide_eq_decide.mpr (hothers u hut)]
      have hgone : ¬ ({ s with system := system } : Scheduler n R).Live t :=
        fun hstill => hstill.2 ((hexited t).mpr (.inr rfl))
      have hbefore : ({ s with system := system } : Scheduler n R).bigThreads +
          (s.m_thread_isbig t).toNat = s.bigThreads := by
        rw [Scheduler.bigThreads, Scheduler.bigThreads]
        simpa [hthreads, hlive, hgone] using hcount
      have hexit := threadExit_grows hagain hpooled hs
      refine ⟨hexit.pooled, hexit.same.pools, Nat.le_trans ?_ (Nat.le_max_left _ _)⟩
      exact Nat.le_trans hexit.few (Nat.le_of_eq hbefore)

theorem periodic_settled (hagain : Harmless again) (h : Pooled s)
    (hs : periodic rng_next again s time = .ok s') : Settled s s' := by
  obtain ⟨s₁, h₁, hs⟩ := of_bind_ok hs
  have hshuffled : Settled s s₁ := by
    split at h₁
    · obtain ⟨s₂, h₂, h₁⟩ := of_bind_ok h₁
      obtain ⟨s₃, h₃, h₁⟩ := of_bind_ok h₁
      cases h₁
      obtain ⟨hpooled, hsame, hflags⟩ := moveAllToSmall_spec hagain h
        (fun t ht => List.mem_range.mp ht) h₂
      have hnone : s₂.bigThreads = 0 := by
        refine List.countP_eq_zero.mpr fun t ht => ?_
        rw [hsame.threads] at ht
        simp [hflags, List.mem_range.mp ht]
      have hpicked := pickBigThreads_grows hagain hpooled h₃
      refine ⟨⟨hpicked.pooled.scripts, hpicked.pooled.fresh, hpicked.pooled.affinity⟩,
        hpicked.same.pools.trans hsame.pools, Nat.le_trans ?_ (Nat.le_max_right _ _)⟩
      have hfew := hpicked.few
      rw [hnone, Nat.zero_add, hsame.big] at hfew
      exact Nat.le_trans hfew (Nat.min_le_left _ _)
    · cases h₁
      exact ⟨h, rfl, Nat.le_max_left _ _⟩
  obtain ⟨system, hsystem, rfl⟩ := of_map_ok hs
  have hrest := hshuffled.pooled.grows (periodic_untouched hagain hshuffled.pooled.scripts hsystem)
  exact ⟨hrest.pooled, hrest.same.pools.trans hshuffled.pools,
    Nat.le_trans hrest.few hshuffled.few⟩

/-- The system with one more thread. -/
def withThread (s : System n) : System n :=
  System.setStatus { s with num_threads := s.num_threads + 1 } s.num_threads .INITIALIZING

/-- The new thread may run on the small cores. -/
def withSmallThread (s : Scheduler n R) : System n :=
  setAffinity (withThread s.system) s.system.num_threads (some s.m_mask_small)

theorem createThread_spec (hagain : Harmless again) (h : Pooled s)
    (hs : createThread again s = .ok s') :
    Untouched (withSmallThread s) s'.system ∧ s'.pools = s.pools ∧
      s'.m_thread_isbig = update s.m_thread_isbig s.system.num_threads false := by
  obtain ⟨⟨core, s₁⟩, h₁, hs⟩ := of_bind_ok hs
  obtain ⟨s₂, h₂, h₁⟩ := of_bind_ok h₁
  have hnew : (s.system.m_thread_info s.system.num_threads).m_has_affinity = false :=
    h.fresh _ (Nat.le_refl _)
  rw [if_neg (by simpa [setStatus] using hnew)] at h₂
  obtain ⟨hset, hpools, hflags⟩ := moveTo_spec hagain
    (s := { s with system := withThread s.system }) h.scripts h₂
  have hset : Untouched (withSmallThread s) s₂.system := hset
  have hcreated : Untouched s₂.system (Pinned.threadCreate s₂.system s.system.num_threads
      (s₂.system.m_thread_info s.system.num_threads).m_core_affinity).2 := by
    refine threadCreate_untouched rfl ?_
    rw [hset.known, hset.affinity]
    simp [withSmallThread, withThread, setAffinity, setInfo, setStatus, hnew]
  have hcreated := hset.trans hcreated
  obtain ⟨-, rfl⟩ := Prod.mk.inj (Except.ok.inj h₁)
  cases core with
  | none =>
    cases hs
    exact ⟨hcreated, hpools, hflags⟩
  | some c =>
    obtain ⟨system, hsystem, rfl⟩ := of_map_ok hs
    obtain ⟨system₁, h₃, hsystem⟩ := of_bind_ok hsystem
    cases hsystem
    have hplaced := hcreated.trans (setCore_untouched h₃)
    exact ⟨hplaced.trans (setCoreState_untouched _ c _), hpools, hflags⟩

theorem createThread_settled (hagain : Harmless again) (h : Pooled s)
    (hs : createThread again s = .ok s') : Settled s s' := by
  obtain ⟨hsystem, hpools, hflags⟩ := createThread_spec hagain h hs
  have hthreads : s'.system.num_threads = s.system.num_threads + 1 := hsystem.threads
  have hmask : s'.mask = s.mask := congrArg Prod.snd hpools
  have hinfo : ∀ u, u ≠ s.system.num_threads →
      (withSmallThread s).m_thread_info u = s.system.m_thread_info u :=
    (setAffinity_rest _ s.system.num_threads (some s.m_mask_small)).2.2
  have hpooled : Pooled s' := by
    refine ⟨hsystem.scripts.trans h.scripts, fun u hu => ?_, fun u hu => ?_⟩
    · rw [hsystem.known, hinfo u (by omega)]
      exact h.fresh u (by omega)
    · rw [Scheduler.affinity, hsystem.affinity, hmask, hflags]
      by_cases hut : u = s.system.num_threads
      · subst hut
        simp [withSmallThread, withThread, setAffinity, setInfo, Scheduler.mask]
      · rw [hinfo u hut, update_of_ne hut]
        exact h.affinity u (by omega)
  have hcount : s'.bigThreads = s.bigThreads := by
    rw [Scheduler.bigThreads, hthreads, List.range_succ, List.countP_append, Scheduler.bigThreads]
    have hrest : (List.range s.system.num_threads).countP
          (fun u => s'.m_thread_isbig u && decide (s'.Live u)) =
        (List.range s.system.num_threads).countP
          fun u => s.m_thread_isbig u && decide (s.Live u) := by
      refine List.countP_congr fun u hu => ?_
      have hlt := List.mem_range.mp hu
      have hne : u ≠ s.system.num_threads := Nat.ne_of_lt hlt
      have hexited : (s'.system.thread_state u).status = .IDLE ↔
          (s.system.thread_state u).status = .IDLE := by
        rw [hsystem.exited]
        simp [withSmallThread, withThread, setAffinity, setInfo, setStatus, hne]
      have hlt' : u < s.system.num_threads + 1 := by omega
      simp [Scheduler.Live, hflags, hne, hexited, hthreads, hlt, hlt']
    rw [hrest]
    simp [hflags]
  exact ⟨hpooled, hpools, hcount ▸ Nat.le_max_left _ _⟩

theorem exec_settled (hagain : Harmless again) (h : Pooled s) {call} (hallowed : Allowed s call)
    (hs : exec rng_next again s call = .ok s') : Settled s s' := by
  cases call with
  | threadCreate => exact createThread_settled hagain h hs
  | threadStart t time =>
    refine withSystem_settled h (fun system hsystem => ?_) hs
    exact onThreadStart_untouched hagain h.scripts hallowed.2 hsystem
  | threadStall t reason time => exact stallThread_settled hagain h hallowed hs
  | threadResume t time =>
    refine withSystem_settled h (fun system hsystem => ?_) hs
    exact resumeThread_untouched hagain h.scripts hallowed.2 hsystem
  | threadExit t time => exact onThreadExit_settled hagain h hallowed hs
  | threadYield t time =>
    refine withSystem_settled h (fun system hsystem => ?_) hs
    exact threadYield_untouched hagain h.scripts hsystem
  | periodic time => exact periodic_settled hagain h hs

/-! ### Runs -/

theorem CPU_SET_apply (d c : Fin n) (mask : Fin n → Bool) :
    CPU_SET d mask c = (mask c || c = d && c.val < 1024) := by
  rw [CPU_SET]
  by_cases hcd : c = d
  · by_cases hroom : d.val < 1024
    · simp [hcd, hroom]
    · simp [hcd, hroom]
  · split <;> simp [hcd]

theorem addCore_masks (isBig : Fin n → Bool) (s : Scheduler n R) (d c : Fin n) :
    (addCore isBig s d).m_mask_big c = (s.m_mask_big c || c = d && isBig c && c.val < 1024) ∧
    (addCore isBig s d).m_mask_small c =
      (s.m_mask_small c || c = d && !isBig c && c.val < 1024) := by
  rw [addCore]
  by_cases hcd : c = d
  · cases hd : isBig d <;> simp [CPU_SET_apply, hcd, hd]
  · split <;> simp [CPU_SET_apply, hcd]

theorem addCores_spec (isBig : Fin n → Bool) (cores : List (Fin n)) (s : Scheduler n R) :
    let s' := cores.foldl (addCore isBig) s
    s'.system = s.system ∧ s'.m_num_big_cores = s.m_num_big_cores + cores.countP isBig ∧
    ∀ c, s'.m_mask_big c = (s.m_mask_big c || c ∈ cores && isBig c && c.val < 1024) ∧
      s'.m_mask_small c = (s.m_mask_small c || c ∈ cores && !isBig c && c.val < 1024) := by
  induction cores generalizing s with
  | nil => simp
  | cons d rest ih =>
    obtain ⟨hsystem, hbig, hmasks⟩ := ih (addCore isBig s d)
    have hadded : (addCore isBig s d).system = s.system ∧
        (addCore isBig s d).m_num_big_cores = s.m_num_big_cores + if isBig d then 1 else 0 := by
      rw [addCore]
      split <;> exact ⟨rfl, rfl⟩
    refine ⟨hsystem.trans hadded.1, ?_, fun c => ?_⟩
    · rw [List.foldl_cons, hbig, hadded.2, List.countP_cons]
      omega
    · obtain ⟨hmask, hmask'⟩ := addCore_masks isBig s d c
      rw [List.foldl_cons, (hmasks c).1, (hmasks c).2, hmask, hmask']
      simp only [List.mem_cons, Bool.decide_or, Bool.or_assoc, Bool.and_or_distrib_right, and_self]

variable {isBig : Fin n → Bool} {quantum : SubsecondTime} {rng : R}

/-- What calls keep: the pools are those of the constructor, and not too many threads are on the
big cores. -/
structure Fits (isBig : Fin n → Bool) (s : Scheduler n R) : Prop where
  pooled : Pooled s
  few : s.bigThreads ≤ s.m_num_big_cores
  tagged : s.m_num_big_cores = (List.finRange n).countP isBig
  masks : ∀ c isbig, s.mask isbig c = (isBig c == isbig && c.val < 1024)

theorem constructor_fits (isBig : Fin n → Bool) (quantum : SubsecondTime) (rng : R) :
    Fits isBig (constructor isBig quantum rng) := by
  obtain ⟨hsystem, hbig, hmasks⟩ := addCores_spec isBig (List.finRange n)
    { system := Sequential.pinnedBase n quantum
      m_num_big_cores := 0
      m_mask_big := fun _ => false
      m_mask_small := fun _ => false
      m_last_reshuffle := 0
      m_rng := rng
      m_thread_isbig := fun _ => false
      elapsed := [] }
  have hthreads : (constructor isBig quantum rng).system.num_threads = 0 :=
    congrArg System.num_threads hsystem
  refine ⟨⟨congrArg System.scripts hsystem, fun t _ => ?_, fun t ht => ?_⟩, ?_, ?_, ?_⟩
  · exact congrArg (fun system => (system.m_thread_info t).m_has_affinity) hsystem
  · rw [hthreads] at ht
    cases ht
  · rw [Scheduler.bigThreads, hthreads]
    exact Nat.zero_le _
  · exact hbig.trans (Nat.zero_add _)
  · intro c isbig
    cases isbig
    · refine Eq.trans (hmasks c).2 ?_
      simp
    · refine Eq.trans (hmasks c).1 ?_
      simp

theorem Fits.step (h : Fits isBig s) (hst : Step rng_next s s') : Fits isBig s' := by
  obtain ⟨depth, elapsed, call, hallowed, hs⟩ := hst
  have hpooled : Pooled { s with elapsed := elapsed } :=
    ⟨h.pooled.scripts, h.pooled.fresh, h.pooled.affinity⟩
  have hsettled := exec_settled (reenter_harmless depth) hpooled hallowed hs
  have hbig : s'.m_num_big_cores = s.m_num_big_cores := congrArg Prod.fst hsettled.pools
  have hmask : s'.mask = s.mask := congrArg Prod.snd hsettled.pools
  refine ⟨hsettled.pooled, ?_, hbig.trans h.tagged, fun c isbig => ?_⟩
  · rw [hbig]
    exact Nat.le_trans hsettled.few (Nat.max_le.mpr ⟨h.few, Nat.le_refl _⟩)
  · rw [hmask]
    exact h.masks c isbig

/-- After every call the threads that have not exited and are on the big cores are at most as many
as the big cores. Each thread, also one that has exited, may run exactly on the cores of the pool
that its flag names: those that are tagged as big, or those that are not. -/
theorem big_cores_suffice (h : Reachable (fun s => s = constructor isBig quantum rng)
    (Step rng_next) s) :
    s.bigThreads ≤ s.m_num_big_cores ∧
    (∀ t < s.system.num_threads,
      s.affinity t = if s.m_thread_isbig t then s.m_mask_big else s.m_mask_small) ∧
    s.m_num_big_cores = (List.finRange n).countP isBig ∧
    ∀ c, s.m_mask_big c = (isBig c && c.val < 1024) ∧
      s.m_mask_small c = (!isBig c && c.val < 1024) := by
  have hfits : Fits isBig s := by
    refine h.invariant (fun s hs => ?_) fun _ _ h hst => h.step hst
    exact hs ▸ constructor_fits isBig quantum rng
  refine ⟨hfits.few, hfits.pooled.affinity, hfits.tagged, fun c => ⟨?_, ?_⟩⟩
  · refine Eq.trans (hfits.masks c true) ?_
    simp
  · refine Eq.trans (hfits.masks c false) ?_
    simp

open scoped Lib.Sizes

/-- Core 0 is big. -/
def oneBig : Fin 2 → Bool := fun c => c = 0

/-- The calls one after the other, as far as they are allowed. -/
def run (rng_next : R → Nat × R) (calls : List Call) (s : Scheduler n R) :
    Except String (Scheduler n R) :=
  calls.foldlM (fun s call =>
    if Allowed s call then exec rng_next (reenter 1) s call else .error "not allowed") s

theorem run_reachable {calls} (hs : run rng_next calls (constructor isBig quantum rng) = .ok s) :
    Reachable (fun s => s = constructor isBig quantum rng) (Step rng_next) s := by
  refine Reachable.foldlM (fun call _ s s' hs => ?_) (.init rfl) hs
  split at hs
  case isTrue hallowed => exact ⟨1, s.elapsed, call, hallowed, hs⟩
  case isFalse => cases hs

open Memory.AddressHash (rng_seed)

/-- A thread is promoted, and moves to the big core. -/
theorem big_cores_suffice_one : ∃ s : Scheduler 2 Nat, s.m_thread_isbig 0 = true ∧
    s.system.thread_core 0 = some 0 ∧ s.bigThreads ≤ s.m_num_big_cores := by
  obtain ⟨s, hs, hbig, hcore⟩ : ∃ s, run Memory.AddressHash.rng_next
      [.threadCreate, .threadStart 0 0, .periodic 2000000, .periodic 3000000]
      (constructor oneBig 1000000 (rng_seed 42)) = .ok s ∧
      s.m_thread_isbig 0 = true ∧ s.system.thread_core 0 = some 0 :=
    exists_of_toOption (by decide +kernel)
  exact ⟨s, hbig, hcore, (big_cores_suffice (run_reachable hs)).1⟩

/-- A thread that has exited may still run on the big cores only. -/
theorem exited_thread_stays_big : ∃ s : Scheduler 2 Nat,
    Reachable (fun s => s = constructor oneBig 1000000 (rng_seed 42))
      (Step Memory.AddressHash.rng_next) s ∧
    ∃ t < s.system.num_threads, ¬ (s.Live t ∧ s.m_thread_isbig t = true) ∧
      s.affinity t ≠ s.m_mask_small := by
  obtain ⟨s, hs, hthreads, hexited, haffinity⟩ : ∃ s, run Memory.AddressHash.rng_next
      [.threadCreate, .threadStart 0 0, .periodic 2000000, .periodic 3000000, .threadExit 0 4000000]
      (constructor oneBig 1000000 (rng_seed 42)) = .ok s ∧
      0 < s.system.num_threads ∧ ¬ s.Live 0 ∧ s.affinity 0 ≠ s.m_mask_small :=
    exists_of_toOption (by decide +kernel)
  exact ⟨s, run_reachable hs, 0, hthreads, fun h => hexited h.1, haffinity⟩

end Pools

end Sniper.Threads.BigSmall
