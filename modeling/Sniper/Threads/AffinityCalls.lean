import Sniper.Threads.PinnedConservation

/-! # Affinity system calls

`SYS_sched_setaffinity` and `SYS_sched_getaffinity` of `SyscallMdl::runEnter`, over the pinned
scheduler. A mask of the application is a buffer of so many bytes with a bit for each core.
-/
namespace Sniper.Threads.Affinity
open Pinned Lib.Simulation Function

variable {n : Nat}

/-! ### The calls -/

def CPU_ISSET_S (cpu cpusetsize : Nat) (mask : Nat → Bool) : Bool :=
  decide (cpu < 8 * cpusetsize) && mask cpu

/-- The loop over the mask in `threadSetAffinity`. -/
def addMask (cpusetsize : Nat) (mask : Nat → Bool) :
    List Nat → (Fin n → Bool) → Except String (Fin n → Bool)
  | [], m_core_affinity => .ok m_core_affinity
  | cpu :: rest, m_core_affinity =>
    if CPU_ISSET_S cpu cpusetsize mask then
      if h : cpu < n then
        addMask cpusetsize mask rest (update m_core_affinity ⟨cpu, h⟩ true)
      else .error "Invalid core %d found in sched_setaffinity() mask"
    else addMask cpusetsize mask rest m_core_affinity

/-- `threadGetAffinity`: the mask that it fills, if there is space for it. -/
def threadGetAffinity (s : System n) (thread_id cpusetsize : Nat) : Option (Nat → Bool) :=
  if cpusetsize * 8 < n then none
  else some fun cpu =>
    if h : cpu < n then
      (s.m_thread_info thread_id).m_core_affinity ⟨cpu, h⟩ ||
        !(s.m_thread_info thread_id).m_explicit_affinity
    else false

/-- The scheduler, and the thread ids that the application knows. -/
structure Machine (n : Nat) where
  scheduler : System n
  tid : Nat → Int

namespace Machine
variable (m : Machine n)

def findThreadByTid (tid : Int) : Option Nat :=
  (List.range m.scheduler.num_threads).find? fun thread_id => m.tid thread_id = tid

/-- The thread that a pid names. -/
def named (caller : Nat) (pid : Int) : Option Nat :=
  if pid = 0 then some caller else m.findThreadByTid pid

/-- The thread can make a system call. -/
def Running (caller : Nat) : Prop :=
  caller < m.scheduler.num_threads ∧ m.scheduler.thread_core caller ≠ none

end Machine

def EFAULT : Int := 14
def EINVAL : Int := 22
def ESRCH : Int := 3

/-- What a call returns, and the mask that it writes. -/
structure Answer where
  m_ret_val : Int
  cpuset : Option (Nat → Bool)

/-- `SYS_sched_setaffinity`. -/
def sched_setaffinity (again : Reentry n → System n → Except String (System n)) (m : Machine n)
    (caller : Nat) (pid : Int) (cpusetsize : Nat) (cpuset : Option (Nat → Bool))
    (time : SubsecondTime) : Except String (Answer × Machine n) :=
  match cpuset with
  | none => .ok (⟨-EFAULT, none⟩, m)
  | some mask =>
    match m.named caller pid with
    | none => .ok (⟨-ESRCH, none⟩, m)
    | some thread_id => do
      let m_core_affinity ←
        addMask cpusetsize mask (List.range (8 * cpusetsize)) fun _ => false
      let scheduler ← threadSetAffinity again m.scheduler (some caller) thread_id
        (some m_core_affinity) time
      return (⟨0, none⟩, { m with scheduler := scheduler })

/-- `SYS_sched_getaffinity`, with a mask to write to. The scheduler is asked about the thread that
makes the call. -/
def sched_getaffinity (m : Machine n) (caller : Nat) (pid : Int) (cpusetsize : Nat) : Answer :=
  match m.named caller pid with
  | none => ⟨-EINVAL, none⟩
  | some _ =>
    match threadGetAffinity m.scheduler caller cpusetsize with
    | none => ⟨-EINVAL, none⟩
    | some mask => ⟨((n + 7) / 8 : Nat), some mask⟩

/-! ### What is asked of them -/

/-- The masks that were set, if any. -/
abbrev Record (n : Nat) := Nat → Option (Fin n → Bool)

/-- The mask of a thread: the one set last, or the full one. -/
def Record.mask (record : Record n) (thread_id : Nat) : Fin n → Bool :=
  (record thread_id).getD fun _ => true

/-- The buffer that holds a mask. -/
def buffer (mask : Fin n → Bool) (cpu : Nat) : Bool := if h : cpu < n then mask ⟨cpu, h⟩ else false

/-- What a call that sets a mask does to the masks. -/
def Record.set (record : Record n) (m : Machine n) (caller : Nat) (pid : Int) (cpusetsize : Nat)
    (mask : Nat → Bool) : Record n :=
  match m.named caller pid with
  | none => record
  | some thread_id =>
    update record thread_id (some fun cpu => CPU_ISSET_S cpu cpusetsize mask)

/-- Nothing has been set. -/
structure Start (state : Machine n × Record n) : Prop where
  init : Pinned.Init state.1.scheduler
  plain : ∀ t, (state.1.scheduler.m_thread_info t).m_explicit_affinity = false
  scripts : state.1.scheduler.scripts = []
  unset : ∀ t, state.2 t = none

/-- A running thread sets a mask, the scheduler works, or a thread is told its id. -/
inductive Step : Machine n × Record n → Machine n × Record n → Prop
  | setaffinity {m m' record answer} (depth caller pid cpusetsize mask time)
      (hrunning : m.Running caller)
      (h : sched_setaffinity (reenter depth) m caller pid cpusetsize (some mask) time =
        .ok (answer, m')) :
      Step (m, record) (m', record.set m caller pid cpusetsize mask)
  | scheduler {m record s'} (depth call)
      (hother : ∀ caller t mask time, call ≠ .threadSetAffinity caller t mask time)
      (h : exec (reenter depth) m.scheduler call = .ok s') :
      Step (m, record) ({ m with scheduler := s' }, record)
  | settid {m record} (thread_id : Nat) (tid : Int) :
      Step (m, record) ({ m with tid := update m.tid thread_id tid }, record)

/-! ### The masks of the scheduler -/

/-- The masks are the same, and no script will set one. -/
structure SameMasks (s s' : System n) : Prop where
  affinity : ∀ t, (s'.m_thread_info t).m_core_affinity = (s.m_thread_info t).m_core_affinity
  explicit : ∀ t, (s'.m_thread_info t).m_explicit_affinity =
    (s.m_thread_info t).m_explicit_affinity
  threads : s'.num_threads = s.num_threads
  scripts : s'.scripts = s.scripts

section Same
variable {s s' s'' : System n}

theorem SameMasks.refl (s : System n) : SameMasks s s := ⟨fun _ => rfl, fun _ => rfl, rfl, rfl⟩

theorem SameMasks.trans (h : SameMasks s s') (h' : SameMasks s' s'') : SameMasks s s'' :=
  ⟨fun t => (h'.affinity t).trans (h.affinity t), fun t => (h'.explicit t).trans (h.explicit t),
    h'.threads.trans h.threads, h'.scripts.trans h.scripts⟩

theorem sameMasks_of_info (hinfo : s'.m_thread_info = s.m_thread_info)
    (hthreads : s'.num_threads = s.num_threads) (hscripts : s'.scripts = s.scripts) :
    SameMasks s s' :=
  ⟨fun t => by rw [hinfo], fun t => by rw [hinfo], hthreads, hscripts⟩

theorem SameMasks.behind (h : SameMasks s' s'') (hinfo : s'.m_thread_info = s.m_thread_info)
    (hthreads : s'.num_threads = s.num_threads) (hscripts : s'.scripts = s.scripts) :
    SameMasks s s'' := (sameMasks_of_info hinfo hthreads hscripts).trans h

theorem setInfo_masks {t info}
    (haffinity : info.m_core_affinity = (s.m_thread_info t).m_core_affinity)
    (hexplicit : info.m_explicit_affinity = (s.m_thread_info t).m_explicit_affinity) :
    SameMasks s (s.setInfo t info) := by
  refine ⟨fun u => ?_, fun u => ?_, rfl, rfl⟩
  · by_cases hu : u = t
    · simp [System.setInfo, hu, haffinity]
    · simp [System.setInfo, hu]
  · by_cases hu : u = t
    · simp [System.setInfo, hu, hexplicit]
    · simp [System.setInfo, hu]

theorem setCoreRunning_masks (s : System n) (t : Nat) (c : Option (Fin n)) :
    SameMasks s (s.setCoreRunning t c) := setInfo_masks rfl rfl

theorem idleCore_masks (s : System n) (t : Nat) : SameMasks s (s.idleCore t) := by
  rw [System.idleCore]
  split
  · exact sameMasks_of_info rfl rfl rfl
  · exact .refl s

theorem setCore_masks {t c} (h : s.setCore t c = .ok s') :
    SameMasks s s' := by
  have hleft : SameMasks s ((s.leaveCore t).setThreadCore t c) := by
    rw [System.leaveCore]
    split
    all_goals exact sameMasks_of_info rfl rfl rfl
  rw [System.setCore.eq_def] at h
  dsimp only at h
  split at h
  · cases h
    exact hleft
  · split at h
    · cases h
    · cases h
      exact hleft.trans (sameMasks_of_info rfl rfl rfl)

theorem takeCore_masks (s : System n) (time : SubsecondTime) (c : Fin n) (t : Nat) :
    SameMasks s (takeCore s time c t) := by
  have hvacate : SameMasks s (vacate (s.setThreadRunning c (some t)) t) := by
    rw [vacate.eq_def]
    split
    all_goals exact sameMasks_of_info rfl rfl rfl
  exact hvacate.trans ((setCoreRunning_masks _ t (some c)).trans (setInfo_masks rfl rfl))

/-- A hook sets no masks when there are no scripts. -/
def Calm (again : Reentry n → System n → Except String (System n)) : Prop :=
  ∀ t time s s', s.scripts = [] → again (.threadResume t time) s = .ok s' → SameMasks s s'

section Hooks
variable {again : Reentry n → System n → Except String (System n)} {t : Nat} {time : SubsecondTime}

theorem resumeThread_masks (hcalm : Calm again)
    (h : resumeThread again s t time = .ok s') (hscripts : s.scripts = []) : SameMasks s s' := by
  rw [resumeThread] at h
  split at h
  · cases h
  · obtain ⟨s₁, h₁, h⟩ := of_bind_ok h
    obtain ⟨s₂, h₂, h₃⟩ := of_bind_ok h
    obtain rfl := callScript_nil (s := s.setStatus t .RUNNING) hscripts h₁
    have hsame : SameMasks (s.setStatus t .RUNNING) s₂ := hcalm t time _ s₂ hscripts h₂
    obtain rfl := callScript_nil (hsame.scripts.trans hscripts) h₃
    exact hsame.behind rfl rfl rfl

theorem moveThread_masks (hcalm : Calm again) {core} (h : moveThread again s t core time = .ok s')
    (hscripts : s.scripts = []) : SameMasks s s' := by
  have hidle := idleCore_masks s t
  cases core with
  | none =>
    obtain ⟨s₁, h₁, h⟩ := of_bind_ok h
    have hsame := hidle.trans (setCore_masks h₁)
    obtain rfl := callScript_nil (hsame.scripts.trans hscripts) h
    exact hsame
  | some c =>
    obtain ⟨s₁, h₁, h⟩ := of_bind_ok h
    obtain ⟨s₂, h₂, h⟩ := of_bind_ok h
    have hresumed : SameMasks (s.idleCore t) s₁ := by
      split at h₁
      · exact resumeThread_masks hcalm h₁ (hidle.scripts.trans hscripts)
      · cases h₁
        exact .refl _
    have hsame := hidle.trans (hresumed.trans (setCore_masks h₂))
    split at h
    · have hset : SameMasks s (s₂.setCoreState c .RUNNING) :=
        hsame.trans (sameMasks_of_info rfl rfl rfl)
      obtain rfl := callScript_nil (hset.scripts.trans hscripts) h
      exact hset
    · obtain rfl := callScript_nil (hsame.scripts.trans hscripts) h
      exact hsame

theorem reschedule_masks (hcalm : Calm again) {c} (h : reschedule again s time c = .ok s')
    (hscripts : s.scripts = []) : SameMasks s s' := by
  rw [reschedule.eq_def] at h
  dsimp only at h
  split at h
  · cases h
    exact .refl s
  · obtain ⟨s₁, h₁, h⟩ := of_bind_ok h
    cases h
    suffices hmoved : SameMasks s s₁ from hmoved.trans (sameMasks_of_info rfl rfl rfl)
    split at h₁
    · cases h₁
      exact .refl s
    · obtain ⟨s₂, h₂, h₁⟩ := of_bind_ok h₁
      have hout : SameMasks s s₂ := by
        cases hcurrent : s.m_core_thread_running c with
        | none =>
          rw [hcurrent] at h₂
          cases h₂
          exact .refl s
        | some current =>
          rw [hcurrent] at h₂
          have hset : SameMasks s ((s.setCoreRunning current none).setLastScheduledOut current
              (time + 1000 * UInt64.ofNat c.val)) :=
            (setCoreRunning_masks s current none).trans (setInfo_masks rfl rfl)
          have hmove : moveThread again ((s.setCoreRunning current none).setLastScheduledOut
              current (time + 1000 * UInt64.ofNat c.val)) current none time = .ok s₂ := h₂
          exact hset.trans (moveThread_masks hcalm hmove (hset.scripts.trans hscripts))
      refine hout.trans ?_
      cases hnew : s.choose time c with
      | none =>
        rw [hnew] at h₁
        cases h₁
        exact sameMasks_of_info rfl rfl rfl
      | some new =>
        rw [hnew] at h₁
        have htake := takeCore_masks s₂ time c new
        have hmove : moveThread again (takeCore s₂ time c new) new (some c) time = .ok s₁ := h₁
        exact htake.trans
          (moveThread_masks hcalm hmove (htake.scripts.trans (hout.scripts.trans hscripts)))

theorem rescheduleFree_masks (hcalm : Calm again)
    (h : rescheduleFree again s time t = .ok s') (hscripts : s.scripts = []) : SameMasks s s' := by
  rw [rescheduleFree.eq_def] at h
  split at h
  · exact reschedule_masks hcalm h hscripts
  · cases h
    exact .refl s

theorem threadYield_masks (hcalm : Calm again)
    (h : threadYield again s t time = .ok s') (hscripts : s.scripts = []) : SameMasks s s' := by
  rw [threadYield.eq_def] at h
  split at h
  · cases h
    exact .refl s
  · obtain ⟨s₁, h₁, h⟩ := of_bind_ok h
    have hfirst : SameMasks s s₁ :=
      (reschedule_masks hcalm h₁ hscripts).behind rfl rfl rfl
    split at h
    · cases h
      exact hfirst
    · exact hfirst.trans (rescheduleFree_masks hcalm h (hfirst.scripts.trans hscripts))

end Hooks

theorem reenter_calm (depth : Nat) : Calm (reenter (n := n) depth) := by
  induction depth with
  | zero => exact fun _ _ _ _ _ h => by cases h
  | succ depth ih =>
    intro t time s s' hscripts h
    have hfree : rescheduleFree (reenter depth) (s.setRunnable t true) time t = .ok s' := h
    exact (rescheduleFree_masks ih hfree hscripts).behind rfl rfl rfl

/-! ### The other calls -/

section Calls
variable {again : Reentry n → System n → Except String (System n)} {time : SubsecondTime}

theorem threadLeave_masks (hcalm : Calm again) {t} (h : threadLeave again s t time = .ok s')
    (hscripts : s.scripts = []) : SameMasks s s' := by
  rw [threadLeave.eq_def] at h
  dsimp only at h
  have hset : SameMasks s (s.setRunnable t false) := sameMasks_of_info rfl rfl rfl
  split at h
  · exact hset.trans (reschedule_masks hcalm h hscripts)
  · cases h
    exact hset

theorem periodicLoop_masks (hcalm : Calm again) {delta cores}
    (h : periodicLoop again time delta cores s = .ok s') (hscripts : s.scripts = []) :
    SameMasks s s' := by
  induction cores generalizing s with
  | nil =>
    cases h
    exact .refl _
  | cons c rest ih =>
    obtain ⟨s₁, h₁, h⟩ := of_bind_ok h
    have hone : SameMasks s s₁ := by
      split at h₁
      · exact reschedule_masks hcalm h₁ hscripts
      · cases h₁
        exact sameMasks_of_info rfl rfl rfl
    exact hone.trans (ih h (hone.scripts.trans hscripts))

theorem onThreadStart_masks (hcalm : Calm again) {t} (h : onThreadStart again s t time = .ok s')
    (hscripts : s.scripts = []) : SameMasks s s' := by
  rw [onThreadStart] at h
  split at h
  · cases h
  · obtain ⟨s₁, h₁, h⟩ := of_bind_ok h
    have hstart : SameMasks s s₁ :=
      (rescheduleFree_masks hcalm h₁ hscripts).behind rfl rfl rfl
    split at h
    · next c _ =>
      obtain rfl := callScript_nil
        (s := (s₁.setCoreState c .RUNNING).setStatus t .RUNNING) (hstart.scripts.trans hscripts) h
      exact hstart.trans (sameMasks_of_info rfl rfl rfl)
    · cases h
      exact hstart.trans (sameMasks_of_info rfl rfl rfl)

theorem stallThread_masks (hcalm : Calm again) {t reason}
    (h : stallThread again s t reason time = .ok s') (hscripts : s.scripts = []) :
    SameMasks s s' := by
  rw [stallThread.eq_def] at h
  split at h
  · cases h
    exact sameMasks_of_info rfl rfl rfl
  · exact (threadLeave_masks hcalm h hscripts).behind rfl rfl rfl

theorem onThreadExit_masks (hcalm : Calm again) {t} (h : onThreadExit again s t time = .ok s')
    (hscripts : s.scripts = []) : SameMasks s s' := by
  rw [onThreadExit.eq_def] at h
  split at h
  · cases h
  · split at h
    · cases h
    · obtain ⟨s₁, h₁, h⟩ := of_bind_ok h
      have hleft : SameMasks s s₁ := (setCore_masks h₁).behind rfl rfl rfl
      exact hleft.trans (threadLeave_masks hcalm h (hleft.scripts.trans hscripts))

end Calls

theorem exec_masks (depth : Nat) {call} (hcreate : ∀ affinity, call ≠ .threadCreate affinity)
    (hother : ∀ caller t mask time, call ≠ .threadSetAffinity caller t mask time)
    (h : exec (reenter depth) s call = .ok s') (hscripts : s.scripts = []) : SameMasks s s' := by
  have hcalm := reenter_calm (n := n) depth
  cases call with
  | threadCreate affinity => exact absurd rfl (hcreate affinity)
  | threadSetAffinity caller t mask time => exact absurd rfl (hother caller t mask time)
  | threadStart t time => exact onThreadStart_masks hcalm h hscripts
  | threadStall t reason time => exact stallThread_masks hcalm h hscripts
  | threadResume t time => exact resumeThread_masks hcalm h hscripts
  | threadExit t time => exact onThreadExit_masks hcalm h hscripts
  | threadYield t time => exact threadYield_masks hcalm h hscripts
  | periodic time =>
    obtain ⟨s₁, h₁, h⟩ := of_bind_ok h
    cases h
    exact (periodicLoop_masks hcalm h₁ hscripts).trans (sameMasks_of_info rfl rfl rfl)

end Same

/-! ### The invariant -/

/-- The mask that the scheduler reports for a thread. -/
def visible (s : System n) (t : Nat) (c : Fin n) : Bool :=
  (s.m_thread_info t).m_core_affinity c || !(s.m_thread_info t).m_explicit_affinity

/-- The scheduler knows the masks that were set, of threads that exist. -/
structure Recorded (s : System n) (record : Record n) : Prop where
  scripts : s.scripts = []
  created : ∀ t, (s.m_thread_info t).m_explicit_affinity = true → t < s.num_threads
  masks : ∀ t, visible s t = record.mask t

section Invariant
variable {s s' : System n} {record : Record n}

theorem SameMasks.visible (h : SameMasks s s') (t : Nat) : visible s' t = visible s t := by
  funext c
  rw [Affinity.visible, Affinity.visible, h.affinity, h.explicit]

theorem Recorded.same (hr : Recorded s record) (h : SameMasks s s') : Recorded s' record where
  scripts := h.scripts.trans hr.scripts
  created t ht := h.threads ▸ hr.created t ((h.explicit t).symm.trans ht)
  masks t := (h.visible t).trans (hr.masks t)

theorem setInfo_recorded (hr : Recorded s record) {t info}
    (hplain : (s.m_thread_info t).m_explicit_affinity = false)
    (hexplicit : info.m_explicit_affinity = (s.m_thread_info t).m_explicit_affinity) :
    Recorded (s.setInfo t info) record where
  scripts := hr.scripts
  created u hu := by
    by_cases hut : u = t
    · subst hut
      simp [System.setInfo, hexplicit, hplain] at hu
    · simp only [System.setInfo, update_of_ne hut] at hu
      exact hr.created u hu
  masks u := by
    by_cases hut : u = t
    · subst hut
      rw [← hr.masks u]
      funext c
      simp [visible, System.setInfo, hexplicit, hplain]
    · rw [← hr.masks u]
      funext c
      simp [visible, System.setInfo, hut]

theorem threadCreate_recorded (hr : Recorded s record) {t}
    (hplain : (s.m_thread_info t).m_explicit_affinity = false) (affinity : Fin n → Bool) :
    Recorded (threadCreate s t affinity).2 record := by
  rw [threadCreate]
  have haffinity : Recorded (if (s.m_thread_info t).m_has_affinity then s
      else s.setInfo t { s.m_thread_info t with
        m_core_affinity := affinity
        m_has_affinity := (List.finRange n).any affinity }) record := by
    split
    · exact hr
    · exact setInfo_recorded hr hplain rfl
  split
  · exact haffinity.same ((setCoreRunning_masks _ t _).trans (sameMasks_of_info rfl rfl rfl))
  · exact haffinity.same (setCoreRunning_masks _ t none)

theorem createThread_recorded (hr : Recorded s record) {affinity}
    (h : createThread s affinity = .ok s') : Recorded s' record := by
  have hnew : (s.m_thread_info s.num_threads).m_explicit_affinity = false := by
    cases hexplicit : (s.m_thread_info s.num_threads).m_explicit_affinity with
    | false => rfl
    | true => exact absurd (hr.created _ hexplicit) (lt_irrefl _)
  have hadded : Recorded
      (System.setStatus { s with num_threads := s.num_threads + 1 } s.num_threads .INITIALIZING)
      record := ⟨hr.scripts, fun t ht => Nat.lt_succ_of_lt (hr.created t ht), hr.masks⟩
  have hcreated := threadCreate_recorded hadded (t := s.num_threads) hnew affinity
  rw [createThread.eq_def] at h
  dsimp only at h
  split at h
  · next s₂ hs₂ =>
    rw [hs₂] at hcreated
    cases h
    exact hcreated
  · next c s₂ hs₂ =>
    rw [hs₂] at hcreated
    obtain ⟨s₃, h₃, h⟩ := of_bind_ok h
    cases h
    exact hcreated.same ((setCore_masks h₃).trans (sameMasks_of_info rfl rfl rfl))

theorem exec_recorded (depth : Nat) (hr : Recorded s record) {call}
    (hother : ∀ caller t mask time, call ≠ .threadSetAffinity caller t mask time)
    (h : exec (reenter depth) s call = .ok s') : Recorded s' record := by
  by_cases hcreate : ∃ affinity, call = .threadCreate affinity
  · obtain ⟨affinity, rfl⟩ := hcreate
    exact createThread_recorded hr h
  · exact hr.same (exec_masks depth (fun a ha => hcreate ⟨a, ha⟩) hother h hr.scripts)

/-! ### Setting a mask -/

theorem addMask_spec {cpusetsize mask cpus m_core_affinity m_core_affinity'}
    (h : addMask cpusetsize mask cpus m_core_affinity = .ok m_core_affinity') (c : Fin n) :
    m_core_affinity' c =
      (m_core_affinity c || (decide (c.val ∈ cpus) && CPU_ISSET_S c cpusetsize mask)) := by
  induction cpus generalizing m_core_affinity with
  | nil =>
    cases h
    simp
  | cons cpu rest ih =>
    rw [addMask] at h
    split at h
    · next hset =>
      split at h
      · next hcpu =>
        rw [ih h]
        by_cases hc : c = ⟨cpu, hcpu⟩
        · subst hc
          simp [hset]
        · have hne : c.val ≠ cpu := fun heq => hc (Fin.ext heq)
          simp [hc, hne]
      · cases h
    · next hset =>
      rw [ih h]
      by_cases hc : c.val = cpu
      · simp [hc, hset]
      · simp [hc]

theorem addMask_eq {cpusetsize : Nat} {mask : Nat → Bool} {m_core_affinity : Fin n → Bool}
    (h : addMask cpusetsize mask (List.range (8 * cpusetsize)) (fun _ => false) =
      .ok m_core_affinity) :
    m_core_affinity = fun c => CPU_ISSET_S c.val cpusetsize mask := by
  funext c
  rw [addMask_spec h c]
  simp [CPU_ISSET_S]

theorem setAffinity_recorded (hr : Recorded s record) {t} (ht : t < s.num_threads)
    (mask : Fin n → Bool) :
    Recorded (setAffinity s t (some mask)) (update record t (some mask)) where
  scripts := hr.scripts
  created u hu := by
    by_cases hut : u = t
    · exact hut ▸ ht
    · simp only [setAffinity, System.setInfo, update_of_ne hut] at hu
      exact hr.created u hu
  masks u := by
    by_cases hut : u = t
    · subst hut
      funext c
      simp [visible, setAffinity, System.setInfo, Record.mask]
    · funext c
      have hold := congrFun (hr.masks u) c
      simpa [visible, setAffinity, System.setInfo, Record.mask, hut] using hold

theorem threadSetAffinity_recorded (depth : Nat) (hr : Recorded s record) {caller t}
    (ht : t < s.num_threads) {mask time}
    (h : threadSetAffinity (reenter depth) s caller t (some mask) time = .ok s') :
    Recorded s' (update record t (some mask)) := by
  have hcalm := reenter_calm (n := n) depth
  have hset := setAffinity_recorded hr ht mask
  suffices hsame : SameMasks (setAffinity s t (some mask)) s' from hset.same hsame
  rw [threadSetAffinity.eq_def] at h
  dsimp only at h
  split at h
  · cases h
    exact .refl _
  · split at h
    · exact threadYield_masks hcalm h hset.scripts
    · split at h
      · cases h
        split
        · exact .refl _
        · exact sameMasks_of_info rfl rfl rfl
      · split at h
        · exact rescheduleFree_masks hcalm h hset.scripts
        · cases h
          exact .refl _

end Invariant

/-! ### Runs -/

section Runs
variable {state state' : Machine n × Record n}

theorem Start.recorded (h : Start state) : Recorded state.1.scheduler state.2 where
  scripts := h.scripts
  created t ht := by
    rw [h.plain t] at ht
    cases ht
  masks t := by
    funext c
    simp [visible, h.plain t, Record.mask, h.unset t]

theorem Machine.named_lt {m : Machine n} {caller t pid} (hrunning : m.Running caller)
    (h : m.named caller pid = some t) : t < m.scheduler.num_threads := by
  rw [named] at h
  split at h
  · cases h
    exact hrunning.1
  · exact List.mem_range.mp (List.mem_of_find?_eq_some h)

theorem sched_setaffinity_cases {again : Reentry n → System n → Except String (System n)}
    {m m' : Machine n} {caller cpusetsize : Nat} {pid : Int} {mask : Nat → Bool}
    {time : SubsecondTime} {answer : Answer}
    (h : sched_setaffinity again m caller pid cpusetsize (some mask) time = .ok (answer, m')) :
    (m.named caller pid = none ∧ m' = m ∧ answer.m_ret_val = -ESRCH) ∨
    ∃ t s', m.named caller pid = some t ∧ m' = { m with scheduler := s' } ∧
      answer.m_ret_val = 0 ∧
      threadSetAffinity again m.scheduler (some caller) t
        (some fun c => CPU_ISSET_S c.val cpusetsize mask) time = .ok s' := by
  rw [sched_setaffinity] at h
  cases hnamed : m.named caller pid with
  | none =>
    rw [hnamed] at h
    cases h
    exact .inl ⟨rfl, rfl, rfl⟩
  | some t =>
    rw [hnamed] at h
    obtain ⟨m_core_affinity, hadd, h⟩ := of_bind_ok h
    obtain ⟨s', hset, h⟩ := of_bind_ok h
    cases h
    rw [addMask_eq hadd] at hset
    exact .inr ⟨t, s', rfl, rfl, rfl, hset⟩

theorem sched_setaffinity_recorded {depth} {m m' : Machine n} {record : Record n}
    {caller cpusetsize pid mask time answer} (hr : Recorded m.scheduler record)
    (hrunning : m.Running caller)
    (h : sched_setaffinity (reenter depth) m caller pid cpusetsize (some mask) time =
      .ok (answer, m')) :
    Recorded m'.scheduler (record.set m caller pid cpusetsize mask) := by
  obtain ⟨hnamed, rfl, -⟩ | ⟨t, s', hnamed, rfl, -, hset⟩ := sched_setaffinity_cases h
  · simpa only [Record.set, hnamed] using hr
  · simp only [Record.set, hnamed]
    exact threadSetAffinity_recorded depth hr (Machine.named_lt hrunning hnamed) hset

theorem Step.recorded (hr : Recorded state.1.scheduler state.2) (hstep : Step state state') :
    Recorded state'.1.scheduler state'.2 := by
  cases hstep with
  | setaffinity depth caller pid cpusetsize mask time hrunning h =>
    exact sched_setaffinity_recorded hr hrunning h
  | scheduler depth call hother h => exact exec_recorded depth hr hother h
  | settid thread_id tid => exact hr

theorem reachable_recorded (h : Reachable Start Step state) :
    Recorded state.1.scheduler state.2 :=
  h.invariant (fun _ => Start.recorded) fun _ _ hr hstep => hstep.recorded hr

/-! ### What the calls answer -/

theorem buffer_inj {mask mask' : Fin n → Bool} : buffer mask = buffer mask' ↔ mask = mask' := by
  refine ⟨fun h => ?_, fun h => h ▸ rfl⟩
  funext c
  simpa [buffer] using congrFun h c.val

/-- The answer about the thread that a pid names. -/
def Record.answer (record : Record n) (m : Machine n) (caller : Nat) (pid : Int)
    (cpusetsize : Nat) : Answer :=
  match m.named caller pid with
  | none => ⟨-EINVAL, none⟩
  | some thread_id =>
    if cpusetsize * 8 < n then ⟨-EINVAL, none⟩
    else ⟨((n + 7) / 8 : Nat), some (buffer (record.mask thread_id))⟩

theorem threadGetAffinity_eq {s} {record : Record n} (hr : Recorded s record) (t cpusetsize : Nat) :
    threadGetAffinity s t cpusetsize =
      if cpusetsize * 8 < n then none else some (buffer (record.mask t)) := by
  rw [threadGetAffinity, ← hr.masks t]
  rfl

theorem sched_getaffinity_eq {m : Machine n} {record : Record n}
    (hr : Recorded m.scheduler record) (caller : Nat) (pid : Int) (cpusetsize : Nat) :
    sched_getaffinity m caller pid cpusetsize = record.answer m caller pid cpusetsize ↔
      ∀ t, m.named caller pid = some t → n ≤ cpusetsize * 8 →
        record.mask t = record.mask caller := by
  rw [sched_getaffinity, Record.answer, threadGetAffinity_eq hr]
  cases m.named caller pid with
  | none => simp
  | some t =>
    by_cases hspace : cpusetsize * 8 < n
    · simp [hspace]
    · simp [hspace, Nat.not_lt.mp hspace, buffer_inj, eq_comm]

/-- A call is answered with the mask set last for the thread that the pid names, exactly if the
caller has the same mask. Setting a mask changes that of the named thread only, and a call that
fails changes nothing. -/
theorem affinity_calls_round_trip (hreach : Reachable Start Step state) {caller : Nat}
    (hrunning : state.1.Running caller) (pid : Int) (cpusetsize : Nat) :
    (sched_getaffinity state.1 caller pid cpusetsize =
        state.2.answer state.1 caller pid cpusetsize ↔
      ∀ t, state.1.named caller pid = some t → n ≤ cpusetsize * 8 →
        state.2.mask t = state.2.mask caller) ∧
    ∀ depth mask time answer m',
      sched_setaffinity (reenter depth) state.1 caller pid cpusetsize (some mask) time =
        .ok (answer, m') →
      (∀ t, state.1.named caller pid = some t →
        visible m'.scheduler t = fun c => CPU_ISSET_S c.val cpusetsize mask) ∧
      (∀ t, state.1.named caller pid ≠ some t →
        visible m'.scheduler t = visible state.1.scheduler t) ∧
      (answer.m_ret_val ≠ 0 → m' = state.1) := by
  have hr := reachable_recorded hreach
  refine ⟨sched_getaffinity_eq hr caller pid cpusetsize, fun depth mask time answer m' h => ?_⟩
  have hr' := sched_setaffinity_recorded hr hrunning h
  refine ⟨fun t hnamed => ?_, fun t hnamed => ?_, fun herror => ?_⟩
  · rw [hr'.masks t]
    simp [Record.set, hnamed, Record.mask]
  · rw [hr'.masks t, hr.masks t, Record.set]
    split
    · rfl
    · next u hu =>
      have htu : t ≠ u := fun heq => hnamed (heq ▸ hu)
      rw [Record.mask, Record.mask, update_of_ne htu]
  · obtain ⟨-, rfl, -⟩ | ⟨-, -, -, -, hzero, -⟩ := sched_setaffinity_cases h
    · rfl
    · exact absurd hzero herror

end Runs

def twoThreads : Machine 2 × Record 2 := (⟨twoCores, fun t => 100 + t⟩, fun _ => none)

theorem twoThreads_start : Start twoThreads := ⟨twoCores_init, fun _ => rfl, rfl, fun _ => rfl⟩

/-- Before any mask is set, one thread asks for the mask of another. -/
theorem affinity_calls_round_trip_two : ∃ state : Machine 2 × Record 2,
    state.1.Running 0 ∧ state.1.named 0 101 = some 1 ∧
    sched_getaffinity state.1 0 101 8 = state.2.answer state.1 0 101 8 := by
  have h0 : Reachable Start Step twoThreads := .init twoThreads_start
  have h1 := h0.step (.scheduler 0 (.threadCreate fun _ => true) nofun rfl)
  have h2 := h1.step (.scheduler 0 (.threadCreate fun _ => true) nofun rfl)
  exact ⟨_, by exact ⟨by decide, by decide⟩, rfl,
    (affinity_calls_round_trip h2 ⟨by decide, by decide⟩ 101 8).1.mpr fun t ht _ => by cases ht; rfl⟩

/-- Once the first thread may run on core 0 only, it is told the same of the other thread. -/
theorem other_thread_answered_own_mask : ∃ state : Machine 2 × Record 2,
    Reachable Start Step state ∧ state.1.Running 0 ∧ state.1.named 0 101 = some 1 ∧
    (∀ c, state.2.mask 1 c = true) ∧
    (∃ mask, (sched_getaffinity state.1 0 101 8).cpuset = some mask ∧ mask 1 = false) ∧
    sched_getaffinity state.1 0 101 8 ≠ state.2.answer state.1 0 101 8 := by
  have h0 : Reachable Start Step twoThreads := .init twoThreads_start
  have h1 := h0.step (.scheduler 0 (.threadCreate fun _ => true) nofun rfl)
  have h2 := h1.step (.scheduler 0 (.threadCreate fun _ => true) nofun rfl)
  have h3 := h2.step (.setaffinity 0 0 0 8 (fun cpu => cpu == 0) 0 ⟨by decide, by decide⟩ rfl)
  refine ⟨_, h3, ⟨by decide, by decide⟩, rfl, fun c => rfl, ⟨_, rfl, by decide⟩, fun h => ?_⟩
  have hmask := congrArg (fun answer => (answer.cpuset.getD fun _ => false) 1) h
  exact absurd hmask (by decide)

end Sniper.Threads.Affinity
