import Sniper.Threads.SchedulerSequential

/-! # One pinball after the other

What rescheduling does when the thread of a core has exited and one thread waits for it, and from
it what each core's set of pinballs looks like at any time.
-/
namespace Sniper.Threads.Sequential
open Pinned Pinned.System Lib.Simulation Function
variable {n : Nat}

/-! ### Handing over a core -/

section Handover
variable {s : System n} {c : Fin n} {j t : Nat}

/-- The core goes from an exited thread to one that waits. -/
def handover (s : System n) (time : SubsecondTime) (c : Fin n) (j t : Nat) : System n :=
  let s := (s.setCoreRunning j none).setLastScheduledOut j (time + 1000 * UInt64.ofNat c.val)
  let s := takeCore (s.setThreadCore j none) time c t
  let s := ((s.setStatus t .RUNNING).setRunnable t true).setThreadCore t (some c)
  let s := { s with core_thread := update s.core_thread c (some t) }
  (s.setCoreState c .RUNNING).setQuantumLeft c s.m_quantum

/-- The thread of the core has exited, and another one waits for the core. -/
structure Handing (s : System n) (c : Fin n) (j t : Nat) : Prop where
  scripts : s.scripts = []
  running : s.m_core_thread_running c = some j
  exited : (s.thread_state j).status = .IDLE
  gone : s.thread_core j = none
  free : s.core_thread c = none
  known : t < s.num_threads
  waiting : s.thread_state t = ⟨.STALLED, .STALL_UNSCHEDULED⟩
  nowhere : s.thread_core t = none
  affinity : ∀ d, (s.m_thread_info t).m_core_affinity d = decide (d = c)

theorem moveThread_none {again time} (hscripts : s.scripts = []) (hcore : s.thread_core j = none) :
    moveThread again s j none time = .ok (s.setThreadCore j none) := by
  simp only [moveThread, idleCore, hcore, setCore, leaveCore]
  exact by simp [callScript, hscripts, setThreadCore, bind, Except.bind]

theorem setCore_free (hcore : s.thread_core t = none) (hfree : s.core_thread c = none) :
    s.setCore t (some c) = .ok { s.setThreadCore t (some c) with
      core_thread := update s.core_thread c (some t) } := by
  simp [setCore, leaveCore, setThreadCore, hcore, hfree]

theorem findFree_none (hrunning : s.m_core_thread_running c ≠ none)
    (haffinity : ∀ d, (s.m_thread_info t).m_core_affinity d = decide (d = c)) :
    s.findFreeCoreForThread t = none := by
  rw [findFreeCoreForThread, List.find?_eq_none]
  intro d _
  rw [haffinity]
  by_cases hdc : d = c
  · simp [hdc, hrunning]
  · simp [hdc]

theorem reenter_resume {time} (depth : Nat) (hfree : s.findFreeCoreForThread t = none) :
    reenter (depth + 1) (.threadResume t time) s = .ok (s.setRunnable t true) := by
  have hfree : (s.setRunnable t true).findFreeCoreForThread t = none := hfree
  simp [reenter, handle, threadResume, rescheduleFree, hfree]

theorem moveThread_waiting {time} (depth : Nat) (hscripts : s.scripts = [])
    (hcore : s.thread_core t = none) (hstate : s.thread_state t = ⟨.STALLED, .STALL_UNSCHEDULED⟩)
    (hknown : t < s.num_threads) (hfree : s.core_thread c = none)
    (hfind : s.findFreeCoreForThread t = none) :
    moveThread (reenter (depth + 1)) s t (some c) time =
      .ok ({ ((s.setStatus t .RUNNING).setRunnable t true).setThreadCore t (some c) with
        core_thread := update s.core_thread c (some t) }.setCoreState c .RUNNING) := by
  have hfind : (s.setStatus t .RUNNING).findFreeCoreForThread t = none := hfind
  have hresume : resumeThread (reenter (depth + 1)) s t time =
      .ok ((s.setStatus t .RUNNING).setRunnable t true) := by
    rw [resumeThread, if_neg (Nat.not_le.mpr hknown)]
    refine bind_eq_of_ok (a := s.setStatus t .RUNNING)
      (by simp [callScript, setStatus, hscripts]) ?_
    refine bind_eq_of_ok (reenter_resume depth hfind) ?_
    simp [callScript, setRunnable, setStatus, hscripts]
  have hidle : s.idleCore t = s := by simp [idleCore, hcore]
  rw [moveThread.eq_def]
  simp only [hidle, hcore, hstate, and_self, if_true]
  refine bind_eq_of_ok hresume ?_
  refine bind_eq_of_ok
    (setCore_free (s := (s.setStatus t .RUNNING).setRunnable t true) hcore hfree) ?_
  simp [callScript, setCoreState, setThreadCore, setRunnable, setStatus, hscripts]

theorem moveThread_unfinished {time} (hscripts : s.scripts = []) (hcore : s.thread_core t = none)
    (hstate : s.thread_state t = ⟨.STALLED, .STALL_UNSCHEDULED⟩) (hknown : t < s.num_threads) :
    moveThread (reenter 0) s t (some c) time = .error "unfinished" := by
  have hidle : s.idleCore t = s := by simp [idleCore, hcore]
  rw [moveThread.eq_def]
  simp only [hidle, hcore, hstate, and_self, if_true, resumeThread, if_neg (Nat.not_le.mpr hknown)]
  simp [callScript, setStatus, hscripts, bind, Except.bind, reenter]

theorem takeCore_threads (s : System n) (time : SubsecondTime) (c : Fin n) (t : Nat) :
    (takeCore s time c t).thread_state = s.thread_state ∧
    (takeCore s time c t).thread_core = s.thread_core ∧
    (takeCore s time c t).core_thread = s.core_thread ∧
    (takeCore s time c t).num_threads = s.num_threads := by
  have hv : ∀ s : System n, (vacate s t).thread_state = s.thread_state ∧
      (vacate s t).thread_core = s.thread_core ∧ (vacate s t).core_thread = s.core_thread ∧
      (vacate s t).num_threads = s.num_threads := by
    intro s
    rw [vacate.eq_def]
    split <;> exact ⟨rfl, rfl, rfl, rfl⟩
  exact hv (s.setThreadRunning c (some t))

/-- The tables in which the exited thread has left the core, and the waiting one has taken it. -/
def takenOver (s : System n) (time : SubsecondTime) (c : Fin n) (j t : Nat) : System n :=
  takeCore (((s.setCoreRunning j none).setLastScheduledOut j
    (time + 1000 * UInt64.ofNat c.val)).setThreadCore j none) time c t

/-- The tables of the handover, before the thread is woken up. -/
structure TakenOver (s s' : System n) (c : Fin n) (j t : Nat) : Prop where
  scripts : s'.scripts = s.scripts
  size : s'.m_threads_runnable_size = s.m_threads_runnable_size
  runnable : s'.m_threads_runnable = s.m_threads_runnable
  threads : s'.num_threads = s.num_threads
  state : s'.thread_state = s.thread_state
  core : s'.thread_core = update s.thread_core j none
  occupant : s'.core_thread = s.core_thread
  running : s'.m_core_thread_running = update s.m_core_thread_running c (some t)
  place : s'.place = update (update s.place j none) t (some c)
  affinity : ∀ u, (s'.m_thread_info u).m_core_affinity = (s.m_thread_info u).m_core_affinity
  others : ∀ u, u ≠ j → u ≠ t → s'.m_thread_info u = s.m_thread_info u

theorem takenOver_spec (time : SubsecondTime) (hjt : t ≠ j) (hplace : s.place t = none) :
    TakenOver s (takenOver s time c j t) c j t := by
  have hfirst : (((s.setCoreRunning j none).setLastScheduledOut j
      (time + 1000 * UInt64.ofNat c.val)).setThreadCore j none).place =
      update s.place j none := by
    rw [← place_setCoreRunning s j none]
    exact place_setLastScheduledOut ..
  obtain ⟨hsize, hrunnable, hscripts⟩ := takeCore_rest (((s.setCoreRunning
    j none).setLastScheduledOut j (time + 1000 * UInt64.ofNat c.val)).setThreadCore j none) time c t
  obtain ⟨hstate, hcore, hoccupant, hthreads⟩ := takeCore_threads (((s.setCoreRunning j
    none).setLastScheduledOut j (time + 1000 * UInt64.ofNat c.val)).setThreadCore j none) time c t
  refine ⟨hscripts, hsize, hrunnable, hthreads, hstate, hcore, hoccupant, ?_, ?_, fun u => ?_,
    fun u huj hut => ?_⟩
  · refine (takeCore_running _ time c t).1 ?_
    rw [hfirst, update_of_ne hjt, hplace]
  · rw [takenOver, takeCore_place, hfirst]
  · rw [takenOver, takeCore_affinity]
    exact (setLastScheduledOut_affinity ..).trans (setCoreRunning_affinity ..)
  · have hvacate : ∀ s : System n, (vacate s t).m_thread_info = s.m_thread_info := by
      intro s
      rw [vacate.eq_def]
      split <;> rfl
    simp [takenOver, takeCore, setLastScheduledIn, setCoreRunning, setInfo, hut, hvacate,
      setThreadRunning, setThreadCore, setLastScheduledOut, huj]

theorem reschedule_handing {time} (depth : Nat) (h : Handing s c j t)
    (hchoose : s.choose time c = some t) (hplace : s.place t = none) :
    reschedule (reenter depth) s time c =
      if depth = 0 then .error "unfinished" else .ok (handover s time c j t) := by
  have hjt : t ≠ j := by
    intro heq
    have hstate := h.waiting
    rw [heq] at hstate
    have hexited := h.exited
    rw [hstate] at hexited
    cases hexited
  obtain ⟨hscripts, -, -, hthreads, hstate, hcore, hoccupant, hrunning, -, haffinity, -⟩ :=
    takenOver_spec time hjt hplace
  have haway : moveThread (reenter depth)
      ((s.setCoreRunning j none).setLastScheduledOut j (time + 1000 * UInt64.ofNat c.val))
        j none time =
      .ok (((s.setCoreRunning j none).setLastScheduledOut j
        (time + 1000 * UInt64.ofNat c.val)).setThreadCore j none) :=
    moveThread_none h.scripts h.gone
  have hcore' : (takenOver s time c j t).thread_core t = none := by
    rw [hcore, update_of_ne hjt, h.nowhere]
  have hstate' : (takenOver s time c j t).thread_state t = ⟨.STALLED, .STALL_UNSCHEDULED⟩ := by
    rw [hstate, h.waiting]
  have hne : (some j : Option Nat) ≠ some t := fun heq => hjt (Option.some.inj heq).symm
  have hknown := hthreads.symm ▸ h.known
  have hscripts' := hscripts.trans h.scripts
  have hmove : reschedule (reenter depth) s time c =
      moveThread (reenter depth) (takenOver s time c j t) t (some c) time >>= fun s' =>
        .ok (s'.setQuantumLeft c s'.m_quantum) := by
    rw [reschedule.eq_def]
    simp only [h.running, initializing, h.exited, hchoose, hne, unschedule, schedule, haway]
    rfl
  rw [hmove]
  cases depth with
  | zero =>
    rw [moveThread_unfinished hscripts' hcore' hstate' hknown]
    rfl
  | succ depth =>
    have hfind : (takenOver s time c j t).findFreeCoreForThread t = none := by
      refine findFree_none (c := c) ?_ fun d => ?_
      · rw [hrunning, update_self]
        simp
      · rw [haffinity]
        exact h.affinity d
    have hfree : (takenOver s time c j t).core_thread c = none := by
      rw [hoccupant]
      exact h.free
    rw [moveThread_waiting depth hscripts' hcore' hstate' hknown hfree hfind]
    rfl

/-- What the handover changes. -/
structure HandedOver (s s' : System n) (c : Fin n) (j t : Nat) : Prop where
  scripts : s'.scripts = s.scripts
  size : s'.m_threads_runnable_size = s.m_threads_runnable_size
  runnable : s'.m_threads_runnable = update s.m_threads_runnable t true
  threads : s'.num_threads = s.num_threads
  state : s'.thread_state = update s.thread_state t
    { s.thread_state t with status := .RUNNING }
  core : s'.thread_core = update (update s.thread_core j none) t (some c)
  occupant : s'.core_thread = update s.core_thread c (some t)
  running : s'.m_core_thread_running = update s.m_core_thread_running c (some t)
  place : s'.place = update (update s.place j none) t (some c)
  affinity : ∀ u, (s'.m_thread_info u).m_core_affinity = (s.m_thread_info u).m_core_affinity
  others : ∀ u, u ≠ j → u ≠ t → s'.m_thread_info u = s.m_thread_info u

theorem handover_spec (time : SubsecondTime) (hjt : t ≠ j) (hplace : s.place t = none) :
    HandedOver s (handover s time c j t) c j t := by
  obtain ⟨hscripts, hsize, hrunnable, hthreads, hstate, hcore, hoccupant, hrunning, hp, haffinity,
    hothers⟩ := takenOver_spec (c := c) time hjt hplace
  refine ⟨hscripts, hsize, ?_, hthreads, ?_, ?_, ?_, hrunning, hp, haffinity, hothers⟩
  · rw [← hrunnable]
    rfl
  · rw [← hstate]
    rfl
  · rw [← hcore]
    rfl
  · rw [← hoccupant]
    rfl

end Handover

/-! ### Sets -/

section Sets
variable {sizes : List Int} {set set' t : Nat}

theorem first_succ {size} (h : sizes[set]? = some size) :
    first sizes (set + 1) = first sizes set + size := by
  rw [first, first, List.take_add_one, h]
  simp

theorem first_of_length_le (h : sizes.length ≤ set) : first sizes set = sizes.sum := by
  rw [first, List.take_of_length_le h]

theorem first_mono (hsizes : ∀ size ∈ sizes, 1 ≤ size) (h : set ≤ set') :
    first sizes set ≤ first sizes set' := by
  induction h with
  | refl => exact Int.le_refl _
  | step h ih =>
    rename_i k
    refine Int.le_trans ih ?_
    cases hk : sizes[k]? with
    | none =>
      have hlen := List.getElem?_eq_none_iff.mp hk
      rw [first_of_length_le hlen, first_of_length_le (Nat.le_succ_of_le hlen)]
    | some size =>
      have hpos := hsizes size (List.mem_of_getElem? hk)
      rw [first_succ hk]
      omega

theorem InSet.unique (hsizes : ∀ size ∈ sizes, 1 ≤ size) (h : InSet sizes set t)
    (h' : InSet sizes set' t) : set = set' := by
  obtain ⟨hle, hlt⟩ := h
  obtain ⟨hle', hlt'⟩ := h'
  rcases Nat.lt_trichotomy set set' with hlt'' | heq | hgt
  · have hmono : first sizes (set + 1) ≤ first sizes set' := first_mono hsizes hlt''
    omega
  · exact heq
  · have hmono : first sizes (set' + 1) ≤ first sizes set := first_mono hsizes hgt
    omega

theorem exists_inSet (h : (t : Int) < first sizes set) : ∃ c < set, InSet sizes c t := by
  induction set with
  | zero =>
    rw [first, List.take_zero, List.sum_nil] at h
    omega
  | succ set ih =>
    by_cases hlt : (t : Int) < first sizes set
    · obtain ⟨c, hc, hin⟩ := ih hlt
      exact ⟨c, Nat.lt_succ_of_lt hc, hin⟩
    · exact ⟨set, Nat.lt_succ_self _, Int.not_lt.mp hlt, h⟩

theorem firstThreads_spec (cores : Nat) (sizes : List Int) (next_tte : Int) :
    (cores ≤ sizes.length → ∃ l, firstThreads cores sizes next_tte = .ok l ∧
      ∀ c < cores, l.getD c 0 = next_tte + first sizes c) ∧
    (sizes.length < cores →
      firstThreads cores sizes next_tte = .error "vector::_M_range_check") := by
  induction cores generalizing sizes next_tte with
  | zero => exact ⟨fun _ => ⟨[], rfl, nofun⟩, nofun⟩
  | succ cores ih =>
    cases sizes with
    | nil => exact ⟨nofun, fun _ => rfl⟩
    | cons size sizes =>
      obtain ⟨hok, herror⟩ := ih sizes (next_tte + size)
      refine ⟨fun hle => ?_, fun hlt => ?_⟩
      · obtain ⟨l, hl, hget⟩ := hok (Nat.le_of_succ_le_succ hle)
        refine ⟨next_tte :: l, bind_eq_of_ok hl rfl, fun c hc => ?_⟩
        cases c with
        | zero => simp [first]
        | succ c =>
          have hc := hget c (Nat.lt_of_succ_lt_succ hc)
          simp only [List.getD_cons_succ, hc, first, List.take_succ_cons, List.sum_cons]
          omega
      · rw [firstThreads, herror (Nat.lt_of_succ_lt_succ hlt)]
        rfl

theorem constructor_ok_iff :
    (∃ s : Scheduler n, constructor n sizes = .ok s) ↔ n = sizes.length := by
  obtain ⟨hok, herror⟩ := firstThreads_spec n sizes 0
  rw [constructor]
  split
  case isTrue hlt => exact ⟨nofun, fun heq => absurd heq (Nat.ne_of_lt hlt)⟩
  case isFalse hge =>
    refine ⟨fun ⟨s, hs⟩ => ?_, fun heq => ?_⟩
    · by_contra hne
      rw [herror (by omega)] at hs
      cases hs
    · obtain ⟨l, hl, _⟩ := hok (Nat.le_of_eq heq)
      exact ⟨_, bind_eq_of_ok hl rfl⟩

end Sets

/-! ### The set of a core -/

/-- The thread has exited and left everything. -/
structure Done (s : System n) (t : Nat) : Prop where
  exited : (s.thread_state t).status = .IDLE
  core : s.thread_core t = none
  place : s.place t = none
  runnable : s.m_threads_runnable t = false

/-- The thread has not had a core so far: it is starting up, or it stands in the queue. -/
structure Waiting (s : Scheduler n) (c : Fin n) (t : Nat) : Prop where
  core : s.system.thread_core t = none
  place : s.system.place t = none
  runnable : s.system.m_threads_runnable t = false
  stage : (s.system.thread_state t).status = .INITIALIZING ∧ t ∉ s.core_waiting_threads c ∨
    s.system.thread_state t = ⟨.STALLED, .STALL_UNSCHEDULED⟩ ∧ t ∈ s.core_waiting_threads c ∧
      t < s.system.m_threads_runnable_size

/-- How far the thread is that has had the core last. -/
inductive Stage (sizes : List Int) (s : Scheduler n) (c : Fin n) (j : Nat) : Prop
  | starting (status : (s.system.thread_state j).status = .INITIALIZING)
      (core : s.system.thread_core j = some c) (occupant : s.system.core_thread c = some j)
      (runnable : s.system.m_threads_runnable j = false) (next : s.next_thread_to_execute c = j)
  | running (status : (s.system.thread_state j).status = .RUNNING)
      (core : s.system.thread_core j = some c) (occupant : s.system.core_thread c = some j)
      (next : s.next_thread_to_execute c = (j : Int) + 1)
  | exited (status : (s.system.thread_state j).status = .IDLE)
      (core : s.system.thread_core j = none) (occupant : s.system.core_thread c = none)
      (runnable : s.system.m_threads_runnable j = false) (last : ¬ InSet sizes c (j + 1))

/-- The set of the core, with `j` the thread that has had the core last. -/
structure Turn (sizes : List Int) (s : Scheduler n) (c : Fin n) (j : Nat) : Prop where
  mem : InSet sizes c j
  created : j < s.system.num_threads
  running : s.system.m_core_thread_running c = some j
  stage : Stage sizes s c j
  before : ∀ t, InSet sizes c t → t < j → Done s.system t
  after : ∀ t, InSet sizes c t → j < t → t < s.system.num_threads → Waiting s c t
  sorted : (s.core_waiting_threads c).Pairwise (· < ·)
  queued : ∀ t ∈ s.core_waiting_threads c, InSet sizes c t ∧ j < t ∧ t < s.system.num_threads

/-- No thread of the set has been created. -/
structure Untouched (sizes : List Int) (s : Scheduler n) (c : Fin n) : Prop where
  created : (s.system.num_threads : Int) ≤ first sizes c
  running : s.system.m_core_thread_running c = none
  occupant : s.system.core_thread c = none
  queue : s.core_waiting_threads c = []
  next : s.next_thread_to_execute c = first sizes c

def CoreFits (sizes : List Int) (s : Scheduler n) (c : Fin n) : Prop :=
  Untouched sizes s c ∨ ∃ j, Turn sizes s c j

/-- Nothing has changed for the core and the threads of its set that there were. -/
structure Same (sizes : List Int) (c : Fin n) (s s' : Scheduler n) : Prop where
  size : s.system.m_threads_runnable_size ≤ s'.system.m_threads_runnable_size
  running : s'.system.m_core_thread_running c = s.system.m_core_thread_running c
  occupant : s'.system.core_thread c = s.system.core_thread c
  queue : s'.core_waiting_threads c = s.core_waiting_threads c
  next : s'.next_thread_to_execute c = s.next_thread_to_execute c
  threads : ∀ t, InSet sizes c t → t < s.system.num_threads →
    s'.system.thread_state t = s.system.thread_state t ∧
    s'.system.thread_core t = s.system.thread_core t ∧
    s'.system.place t = s.system.place t ∧
    s'.system.m_threads_runnable t = s.system.m_threads_runnable t

section Frame
variable {sizes : List Int} {s s' : Scheduler n} {c : Fin n} {t : Nat}

theorem Same.done (h : Same sizes c s s') (ht : InSet sizes c t) (hlt : t < s.system.num_threads)
    (hdone : Done s.system t) : Done s'.system t := by
  obtain ⟨hstate, hcore, hplace, hrunnable⟩ := h.threads t ht hlt
  exact ⟨hstate ▸ hdone.exited, hcore.trans hdone.core, hplace.trans hdone.place,
    hrunnable.trans hdone.runnable⟩

theorem Same.waiting (h : Same sizes c s s') (ht : InSet sizes c t)
    (hlt : t < s.system.num_threads) (hwaiting : Waiting s c t) : Waiting s' c t := by
  obtain ⟨hstate, hcore, hplace, hrunnable⟩ := h.threads t ht hlt
  refine ⟨hcore.trans hwaiting.core, hplace.trans hwaiting.place,
    hrunnable.trans hwaiting.runnable, ?_⟩
  rw [hstate, h.queue]
  rcases hwaiting.stage with hinit | ⟨hstalled, hmem, hsize⟩
  · exact .inl hinit
  · exact .inr ⟨hstalled, hmem, Nat.lt_of_lt_of_le hsize h.size⟩

theorem Same.stage (h : Same sizes c s s') {j} (hj : InSet sizes c j)
    (hlt : j < s.system.num_threads) (hstage : Stage sizes s c j) : Stage sizes s' c j := by
  obtain ⟨hstate, hcore, -, hrunnable⟩ := h.threads j hj hlt
  cases hstage with
  | starting status core occupant runnable next =>
    exact .starting (hstate ▸ status) (hcore.trans core) (h.occupant.trans occupant)
      (hrunnable.trans runnable) (h.next.trans next)
  | running status core occupant next =>
    exact .running (hstate ▸ status) (hcore.trans core) (h.occupant.trans occupant)
      (h.next.trans next)
  | exited status core occupant runnable last =>
    exact .exited (hstate ▸ status) (hcore.trans core) (h.occupant.trans occupant)
      (hrunnable.trans runnable) last

theorem Turn.same {j} (hj : Turn sizes s c j) (h : Same sizes c s s')
    (hthreads : s.system.num_threads ≤ s'.system.num_threads)
    (hnew : ∀ t, InSet sizes c t → s.system.num_threads ≤ t → t < s'.system.num_threads →
      Waiting s' c t) : Turn sizes s' c j := by
  refine ⟨hj.mem, Nat.lt_of_lt_of_le hj.created hthreads, h.running.trans hj.running,
    h.stage hj.mem hj.created hj.stage, fun t ht hlt => ?_, fun t ht hlt hcreated => ?_, ?_,
    fun t ht => ?_⟩
  · exact h.done ht (Nat.lt_trans hlt hj.created) (hj.before t ht hlt)
  · by_cases hold : t < s.system.num_threads
    · exact h.waiting ht hold (hj.after t ht hlt hold)
    · exact hnew t ht (Nat.not_lt.mp hold) hcreated
  · rw [h.queue]
    exact hj.sorted
  · rw [h.queue] at ht
    obtain ⟨hin, hlt, hcreated⟩ := hj.queued t ht
    exact ⟨hin, hlt, Nat.lt_of_lt_of_le hcreated hthreads⟩

theorem CoreFits.same (hfits : CoreFits sizes s c) (h : Same sizes c s s')
    (hthreads : s'.system.num_threads = s.system.num_threads) : CoreFits sizes s' c := by
  rcases hfits with hnone | ⟨j, hj⟩
  · exact .inl ⟨hthreads.symm ▸ hnone.created, h.running.trans hnone.running,
      h.occupant.trans hnone.occupant, h.queue.trans hnone.queue, h.next.trans hnone.next⟩
  · refine .inr ⟨j, hj.same h (Nat.le_of_eq hthreads.symm) fun t _ hle hlt => ?_⟩
    omega

end Frame

/-- The sizes that are left when so many threads have been created. -/
structure Cursor (sizes : List Int) (s : Scheduler n) : Prop where
  reached : first sizes s.current_pinball_set ≤ s.system.num_threads
  inside : s.current_pinball_set < sizes.length →
    (s.system.num_threads : Int) < first sizes (s.current_pinball_set + 1)
  left : ∀ i size, s.current_pinball_set ≤ i → sizes[i]? = some size → s.seqs[i]? =
    some (if i = s.current_pinball_set then first sizes (i + 1) - s.system.num_threads else size)

/-- The tables of the scheduler and the threads of all sets. -/
structure Fits (sizes : List Int) (s : Scheduler n) : Prop where
  scripts : s.system.scripts = []
  cursor : Cursor sizes s
  bound : (s.system.num_threads : Int) ≤ sizes.sum
  affinity : ∀ t (c : Fin n), InSet sizes c t → t < s.system.num_threads →
    ∀ d, (s.system.m_thread_info t).m_core_affinity d = decide (d = c)
  fresh : ∀ t, s.system.num_threads ≤ t → (s.system.m_thread_info t).m_has_affinity = false ∧
    s.system.m_threads_runnable t = false ∧ s.system.place t = none ∧ s.system.thread_core t = none
  core : ∀ c, CoreFits sizes s c

/-- Nothing has changed but for the core and the threads of its set that there are. -/
structure Apart (sizes : List Int) (c : Fin n) (s s' : Scheduler n) : Prop where
  scripts : s'.system.scripts = s.system.scripts
  seqs : s'.seqs = s.seqs
  set : s'.current_pinball_set = s.current_pinball_set
  threads : s'.system.num_threads = s.system.num_threads
  size : s.system.m_threads_runnable_size ≤ s'.system.m_threads_runnable_size
  affinity : ∀ u, (s'.system.m_thread_info u).m_core_affinity =
    (s.system.m_thread_info u).m_core_affinity
  running : ∀ d ≠ c, s'.system.m_core_thread_running d = s.system.m_core_thread_running d
  occupant : ∀ d ≠ c, s'.system.core_thread d = s.system.core_thread d
  queue : ∀ d ≠ c, s'.core_waiting_threads d = s.core_waiting_threads d
  next : ∀ d ≠ c, s'.next_thread_to_execute d = s.next_thread_to_execute d
  others : ∀ u, ¬ (InSet sizes c u ∧ u < s.system.num_threads) →
    s'.system.thread_state u = s.system.thread_state u ∧
    s'.system.thread_core u = s.system.thread_core u ∧
    s'.system.place u = s.system.place u ∧
    s'.system.m_threads_runnable u = s.system.m_threads_runnable u ∧
    (s'.system.m_thread_info u).m_has_affinity = (s.system.m_thread_info u).m_has_affinity

section Apart
variable {sizes : List Int} {s s' : Scheduler n} {c : Fin n} {t : Nat}

theorem Apart.fits (hsizes : ∀ size ∈ sizes, 1 ≤ size) (hfits : Fits sizes s)
    (h : Apart sizes c s s') (hcore : CoreFits sizes s' c) : Fits sizes s' := by
  have hcursor : Cursor sizes s' := by
    have hold := hfits.cursor
    refine ⟨?_, fun hset => ?_, fun i size hi hsize => ?_⟩
    · rw [h.set, h.threads]
      exact hold.reached
    · rw [h.set] at hset ⊢
      rw [h.threads]
      exact hold.inside hset
    · rw [h.set] at hi ⊢
      rw [h.seqs, h.threads]
      exact hold.left i size hi hsize
  refine ⟨h.scripts.trans hfits.scripts, hcursor, ?_, fun u d hu hknown => ?_, fun u hu => ?_,
    fun d => ?_⟩
  · rw [h.threads]
    exact hfits.bound
  · rw [h.threads] at hknown
    rw [h.affinity]
    exact hfits.affinity u d hu hknown
  · rw [h.threads] at hu
    obtain ⟨-, hcore, hplace, hrun, haffinity⟩ :=
      h.others u fun hin => Nat.not_lt.mpr hu hin.2
    rw [haffinity, hrun, hplace, hcore]
    exact hfits.fresh u hu
  · by_cases hdc : d = c
    · exact hdc ▸ hcore
    · refine (hfits.core d).same ⟨h.size, h.running d hdc, h.occupant d hdc, h.queue d hdc,
        h.next d hdc, fun u hu _ => ?_⟩ h.threads
      obtain ⟨hstate, hcore, hplace, hrun, -⟩ :=
        h.others u fun hin => hdc (Fin.ext (hu.unique hsizes hin.1))
      exact ⟨hstate, hcore, hplace, hrun⟩

theorem Fits.home (hn : n = sizes.length) (h : Fits sizes s) (hlt : t < s.system.num_threads) :
    ∃ c : Fin n, InSet sizes c t := by
  have hbound := h.bound
  rw [← first_of_length_le (Nat.le_refl sizes.length), ← hn] at hbound
  have hfirst : (t : Int) < first sizes n := by omega
  obtain ⟨c, hc, hin⟩ := exists_inSet hfirst
  exact ⟨⟨c, hc⟩, hin⟩

theorem Fits.turn (h : Fits sizes s) (hin : InSet sizes c t) (hlt : t < s.system.num_threads) :
    ∃ j, Turn sizes s c j := by
  rcases h.core c with huntouched | hturn
  · have hcreated := huntouched.created
    have hfirst := hin.1
    omega
  · exact hturn

end Apart

/-! ### Creation -/

section Create
variable {sizes : List Int} {s s' : Scheduler n}

theorem constructor_fits (hsizes : ∀ size ∈ sizes, 1 ≤ size) (hs : constructor n sizes = .ok s) :
    Fits sizes s := by
  have hn := constructor_ok_iff.mp ⟨s, hs⟩
  obtain ⟨l, hl, hget⟩ := (firstThreads_spec n sizes 0).1 (Nat.le_of_eq hn)
  rw [constructor, if_neg (by omega)] at hs
  obtain ⟨l', hl', hs⟩ := of_bind_ok hs
  obtain rfl : l = l' := Except.ok.inj (hl.symm.trans hl')
  cases hs
  have hzero : first sizes 0 = 0 := rfl
  have hpos : ∀ set, 0 ≤ first sizes set := fun set => first_mono hsizes (Nat.zero_le set)
  refine ⟨rfl, ⟨Int.le_refl _, fun hlt => ?_, fun i size _ hi => ?_⟩, ?_, fun _ _ _ ht => ?_,
    fun _ _ => ⟨rfl, rfl, rfl, rfl⟩, fun c => .inl ⟨hpos _, rfl, rfl, rfl, ?_⟩⟩
  · have hsize := hsizes _ (List.getElem_mem hlt)
    have hnext : first sizes (0 + 1) = first sizes 0 + sizes[0] :=
      first_succ (List.getElem?_eq_getElem hlt)
    change (0 : Int) < first sizes (0 + 1)
    change 1 ≤ sizes[0] at hsize
    omega
  · change sizes[i]? = some (if i = 0 then first sizes (i + 1) - 0 else size)
    rw [hi]
    by_cases hi0 : i = 0
    · subst hi0
      simp [first_succ hi, hzero]
    · simp [hi0]
  · rw [← first_of_length_le (Nat.le_refl sizes.length)]
    exact hpos _
  · exact absurd ht (Nat.not_lt_zero _)
  · have hc := hget c.val c.isLt
    rw [Int.zero_add] at hc
    exact hc

theorem findFree_single {system : System n} {c t} (hrunning : system.m_core_thread_running c = none)
    (haffinity : ∀ d, (system.m_thread_info t).m_core_affinity d = decide (d = c)) :
    system.findFreeCoreForThread t = some c := by
  have hpred : ∀ d, ((system.m_thread_info t).m_core_affinity d &&
      decide (system.m_core_thread_running d = none)) = true ↔ d = c := by
    intro d
    rw [haffinity]
    by_cases hdc : d = c
    · simp [hdc, hrunning]
    · simp [hdc]
  cases hfind : system.findFreeCoreForThread t with
  | none =>
    rw [findFreeCoreForThread, List.find?_eq_none] at hfind
    exact absurd ((hpred c).mpr rfl) (hfind c (List.mem_finRange c))
  | some d =>
    have hd := List.find?_some hfind
    rw [(hpred d).mp hd]

theorem update_eq_ite (f : Fin n → Option Nat) (c d : Fin n) (t : Nat) :
    update f c (some t) d = if some c = some d then some t else f d := by
  by_cases hdc : d = c
  · simp [hdc]
  · simp [hdc, Ne.symm hdc]

/-- What the creation of a thread changes; `core_id` is where it is placed. -/
structure Created (s s' : System n) (c : Fin n) (core_id : Option (Fin n)) : Prop where
  scripts : s'.scripts = s.scripts
  size : s'.m_threads_runnable_size = s.m_threads_runnable_size
  runnable : s'.m_threads_runnable = s.m_threads_runnable
  threads : s'.num_threads = s.num_threads + 1
  state : s'.thread_state = update s.thread_state s.num_threads
    { s.thread_state s.num_threads with status := .INITIALIZING }
  core : s'.thread_core = update s.thread_core s.num_threads core_id
  place : s'.place = update s.place s.num_threads core_id
  occupant : ∀ d, s'.core_thread d =
    if core_id = some d then some s.num_threads else s.core_thread d
  running : ∀ d, s'.m_core_thread_running d =
    if core_id = some d then some s.num_threads else s.m_core_thread_running d
  affinity : ∀ d, (s'.m_thread_info s.num_threads).m_core_affinity d = decide (d = c)
  others : ∀ u ≠ s.num_threads, s'.m_thread_info u = s.m_thread_info u

theorem createThread_created {system : System n} {c}
    (haffinity : (system.m_thread_info system.num_threads).m_has_affinity = false)
    (hcore : system.thread_core system.num_threads = none)
    (hoccupant : system.m_core_thread_running c = none → system.core_thread c = none) :
    ∃ system', Pinned.createThread system (fun d => decide (d = c)) = .ok system' ∧
      Created system system' c
        (if system.m_core_thread_running c = none then some c else none) := by
  rw [Pinned.createThread.eq_def]
  dsimp only
  generalize hnew : ({ system with num_threads := system.num_threads + 1 } : System n).setStatus
    system.num_threads .INITIALIZING = new
  have hinfo : new.m_thread_info = system.m_thread_info := hnew ▸ rfl
  have hrunning : new.m_core_thread_running = system.m_core_thread_running := hnew ▸ rfl
  generalize hset : new.setInfo system.num_threads
    { new.m_thread_info system.num_threads with
      m_core_affinity := fun d => decide (d = c)
      m_has_affinity := (List.finRange n).any fun d => decide (d = c) } = set
  have hsingle : ∀ d,
      (set.m_thread_info system.num_threads).m_core_affinity d = decide (d = c) := by
    intro d
    rw [← hset]
    simp [setInfo]
  have hsetrunning : set.m_core_thread_running = system.m_core_thread_running := by
    rw [← hset, ← hrunning]
    rfl
  have hfree : (new.m_thread_info system.num_threads).m_has_affinity = false := by
    rw [hinfo, haffinity]
  simp only [threadCreate, hfree, Bool.false_eq_true, if_false, hset]
  by_cases hrun : system.m_core_thread_running c = none
  · rw [if_pos hrun, findFree_single (by rw [hsetrunning, hrun]) hsingle]
    refine ⟨_, bind_eq_of_ok (setCore_free ?_ ?_) rfl, ?_⟩
    all_goals subst hset hnew
    · exact hcore
    · exact hoccupant hrun
    · refine ⟨rfl, rfl, rfl, rfl, rfl, rfl, ?_, fun d => ?_, fun d => ?_, fun d => ?_,
        fun u hu => ?_⟩
      rotate_left
      · exact update_eq_ite ..
      · exact update_eq_ite ..
      rotate_right
      · funext u
        by_cases hu : u = system.num_threads
        · simp [place, setCoreState, setThreadCore, setQuantumLeft, setThreadRunning,
            setCoreRunning, setInfo, hu]
        · simp [place, setCoreState, setThreadCore, setQuantumLeft, setThreadRunning,
            setCoreRunning, setInfo, setStatus, hu]
      · simp [setCoreState, setThreadCore, setQuantumLeft, setThreadRunning, setCoreRunning,
          setInfo]
      · simp [setCoreState, setThreadCore, setQuantumLeft, setThreadRunning, setCoreRunning,
          setInfo, setStatus, hu]
  · rw [if_neg hrun, findFree_none (c := c) (by rwa [hsetrunning]) hsingle]
    refine ⟨_, rfl, ?_⟩
    subst hset hnew
    refine ⟨rfl, rfl, rfl, rfl, rfl, ?_, ?_, fun d => rfl, fun d => rfl, fun d => ?_,
      fun u hu => ?_⟩
    · rw [← hcore, update_eq_self]
      rfl
    · funext u
      by_cases hu : u = system.num_threads
      · simp [place, setCoreRunning, setInfo, hu]
      · simp [place, setCoreRunning, setInfo, setStatus, hu]
    · simp [setCoreRunning, setInfo]
    · simp [setCoreRunning, setInfo, setStatus, hu]

/-- A setting that the pinned scheduler does not look at makes no difference. -/
theorem Created.of_explicit {system system' : System n} {c core_id}
    (h : Created (system.setInfo system.num_threads
      { system.m_thread_info system.num_threads with m_explicit_affinity := true })
      system' c core_id) : Created system system' c core_id := by
  have hplace : (system.setInfo system.num_threads
      { system.m_thread_info system.num_threads with m_explicit_affinity := true }).place =
      system.place := place_setInfo_self _ rfl
  refine ⟨h.scripts, h.size, h.runnable, h.threads, h.state, h.core, ?_, h.occupant, h.running,
    h.affinity, fun u hu => ?_⟩
  · rw [← hplace]
    exact h.place
  · rw [h.others u hu]
    simp [setInfo, hu]

theorem Cursor.inSet (h : Cursor sizes s) (hlt : (s.system.num_threads : Int) < sizes.sum) :
    s.current_pinball_set < sizes.length ∧
      InSet sizes s.current_pinball_set s.system.num_threads := by
  have hset : s.current_pinball_set < sizes.length := by
    by_contra hge
    have hreached := h.reached
    rw [first_of_length_le (Nat.not_lt.mp hge)] at hreached
    omega
  exact ⟨hset, h.reached, h.inside hset⟩

theorem threadSetInitialAffinity_spec (hn : n = sizes.length)
    (hsizes : ∀ size ∈ sizes, 1 ≤ size) (h : Cursor sizes s)
    (hlt : (s.system.num_threads : Int) < sizes.sum) :
    ∃ (c : Fin n) (seqs : List Int) (set : Nat), InSet sizes c s.system.num_threads ∧
      s.threadSetInitialAffinity =
        .ok (c, { s with seqs := seqs, current_pinball_set := set }) ∧
      ∀ s' : Scheduler n, s'.seqs = seqs → s'.current_pinball_set = set →
        s'.system.num_threads = s.system.num_threads + 1 → Cursor sizes s' := by
  obtain ⟨hset, hin⟩ := h.inSet hlt
  obtain ⟨hreached, hinside⟩ := hin
  have hleft := h.left _ _ (Nat.le_refl _) (List.getElem?_eq_getElem hset)
  rw [if_pos rfl] at hleft
  rw [Scheduler.threadSetInitialAffinity.eq_def, dif_pos (hn ▸ hset), hleft]
  refine ⟨⟨s.current_pinball_set, hn ▸ hset⟩, _, _, ⟨hreached, hinside⟩, rfl,
    fun s' hseqs hcurrent hthreads => ?_⟩
  have hlater : ∀ i size, s.current_pinball_set < i → sizes[i]? = some size →
      s'.seqs[i]? = some size := by
    intro i size hi hsize
    have hold := h.left i size (Nat.le_of_lt hi) hsize
    rw [if_neg (Nat.ne_of_gt hi)] at hold
    rw [hseqs, List.getElem?_set_ne (Nat.ne_of_lt hi)]
    exact hold
  split at hcurrent
  case isTrue hlast =>
    refine ⟨?_, fun hnext => ?_, fun i size hi hsize => ?_⟩
    · rw [hcurrent]
      omega
    · rw [hcurrent] at hnext ⊢
      have hsize := hsizes _ (List.getElem_mem hnext)
      rw [first_succ (List.getElem?_eq_getElem hnext)]
      omega
    · rw [hcurrent] at hi
      rw [hlater i size hi hsize]
      by_cases heq : i = s'.current_pinball_set
      · rw [if_pos heq, first_succ hsize, heq, hcurrent]
        congr 1
        omega
      · rw [if_neg heq]
  case isFalse hmore =>
    refine ⟨?_, fun _ => ?_, fun i size hi hsize => ?_⟩
    · rw [hcurrent]
      omega
    · rw [hcurrent]
      omega
    · rw [hcurrent] at hi
      rcases Nat.eq_or_lt_of_le hi with heq | hgt
      · rw [← heq, hcurrent, if_pos rfl, hseqs, List.getElem?_set_self]
        · congr 1
          omega
        · exact (List.getElem?_eq_some_iff.mp hleft).1
      · rw [hlater i size hgt hsize, if_neg]
        omega

theorem Created.waiting {c} (h : Created s.system s'.system c none)
    (hqueue : s'.core_waiting_threads = s.core_waiting_threads)
    (hfresh : s.system.m_threads_runnable s.system.num_threads = false)
    (hnot : s.system.num_threads ∉ s.core_waiting_threads c) :
    Waiting s' c s.system.num_threads := by
  refine ⟨?_, ?_, ?_, .inl ⟨?_, ?_⟩⟩
  · rw [h.core, update_self]
  · rw [h.place, update_self]
  · rw [h.runnable, hfresh]
  · rw [h.state, update_self]
  · rwa [hqueue]

theorem Created.same {c d core_id} (h : Created s.system s'.system c core_id)
    (hd : core_id ≠ some d) (hqueue : s'.core_waiting_threads = s.core_waiting_threads)
    (hnext : s'.next_thread_to_execute = s.next_thread_to_execute) : Same sizes d s s' := by
  refine ⟨Nat.le_of_eq h.size.symm, ?_, ?_, by rw [hqueue], by rw [hnext], fun t _ ht => ?_⟩
  · rw [h.running, if_neg hd]
  · rw [h.occupant, if_neg hd]
  · have hne : t ≠ s.system.num_threads := Nat.ne_of_lt ht
    rw [h.state, h.core, h.place, h.runnable]
    simp [hne]

theorem Created.coreFits {c : Fin n} (hn : n = sizes.length)
    (hsizes : ∀ size ∈ sizes, 1 ≤ size) (h : Fits sizes s)
    (hin : InSet sizes c s.system.num_threads)
    (hqueue : s'.core_waiting_threads = s.core_waiting_threads)
    (hnext : s'.next_thread_to_execute = s.next_thread_to_execute)
    (hnew : Created s.system s'.system c
      (if s.system.m_core_thread_running c = none then some c else none)) (d : Fin n) :
    CoreFits sizes s' d := by
  have hthreads := hnew.threads
  obtain ⟨-, hrunnable, -, -⟩ := h.fresh s.system.num_threads (Nat.le_refl _)
  by_cases hdc : d = c
  · subst hdc
    rcases h.core d with huntouched | ⟨j, hj⟩
    · refine .inr ⟨s.system.num_threads, ?_⟩
      rw [if_pos huntouched.running] at hnew
      have hfirst : first sizes d = s.system.num_threads :=
        Int.le_antisymm hin.1 huntouched.created
      refine ⟨hin, by omega, ?_, .starting ?_ ?_ ?_ ?_ ?_, fun t ht hlt => ?_,
        fun t _ hgt hlt => by omega, ?_, fun t ht => ?_⟩
      · rw [hnew.running, if_pos rfl]
      · rw [hnew.state, update_self]
      · rw [hnew.core, update_self]
      · rw [hnew.occupant, if_pos rfl]
      · rw [hnew.runnable, hrunnable]
      · rw [hnext, huntouched.next, hfirst]
      · have hle := ht.1
        omega
      · simp [hqueue, huntouched.queue]
      · simp [hqueue, huntouched.queue] at ht
    · rw [if_neg (by rw [hj.running]; nofun)] at hnew
      refine .inr ⟨j, hj.same (hnew.same nofun hqueue hnext) (by omega) fun t _ hle hlt => ?_⟩
      obtain rfl : t = s.system.num_threads := by omega
      refine hnew.waiting hqueue hrunnable fun hmem => ?_
      exact Nat.lt_irrefl _ (hj.queued _ hmem).2.2
  · have hnotin : ¬ InSet sizes d s.system.num_threads :=
      fun hd => hdc (Fin.ext (hd.unique hsizes hin))
    have hsame : Same sizes d s s' := by
      refine hnew.same ?_ hqueue hnext
      split
      · exact fun heq => hdc (Option.some.inj heq).symm
      · nofun
    rcases h.core d with huntouched | ⟨j, hj⟩
    · have hd : d.val < sizes.length := hn ▸ d.isLt
      have hsucc := first_succ (List.getElem?_eq_getElem hd)
      have hpos := hsizes _ (List.getElem_mem hd)
      refine .inl ⟨?_, hsame.running.trans huntouched.running,
        hsame.occupant.trans huntouched.occupant, hsame.queue.trans huntouched.queue,
        hsame.next.trans huntouched.next⟩
      have hle := huntouched.created
      by_contra hgt
      exact hnotin ⟨by omega, by omega⟩
    · refine .inr ⟨j, hj.same hsame (by omega) fun t ht hle hlt => ?_⟩
      obtain rfl : t = s.system.num_threads := by omega
      exact absurd ht hnotin

theorem createThread_fits (hn : n = sizes.length) (hsizes : ∀ size ∈ sizes, 1 ≤ size)
    (h : Fits sizes s) (hlt : (s.system.num_threads : Int) < sizes.sum) :
    ∃ s', createThread s = .ok s' ∧ Fits sizes s' := by
  obtain ⟨c, seqs, set, hin, hinitial, hcursor⟩ :=
    threadSetInitialAffinity_spec hn hsizes h.cursor hlt
  obtain ⟨haffinity, hrunnable, hplace, hcore⟩ := h.fresh s.system.num_threads (Nat.le_refl _)
  have hoccupant : s.system.m_core_thread_running c = none → s.system.core_thread c = none := by
    intro hnone
    rcases h.core c with huntouched | ⟨j, hj⟩
    · exact huntouched.occupant
    · rw [hj.running] at hnone
      cases hnone
  obtain ⟨system', hsystem, hcreated⟩ : ∃ system',
      Pinned.createThread (s.system.setInfo s.system.num_threads
        { s.system.m_thread_info s.system.num_threads with m_explicit_affinity := true })
        (fun d => decide (d = c)) = .ok system' ∧ Created _ system' c _ :=
    createThread_created (by simpa [setInfo] using haffinity) hcore hoccupant
  have hnew : Created s.system system' c
      (if s.system.m_core_thread_running c = none then some c else none) := hcreated.of_explicit
  refine ⟨{ s with seqs := seqs, current_pinball_set := set, system := system' }, ?_, ?_⟩
  · rw [createThread.eq_def]
    rw [if_neg (by rw [haffinity]; exact Bool.false_ne_true)]
    refine bind_eq_of_ok hinitial ?_
    exact congrArg
      (Scheduler.withSystem { s with seqs := seqs, current_pinball_set := set }) hsystem
  have hthreads : system'.num_threads = s.system.num_threads + 1 := hnew.threads
  refine ⟨hnew.scripts.trans h.scripts, hcursor _ rfl rfl hthreads, ?_, fun t d ht hlt e => ?_,
    fun t ht => ?_, fun d => ?_⟩
  · change (system'.num_threads : Int) ≤ _
    omega
  · have hlt : t < system'.num_threads := hlt
    by_cases hne : t = s.system.num_threads
    · subst hne
      rw [Fin.ext (ht.unique hsizes hin)]
      exact hnew.affinity e
    · change (system'.m_thread_info t).m_core_affinity e = _
      rw [hnew.others t hne]
      exact h.affinity t d ht (by omega) e
  · have hgt : s.system.num_threads < t := by
      change system'.num_threads ≤ t at ht
      omega
    obtain ⟨haff, hrun, hp, hc⟩ := h.fresh t (Nat.le_of_lt hgt)
    have hne : t ≠ s.system.num_threads := Nat.ne_of_gt hgt
    refine ⟨?_, ?_, ?_, ?_⟩
    · rw [hnew.others t hne, haff]
    · rw [hnew.runnable, hrun]
    · rw [hnew.place, update_of_ne hne, hp]
    · rw [hnew.core, update_of_ne hne, hc]
  · refine Created.coreFits hn hsizes h hin ?_ ?_ hnew d <;> rfl

end Create

/-! ### Start -/

section Start
variable {sizes : List Int} {s s' : Scheduler n} {c : Fin n} {t : Nat}

theorem affinityCore_eq
    (haffinity : ∀ d, (s.system.m_thread_info t).m_core_affinity d = decide (d = c)) :
    s.affinityCore t = c := by
  have hfind : (List.finRange n).find? (s.system.m_thread_info t).m_core_affinity = some c := by
    cases hd : (List.finRange n).find? (s.system.m_thread_info t).m_core_affinity with
    | none =>
      rw [List.find?_eq_none] at hd
      have hc := hd c (List.mem_finRange c)
      simp [haffinity] at hc
    | some d =>
      have hfound := List.find?_some hd
      rw [haffinity] at hfound
      rw [of_decide_eq_true hfound]
  rw [Scheduler.affinityCore, hfind]

theorem threadStart_eq (h : s.affinityCore t = c.val) :
    s.threadStart t =
      if s.system.m_core_thread_running c = some t then
        .ok { s with
          next_thread_to_execute := update s.next_thread_to_execute c
            (s.next_thread_to_execute c + 1) }
      else
        .ok { s with
          system := s.system.setRunnable t false
          core_waiting_threads := update s.core_waiting_threads c
            ((s.core_waiting_threads c).orderedInsert (· ≤ ·) t) } := by
  have hlt : s.affinityCore t < n := h ▸ c.isLt
  obtain rfl : c = ⟨s.affinityCore t, hlt⟩ := Fin.ext h.symm
  rw [Scheduler.threadStart, dif_pos hlt]

/-- What changes for a thread that starts, and for its core. -/
structure Begun (s s' : Scheduler n) (c : Fin n) (t : Nat) (state : ThreadState) (runnable : Bool)
    (queue : List Nat) (next : Int) : Prop where
  scripts : s'.system.scripts = s.system.scripts
  cursor : s'.seqs = s.seqs ∧ s'.current_pinball_set = s.current_pinball_set
  size : s.system.m_threads_runnable_size ≤ s'.system.m_threads_runnable_size
  reached : t < s'.system.m_threads_runnable_size
  threads : s'.system.num_threads = s.system.num_threads
  info : s'.system.m_thread_info = s.system.m_thread_info
  core : s'.system.thread_core = s.system.thread_core
  occupant : s'.system.core_thread = s.system.core_thread
  running : s'.system.m_core_thread_running = s.system.m_core_thread_running
  state : s'.system.thread_state = update s.system.thread_state t state
  runnable : s'.system.m_threads_runnable = update s.system.m_threads_runnable t runnable
  queue : s'.core_waiting_threads = update s.core_waiting_threads c queue
  next : s'.next_thread_to_execute = update s.next_thread_to_execute c next

/-- The scheduler when it is told that the thread starts. -/
def starting (s : Scheduler n) (t size : Nat) : Scheduler n :=
  { s with
    system :=
      { s.system.setStatus t .RUNNING with m_threads_runnable_size := size }.setRunnable t true }

/-- The size of the table of runnable threads after the thread has been told of. -/
def grown (s : Scheduler n) (t : Nat) : Nat :=
  if s.system.m_threads_runnable_size ≤ t then s.system.m_threads_runnable_size + 16
  else s.system.m_threads_runnable_size

theorem grown_spec (h : t < s.system.m_threads_runnable_size + 16) :
    s.system.m_threads_runnable_size ≤ grown s t ∧ t < grown s t := by
  rw [grown]
  split <;> omega

theorem onThreadStart_eq (hknown : t < s.system.num_threads) (hlt : t < grown s t) :
    onThreadStart s t =
      (starting s t (grown s t)).threadStart t >>= fun s => .ok (s.setStarted t) := by
  rw [onThreadStart, if_neg (Nat.not_le.mpr hknown)]
  exact if_neg (Nat.not_le.mpr hlt)

theorem onThreadStart_first (hknown : t < s.system.num_threads)
    (hsize : t < s.system.m_threads_runnable_size + 16)
    (haffinity : ∀ d, (s.system.m_thread_info t).m_core_affinity d = decide (d = c))
    (hrunning : s.system.m_core_thread_running c = some t)
    (hcore : s.system.thread_core t = some c) : ∃ s', onThreadStart s t = .ok s' ∧
      Begun s s' c t ⟨.RUNNING, (s.system.thread_state t).stalled_reason⟩ true
        (s.core_waiting_threads c) (s.next_thread_to_execute c + 1) := by
  obtain ⟨hle, hlt⟩ := grown_spec hsize
  have hthread := threadStart_eq (s := starting s t (grown s t)) (affinityCore_eq haffinity)
  have hhere : (starting s t (grown s t)).system.m_core_thread_running c = some t := hrunning
  rw [if_pos hhere] at hthread
  refine ⟨_, (onThreadStart_eq hknown hlt).trans (bind_eq_of_ok hthread rfl), ?_⟩
  have hcore' : (starting s t (grown s t)).system.thread_core t = some c := hcore
  simp only [Scheduler.setStarted, hcore']
  refine ⟨rfl, ⟨rfl, rfl⟩, hle, hlt, rfl, rfl, rfl, rfl, rfl, ?_, rfl, ?_, rfl⟩
  · simp [starting, setStatus, setCoreState, setRunnable]
  · exact (update_eq_self ..).symm

theorem onThreadStart_later (hknown : t < s.system.num_threads)
    (hsize : t < s.system.m_threads_runnable_size + 16)
    (haffinity : ∀ d, (s.system.m_thread_info t).m_core_affinity d = decide (d = c))
    (hrunning : s.system.m_core_thread_running c ≠ some t)
    (hcore : s.system.thread_core t = none) : ∃ s', onThreadStart s t = .ok s' ∧
      Begun s s' c t ⟨.STALLED, .STALL_UNSCHEDULED⟩ false
        ((s.core_waiting_threads c).orderedInsert (· ≤ ·) t) (s.next_thread_to_execute c) := by
  obtain ⟨hle, hlt⟩ := grown_spec hsize
  have hthread := threadStart_eq (s := starting s t (grown s t)) (affinityCore_eq haffinity)
  have hother : (starting s t (grown s t)).system.m_core_thread_running c ≠ some t := hrunning
  rw [if_neg hother] at hthread
  refine ⟨_, (onThreadStart_eq hknown hlt).trans (bind_eq_of_ok hthread rfl), ?_⟩
  have hcore' : ((starting s t (grown s t)).system.setRunnable t false).thread_core t = none :=
    hcore
  simp only [Scheduler.setStarted, hcore']
  refine ⟨rfl, ⟨rfl, rfl⟩, hle, hlt, rfl, rfl, rfl, rfl, rfl, ?_, ?_, rfl, ?_⟩
  · simp [starting, setStatus, setRunnable]
  · simp [starting, setStatus, setRunnable]
  · exact (update_eq_self ..).symm

theorem Begun.apart {state runnable queue next} (h : Begun s s' c t state runnable queue next)
    (hin : InSet sizes c t) (hlt : t < s.system.num_threads) : Apart sizes c s s' := by
  refine ⟨h.scripts, h.cursor.1, h.cursor.2, h.threads, h.size, fun u => by rw [h.info],
    fun d _ => by rw [h.running], fun d _ => by rw [h.occupant], fun d hd => ?_, fun d hd => ?_,
    fun u hu => ?_⟩
  · rw [h.queue, update_of_ne hd]
  · rw [h.next, update_of_ne hd]
  · have hut : u ≠ t := fun heq => hu (heq ▸ ⟨hin, hlt⟩)
    rw [h.state, h.runnable, h.core, place, h.info]
    simp [hut, place]

section Others
variable {u : Nat} {state : ThreadState} {runnable : Bool} {queue : List Nat} {next : Int}

theorem Begun.done (h : Begun s s' c t state runnable queue next) (hne : u ≠ t)
    (hdone : Done s.system u) : Done s'.system u := by
  obtain ⟨hexited, hnone, hplace, hrun⟩ := hdone
  refine ⟨?_, ?_, ?_, ?_⟩
  · rw [h.state, update_of_ne hne]
    exact hexited
  · rw [h.core]
    exact hnone
  · rw [place, h.info]
    exact hplace
  · rw [h.runnable, update_of_ne hne]
    exact hrun

theorem Begun.waiting (h : Begun s s' c t state runnable queue next) (hne : u ≠ t)
    (hqueue : u ∈ queue ↔ u ∈ s.core_waiting_threads c) (hwaiting : Waiting s c u) :
    Waiting s' c u := by
  obtain ⟨hnone, hplace, hrun, hstage⟩ := hwaiting
  refine ⟨?_, ?_, ?_, ?_⟩
  · rw [h.core]
    exact hnone
  · rw [place, h.info]
    exact hplace
  · rw [h.runnable, update_of_ne hne]
    exact hrun
  · rw [h.state, update_of_ne hne, h.queue, update_self, hqueue]
    exact hstage.imp_right fun hs => ⟨hs.1, hs.2.1, Nat.lt_of_lt_of_le hs.2.2 h.size⟩

end Others

theorem Turn.start_first {j state} (hj : Turn sizes s c j) (hcore : s.system.thread_core j = some c)
    (hoccupant : s.system.core_thread c = some j) (hstate : state.status = .RUNNING)
    (h : Begun s s' c j state true (s.core_waiting_threads c) ((j : Int) + 1)) :
    Turn sizes s' c j := by
  have hkeep : s'.core_waiting_threads c = s.core_waiting_threads c := by
    rw [h.queue, update_self]
  refine ⟨hj.mem, h.threads.symm ▸ hj.created, by rw [h.running]; exact hj.running,
    .running ?_ ?_ ?_ ?_, fun u hu hlt => ?_, fun u hu hlt hknown => ?_, ?_, fun u hu => ?_⟩
  · rw [h.state, update_self]
    exact hstate
  · rw [h.core]
    exact hcore
  · rw [h.occupant]
    exact hoccupant
  · rw [h.next, update_self]
  · exact h.done (Nat.ne_of_lt hlt) (hj.before u hu hlt)
  · rw [h.threads] at hknown
    exact h.waiting (Nat.ne_of_gt hlt) Iff.rfl (hj.after u hu hlt hknown)
  · rw [hkeep]
    exact hj.sorted
  · rw [hkeep] at hu
    rw [h.threads]
    exact hj.queued u hu

theorem orderedInsert_sorted {queue : List Nat} (h : queue.Pairwise (· < ·)) (ht : t ∉ queue) :
    (queue.orderedInsert (· ≤ ·) t).Pairwise (· < ·) := by
  induction queue with
  | nil => exact List.pairwise_singleton ..
  | cons u rest ih =>
    obtain ⟨hu, hrest⟩ := List.pairwise_cons.mp h
    rw [List.mem_cons, not_or] at ht
    rw [List.orderedInsert_cons]
    split
    case isTrue hle =>
      have hlt : t < u := Nat.lt_of_le_of_ne hle ht.1
      refine List.pairwise_cons.mpr ⟨fun v hv => ?_, h⟩
      rcases List.mem_cons.mp hv with rfl | hv
      · exact hlt
      · exact Nat.lt_trans hlt (hu v hv)
    case isFalse hgt =>
      refine List.pairwise_cons.mpr ⟨fun v hv => ?_, ih hrest ht.2⟩
      rcases (List.mem_orderedInsert _).mp hv with rfl | hv
      · omega
      · exact hu v hv

theorem Turn.start_later {j} (hj : Turn sizes s c j) (hin : InSet sizes c t) (hjt : j < t)
    (hknown : t < s.system.num_threads) (hnot : t ∉ s.core_waiting_threads c)
    (h : Begun s s' c t ⟨.STALLED, .STALL_UNSCHEDULED⟩ false
      ((s.core_waiting_threads c).orderedInsert (· ≤ ·) t) (s.next_thread_to_execute c)) :
    Turn sizes s' c j := by
  have hqueue : s'.core_waiting_threads c =
      (s.core_waiting_threads c).orderedInsert (· ≤ ·) t := by
    rw [h.queue, update_self]
  have hnext : s'.next_thread_to_execute c = s.next_thread_to_execute c := by
    rw [h.next, update_self]
  have hne : j ≠ t := Nat.ne_of_lt hjt
  refine ⟨hj.mem, h.threads.symm ▸ hj.created, by rw [h.running]; exact hj.running, ?_,
    fun u hu hlt => ?_, fun u hu hlt hu' => ?_, ?_, fun u hu => ?_⟩
  · have hstate : s'.system.thread_state j = s.system.thread_state j := by
      rw [h.state, update_of_ne hne]
    have hcore : s'.system.thread_core j = s.system.thread_core j := by rw [h.core]
    have hoccupant : s'.system.core_thread c = s.system.core_thread c := by rw [h.occupant]
    have hrunnable : s'.system.m_threads_runnable j = s.system.m_threads_runnable j := by
      rw [h.runnable, update_of_ne hne]
    cases hj.stage with
    | starting status core occupant runnable next =>
      exact .starting (hstate ▸ status) (hcore.trans core) (hoccupant.trans occupant)
        (hrunnable.trans runnable) (hnext.trans next)
    | running status core occupant next =>
      exact .running (hstate ▸ status) (hcore.trans core) (hoccupant.trans occupant)
        (hnext.trans next)
    | exited status core occupant runnable last =>
      exact .exited (hstate ▸ status) (hcore.trans core) (hoccupant.trans occupant)
        (hrunnable.trans runnable) last
  · exact h.done (by omega) (hj.before u hu hlt)
  · rw [h.threads] at hu'
    by_cases hut : u = t
    · subst hut
      obtain ⟨hnone, hplace, -, -⟩ := hj.after u hu hlt hu'
      refine ⟨?_, ?_, ?_, .inr ⟨?_, ?_, h.reached⟩⟩
      · rw [h.core]
        exact hnone
      · rw [place, h.info]
        exact hplace
      · rw [h.runnable, update_self]
      · rw [h.state, update_self]
      · rw [hqueue]
        exact (List.mem_orderedInsert _).mpr (.inl rfl)
    · refine h.waiting hut ?_ (hj.after u hu hlt hu')
      rw [List.mem_orderedInsert]
      exact or_iff_right hut
  · rw [hqueue]
    exact orderedInsert_sorted hj.sorted hnot
  · rw [hqueue] at hu
    rw [h.threads]
    rcases (List.mem_orderedInsert _).mp hu with rfl | hu
    · exact ⟨hin, hjt, hknown⟩
    · exact hj.queued u hu

theorem onThreadStart_fits (hn : n = sizes.length) (hsizes : ∀ size ∈ sizes, 1 ≤ size)
    (h : Fits sizes s) (hknown : t < s.system.num_threads)
    (hinit : (s.system.thread_state t).status = .INITIALIZING)
    (hsize : t < s.system.m_threads_runnable_size + 16) :
    ∃ s', onThreadStart s t = .ok s' ∧ Fits sizes s' := by
  obtain ⟨c, hin⟩ := h.home hn hknown
  obtain ⟨j, hj⟩ := h.turn hin hknown
  have haffinity := h.affinity t c hin hknown
  rcases Nat.lt_trichotomy t j with hlt | rfl | hgt
  · have hexited := (hj.before t hin hlt).exited
    rw [hinit] at hexited
    cases hexited
  · cases hj.stage with
    | starting status core occupant runnable next =>
      obtain ⟨s', hs', hbegun⟩ := onThreadStart_first hknown hsize haffinity hj.running core
      rw [next] at hbegun
      exact ⟨s', hs', (hbegun.apart hin hknown).fits hsizes h
        (.inr ⟨t, hj.start_first core occupant rfl hbegun⟩)⟩
    | running status | exited status =>
      rw [hinit] at status
      cases status
  · have hwaiting := hj.after t hin hgt hknown
    have hother : s.system.m_core_thread_running c ≠ some t := by
      rw [hj.running]
      exact fun heq => Nat.ne_of_lt hgt (Option.some.inj heq)
    have hnot : t ∉ s.core_waiting_threads c := by
      rcases hwaiting.stage with ⟨-, hnot⟩ | ⟨hstalled, -⟩
      · exact hnot
      · rw [hstalled] at hinit
        cases hinit
    obtain ⟨s', hs', hbegun⟩ := onThreadStart_later hknown hsize haffinity hother hwaiting.core
    exact ⟨s', hs', (hbegun.apart hin hknown).fits hsizes h
      (.inr ⟨j, hj.start_later hin hgt hknown hnot hbegun⟩)⟩

end Start

/-! ### Exit -/

section Exit
variable {sizes : List Int} {s s' : Scheduler n} {c : Fin n} {t u : Nat}

/-- The system when a thread has left its core and can no longer run. -/
def departed (s : System n) (t : Nat) (c : Fin n) (time : SubsecondTime) : System n :=
  let s := (s.setStatus t .IDLE).setCoreState c .IDLE
  let s := { s with core_thread := update s.core_thread c none }.setThreadCore t none
  (s.setRunnable t false).setLastScheduledOut t time

theorem departed_place (s : System n) (t : Nat) (c : Fin n) (time : SubsecondTime) :
    (departed s t c time).place = s.place := place_setLastScheduledOut ..

theorem departed_affinity (s : System n) (t : Nat) (c : Fin n) (time : SubsecondTime) (u : Nat) :
    ((departed s t c time).m_thread_info u).m_core_affinity = (s.m_thread_info u).m_core_affinity :=
  setLastScheduledOut_affinity ..

theorem departed_has_affinity (s : System n) (t : Nat) (c : Fin n) (time : SubsecondTime)
    (u : Nat) : ((departed s t c time).m_thread_info u).m_has_affinity =
      (s.m_thread_info u).m_has_affinity := by
  by_cases hut : u = t
  all_goals
    simp [departed, setLastScheduledOut, setInfo, setRunnable, setThreadCore, setCoreState,
      setStatus, hut]

theorem threadExit_eq {again time left} (hleft : left = { s with
      system := (s.system.setRunnable t false).setLastScheduledOut t time })
    (h : left.affinityCore t = c.val) :
    threadExit again s t time =
      match left.core_waiting_threads c with
      | [] => .ok left
      | next_thread :: rest =>
        if (next_thread : Int) ≠ left.next_thread_to_execute c then .ok left
        else
          let s := left.takeNext c next_thread rest
          s.withSystem (reschedule again s.system time c) := by
  have hlt : left.affinityCore t < n := h ▸ c.isLt
  obtain rfl : c = ⟨left.affinityCore t, hlt⟩ := Fin.ext h.symm
  subst hleft
  exact dif_pos hlt

theorem onThreadExit_eq {again time} (hcore : s.system.thread_core t = some c)
    (hstatus : (s.system.thread_state t).status = .RUNNING)
    (haffinity : ∀ d, (s.system.m_thread_info t).m_core_affinity d = decide (d = c)) :
    onThreadExit again s t time =
      let left : Scheduler n := { s with system := departed s.system t c time }
      match s.core_waiting_threads c with
      | [] => .ok left
      | next_thread :: rest =>
        if (next_thread : Int) ≠ s.next_thread_to_execute c then .ok left
        else
          let s := left.takeNext c next_thread rest
          s.withSystem (reschedule again s.system time c) := by
  have hset : ((s.system.setStatus t .IDLE).setCoreState c .IDLE).setCore t none =
      .ok ({ (s.system.setStatus t .IDLE).setCoreState c .IDLE with
        core_thread := update s.system.core_thread c none }.setThreadCore t none) := by
    simp [setCore, leaveCore, setCoreState, setStatus, hcore]
  have haffinityCore :
      ({ s with system := departed s.system t c time } : Scheduler n).affinityCore t = c.val := by
    refine affinityCore_eq fun d => ?_
    rw [departed_affinity]
    exact haffinity d
  rw [onThreadExit.eq_def]
  simp only [hcore, hstatus, ne_eq, not_true_eq_false, if_false]
  rw [hset]
  exact threadExit_eq rfl haffinityCore

theorem departed_apart (hin : InSet sizes c t) (hlt : t < s.system.num_threads)
    (time : SubsecondTime) : Apart sizes c s { s with system := departed s.system t c time } := by
  refine ⟨rfl, rfl, rfl, rfl, Nat.le_refl _, fun u => departed_affinity .., fun _ _ => rfl,
    fun d hd => ?_, fun _ _ => rfl, fun _ _ => rfl, fun u hu => ?_⟩
  · exact update_of_ne hd ..
  · have hut : u ≠ t := fun heq => hu (heq ▸ ⟨hin, hlt⟩)
    refine ⟨update_of_ne hut .., update_of_ne hut .., ?_,
      update_of_ne hut .., departed_has_affinity ..⟩
    rw [departed_place]

theorem Turn.exit_last (hj : Turn sizes s c t) (hqueue : s.core_waiting_threads c = [])
    (hlast : ¬ InSet sizes c (t + 1)) (time : SubsecondTime) :
    Turn sizes { s with system := departed s.system t c time } c t := by
  have hkeep : ∀ u, u ≠ t →
      (departed s.system t c time).thread_state u = s.system.thread_state u ∧
      (departed s.system t c time).thread_core u = s.system.thread_core u ∧
      (departed s.system t c time).m_threads_runnable u = s.system.m_threads_runnable u :=
    fun u hu => ⟨update_of_ne hu .., update_of_ne hu ..,
      update_of_ne hu ..⟩
  refine ⟨hj.mem, hj.created, hj.running, .exited ?_ ?_ ?_ ?_ hlast, fun u hu hlt => ?_,
    fun u hu hlt hknown => ?_, ?_, fun u hu => ?_⟩
  · simp [departed, setLastScheduledOut, setInfo, setRunnable, setThreadCore, setCoreState,
      setStatus]
  · exact update_self ..
  · exact update_self ..
  · exact update_self ..
  · obtain ⟨hexited, hnone, hplace, hrun⟩ := hj.before u hu hlt
    obtain ⟨hstate, hcore, hrunnable⟩ := hkeep u (Nat.ne_of_lt hlt)
    exact ⟨hstate ▸ hexited, hcore.trans hnone, (congrFun (departed_place ..) u).trans hplace,
      hrunnable.trans hrun⟩
  · obtain ⟨hle, hlt'⟩ := hu
    obtain ⟨hle', -⟩ := hj.mem
    exact absurd ⟨by omega, by omega⟩ hlast
  · exact hj.sorted
  · change u ∈ s.core_waiting_threads c at hu
    rw [hqueue] at hu
    cases hu

theorem choose_only {system : System n} {time} (hsize : u < system.m_threads_runnable_size)
    (hmay : system.eligible c u = true) (honly : ∀ v, system.eligible c v = true → v = u) :
    system.choose time c = some u := by
  cases hchoose : system.choose time c with
  | none => exact absurd hchoose (choose_ne_none hsize hmay)
  | some v => rw [honly v (eligible_of_choose hchoose)]

theorem choose_next {system : System n} {time rest} (hn : n = sizes.length) (h : Fits sizes s)
    (hj : Turn sizes s c t) (hqueue : s.core_waiting_threads c = u :: rest)
    (hsize : system.m_threads_runnable_size = s.system.m_threads_runnable_size)
    (hrunnable : system.m_threads_runnable =
      update (update s.system.m_threads_runnable t false) u true)
    (haffinity : ∀ v, (system.m_thread_info v).m_core_affinity =
      (s.system.m_thread_info v).m_core_affinity) (hplace : system.place = s.system.place) :
    system.choose time c = some u := by
  have hmem : u ∈ s.core_waiting_threads c := hqueue ▸ List.mem_cons_self ..
  obtain ⟨hin, htu, hknown⟩ := hj.queued u hmem
  have hwaiting := hj.after u hin htu hknown
  refine choose_only ?_ (eligible_of_waits ⟨?_, ?_, ?_⟩) fun v hv => ?_
  · rw [hsize]
    rcases hwaiting.stage with ⟨-, hnot⟩ | ⟨-, -, hsize⟩
    · exact absurd hmem hnot
    · exact hsize
  · rw [hrunnable, update_self]
  · rw [haffinity, h.affinity u c hin hknown]
    exact decide_eq_true rfl
  · rw [hplace]
    exact hwaiting.place
  · by_contra hvu
    obtain ⟨hrun, -⟩ := runnable_of_eligible hv
    rw [hrunnable, update_of_ne hvu] at hrun
    have hvt : v ≠ t := by
      intro heq
      rw [heq, update_self] at hrun
      cases hrun
    rw [update_of_ne hvt] at hrun
    have hv' : v < s.system.num_threads := by
      by_contra hge
      rw [(h.fresh v (Nat.not_lt.mp hge)).2.1] at hrun
      cases hrun
    obtain ⟨d, hd⟩ := h.home hn hv'
    have hallowed := (Bool.and_eq_true_iff.mp (Bool.and_eq_true_iff.mp hv).1).1
    rw [haffinity, h.affinity v d hd hv'] at hallowed
    obtain rfl := of_decide_eq_true hallowed
    rcases Nat.lt_or_gt_of_ne hvt with hlt | hgt
    · rw [(hj.before v hd hlt).runnable] at hrun
      cases hrun
    · rw [(hj.after v hd hgt hv').runnable] at hrun
      cases hrun

/-- What changes when the core goes from the thread `t`, which exits, to `u`. -/
structure Passed (s s' : Scheduler n) (c : Fin n) (t u : Nat) (rest : List Nat) : Prop where
  seqs : s'.seqs = s.seqs
  set : s'.current_pinball_set = s.current_pinball_set
  queue : s'.core_waiting_threads = update s.core_waiting_threads c rest
  next : s'.next_thread_to_execute =
    update s.next_thread_to_execute c (s.next_thread_to_execute c + 1)
  scripts : s'.system.scripts = s.system.scripts
  size : s'.system.m_threads_runnable_size = s.system.m_threads_runnable_size
  threads : s'.system.num_threads = s.system.num_threads
  running : s'.system.m_core_thread_running =
    update s.system.m_core_thread_running c (some u)
  occupant : ∀ d, s'.system.core_thread d = if d = c then some u else s.system.core_thread d
  affinity : ∀ v, (s'.system.m_thread_info v).m_core_affinity =
    (s.system.m_thread_info v).m_core_affinity
  status : (s'.system.thread_state u).status = .RUNNING
  core : s'.system.thread_core u = some c
  gone : Done s'.system t
  kept : ∀ v, v ≠ t → v ≠ u →
    s'.system.thread_state v = s.system.thread_state v ∧
    s'.system.thread_core v = s.system.thread_core v ∧
    s'.system.place v = s.system.place v ∧
    s'.system.m_threads_runnable v = s.system.m_threads_runnable v ∧
    (s'.system.m_thread_info v).m_has_affinity = (s.system.m_thread_info v).m_has_affinity

/-- What changes when a thread has left its core. -/
structure Departed (s s' : System n) (c : Fin n) (t : Nat) : Prop where
  scripts : s'.scripts = s.scripts
  size : s'.m_threads_runnable_size = s.m_threads_runnable_size
  threads : s'.num_threads = s.num_threads
  running : s'.m_core_thread_running = s.m_core_thread_running
  runnable : s'.m_threads_runnable = update s.m_threads_runnable t false
  state : s'.thread_state = update s.thread_state t
    { s.thread_state t with status := .IDLE }
  core : s'.thread_core = update s.thread_core t none
  occupant : s'.core_thread = update s.core_thread c none
  place : s'.place = s.place
  affinity : ∀ v, (s'.m_thread_info v).m_core_affinity = (s.m_thread_info v).m_core_affinity
  has_affinity : ∀ v, (s'.m_thread_info v).m_has_affinity = (s.m_thread_info v).m_has_affinity

theorem departed_spec (s : System n) (c : Fin n) (t : Nat) (time : SubsecondTime) :
    Departed s (departed s t c time) c t :=
  ⟨rfl, rfl, rfl, rfl, rfl, rfl, rfl, rfl, departed_place .., departed_affinity s t c time,
    departed_has_affinity s t c time⟩

theorem passed_of_handedOver {left system rest} (hleft : Departed s.system left c t)
    (h : HandedOver (left.setRunnable u true) system c t u) (htu : t ≠ u) :
    Passed s { ({ s with system := left } : Scheduler n).takeNext c u rest with system := system }
      c t u rest := by
  have hrunnable : system.m_threads_runnable =
      update (update s.system.m_threads_runnable t false) u true := by
    rw [h.runnable, ← hleft.runnable]
    exact update_idem ..
  have hstate : system.thread_state = update left.thread_state u
      { left.thread_state u with status := .RUNNING } := h.state
  have hcore : system.thread_core =
      update (update left.thread_core t none) u (some c) := h.core
  have hoccupant : system.core_thread = update left.core_thread c (some u) := h.occupant
  have hplace : system.place = update (update left.place t none) u (some c) :=
    h.place
  have hothers : ∀ v, v ≠ t → v ≠ u → system.m_thread_info v = left.m_thread_info v := h.others
  refine ⟨rfl, rfl, rfl, rfl, h.scripts.trans hleft.scripts, h.size.trans hleft.size,
    h.threads.trans hleft.threads, ?_, fun d => ?_, fun v => ?_, ?_, ?_,
    ⟨?_, ?_, ?_, ?_⟩, fun v hvt hvu => ⟨?_, ?_, ?_, ?_, ?_⟩⟩
  all_goals dsimp only
  · rw [← hleft.running]
    exact h.running
  · rw [hoccupant, hleft.occupant]
    by_cases hdc : d = c
    · simp [hdc]
    · simp [hdc]
  · exact (h.affinity v).trans (hleft.affinity v)
  · rw [hstate, update_self]
  · rw [hcore, update_self]
  · rw [hstate, update_of_ne htu, hleft.state, update_self]
  · rw [hcore, update_of_ne htu, update_self]
  · rw [hplace, update_of_ne htu, update_self]
  · rw [hrunnable, update_of_ne htu, update_self]
  · rw [hstate, update_of_ne hvu, hleft.state, update_of_ne hvt]
  · rw [hcore, update_of_ne hvu, update_of_ne hvt, hleft.core,
      update_of_ne hvt]
  · rw [hplace, update_of_ne hvu, update_of_ne hvt, hleft.place]
  · rw [hrunnable, update_of_ne hvu, update_of_ne hvt]
  · rw [hothers v hvt hvu]
    exact hleft.has_affinity v

theorem Passed.apart {rest} (h : Passed s s' c t u rest) (hin : InSet sizes c t)
    (hlt : t < s.system.num_threads) (hin' : InSet sizes c u) (hlt' : u < s.system.num_threads) :
    Apart sizes c s s' := by
  refine ⟨h.scripts, h.seqs, h.set, h.threads, Nat.le_of_eq h.size.symm, h.affinity,
    fun d hd => ?_, fun d hd => ?_, fun d hd => ?_, fun d hd => ?_, fun v hv => ?_⟩
  · rw [h.running, update_of_ne hd]
  · rw [h.occupant, if_neg hd]
  · rw [h.queue, update_of_ne hd]
  · rw [h.next, update_of_ne hd]
  · exact h.kept v (fun heq => hv (heq ▸ ⟨hin, hlt⟩)) fun heq => hv (heq ▸ ⟨hin', hlt'⟩)

theorem Turn.pass {rest} (hj : Turn sizes s c t)
    (hqueue : s.core_waiting_threads c = (t + 1) :: rest)
    (hnext : s.next_thread_to_execute c = (t : Int) + 1) (h : Passed s s' c t (t + 1) rest) :
    Turn sizes s' c (t + 1) := by
  have hrest : s'.core_waiting_threads c = rest := by rw [h.queue, update_self]
  obtain ⟨hin, -, hknown⟩ := hj.queued (t + 1) (hqueue ▸ List.mem_cons_self ..)
  have hsorted := hj.sorted
  rw [hqueue, List.pairwise_cons] at hsorted
  refine ⟨hin, h.threads.symm ▸ hknown, ?_, .running h.status h.core ?_ ?_, fun v hv hlt => ?_,
    fun v hv hlt hv' => ?_, ?_, fun v hv => ?_⟩
  · rw [h.running, update_self]
  · rw [h.occupant, if_pos rfl]
  · rw [h.next, update_self, hnext]
    omega
  · rcases Nat.lt_succ_iff_lt_or_eq.mp hlt with hlt | rfl
    · obtain ⟨hstate, hcore, hplace, hrun, -⟩ := h.kept v (by omega) (by omega)
      obtain ⟨hexited, hnone, hnowhere, hrunnable⟩ := hj.before v hv hlt
      exact ⟨hstate ▸ hexited, hcore.trans hnone, hplace.trans hnowhere, hrun.trans hrunnable⟩
    · exact h.gone
  · rw [h.threads] at hv'
    obtain ⟨hstate, hcore, hplace, hrun, -⟩ := h.kept v (by omega) (by omega)
    obtain ⟨hnone, hnowhere, hrunnable, hstage⟩ := hj.after v hv (by omega) hv'
    refine ⟨hcore.trans hnone, hplace.trans hnowhere, hrun.trans hrunnable, ?_⟩
    have hmem : v ∈ (t + 1) :: rest ↔ v ∈ rest := by
      rw [List.mem_cons]
      exact or_iff_right (Nat.ne_of_gt hlt)
    rw [hqueue, hmem] at hstage
    rw [hstate, hrest, h.size]
    exact hstage
  · rw [hrest]
    exact hsorted.2
  · rw [hrest] at hv
    obtain ⟨hin', -, hknown'⟩ := hj.queued v (hqueue ▸ List.mem_cons_of_mem _ hv)
    exact ⟨hin', hsorted.1 v hv, h.threads.symm ▸ hknown'⟩

theorem Fits.turn_of_running (hn : n = sizes.length) (h : Fits sizes s)
    (hcore : s.system.thread_core t ≠ none)
    (hstatus : (s.system.thread_state t).status = .RUNNING) : ∃ c, Turn sizes s c t ∧
      s.system.thread_core t = some c ∧ s.next_thread_to_execute c = (t : Int) + 1 := by
  have hknown : t < s.system.num_threads := by
    by_contra hge
    exact hcore (h.fresh t (Nat.not_lt.mp hge)).2.2.2
  obtain ⟨c, hin⟩ := h.home hn hknown
  obtain ⟨j, hj⟩ := h.turn hin hknown
  rcases Nat.lt_trichotomy t j with hlt | rfl | hgt
  · exact absurd (hj.before t hin hlt).core hcore
  · cases hj.stage with
    | starting status | exited status =>
      rw [hstatus] at status
      cases status
    | running _ core _ next => exact ⟨c, hj, core, next⟩
  · exact absurd (hj.after t hin hgt hknown).core hcore

theorem Turn.mem_of_started (hj : Turn sizes s c t) (hin : InSet sizes c (t + 1))
    (hstarted : s.Started (t + 1)) : t + 1 ∈ s.core_waiting_threads c := by
  rcases (hj.after (t + 1) hin (Nat.lt_succ_self t) hstarted.1).stage with ⟨hinit, -⟩ | ⟨-, hmem, -⟩
  · exact absurd hinit hstarted.2
  · exact hmem

theorem onThreadExit_fits (hn : n = sizes.length) (hsizes : ∀ size ∈ sizes, 1 ≤ size)
    (h : Fits sizes s) (hcore : s.system.thread_core t ≠ none)
    (hstatus : (s.system.thread_state t).status = .RUNNING)
    (hcareful : ∀ set, InSet sizes set t → InSet sizes set (t + 1) → s.Started (t + 1))
    (depth : Nat) (time : SubsecondTime) :
    depth = 0 ∧ onThreadExit (reenter depth) s t time = .error "unfinished" ∨
      ∃ s', onThreadExit (reenter depth) s t time = .ok s' ∧ Fits sizes s' := by
  obtain ⟨c, hj, hcore, hnext⟩ := h.turn_of_running hn hcore hstatus
  have haffinity := h.affinity t c hj.mem hj.created
  have hexit : onThreadExit (reenter depth) s t time = _ :=
    onThreadExit_eq hcore hstatus haffinity
  cases hqueue : s.core_waiting_threads c with
  | nil =>
    rw [hqueue] at hexit
    have hlast : ¬ InSet sizes c (t + 1) := by
      intro hin
      have hmem := hj.mem_of_started hin (hcareful c hj.mem hin)
      rw [hqueue] at hmem
      cases hmem
    exact .inr ⟨_, hexit, (departed_apart hj.mem hj.created time).fits hsizes h
      (.inr ⟨t, hj.exit_last hqueue hlast time⟩)⟩
  | cons u rest =>
    obtain ⟨hinu, htu, hknown⟩ := hj.queued u (hqueue ▸ List.mem_cons_self ..)
    have hin : InSet sizes c (t + 1) := by
      obtain ⟨hle, -⟩ := hj.mem
      obtain ⟨-, hlt⟩ := hinu
      exact ⟨by omega, by omega⟩
    have hmem := hj.mem_of_started hin (hcareful c hj.mem hin)
    have hsorted := hj.sorted
    rw [hqueue] at hmem hsorted
    obtain rfl : t + 1 = u := by
      rcases List.mem_cons.mp hmem with heq | hlater
      · exact heq
      · have hlt := (List.pairwise_cons.mp hsorted).1 _ hlater
        omega
    have hwaiting := hj.after (t + 1) hin htu hknown
    have hstalled : s.system.thread_state (t + 1) = ⟨.STALLED, .STALL_UNSCHEDULED⟩ := by
      rcases hwaiting.stage with ⟨-, hnot⟩ | ⟨hstalled, -⟩
      · exact absurd (hqueue ▸ hmem) hnot
      · exact hstalled
    have hcast : ((t + 1 : Nat) : Int) = s.next_thread_to_execute c := by
      rw [hnext]
      rfl
    have hleft := departed_spec s.system c t time
    generalize departed s.system t c time = left at hexit hleft
    have hplace : (left.setRunnable (t + 1) true).place (t + 1) = none :=
      (congrFun hleft.place _).trans hwaiting.place
    have hchoose : (left.setRunnable (t + 1) true).choose time c = some (t + 1) := by
      refine choose_next hn h hj hqueue hleft.size ?_ hleft.affinity hleft.place
      rw [← hleft.runnable]
      rfl
    have hne : t + 1 ≠ t := Nat.succ_ne_self t
    have hhanding : Handing (left.setRunnable (t + 1) true) c t (t + 1) := by
      refine ⟨hleft.scripts.trans h.scripts, (congrFun hleft.running c).trans hj.running, ?_, ?_,
        ?_, hleft.threads.symm ▸ hknown, ?_, ?_, fun d => ?_⟩
      · change (left.thread_state t).status = _
        rw [hleft.state, update_self]
      · change left.thread_core t = _
        rw [hleft.core, update_self]
      · change left.core_thread c = _
        rw [hleft.occupant, update_self]
      · change left.thread_state (t + 1) = _
        rw [hleft.state, update_of_ne hne, hstalled]
      · change left.thread_core (t + 1) = _
        rw [hleft.core, update_of_ne hne, hwaiting.core]
      · change (left.m_thread_info (t + 1)).m_core_affinity d = _
        rw [hleft.affinity]
        exact h.affinity (t + 1) c hin hknown d
    have hreschedule := reschedule_handing depth hhanding hchoose hplace
    rw [hqueue] at hexit
    dsimp only at hexit
    rw [if_neg (not_not.mpr hcast)] at hexit
    have hstep : onThreadExit (reenter depth) s t time =
        (({ s with system := left } : Scheduler n).takeNext c (t + 1) rest).withSystem
          (reschedule (reenter depth) (left.setRunnable (t + 1) true) time c) := hexit
    rw [hreschedule] at hstep
    by_cases hdepth : depth = 0
    · rw [if_pos hdepth] at hstep
      exact .inl ⟨hdepth, hstep⟩
    · rw [if_neg hdepth] at hstep
      have hpassed : Passed s _ c t (t + 1) rest :=
        passed_of_handedOver hleft (handover_spec time hne hplace) hne.symm
      exact .inr ⟨_, hstep, (hpassed.apart hj.mem hj.created hin hknown).fits hsizes h
        (.inr ⟨t + 1, hj.pass hqueue hnext hpassed⟩)⟩

end Exit

/-! ### Runs -/

section Runs
variable {sizes : List Int} {s s' : Scheduler n}

theorem exec_fits (hn : n = sizes.length) (hsizes : ∀ size ∈ sizes, 1 ≤ size) (h : Fits sizes s)
    {call} (hallowed : Allowed sizes s call) (hcareful : Careful sizes s call) (depth : Nat) :
    depth = 0 ∧ exec (reenter depth) s call = .error "unfinished" ∨
      ∃ s', exec (reenter depth) s call = .ok s' ∧ Fits sizes s' := by
  cases call with
  | createThread => exact .inr (createThread_fits hn hsizes h hallowed)
  | onThreadStart t => exact .inr (onThreadStart_fits hn hsizes h hallowed.1 hallowed.2 hcareful)
  | onThreadExit t time =>
    exact onThreadExit_fits hn hsizes h hallowed.2.1 hallowed.2.2 hcareful depth time

theorem Fits.step (hn : n = sizes.length) (hsizes : ∀ size ∈ sizes, 1 ≤ size) (h : Fits sizes s)
    (hst : CarefulStep sizes s s') : Fits sizes s' := by
  obtain ⟨depth, call, hallowed, hcareful, hs⟩ := hst
  rcases exec_fits hn hsizes h hallowed hcareful depth with ⟨-, herror⟩ | ⟨s₁, hok, hfits⟩
  · rw [hs] at herror
    cases herror
  · rw [hs] at hok
    cases hok
    exact hfits

theorem Turn.le_of_ran {c j t} (hj : Turn sizes s c j) (hin : InSet sizes c t)
    (hknown : t < s.system.num_threads) (hran : s.system.thread_core t ≠ none ∨ s.Exited t) :
    t ≤ j := by
  by_contra hlt
  have hwaiting := hj.after t hin (Nat.not_le.mp hlt) hknown
  rcases hran with hcore | ⟨-, hexited⟩
  · exact hcore hwaiting.core
  · rcases hwaiting.stage with ⟨hinit, -⟩ | ⟨hstalled, -⟩
    · rw [hinit] at hexited
      cases hexited
    · rw [hstalled] at hexited
      cases hexited

theorem Fits.turn_of_core (hn : n = sizes.length) (h : Fits sizes s) {c t}
    (hcore : s.system.thread_core t = some c) : Turn sizes s c t := by
  have hknown : t < s.system.num_threads := by
    by_contra hge
    rw [(h.fresh t (Nat.not_lt.mp hge)).2.2.2] at hcore
    cases hcore
  obtain ⟨d, hin⟩ := h.home hn hknown
  obtain ⟨j, hj⟩ := h.turn hin hknown
  have hne : s.system.thread_core t ≠ none := by rw [hcore]; nofun
  rcases Nat.lt_or_eq_of_le (hj.le_of_ran hin hknown (.inl hne)) with hlt | rfl
  · exact absurd (hj.before t hin hlt).core hne
  · have hd : s.system.thread_core t = some d := by
      cases hj.stage with
      | starting _ core | running _ core => exact core
      | exited _ core => exact absurd core hne
    rw [hcore] at hd
    obtain rfl := Option.some.inj hd
    exact hj

theorem Fits.right (hn : n = sizes.length) (h : Fits sizes s) : Right sizes s := by
  refine ⟨fun t c hcore => (h.turn_of_core hn hcore).mem, fun t u c ht hu => ?_,
    fun t u c ht htu hu => ?_, fun t c ht hsucc hexited hstarted => ?_⟩
  · have hrunning := (h.turn_of_core hn ht).running.symm.trans (h.turn_of_core hn hu).running
    exact Option.some.inj hrunning
  · obtain ⟨j, hj, huj⟩ : ∃ j, Turn sizes s c j ∧ u ≤ j := by
      rcases hu with hcore | ⟨hin, hexited⟩
      · exact ⟨u, h.turn_of_core hn hcore, Nat.le_refl u⟩
      · obtain ⟨j, hj⟩ := h.turn hin hexited.1
        exact ⟨j, hj, hj.le_of_ran hin hexited.1 (.inr hexited)⟩
    have htj : t < j := Nat.lt_of_lt_of_le htu huj
    exact ⟨Nat.lt_trans htj hj.created, (hj.before t ht htj).exited⟩
  · obtain ⟨j, hj⟩ := h.turn ht hexited.1
    have htj : t ≠ j := by
      rintro rfl
      obtain ⟨-, hidle⟩ := hexited
      cases hj.stage with
      | starting status | running status =>
        rw [hidle] at status
        cases status
      | exited _ _ _ _ last => exact last hsucc
    have hlt : t < j := Nat.lt_of_le_of_ne (hj.le_of_ran ht hexited.1 (.inr hexited)) htj
    rcases Nat.lt_or_eq_of_le (Nat.succ_le_of_lt hlt) with hbefore | hthis
    · exact .inr ⟨hstarted.1, (hj.before (t + 1) hsucc hbefore).exited⟩
    · change t + 1 = j at hthis
      subst hthis
      cases hj.stage with
      | starting status => exact absurd status hstarted.2
      | running _ core => exact .inl core
      | exited status => exact .inr ⟨hstarted.1, status⟩

/-- The constructor takes as many cores as sets. From then on, when no thread exits before the next
one of its set has started, every call returns, and each core runs its set in order. -/
theorem sequence_runs (hsizes : ∀ size ∈ sizes, 1 ≤ size) :
    ((∃ s : Scheduler n, constructor n sizes = .ok s) ↔ n = sizes.length) ∧
    ∀ s₀ s : Scheduler n, constructor n sizes = .ok s₀ →
      Reachable (fun s => s = s₀) (CarefulStep sizes) s →
      Right sizes s ∧ ∀ call, Allowed sizes s call → Careful sizes s call →
        ∃ s', exec (reenter 1) s call = .ok s' := by
  refine ⟨constructor_ok_iff, fun s₀ s hs₀ hreach => ?_⟩
  have hn := constructor_ok_iff.mp ⟨s₀, hs₀⟩
  have hfits : Fits sizes s := by
    refine hreach.invariant (fun s hs => ?_) fun _ _ h hst => h.step hn hsizes hst
    exact hs ▸ constructor_fits hsizes hs₀
  refine ⟨hfits.right hn, fun call hallowed hcareful => ?_⟩
  rcases exec_fits hn hsizes hfits hallowed hcareful 1 with ⟨hzero, -⟩ | ⟨s', hs', -⟩
  · cases hzero
  · exact ⟨s', hs'⟩

/-- Two cores: the second thread has the first core once the first one has exited. -/
theorem sequence_runs_two :
    ∃ s : Scheduler 2, s.system.thread_core 1 = some 0 ∧ Right [2, 1] s := by
  have h0 : Reachable (fun s => s = constructed 2 [2, 1] [0, 2]) (CarefulStep [2, 1]) _ :=
    .init rfl
  have h1 := h0.step ⟨1, .createThread, by decide, trivial, rfl⟩
  have h2 := h1.step ⟨1, .createThread, by decide, trivial, rfl⟩
  have h3 := h2.step ⟨1, .createThread, by decide, trivial, rfl⟩
  have h4 := h3.step ⟨1, .onThreadStart 0, by decide, (by simp : 0 < 16 + 16), rfl⟩
  have h5 := h4.step ⟨1, .onThreadStart 1, by decide, (by simp : 1 < 16 + 16), rfl⟩
  generalize hs : Scheduler.setStarted _ _ = s at h5
  obtain ⟨s', hs', hcore⟩ : ∃ s', exec (reenter 1) s (.onThreadExit 0 100) = .ok s' ∧
      s'.system.thread_core 1 = some 0 :=
    exists_of_toOption (by rw [← hs]; decide +kernel)
  have hallowed : Allowed [2, 1] s (.onThreadExit 0 100) := by rw [← hs]; decide +kernel
  have hstarted : s.Started 1 := by rw [← hs]; decide +kernel
  have h6 := h5.step ⟨1, .onThreadExit 0 100, hallowed, fun _ _ _ => hstarted, hs'⟩
  exact ⟨s', hcore, ((sequence_runs (by decide)).2 _ s' rfl h6).1⟩

/-- Two cores but one set; and a first thread that exits before the second one starts. -/
theorem sequence_stranded :
    (constructor 2 [1] : Except String (Scheduler 2)) = .error "vector::_M_range_check" ∧
    ∃ s₀ s : Scheduler 1, constructor 1 [2] = .ok s₀ ∧ Reachable (fun s => s = s₀) (Step [2]) s ∧
      s.Exited 0 ∧ s.Started 1 ∧ s.core_waiting_threads 0 = [1] ∧ s.system.thread_core 1 = none ∧
      ∀ s', ¬ Step [2] s s' := by
  have h0 : Reachable (fun s => s = constructed 1 [2] [0]) (Step [2]) _ := .init rfl
  have h1 := h0.step ⟨1, .createThread, by decide, rfl⟩
  have h2 := h1.step ⟨1, .createThread, by decide, rfl⟩
  have h3 := h2.step ⟨1, .onThreadStart 0, by decide, rfl⟩
  have h4 := h3.step ⟨1, .onThreadExit 0 100, by decide, rfl⟩
  have h5 := h4.step ⟨1, .onThreadStart 1, by decide, rfl⟩
  refine ⟨rfl, constructed 1 [2] [0], _, rfl, h5, by decide +kernel, by decide +kernel,
    by decide +kernel, by decide +kernel, ?_⟩
  rintro s' ⟨depth, call, hallowed, -⟩
  generalize hs : Scheduler.setStarted _ _ = s at hallowed
  have hthreads : s.system.num_threads = 2 := by rw [← hs]; decide +kernel
  have hstarted : ∀ t < 2, (s.system.thread_state t).status ≠ .INITIALIZING := by
    rw [← hs]; decide +kernel
  have hnowhere : ∀ t < 2, s.system.thread_core t = none := by rw [← hs]; decide +kernel
  cases call with
  | createThread =>
    have hlt : (s.system.num_threads : Int) < 2 := hallowed
    omega
  | onThreadStart t => exact hstarted t (hthreads ▸ hallowed.1) hallowed.2
  | onThreadExit t time => exact hallowed.2.1 (hnowhere t (hthreads ▸ hallowed.1))

end Runs

end Sniper.Threads.Sequential
