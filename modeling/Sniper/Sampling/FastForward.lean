import Sniper.Lib.Simulation
import Sniper.Threads.Manager

/-! # The end of fast-forward mode

`SamplingManager::disableFastForward` looks for the cores that are furthest ahead by asking whether
the thread with the number of the core is running. In uncoordinated mode every core is then moved to
the time found in this way, by a difference without sign.
-/
namespace Sniper.Sampling.FastForward
open Lib.Simulation Threads Function

/-- The performance model of a core, with its fast-forward model. -/
structure PerformanceModel where
  m_elapsed_time : UInt64
  m_fastforward : Bool
  m_detailed_sync : Bool
  m_fastforwarded_time : UInt64
  m_cpiBase : UInt64

namespace PerformanceModel
variable (perf : PerformanceModel)

def setFastForward (fastforward detailed_sync : Bool) : PerformanceModel :=
  if perf.m_fastforward = fastforward then perf
  else { perf with m_fastforward := fastforward, m_detailed_sync := detailed_sync }

/-- `FastforwardPerformanceModel::incrementElapsedTime`. -/
def incrementElapsedTime (latency : UInt64) : PerformanceModel :=
  { perf with
    m_fastforwarded_time := perf.m_fastforwarded_time + latency
    m_cpiBase := perf.m_cpiBase + latency
    m_elapsed_time := perf.m_elapsed_time + latency }

end PerformanceModel

structure Core where
  perf : PerformanceModel
  m_instructions_callback : UInt64

def Core.disableInstructionsCallback (core : Core) : Core :=
  { core with m_instructions_callback := -1 }

/-- The sampling manager, the cores, and the threads with the cores they are on. -/
structure Machine (n : Nat) where
  m_fastforward : Bool
  m_warmup : Bool
  m_uncoordinated : Bool
  core : Fin n → Core
  m_thread_state : List ThreadState
  thread_core : Nat → Option (Fin n)

variable {n : Nat}

/-- `ThreadManager::isThreadRunning`. -/
def isThreadRunning (m_thread_state : List ThreadState) (thread_id : Nat) : Except String Bool :=
  match m_thread_state[thread_id]? with
  | some state => .ok (state.status = .RUNNING)
  | none => .error "m_thread_state is indexed outside its bounds"

/-- What the first loop changes. -/
structure Search (n : Nat) where
  core : Fin n → Core
  barrier_next : UInt64
  core_last : UInt64

/-- One core of the first loop. -/
def visit (m_thread_state : List ThreadState) (s : Search n) (core_id : Fin n) :
    Except String (Search n) := do
  let core := { s.core core_id with perf := (s.core core_id).perf.setFastForward false true }
  let core := core.disableInstructionsCallback
  let s := { s with core := update s.core core_id core }
  if ← isThreadRunning m_thread_state core_id then
    return { s with
      barrier_next := max s.barrier_next core.perf.m_elapsed_time
      core_last := min s.core_last core.perf.m_elapsed_time }
  else return s

/-- The second loop: all cores get the same time. -/
def alignTimes (barrier_next : UInt64) (core : Fin n → Core) (core_id : Fin n) : Core :=
  let perf := (core core_id).perf
  { core core_id with perf := perf.incrementElapsedTime (barrier_next - perf.m_elapsed_time) }

/-- `disableFastForward`, with the time that the barrier is given. -/
def disableFastForward (m : Machine n) : Except String (Machine n × UInt64) := do
  let s ← (List.finRange n).foldlM (visit m.m_thread_state) ⟨m.core, 0, -1⟩
  let core := if m.m_uncoordinated then alignTimes s.barrier_next s.core else s.core
  return ({ m with m_fastforward := false, m_warmup := false, core := core }, s.barrier_next)

/-! ### What the end should do -/

def Machine.elapsed (m : Machine n) (core_id : Fin n) : UInt64 := (m.core core_id).perf.m_elapsed_time

/-- A thread is running on the core. -/
def Machine.Busy (m : Machine n) (core_id : Fin n) : Prop :=
  ∃ thread_id state, m.m_thread_state[thread_id]? = some state ∧ state.status = .RUNNING ∧
    m.thread_core thread_id = some core_id

/-- The threads that are asked for exist, no core goes back in time, and the barrier does not start
before a core that is in use. -/
def LeavesForward (m : Machine n) : Prop :=
  ∃ m' barrier_next, disableFastForward m = .ok (m', barrier_next) ∧
    (∀ c, m.elapsed c ≤ m'.elapsed c) ∧ ∀ c, m.Busy c → m.elapsed c ≤ barrier_next

/-- The thread with the number of the core is running. -/
def Machine.NamesRunning (m : Machine n) (core_id : Fin n) : Prop :=
  ∃ state, m.m_thread_state[core_id.val]? = some state ∧ state.status = .RUNNING

/-- Every core has a thread of its number, and no core that matters is ahead of all cores whose
threads of that number are running. -/
structure Covered (m : Machine n) : Prop where
  threads : n ≤ m.m_thread_state.length
  ahead : ∀ c, m.Busy c ∨ m.m_uncoordinated = true → m.elapsed c = 0 ∨
    ∃ c', m.NamesRunning c' ∧ m.elapsed c ≤ m.elapsed c'

/-! ### The search -/

def Search.elapsed (s : Search n) (core_id : Fin n) : UInt64 := (s.core core_id).perf.m_elapsed_time

/-- What a part of the search over the cores `l` leads to. -/
structure Searched (m : Machine n) (l : List (Fin n)) (s s' : Search n) : Prop where
  threads : ∀ c ∈ l, c.val < m.m_thread_state.length
  elapsed : s'.elapsed = s.elapsed
  barrier_next : ∀ time, time ≤ s'.barrier_next ↔
    time ≤ s.barrier_next ∨ ∃ c ∈ l, m.NamesRunning c ∧ time ≤ s.elapsed c

theorem setFastForward_elapsed (perf : PerformanceModel) (fastforward detailed_sync : Bool) :
    (perf.setFastForward fastforward detailed_sync).m_elapsed_time = perf.m_elapsed_time := by
  rw [PerformanceModel.setFastForward]
  split <;> rfl

theorem le_max_time (time a b : UInt64) : time ≤ max a b ↔ time ≤ a ∨ time ≤ b := by
  change time ≤ (if a ≤ b then b else a) ↔ _
  simp only [UInt64.le_iff_toNat_le]
  split <;> omega

variable {m : Machine n} {s s' : Search n}

theorem visit_searched {c} (h : visit m.m_thread_state s c = .ok s') :
    Searched m [c] s s' := by
  obtain ⟨running, hrunning, h⟩ := of_bind_ok h
  rw [isThreadRunning] at hrunning
  split at hrunning
  · next state hstate =>
    cases hrunning
    have helapsed : ∀ d, (update s.core c
        { (s.core c) with
          perf := (s.core c).perf.setFastForward false true
          m_instructions_callback := -1 } d).perf.m_elapsed_time = s.elapsed d := by
      intro d
      by_cases hd : d = c
      · subst hd
        rw [update_self]
        exact setFastForward_elapsed _ _ _
      · rw [update_of_ne hd]
        rfl
    have hnames : m.NamesRunning c ↔ state.status = .RUNNING := by
      simp [Machine.NamesRunning, hstate]
    refine ⟨fun d hd => ?_, ?_, fun time => ?_⟩
    · rw [List.mem_singleton.mp hd]
      exact (List.getElem?_eq_some_iff.mp hstate).1
    · split at h <;> cases h <;> exact funext helapsed
    · simp only [List.mem_singleton, exists_eq_left, hnames]
      split at h
      · next hrun =>
        cases h
        have htime : ((s.core c).perf.setFastForward false true).m_elapsed_time = s.elapsed c :=
          setFastForward_elapsed _ _ _
        simp only [Core.disableInstructionsCallback, htime, le_max_time, of_decide_eq_true hrun,
          true_and]
      · next hrun =>
        cases h
        simp_all
  · cases hrunning

theorem visit_total {c} (hc : c.val < m.m_thread_state.length) :
    ∃ s', visit m.m_thread_state s c = .ok s' := by
  rw [visit, isThreadRunning, List.getElem?_eq_getElem hc]
  simp only [bind, Except.bind]
  split <;> exact ⟨_, rfl⟩

theorem search_searched (l : List (Fin n)) (h : l.foldlM (visit m.m_thread_state) s = .ok s') :
    Searched m l s s' := by
  induction l generalizing s with
  | nil =>
    cases h
    exact ⟨nofun, rfl, fun time => by simp⟩
  | cons c l ih =>
    obtain ⟨s₁, h₁, h⟩ := of_bind_ok h
    have hone := visit_searched h₁
    have hrest := ih h
    refine ⟨List.forall_mem_cons.mpr ⟨hone.threads c List.mem_cons_self, hrest.threads⟩,
      hrest.elapsed.trans hone.elapsed, fun time => ?_⟩
    rw [hrest.barrier_next, hone.barrier_next, hone.elapsed]
    simp [or_assoc]

theorem search_total (l : List (Fin n)) (h : ∀ c ∈ l, c.val < m.m_thread_state.length) :
    ∃ s', l.foldlM (visit m.m_thread_state) s = .ok s' := by
  induction l generalizing s with
  | nil => exact ⟨s, rfl⟩
  | cons c l ih =>
    obtain ⟨s₁, h₁⟩ := visit_total (s := s) (h c List.mem_cons_self)
    obtain ⟨s', hs'⟩ := ih (s := s₁) fun d hd => h d (List.mem_cons_of_mem c hd)
    refine ⟨s', ?_⟩
    rw [List.foldlM_cons, h₁]
    exact hs'

/-! ### The end of fast-forward mode -/

theorem alignTimes_elapsed (barrier_next : UInt64) (core : Fin n → Core) (c : Fin n) :
    (alignTimes barrier_next core c).perf.m_elapsed_time = barrier_next := by
  rw [alignTimes, PerformanceModel.incrementElapsedTime]
  rw [UInt64.add_comm]
  exact UInt64.sub_add_cancel _ _

/-- **The end of fast-forward mode is as it should be just if the cores whose numbers are running
threads are those that are furthest ahead.** -/
theorem disableFastForward_forward_iff (m : Machine n) : LeavesForward m ↔ Covered m := by
  have hzero : ∀ time : UInt64, time ≤ 0 ↔ time = 0 := by
    intro time
    rw [UInt64.le_iff_toNat_le, ← UInt64.toNat_inj]
    exact Nat.le_zero
  constructor
  · rintro ⟨m', barrier_next, h, hforward, hbusy⟩
    obtain ⟨s, hs, h⟩ := of_bind_ok h
    have hsearched := search_searched _ hs
    cases h
    have hbarrier : ∀ c, m.elapsed c ≤ s.barrier_next → m.elapsed c = 0 ∨
        ∃ c', m.NamesRunning c' ∧ m.elapsed c ≤ m.elapsed c' := by
      intro c hle
      rcases (hsearched.barrier_next _).mp hle with hle | ⟨c', -, hnames, hle⟩
      · exact .inl ((hzero _).mp hle)
      · exact .inr ⟨c', hnames, hle⟩
    refine ⟨?_, fun c hc => hbarrier c ?_⟩
    · by_contra hlt
      exact absurd (hsearched.threads ⟨m.m_thread_state.length, Nat.lt_of_not_le hlt⟩
        (List.mem_finRange _)) (lt_irrefl _)
    · rcases hc with hc | huncoordinated
      · exact hbusy c hc
      · have hle := hforward c
        simpa [Machine.elapsed, huncoordinated, alignTimes_elapsed] using hle
  · rintro ⟨hthreads, hahead⟩
    obtain ⟨s, hs⟩ := search_total (m := m) (s := ⟨m.core, 0, -1⟩) (List.finRange n)
      fun c _ => c.isLt.trans_le hthreads
    have hsearched := search_searched _ hs
    have hbarrier : ∀ c, m.Busy c ∨ m.m_uncoordinated = true → m.elapsed c ≤ s.barrier_next := by
      intro c hc
      refine (hsearched.barrier_next _).mpr ?_
      rcases hahead c hc with hc0 | ⟨c', hnames, hle⟩
      · exact .inl ((hzero _).mpr hc0)
      · exact .inr ⟨c', List.mem_finRange c', hnames, hle⟩
    refine ⟨_, _, by rw [disableFastForward, hs]; rfl, fun c => ?_, fun c hc => hbarrier c (.inl hc)⟩
    cases huncoordinated : m.m_uncoordinated with
    | true => simpa [Machine.elapsed, alignTimes_elapsed] using hbarrier c (.inr huncoordinated)
    | false =>
      have hsame : (s.core c).perf.m_elapsed_time = m.elapsed c := congrFun hsearched.elapsed c
      simp [Machine.elapsed, hsame]

theorem disableFastForward_forward_iff_two : LeavesForward
    ({ m_fastforward := true, m_warmup := false, m_uncoordinated := true,
       core := fun _ => ⟨⟨1000, true, false, 0, 0⟩, 500⟩,
       m_thread_state := [⟨.RUNNING, .STALL_UNSCHEDULED⟩, ⟨.RUNNING, .STALL_UNSCHEDULED⟩],
       thread_core := fun t => if t = 0 then some 1 else some 0 } : Machine 2) :=
  (disableFastForward_forward_iff _).mpr ⟨by decide, fun c _ => .inr ⟨0, ⟨_, rfl, rfl⟩, UInt64.le_refl _⟩⟩

open scoped Lib.Sizes

/-- Thread 0 runs on core 1 at 2000, and core 0 is at 1000. -/
def crossed : Machine 2 where
  m_fastforward := true
  m_warmup := false
  m_uncoordinated := true
  core c := ⟨⟨if c = 0 then 1000 else 2000, true, false, 0, 0⟩, 500⟩
  m_thread_state := [⟨.RUNNING, .STALL_UNSCHEDULED⟩, ⟨.STALLED, .STALL_UNSCHEDULED⟩]
  thread_core t := if t = 0 then some 1 else none

theorem core_moved_back : crossed.Busy 1 ∧ crossed.elapsed 1 = 2000 ∧
    (∃ m', disableFastForward crossed = .ok (m', 1000) ∧ m'.elapsed 1 = 1000) ∧
    ¬ LeavesForward crossed := by
  have hback : ∃ m', disableFastForward crossed = .ok (m', 1000) ∧ m'.elapsed 1 = 1000 :=
    ⟨_, rfl, rfl⟩
  refine ⟨⟨0, _, rfl, rfl, rfl⟩, rfl, hback, fun ⟨m', barrier_next, h, hforward, _⟩ => ?_⟩
  obtain ⟨m'', h', hto⟩ := hback
  have hsame : m' = m'' := (Prod.mk.inj (Except.ok.inj (h.symm.trans h'))).1
  have hle := hforward 1
  rw [hsame, hto] at hle
  exact absurd hle (by decide)

end Sniper.Sampling.FastForward
