import Sniper.Lib.Simulation
import Sniper.Threads.Manager

/-! # Scheduler tables

`SchedulerDynamic` keeps `m_threads_runnable`, which grows when threads start, and
`SchedulerPinnedBase` keeps `m_thread_info`, which grows when they are created or given an
affinity. Each table is indexed with ids that only the other was grown for.
-/
namespace Sniper.Threads.Bounds
open Lib.Simulation Function

/-- The tables; `started` is for the statements. -/
structure Tables where
  m_threads_runnable_size : Nat
  m_thread_info_size : Nat
  m_threads_runnable : Nat → Bool
  m_core_thread_running : Nat → Option Nat
  num_threads : Nat
  started : Nat → Bool

inductive Call where
  | threadCreate (core_id : Option Nat)
  | threadStart (thread_id : Nat)
  | threadStall (thread_id : Nat) (reason : StallType)
  | threadResume (thread_id : Nat)
  | threadExit (thread_id : Nat)
  | threadYield (thread_id : Nat)
  /-- `misplaced`: the thread runs, and not where its new affinity allows. -/
  | threadSetAffinity (calling_thread_id : Option Nat) (thread_id : Nat) (misplaced : Bool)
  | periodic

inductive Access where
  | runnable (thread_id : Nat)
  | info (thread_id : Nat)

/-- A run of `reschedule` for a core, with the thread that the scores choose. -/
structure Pass where
  core_id : Nat
  best : Option Nat

namespace Tables
variable (s : Tables)

def create (core_id : Option Nat) : Tables :=
  let size := s.m_thread_info_size
  { s with
    m_thread_info_size := if size ≤ s.num_threads then size + 16 else size
    m_core_thread_running :=
      match core_id with
      | some c => update s.m_core_thread_running c (some s.num_threads)
      | none => s.m_core_thread_running
    num_threads := s.num_threads + 1 }

def start (thread_id : Nat) : Tables :=
  let size := s.m_threads_runnable_size
  { s with
    m_threads_runnable_size := if size ≤ thread_id then size + 16 else size
    m_threads_runnable := update s.m_threads_runnable thread_id true
    started := update s.started thread_id true }

def setRunnable (thread_id : Nat) (runnable : Bool) : Tables :=
  { s with m_threads_runnable := update s.m_threads_runnable thread_id runnable }

/-- What a call does to the tables before it reschedules. -/
def enter : Call → Tables
  | .threadCreate core_id => s.create core_id
  | .threadStart thread_id => s.start thread_id
  | .threadStall thread_id reason =>
    if reason = .STALL_UNSCHEDULED then s else s.setRunnable thread_id false
  | .threadResume thread_id => s.setRunnable thread_id true
  | .threadExit thread_id => s.setRunnable thread_id false
  | .threadSetAffinity _ thread_id _ =>
    let size := s.m_thread_info_size
    { s with m_thread_info_size := if size ≤ thread_id then thread_id + 16 else size }
  | .threadYield _ | .periodic => s

/-- The entries that a call reads or writes itself, once the tables have grown. -/
def touched : Call → List Access
  | .threadCreate _ => [.info s.num_threads]
  | .threadStart t | .threadResume t | .threadExit t => [.runnable t, .info t]
  | .threadStall t reason =>
    if reason = .STALL_UNSCHEDULED then [] else [.runnable t, .info t]
  | .threadYield t => [.info t]
  | .threadSetAffinity caller t misplaced =>
    .info t ::
      if t < s.num_threads ∧ caller ≠ some t ∧ misplaced = false then [.runnable t] else []
  | .periodic => []

/-- The call can come to `reschedule`. -/
def reschedules : Call → Bool
  | .threadCreate _ => false
  | .threadStall _ reason => reason ≠ .STALL_UNSCHEDULED
  | .threadSetAffinity _ t _ => t < s.num_threads
  | _ => true

/-- The thread chosen is one that the loop of `reschedule` finds, and is runnable. -/
def new_thread_id (p : Pass) : Option Nat :=
  p.best.filter fun t => t < s.m_threads_runnable_size && s.m_threads_runnable t

/-- The entries of a run of `reschedule`: the loop, the thread that leaves, and the one that comes,
whose wake-up may be reported to `__threadResume`. -/
def scanned (p : Pass) : List Access :=
  (List.range s.m_threads_runnable_size).flatMap (fun t => [.info t, .runnable t]) ++
    (s.m_core_thread_running p.core_id).toList.map .info ++
    (s.new_thread_id p).toList.flatMap fun t => [.info t, .runnable t]

def reschedule (p : Pass) : Tables :=
  { s with
    m_core_thread_running :=
      update s.m_core_thread_running p.core_id (s.new_thread_id p) }

def scans : Tables → List Pass → List Access
  | _, [] => []
  | s, p :: passes => s.scanned p ++ scans (s.reschedule p) passes

/-- All entries of a call that reschedules so often. -/
def accesses (call : Call) (passes : List Pass) : List Access :=
  s.touched call ++ if s.reschedules call then scans (s.enter call) passes else []

def exec (call : Call) (passes : List Pass) : Tables :=
  if s.reschedules call then passes.foldl reschedule (s.enter call) else s.enter call

def Within : Access → Prop
  | .runnable t => t < s.m_threads_runnable_size
  | .info t => t < s.m_thread_info_size

/-- No access of the call is outside its table, whatever is decided on the way. -/
def InBounds (call : Call) : Prop :=
  ∀ passes, ∀ a ∈ s.accesses call passes, (s.enter call).Within a

/-- The calls that can come: a thread is created before it starts, and starts before it does
anything else. -/
def Permitted : Call → Prop
  | .threadStart t => t < s.num_threads
  | .threadStall t _ | .threadResume t | .threadExit t | .threadYield t => s.started t
  | .periodic => 0 < s.num_threads
  | .threadCreate _ | .threadSetAffinity _ _ _ => True

/-- A thread starts at most 16 entries behind the end of a table, and the other table is as long as
this one becomes; another thread's affinity is set before it is created or when it has an entry. -/
def Careful : Call → Prop
  | .threadStart t =>
    t < s.m_threads_runnable_size + 16 ∧
      (s.m_threads_runnable_size ≤ t → s.m_threads_runnable_size + 16 ≤ s.m_thread_info_size)
  | .threadSetAffinity caller t misplaced =>
    t < s.num_threads → caller ≠ some t → misplaced = false → t < s.m_threads_runnable_size
  | _ => True

/-- After the constructors. -/
def initial : Tables := ⟨16, 0, fun _ => false, fun _ => none, 0, fun _ => false⟩

def CarefulStep (s s' : Tables) : Prop :=
  ∃ call passes, s.Permitted call ∧ s.Careful call ∧ s' = s.exec call passes

/-! ### Runs -/

/-- What the careful calls keep. -/
structure Covered : Prop where
  created : s.num_threads ≤ s.m_thread_info_size
  scanned : 0 < s.num_threads → s.m_threads_runnable_size ≤ s.m_thread_info_size
  unused : s.num_threads = 0 → s.m_threads_runnable_size = 16
  info : s.m_thread_info_size = 0 ∨ 16 ≤ s.m_thread_info_size
  started : ∀ t, s.started t → t < s.num_threads ∧ t < s.m_threads_runnable_size
  runnable : ∀ t, s.m_threads_runnable t → s.started t
  running : ∀ c t, s.m_core_thread_running c = some t → t < s.num_threads

variable {s} {call : Call}

theorem Covered.new_thread {p t} (hs : s.Covered) (h : s.new_thread_id p = some t) :
    t < s.num_threads ∧ t < s.m_threads_runnable_size := by
  obtain ⟨-, ht⟩ := Option.filter_eq_some_iff.mp h
  simp only [Bool.and_eq_true, decide_eq_true_eq] at ht
  exact hs.started t (hs.runnable t ht.2)

theorem Covered.setRunnable {t runnable} (hs : s.Covered) (ht : s.started t) :
    (s.setRunnable t runnable).Covered :=
  { hs with
    runnable := fun u hu => by
      by_cases h : u = t
      · exact h ▸ ht
      · exact hs.runnable u (by simpa [Tables.setRunnable, h] using hu) }

theorem Covered.create {core_id} (hs : s.Covered) : (s.create core_id).Covered := by
  have hcreated := hs.created
  have hinfo := hs.info
  refine ⟨?_, fun _ => ?_, by simp [Tables.create], ?_, fun t ht => ?_, hs.runnable, ?_⟩
  · simp only [Tables.create]; split <;> omega
  · have hscanned := hs.scanned
    have hunused := hs.unused
    simp only [Tables.create]; split <;> omega
  · simp only [Tables.create]; split <;> omega
  · exact ⟨Nat.lt_succ_of_lt (hs.started t ht).1, (hs.started t ht).2⟩
  · intro c t h
    have hold := hs.running c t
    cases core_id with
    | none => exact Nat.lt_succ_of_lt (hold h)
    | some d =>
      simp only [Tables.create, update] at h ⊢
      grind

theorem Covered.start {t} (hs : s.Covered) (ht : t < s.num_threads)
    (hcareful : s.Careful (.threadStart t)) : (s.start t).Covered := by
  have hscanned := hs.scanned
  obtain ⟨hlt, hgrown⟩ := hcareful
  refine ⟨hs.created, fun _ => ?_, fun h => ?_, hs.info, fun u hu => ?_, fun u hu => ?_, hs.running⟩
  · simp only [Tables.start]; split <;> omega
  · simp only [Tables.start] at h; omega
  · have hold := hs.started u
    simp only [Tables.start, update] at hu ⊢
    grind
  · have hold := hs.runnable u
    simp only [Tables.start, update] at hu ⊢
    grind

theorem Covered.enter (hs : s.Covered) (hp : s.Permitted call) (hc : s.Careful call) :
    (s.enter call).Covered := by
  cases call with
  | threadCreate core_id => exact hs.create
  | threadStart t => exact hs.start hp hc
  | threadStall t reason =>
    simp only [Tables.enter]
    split
    · exact hs
    · exact hs.setRunnable hp
  | threadResume t | threadExit t => exact hs.setRunnable hp
  | threadYield t | periodic => exact hs
  | threadSetAffinity caller t misplaced =>
    obtain ⟨hcreated, hscanned, hunused, hinfo, hstarted, hrunnable, hrunning⟩ := hs
    refine ⟨?_, fun h => ?_, hunused, ?_, hstarted, hrunnable, hrunning⟩ <;>
      simp only [Tables.enter] at * <;> split <;> omega

theorem Covered.reschedule {p} (hs : s.Covered) : (s.reschedule p).Covered :=
  { hs with
    running := fun c t h => by
      by_cases hc : c = p.core_id
      · exact (hs.new_thread (by simpa [Tables.reschedule, hc] using h)).1
      · exact hs.running c t (by simpa [Tables.reschedule, hc] using h) }

theorem Covered.step {s'} (hs : s.Covered) (h : CarefulStep s s') : s'.Covered := by
  obtain ⟨call, passes, hp, hc, rfl⟩ := h
  have henter := hs.enter hp hc
  unfold exec
  split
  · exact List.foldlRecOn passes _ henter fun _ h _ _ => h.reschedule
  · exact henter

theorem covered (h : Reachable (· = initial) CarefulStep s) : s.Covered :=
  h.invariant (fun _ h => h ▸ ⟨by decide, by decide, fun _ => rfl, .inl rfl, by simp [initial],
    by simp [initial], by simp [initial]⟩) fun _ _ => .step

/-! ### Accesses -/

theorem Covered.scanned_within {p a} (hs : s.Covered) (hpos : 0 < s.num_threads)
    (ha : a ∈ s.scanned p) : s.Within a := by
  have hle := hs.scanned hpos
  simp only [Tables.scanned, List.mem_append, List.mem_flatMap, List.mem_map, Option.mem_toList,
    List.mem_range, List.mem_cons, List.not_mem_nil, or_false] at ha
  obtain (⟨t, ht, rfl | rfl⟩ | ⟨t, ht, rfl⟩) | ⟨t, ht, rfl | rfl⟩ := ha
  · exact Nat.lt_of_lt_of_le ht hle
  · exact ht
  · exact Nat.lt_of_lt_of_le (hs.running _ t ht) hs.created
  · exact Nat.lt_of_lt_of_le (hs.new_thread ht).1 hs.created
  · exact (hs.new_thread ht).2

theorem Covered.scans_within {passes a} (hs : s.Covered) (hpos : 0 < s.num_threads)
    (ha : a ∈ scans s passes) : s.Within a := by
  induction passes generalizing s with
  | nil => cases ha
  | cons p passes ih =>
    obtain ha | ha := List.mem_append.mp ha
    · exact hs.scanned_within hpos ha
    · have h := ih (s := s.reschedule p) hs.reschedule hpos ha
      cases a <;> exact h

theorem Covered.touched_within {a} (hs : s.Covered) (hp : s.Permitted call) (hc : s.Careful call)
    (ha : a ∈ s.touched call) : (s.enter call).Within a := by
  have hcreated := hs.created
  cases call with
  | threadCreate core_id =>
    obtain rfl : a = .info s.num_threads := by simpa [touched] using ha
    exact hs.create.created
  | threadStart t =>
    obtain ⟨hlt, -⟩ := hc
    have ht : t < s.num_threads := hp
    obtain rfl | rfl : a = .runnable t ∨ a = .info t := by simpa [touched] using ha
    · simp only [Tables.enter, Tables.start, Within]; split <;> omega
    · exact Nat.lt_of_lt_of_le ht hcreated
  | threadStall t reason =>
    obtain ⟨ht, hr⟩ := hs.started t hp
    simp only [touched] at ha
    split at ha
    · cases ha
    · next hne =>
      simp only [Tables.enter, hne, if_false]
      obtain rfl | rfl : a = .runnable t ∨ a = .info t := by simpa using ha
      · exact hr
      · exact Nat.lt_of_lt_of_le ht hcreated
  | threadResume t | threadExit t =>
    obtain ⟨ht, hr⟩ := hs.started t hp
    obtain rfl | rfl : a = .runnable t ∨ a = .info t := by simpa [touched] using ha
    · exact hr
    · exact Nat.lt_of_lt_of_le ht hcreated
  | threadYield t =>
    obtain rfl : a = .info t := by simpa [touched] using ha
    exact Nat.lt_of_lt_of_le (hs.started t hp).1 hcreated
  | threadSetAffinity caller t misplaced =>
    obtain rfl | ha := List.mem_cons.mp ha
    · simp only [Tables.enter, Within]; split <;> omega
    · split at ha
      · next h =>
        obtain rfl := List.mem_singleton.mp ha
        exact hc h.1 h.2.1 h.2.2
      · cases ha
  | periodic => cases ha

theorem Covered.inBounds (hs : s.Covered) (hp : s.Permitted call) (hc : s.Careful call) :
    s.InBounds call := by
  intro passes a ha
  obtain ha | ha := List.mem_append.mp ha
  · exact hs.touched_within hp hc ha
  split at ha
  · next hresched =>
    refine (hs.enter hp hc).scans_within ?_ ha
    cases call with
    | threadCreate core_id => cases hresched
    | threadStart t => exact Nat.zero_lt_of_lt hp
    | threadStall t reason =>
      have hne : reason ≠ .STALL_UNSCHEDULED := by simpa [reschedules] using hresched
      simp only [Tables.enter, hne, if_false]
      exact Nat.zero_lt_of_lt (hs.started t hp).1
    | threadResume t | threadExit t | threadYield t =>
      exact Nat.zero_lt_of_lt (hs.started t hp).1
    | threadSetAffinity caller t misplaced =>
      exact Nat.zero_lt_of_lt (of_decide_eq_true hresched)
    | periodic => exact hp
  · cases ha

theorem careful_of_inBounds (h : s.InBounds call) : s.Careful call := by
  cases call with
  | threadStart t =>
    have ht : (s.start t).Within (.runnable t) := h [] _ (by simp [accesses, touched])
    simp only [Tables.start, Within] at ht
    refine ⟨by split at ht <;> omega, fun hgrow => ?_⟩
    -- The loop of `reschedule` comes to the end of the table that has grown.
    by_contra hlt
    have hlast : (s.start t).Within (.info (s.m_threads_runnable_size + 15)) := by
      refine h [⟨0, none⟩] _ (List.mem_append_right _ ?_)
      simp [reschedules, scans, Tables.scanned, Tables.enter, Tables.start, hgrow]
    simp only [Tables.start, Within] at hlast
    omega
  | threadSetAffinity caller t misplaced =>
    intro ht hne hplaced
    exact h [] (.runnable t) (by simp [accesses, touched, ht, hne, hplaced])
  | threadCreate _ | threadStall _ _ | threadResume _ | threadExit _ | threadYield _ | periodic =>
    trivial

/-- In every run of careful calls, a call is within the bounds of the tables just when it is
careful as well. -/
theorem tables_cover_threads_iff (h : Reachable (· = initial) CarefulStep s)
    (hp : s.Permitted call) : s.InBounds call ↔ s.Careful call :=
  ⟨careful_of_inBounds, (covered h).inBounds hp⟩

/-- So many threads, none of which has started. -/
def createdOnly : Nat → Tables
  | 0 => initial
  | k + 1 => (createdOnly k).exec (.threadCreate none) []

theorem createdOnly_reachable (k : Nat) : Reachable (· = initial) CarefulStep (createdOnly k) := by
  induction k with
  | zero => exact .init rfl
  | succ k ih => exact ih.step ⟨.threadCreate none, [], trivial, trivial, rfl⟩

/-- Of 32 threads the last one starts first, and the table grows just far enough. -/
theorem tables_cover_last_of_32 :
    (createdOnly 32).m_threads_runnable_size = 16 ∧ (createdOnly 32).InBounds (.threadStart 31) := by
  have hp : (createdOnly 32).Permitted (.threadStart 31) := Nat.lt_succ_self 31
  exact ⟨rfl, (tables_cover_threads_iff (createdOnly_reachable 32) hp).mpr ⟨by decide, by decide⟩⟩

/-- Of 33 threads the last one starts first, and its entry is not there. -/
theorem last_of_33_uncovered :
    Reachable (· = initial) CarefulStep (createdOnly 33) ∧
      (createdOnly 33).Permitted (.threadStart 32) ∧
      ((createdOnly 33).enter (.threadStart 32)).m_threads_runnable_size = 32 ∧
      ∀ passes, .runnable 32 ∈ (createdOnly 33).accesses (.threadStart 32) passes :=
  ⟨createdOnly_reachable 33, (by decide : 32 < (createdOnly 33).num_threads), by decide,
    fun _ => List.mem_append_left _ (by simp [touched])⟩

end Tables
end Sniper.Threads.Bounds
