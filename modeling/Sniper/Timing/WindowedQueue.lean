import Sniper.Lib.Multimap
import Sniper.Lib.Prefixes
import Sniper.Timing.Contention

/-! # The windowed queue

`QueueModelWindowedMG1` keeps the requests of a window of time with the number and the sums of their
service times, from which the delay is estimated. The estimate itself is in floating point. -/
namespace Sniper.Timing
open Contention (SubsecondTime)
open Lib.Multimap (Ordered insert_perm)
open Lib.Prefixes (forall_prefix_iff)

/-- `SubsecondTime::getPS`, of a time in femtoseconds. -/
def getPS (time : SubsecondTime) : SubsecondTime :=
  ⟨time / 1000, (Nat.div_le_self ..).trans_lt time.2⟩

/-- The time of a request and its service time. -/
abbrev WindowEntry := SubsecondTime × SubsecondTime

structure WindowedMG1Config where
  m_window_size : SubsecondTime
  /-- From `m_service_time_sum`, `m_num_arrivals`, `service_time_Es2` and the window in ps. -/
  estimate : Fin (2 ^ 64) → Fin (2 ^ 64) → Fin (2 ^ 64) → Fin (2 ^ 64) → SubsecondTime

structure QueueModelWindowedMG1 where
  m_total_requests : Fin (2 ^ 64)
  m_total_utilized_time : SubsecondTime
  m_total_queue_delay : SubsecondTime
  m_window : List WindowEntry
  m_num_arrivals : Fin (2 ^ 64)
  m_service_time_sum : Fin (2 ^ 64)
  m_service_time_sum2 : Fin (2 ^ 64)

/-- A call of `computeQueueDelay` and the global time of the barrier. -/
structure DelayCall where
  global_time : SubsecondTime
  pkt_time : SubsecondTime
  processing_time : SubsecondTime

namespace QueueModelWindowedMG1

def create : QueueModelWindowedMG1 := ⟨0, 0, 0, [], 0, 0, 0⟩

section Model
variable (cfg : WindowedMG1Config) (m : QueueModelWindowedMG1)

def addItem (pkt_time service_time : SubsecondTime) : QueueModelWindowedMG1 :=
  { m with
    m_window := Lib.Multimap.insert (pkt_time, service_time) m.m_window
    m_num_arrivals := m.m_num_arrivals + 1
    m_service_time_sum := m.m_service_time_sum + getPS service_time
    m_service_time_sum2 := m.m_service_time_sum2 + getPS service_time * getPS service_time }

/-- The loop of `removeItems`, on the entries of the window. -/
def removeLoop (earliest_time : SubsecondTime) :
    List WindowEntry → QueueModelWindowedMG1 → QueueModelWindowedMG1
  | [], m => { m with m_window := [] }
  | entry :: rest, m =>
    if entry.1 < earliest_time then
      removeLoop earliest_time rest { m with
        m_num_arrivals := m.m_num_arrivals - 1
        m_service_time_sum := m.m_service_time_sum - getPS entry.2
        m_service_time_sum2 := m.m_service_time_sum2 - getPS entry.2 * getPS entry.2 }
    else { m with m_window := entry :: rest }

def removeItems (earliest_time : SubsecondTime) : QueueModelWindowedMG1 :=
  removeLoop earliest_time m.m_window m

/-- The delay from the requests in the window. -/
def delay : SubsecondTime :=
  if 1 < m.m_num_arrivals then
    let service_time_Es2 : Fin (2 ^ 64) :=
      ⟨m.m_service_time_sum2 / m.m_num_arrivals, (Nat.div_le_self ..).trans_lt (Fin.is_lt _)⟩
    let t_queue := cfg.estimate m.m_service_time_sum m.m_num_arrivals service_time_Es2
      (getPS cfg.m_window_size)
    if cfg.m_window_size < t_queue then cfg.m_window_size else t_queue
  else 0

/-- Up to where `computeQueueDelay` removes: both differences wrap around. -/
def earliest (call : DelayCall) : SubsecondTime :=
  max (call.global_time - cfg.m_window_size) (call.pkt_time - 10 * cfg.m_window_size)

def computeQueueDelay (call : DelayCall) : SubsecondTime × QueueModelWindowedMG1 :=
  let m := m.removeItems (earliest cfg call)
  let t_queue := m.delay cfg
  let m := m.addItem call.pkt_time call.processing_time
  (t_queue, { m with
    m_total_requests := m.m_total_requests + 1
    m_total_utilized_time := m.m_total_utilized_time + call.processing_time
    m_total_queue_delay := m.m_total_queue_delay + t_queue })

def run (calls : List DelayCall) : QueueModelWindowedMG1 :=
  calls.foldl (fun m call => (m.computeQueueDelay cfg call).2) create

end Model

/-! ### The counters -/

/-- The counter is the sum over the window, in 64 bits. -/
def Counts (counter : Fin (2 ^ 64)) (f : WindowEntry → Nat) (window : List WindowEntry) : Prop :=
  counter.val = (window.map f).sum % 2 ^ 64

theorem Counts.sub {counter x f entry rest} (h : Counts counter f (entry :: rest))
    (hx : x.val = f entry % 2 ^ 64) :
    Counts (counter - x) f rest := by
  unfold Counts at h ⊢
  rw [List.map_cons, List.sum_cons] at h
  rw [Fin.val_sub, h, hx]
  omega

theorem Counts.add {counter x f entry window window'} (h : Counts counter f window)
    (hx : x.val = f entry % 2 ^ 64) (hperm : window'.Perm (entry :: window)) :
    Counts (counter + x) f window' := by
  unfold Counts at h ⊢
  rw [(hperm.map f).sum_nat, List.map_cons, List.sum_cons, Fin.val_add, h, hx,
    Nat.add_comm (f entry)]
  exact (Nat.add_mod _ _ _).symm

def ps (entry : WindowEntry) : Nat := entry.2.val / 1000

theorem getPS_val (entry : WindowEntry) : (getPS entry.2).val = ps entry % 2 ^ 64 :=
  (Nat.mod_eq_of_lt (getPS entry.2).2).symm

theorem getPS_sq_val (entry : WindowEntry) :
    (getPS entry.2 * getPS entry.2).val = (ps entry * ps entry) % 2 ^ 64 :=
  Fin.val_mul _ _

/-- The counters belong to the window, which is in order. -/
structure Counted (m : QueueModelWindowedMG1) (window : List WindowEntry) : Prop where
  ordered : Ordered window
  num_arrivals : Counts m.m_num_arrivals (fun _ => 1) window
  service_time_sum : Counts m.m_service_time_sum ps window
  service_time_sum2 : Counts m.m_service_time_sum2 (fun entry => ps entry * ps entry) window

theorem removeLoop_counted (earliest_time : SubsecondTime) {window m} (h : Counted m window) :
    Counted (removeLoop earliest_time window m) (removeLoop earliest_time window m).m_window ∧
      (removeLoop earliest_time window m).m_window =
        window.filter fun entry => earliest_time ≤ entry.1 := by
  induction window generalizing m with
  | nil => exact ⟨⟨h.ordered, h.num_arrivals, h.service_time_sum, h.service_time_sum2⟩, rfl⟩
  | cons entry rest ih =>
    unfold removeLoop
    split
    case isTrue hlt =>
      rw [List.filter_cons_of_neg (by simpa using hlt)]
      exact ih ⟨(List.pairwise_cons.mp h.ordered).2, h.num_arrivals.sub rfl,
        h.service_time_sum.sub (getPS_val entry), h.service_time_sum2.sub (getPS_sq_val entry)⟩
    case isFalse hle =>
      exact ⟨⟨h.ordered, h.num_arrivals, h.service_time_sum, h.service_time_sum2⟩,
        (h.ordered.filter_of_le (not_lt.mp hle)).symm⟩

theorem addItem_counted {m} (h : Counted m m.m_window) (pkt_time service_time : SubsecondTime) :
    Counted (m.addItem pkt_time service_time)
      (m.addItem pkt_time service_time).m_window :=
  ⟨h.ordered.insert, h.num_arrivals.add rfl insert_perm,
    h.service_time_sum.add (getPS_val (pkt_time, service_time)) insert_perm,
    h.service_time_sum2.add (getPS_sq_val (pkt_time, service_time)) insert_perm⟩

/-! ### The window -/

variable {cfg : WindowedMG1Config} {m : QueueModelWindowedMG1} {call : DelayCall}
  {calls : List DelayCall}

/-- Up to where the window reaches back, as far as there are times. -/
def oldest (cfg : WindowedMG1Config) (call : DelayCall) : Nat :=
  max (call.global_time.val - cfg.m_window_size.val)
    (call.pkt_time.val - 10 * cfg.m_window_size.val)

/-- The requests that are not too old for any later call. -/
def held (cfg : WindowedMG1Config) : List DelayCall → List WindowEntry
  | [] => []
  | call :: since =>
    if ∀ later ∈ since, oldest cfg later ≤ call.pkt_time.val then
      (call.pkt_time, call.processing_time) :: held cfg since
    else held cfg since

theorem held_append : held cfg (calls ++ [call]) =
    (held cfg calls).filter (fun entry => oldest cfg call ≤ entry.1.val) ++
      [(call.pkt_time, call.processing_time)] := by
  induction calls with
  | nil => rfl
  | cons first since ih =>
    rw [List.cons_append]
    unfold held
    simp only [List.forall_mem_append, List.forall_mem_singleton]
    by_cases hsince : ∀ later ∈ since, oldest cfg later ≤ first.pkt_time.val
    · by_cases hcall : oldest cfg call ≤ first.pkt_time.val
      · rw [if_pos ⟨hsince, hcall⟩, if_pos hsince, ih,
          List.filter_cons_of_pos (by simpa using hcall)]
        rfl
      · rw [if_neg fun h => hcall h.2, if_pos hsince, ih,
          List.filter_cons_of_neg (by simpa using hcall)]
    · rw [if_neg fun h => hsince h.1, if_neg hsince, ih]

/-- Where a difference wraps around, it is past no request that is not too old. -/
def Careful (cfg : WindowedMG1Config) (m : QueueModelWindowedMG1) (call : DelayCall) : Prop :=
  ∀ entry ∈ m.m_window, oldest cfg call ≤ entry.1.val →
    call.global_time - cfg.m_window_size ≤ entry.1 ∧
      call.pkt_time - 10 * cfg.m_window_size ≤ entry.1

theorem sub_le_val_sub (a b : SubsecondTime) : a.val - b.val ≤ (a - b).val := by
  rw [Fin.val_sub]
  omega

theorem oldest_le_earliest : oldest cfg call ≤ (earliest cfg call).val := by
  have hglobal := sub_le_val_sub call.global_time cfg.m_window_size
  have hpkt := sub_le_val_sub call.pkt_time (10 * cfg.m_window_size)
  have hten : (10 * cfg.m_window_size).val ≤ 10 * cfg.m_window_size.val := by
    exact Nat.mod_le _ _
  unfold oldest earliest
  rw [Fin.coe_max]
  omega

/-- The requests that the code keeps are those that are not too old just if the call is careful. -/
theorem filter_perm_iff : (m.m_window.filter fun entry => earliest cfg call ≤ entry.1).Perm
    (m.m_window.filter fun entry => oldest cfg call ≤ entry.1.val) ↔ Careful cfg m call := by
  constructor
  · intro hperm entry hentry hold
    have hkept := hperm.mem_iff.mpr (List.mem_filter.mpr ⟨hentry, decide_eq_true hold⟩)
    exact max_le_iff.mp (of_decide_eq_true (List.mem_filter.mp hkept).2)
  · intro hcareful
    refine List.Perm.of_eq (List.filter_congr fun entry hentry => decide_eq_decide.mpr ⟨?_, ?_⟩)
    · exact fun hkept => oldest_le_earliest.trans hkept
    · exact fun hold => max_le_iff.mpr (hcareful entry hentry hold)

theorem computeQueueDelay_counted (h : Counted m m.m_window) :
    Counted (m.computeQueueDelay cfg call).2 (m.computeQueueDelay cfg call).2.m_window := by
  have hadd := addItem_counted (removeLoop_counted (earliest cfg call) h).1 call.pkt_time
    call.processing_time
  exact ⟨hadd.ordered, hadd.num_arrivals, hadd.service_time_sum, hadd.service_time_sum2⟩

theorem computeQueueDelay_window (h : Counted m m.m_window) :
    (m.computeQueueDelay cfg call).2.m_window.Perm ((call.pkt_time, call.processing_time) ::
      m.m_window.filter fun entry => earliest cfg call ≤ entry.1) := by
  rw [← (removeLoop_counted (earliest cfg call) h).2]
  exact insert_perm

theorem computeQueueDelay_held (h : Counted m m.m_window)
    (hheld : m.m_window.Perm (held cfg calls)) :
    (m.computeQueueDelay cfg call).2.m_window.Perm (held cfg (calls ++ [call])) ↔
      Careful cfg m call := by
  have hnew : (held cfg (calls ++ [call])).Perm ((call.pkt_time, call.processing_time) ::
      m.m_window.filter fun entry => oldest cfg call ≤ entry.1.val) := by
    rw [held_append]
    exact (List.perm_append_singleton _ _).trans ((hheld.symm.filter _).cons _)
  rw [(computeQueueDelay_window h).congr_left, hnew.congr_right, List.perm_cons]
  exact filter_perm_iff

/-! ### Runs -/

theorem run_append : run cfg (calls ++ [call]) = ((run cfg calls).computeQueueDelay cfg call).2 :=
  List.foldl_append

theorem run_counted (calls : List DelayCall) :
    Counted (run cfg calls) (run cfg calls).m_window := by
  induction calls using List.reverseRecOn with
  | nil => exact ⟨List.Pairwise.nil, rfl, rfl, rfl⟩
  | append_singleton before call ih =>
    rw [run_append]
    exact computeQueueDelay_counted ih

/-- The statistics are those of the window, which holds the requests that are not too old. -/
structure Matches (cfg : WindowedMG1Config) (m : QueueModelWindowedMG1) (calls : List DelayCall) :
    Prop where
  num_arrivals : m.m_num_arrivals.val = m.m_window.length % 2 ^ 64
  service_time_sum : m.m_service_time_sum.val = (m.m_window.map ps).sum % 2 ^ 64
  service_time_sum2 :
    m.m_service_time_sum2.val = (m.m_window.map fun entry => ps entry * ps entry).sum % 2 ^ 64
  window : m.m_window.Perm (held cfg calls)

theorem Counted.matches_iff (h : Counted m m.m_window) :
    Matches cfg m calls ↔ m.m_window.Perm (held cfg calls) := by
  refine ⟨Matches.window, fun hwindow => ⟨?_, h.service_time_sum, h.service_time_sum2, hwindow⟩⟩
  rw [h.num_arrivals, List.map_const', List.sum_replicate_nat, Nat.mul_one]

/-- The statistics match the window after every call of a run just if each call is careful. -/
theorem window_matches_iff (cfg : WindowedMG1Config) (calls : List DelayCall) :
    (∀ before, before <+: calls → Matches cfg (run cfg before) before) ↔
      ∀ before call, before ++ [call] <+: calls → Careful cfg (run cfg before) call := by
  refine forall_prefix_iff ?_ fun before call hbefore => ?_
  · exact (run_counted []).matches_iff.mpr (List.Perm.refl _)
  · rw [(run_counted _).matches_iff, run_append]
    exact computeQueueDelay_held (run_counted before) hbefore.window

/-- Two requests at the start, one picosecond apart. -/
def startCalls : List DelayCall := [⟨0, 0, 1000⟩, ⟨0, 1000, 1000⟩]

/-- In a window of a microsecond the first request is lost. -/
theorem startCalls_lost :
    let cfg : WindowedMG1Config := ⟨1000000000, fun _ _ _ _ => 0⟩
    ¬ ∀ before, before <+: startCalls → Matches cfg (run cfg before) before := by
  intro cfg h
  exact absurd (h startCalls (List.prefix_refl _)).window.length_eq (by decide)

end QueueModelWindowedMG1

end Sniper.Timing
