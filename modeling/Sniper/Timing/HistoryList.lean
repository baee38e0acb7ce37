import Mathlib.Order.CompletePartialOrder
import Sniper.Lib.Intervals
import Sniper.Timing.Contention

/-! # The history list

`QueueModelHistoryList`: a list of the intervals in which a resource is still free. A request
takes its time out of the interval it comes in, or waits for the next one; a request that is
older than the list gets the mean of the last delays. The statistics are left out. -/

namespace Sniper.Timing
open Contention (SubsecondTime)
open Lib.Intervals Lib.Simulation

/-! ## The moving average -/

/-- `MovingArithmeticMean`, with its window as a list, the oldest number first. -/
structure MovingArithmeticMean where
  m_num_list : List SubsecondTime
  sum : SubsecondTime

namespace MovingArithmeticMean

def update (max_window_size : Nat) (m : MovingArithmeticMean) (next_num : SubsecondTime) :
    MovingArithmeticMean :=
  if m.m_num_list.length = max_window_size then
    ⟨m.m_num_list.tail ++ [next_num], m.sum - m.m_num_list.headD 0 + next_num⟩
  else ⟨m.m_num_list ++ [next_num], m.sum + next_num⟩

def compute (m : MovingArithmeticMean) : Except String SubsecondTime :=
  if m.m_num_list.length = 0 then .error "division by zero"
  else .ok ⟨m.sum / m.m_num_list.length, (Nat.div_le_self ..).trans_lt m.sum.2⟩

/-- The window after these numbers, the latest first. -/
def window (max_window_size : Nat) (nums : List SubsecondTime) : MovingArithmeticMean :=
  ⟨(nums.take max_window_size).reverse, (nums.take max_window_size).sum⟩

/-- The mean of the last numbers. -/
def mean (max_window_size : Nat) (nums : List SubsecondTime) : SubsecondTime :=
  ⟨(nums.take max_window_size).sum / (nums.take max_window_size).length,
    (Nat.div_le_self ..).trans_lt (Fin.is_lt _)⟩

theorem update_window {max_window_size} (hpos : 0 < max_window_size) (nums : List SubsecondTime)
    (next_num : SubsecondTime) :
    (window max_window_size nums).update max_window_size next_num =
      window max_window_size (next_num :: nums) := by
  obtain ⟨size, rfl⟩ := Nat.exists_eq_succ_of_ne_zero hpos.ne'
  unfold update window
  simp only [List.length_reverse, List.length_take, List.take_succ_cons, List.reverse_cons,
    List.sum_cons]
  by_cases hfull : min (size + 1) nums.length = size + 1
  · have hlt : size < nums.length := by omega
    rw [if_pos hfull, List.take_succ_eq_append_getElem hlt]
    generalize nums[size] = oldest
    simp [add_comm]
  · have htake : nums.take (size + 1) = nums.take size := by
      rw [List.take_of_length_le (by omega), List.take_of_length_le (by omega)]
    rw [if_neg hfull, htake, add_comm]

theorem compute_window {max_window_size} (hpos : 0 < max_window_size) {nums} (hne : nums ≠ []) :
    (window max_window_size nums).compute = .ok (mean max_window_size nums) := by
  have hlength := List.length_pos_of_ne_nil hne
  unfold compute window mean
  simp only [List.length_reverse, List.length_take]
  rw [if_neg (by omega)]

end MovingArithmeticMean

/-! ## The queue model -/

abbrev Interval := SubsecondTime × SubsecondTime

/-- `SubsecondTime::MaxTime`. -/
def MaxTime : SubsecondTime := Fin.last _

/-- The time that simulations do not exceed. -/
def max_simulation_time : SubsecondTime := ⟨2 ^ 63, by decide⟩

/-- What the constructor sets. The window of the moving average has one place more than the
list, counted in 32 bits. -/
structure HistoryListConfig where
  m_min_processing_time : SubsecondTime
  m_max_free_interval_list_size : Nat
  m_analytical_model_enabled : Bool
  min_pos : 0 < m_min_processing_time
  size_pos : 0 < m_max_free_interval_list_size
  size_lt : m_max_free_interval_list_size + 1 < 2 ^ 32

structure QueueModelHistoryList where
  m_free_interval_list : List Interval
  m_average_delay : MovingArithmeticMean

namespace QueueModelHistoryList

def create : QueueModelHistoryList := ⟨[(0, max_simulation_time)], ⟨[], 0⟩⟩

section Model
variable (cfg : HistoryListConfig) (pkt_time processing_time : SubsecondTime)

/-- The interval is inserted if it is not too short. -/
def keep (interval : Interval) : Bool := decide (cfg.m_min_processing_time ≤ interval.2 - interval.1)

/-- The loop of `computeUsingHistoryList`: the delay, `MaxTime` if no interval was found, and
the list. -/
def search : List Interval → SubsecondTime × List Interval
  | [] => (MaxTime, [])
  | interval :: rest =>
    if interval.1 ≤ pkt_time ∧ pkt_time + processing_time ≤ interval.2 then
      (0, [(interval.1, pkt_time), (pkt_time + processing_time, interval.2)].filter (keep cfg) ++
        rest)
    else if pkt_time < interval.1 then
      (interval.1 - pkt_time, [(interval.1 + processing_time, interval.2)].filter (keep cfg) ++ rest)
    else
      let (queue_delay, rest) := search rest
      (queue_delay, interval :: rest)

/-- The oldest interval goes if the list is too long. -/
def trim (list : List Interval) : List Interval :=
  if cfg.m_max_free_interval_list_size < list.length then list.tail else list

def computeUsingHistoryList (list : List Interval) : Except String (SubsecondTime × List Interval) :=
  if cfg.m_max_free_interval_list_size < list.length then
    .error s!"Free Interval list size({list.length}) > {cfg.m_max_free_interval_list_size}"
  else
    let (queue_delay, list) := search cfg pkt_time processing_time list
    if queue_delay = MaxTime then
      .error s!"queue delay(T:{queue_delay.val}), free interval not found"
    else .ok (queue_delay, trim cfg list)

/-- An old request, for which the list is not used. -/
def isOld (list : List Interval) : Bool :=
  cfg.m_analytical_model_enabled &&
    list.head?.any fun oldest_interval => decide (pkt_time + processing_time ≤ oldest_interval.1)

def computeQueueDelay (m : QueueModelHistoryList) :
    Except String (SubsecondTime × QueueModelHistoryList) :=
  if m.m_free_interval_list.length < 1 then .error "Free Interval list size < 1"
  else if isOld cfg pkt_time processing_time m.m_free_interval_list then do
    let queue_delay ← m.m_average_delay.compute
    return (queue_delay, m)
  else do
    let (queue_delay, m_free_interval_list) ←
      computeUsingHistoryList cfg pkt_time processing_time m.m_free_interval_list
    return (queue_delay, ⟨m_free_interval_list,
      m.m_average_delay.update cfg.m_max_free_interval_list_size queue_delay⟩)

end Model

/-! ### The list -/

/-- The list of the free intervals, up to the end of simulated time. -/
structure WellFormed (cfg : HistoryListConfig) (list : List Interval) : Prop where
  ordered : Ordered list
  length_le : list.length ≤ cfg.m_max_free_interval_list_size
  le_end : ∀ i ∈ list, i.2 ≤ max_simulation_time
  has_end : ∃ i ∈ list, i.2 = max_simulation_time

theorem WellFormed.ne_nil {cfg list} (h : WellFormed cfg list) : list ≠ [] := by
  obtain ⟨i, hi, -⟩ := h.has_end
  exact List.ne_nil_of_mem hi

theorem wellFormed_create (cfg : HistoryListConfig) :
    WellFormed cfg create.m_free_interval_list where
  ordered := by
    refine ⟨fun i hi => ?_, List.pairwise_singleton ..⟩
    rw [List.mem_singleton.mp hi, Fin.lt_def]
    exact Nat.two_pow_pos 63
  length_le := cfg.size_pos
  le_end := fun i hi => by rw [List.mem_singleton.mp hi]
  has_end := ⟨_, List.mem_singleton_self _, rfl⟩

section Search
variable {cfg : HistoryListConfig} {pkt_time processing_time : SubsecondTime}
  {list : List Interval} {i : Interval}

/-- The interval at which the search ends. -/
def chosen (pkt_time processing_time : SubsecondTime) (list : List Interval) : Option Interval :=
  list.find? fun i =>
    decide (i.1 ≤ pkt_time ∧ pkt_time + processing_time ≤ i.2) || decide (pkt_time < i.1)

/-- The request has room in the interval at which the search ends, and not the whole of
simulated time is taken with it. -/
def Fits (cfg : HistoryListConfig) (pkt_time processing_time : SubsecondTime)
    (list : List Interval) : Prop :=
  ∃ i, chosen pkt_time processing_time list = some i ∧
    (max pkt_time i.1).val + processing_time.val ≤ i.2.val ∧
    (i.2 = max_simulation_time → (max pkt_time i.1).val + processing_time.val +
      cfg.m_min_processing_time.val ≤ i.2.val)

theorem keep_iff {interval} (hle : interval.1 ≤ interval.2) :
    keep cfg interval = true ↔
      interval.1.val + cfg.m_min_processing_time.val ≤ interval.2.val := by
  have hle' := Fin.le_def.mp hle
  rw [keep, decide_eq_true_eq, Fin.le_def, Fin.sub_val_of_le hle]
  omega

theorem not_keep_self (a : SubsecondTime) : keep cfg (a, a) = false := by
  have hpos := Fin.lt_def.mp cfg.min_pos
  rw [Bool.eq_false_iff, Ne, keep_iff le_rfl]
  dsimp only
  omega

theorem pieces_start (i : Interval) (b : SubsecondTime) :
    pieces (keep cfg) i i.1 b = [(b, i.2)].filter (keep cfg) := by
  rw [pieces, List.filter_cons, not_keep_self, if_neg Bool.false_ne_true]

variable (cfg) in
theorem search_of_chosen (h : chosen pkt_time processing_time list = some i) :
    ∃ before after, list = before ++ i :: after ∧ (∀ j ∈ before, j.1 ≤ pkt_time) ∧
      search cfg pkt_time processing_time list = (max pkt_time i.1 - pkt_time,
        before ++ (pieces (keep cfg) i (max pkt_time i.1) (max pkt_time i.1 + processing_time) ++
          after)) := by
  induction list with
  | nil => cases h
  | cons interval rest ih =>
    rw [chosen, List.find?_cons] at h
    by_cases htaken : interval.1 ≤ pkt_time ∧ pkt_time + processing_time ≤ interval.2
    · simp only [decide_eq_true htaken, Bool.true_or, Option.some.injEq] at h
      subst h
      refine ⟨[], rest, rfl, nofun, ?_⟩
      rw [search, if_pos htaken, max_eq_left htaken.1, sub_self]
      rfl
    · by_cases hlater : pkt_time < interval.1
      · simp only [decide_eq_true hlater, Bool.or_true, Option.some.injEq] at h
        subst h
        refine ⟨[], rest, rfl, nofun, ?_⟩
        rw [search, if_neg htaken, if_pos hlater, max_eq_right hlater.le, pieces_start]
        rfl
      · simp only [decide_eq_false htaken, decide_eq_false hlater, Bool.or_self] at h
        obtain ⟨before, after, hlist, hbefore, hsearch⟩ := ih h
        refine ⟨interval :: before, after, by rw [hlist]; rfl, ?_, ?_⟩
        · intro j hj
          obtain rfl | hj := List.mem_cons.mp hj
          · exact not_lt.mp hlater
          · exact hbefore j hj
        · rw [search, if_neg htaken, if_neg hlater, hsearch]
          rfl

theorem WellFormed.trim (hordered : Ordered list)
    (hlength : list.length ≤ cfg.m_max_free_interval_list_size + 1)
    (hle : ∀ i ∈ list, i.2 ≤ max_simulation_time) (hend : ∃ i ∈ list, i.2 = max_simulation_time) :
    WellFormed cfg (trim cfg list) := by
  unfold QueueModelHistoryList.trim
  split_ifs with hlong
  · refine ⟨hordered.sublist (List.tail_sublist _), by rw [List.length_tail]; omega,
      fun i hi => hle i (List.mem_of_mem_tail hi), ?_⟩
    -- The first interval ends before the second one, so the last one stays.
    have hsize := cfg.size_pos
    obtain _ | ⟨first, _ | ⟨second, rest⟩⟩ := list
    · simp at hlong
    · simp at hlong
      omega
    · obtain ⟨i, hi, hlast⟩ := hend
      obtain rfl | hi := List.mem_cons.mp hi
      · have hnext := List.rel_of_pairwise_cons hordered.sorted List.mem_cons_self
        have hlt := hordered.lt second (List.mem_cons_of_mem _ List.mem_cons_self)
        have hbound := hle second (List.mem_cons_of_mem _ List.mem_cons_self)
        exact absurd (hlast ▸ hnext) (not_le.mpr (hlt.trans_le hbound))
      · exact ⟨i, hi, hlast⟩
  · exact ⟨hordered, not_lt.mp hlong, hle, hend⟩

theorem points_trim : points (trim cfg list) ⊆ points list := by
  unfold QueueModelHistoryList.trim
  split_ifs
  · exact points_mono (List.tail_subset _)
  · exact fun _ hx => hx

end Search

/-- `[start, start + processing_time)` is taken out of the interval `i` of a list: what is left of
it goes in its place. -/
structure Reserved (cfg : HistoryListConfig) (start processing_time : SubsecondTime) (i : Interval)
    (list list' : List Interval) : Prop where
  inside : i.1 ≤ start ∧ start.val + processing_time.val ≤ i.2.val
  replaced : ∃ before after, list = before ++ i :: after ∧ list' = trim cfg (before ++
    (pieces (keep cfg) i start (start + processing_time) ++ after))
  taken : points list' ⊆ points list \ Set.Ico start (start + processing_time)

section Call
variable {cfg : HistoryListConfig} {pkt_time processing_time : SubsecondTime} {list : List Interval}

theorem WellFormed.replace {before after i start} (h : WellFormed cfg (before ++ i :: after))
    (hstart : i.1 ≤ start) (hroom : start.val + processing_time.val ≤ i.2.val)
    (hlast : i.2 = max_simulation_time → start.val + processing_time.val +
      cfg.m_min_processing_time.val ≤ i.2.val) :
    Reserved cfg start processing_time i (before ++ i :: after) (QueueModelHistoryList.trim cfg
        (before ++ (pieces (keep cfg) i start (start + processing_time) ++ after))) ∧
      WellFormed cfg (QueueModelHistoryList.trim cfg
        (before ++ (pieces (keep cfg) i start (start + processing_time) ++ after))) := by
  have hpos := Fin.lt_def.mp cfg.min_pos
  have hfinish : start ≤ start + processing_time := Fin.le_def.mpr (by omega)
  have hend : start + processing_time ≤ i.2 := Fin.le_def.mpr (by omega)
  have hkeep : ∀ j ∈ pieces (keep cfg) i start (start + processing_time), j.1 < j.2 := by
    intro j hj
    rw [Fin.lt_def]
    obtain ⟨rfl | rfl, hkept⟩ := mem_pieces.mp hj
    · have := (keep_iff hstart).mp hkept
      omega
    · have := (keep_iff hend).mp hkept
      omega
  have hlength := h.length_le
  have htwo : (pieces (keep cfg) i start (start + processing_time)).length ≤ 2 := length_pieces_le
  constructor
  · exact ⟨⟨hstart, hroom⟩, ⟨before, after, rfl, rfl⟩,
      points_trim.trans (points_pieces h.ordered hstart hfinish hend)⟩
  · refine WellFormed.trim (h.ordered.pieces hstart hfinish hend hkeep) ?_ ?_ ?_
    · simp only [List.length_append, List.length_cons] at hlength ⊢
      omega
    · intro j hj
      simp only [List.mem_append] at hj
      obtain hj | hj | hj := hj
      · exact h.le_end j (List.mem_append_left _ hj)
      · exact (pieces_inside hstart hfinish hend hj).2.trans
          (h.le_end i (List.mem_append_right _ List.mem_cons_self))
      · exact h.le_end j (List.mem_append_right _ (List.mem_cons_of_mem _ hj))
    · obtain ⟨j, hj, hjend⟩ := h.has_end
      simp only [List.mem_append, List.mem_cons] at hj
      obtain hj | rfl | hj := hj
      · exact ⟨j, List.mem_append_left _ hj, hjend⟩
      · refine ⟨(start + processing_time, j.2), List.mem_append_right _
          (List.mem_append_left _ (mem_pieces.mpr ⟨.inr rfl, (keep_iff hend).mpr ?_⟩)), hjend⟩
        have := hlast hjend
        dsimp only
        omega
      · exact ⟨j, List.mem_append_right _ (List.mem_append_right _ hj), hjend⟩

theorem computeUsingHistoryList_spec (h : WellFormed cfg list)
    (hfits : Fits cfg pkt_time processing_time list) :
    ∃ i list', i ∈ list ∧
      computeUsingHistoryList cfg pkt_time processing_time list =
        .ok (max pkt_time i.1 - pkt_time, list') ∧
      (∀ j ∈ list, pkt_time < j.1 → pkt_time < i.1 → i.1 ≤ j.1) ∧
      Reserved cfg (max pkt_time i.1) processing_time i list list' ∧ WellFormed cfg list' := by
  obtain ⟨i, hchosen, hroom, hlast⟩ := hfits
  obtain ⟨before, after, rfl, hbefore, hsearch⟩ := search_of_chosen cfg hchosen
  obtain ⟨hreserved, hwf⟩ := h.replace (le_max_right pkt_time i.1) hroom hlast
  refine ⟨i, _, List.mem_append_right _ List.mem_cons_self, ?_, ?_, hreserved, hwf⟩
  · have hdelay : max pkt_time i.1 - pkt_time ≠ MaxTime := by
      have hend := Fin.le_def.mp (h.le_end i (List.mem_append_right _ List.mem_cons_self))
      have hval : max_simulation_time.val = 2 ^ 63 := rfl
      have hsub : (max pkt_time i.1 - pkt_time).val = _ := Fin.sub_val_of_le (le_max_left ..)
      intro heq
      have hmax := congrArg Fin.val heq
      rw [MaxTime, Fin.val_last] at hmax
      omega
    rw [computeUsingHistoryList, if_neg (not_lt.mpr h.length_le), hsearch]
    dsimp only
    rw [if_neg hdelay]
  · intro j hj hlater _
    obtain ⟨-, hrest, -⟩ := List.pairwise_append.mp h.ordered.pairwise_lt
    simp only [List.mem_append, List.mem_cons] at hj
    obtain hj | rfl | hj := hj
    · exact absurd hlater (not_lt.mpr (hbefore j hj))
    · exact le_rfl
    · exact (List.rel_of_pairwise_cons hrest hj).le

end Call

/-! ### Runs -/

/-- A request that was served from the list. -/
structure Slot where
  pkt_time : SubsecondTime
  start : SubsecondTime
  processing_time : SubsecondTime

/-- The model with the requests that were served from the list, the latest first. -/
structure Run where
  model : QueueModelHistoryList
  served : List Slot

namespace Run

/-- The delays of the requests that were served from the list. -/
def delays (r : Run) : List SubsecondTime := r.served.map fun slot => slot.start - slot.pkt_time

def init : Run := ⟨create, []⟩

/-- Times are below `2 ^ 63`; an old request has one before it that was served from the list,
and any other request fits. -/
def Allowed (cfg : HistoryListConfig) (r : Run) (pkt_time processing_time : SubsecondTime) : Prop :=
  pkt_time < max_simulation_time ∧ processing_time < max_simulation_time ∧
    if isOld cfg pkt_time processing_time r.model.m_free_interval_list then r.served ≠ []
    else Fits cfg pkt_time processing_time r.model.m_free_interval_list

/-- What a call does to the run. -/
def after (cfg : HistoryListConfig) (r : Run) (pkt_time processing_time queue_delay : SubsecondTime)
    (model : QueueModelHistoryList) : Run :=
  ⟨model, if isOld cfg pkt_time processing_time r.model.m_free_interval_list then r.served
    else ⟨pkt_time, pkt_time + queue_delay, processing_time⟩ :: r.served⟩

def Step (cfg : HistoryListConfig) (r r' : Run) : Prop :=
  ∃ pkt_time processing_time queue_delay model, Allowed cfg r pkt_time processing_time ∧
    computeQueueDelay cfg pkt_time processing_time r.model = .ok (queue_delay, model) ∧
    r' = r.after cfg pkt_time processing_time queue_delay model

/-- The outcomes of a call. -/
inductive Outcome (cfg : HistoryListConfig) (r : Run) (pkt_time processing_time : SubsecondTime) :
    SubsecondTime → QueueModelHistoryList → Prop
  /-- The request is served at once. -/
  | taken {i model} (hmem : i ∈ r.model.m_free_interval_list)
      (hreserved : Reserved cfg pkt_time processing_time i r.model.m_free_interval_list
        model.m_free_interval_list) :
      Outcome cfg r pkt_time processing_time 0 model
  /-- The request waits for the first interval that begins after it. -/
  | delayed {i model} (hmem : i ∈ r.model.m_free_interval_list) (hlater : pkt_time < i.1)
      (hfirst : ∀ j ∈ r.model.m_free_interval_list, pkt_time < j.1 → i.1 ≤ j.1)
      (hreserved : Reserved cfg i.1 processing_time i r.model.m_free_interval_list
        model.m_free_interval_list) :
      Outcome cfg r pkt_time processing_time (i.1 - pkt_time) model
  /-- The request is older than the list, which stays as it is. -/
  | averaged (hold : isOld cfg pkt_time processing_time r.model.m_free_interval_list = true) :
      Outcome cfg r pkt_time processing_time
        (MovingArithmeticMean.mean cfg.m_max_free_interval_list_size r.delays) r.model

/-- The list is well formed, the window holds the last delays, and no time that was given is
free. -/
structure Inv (cfg : HistoryListConfig) (r : Run) : Prop where
  wellFormed : WellFormed cfg r.model.m_free_interval_list
  window : r.model.m_average_delay =
    MovingArithmeticMean.window cfg.m_max_free_interval_list_size r.delays
  given : ∀ slot ∈ r.served, Disjoint (points r.model.m_free_interval_list)
    (Set.Ico slot.start (slot.start + slot.processing_time))
  once : r.served.Pairwise fun x y => Disjoint (Set.Ico x.start (x.start + x.processing_time))
    (Set.Ico y.start (y.start + y.processing_time))

variable {cfg : HistoryListConfig} {r : Run} {pkt_time processing_time : SubsecondTime}

theorem inv_init (cfg : HistoryListConfig) : Inv cfg init where
  wellFormed := wellFormed_create cfg
  window := by simp [init, create, delays, MovingArithmeticMean.window]
  given := nofun
  once := .nil

theorem Inv.length_pos (h : Inv cfg r) : ¬ r.model.m_free_interval_list.length < 1 :=
  Nat.not_lt.mpr (List.length_pos_of_ne_nil h.wellFormed.ne_nil)

theorem Inv.old (h : Inv cfg r)
    (hold : isOld cfg pkt_time processing_time r.model.m_free_interval_list = true)
    (hne : r.served ≠ []) :
    computeQueueDelay cfg pkt_time processing_time r.model = .ok
      (MovingArithmeticMean.mean cfg.m_max_free_interval_list_size r.delays, r.model) := by
  have hdelays : r.delays ≠ [] := fun hnil => hne (List.map_eq_nil_iff.mp hnil)
  rw [computeQueueDelay, if_neg h.length_pos, if_pos hold, h.window,
    MovingArithmeticMean.compute_window cfg.size_pos hdelays]
  rfl

theorem Inv.serve (h : Inv cfg r)
    (hold : isOld cfg pkt_time processing_time r.model.m_free_interval_list = false)
    (hfits : Fits cfg pkt_time processing_time r.model.m_free_interval_list) :
    ∃ queue_delay model,
      computeQueueDelay cfg pkt_time processing_time r.model = .ok (queue_delay, model) ∧
      Outcome cfg r pkt_time processing_time queue_delay model ∧
      Inv cfg (r.after cfg pkt_time processing_time queue_delay model) := by
  obtain ⟨i, list', hmem, hcompute, hfirst, hreserved, hwf⟩ :=
    computeUsingHistoryList_spec h.wellFormed hfits
  refine ⟨max pkt_time i.1 - pkt_time, ⟨list', r.model.m_average_delay.update
    cfg.m_max_free_interval_list_size (max pkt_time i.1 - pkt_time)⟩, ?_, ?_, ?_⟩
  · rw [computeQueueDelay, if_neg h.length_pos, hold, if_neg Bool.false_ne_true, hcompute]
    rfl
  · obtain hle | hlt := le_or_gt i.1 pkt_time
    · rw [max_eq_left hle] at hreserved ⊢
      rw [sub_self]
      exact .taken hmem hreserved
    · rw [max_eq_right hlt.le] at hreserved ⊢
      exact .delayed hmem hlt (fun j hj hlater => hfirst j hj hlater hlt) hreserved
  · have hstart : pkt_time + (max pkt_time i.1 - pkt_time) = max pkt_time i.1 :=
      add_sub_cancel ..
    have htaken := hreserved.taken
    have hinside : Set.Ico (max pkt_time i.1) (max pkt_time i.1 + processing_time) ⊆
        points r.model.m_free_interval_list := by
      intro x hx
      have hlt := Fin.lt_def.mp hx.2
      refine ⟨i, hmem, hreserved.inside.1.trans hx.1, Fin.lt_def.mpr ?_⟩
      have := hreserved.inside.2
      omega
    rw [after, hold, if_neg Bool.false_ne_true, hstart]
    refine ⟨hwf, ?_, ?_, List.pairwise_cons.mpr ⟨?_, h.once⟩⟩
    · rw [h.window, MovingArithmeticMean.update_window cfg.size_pos]
      rfl
    · intro slot hslot
      obtain rfl | hslot := List.mem_cons.mp hslot
      · exact Set.disjoint_left.mpr fun x hx => (htaken hx).2
      · exact (h.given slot hslot).mono_left (htaken.trans Set.sdiff_subset)
    · exact fun slot hslot => (h.given slot hslot).mono_left hinside

theorem Inv.call (h : Inv cfg r) (hallowed : Allowed cfg r pkt_time processing_time) :
    ∃ queue_delay model,
      computeQueueDelay cfg pkt_time processing_time r.model = .ok (queue_delay, model) ∧
      Outcome cfg r pkt_time processing_time queue_delay model ∧
      Inv cfg (r.after cfg pkt_time processing_time queue_delay model) := by
  obtain ⟨-, -, hcase⟩ := hallowed
  cases hold : isOld cfg pkt_time processing_time r.model.m_free_interval_list with
  | true =>
    rw [hold, if_pos rfl] at hcase
    refine ⟨_, _, h.old hold hcase, .averaged hold, ?_⟩
    rw [after, hold, if_pos rfl]
    exact h
  | false =>
    rw [hold, if_neg Bool.false_ne_true] at hcase
    exact h.serve hold hcase

theorem inv_of_reachable (h : Reachable (· = init) (Step cfg) r) : Inv cfg r := by
  induction h with
  | init hinit =>
    subst hinit
    exact inv_init cfg
  | step _ hstep ih =>
    obtain ⟨pkt_time, processing_time, queue_delay, model, hallowed, hok, rfl⟩ := hstep
    obtain ⟨queue_delay', model', hok', -, hinv⟩ := ih.call hallowed
    obtain ⟨rfl, rfl⟩ := Prod.mk.inj (Except.ok.inj (hok.symm.trans hok'))
    exact hinv

/-- While the requests fit, the list of free intervals stays in order and short, and every
request is served out of it or gets the mean of the last delays. -/
theorem free_list_kept (h : Reachable (· = init) (Step cfg) r) :
    r.model.m_free_interval_list ≠ [] ∧
    r.model.m_free_interval_list.length ≤ cfg.m_max_free_interval_list_size ∧
    r.model.m_free_interval_list.Pairwise (fun i j => i.1 < j.1 ∧ i.2 ≤ j.1) ∧
    (∀ i ∈ r.model.m_free_interval_list, i.1 < i.2) ∧
    ∀ pkt_time processing_time, Allowed cfg r pkt_time processing_time →
      ∃ queue_delay model,
        computeQueueDelay cfg pkt_time processing_time r.model = .ok (queue_delay, model) ∧
        Outcome cfg r pkt_time processing_time queue_delay model := by
  have hinv := inv_of_reachable h
  have hordered := hinv.wellFormed.ordered
  refine ⟨hinv.wellFormed.ne_nil, hinv.wellFormed.length_le,
    hordered.pairwise_lt.and hordered.sorted, hordered.lt, ?_⟩
  intro pkt_time processing_time hallowed
  obtain ⟨queue_delay, model, hok, houtcome, -⟩ := hinv.call hallowed
  exact ⟨queue_delay, model, hok, houtcome⟩

/-- A request waits until the one before it has been served. -/
theorem free_list_kept_delayed :
    let cfg : HistoryListConfig := ⟨1, 2, true, by decide, by decide, by decide⟩
    ∃ (r : Run) (model : QueueModelHistoryList), r.served = [⟨5, 5, 3⟩] ∧
      computeQueueDelay cfg 6 2 r.model = .ok (2, model) ∧ Outcome cfg r 6 2 2 model := by
  intro cfg
  have hreach : Reachable (· = init) (Step cfg) _ := .step (.init rfl) ⟨5, 3, 0, _,
    ⟨by decide, by decide, (0, max_simulation_time), by decide, by decide, by decide⟩, rfl, rfl⟩
  obtain ⟨queue_delay, model, hok, houtcome⟩ := (free_list_kept hreach).2.2.2.2 6 2
    ⟨by decide, by decide, (8, max_simulation_time), by decide, by decide, by decide⟩
  obtain ⟨rfl, rfl⟩ := Prod.mk.inj (Except.ok.inj hok)
  exact ⟨_, _, rfl, hok, houtcome⟩

/-- The third request is older than the list and gets the delay of the second one. Without the
mean, it is longer than the interval it is put in. -/
theorem old_and_long_requests :
    (do
      let cfg : HistoryListConfig := ⟨1, 1, true, by decide, by decide, by decide⟩
      let (_, model) ← computeQueueDelay cfg 5 1 create
      let (_, model) ← computeQueueDelay cfg 5 2 model
      let (queue_delay, model) ← computeQueueDelay cfg 0 1 model
      return (queue_delay, model.m_free_interval_list)) =
        .ok ((1 : SubsecondTime), [(8, max_simulation_time)]) ∧
    (do
      let cfg : HistoryListConfig := ⟨1, 3, false, by decide, by decide, by decide⟩
      let (_, model) ← computeQueueDelay cfg 10 1 create
      let (_, model) ← computeQueueDelay cfg 20 1 model
      let (_, model) ← computeQueueDelay cfg 10 15 model
      return model.m_free_interval_list) =
        .ok [((0 : SubsecondTime), (10 : SubsecondTime)), (26, 20), (21, max_simulation_time)] := by
  decide

end Run
end QueueModelHistoryList
end Sniper.Timing
