import Mathlib.Algebra.Ring.Int.Defs
import Mathlib.Data.Fintype.Basic
import Sniper.Lib.Prefixes
import Sniper.Lib.Simulation

/-! # The loop branch predictor

`LoopBranchPredictor`: in each way an entry counts the outcomes of a branch in one direction, and
predicts the other direction at its limit. The entries of a way are those that `gen_index_tag`
can reach.
-/
namespace Sniper.Predictors
open Lib.Prefixes Function

/-- A counter of `n` bits. -/
structure SaturatingPredictor (n : Nat) where
  m_counter : Int
  lower : -2 ^ (n - 1) ≤ m_counter
  upper : m_counter ≤ 2 ^ (n - 1) - 1

namespace SaturatingPredictor
variable {n : Nat} (s : SaturatingPredictor n)

def predict : Bool := decide (0 ≤ s.m_counter)

theorem pow_pos : (0 : Int) < 2 ^ (n - 1) := Int.pow_pos (by omega)

def reset (prediction : Bool) : SaturatingPredictor n :=
  match prediction with
  | true => ⟨2 ^ (n - 1) - 1, by have := @pow_pos n; omega, Int.le_refl _⟩
  | false => ⟨-2 ^ (n - 1), Int.le_refl _, by have := @pow_pos n; omega⟩

def update (actual : Bool) : SaturatingPredictor n :=
  match actual with
  | true =>
    if h : s.m_counter ≠ 2 ^ (n - 1) - 1 then
      ⟨s.m_counter + 1, by have := s.lower; omega, by have := s.upper; omega⟩
    else s
  | false =>
    if h : s.m_counter ≠ -2 ^ (n - 1) then
      ⟨s.m_counter - 1, by have := s.lower; omega, by have := s.upper; omega⟩
    else s

theorem predict_update (s : SaturatingPredictor 1) (actual : Bool) :
    (s.update actual).predict = actual := by
  have hlower := s.lower
  have hupper := s.upper
  cases actual with
  | true =>
    refine decide_eq_true ?_
    dsimp only [update]
    split
    · dsimp only
      omega
    · omega
  | false =>
    refine decide_eq_false ?_
    dsimp only [update]
    split
    · dsimp only
      omega
    · omega

end SaturatingPredictor

/-! ## Entries -/

abbrev Index := Fin 64
abbrev Tag := Fin 64

def gen_index_tag (ip : UInt64) : Index × Tag :=
  (Fin.ofNat 64 ((ip >>> 4) &&& 0x3F).toNat, Fin.ofNat 64 ((ip >>> 10) &&& 0x3F).toNat)

/-- What an entry knows of its loop. -/
structure Loop where
  previous_actual : Bool
  enabled : Bool
  predictor : SaturatingPredictor 1
  count : UInt32
  limit : UInt32

namespace Loop
variable (loop : Loop)

/-- The initial counter of the predictor is 0. -/
def initial : Loop := ⟨false, false, .reset true, 0, 0⟩

def prediction_match (actual : Bool) : Bool :=
  if loop.count = loop.limit then loop.predictor.predict != actual
  else loop.predictor.predict == actual

/-- The counter, the limit and whether the entry is enabled, while the direction is the same. -/
def same_direction (actual : Bool) : UInt32 × UInt32 × Bool :=
  if loop.prediction_match actual = false then
    if loop.count < loop.limit then (0, loop.count, loop.enabled)
    else (loop.count + 1, loop.count + 1, false)
  else (if loop.count = loop.limit then 0 else loop.count + 1, loop.limit, loop.enabled)

/-- `update` of an entry whose tag matches. -/
def train (actual : Bool) : Loop :=
  let (same_counter, same_limit, same_enabled) := loop.same_direction actual
  if loop.previous_actual = actual ∧ actual = !loop.predictor.predict then
    { previous_actual := actual
      enabled := false
      predictor := loop.predictor.update actual
      count := 1
      limit := 1 }
  else if (loop.previous_actual ≠ actual ∧ actual = !loop.predictor.predict) ∧
      loop.enabled = false then
    { loop with previous_actual := actual, enabled := true, count := 0 }
  else
    { loop with
      previous_actual := actual
      enabled := same_enabled
      count := same_counter
      limit := same_limit }

/-- The fields that an allocation sets; it leaves `m_enabled` as it was. -/
def allocate (actual : Bool) : Loop :=
  { loop with predictor := .reset actual, previous_actual := actual, count := 1, limit := 1 }

/-- The prediction of a hit. -/
def prediction : Bool :=
  if loop.count = loop.limit then !loop.predictor.predict else loop.predictor.predict

end Loop

structure Entry where
  tag : Tag
  lru : UInt64
  loop : Loop

/-! ## The ways -/

/-- With `n + 1` ways. -/
structure LoopBranchPredictor (n : Nat) where
  m_lru_use_count : UInt64
  m_ways : Fin (n + 1) → Index → Entry

inductive Event where
  | lookup (ip : UInt64)
  | update (actual : Bool) (ip : UInt64)

namespace LoopBranchPredictor
variable {n : Nat} (s : LoopBranchPredictor n)

def create : LoopBranchPredictor n := ⟨0, fun _ _ => ⟨0, 0, .initial⟩⟩

/-- An entry is written and counts as just used. -/
def put (way : Fin (n + 1)) (index : Index) (tag : Tag) (loop : Loop) : LoopBranchPredictor n where
  m_lru_use_count := s.m_lru_use_count + 1
  m_ways := update s.m_ways way
    (update (s.m_ways way) index ⟨tag, s.m_lru_use_count, loop⟩)

/-- The first way that hits. -/
def hit_way (index : Index) (tag : Tag) : Option (Fin (n + 1)) :=
  (List.finRange (n + 1)).find? fun w =>
    (s.m_ways w index).loop.enabled && decide ((s.m_ways w index).tag = tag)

/-- The prediction if there is a hit. -/
def lookup (ip : UInt64) : Option Bool × LoopBranchPredictor n :=
  let (index, tag) := gen_index_tag ip
  match s.hit_way index tag with
  | some w =>
    (some (s.m_ways w index).loop.prediction,
      s.put w index (s.m_ways w index).tag (s.m_ways w index).loop)
  | none => (none, s)

/-- The first way with the tag. -/
def tag_way (index : Index) (tag : Tag) : Option (Fin (n + 1)) :=
  (List.finRange (n + 1)).find? fun w => decide ((s.m_ways w index).tag = tag)

open scoped Lib.Sizes

def lru_way (index : Index) : Fin (n + 1) :=
  (List.finRange (n + 1)).foldl (fun lru_way w =>
    if (s.m_ways w index).lru < (s.m_ways lru_way index).lru then w else lru_way) 0

def update (actual : Bool) (ip : UInt64) : LoopBranchPredictor n :=
  let (index, tag) := gen_index_tag ip
  match s.tag_way index tag with
  | some w => s.put w index tag ((s.m_ways w index).loop.train actual)
  | none => s.put (s.lru_way index) index tag ((s.m_ways (s.lru_way index) index).loop.allocate actual)

def step : Event → LoopBranchPredictor n
  | .lookup ip => (s.lookup ip).2
  | .update actual ip => s.update actual ip

def run (n : Nat) (events : List Event) : LoopBranchPredictor n := events.foldl step create

/-! ## What a step does to an entry -/

variable {s} {w v : Fin (n + 1)} {index : Index} {tag : Tag} {event : Event}

theorem tag_of_tag_way (h : s.tag_way index tag = some w) : (s.m_ways w index).tag = tag :=
  of_decide_eq_true (List.find?_some (p := fun w => decide ((s.m_ways w index).tag = tag)) h)

theorem tag_ne_of_tag_way (h : s.tag_way index tag = none) (w : Fin (n + 1)) :
    (s.m_ways w index).tag ≠ tag := fun htag =>
  List.find?_eq_none.mp h w (List.mem_finRange w) (decide_eq_true htag)

theorem of_hit_way (h : s.hit_way index tag = some w) :
    (s.m_ways w index).loop.enabled = true ∧ (s.m_ways w index).tag = tag := by
  have hp := List.find?_some h
  rw [Bool.and_eq_true] at hp
  exact ⟨hp.1, of_decide_eq_true hp.2⟩

theorem hit_way_ne_none (henabled : (s.m_ways w index).loop.enabled = true)
    (htag : (s.m_ways w index).tag = tag) : s.hit_way index tag ≠ none := fun hnone => by
  have hnot := List.find?_eq_none.mp hnone w (List.mem_finRange w)
  rw [henabled, decide_eq_true htag] at hnot
  exact hnot rfl

theorem lookup_fst (s : LoopBranchPredictor n) (ip : UInt64) :
    (s.lookup ip).1 = (s.hit_way (gen_index_tag ip).1 (gen_index_tag ip).2).map fun w =>
      (s.m_ways w (gen_index_tag ip).1).loop.prediction := by
  unfold lookup
  dsimp only
  cases s.hit_way (gen_index_tag ip).1 (gen_index_tag ip).2 with
  | none | some w => rfl

theorem put_self (s : LoopBranchPredictor n) (w : Fin (n + 1)) (index : Index) (tag : Tag)
    (loop : Loop) : (s.put w index tag loop).m_ways w index = ⟨tag, s.m_lru_use_count, loop⟩ := by
  unfold put
  dsimp only
  rw [update_self, update_self]

theorem put_of_ne {other} (h : v ≠ w ∨ other ≠ index) (tag : Tag) (loop : Loop) :
    (s.put w index tag loop).m_ways v other = s.m_ways v other := by
  unfold put
  dsimp only
  by_cases hw : v = w
  · subst hw
    rw [update_self, update_of_ne (h.resolve_left fun hne => hne rfl)]
  · rw [update_of_ne hw]

/-- The entry is trained with the outcome. -/
def Trains (s : LoopBranchPredictor n) (event : Event) (w : Fin (n + 1)) (index : Index)
    (actual : Bool) : Prop :=
  ∃ ip, event = .update actual ip ∧ (gen_index_tag ip).1 = index ∧
    s.tag_way index (gen_index_tag ip).2 = some w

/-- The entry is the one that the branch gets after a miss. -/
def Allocates (s : LoopBranchPredictor n) (event : Event) (w : Fin (n + 1)) (index : Index) : Prop :=
  ∃ actual ip, event = .update actual ip ∧ (gen_index_tag ip).1 = index ∧
    s.tag_way index (gen_index_tag ip).2 = none ∧ s.lru_way index = w

theorem step_hit {actual ip} (h : s.tag_way (gen_index_tag ip).1 (gen_index_tag ip).2 = some w) :
    s.step (.update actual ip) = s.put w (gen_index_tag ip).1 (gen_index_tag ip).2
      ((s.m_ways w (gen_index_tag ip).1).loop.train actual) := by
  change s.update actual ip = _
  unfold update
  dsimp only
  rw [h]

theorem step_miss {actual ip} (h : s.tag_way (gen_index_tag ip).1 (gen_index_tag ip).2 = none) :
    s.step (.update actual ip) =
      s.put (s.lru_way (gen_index_tag ip).1) (gen_index_tag ip).1 (gen_index_tag ip).2
        ((s.m_ways (s.lru_way (gen_index_tag ip).1) (gen_index_tag ip).1).loop.allocate actual) := by
  change s.update actual ip = _
  unfold update
  dsimp only
  rw [h]

theorem step_cases (s : LoopBranchPredictor n) (event : Event) (w : Fin (n + 1)) (index : Index) :
    ((s.step event).m_ways w index).tag = (s.m_ways w index).tag ∧
        ((s.step event).m_ways w index).loop = (s.m_ways w index).loop ∨
      (∃ actual, s.Trains event w index actual ∧
        ((s.step event).m_ways w index).tag = (s.m_ways w index).tag ∧
        ((s.step event).m_ways w index).loop = (s.m_ways w index).loop.train actual) ∨
      s.Allocates event w index ∧ ∃ actual ip, event = .update actual ip ∧
        ((s.step event).m_ways w index).tag = (gen_index_tag ip).2 ∧
        ((s.step event).m_ways w index).loop = (s.m_ways w index).loop.allocate actual := by
  cases event with
  | lookup ip =>
    refine .inl ?_
    change ((s.lookup ip).2.m_ways w index).tag = _ ∧ ((s.lookup ip).2.m_ways w index).loop = _
    unfold lookup
    dsimp only
    split
    case h_1 hit _ =>
      by_cases hself : w = hit ∧ index = (gen_index_tag ip).1
      · obtain ⟨rfl, rfl⟩ := hself
        rw [put_self]
        exact ⟨rfl, rfl⟩
      · rw [put_of_ne (not_and_or.mp hself)]
        exact ⟨rfl, rfl⟩
    case h_2 => exact ⟨rfl, rfl⟩
  | update actual ip =>
    cases hway : s.tag_way (gen_index_tag ip).1 (gen_index_tag ip).2 with
    | some owner =>
      rw [step_hit hway]
      by_cases hself : w = owner ∧ index = (gen_index_tag ip).1
      · obtain ⟨rfl, rfl⟩ := hself
        rw [put_self]
        exact .inr (.inl ⟨actual, ⟨ip, rfl, rfl, hway⟩, (tag_of_tag_way hway).symm, rfl⟩)
      · rw [put_of_ne (not_and_or.mp hself)]
        exact .inl ⟨rfl, rfl⟩
    | none =>
      rw [step_miss hway]
      by_cases hself : w = s.lru_way (gen_index_tag ip).1 ∧ index = (gen_index_tag ip).1
      · obtain ⟨rfl, rfl⟩ := hself
        rw [put_self]
        exact .inr (.inr ⟨⟨actual, ip, rfl, rfl, hway, rfl⟩, actual, ip, rfl, rfl, rfl⟩)
      · rw [put_of_ne (not_and_or.mp hself)]
        exact .inl ⟨rfl, rfl⟩

theorem run_concat (n : Nat) (before : List Event) (event : Event) :
    run n (before ++ [event]) = (run n before).step event := by
  unfold run
  rw [List.foldl_concat]

/-! ## Hits -/

/-- The outcome enables the entry: it goes against the learned direction, after one along it. -/
def Enables (s : LoopBranchPredictor n) (event : Event) (w : Fin (n + 1)) (index : Index) : Prop :=
  ∃ actual, s.Trains event w index actual ∧ (s.m_ways w index).loop.enabled = false ∧
    (s.m_ways w index).loop.previous_actual ≠ actual ∧
    actual = !(s.m_ways w index).loop.predictor.predict

/-- An update enabled the entry, which was neither allocated nor disabled since. -/
def Earned (n : Nat) (before : List Event) (w : Fin (n + 1)) (index : Index) : Prop :=
  ∃ front event since, before = front ++ event :: since ∧ (run n front).Enables event w index ∧
    (∀ middle, middle <+: since →
      ((run n (front ++ event :: middle)).m_ways w index).loop.enabled = true) ∧
    ∀ middle later, middle ++ [later] <+: since →
      ¬ (run n (front ++ event :: middle)).Allocates later w index

theorem enabled_of_train {loop : Loop} {actual} (hbefore : loop.enabled = false)
    (hafter : (loop.train actual).enabled = true) :
    loop.previous_actual ≠ actual ∧ actual = !loop.predictor.predict := by
  have hsame : (loop.same_direction actual).2.2 = false := by
    unfold Loop.same_direction
    split
    · split
      · exact hbefore
      · rfl
    · exact hbefore
  unfold Loop.train at hafter
  dsimp only at hafter
  split at hafter
  · cases hafter
  · split at hafter
    case isTrue hnew => exact hnew.1
    case isFalse =>
      rw [hsame] at hafter
      cases hafter

theorem Earned.concat {before} (h : Earned n before w index)
    (henabled : ((run n (before ++ [event])).m_ways w index).loop.enabled = true)
    (hkept : ¬ (run n before).Allocates event w index) : Earned n (before ++ [event]) w index := by
  obtain ⟨front, first, since, rfl, henables, hall, hnone⟩ := h
  refine ⟨front, first, since ++ [event], by simp, henables, fun middle hmiddle => ?_,
    fun middle later hlater => ?_⟩
  · rcases List.prefix_concat_iff.mp hmiddle with rfl | hshort
    · rw [List.append_assoc, List.cons_append] at henabled
      exact henabled
    · exact hall middle hshort
  · rcases List.prefix_concat_iff.mp hlater with heq | hshort
    · obtain ⟨rfl, hlast⟩ := List.append_inj' heq rfl
      cases hlast
      exact hkept
    · exact hnone middle later hshort

theorem earned_of_enabled (events : List Event)
    (h : ∀ before event, before ++ [event] <+: events → ∀ w index,
      (run n before).Allocates event w index →
        ((run n before).m_ways w index).loop.enabled = false) :
    ∀ before, before <+: events → ∀ w index,
      ((run n before).m_ways w index).loop.enabled = true → Earned n before w index := by
  intro before
  induction before using List.reverseRecOn with
  | nil => exact fun _ w index henabled => Bool.noConfusion henabled
  | append_singleton before event ih =>
    intro hprefix w index henabled
    have hbefore := ih (prefix_of_concat hprefix) w index
    have hnot : ((run n before).m_ways w index).loop.enabled = true →
        ¬ (run n before).Allocates event w index := fun hold hallocates =>
      Bool.noConfusion (hold.symm.trans (h before event hprefix w index hallocates))
    by_cases hold : ((run n before).m_ways w index).loop.enabled = true
    · exact (hbefore hold).concat henabled (hnot hold)
    · have hafter := henabled
      rw [run_concat] at hafter
      rw [Bool.not_eq_true] at hold
      rcases step_cases (run n before) event w index with
        ⟨_, hloop⟩ | ⟨actual, htrains, _, hloop⟩ | ⟨_, actual, _, _, _, hloop⟩
      · rw [hloop, hold] at hafter
        cases hafter
      · rw [hloop] at hafter
        refine ⟨before, event, [], rfl, ⟨actual, htrains, hold, enabled_of_train hold hafter⟩,
          fun middle hmiddle => ?_, fun middle later hlater => ?_⟩
        · rw [List.prefix_nil.mp hmiddle]
          exact henabled
        · exact absurd (List.prefix_nil.mp hlater) (by simp)
      · rw [hloop] at hafter
        exact absurd (hold.symm.trans hafter) Bool.false_ne_true

theorem not_earned_of_allocates {before} (h : (run n before).Allocates event w index) :
    ¬ Earned n (before ++ [event]) w index := by
  rintro ⟨front, first, since, hbefore, ⟨actual, ⟨ip, hfirst, _, hway⟩, _⟩, _, hnone⟩
  induction since using List.reverseRecOn with
  | nil =>
    obtain ⟨rfl, hlast⟩ := List.append_inj' hbefore rfl
    obtain ⟨actual', ip', hevent, rfl, hmiss, _⟩ := h
    cases hlast
    cases hfirst.symm.trans hevent
    rw [hmiss] at hway
    cases hway
  | append_singleton since later _ =>
    rw [← List.cons_append, ← List.append_assoc] at hbefore
    obtain ⟨rfl, hlast⟩ := List.append_inj' hbefore rfl
    cases hlast
    exact hnone since event (List.prefix_refl _) h

/-- The hits of a run are all earned just if no enabled entry is given to another branch. -/
theorem hits_earned_iff (n : Nat) (events : List Event) :
    (∀ before, before <+: events → ∀ ip, ((run n before).lookup ip).1 ≠ none →
        ∃ w, (run n before).hit_way (gen_index_tag ip).1 (gen_index_tag ip).2 = some w ∧
          Earned n before w (gen_index_tag ip).1) ↔
      ∀ before event, before ++ [event] <+: events → ∀ w index,
        (run n before).Allocates event w index →
          ((run n before).m_ways w index).loop.enabled = false := by
  constructor
  · rintro hearned before event hprefix w _ ⟨actual, ip, rfl, rfl, hmiss, rfl⟩
    by_contra henabled
    rw [Bool.not_eq_false] at henabled
    have hafter := run_concat n before (.update actual ip)
    rw [step_miss hmiss] at hafter
    have hself := congrArg (fun s => s.m_ways ((run n before).lru_way (gen_index_tag ip).1)
      (gen_index_tag ip).1) hafter
    rw [put_self] at hself
    have hhit := hit_way_ne_none (congrArg (fun e => e.loop.enabled) hself |>.trans henabled)
      (congrArg Entry.tag hself)
    have hlookup : ((run n (before ++ [.update actual ip])).lookup ip).1 ≠ none := by
      rw [lookup_fst]
      exact fun hnone => hhit (Option.map_eq_none_iff.mp hnone)
    obtain ⟨w, hw, hearnt⟩ := hearned _ hprefix ip hlookup
    -- Only the new entry has the tag.
    have hlru : w = (run n before).lru_way (gen_index_tag ip).1 := by
      by_contra hne
      have htag := (of_hit_way hw).2
      rw [hafter, put_of_ne (.inl hne)] at htag
      exact tag_ne_of_tag_way hmiss w htag
    rw [hlru] at hearnt
    exact not_earned_of_allocates ⟨actual, ip, rfl, rfl, hmiss, rfl⟩ hearnt
  · intro hdisabled before hprefix ip hlookup
    rw [lookup_fst] at hlookup
    obtain ⟨w, hw⟩ := Option.ne_none_iff_exists'.mp (mt Option.map_eq_none_iff.mpr hlookup)
    exact ⟨w, hw, earned_of_enabled events hdisabled before hprefix w _ (of_hit_way hw).1⟩

/-- With one way, the branch at 1024 gets the enabled entry of the branch at 0, and hits. -/
theorem hit_after_allocation :
    ((run 0 [.update false 0, .update true 0, .update true 1024]).lookup 1024).1 = some false ∧
      ∀ w, ¬ Earned 0 [.update false 0, .update true 0, .update true 1024] w
        (gen_index_tag 1024).1 := by
  refine ⟨by decide +kernel, fun w => ?_⟩
  have hallocates : (run 0 [.update false 0, .update true 0]).Allocates (.update true 1024) w
      (gen_index_tag 1024).1 :=
    ⟨true, 1024, rfl, rfl, by decide +kernel, Fin.eq_zero _ |>.trans (Fin.eq_zero _).symm⟩
  exact not_earned_of_allocates hallocates

end LoopBranchPredictor

end Sniper.Predictors
