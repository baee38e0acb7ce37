import Sniper.Predictors.LoopPredictor

/-! # Learning a loop

From any state an entry learns a loop in two periods. In the first it turns to the direction of
the loop, unless the loop is a mere alternation; in the second it finds its length.
-/
namespace Sniper.Predictors

/-- A loop of `n` outcomes `d` and one that leaves it. -/
def outcome (d : Bool) (n k : Nat) : Bool := if k % (n + 1) = n then !d else d

namespace Loop
variable {loop : Loop} {d : Bool} {n r k : Nat}

/-! ## One outcome -/

theorem train_along (hpredict : loop.predictor.predict = d) :
    loop.train d =
      { loop with
        previous_actual := d
        enabled := (loop.same_direction d).2.2
        count := (loop.same_direction d).1
        limit := (loop.same_direction d).2.1 } := by
  have hsame : ¬ d = !loop.predictor.predict := by rw [hpredict]; cases d <;> decide
  unfold train
  dsimp only
  rw [if_neg fun h => hsame h.2, if_neg fun h => hsame h.1.2]

theorem train_turn (hpredict : loop.predictor.predict = d) (hprevious : loop.previous_actual = d) :
    loop.train (!d) = if loop.enabled = false then
        { loop with previous_actual := !d, enabled := true, count := 0 }
      else
        { loop with
          previous_actual := !d
          enabled := (loop.same_direction (!d)).2.2
          count := (loop.same_direction (!d)).1
          limit := (loop.same_direction (!d)).2.1 } := by
  have hne : ¬ loop.previous_actual = !d := by rw [hprevious]; cases d <;> decide
  unfold train
  dsimp only
  rw [if_neg fun h => hne h.1]
  by_cases henabled : loop.enabled = false
  · rw [if_pos ⟨⟨hne, by rw [hpredict]⟩, henabled⟩, if_pos henabled]
  · rw [if_neg fun h => henabled h.2, if_neg henabled]

theorem train_change (hpredict : loop.predictor.predict = !d) (hprevious : loop.previous_actual = d) :
    loop.train d =
      { previous_actual := d
        enabled := false
        predictor := loop.predictor.update d
        count := 1
        limit := 1 } := by
  unfold train
  dsimp only
  rw [if_pos ⟨hprevious, by rw [hpredict, Bool.not_not]⟩]

theorem previous_train (loop : Loop) (actual : Bool) :
    (loop.train actual).previous_actual = actual := by
  unfold train
  dsimp only
  split
  · rfl
  · split
    · rfl
    · rfl

theorem match_along (hpredict : loop.predictor.predict = d) :
    loop.prediction_match d = decide (loop.count ≠ loop.limit) := by
  unfold prediction_match
  split <;> simp [*]

theorem match_turn (hpredict : loop.predictor.predict = d) :
    loop.prediction_match (!d) = decide (loop.count = loop.limit) := by
  unfold prediction_match
  split <;> simp [*]

theorem same_along (hpredict : loop.predictor.predict = d) :
    loop.same_direction d = if loop.count = loop.limit then (loop.count + 1, loop.count + 1, false)
      else (loop.count + 1, loop.limit, loop.enabled) := by
  unfold same_direction
  rw [match_along hpredict]
  by_cases hlimit : loop.count = loop.limit
  · have hlt : ¬ loop.count < loop.limit := by rw [hlimit]; exact UInt32.lt_irrefl _
    rw [if_pos (by rw [hlimit]; exact decide_eq_false fun h => h rfl), if_neg hlt, if_pos hlimit]
  · rw [decide_eq_true hlimit, if_neg Bool.true_eq_false.mp, if_neg hlimit, if_neg hlimit]

theorem same_turn (hpredict : loop.predictor.predict = d) (hbounded : loop.count ≤ loop.limit) :
    loop.same_direction (!d) = (0, loop.count, loop.enabled) := by
  unfold same_direction
  rw [match_turn hpredict]
  by_cases hlimit : loop.count = loop.limit
  · rw [decide_eq_true hlimit, if_neg Bool.true_eq_false.mp, if_pos hlimit, hlimit]
  · have hlt : loop.count < loop.limit := UInt32.lt_of_le_of_ne hbounded hlimit
    rw [if_pos (decide_eq_false hlimit), if_pos hlt]

/-! ## The states of an entry that learns -/

/-- The entry is turned to the direction of the loop, of which there were `r` outcomes. -/
structure Following (d : Bool) (r : Nat) (loop : Loop) : Prop where
  direction : loop.predictor.predict = d
  bounded : loop.count ≤ loop.limit
  previous : 0 < r → loop.previous_actual = d

/-- The entry has counted these outcomes, and is enabled up to its limit. -/
structure Counting (d : Bool) (r : Nat) (loop : Loop) : Prop extends Following d r loop where
  counted : loop.count.toNat = r
  ready : loop.enabled = true ∨ loop.count = loop.limit

/-- The limit is the length of the loop. -/
structure Settled (d : Bool) (n r : Nat) (loop : Loop) : Prop extends Following d r loop where
  counted : loop.count.toNat = r
  enabled : loop.enabled = true
  length : loop.limit.toNat = n

theorem toNat_succ {count : UInt32} (h : count.toNat + 1 < 2 ^ 32) :
    (count + 1).toNat = count.toNat + 1 := by
  exact Nat.mod_eq_of_lt h

theorem lt_limit (hbounded : loop.count ≤ loop.limit) (hlimit : loop.count ≠ loop.limit) :
    loop.count.toNat < loop.limit.toNat :=
  UInt32.lt_iff_toNat_lt.mp (UInt32.lt_of_le_of_ne hbounded hlimit)

theorem succ_le_limit (hbounded : loop.count ≤ loop.limit) (hlimit : loop.count ≠ loop.limit) :
    loop.count + 1 ≤ loop.limit := by
  have hlt := lt_limit hbounded hlimit
  have hsize := loop.limit.toNat_lt
  rw [UInt32.le_iff_toNat_le, toNat_succ (by omega)]
  exact hlt

theorem Following.along (h : Following d r loop) : Following d (r + 1) (loop.train d) := by
  rw [train_along h.direction, same_along h.direction]
  refine ⟨h.direction, ?_, fun _ => rfl⟩
  by_cases hlimit : loop.count = loop.limit
  · rw [if_pos hlimit]
    exact UInt32.le_refl _
  · rw [if_neg hlimit]
    exact succ_le_limit h.bounded hlimit

theorem Following.turn (h : Following d r loop) (hpos : 0 < r) : Counting d 0 (loop.train !d) := by
  rw [train_turn h.direction (h.previous hpos), same_turn h.direction h.bounded]
  split
  case isTrue => exact ⟨⟨h.direction, UInt32.zero_le, fun hlt => absurd hlt (by omega)⟩, rfl, .inl rfl⟩
  case isFalse henabled =>
    exact ⟨⟨h.direction, UInt32.zero_le, fun hlt => absurd hlt (by omega)⟩, rfl,
      .inl (Bool.not_eq_false _ |>.mp henabled)⟩

theorem Counting.along (h : Counting d r loop) (hsize : r + 1 < 2 ^ 32) :
    Counting d (r + 1) (loop.train d) := by
  refine ⟨h.toFollowing.along, ?_, ?_⟩
  all_goals rw [train_along h.direction, same_along h.direction]
  · have hcount : (loop.count + 1).toNat = r + 1 := by
      rw [toNat_succ (by rw [h.counted]; exact hsize), h.counted]
    split
    · exact hcount
    · exact hcount
  · by_cases hlimit : loop.count = loop.limit
    · rw [if_pos hlimit]
      exact .inr rfl
    · rw [if_neg hlimit]
      exact .inl (h.ready.resolve_right hlimit)

theorem Counting.turn (h : Counting d n loop) (hpos : 0 < n) : Settled d n 0 (loop.train !d) := by
  have hturn := h.toFollowing.turn hpos
  refine ⟨hturn.toFollowing, hturn.counted, ?_, ?_⟩
  all_goals rw [train_turn h.direction (h.previous hpos), same_turn h.direction h.bounded]
  · split
    case isTrue => rfl
    case isFalse henabled => exact Bool.not_eq_false _ |>.mp henabled
  · split
    case isTrue henabled =>
      have hlimit := h.ready.resolve_left fun htrue => Bool.noConfusion (henabled.symm.trans htrue)
      exact (congrArg UInt32.toNat hlimit).symm.trans h.counted
    case isFalse => exact h.counted

theorem Settled.counting (h : Settled d n r loop) : Counting d r loop :=
  ⟨h.toFollowing, h.counted, .inl h.enabled⟩

theorem Settled.along (h : Settled d n r loop) (hlt : r < n) : Settled d n (r + 1) (loop.train d) := by
  have hsize := loop.limit.toNat_lt
  have hlimit : loop.count ≠ loop.limit := fun heq => by
    have hn := h.length
    rw [← heq, h.counted] at hn
    omega
  have hcounting := h.counting.along (by have := h.length; omega)
  refine ⟨hcounting.toFollowing, hcounting.counted, ?_, ?_⟩
  all_goals rw [train_along h.direction, same_along h.direction, if_neg hlimit]
  · exact h.enabled
  · exact h.length

theorem Settled.prediction (h : Settled d n r loop) :
    loop.prediction = if r = n then !d else d := by
  have hlimit : loop.count = loop.limit ↔ r = n := by
    rw [← UInt32.toNat_inj, h.counted, h.length]
  unfold Loop.prediction
  rw [h.direction]
  exact if_congr hlimit rfl rfl

/-! ## Periods -/

/-- The entry after `k` outcomes of the loop. -/
def after (loop : Loop) (d : Bool) (n : Nat) : Nat → Loop
  | 0 => loop
  | k + 1 => (after loop d n k).train (outcome d n k)

theorem outcome_along (hlt : k < n) : outcome d n k = d := by
  unfold outcome
  rw [Nat.mod_eq_of_lt (by omega), if_neg (by omega)]

theorem outcome_turn (d : Bool) (n : Nat) : outcome d n n = !d := by
  unfold outcome
  rw [Nat.mod_eq_of_lt (by omega), if_pos rfl]

theorem outcome_period {i} (hi : n + 1 ∣ i) (d : Bool) (k : Nat) :
    outcome d n (i + k) = outcome d n k := by
  obtain ⟨m, rfl⟩ := hi
  unfold outcome
  rw [Nat.mul_add_mod]

theorem after_period {i} (hi : n + 1 ∣ i) (loop : Loop) (d : Bool) (k : Nat) :
    loop.after d n (i + k) = (loop.after d n i).after d n k := by
  induction k with
  | zero => rfl
  | succ k ih =>
    calc loop.after d n (i + k + 1)
        = (loop.after d n (i + k)).train (outcome d n (i + k)) := rfl
      _ = ((loop.after d n i).after d n k).train (outcome d n k) := by
        rw [ih, outcome_period hi]

theorem outcome_swap (d : Bool) (k : Nat) : outcome d 1 (1 + k) = outcome (!d) 1 k := by
  unfold outcome
  rw [Bool.not_not]
  by_cases hodd : k % 2 = 1
  · rw [if_neg (by omega), if_pos hodd]
  · rw [if_pos (by omega), if_neg hodd]

theorem after_swap (loop : Loop) (d : Bool) (k : Nat) :
    loop.after d 1 (1 + k) = (loop.train d).after (!d) 1 k := by
  induction k with
  | zero => rfl
  | succ k ih =>
    calc loop.after d 1 (1 + k + 1)
        = (loop.after d 1 (1 + k)).train (outcome d 1 (1 + k)) := rfl
      _ = ((loop.train d).after (!d) 1 k).train (outcome (!d) 1 k) := by rw [ih, outcome_swap]

theorem after_along (loop : Loop) (hlt : k < n) :
    loop.after d n (k + 1) = (loop.after d n k).train d := by
  change (loop.after d n k).train (outcome d n k) = _
  rw [outcome_along hlt]

theorem after_turn (loop : Loop) (d : Bool) (n : Nat) :
    loop.after d n (n + 1) = (loop.after d n n).train !d := by
  change (loop.after d n n).train (outcome d n n) = _
  rw [outcome_turn]

theorem Following.turned (h : Following d r (loop.after d n r)) (hr : r ≤ n) (hpos : 0 < n) :
    Counting d 0 (loop.after d n (n + 1)) := by
  have hfollowing : ∀ k, r ≤ k → k ≤ n → Following d k (loop.after d n k) := by
    intro k hrk
    induction k, hrk using Nat.le_induction with
    | base => exact fun _ => h
    | succ k _ ih =>
      intro hk
      rw [after_along loop hk]
      exact (ih (by omega)).along
  rw [after_turn]
  exact (hfollowing n hr le_rfl).turn hpos

theorem Counting.settled (h : Counting d 0 loop) (hpos : 0 < n) (hsize : n < 2 ^ 32) :
    Settled d n 0 (loop.after d n (n + 1)) := by
  have hcounting : ∀ k, k ≤ n → Counting d k (loop.after d n k) := by
    intro k
    induction k with
    | zero => exact fun _ => h
    | succ k ih =>
      intro hk
      rw [after_along loop hk]
      exact (ih (by omega)).along (by omega)
  rw [after_turn]
  exact (hcounting n le_rfl).turn hpos

theorem Settled.after (h : Settled d n 0 loop) (hpos : 0 < n) (k : Nat) :
    Settled d n (k % (n + 1)) (loop.after d n k) := by
  induction k with
  | zero => exact h
  | succ k ih =>
    change Settled d n ((k + 1) % (n + 1)) ((loop.after d n k).train (outcome d n k))
    unfold outcome
    by_cases hlast : k % (n + 1) = n
    · rw [if_pos hlast, Nat.succ_mod_succ_eq_zero_iff.mpr hlast]
      rw [hlast] at ih
      exact ih.counting.turn hpos
    · have hlt : k % (n + 1) < n + 1 := Nat.mod_lt k (Nat.succ_pos n)
      rw [if_neg hlast, Nat.add_mod, Nat.mod_eq_of_lt (show 1 < n + 1 by omega),
        Nat.mod_eq_of_lt (show k % (n + 1) + 1 < n + 1 by omega)]
      exact ih.along (by omega)

/-- The entry hits and predicts this outcome. -/
def Predicts (loop : Loop) (actual : Bool) : Prop :=
  loop.enabled = true ∧ loop.prediction = actual

theorem Settled.predicts (h : Settled d n 0 loop) (hpos : 0 < n) (k : Nat) :
    (loop.after d n k).Predicts (outcome d n k) := by
  have hafter := h.after hpos k
  exact ⟨hafter.enabled, hafter.prediction⟩

theorem Counting.predicts (h : Counting d 0 loop) (hpos : 0 < n) (hsize : n < 2 ^ 32)
    (hk : n + 1 ≤ k) : (loop.after d n k).Predicts (outcome d n k) := by
  obtain ⟨j, rfl⟩ := Nat.exists_eq_add_of_le hk
  rw [after_period (Nat.dvd_refl _), outcome_period (Nat.dvd_refl _)]
  exact (h.settled hpos hsize).predicts hpos j

theorem Following.predicts (h : Following d r (loop.after d n r)) (hr : r ≤ n) (hpos : 0 < n)
    (hsize : n < 2 ^ 32) (hk : 2 * (n + 1) ≤ k) :
    (loop.after d n k).Predicts (outcome d n k) := by
  obtain ⟨j, rfl⟩ := Nat.exists_eq_add_of_le (show n + 1 ≤ k by omega)
  rw [after_period (Nat.dvd_refl _), outcome_period (Nat.dvd_refl _)]
  exact (h.turned hr hpos).predicts hpos hsize (by omega)

theorem following_change (hpredict : loop.predictor.predict = !d)
    (hprevious : loop.previous_actual = d) (r : Nat) : Following d r (loop.train d) := by
  rw [train_change hpredict hprevious]
  exact ⟨SaturatingPredictor.predict_update loop.predictor d, UInt32.le_refl _, fun _ => rfl⟩

theorem predicts_after (loop : Loop) (hbounded : loop.count ≤ loop.limit) (hpos : 0 < n)
    (hsize : n < 2 ^ 32) (hk : 2 * (n + 1) ≤ k) :
    (loop.after d n k).Predicts (outcome d n k) := by
  by_cases hpredict : loop.predictor.predict = d
  case pos =>
    have hzero : Following d 0 (loop.after d n 0) :=
      ⟨hpredict, hbounded, fun h => absurd h (Nat.lt_irrefl 0)⟩
    exact hzero.predicts (Nat.zero_le n) hpos hsize hk
  case neg =>
    have hpredict := Bool.eq_not.mpr hpredict
    have hfirst : loop.after d n 1 = loop.train d := after_along loop hpos
    by_cases hprevious : loop.previous_actual = d
    · have hone : Following d 1 (loop.after d n 1) := by
        rw [hfirst]
        exact following_change hpredict hprevious 1
      exact hone.predicts hpos hpos hsize hk
    · have hother : Counting (!d) 0 (loop.train d) := by
        have hfollowing : Following (!d) 1 loop :=
          ⟨hpredict, hbounded, fun _ => Bool.eq_not.mpr hprevious⟩
        have hturn := hfollowing.turn Nat.one_pos
        rw [Bool.not_not] at hturn
        exact hturn
      by_cases hone : n = 1
      case pos =>
        subst hone
        obtain ⟨j, rfl⟩ := Nat.exists_eq_add_of_le (show 1 ≤ k by omega)
        rw [after_swap, outcome_swap]
        exact hother.predicts Nat.one_pos hsize (by omega)
      case neg =>
        have htwo : Following d 2 (loop.after d n 2) := by
          rw [after_along loop (show 1 < n by omega), hfirst]
          exact following_change hother.direction (previous_train loop d) 2
        exact htwo.predicts (by omega) hpos hsize hk

/-- What the induction over the runs needs of an entry, whatever its outcomes are. -/
theorem bounded_train (hbounded : loop.count ≤ loop.limit) (actual : Bool) :
    (loop.train actual).count ≤ (loop.train actual).limit := by
  by_cases hpredict : loop.predictor.predict = actual
  case pos =>
    have hfollowing : Following actual 0 loop :=
      ⟨hpredict, hbounded, fun h => absurd h (Nat.lt_irrefl 0)⟩
    exact hfollowing.along.bounded
  case neg =>
    have hpredict := Bool.eq_not.mpr hpredict
    by_cases hprevious : loop.previous_actual = actual
    · exact (following_change hpredict hprevious 0).bounded
    · have hfollowing : Following (!actual) 1 loop :=
        ⟨hpredict, hbounded, fun _ => Bool.eq_not.mpr hprevious⟩
      have hturn := hfollowing.turn Nat.one_pos
      rw [Bool.not_not] at hturn
      exact hturn.bounded

theorem counted_of_predicts (hpredict : loop.predictor.predict = d)
    (hbounded : loop.count ≤ loop.limit) (hall : ∀ j < n, (loop.after d n j).Predicts d) :
    ∀ j ≤ n, Following d 0 (loop.after d n j) ∧ (loop.after d n j).limit = loop.limit ∧
      (loop.after d n j).count.toNat = loop.count.toNat + j := by
  intro j
  induction j with
  | zero => exact fun _ => ⟨⟨hpredict, hbounded, fun h => absurd h (Nat.lt_irrefl 0)⟩, rfl, rfl⟩
  | succ j ih =>
    intro hj
    obtain ⟨hfollowing, hlimit, hcount⟩ := ih (by omega)
    have hne : (loop.after d n j).count ≠ (loop.after d n j).limit := fun heq => by
      have hprediction := (hall j hj).2
      unfold prediction at hprediction
      rw [if_pos heq, hfollowing.direction] at hprediction
      cases d <;> cases hprediction
    have hlt := lt_limit hfollowing.bounded hne
    have hsize := (loop.after d n j).limit.toNat_lt
    have halong := hfollowing.along
    rw [after_along loop hj]
    refine ⟨⟨halong.direction, halong.bounded, fun h => absurd h (Nat.lt_irrefl 0)⟩, ?_, ?_⟩
    all_goals rw [train_along hfollowing.direction, same_along hfollowing.direction, if_neg hne]
    · exact hlimit
    · dsimp only
      rw [toNat_succ (by omega), hcount, Nat.add_assoc]

theorem not_predicts_change (hpredict : loop.predictor.predict = !d)
    (hprevious : loop.previous_actual = d) (actual : Bool) : ¬ (loop.train d).Predicts actual := by
  rw [train_change hpredict hprevious]
  exact fun h => Bool.noConfusion h.1

theorem exists_missed (hbounded : loop.count ≤ loop.limit) (hsize : 2 ^ 32 ≤ n) :
    ∃ j < n, ¬ (loop.after d n j).Predicts d := by
  by_contra hnone
  have hall : ∀ j < n, (loop.after d n j).Predicts d := fun j hj => by
    by_contra hnot
    exact hnone ⟨j, hj, hnot⟩
  have hfirst : loop.after d n 1 = loop.train d := after_along loop (by omega)
  by_cases hpredict : loop.predictor.predict = d
  case pos =>
    obtain ⟨hfollowing, hlimit, hcount⟩ := counted_of_predicts hpredict hbounded hall n le_rfl
    have hle := UInt32.le_iff_toNat_le.mp hfollowing.bounded
    have hlt := (loop.after d n n).limit.toNat_lt
    omega
  case neg =>
    have hpredict := Bool.eq_not.mpr hpredict
    have hone := hall 1 (by omega)
    rw [hfirst] at hone
    by_cases hprevious : loop.previous_actual = d
    · exact not_predicts_change hpredict hprevious d hone
    · have hfollowing : Following (!d) 1 loop :=
        ⟨hpredict, hbounded, fun _ => Bool.eq_not.mpr hprevious⟩
      have hturn := hfollowing.turn Nat.one_pos
      rw [Bool.not_not] at hturn
      have htwo := hall 2 (by omega)
      rw [after_along loop (show 1 < n by omega), hfirst] at htwo
      exact not_predicts_change hturn.direction (previous_train loop d) d htwo

theorem foldl_train (loop : Loop) (d : Bool) (n k : Nat) :
    ((List.range k).map (outcome d n)).foldl train loop = loop.after d n k := by
  induction k with
  | zero => rfl
  | succ k ih =>
    rw [List.range_succ, List.map_append, List.foldl_append, ih]
    rfl

end Loop

/-! ## Runs -/

namespace LoopBranchPredictor
variable {n : Nat} {w v : Fin (n + 1)} {index : Index} {tag : Tag} {event : Event}

/-- An enabled entry is the one that an update of its branch finds. -/
structure Sound (s : LoopBranchPredictor n) : Prop where
  bounded : ∀ w index, (s.m_ways w index).loop.count ≤ (s.m_ways w index).loop.limit
  owned : ∀ w index, (s.m_ways w index).loop.enabled = true →
    s.tag_way index (s.m_ways w index).tag = some w

variable {s t : LoopBranchPredictor n}

theorem tag_way_of_imp (h : s.tag_way index tag = some w) (hw : (t.m_ways w index).tag = tag)
    (himp : ∀ v, (t.m_ways v index).tag = tag → (s.m_ways v index).tag = tag) :
    t.tag_way index tag = some w := by
  obtain ⟨_, front, back, hlist, hfront⟩ := List.find?_eq_some_iff_append.mp h
  refine List.find?_eq_some_iff_append.mpr ⟨decide_eq_true hw, front, back, hlist, fun v hv => ?_⟩
  rw [Bool.not_eq_true', decide_eq_false_iff_not]
  intro htag
  have hnot := hfront v hv
  rw [decide_eq_true (himp v htag)] at hnot
  cases hnot

theorem tag_way_of_unique (hw : (s.m_ways w index).tag = tag)
    (hunique : ∀ v, (s.m_ways v index).tag = tag → v = w) : s.tag_way index tag = some w := by
  cases hway : s.tag_way index tag with
  | none => exact absurd hw (tag_ne_of_tag_way hway w)
  | some v => rw [hunique v (tag_of_tag_way hway)]

theorem step_tag (s : LoopBranchPredictor n) (event : Event) (v : Fin (n + 1)) (index : Index) :
    ((s.step event).m_ways v index).tag = (s.m_ways v index).tag ∨
      ∃ actual ip, event = .update actual ip ∧
        ((s.step event).m_ways v index).tag = (gen_index_tag ip).2 ∧
        s.tag_way index (gen_index_tag ip).2 = none ∧ s.lru_way index = v := by
  rcases step_cases s event v index with
    ⟨htag, _⟩ | ⟨_, _, htag, _⟩ | ⟨⟨actual, ip, rfl, rfl, hmiss, hlru⟩, _, _, heq, htag, _⟩
  · exact .inl htag
  · exact .inl htag
  · cases heq
    exact .inr ⟨actual, ip, rfl, htag, hmiss, hlru⟩

theorem Sound.create : Sound (create : LoopBranchPredictor n) :=
  ⟨fun _ _ => UInt32.le_refl _, fun _ _ h => Bool.noConfusion h⟩

theorem Sound.step (h : s.Sound) (event : Event) : (s.step event).Sound := by
  refine ⟨fun w index => ?_, fun w index henabled => ?_⟩
  case refine_1 =>
    rcases step_cases s event w index with
      ⟨_, hloop⟩ | ⟨actual, _, _, hloop⟩ | ⟨_, actual, _, _, _, hloop⟩
    · rw [hloop]
      exact h.bounded w index
    · rw [hloop]
      exact Loop.bounded_train (h.bounded w index) actual
    · rw [hloop]
      exact UInt32.le_refl _
  case refine_2 =>
    have hkept : s.tag_way index (s.m_ways w index).tag = some w →
        ((s.step event).m_ways w index).tag = (s.m_ways w index).tag →
        (s.step event).tag_way index ((s.step event).m_ways w index).tag = some w := by
      intro hway htag
      rw [htag]
      refine tag_way_of_imp hway htag fun v hv => ?_
      rcases step_tag s event v index with hsame | ⟨_, ip, _, hnew, hmiss, _⟩
      · exact hsame.symm.trans hv
      · exact absurd (hv.symm.trans hnew) (tag_ne_of_tag_way hmiss w)
    rcases step_cases s event w index with
      ⟨htag, hloop⟩ | ⟨actual, ⟨ip, _, rfl, hway⟩, htag, _⟩ |
        ⟨⟨actual, ip, rfl, rfl, hmiss, hlru⟩, _, _, heq, htag, _⟩
    · rw [hloop] at henabled
      exact hkept (h.owned w index henabled) htag
    · refine hkept ?_ htag
      rw [tag_of_tag_way hway]
      exact hway
    · cases heq
      rw [htag]
      refine tag_way_of_unique htag fun v hv => ?_
      rcases step_tag s (.update actual ip) v (gen_index_tag ip).1 with
        hsame | ⟨_, _, _, _, _, hv⟩
      · exact absurd (hsame.symm.trans hv) (tag_ne_of_tag_way hmiss v)
      · exact hv.symm.trans hlru

theorem Sound.run (n : Nat) (events : List Event) : (run n events).Sound := by
  induction events using List.reverseRecOn with
  | nil => exact .create
  | append_singleton events event ih =>
    rw [run_concat]
    exact ih.step event

theorem Sound.hit_way (h : s.Sound) (hway : s.tag_way index tag = some w)
    (henabled : (s.m_ways w index).loop.enabled = true) : s.hit_way index tag = some w := by
  cases hhit : s.hit_way index tag with
  | none => exact absurd hhit (hit_way_ne_none henabled (tag_of_tag_way hway))
  | some v =>
    obtain ⟨hv, htag⟩ := of_hit_way hhit
    have howned := h.owned v index hv
    rw [htag, hway] at howned
    exact howned.symm

/-- The outcomes of the branches with the index and the tag of `ip`. -/
def outcomes (ip : UInt64) (events : List Event) : List Bool :=
  events.filterMap fun
    | .lookup _ => none
    | .update actual other => if gen_index_tag other = gen_index_tag ip then some actual else none

/-- The entry of a branch knows the outcomes of the branch, and no other ones. -/
theorem loop_step {ip w} (hbefore : s.tag_way (gen_index_tag ip).1 (gen_index_tag ip).2 = some w)
    (hafter : (s.step event).tag_way (gen_index_tag ip).1 (gen_index_tag ip).2 = some w) :
    ((s.step event).m_ways w (gen_index_tag ip).1).loop =
      (outcomes ip [event]).foldl Loop.train (s.m_ways w (gen_index_tag ip).1).loop := by
  cases event with
  | lookup other =>
    rcases step_cases s (.lookup other) w (gen_index_tag ip).1 with
      ⟨_, hloop⟩ | ⟨_, ⟨_, heq, _⟩, _⟩ | ⟨⟨_, _, heq, _⟩, _⟩
    · exact hloop
    · cases heq
    · cases heq
  | update actual other =>
    by_cases hsame : gen_index_tag other = gen_index_tag ip
    case pos =>
      have houtcomes : outcomes ip [.update actual other] = [actual] := by
        simp [outcomes, hsame]
      rw [← hsame] at hbefore ⊢
      rw [houtcomes, step_hit hbefore, put_self]
      rfl
    case neg =>
      have houtcomes : outcomes ip [.update actual other] = [] := by simp [outcomes, hsame]
      rw [houtcomes]
      rcases step_cases s (.update actual other) w (gen_index_tag ip).1 with
        ⟨_, hloop⟩ | ⟨_, ⟨_, heq, hindex, hway⟩, _⟩ | ⟨⟨_, _, heq, hindex, _⟩, _, _, heq', htag, _⟩
      · exact hloop
      · cases heq
        have htag := (tag_of_tag_way hway).symm.trans (tag_of_tag_way hbefore)
        exact absurd (Prod.ext hindex htag) hsame
      · cases heq
        cases heq'
        exact absurd (Prod.ext hindex (htag.symm.trans (tag_of_tag_way hafter))) hsame

theorem loop_run {before events ip} (hkept : ∀ front, front <+: events →
      (run n (before ++ front)).tag_way (gen_index_tag ip).1 (gen_index_tag ip).2 = some w) :
    ((run n (before ++ events)).m_ways w (gen_index_tag ip).1).loop =
      (outcomes ip events).foldl Loop.train
        ((run n before).m_ways w (gen_index_tag ip).1).loop := by
  induction events using List.reverseRecOn with
  | nil => rw [List.append_nil]; rfl
  | append_singleton events event ih =>
    have hbefore := hkept events (List.prefix_append _ _)
    have hafter := hkept _ (List.prefix_refl _)
    rw [← List.append_assoc, run_concat] at hafter ⊢
    rw [loop_step hbefore hafter, ih fun front h => hkept front (h.trans (List.prefix_append _ _))]
    unfold outcomes
    rw [← List.foldl_append, List.filterMap_append]

/-- From the third period on every lookup hits and predicts the next outcome of the loop. -/
theorem learns_loop (n : Nat) (before events : List Event) (ip : UInt64) (w : Fin (n + 1))
    (hkept : ∀ front, front <+: events →
      (run n (before ++ front)).tag_way (gen_index_tag ip).1 (gen_index_tag ip).2 = some w)
    (d : Bool) (length k : Nat) (hpos : 1 ≤ length) (hlength : length < 2 ^ 32)
    (houtcomes : outcomes ip events = (List.range k).map (outcome d length))
    (hk : 2 * (length + 1) ≤ k) :
    ((run n (before ++ events)).lookup ip).1 = some (outcome d length k) := by
  have hpredicts := Loop.predicts_after (d := d) _
    ((Sound.run n before).bounded w (gen_index_tag ip).1) hpos hlength hk
  rw [← Loop.foldl_train, ← houtcomes, ← loop_run hkept] at hpredicts
  rw [lookup_fst, (Sound.run n _).hit_way (hkept events (List.prefix_refl _)) hpredicts.1]
  exact congrArg some hpredicts.2

theorem learns_alternation :
    ((run 0 ([] ++ [.update true 0, .update false 0, .update true 0, .update false 0])).lookup
      0).1 = some (outcome true 1 4) := by
  refine learns_loop 0 [] _ 0 0 (fun front hfront => ?_) true 1 4 (by decide) (by decide) rfl
    (by decide)
  have hinits : ∀ front ∈ [Event.update true 0, .update false 0, .update true 0,
      .update false 0].inits, (run 0 front).tag_way (gen_index_tag 0).1 (gen_index_tag 0).2 =
        some 0 := by decide +kernel
  exact hinits front ((List.mem_inits _ _).mpr hfront)

/-- The executions of a branch at 0. -/
def executions (d : Bool) (length k : Nat) : List Event :=
  (List.range k).map fun j => .update (outcome d length j) 0

theorem tag_way_executions (d : Bool) (length k : Nat) :
    (run 0 (executions d length k)).tag_way 0 0 = some 0 := by
  induction k with
  | zero => rfl
  | succ k ih =>
    have hexecutions : executions d length (k + 1) =
        executions d length k ++ [.update (outcome d length k) 0] := by
      unfold executions
      rw [List.range_succ, List.map_append, List.map_singleton]
    have hstep : (run 0 (executions d length k)).step (.update (outcome d length k) 0) = _ :=
      step_hit ih
    rw [hexecutions, run_concat, hstep]
    refine tag_way_of_unique ?_ fun v _ => Fin.eq_zero v
    exact congrArg Entry.tag (put_self _ 0 0 0 _)

theorem loop_executions (d : Bool) (length k : Nat) :
    ((run 0 (executions d length k)).m_ways 0 0).loop = Loop.initial.after d length k := by
  have hkept : ∀ front, front <+: executions d length k →
      (run 0 ([] ++ front)).tag_way (gen_index_tag 0).1 (gen_index_tag 0).2 = some 0 := by
    intro front hfront
    have htake : front = executions d length (min front.length k) := by
      unfold executions at hfront ⊢
      rw [← List.take_range, List.map_take]
      exact List.prefix_iff_eq_take.mp hfront
    rw [htake]
    exact tag_way_executions d length _
  have houtcomes : outcomes 0 (executions d length k) = (List.range k).map (outcome d length) := by
    unfold outcomes executions
    rw [List.filterMap_map, ← List.filterMap_eq_map]
    rfl
  have hloop := loop_run hkept
  rw [houtcomes, Loop.foldl_train] at hloop
  exact hloop

/-- With `2 ^ 32` outcomes before the loop is left, some are missed for ever. -/
theorem long_loop_missed :
    (∀ k, (run 0 (executions true (2 ^ 32) k)).tag_way 0 0 = some 0) ∧
      ∀ m, ∃ k, m ≤ k ∧
        ((run 0 (executions true (2 ^ 32) k)).lookup 0).1 ≠ some (outcome true (2 ^ 32) k) := by
  refine ⟨tag_way_executions true (2 ^ 32), fun m => ?_⟩
  have hbounded := (Sound.run 0 (executions true (2 ^ 32) ((2 ^ 32 + 1) * m))).bounded 0 0
  rw [loop_executions] at hbounded
  obtain ⟨j, hj, hmissed⟩ := Loop.exists_missed (d := true) hbounded le_rfl
  refine ⟨(2 ^ 32 + 1) * m + j, by omega, fun hlookup => hmissed ?_⟩
  rw [lookup_fst] at hlookup
  obtain ⟨w, hhit, hprediction⟩ := Option.map_eq_some_iff.mp hlookup
  obtain rfl : w = 0 := Fin.eq_zero w
  have henabled := (of_hit_way hhit).1
  rw [Loop.outcome_period ⟨m, rfl⟩, Loop.outcome_along hj] at hprediction
  change ((run 0 (executions true (2 ^ 32) _)).m_ways 0 0).loop.enabled = true at henabled
  change ((run 0 (executions true (2 ^ 32) _)).m_ways 0 0).loop.prediction = true at hprediction
  rw [loop_executions, Loop.after_period ⟨m, rfl⟩] at henabled hprediction
  exact ⟨henabled, hprediction⟩

end LoopBranchPredictor

end Sniper.Predictors
