import Mathlib.Data.Fintype.Pi
import Sniper.Predictors.IndirectTargets
import Sniper.Predictors.LoopLearning

/-! # The branch predictor of the Pentium M

The tables are functions of an index; an entry has one place for each way. -/
namespace Sniper.Predictors
open Function Lib.Simulation

def lru_way (lru : Fin 4 → UInt64) : Fin 4 :=
  (List.finRange 4).foldl (fun lru_way w => if lru w < lru lru_way then w else lru_way) 0

structure GlobalEntry where
  m_valid : Bool
  m_tag : ℕ
  m_predictor : SaturatingPredictor 2
  m_lru : UInt64

def GlobalEntry.hits (tag : ℕ) (e : GlobalEntry) : Bool := e.m_valid && decide (e.m_tag = tag)

abbrev GlobalSet := Fin 4 → GlobalEntry

namespace GlobalSet
variable (ways : GlobalSet) (tag : ℕ)

def hit_way : Option (Fin 4) := (List.finRange 4).find? (GlobalEntry.hits tag ∘ ways)

/-- The predictor that is found. -/
def lookup : Option (SaturatingPredictor 2) := (ways.hit_way tag).map fun w => (ways w).m_predictor

def update (count : UInt64) (actual : Bool) : GlobalSet :=
  match ways.hit_way tag with
  | some w => Function.update ways w
    { ways w with m_predictor := (ways w).m_predictor.update actual, m_lru := count }
  | none => Function.update ways (lru_way fun w => (ways w).m_lru) ⟨true, tag, .reset actual, count⟩

def evict : GlobalSet :=
  match ways.hit_way tag with
  | some w => Function.update ways w { ways w with m_valid := false }
  | none => ways

end GlobalSet

structure GlobalPredictor where
  m_lru_use_count : UInt64
  m_ways : ℕ → GlobalSet

namespace GlobalPredictor

def index (ip pir : ℕ) : ℕ := (ip >>> 4 ^^^ pir >>> 6) &&& 0x1FF

def tag (ip pir : ℕ) : ℕ := (ip >>> 13 ^^^ pir) &&& 0x3F

variable (g : GlobalPredictor) (ip pir : ℕ)

def lookup : Option (SaturatingPredictor 2) := (g.m_ways (index ip pir)).lookup (tag ip pir)

def update (actual : Bool) : GlobalPredictor where
  m_lru_use_count := g.m_lru_use_count + 1
  m_ways := Function.update g.m_ways (index ip pir)
    ((g.m_ways (index ip pir)).update (tag ip pir) g.m_lru_use_count actual)

def evict : GlobalPredictor :=
  { g with
    m_ways := Function.update g.m_ways (index ip pir)
      ((g.m_ways (index ip pir)).evict (tag ip pir)) }

end GlobalPredictor

structure BranchTargetBuffer where
  m_lru_use_count : UInt64
  /-- The tag with the offset, and the time of the last use. -/
  m_ways : ℕ → Fin 4 → ℕ × UInt64

namespace BranchTargetBuffer
variable (b : BranchTargetBuffer) (ip : ℕ)

def index : ℕ := ip >>> 4 &&& 0x1ff

def hit_way : Option (Fin 4) :=
  (List.finRange 4).find? fun w => (b.m_ways (index ip) w).1 = ip &&& 0x3fe00f

def update : BranchTargetBuffer where
  m_lru_use_count := b.m_lru_use_count + 1
  m_ways := Function.update b.m_ways (index ip) (Function.update (b.m_ways (index ip))
    ((b.hit_way ip).getD (lru_way fun w => (b.m_ways (index ip) w).2))
    (ip &&& 0x3fe00f, b.m_lru_use_count))

end BranchTargetBuffer

structure PentiumMBranchPredictor where
  m_global_predictor : GlobalPredictor
  m_btb : BranchTargetBuffer
  m_bimodal_table : ℕ → SaturatingPredictor 2
  m_lpb : LoopBranchPredictor 1
  ibtb : IndirectBranchTargetBuffer
  m_pir : ℕ
  m_last_gp_hit : Bool
  m_last_bm_pred : Bool
  m_last_lpb_hit : Bool

namespace PentiumMBranchPredictor

/-- `m_last_bm_pred` is not set by the constructor. -/
def create (m_last_bm_pred : Bool) : PentiumMBranchPredictor where
  m_global_predictor := ⟨0, fun _ _ => ⟨false, 0, ⟨0, by decide, by decide⟩, 0⟩⟩
  m_btb := ⟨0, fun _ _ => (0, 0)⟩
  m_bimodal_table _ := .reset false
  m_lpb := .create
  ibtb := .create
  m_pir := 0
  m_last_gp_hit := false
  m_last_bm_pred
  m_last_lpb_hit := false

def bimodal_index (ip : UInt64) : ℕ := ip.toNat &&& 0xFFF

/-- `update_pir`, for a conditional branch. -/
def update_pir (ip : UInt64) (actual : Bool) (pir : ℕ) : ℕ :=
  if actual then (pir <<< 2 ^^^ ip.toNat >>> 4) &&& 0x7fff else pir

variable (s : PentiumMBranchPredictor) (ip target : UInt64)

def predict : Bool × PentiumMBranchPredictor :=
  let global_pred_out := (s.m_global_predictor.lookup ip.toNat s.m_pir).map (·.predict)
  let (lpb_out, m_lpb) := s.m_lpb.lookup ip
  let lpb_out := if (s.m_btb.hit_way ip.toNat).isSome then lpb_out else none
  let bimodal_out := (s.m_bimodal_table (bimodal_index ip)).predict
  let result := (global_pred_out <|> lpb_out).getD bimodal_out
  (result && s.ibtb.predict ip target,
    { s with
      m_lpb
      m_last_gp_hit := global_pred_out.isSome
      m_last_bm_pred := bimodal_out
      m_last_lpb_hit := lpb_out.isSome })

def update (predicted actual : Bool) : PentiumMBranchPredictor :=
  let lpb_or_bm_hit := s.m_last_lpb_hit || s.m_last_bm_pred == actual
  { s with
    ibtb := s.ibtb.update ip target actual
    m_btb := s.m_btb.update ip.toNat
    m_lpb := s.m_lpb.update actual ip
    m_bimodal_table :=
      if s.m_last_gp_hit = false ∧ s.m_last_lpb_hit = false then
        Function.update s.m_bimodal_table (bimodal_index ip)
          ((s.m_bimodal_table (bimodal_index ip)).update actual)
      else s.m_bimodal_table
    m_global_predictor :=
      if s.m_last_gp_hit then
        if predicted ≠ actual ∧ lpb_or_bm_hit then s.m_global_predictor.evict ip.toNat s.m_pir
        else s.m_global_predictor.update ip.toNat s.m_pir actual
      else if predicted ≠ actual ∧ (s.m_last_gp_hit ∨ lpb_or_bm_hit = false) then
        s.m_global_predictor.update ip.toNat s.m_pir actual
      else s.m_global_predictor
    m_pir := update_pir ip actual s.m_pir }

/-- The branch is predicted, and the predictor updated with its outcome. -/
def execute (ip target : UInt64) (actual : Bool) (s : PentiumMBranchPredictor) :
    PentiumMBranchPredictor :=
  (s.predict ip target).2.update ip target (s.predict ip target).1 actual

def Step (s s' : PentiumMBranchPredictor) : Prop :=
  ∃ ip target, s' = (s.predict ip target).2 ∨
    ∃ predicted actual, s' = s.update ip target predicted actual

/-- The indices are within the tables. -/
structure InBounds : Prop where
  global : GlobalPredictor.index ip.toNat s.m_pir < 2048 / 4
  loop : (ip >>> 4 &&& 0x3F).toNat < 128 / 2
  bimodal : bimodal_index ip < 4096
  btb : BranchTargetBuffer.index ip.toNat < 512
  ibtb : s.ibtb.lru.val < 256

end PentiumMBranchPredictor

/-! ### Counters -/

namespace SaturatingPredictor
variable {p : SaturatingPredictor 2} {actual : Bool}

/-- How many updates the prediction is away from the outcome. -/
def away (p : SaturatingPredictor 2) (actual : Bool) : ℕ :=
  if actual then (-p.m_counter).toNat else (p.m_counter + 1).toNat

theorem away_le (p : SaturatingPredictor 2) (actual : Bool) : p.away actual ≤ 2 := by
  have hlower := p.lower
  have hupper := p.upper
  unfold away
  split <;> omega

theorem away_eq_zero : p.away actual = 0 ↔ p.predict = actual := by
  cases actual
  · rw [away, if_neg nofun, predict, decide_eq_false_iff_not]
    omega
  · rw [away, if_pos rfl, predict, decide_eq_true_iff]
    omega

theorem away_update (p : SaturatingPredictor 2) (actual : Bool) :
    (p.update actual).away actual = p.away actual - 1 := by
  have hlower := p.lower
  have hupper := p.upper
  cases actual <;> dsimp only [update] <;> split <;> simp [away] <;> omega

theorem predict_kept (h : p.predict = actual) : (p.update actual).predict = actual := by
  rw [← away_eq_zero, away_update, away_eq_zero.mpr h]

end SaturatingPredictor

/-! ### The global predictor -/

theorem find?_update : ∀ (p : Fin 4 → Bool) (w : Fin 4),
    (List.finRange 4).find? p = some w ∨ (List.finRange 4).find? p = none →
      (List.finRange 4).find? (update p w true) = some w := by decide

theorem countP_update : ∀ (p : Fin 4 → Bool) (w : Fin 4), p w = true →
    (List.finRange 4).countP (update p w true) = (List.finRange 4).countP p ∧
      (List.finRange 4).countP (update p w false) < (List.finRange 4).countP p := by decide

namespace GlobalSet
variable {ways : GlobalSet} {tag : ℕ} {w : Fin 4} {actual : Bool} {p : SaturatingPredictor 2}

theorem hits_of_hit_way (h : ways.hit_way tag = some w) :
    (ways w).m_valid = true ∧ (ways w).m_tag = tag := by
  have hhits := List.find?_some h
  rw [comp_apply, GlobalEntry.hits, Bool.and_eq_true, decide_eq_true_iff] at hhits
  exact hhits

theorem hit_way_update (h : ways.hit_way tag = some w ∨ ways.hit_way tag = none) {e : GlobalEntry}
    (hvalid : e.m_valid = true) (htag : e.m_tag = tag) :
    hit_way (Function.update ways w e) tag = some w := by
  have he : e.hits tag = true := by rw [GlobalEntry.hits, hvalid, decide_eq_true htag, Bool.and_self]
  rw [hit_way, comp_update, he]
  exact find?_update _ w h

theorem lookup_update (ways : GlobalSet) (tag : ℕ) (count : UInt64) (actual : Bool) :
    (ways.update tag count actual).lookup tag =
      some (((ways.lookup tag).map (·.update actual)).getD (.reset actual)) := by
  cases h : ways.hit_way tag with
  | none => simp [update, lookup, h, hit_way_update (.inr h)]
  | some w =>
    obtain ⟨hvalid, htag⟩ := hits_of_hit_way h
    simp [update, lookup, h, hit_way_update (.inl h), hvalid, htag]

/-- What is left until the prediction is right: evictions, and updates of the counter. -/
def left (ways : GlobalSet) (tag : ℕ) (actual : Bool) : ℕ :=
  3 * (List.finRange 4).countP (GlobalEntry.m_valid ∘ ways) +
    ((ways.lookup tag).map (·.away actual)).getD 0

theorem left_evict (h : ways.lookup tag = some p) (actual : Bool) :
    (ways.evict tag).left tag actual < ways.left tag actual := by
  obtain ⟨w, hw, -⟩ := Option.map_eq_some_iff.mp h
  have haway : (((ways.evict tag).lookup tag).map (·.away actual)).getD 0 ≤ 2 := by
    cases (ways.evict tag).lookup tag with
    | none => exact Nat.zero_le _
    | some p => exact p.away_le actual
  have hcount := (countP_update (GlobalEntry.m_valid ∘ ways) w (hits_of_hit_way hw).1).2
  have hevict : GlobalEntry.m_valid ∘ ways.evict tag =
      Function.update (GlobalEntry.m_valid ∘ ways) w false := by
    rw [evict, hw]
    exact comp_update ..
  rw [left, left, hevict]
  omega

theorem left_update (h : ways.lookup tag = some p) (hwrong : p.predict ≠ actual) (count : UInt64) :
    (ways.update tag count actual).left tag actual < ways.left tag actual := by
  obtain ⟨w, hw, -⟩ := Option.map_eq_some_iff.mp h
  have haway := mt SaturatingPredictor.away_eq_zero.mp hwrong
  have hvalid := (hits_of_hit_way hw).1
  have hcount := (countP_update (GlobalEntry.m_valid ∘ ways) w hvalid).1
  have hupdate : GlobalEntry.m_valid ∘ ways.update tag count actual =
      Function.update (GlobalEntry.m_valid ∘ ways) w true := by
    rw [update, hw, ← hvalid]
    exact comp_update ..
  rw [left, left, hupdate, hcount, lookup_update, h]
  simp only [Option.map_some, Option.getD_some, SaturatingPredictor.away_update]
  omega

end GlobalSet

namespace GlobalPredictor

theorem ways_update (g : GlobalPredictor) (ip pir : ℕ) (actual : Bool) :
    (g.update ip pir actual).m_ways (index ip pir) =
      (g.m_ways (index ip pir)).update (tag ip pir) g.m_lru_use_count actual := update_self ..

theorem ways_evict (g : GlobalPredictor) (ip pir : ℕ) :
    (g.evict ip pir).m_ways (index ip pir) = (g.m_ways (index ip pir)).evict (tag ip pir) :=
  update_self ..

end GlobalPredictor

/-! ### The loop predictor -/

namespace Loop
variable {loop : Loop} {actual : Bool}

/-- The entry stays disabled. -/
structure Over (loop : Loop) (actual : Bool) : Prop where
  direction : loop.predictor.predict = actual
  disabled : loop.enabled = false
  limit : loop.count = loop.limit

theorem over_train (hdirection : loop.predictor.predict = actual) (hlimit : loop.count = loop.limit) :
    (loop.train actual).Over actual := by
  rw [train_along hdirection, same_along hdirection, if_pos hlimit]
  exact ⟨hdirection, rfl, rfl⟩

theorem Following.exists_over {loop : Loop} (h : Following actual 0 loop) :
    ∃ k, ((train · actual)^[k] loop).Over actual := by
  by_cases hlimit : loop.count = loop.limit
  · exact ⟨1, over_train h.direction hlimit⟩
  · obtain ⟨k, hk⟩ := Following.exists_over ⟨h.along.direction, h.along.bounded, nofun⟩
    exact ⟨k + 1, hk⟩
termination_by loop.limit.toNat - loop.count.toNat
decreasing_by
  rw [train_along h.direction, same_along h.direction, if_neg hlimit]
  have hlt := lt_limit h.bounded hlimit
  have hsize := loop.limit.toNat_lt
  have hsucc : (loop.count + 1).toNat = _ := toNat_succ (by omega)
  dsimp only
  omega

theorem exists_over (hbounded : loop.count ≤ loop.limit) (actual : Bool) :
    ∃ k, ((train · actual)^[k] loop).Over actual := by
  by_cases hdirection : (loop.train actual).predictor.predict = actual
  · obtain ⟨k, hk⟩ := Following.exists_over ⟨hdirection, bounded_train hbounded actual, nofun⟩
    exact ⟨k + 1, hk⟩
  · have hprevious := previous_train loop actual
    obtain ⟨k, hk⟩ := (following_change (Bool.eq_not_of_ne hdirection) hprevious 0).exists_over
    exact ⟨k + 2, hk⟩

end Loop

namespace LoopBranchPredictor
variable {s : LoopBranchPredictor 1} {ip : UInt64} {w : Fin 2} {loop : Loop} {actual : Bool}

def executed (ip : UInt64) (actual : Bool) (s : LoopBranchPredictor 1) : LoopBranchPredictor 1 :=
  (s.step (.lookup ip)).step (.update actual ip)

/-- The entry of the branch. -/
structure Entered (ip : UInt64) (w : Fin 2) (loop : Loop) (s : LoopBranchPredictor 1) : Prop where
  sound : s.Sound
  way : s.tag_way (gen_index_tag ip).1 (gen_index_tag ip).2 = some w
  loop : (s.m_ways w (gen_index_tag ip).1).loop = loop

theorem tag_way_kept {event} (h : s.tag_way (gen_index_tag ip).1 (gen_index_tag ip).2 = some w)
    (hown : ∀ actual other, event = .update actual other → other = ip) :
    (s.step event).tag_way (gen_index_tag ip).1 (gen_index_tag ip).2 = some w := by
  have htag : ∀ v, ((s.step event).m_ways v (gen_index_tag ip).1).tag =
      (s.m_ways v (gen_index_tag ip).1).tag := by
    intro v
    rcases step_tag s event v (gen_index_tag ip).1 with hsame | ⟨_, other, heq, _, hmiss, _⟩
    · exact hsame
    · rw [hown _ other heq, h] at hmiss
      cases hmiss
  exact tag_way_of_imp h ((htag w).trans (tag_of_tag_way h)) fun v hv => (htag v).symm.trans hv

theorem Entered.executed (h : Entered ip w loop s) (actual : Bool) :
    Entered ip w (loop.train actual) (s.executed ip actual) := by
  have hlookup := @tag_way_kept s ip w (.lookup ip) h.way nofun
  have hupdate := @tag_way_kept _ ip w (.update actual ip) hlookup fun _ _ heq => by cases heq; rfl
  refine ⟨(h.sound.step _).step _, hupdate, ?_⟩
  rw [LoopBranchPredictor.executed, loop_step hlookup hupdate, loop_step h.way hlookup, h.loop]
  simp [outcomes]

theorem Sound.exists_entered (h : s.Sound) (ip : UInt64) (actual : Bool) :
    ∃ w loop, Entered ip w loop (s.executed ip actual) := by
  obtain ⟨w, hw⟩ : ∃ w, (s.executed ip actual).tag_way (gen_index_tag ip).1 (gen_index_tag ip).2 =
      some w := by
    refine Option.ne_none_iff_exists'.mp fun hnone => ?_
    cases hway : (s.step (.lookup ip)).tag_way (gen_index_tag ip).1 (gen_index_tag ip).2 with
    | some w => exact tag_ne_of_tag_way hnone w (by rw [executed, step_hit hway, put_self])
    | none => exact tag_ne_of_tag_way hnone _ (by rw [executed, step_miss hway, put_self])
  exact ⟨w, _, (h.step _).step _, hw, rfl⟩

/-- The branch does not hit any more. -/
def Quiet (ip : UInt64) (actual : Bool) (s : LoopBranchPredictor 1) : Prop :=
  ∃ w loop, Entered ip w loop s ∧ loop.Over actual

theorem Quiet.miss (h : Quiet ip actual s) : (s.lookup ip).1 = none := by
  obtain ⟨w, loop, hentered, hover⟩ := h
  rw [lookup_fst, Option.map_eq_none_iff, Option.eq_none_iff_forall_ne_some]
  intro v hv
  obtain ⟨henabled, htag⟩ := of_hit_way hv
  have howned := hentered.sound.owned v _ henabled
  rw [htag, hentered.way] at howned
  cases howned
  rw [hentered.loop, hover.disabled] at henabled
  cases henabled

theorem Quiet.executed (h : Quiet ip actual s) : Quiet ip actual (s.executed ip actual) := by
  obtain ⟨w, loop, hentered, hover⟩ := h
  exact ⟨w, _, hentered.executed actual, Loop.over_train hover.direction hover.limit⟩

theorem Sound.exists_quiet (h : s.Sound) (ip : UInt64) (actual : Bool) :
    ∃ k, Quiet ip actual ((LoopBranchPredictor.executed ip actual)^[k] s) := by
  obtain ⟨w, loop, hentered⟩ := h.exists_entered ip actual
  have hrun : ∀ k, Entered ip w ((Loop.train · actual)^[k] loop)
      ((LoopBranchPredictor.executed ip actual)^[k] (s.executed ip actual)) := by
    intro k
    induction k with
    | zero => exact hentered
    | succ k ih =>
      rw [iterate_succ_apply', iterate_succ_apply']
      exact ih.executed actual
  have hbounded := hentered.sound.bounded w (gen_index_tag ip).1
  rw [hentered.loop] at hbounded
  obtain ⟨k, hk⟩ := Loop.exists_over hbounded actual
  exact ⟨k + 1, w, _, hrun k, hk⟩

end LoopBranchPredictor

/-! ### Executions -/

namespace PentiumMBranchPredictor
variable {s : PentiumMBranchPredictor} {ip target : UInt64} {actual : Bool}

theorem testBit_update_pir (ip : UInt64) (pir i : ℕ) : (update_pir ip true pir).testBit i =
    (decide (i < 15) && ((decide (2 ≤ i) && pir.testBit (i - 2)) ^^ (ip.toNat >>> 4).testBit i)) := by
  rw [update_pir, if_pos rfl, show 0x7fff = 2 ^ 15 - 1 from rfl, Nat.and_two_pow_sub_one_eq_mod,
    Nat.testBit_mod_two_pow, Nat.testBit_xor, Nat.testBit_shiftLeft]

theorem testBit_iterate (ip : UInt64) (a b k : ℕ) : ∀ i < 2 * k,
    ((update_pir ip true)^[k] a).testBit i = ((update_pir ip true)^[k] b).testBit i := by
  induction k with
  | zero => exact fun i hi => absurd hi (Nat.not_lt_zero i)
  | succ k ih =>
    intro i hi
    rw [iterate_succ_apply', iterate_succ_apply', testBit_update_pir, testBit_update_pir]
    by_cases hlow : 2 ≤ i
    · rw [ih (i - 2) (by omega)]
    · rw [decide_eq_false hlow, Bool.false_and, Bool.false_and]

theorem update_pir_fixed (ip : UInt64) (actual : Bool) (pir : ℕ) :
    update_pir ip actual ((update_pir ip actual)^[8] pir) = (update_pir ip actual)^[8] pir := by
  cases actual with
  | false => rfl
  | true =>
    refine Nat.eq_of_testBit_eq fun i => ?_
    by_cases hi : i < 2 * 8
    · exact testBit_iterate ip (update_pir ip true pir) pir 8 i hi
    · have hhigh : decide (i < 15) = false := decide_eq_false (by omega)
      rw [iterate_succ_apply' _ 7, testBit_update_pir, hhigh, Bool.false_and, testBit_update_pir, hhigh,
        Bool.false_and]

/-- The loop predictor and the path are out of play, and the target buffer agrees. -/
structure Calm (ip target : UInt64) (actual : Bool) (s : PentiumMBranchPredictor) : Prop where
  quiet : s.m_lpb.Quiet ip actual
  pir : update_pir ip actual s.m_pir = s.m_pir
  ibtb : s.ibtb.predict ip target = true

theorem ibtb_kept (h : s.ibtb.predict ip target = true) :
    (execute ip target actual s).ibtb.predict ip target = true := by
  cases actual with
  | false => exact h
  | true => exact IndirectBranchTargetBuffer.predict_taken

theorem Calm.kept (h : Calm ip target actual s) :
    Calm ip target actual (execute ip target actual s) where
  quiet := h.quiet.executed
  pir := congrArg (update_pir ip actual) h.pir
  ibtb := ibtb_kept h.ibtb

/-- The entries, the predictor that is found in them, and the counter of the branch. -/
def ways (s : PentiumMBranchPredictor) (ip : UInt64) : GlobalSet :=
  s.m_global_predictor.m_ways (GlobalPredictor.index ip.toNat s.m_pir)

def found (s : PentiumMBranchPredictor) (ip : UInt64) : Option (SaturatingPredictor 2) :=
  s.m_global_predictor.lookup ip.toNat s.m_pir

def bimodal (s : PentiumMBranchPredictor) (ip : UInt64) : SaturatingPredictor 2 :=
  s.m_bimodal_table (bimodal_index ip)

/-- The prediction is right. -/
def Right (ip target : UInt64) (actual : Bool) (s : PentiumMBranchPredictor) : Prop :=
  (s.predict ip target).1 = actual

theorem Calm.predict (h : Calm ip target actual s) :
    (s.predict ip target).1 = ((s.found ip).getD (s.bimodal ip)).predict := by
  have hmiss := h.quiet.miss
  unfold PentiumMBranchPredictor.predict
  simp only [h.ibtb, hmiss, found]
  cases s.m_global_predictor.lookup ip.toNat s.m_pir <;> simp [bimodal]

theorem Calm.last_lpb_hit (h : Calm ip target actual s) :
    (s.predict ip target).2.m_last_lpb_hit = false := by
  have hmiss := h.quiet.miss
  simp [PentiumMBranchPredictor.predict, hmiss]

theorem last_gp_hit (s : PentiumMBranchPredictor) (ip target : UInt64) :
    (s.predict ip target).2.m_last_gp_hit = (s.found ip).isSome := Option.isSome_map

theorem Calm.bimodal_execute (h : Calm ip target actual s) (hfound : s.found ip = none) :
    (execute ip target actual s).bimodal ip = (s.bimodal ip).update actual := by
  simp only [bimodal, execute, update, last_gp_hit, h.last_lpb_hit, hfound]
  exact update_self ..

theorem Calm.global_execute (h : Calm ip target actual s) :
    (execute ip target actual s).m_global_predictor =
      if (s.predict ip target).1 = actual ∧ s.found ip = none then s.m_global_predictor
      else if (s.predict ip target).1 ≠ actual ∧ s.found ip ≠ none ∧
          (s.bimodal ip).predict = actual then
        s.m_global_predictor.evict ip.toNat s.m_pir
      else s.m_global_predictor.update ip.toNat s.m_pir actual := by
  have hpredict := h.predict
  have hbm : (s.predict ip target).2.m_last_bm_pred = (s.bimodal ip).predict := rfl
  simp only [execute, update, last_gp_hit, h.last_lpb_hit, hbm]
  cases hfound : s.found ip with
  | none =>
    rw [hfound, Option.getD_none] at hpredict
    by_cases hright : (s.bimodal ip).predict = actual <;> simp [hpredict, hright] <;> rfl
  | some p => by_cases hright : (s.predict ip target).1 = actual <;> simp [hright] <;> rfl

def left (s : PentiumMBranchPredictor) (ip : UInt64) (actual : Bool) : ℕ :=
  (s.ways ip).left (GlobalPredictor.tag ip.toNat s.m_pir) actual

/-- A wrong prediction leads to a right one, or there is less left until then. -/
theorem Calm.next (h : Calm ip target actual s) : Right ip target actual (execute ip target actual s) ∨
    ¬Right ip target actual s ∧ (execute ip target actual s).left ip actual < s.left ip actual := by
  have hpir : (execute ip target actual s).m_pir = s.m_pir := h.pir
  rw [Right, Right, h.kept.predict, left, found, GlobalPredictor.lookup, ways, hpir,
    h.global_execute, h.predict]
  cases hfound : s.found ip with
  | none =>
    refine .inl ?_
    have hlookup : (s.ways ip).lookup _ = none := hfound
    by_cases hright : (s.bimodal ip).predict = actual
    · rw [if_pos ⟨hright, rfl⟩, ← ways, hlookup, h.bimodal_execute hfound]
      exact SaturatingPredictor.predict_kept hright
    · rw [if_neg fun h => hright h.1, if_neg fun h => h.2.1 rfl, GlobalPredictor.ways_update, ← ways,
        GlobalSet.lookup_update, hlookup]
      cases actual <;> rfl
  | some p =>
    have hlookup : (s.ways ip).lookup _ = some p := hfound
    rw [Option.getD_some, if_neg nofun]
    by_cases hright : p.predict = actual
    · rw [if_neg fun h => h.1 hright, GlobalPredictor.ways_update, ← ways, GlobalSet.lookup_update,
        hlookup]
      exact .inl (SaturatingPredictor.predict_kept hright)
    · refine .inr ⟨hright, ?_⟩
      split
      · rw [GlobalPredictor.ways_evict]
        exact GlobalSet.left_evict hlookup actual
      · rw [GlobalPredictor.ways_update]
        exact GlobalSet.left_update hlookup hright _

theorem Calm.settled (h : Calm ip target actual s) (hright : Right ip target actual s) (t : ℕ) :
    Right ip target actual ((execute ip target actual)^[t] s) :=
  (Iterate.rec (fun s => Calm ip target actual s ∧ Right ip target actual s) ⟨h, hright⟩
    (fun _ h => ⟨h.1.kept, h.1.next.resolve_right fun hwrong => hwrong.1 h.2⟩) t).2

theorem Calm.settles {s} (h : Calm ip target actual s) :
    ∃ N, ∀ t, Right ip target actual ((execute ip target actual)^[t + N] s) := by
  rcases h.next with hright | ⟨-, hless⟩
  · exact ⟨1, h.kept.settled hright⟩
  · obtain ⟨N, hN⟩ := h.kept.settles
    exact ⟨N + 1, hN⟩
termination_by s.left ip actual

theorem reachable_sound (h : Reachable (fun s => ∃ b, s = create b) Step s) : s.m_lpb.Sound := by
  induction h with
  | init hs =>
    obtain ⟨b, rfl⟩ := hs
    exact .create
  | step _ hstep ih =>
    obtain ⟨ip, target, rfl | ⟨predicted, actual, rfl⟩⟩ := hstep
    · exact ih.step (.lookup ip)
    · exact ih.step (.update actual ip)

theorem exists_calm (h : s.m_lpb.Sound) (hibtb : actual = true ∨ s.ibtb.predict ip target = true) :
    ∃ k, Calm ip target actual ((execute ip target actual)^[k] s) := by
  obtain ⟨k, hk⟩ := h.exists_quiet ip actual
  have hlpb : Semiconj m_lpb (execute ip target actual) (.executed ip actual) := fun _ => rfl
  have hpir : Semiconj m_pir (execute ip target actual) (update_pir ip actual) := fun _ => rfl
  have hibtb : (execute ip target actual s).ibtb.predict ip target = true := by
    rcases hibtb with rfl | hibtb
    · exact IndirectBranchTargetBuffer.predict_taken
    · exact ibtb_kept hibtb
  refine ⟨8 + k + 1, ?_, ?_, ?_⟩
  · rw [(hlpb.iterate_right _).eq, Nat.add_right_comm, iterate_add_apply]
    exact Iterate.rec (LoopBranchPredictor.Quiet ip actual) hk (fun _ h => h.executed) 9
  · rw [(hpir.iterate_right _).eq, Nat.add_assoc, iterate_add_apply]
    exact update_pir_fixed ..
  · exact Iterate.rec (fun s : PentiumMBranchPredictor => s.ibtb.predict ip target = true) hibtb
      (fun _ => ibtb_kept) (8 + k)

theorem never_taken (h : s.ibtb.predict ip target = false) (t : ℕ) :
    (((execute ip target false)^[t] s).predict ip target).1 = false := by
  have hkept : ((execute ip target false)^[t] s).ibtb.predict ip target = false :=
    Iterate.rec (fun s : PentiumMBranchPredictor => s.ibtb.predict ip target = false) h
      (f := execute ip target false) (fun _ h => h) t
  rw [predict, hkept]
  exact Bool.and_false _

theorem inBounds (s : PentiumMBranchPredictor) (ip : UInt64) : s.InBounds ip where
  global := Nat.lt_succ_of_le Nat.and_le_right
  loop := by
    rw [UInt64.toNat_and]
    exact Nat.lt_succ_of_le Nat.and_le_right
  bimodal := Nat.lt_succ_of_le Nat.and_le_right
  btb := Nat.lt_succ_of_le Nat.and_le_right
  ibtb := s.ibtb.lru.isLt

/-- Whatever has been executed before, a branch with one outcome is learned. -/
theorem learns_constant (h : Reachable (fun s => ∃ b, s = create b) Step s)
    (ip target : UInt64) (actual : Bool) : s.InBounds ip ∧
    ∃ N, ∀ t ≥ N, (((execute ip target actual)^[t] s).predict ip target).1 = actual := by
  refine ⟨inBounds s ip, ?_⟩
  by_cases hibtb : actual = true ∨ s.ibtb.predict ip target = true
  · obtain ⟨k, hk⟩ := exists_calm (reachable_sound h) hibtb
    obtain ⟨N, hN⟩ := hk.settles
    refine ⟨N + k, fun t ht => ?_⟩
    obtain ⟨i, rfl⟩ := Nat.exists_eq_add_of_le' ht
    rw [← Nat.add_assoc, iterate_add_apply]
    exact hN i
  · obtain ⟨hnot, hmiss⟩ := not_or.mp hibtb
    obtain rfl := Bool.eq_false_of_not_eq_true hnot
    exact ⟨0, fun t _ => never_taken (Bool.eq_false_of_not_eq_true hmiss) t⟩

/-- A branch that was taken twice is learned when it is not taken any more. -/
theorem learns_constant_turned :
    let s := (execute 0 0 true)^[2] (create false)
    (s.predict 0 0).1 = true ∧ s.InBounds 0 ∧
      ∃ N, ∀ t ≥ N, (((execute 0 0 false)^[t] s).predict 0 0).1 = false := by
  have hexecute {s} (h : Reachable (fun s => ∃ b, s = create b) Step s) :
      Reachable (fun s => ∃ b, s = create b) Step (execute 0 0 true s) :=
    (h.step ⟨0, 0, .inl rfl⟩).step ⟨0, 0, .inr ⟨_, true, rfl⟩⟩
  have hreach := hexecute (hexecute (.init ⟨false, rfl⟩))
  exact ⟨by decide +kernel, learns_constant hreach 0 0 false⟩

end PentiumMBranchPredictor
end Sniper.Predictors
