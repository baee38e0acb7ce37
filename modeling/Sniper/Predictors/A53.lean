import Mathlib.Algebra.Order.BigOperators.Group.Finset
import Mathlib.Data.Nat.Bitwise
import Sniper.Predictors.IndirectTargets

/-! # The A53 branch predictor

`A53BranchPredictor`: a register of the last outcomes for each residue of the address, and a row of
pattern entries for each register. The number of the register is held in a signed byte.
-/
namespace Sniper.Predictors.A53
open Function Relation

inductive State where
  | StronglyNotTaken | WeakelyTaken | WeakelyNotTaken | StronglyTaken

def nextState : State → Bool → State
  | .StronglyNotTaken, input => if input then .WeakelyTaken else .StronglyNotTaken
  | .WeakelyNotTaken, input => if input then .WeakelyTaken else .StronglyNotTaken
  | .WeakelyTaken, input => if input then .StronglyTaken else .WeakelyNotTaken
  | .StronglyTaken, input => if input then .StronglyTaken else .WeakelyTaken

def statePrediction : State → Bool
  | .StronglyNotTaken | .WeakelyNotTaken => false
  | .WeakelyTaken | .StronglyTaken => true

/-- The configuration; the table has `m_num_registers * size` entries, counted by an int. -/
structure Config where
  m_num_registers : Nat
  k : Nat
  one_le : 1 ≤ m_num_registers
  fits : m_num_registers * 2 ^ k < 2 ^ 31

def Config.size (cfg : Config) : Nat := 2 ^ cfg.k

structure A53BranchPredictor where
  ibtb : IndirectBranchTargetBuffer
  m_pattern_history_table : Nat → State
  m_branch_history_register : Nat → Nat

section
variable (cfg : Config) (s : A53BranchPredictor) (ip : UInt64)

/-- A signed byte. -/
def registerIndex : Int := Int.bmod (ip.toNat % cfg.m_num_registers : Nat) 256

def registerValue : Nat :=
  s.m_branch_history_register (registerIndex cfg ip).toNat &&& (cfg.size - 1)

def historyIndex : Int := registerValue cfg s ip + registerIndex cfg ip * cfg.size

/-- Both tables are indexed within their bounds. -/
def InBounds : Prop :=
  (0 ≤ registerIndex cfg ip ∧ registerIndex cfg ip < cfg.m_num_registers) ∧
    0 ≤ historyIndex cfg s ip ∧ historyIndex cfg s ip < cfg.m_num_registers * cfg.size

instance : Decidable (InBounds cfg s ip) := instDecidableAnd

/-- `predict`, if it stays within the tables. -/
def predict (indirect : Bool) (target : UInt64) : Option Bool :=
  if indirect then some (s.ibtb.predict ip target)
  else if InBounds cfg s ip then
    some (statePrediction (s.m_pattern_history_table (historyIndex cfg s ip).toNat))
  else none

def update (actual indirect : Bool) (target : UInt64) : Option A53BranchPredictor :=
  if indirect then some { s with ibtb := s.ibtb.update ip target actual }
  else if InBounds cfg s ip then
    let index := (historyIndex cfg s ip).toNat
    some { s with
      m_pattern_history_table := Function.update s.m_pattern_history_table index
        (nextState (s.m_pattern_history_table index) actual)
      m_branch_history_register := Function.update s.m_branch_history_register
        (registerIndex cfg ip).toNat (registerValue cfg s ip <<< 1 ||| actual.toNat) }
  else none

/-- An update for an indirect branch, or one with another history register. -/
def OtherStep (s s' : A53BranchPredictor) : Prop :=
  ∃ ip' actual indirect target, (indirect = false → registerIndex cfg ip' ≠ registerIndex cfg ip) ∧
    update cfg s ip' actual indirect target = some s'

/-- The executions of the branch: the states before them, with the outcomes. -/
def Executes (target : UInt64) (states : Nat → A53BranchPredictor) (outcomes : Nat → Bool) : Prop :=
  ∀ t, ∃ s, update cfg (states t) ip (outcomes t) false target = some s ∧
    ReflTransGen (OtherStep cfg ip) s (states (t + 1))

/-- Outcomes that are a function of the last `k` ones are predicted after finitely many. -/
def Learns : Prop :=
  ∀ target states outcomes (f : (Fin cfg.k → Bool) → Bool), Executes cfg ip target states outcomes →
    (∀ t, outcomes (t + cfg.k) = f fun i => outcomes (t + i)) →
    ∃ N, ∀ t ≥ N, predict cfg (states t) ip false target = some (outcomes t)

end

/-! ### The pattern entries -/

/-- So many outcomes have to come before the entry predicts them. -/
def distance : Bool → State → Nat
  | true, .StronglyNotTaken | true, .WeakelyNotTaken | false, .WeakelyTaken => 1
  | false, .StronglyTaken => 2
  | _, _ => 0

theorem distance_nextState (b : Bool) (st : State) : distance b (nextState st b) ≤ distance b st ∧
    (statePrediction st ≠ b → distance b (nextState st b) < distance b st) := by
  cases b <;> cases st <;> decide

theorem exists_still {f : Nat → Nat} (h : ∀ t, f (t + 1) ≤ f t) : ∃ N, ∀ t ≥ N, f (t + 1) = f t := by
  induction hf : f 0 using Nat.strong_induction_on generalizing f with
  | _ n ih =>
    by_cases hstill : ∀ t, f (t + 1) = f t
    · exact ⟨0, fun t _ => hstill t⟩
    obtain ⟨t, ht⟩ := not_forall.mp hstill
    have hle : f t ≤ f 0 := Nat.rec (Nat.le_refl _) (fun t ih => (h t).trans ih) t
    have hlt : f (t + 1) < f t := Nat.lt_of_le_of_ne (h t) ht
    obtain ⟨N, hN⟩ := ih (f (t + 1)) (by omega) (f := fun i => f (i + (t + 1)))
      (fun i => by rw [Nat.add_right_comm]; exact h _) (by rw [Nat.zero_add])
    refine ⟨N + (t + 1), fun i hi => ?_⟩
    have hj := hN (i - (t + 1)) (by omega)
    rwa [Nat.add_right_comm, Nat.sub_add_cancel (by omega)] at hj

/-! ### Indices -/

variable {cfg : Config} {s s' : A53BranchPredictor} {ip : UInt64}

/-- The number of the register survives the signed byte. -/
def Fits (cfg : Config) (ip : UInt64) : Prop := ip.toNat % cfg.m_num_registers % 256 < 128

theorem registerIndex_nonneg : 0 ≤ registerIndex cfg ip ↔ Fits cfg ip := by
  unfold registerIndex Fits
  rw [Int.bmod_def]
  omega

theorem registerIndex_lt : registerIndex cfg ip < cfg.m_num_registers := by
  have hlt := Nat.mod_lt ip.toNat cfg.one_le
  unfold registerIndex
  rw [Int.bmod_def]
  omega

theorem registerValue_lt : registerValue cfg s ip < cfg.size := by
  unfold registerValue Config.size
  rw [Nat.and_two_pow_sub_one_eq_mod]
  exact Nat.mod_lt _ (Nat.two_pow_pos _)

theorem historyIndex_eq (h : Fits cfg ip) : (historyIndex cfg s ip).toNat =
    registerValue cfg s ip + (registerIndex cfg ip).toNat * cfg.size := by
  have hnonneg := registerIndex_nonneg.mpr h
  unfold historyIndex
  lift registerIndex cfg ip to Nat using hnonneg with r
  norm_cast

theorem inBounds_iff : InBounds cfg s ip ↔ Fits cfg ip := by
  refine ⟨fun h => registerIndex_nonneg.mp h.1.1, fun h => ?_⟩
  have hnonneg := registerIndex_nonneg.mpr h
  have hlt : registerIndex cfg ip < _ := registerIndex_lt
  have hvalue : registerValue cfg s ip < _ := registerValue_lt
  refine ⟨⟨hnonneg, hlt⟩, ?_⟩
  unfold historyIndex
  lift registerIndex cfg ip to Nat using hnonneg with r
  have hrow : (r + 1) * cfg.size ≤ cfg.m_num_registers * cfg.size :=
    Nat.mul_le_mul_right _ (by omega)
  rw [Nat.succ_mul] at hrow
  norm_cast
  exact ⟨Nat.zero_le _, by omega⟩

/-! ### Executions -/

/-- The entry of the branch for a history. -/
def entry (cfg : Config) (s : A53BranchPredictor) (ip : UInt64) (v : Nat) : State :=
  s.m_pattern_history_table (v + (registerIndex cfg ip).toNat * cfg.size)

theorem row_unique {v w a b size : Nat} (hv : v < size) (hw : w < size)
    (h : v + a * size = w + b * size) : a = b ∧ v = w := by
  have hab : a = b := by
    have hdiv := congrArg (· / size) h
    have hpos : 0 < size := by omega
    simpa [Nat.add_mul_div_right _ _ hpos, Nat.div_eq_of_lt hv, Nat.div_eq_of_lt hw] using hdiv
  subst hab
  exact ⟨rfl, by omega⟩

theorem OtherStep.frame (h : OtherStep cfg ip s s') (hfits : Fits cfg ip) :
    (∀ v < cfg.size, entry cfg s' ip v = entry cfg s ip v) ∧
      registerValue cfg s' ip = registerValue cfg s ip := by
  obtain ⟨ip', actual, indirect, target, hne, h⟩ := h
  unfold update at h
  split at h
  · cases h
    exact ⟨fun _ _ => rfl, rfl⟩
  · next hdirect =>
    split at h
    case isFalse => cases h
    case isTrue hin =>
      cases h
      have hrow : (registerIndex cfg ip).toNat ≠ (registerIndex cfg ip').toNat := by
        have hnonneg := registerIndex_nonneg.mpr hfits
        have hdiff := hne (Bool.not_eq_true _ ▸ hdirect)
        have hnonneg' := hin.1.1
        omega
      constructor
      · intro v hv
        unfold entry
        dsimp only
        rw [historyIndex_eq (inBounds_iff.mp hin), update_of_ne]
        exact fun h => hrow (row_unique hv registerValue_lt h).1
      · unfold registerValue
        dsimp only
        rw [update_of_ne hrow]

theorem update_spec {actual target} (h : update cfg s ip actual false target = some s') :
    (∀ v < cfg.size, entry cfg s' ip v =
        if v = registerValue cfg s ip then nextState (entry cfg s ip v) actual
        else entry cfg s ip v) ∧
      ∀ j < cfg.k, (registerValue cfg s' ip).testBit j =
        if j = 0 then actual else (registerValue cfg s ip).testBit (j - 1) := by
  unfold update at h
  rw [if_neg Bool.false_ne_true] at h
  split at h
  case isFalse => cases h
  case isTrue hin =>
    cases h
    have hindex := historyIndex_eq (s := s) (inBounds_iff.mp hin)
    constructor
    · intro v hv
      unfold entry
      dsimp only
      rw [hindex]
      by_cases hself : v = registerValue cfg s ip
      · rw [if_pos hself, hself, update_self]
      · rw [if_neg hself, update_of_ne]
        exact fun h => hself (row_unique hv registerValue_lt h).2
    · intro j hj
      generalize registerValue cfg s ip = v
      unfold registerValue
      dsimp only
      rw [update_self, Config.size, Nat.and_two_pow_sub_one_eq_mod, Nat.testBit_mod_two_pow,
        Nat.testBit_or, Nat.testBit_shiftLeft]
      cases j with
      | zero => cases actual <;> simp [hj]
      | succ j =>
        have hbit : actual.toNat.testBit (j + 1) = false := by
          rw [Nat.testBit_succ]
          cases actual <;> simp
        simp [hj, hbit]

section Run
variable {target : UInt64} {states : Nat → A53BranchPredictor} {outcomes : Nat → Bool}

theorem Executes.next (h : Executes cfg ip target states outcomes) (hfits : Fits cfg ip) (t : Nat) :
    (∀ v < cfg.size, entry cfg (states (t + 1)) ip v =
        if v = registerValue cfg (states t) ip then
          nextState (entry cfg (states t) ip v) (outcomes t)
        else entry cfg (states t) ip v) ∧
      ∀ j < cfg.k, (registerValue cfg (states (t + 1)) ip).testBit j =
        if j = 0 then outcomes t else (registerValue cfg (states t) ip).testBit (j - 1) := by
  obtain ⟨s, hs, hothers⟩ := h t
  have hspec := update_spec hs
  generalize states (t + 1) = s' at hothers ⊢
  induction hothers with
  | refl => exact hspec
  | tail _ hst ih =>
    obtain ⟨hentry, hvalue⟩ := hst.frame hfits
    rw [hvalue]
    exact ⟨fun v hv => (hentry v hv).trans (ih.1 v hv), ih.2⟩

theorem Executes.testBit (h : Executes cfg ip target states outcomes) (hfits : Fits cfg ip)
    (t : Nat) {j : Nat} (hj : j < cfg.k) :
    (registerValue cfg (states (t + j + 1)) ip).testBit j = outcomes t := by
  induction j with
  | zero => exact ((h.next hfits t).2 0 hj).trans (if_pos rfl)
  | succ j ih =>
    rw [(h.next hfits (t + (j + 1))).2 _ hj, if_neg (Nat.succ_ne_zero j), Nat.add_sub_cancel]
    exact ih (by omega)

theorem learns_of_fits (hfits : Fits cfg ip) : Learns cfg ip := by
  intro target states outcomes f h hf
  -- The outcome is a function of the value in the register.
  let g v := f fun i => Nat.testBit v (cfg.k - 1 - i)
  have hg : ∀ t, outcomes (t + cfg.k) = g (registerValue cfg (states (t + cfg.k)) ip) := by
    intro t
    refine (hf t).trans (congrArg f (funext fun i => ?_))
    have hbit := h.testBit hfits (t + i) (j := cfg.k - 1 - i) (by omega)
    rw [← hbit]
    congr 3
    omega
  let left t := ∑ v ∈ Finset.range cfg.size, distance (g v) (entry cfg (states t) ip v)
  have hstep : ∀ t, ∀ v ∈ Finset.range cfg.size,
      distance (g v) (entry cfg (states (t + cfg.k + 1)) ip v) ≤
        distance (g v) (entry cfg (states (t + cfg.k)) ip v) := by
    intro t v hv
    rw [(h.next hfits _).1 v (Finset.mem_range.mp hv)]
    split
    · next hself =>
      rw [hg t, ← hself]
      exact (distance_nextState _ _).1
    · exact Nat.le_refl _
  obtain ⟨N, hN⟩ := exists_still (f := fun t => left (t + cfg.k)) fun t => by
    rw [Nat.add_right_comm]
    exact Finset.sum_le_sum (hstep t)
  refine ⟨N + cfg.k, fun t ht => ?_⟩
  obtain ⟨i, rfl⟩ := Nat.exists_eq_add_of_le' ht
  have hstill := hN (i + N) (Nat.le_add_left N i)
  rw [← Nat.add_assoc]
  set t := i + N
  rw [predict, if_neg Bool.false_ne_true, if_pos (inBounds_iff.mpr hfits), hg, historyIndex_eq hfits]
  -- A wrong prediction would bring an entry closer to its outcome.
  by_contra hwrong
  have hmem : registerValue cfg (states (t + cfg.k)) ip ∈ _ :=
    Finset.mem_range.mpr registerValue_lt
  refine Nat.ne_of_lt (Finset.sum_lt_sum (hstep t) ⟨_, hmem, ?_⟩) ?_
  · rw [(h.next hfits _).1 _ (Finset.mem_range.mp hmem), if_pos rfl, hg t]
    exact (distance_nextState _ _).2 fun heq => hwrong (congrArg some heq)
  · rw [Nat.add_right_comm]
    exact hstill

/-- The predictor stays within its tables, and learns the branch, just when the number of its
register survives the signed byte. -/
theorem safe_and_learns_iff (cfg : Config) (ip : UInt64) :
    ((∀ s, InBounds cfg s ip) ∧ Learns cfg ip) ↔ ip.toNat % cfg.m_num_registers % 256 < 128 := by
  constructor
  · intro h
    exact inBounds_iff.mp (h.1 ⟨.create, fun _ => .StronglyNotTaken, fun _ => 0⟩)
  · exact fun h => ⟨fun _ => inBounds_iff.mpr h, learns_of_fits h⟩

end Run

/-- The state after the constructor. -/
def create : A53BranchPredictor := ⟨.create, fun _ => .StronglyNotTaken, fun _ => 0⟩

/-- With 129 registers, the branch at 128 uses register -128. -/
theorem last_register_negative :
    let cfg : Config := ⟨129, 0, by decide, by decide⟩
    registerIndex cfg 128 = -128 ∧ predict cfg create 128 false 0 = none := by
  decide

end Sniper.Predictors.A53
