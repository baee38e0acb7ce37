import Sniper.Timing.SquashedEnds

/-! # Dependencies after squashing

`doSquashing` counts the squashed micro-ops up to each one and takes those among the dependencies
off. The first of the dependencies and the first micro-op of a type are not squashed, so the
counts at these two are those of the dependencies. With the numbers of the timers, which skip
what is squashed, the dependencies are then those of the micro-ops that are left.
-/
namespace Sniper.Timing
open Lib.Compaction Lib.Simulation

variable {Reg : Type}

/-! ### The order of the types -/

namespace Mix
variable {m : Mix} {i j : Nat}

/-- Loads come first and stores last. -/
def stage : UopType → Nat
  | .load => 0
  | .execute => 1
  | .store => 2

theorem stage_inj {t t'} (h : stage t = stage t') : t = t' := by
  cases t <;> cases t' <;> first | rfl | cases h

theorem stage_mono (m : Mix) (h : i ≤ j) : stage (m.typeAt i) ≤ stage (m.typeAt j) := by
  simp only [typeAt]
  split
  · exact Nat.zero_le _
  · rw [if_neg (show ¬ j < m.numLoads by omega)]
    split
    · split <;> decide
    · split
      · omega
      · exact Nat.le_refl _

theorem typeAt_eq_iff (m : Mix) (h : j ≤ i) :
    m.typeAt j = m.typeAt i ↔ i - m.offsetAt i ≤ j := by
  simp only [typeAt, offsetAt]
  by_cases hload : i < m.numLoads
  · rw [if_pos hload, if_pos hload, if_pos (show j < m.numLoads by omega)]
    exact ⟨fun _ => by omega, fun _ => rfl⟩
  · rw [if_neg hload, if_neg hload]
    by_cases hexec : i < m.numLoads + m.numExecs
    · rw [if_pos hexec, if_pos hexec]
      by_cases hj : j < m.numLoads
      · rw [if_pos hj]
        exact ⟨fun h => (by cases h), fun h => by omega⟩
      · rw [if_neg hj, if_pos (show j < m.numLoads + m.numExecs by omega)]
        exact ⟨fun _ => by omega, fun _ => rfl⟩
    · rw [if_neg hexec, if_neg hexec]
      by_cases hj : j < m.numLoads
      · rw [if_pos hj]
        exact ⟨fun h => (by cases h), fun h => by omega⟩
      · rw [if_neg hj]
        by_cases hj' : j < m.numLoads + m.numExecs
        · rw [if_pos hj']
          exact ⟨fun h => (by cases h), fun h => by omega⟩
        · rw [if_neg hj']
          exact ⟨fun _ => by omega, fun _ => rfl⟩

theorem offsetAt_le (m : Mix) (i : Nat) : m.offsetAt i ≤ i := by
  simp only [offsetAt]
  split
  · exact Nat.le_refl _
  · split <;> omega

theorem offsetAt_base (m : Mix) (i : Nat) : m.offsetAt (i - m.offsetAt i) = 0 := by
  have hle := m.offsetAt_le i
  have htype := (m.typeAt_eq_iff (Nat.sub_le i (m.offsetAt i))).mpr (Nat.le_refl _)
  have hfirst : ∀ j ≤ i - m.offsetAt i, m.typeAt j = m.typeAt (i - m.offsetAt i) →
      i - m.offsetAt i ≤ j :=
    fun j hj h => (m.typeAt_eq_iff (Nat.le_trans hj (Nat.sub_le ..))).mp (h.trans htype)
  have hself := hfirst _ (Nat.sub_le (i - m.offsetAt i) (m.offsetAt (i - m.offsetAt i)))
    ((m.typeAt_eq_iff (Nat.sub_le ..)).mpr (Nat.le_refl _))
  have hle' := m.offsetAt_le (i - m.offsetAt i)
  omega

theorem intraAt_base (m : Mix) (i : Nat) : m.intraAt i ≤ i - m.offsetAt i ∧
    (m.intraAt i ≠ 0 → m.offsetAt (i - m.offsetAt i - m.intraAt i) = 0) := by
  by_cases hload : i < m.numLoads
  · rw [intraAt, if_pos hload]
    exact ⟨Nat.zero_le _, fun h => absurd rfl h⟩
  · by_cases hexec : i < m.numLoads + m.numExecs
    · have hbase : i - m.offsetAt i = m.numLoads := by
        rw [offsetAt, if_neg hload, if_pos hexec]
        omega
      rw [intraAt, if_neg hload, if_pos hexec, hbase, Nat.sub_self]
      refine ⟨Nat.le_refl _, fun h => ?_⟩
      rw [offsetAt, if_pos (Nat.pos_of_ne_zero h)]
    · have hbase : i - m.offsetAt i = m.numLoads + m.numExecs := by
        rw [offsetAt, if_neg hload, if_neg hexec]
        omega
      rw [intraAt, if_neg hload, if_neg hexec, hbase, Nat.add_sub_cancel]
      refine ⟨Nat.le_add_left .., fun h => ?_⟩
      rw [offsetAt, if_neg (Nat.lt_irrefl _), if_pos (by omega), Nat.sub_self]

end Mix

namespace InstructionUop
variable {m : Mix} {l l' : List (InstructionUop Reg)}

/-! ### The first loop -/

/-- The variables of the loop at an index: the type of the last micro-op that is not squashed, and
how many of this type there have been. -/
structure Counting (m : Mix) (l : List (InstructionUop Reg)) (i : Nat)
    (uop_type : Option UopType) (microOpTypeOffset : Nat) : Prop where
  none : uop_type = none → ∀ j < i, alive l j = false
  some : ∀ t, uop_type = some t → (∃ j < i, m.typeAt j = t) ∧
    microOpTypeOffset = rank (fun j => alive l j && decide (m.typeAt j = t)) i ∧
    ∀ j < i, alive l j = true → Mix.stage (m.typeAt j) ≤ Mix.stage t

theorem Counting.offset {i n uop_type} (h : Counting m l i uop_type n) :
    (if uop_type = Option.some (m.typeAt i) then n else 0) =
      rank (fun j => alive l j && decide (m.typeAt j = m.typeAt i)) i := by
  cases uop_type with
  | none =>
    exact (rank_eq_zero fun j hj => by rw [h.none rfl j hj]; rfl).symm
  | some t =>
    obtain ⟨⟨j₀, hj₀, ht⟩, hn, hstage⟩ := h.some t rfl
    by_cases heq : t = m.typeAt i
    · rw [if_pos (congrArg _ heq), hn, heq]
    · rw [if_neg fun h => heq (Option.some.inj h)]
      refine (rank_eq_zero fun j hj => ?_).symm
      cases halive : alive l j with
      | false => rfl
      | true =>
        -- a type that comes later has not been seen
        have hle := hstage j hj halive
        have hle' : Mix.stage t ≤ Mix.stage (m.typeAt i) := ht ▸ m.stage_mono (Nat.le_of_lt hj₀)
        have hne : m.typeAt j ≠ m.typeAt i := fun htype =>
          heq (Mix.stage_inj (Nat.le_antisymm hle' (htype ▸ hle)))
        simp [hne]

theorem Counting.skip {i n uop_type} (h : Counting m l i uop_type n) (hdead : alive l i = false) :
    Counting m l (i + 1) uop_type n := by
  refine ⟨fun hnone j hj => ?_, fun t ht => ?_⟩
  · rcases Nat.lt_succ_iff_lt_or_eq.mp hj with hj | rfl
    · exact h.none hnone j hj
    · exact hdead
  · obtain ⟨⟨j₀, hj₀, ht₀⟩, hn, hstage⟩ := h.some t ht
    refine ⟨⟨j₀, Nat.lt_succ_of_lt hj₀, ht₀⟩, ?_, fun j hj halive => ?_⟩
    · rw [rank_succ, hdead, hn]
      rfl
    · rcases Nat.lt_succ_iff_lt_or_eq.mp hj with hj | rfl
      · exact hstage j hj halive
      · rw [hdead] at halive
        cases halive

theorem Counting.count {i n uop_type} (h : Counting m l i uop_type n) (halive : alive l i = true) :
    Counting m l (i + 1) (Option.some (m.typeAt i))
      ((if uop_type = Option.some (m.typeAt i) then n else 0) + 1) := by
  refine ⟨nofun, fun t ht => ?_⟩
  cases ht
  refine ⟨⟨i, Nat.lt_succ_self i, rfl⟩, ?_, fun j hj _ => m.stage_mono (Nat.le_of_lt_succ hj)⟩
  rw [rank_succ, h.offset, halive]
  simp

theorem countSquashed_get (h : Shape m l) {i n uop_type rest} (hrest : l.drop i = rest)
    (hcount : Counting m l i uop_type n) {k uop'}
    (hget : (countSquashed uop_type (i - rank (alive l) i) n rest)[k]? = some uop') :
    ∃ uop, l[i + k]? = some uop ∧
      uop' = { uop with
        squashedCount := i + k + 1 - rank (alive l) (i + k + 1)
        microOpTypeOffset := uop'.microOpTypeOffset } ∧
      (uop.squashed = false → uop'.microOpTypeOffset =
        rank (fun j => alive l j && decide (m.typeAt j = m.typeAt (i + k))) (i + k)) := by
  induction rest generalizing i n uop_type k with
  | nil => cases hget
  | cons uop rest ih =>
    have huop : l[i]? = some uop := by
      have h0 := congrArg (·[0]?) hrest
      simpa using h0
    have hrest' : l.drop (i + 1) = rest := by
      rw [← List.drop_drop, hrest]
      rfl
    have halive := alive_of_get huop
    have hsucc : rank (alive l) (i + 1) = _ := rank_succ i
    have hle := rank_le (alive l) i
    rw [countSquashed] at hget
    split at hget
    case isTrue hsquashed =>
      rw [hsquashed] at halive
      rw [halive] at hsucc
      have hcounter : i - rank (alive l) i + 1 = i + 1 - rank (alive l) (i + 1) := by
        rw [hsucc]
        simp only [Bool.not_true, Bool.false_eq_true, ↓reduceIte]
        omega
      rw [hcounter] at hget
      cases k with
      | zero =>
        cases hget
        exact ⟨_, huop, rfl, fun hlive => nomatch hsquashed.symm.trans hlive⟩
      | succ k =>
        have hi : i + (k + 1) = i + 1 + k := by omega
        rw [hi]
        exact ih hrest' (hcount.skip halive) hget
    case isFalse hlive =>
      have hlive : uop.squashed = false := Bool.not_eq_true _ ▸ hlive
      rw [hlive] at halive
      rw [halive] at hsucc
      have hcounter : i - rank (alive l) i = i + 1 - rank (alive l) (i + 1) := by
        rw [hsucc]
        simp only [Bool.not_false, ↓reduceIte]
        omega
      rw [(h.decoded i uop huop).1, hcounter] at hget
      cases k with
      | zero =>
        cases hget
        exact ⟨uop, huop, rfl, fun _ => hcount.offset⟩
      | succ k =>
        have hi : i + (k + 1) = i + 1 + k := by omega
        rw [hi]
        exact ih hrest' (hcount.count halive) hget

theorem countSquashed_length (uop_type : Option UopType) (count n : Nat)
    (l : List (InstructionUop Reg)) : (countSquashed uop_type count n l).length = l.length := by
  induction l generalizing uop_type count n with
  | nil => rfl
  | cons uop rest ih =>
    rw [countSquashed]
    split
    all_goals rw [List.length_cons, List.length_cons, ih]

/-! ### The second loop -/

theorem correctFrom_ok {current_uops} (P : Nat → InstructionUop Reg → InstructionUop Reg → Prop)
    {i rest} (h : ∀ k uop, rest[k]? = some uop →
      ∃ uop', correct current_uops (i + k) uop = .ok uop' ∧ P (i + k) uop uop') :
    ∃ rest', correctFrom current_uops 0 i rest = .ok rest' ∧ rest'.length = rest.length ∧
      ∀ (k : Nat) uop', rest'[k]? = some uop' →
        ∃ uop, rest[k]? = some uop ∧ P (i + k) uop uop' := by
  induction rest generalizing i with
  | nil => exact ⟨[], rfl, rfl, fun _ _ h => nomatch h⟩
  | cons uop rest ih =>
    obtain ⟨uop', hcorrect, hP⟩ := h 0 uop rfl
    have hnext : ∀ k, i + (k + 1) = i + 1 + k := fun k => by omega
    obtain ⟨rest', hrest', hlength, hget⟩ := ih fun k uop hk => by
      have hk' := h (k + 1) uop hk
      rwa [hnext] at hk'
    refine ⟨uop' :: rest', ?_, by rw [List.length_cons, List.length_cons, hlength],
      fun k uop₁ hk => ?_⟩
    · exact bind_eq_of_ok hcorrect (bind_eq_of_ok hrest' rfl)
    · cases k with
      | zero =>
        cases hk
        exact ⟨uop, rfl, hP⟩
      | succ k =>
        rw [hnext]
        exact hget k uop₁ hk

/-- What `doSquashing` makes of a micro-op. -/
structure Corrected (m : Mix) (l : List (InstructionUop Reg)) (i : Nat)
    (uop uop' : InstructionUop Reg) : Prop where
  squashed : uop'.squashed = uop.squashed
  first : uop'.first = uop.first
  last : uop'.last = uop.last
  offset : uop.squashed = false →
    uop'.microOpTypeOffset = rank (alive l) i - rank (alive l) (i - m.offsetAt i)
  intra : uop.squashed = false → uop'.intraInstructionDependencies =
    rank (alive l) (i - m.offsetAt i) - rank (alive l) (i - m.offsetAt i - m.intraAt i)

theorem rank_typed (m : Mix) (l : List (InstructionUop Reg)) (i : Nat) :
    rank (fun j => alive l j && decide (m.typeAt j = m.typeAt i)) i =
      rank (alive l) i - rank (alive l) (i - m.offsetAt i) := by
  refine rank_from (Nat.sub_le ..) (fun j hj => ?_) fun j hj hji => ?_
  · have hne : ¬ m.typeAt j = m.typeAt i := fun h => by
      have := (m.typeAt_eq_iff (by omega)).mp h
      omega
    rw [decide_eq_false hne, Bool.and_false]
  · rw [decide_eq_true ((m.typeAt_eq_iff (Nat.le_of_lt hji)).mpr hj), Bool.and_true]

theorem Shape.alive_base (h : Shape m l) {i} (hi : i < l.length) (hbase : m.offsetAt i = 0) :
    alive l i = true := by
  have hget := List.getElem?_eq_getElem hi
  rw [alive_of_get hget]
  cases hsquashed : (l[i]).squashed with
  | false => rfl
  | true => exact absurd hbase (h.squashed i _ hget hsquashed).2

theorem Shape.doSquashing (h : Shape m l) : ∃ l', doSquashing l 0 = .ok l' ∧
    l'.length = l.length ∧ ∀ (i : Nat) uop', l'[i]? = some uop' →
      ∃ uop, l[i]? = some uop ∧ Corrected m l i uop uop' := by
  have hstart : Counting m l 0 none 0 := ⟨fun _ _ hj => absurd hj (Nat.not_lt_zero _), nofun⟩
  have hcounted : ∀ (i : Nat) uop', (countSquashed none 0 0 l)[i]? = some uop' →
      ∃ uop, l[i]? = some uop ∧ uop' = { uop with
        squashedCount := i + 1 - rank (alive l) (i + 1)
        microOpTypeOffset := uop'.microOpTypeOffset } ∧
      (uop.squashed = false → uop'.microOpTypeOffset =
        rank (alive l) i - rank (alive l) (i - m.offsetAt i)) := by
    intro i uop' hget
    obtain ⟨uop, huop, heq, hoffset⟩ := countSquashed_get h List.drop_zero hstart hget
    rw [Nat.zero_add] at huop heq hoffset
    exact ⟨uop, huop, heq, fun hlive => (hoffset hlive).trans (rank_typed m l i)⟩
  -- at a first micro-op, the count is that of the squashed ones before it
  have hbase : ∀ i < l.length, m.offsetAt i = 0 → ∃ uop,
      (countSquashed none 0 0 l)[i]? = some uop ∧ uop.squashedCount = i - rank (alive l) i := by
    intro i hi hoffset
    have hget := List.getElem?_eq_getElem
      ((countSquashed_length none 0 0 l).symm ▸ hi : i < (countSquashed none 0 0 l).length)
    obtain ⟨uop, -, heq, -⟩ := hcounted i _ hget
    refine ⟨_, hget, ?_⟩
    rw [heq, rank_succ, h.alive_base hi hoffset]
    simp only [↓reduceIte]
    omega
  have hstep : ∀ k counted, (countSquashed none 0 0 l)[k]? = some counted →
      ∃ uop', correct (countSquashed none 0 0 l) (0 + k) counted = .ok uop' ∧
        ∃ uop, l[0 + k]? = some uop ∧ Corrected m l (0 + k) uop uop' := by
    intro i counted hget
    rw [Nat.zero_add]
    obtain ⟨uop, huop, heq, hoffset⟩ := hcounted i counted hget
    have hi : i < l.length := (List.getElem?_eq_some_iff.mp huop).1
    obtain ⟨-, hdecoded, -, hintra⟩ := h.decoded i uop huop
    have hdecoded' : counted.decodedOffset = m.offsetAt i := by rw [heq]; exact hdecoded
    have hintra' : counted.intraInstructionDependencies = m.intraAt i := by rw [heq]; exact hintra
    have hsquashed : counted.squashed = uop.squashed := by rw [heq]
    have hfirst : counted.first = uop.first := by rw [heq]
    have hlast : counted.last = uop.last := by rw [heq]
    rw [correct]
    by_cases hnone : counted.squashed = true ∨ counted.intraInstructionDependencies = 0
    · rw [if_pos hnone]
      refine ⟨counted, rfl, uop, huop, hsquashed, hfirst, hlast, hoffset, fun hlive => ?_⟩
      have hzero : m.intraAt i = 0 :=
        hintra' ▸ hnone.resolve_left fun h => by rw [hsquashed, hlive] at h; cases h
      rw [hintra', hzero, Nat.sub_zero, Nat.sub_self]
    · obtain ⟨hlive, hne⟩ := not_or.mp hnone
      rw [hintra'] at hne
      rw [if_neg hnone, hdecoded', hintra']
      obtain ⟨hle, hfirstBase⟩ := m.intraAt_base i
      obtain ⟨base, hbaseGet, hbaseCount⟩ :=
        hbase (i - m.offsetAt i) (by omega) (m.offsetAt_base i)
      obtain ⟨first, hfirstGet, hfirstCount⟩ :=
        hbase (i - m.offsetAt i - m.intraAt i) (by omega) (hfirstBase hne)
      rw [if_pos hle, hbaseGet, hfirstGet]
      refine ⟨_, rfl, uop, huop, hsquashed, hfirst, hlast, hoffset, fun _ => ?_⟩
      show m.intraAt i - (base.squashedCount - first.squashedCount) = _
      obtain ⟨hmono, hbound⟩ :=
        rank_le_of_le (alive l) (Nat.sub_le (i - m.offsetAt i) (m.intraAt i))
      have hrank := rank_le (alive l) (i - m.offsetAt i - m.intraAt i)
      omega
  obtain ⟨l', hl', hlength, hget⟩ := correctFrom_ok
    (fun i _ uop' => ∃ uop, l[i]? = some uop ∧ Corrected m l i uop uop') hstep
  refine ⟨l', hl', hlength.trans (countSquashed_length ..), fun i uop' huop' => ?_⟩
  obtain ⟨-, -, uop, huop, hcorrected⟩ := hget i uop' huop'
  rw [Nat.zero_add] at huop hcorrected
  exact ⟨uop, huop, hcorrected⟩

theorem Shape.corrected_of_plain (h : Shape m l) (hplain : ∀ uop ∈ l, uop.squashed = false) {i uop}
    (huop : l[i]? = some uop) : Corrected m l i uop uop := by
  have hi : i < l.length := (List.getElem?_eq_some_iff.mp huop).1
  have hrank : ∀ j ≤ l.length, rank (alive l) j = j := by
    intro j hj
    induction j with
    | zero => rfl
    | succ j ih =>
      have hget := List.getElem?_eq_getElem (show j < l.length by omega)
      rw [rank_succ, ih (by omega), alive_of_get hget, hplain _ (List.mem_of_getElem? hget)]
      rfl
  obtain ⟨-, -, hoffset, hintra⟩ := h.decoded i uop huop
  have hle := m.offsetAt_le i
  have hle' := (m.intraAt_base i).1
  refine ⟨rfl, rfl, rfl, fun _ => ?_, fun _ => ?_⟩
  · rw [hoffset, hrank i (by omega), hrank _ (by omega)]
    omega
  · rw [hintra, hrank _ (by omega), hrank _ (by omega)]
    omega

/-! ### The numbers -/

theorem number_length (next : Nat) (l : List (InstructionUop Reg)) :
    (number next l).length = l.length := by
  induction l generalizing next with
  | nil => rfl
  | cons uop rest ih =>
    rw [number]
    split
    all_goals rw [List.length_cons, List.length_cons, ih]

theorem number_get {next i rest} (hrest : l.drop i = rest) {k uop'}
    (hget : (number (next + rank (alive l) i) rest)[k]? = some uop') :
    ∃ uop, l[i + k]? = some uop ∧ uop' = { uop with sequenceNumber := uop'.sequenceNumber } ∧
      (uop.squashed = false →
        uop'.sequenceNumber = (next + rank (alive l) (i + k)) % 2 ^ 64) := by
  induction rest generalizing i k with
  | nil => cases hget
  | cons uop rest ih =>
    have huop : l[i]? = some uop := by
      have h0 := congrArg (·[0]?) hrest
      simpa using h0
    have hrest' : l.drop (i + 1) = rest := by
      rw [← List.drop_drop, hrest]
      rfl
    have halive := alive_of_get huop
    have hsucc : rank (alive l) (i + 1) = _ := rank_succ i
    rw [halive] at hsucc
    rw [number] at hget
    split at hget
    case isTrue hsquashed =>
      rw [hsquashed] at hsucc
      cases k with
      | zero =>
        cases hget
        exact ⟨_, huop, rfl, fun hlive => nomatch hsquashed.symm.trans hlive⟩
      | succ k =>
        have hi : i + (k + 1) = i + 1 + k := by omega
        rw [hi]
        refine ih hrest' ?_
        rw [hsucc]
        exact hget
    case isFalse hlive =>
      have hlive : uop.squashed = false := Bool.not_eq_true _ ▸ hlive
      rw [hlive] at hsucc
      cases k with
      | zero =>
        cases hget
        exact ⟨uop, huop, rfl, fun _ => rfl⟩
      | succ k =>
        have hi : i + (k + 1) = i + 1 + k := by omega
        rw [hi]
        refine ih hrest' ?_
        rw [hsucc]
        exact hget

theorem intraDependencies_numbers {uop : DynamicMicroOp Reg} {s n}
    (hs : uop.sequenceNumber = s % 2 ^ 64) (hle : uop.microOpTypeOffset + n ≤ s) :
    uop.intraDependencies n =
      (List.range' (s - uop.microOpTypeOffset - n) n).map (· % 2 ^ 64) := by
  induction n with
  | zero => rfl
  | succ n ih =>
    have hfirst : uop.intraDependency (n + 1) =
        (s - uop.microOpTypeOffset - (n + 1)) % 2 ^ 64 := by
      rw [DynamicMicroOp.intraDependency, hs]
      omega
    have hnext : s - uop.microOpTypeOffset - (n + 1) + 1 = s - uop.microOpTypeOffset - n := by
      omega
    rw [DynamicMicroOp.intraDependencies, hfirst, ih (by omega), List.range'_succ, hnext,
      List.map_cons]

/-- The sequence number of the micro-op at an index, if it is not squashed. -/
def survivor (l : List (InstructionUop Reg)) (i : Nat) : Option Nat :=
  (l[i]?).bind fun uop => if uop.squashed then none else some uop.sequenceNumber

/-- What is asked of an instruction that has been squashed and numbered. -/
structure Kept (micro_ops : List (DecodedUop Reg)) (l : List (InstructionUop Reg)) : Prop where
  length : l.length = micro_ops.length
  nonempty : ∃ i, survivor l i ≠ none
  /-- The dependencies are those on what has not been squashed. -/
  dependencies : ∀ (i : Nat) decoded uop, micro_ops[i]? = some decoded → l[i]? = some uop →
    uop.squashed = false → uop.intraDependencies uop.intraInstructionDependencies =
      (decoded.dependsOn i).filterMap (survivor l)
  /-- The flags are those of the first and of the last that has not been squashed. -/
  first : ∀ (i : Nat) uop, l[i]? = some uop → uop.squashed = false →
    (uop.first = true ↔ ∀ j < i, survivor l j = none)
  last : ∀ (i : Nat) uop, l[i]? = some uop → uop.squashed = false →
    (uop.last = true ↔ ∀ j, i < j → survivor l j = none)

theorem kept_of_corrected {uops} (hshape : Shape m l) (hends : Ends l) (hpos : 0 < m.total)
    (hlength : l'.length = l.length) (hcorrected : ∀ (i : Nat) uop', l'[i]? = some uop' →
      ∃ uop, l[i]? = some uop ∧ Corrected m l i uop uop') (next : Nat) :
    Kept (DecodedUop.generate uops m.numLoads m.numExecs m.numStores) (number next l') := by
  have halive' : alive l' = alive l := by
    funext i
    by_cases hi : i < l'.length
    · have hget := List.getElem?_eq_getElem hi
      obtain ⟨uop, huop, hc⟩ := hcorrected i _ hget
      rw [alive_of_get hget, alive_of_get huop, hc.squashed]
    · rw [alive, alive, List.getElem?_eq_none (by omega), List.getElem?_eq_none (by omega)]
  have hnumbered : ∀ (i : Nat) uop', (number next l')[i]? = some uop' →
      ∃ uop, l[i]? = some uop ∧ Corrected m l i uop uop' ∧ (uop.squashed = false →
        uop'.sequenceNumber = (next + rank (alive l) i) % 2 ^ 64) := by
    intro i uop' hget
    obtain ⟨uop₁, hget₁, heq, hnumber⟩ := number_get List.drop_zero hget
    rw [Nat.zero_add] at hget₁ hnumber
    obtain ⟨uop, huop, hc⟩ := hcorrected i uop₁ hget₁
    refine ⟨uop, huop, ?_, fun hlive => ?_⟩
    · rw [heq]
      exact ⟨hc.squashed, hc.first, hc.last, hc.offset, hc.intra⟩
    · rw [← halive']
      exact hnumber (hc.squashed.trans hlive)
  have hnumber : ∀ i, survivor (number next l') i =
      if alive l i then some ((next + rank (alive l) i) % 2 ^ 64) else none := by
    intro i
    rw [survivor]
    cases hget : (number next l')[i]? with
    | none =>
      have hi := List.getElem?_eq_none_iff.mp hget
      rw [number_length, hlength] at hi
      rw [alive, List.getElem?_eq_none hi]
      rfl
    | some uop' =>
      obtain ⟨uop, huop, hc, hseq⟩ := hnumbered i uop' hget
      rw [Option.bind_some, hc.squashed, alive_of_get huop]
      cases hlive : uop.squashed with
      | false => rw [hseq hlive]; rfl
      | true => rfl
  have hflag : ∀ i, survivor (number next l') i = none ↔ alive l i = false := by
    intro i
    rw [hnumber]
    cases alive l i with
    | false => exact ⟨fun _ => rfl, fun _ => rfl⟩
    | true => simp
  have hgenerated := DecodedUop.generate_length uops m
  refine ⟨by rw [number_length, hlength, hshape.length, hgenerated], ⟨0, ?_⟩,
    fun i decoded uop' hdecoded hget hlive' => ?_, fun i uop' hget hlive' => ?_,
    fun i uop' hget hlive' => ?_⟩
  · rw [Ne, hflag, hshape.alive_base (hshape.length ▸ hpos) (Nat.le_zero.mp (m.offsetAt_le 0))]
    simp
  · obtain ⟨uop, huop, hc, hseq⟩ := hnumbered i uop' hget
    have hlive : uop.squashed = false := hc.squashed.symm.trans hlive'
    obtain ⟨-, hoffset, hintra, -⟩ := DecodedUop.generate_get hdecoded
    obtain ⟨hbase, -⟩ := m.intraAt_base i
    obtain ⟨hmono, -⟩ := rank_le_of_le (alive l) (Nat.sub_le i (m.offsetAt i))
    obtain ⟨hmono', -⟩ := rank_le_of_le (alive l) (Nat.sub_le (i - m.offsetAt i) (m.intraAt i))
    rw [intraDependencies_numbers (hseq hlive) (by rw [hc.offset hlive, hc.intra hlive]; omega),
      hc.offset hlive, hc.intra hlive, DecodedUop.dependsOn, hoffset, hintra]
    -- the range of what is left among the dependencies
    have hrange := numbers_of_range (alive l) next (i - m.offsetAt i - m.intraAt i) (m.intraAt i)
    have hfirst : next + rank (alive l) i -
        (rank (alive l) i - rank (alive l) (i - m.offsetAt i)) -
        (rank (alive l) (i - m.offsetAt i) - rank (alive l) (i - m.offsetAt i - m.intraAt i)) =
        next + rank (alive l) (i - m.offsetAt i - m.intraAt i) := by omega
    rw [Nat.sub_add_cancel hbase] at hrange
    rw [hfirst, ← hrange, List.map_map]
    induction List.range' (i - m.offsetAt i - m.intraAt i) (m.intraAt i) with
    | nil => rfl
    | cons j js ih =>
      rw [List.filterMap_cons, hnumber]
      cases hj : alive l j with
      | false =>
        rw [List.filter_cons_of_neg (by simp [hj])]
        exact ih
      | true =>
        rw [List.filter_cons_of_pos hj, List.map_cons, ih]
        rfl
  · obtain ⟨uop, huop, hc, -⟩ := hnumbered i uop' hget
    rw [hc.first, (hends i uop huop (hc.squashed.symm.trans hlive')).1]
    simp only [hflag]
  · obtain ⟨uop, huop, hc, -⟩ := hnumbered i uop' hget
    rw [hc.last, (hends i uop huop (hc.squashed.symm.trans hlive')).2]
    simp only [hflag]

end InstructionUop

/-! ### The whole instruction -/

open InstructionUop Operands

theorem countP_type {m : Mix} {l : List (InstructionUop Reg)} (h : Shape m l)
    (direction : Direction) :
    l.countP (·.m_uop.uop_type = uopType direction) = m.count direction := by
  have htyped : ∀ i < m.total, m.typeAt i = uopType direction ↔
      m.base direction ≤ i ∧ i < m.base direction + m.count direction := by
    intro i hi
    simp only [Mix.total] at hi
    rw [Mix.typeAt]
    cases direction with
    | READ =>
      simp only [Mix.base, Mix.count, uopType]
      split
      · exact ⟨fun _ => by omega, fun _ => rfl⟩
      · split <;> exact ⟨nofun, fun h => by omega⟩
    | WRITE =>
      simp only [Mix.base, Mix.count, uopType]
      split
      · exact ⟨nofun, fun h => by omega⟩
      · split
        · exact ⟨nofun, fun h => by omega⟩
        · exact ⟨fun _ => by omega, fun _ => rfl⟩
  have hfits : m.base direction + m.count direction ≤ m.total := by
    cases direction with
    | READ | WRITE =>
      simp only [Mix.base, Mix.count, Mix.total]
      omega
  have hsame : rank (fun i => (l[i]?).any (·.m_uop.uop_type = uopType direction)) m.total =
      rank (fun i => decide
        (m.base direction ≤ i ∧ i < m.base direction + m.count direction)) m.total := by
    refine rank_congr fun i hi => ?_
    have hget := List.getElem?_eq_getElem (h.length ▸ hi : i < l.length)
    rw [hget, Option.any_some, (h.decoded i _ hget).1]
    exact decide_eq_decide.mpr (htyped i hi)
  have htake := countP_take (·.m_uop.uop_type = uopType direction) l m.total
  rw [List.take_of_length_le (Nat.le_of_eq h.length), hsame, rank_interval] at htake
  omega

theorem setICache_keeps (hit_where : HitWhere) (latency : Nat) :
    Keeps (setICache hit_where latency : InstructionUop Reg → InstructionUop Reg) :=
  ⟨fun _ => rfl, fun _ => rfl, fun _ => rfl, fun _ => rfl, fun _ => rfl, fun _ => rfl, fun _ => rfl⟩

theorem fetched_handled {m} {l : List (InstructionUop Reg)} (hshape : Shape m l) (hends : Ends l)
    (hplain : ∀ uop ∈ l, uop.squashed = false) (icache : Option (HitWhere × Nat)) :
    Operands.Handled m ⟨match icache with
      | none => l
      | some (hit_where, latency) => l.modify 0 (setICache hit_where latency),
      fun _ => [], fun _ => 0, false⟩ := by
  cases icache with
  | none => exact ⟨hshape, hends, fun _ => rfl, fun _ => hplain⟩
  | some access =>
    have hkeeps : Keeps (setICache access.1 access.2 : InstructionUop Reg → _) :=
      setICache_keeps access.1 access.2
    refine ⟨hshape.modify hkeeps 0, hends.modify hkeeps 0, fun _ => rfl, fun _ uop hmem => ?_⟩
    obtain ⟨i, hi⟩ := List.mem_iff_getElem?.mp hmem
    obtain ⟨uop₁, hget₁, rfl | rfl⟩ := modify_get hi
    · exact (hkeeps.squashed uop₁).trans (hplain uop₁ (List.mem_of_getElem? hget₁))
    · exact hplain uop (List.mem_of_getElem? hget₁)

theorem handleInstruction_generated (getInstructionLatency : DecodedUop Reg → Nat)
    (bypassLatency : InstructionUop Reg → Nat) (uops : Nat → MicroOp Reg) (m : Mix)
    (icache : Option (HitWhere × Nat)) {ops : List Operand} {memory_info : List MemoryInfo}
    (next : Nat) (hpos : 0 < m.total)
    (hinfo : ops.filterMap Operand.direction <+: memory_info.map (·.dir))
    (hcount : ∀ direction, (ops.filterMap Operand.direction).count direction = m.count direction) :
    ∃ current_uops, handleInstruction getInstructionLatency bypassLatency
        (DecodedUop.generate uops m.numLoads m.numExecs m.numStores) icache ops memory_info =
          .ok current_uops ∧
      Kept (DecodedUop.generate uops m.numLoads m.numExecs m.numStores)
        (number next current_uops) := by
  obtain ⟨hshape, hends, hplain⟩ := created_shape getInstructionLatency uops m
  unfold handleInstruction
  generalize (DecodedUop.generate uops m.numLoads m.numExecs m.numStores).map
    (create getInstructionLatency) = l at hshape hends hplain ⊢
  have hstart := fetched_handled hshape hends hplain icache
  obtain ⟨s, hs, hhandled, hdone⟩ := hstart.handle bypassLatency
    (fun direction h => baseIndex_eq hshape h) hinfo fun direction => by
      rw [hcount]
      exact Nat.le_of_eq (Nat.zero_add _)
  have hreads : s.num_done .READ = l.countP (·.m_uop.uop_type = uopType .READ) := by
    rw [hdone, hcount, countP_type hshape]
    exact Nat.zero_add _
  have hwrites : s.num_done .WRITE = l.countP (·.m_uop.uop_type = uopType .WRITE) := by
    rw [hdone, hcount, countP_type hshape]
    exact Nat.zero_add _
  obtain ⟨l', hl', hlength, hcorrected⟩ : ∃ l', (if s.do_squashing = true then
      doSquashing s.m_current_uops 0 else pure s.m_current_uops) = .ok l' ∧
      l'.length = s.m_current_uops.length ∧ ∀ (i : Nat) uop', l'[i]? = some uop' →
        ∃ uop, s.m_current_uops[i]? = some uop ∧
          Corrected m s.m_current_uops i uop uop' := by
    cases hsquash : s.do_squashing with
    | true => exact hhandled.shape.doSquashing
    | false => exact ⟨s.m_current_uops, rfl, rfl, fun i uop huop =>
        ⟨uop, huop, hhandled.shape.corrected_of_plain (hhandled.plain hsquash) huop⟩⟩
  refine ⟨l', ?_, kept_of_corrected hhandled.shape hhandled.ends hpos hlength hcorrected next⟩
  refine bind_eq_of_ok hs ?_
  cases hsquash : s.do_squashing with
  | true =>
    rw [hsquash, if_pos rfl] at hl'
    exact bind_eq_of_ok hl' (if_pos ⟨hreads, hwrites⟩)
  | false =>
    rw [hsquash, if_neg Bool.false_ne_true] at hl'
    exact bind_eq_of_ok hl' (if_pos ⟨hreads, hwrites⟩)

/-- Whatever the operands access, the dependencies inside an instruction are kept. -/
theorem handleInstruction_kept (getInstructionLatency : DecodedUop Reg → Nat)
    (bypassLatency : InstructionUop Reg → Nat) (uops : Nat → MicroOp Reg)
    (numLoads numExecs numStores : Nat) (icache : Option (HitWhere × Nat)) (ops : List Operand)
    (memory_info : List MemoryInfo) (nextSequenceNumber : Nat)
    (hinfo : ops.filterMap Operand.direction <+: memory_info.map (·.dir))
    (hreads : (ops.filterMap Operand.direction).count .READ = numLoads)
    (hwrites : (ops.filterMap Operand.direction).count .WRITE = numStores) :
    ∃ current_uops, handleInstruction getInstructionLatency bypassLatency
        (DecodedUop.decode uops numLoads numExecs numStores) icache ops memory_info =
          .ok current_uops ∧
      Kept (DecodedUop.decode uops numLoads numExecs numStores)
        (number nextSequenceNumber current_uops) := by
  refine handleInstruction_generated getInstructionLatency bypassLatency uops
    ⟨numLoads, if numLoads + numExecs + numStores = 0 then 1 else numExecs, numStores⟩ icache
    nextSequenceNumber ?_ hinfo fun direction => ?_
  · simp only [Mix.total]
    split <;> omega
  · cases direction with
    | READ => exact hreads
    | WRITE => exact hwrites

/-! ### An instruction with two lines accessed again -/

namespace Gather

def operands : List Operand :=
  [.memory .READ, .memory .READ, .other, .memory .READ, .memory .WRITE, .memory .WRITE]

def accesses : List MemoryInfo :=
  [⟨.READ, 0x100, 4, .L1I⟩, ⟨.READ, 0x104, 4, .L1I⟩, ⟨.READ, 0x200, 4, .L1I⟩,
    ⟨.WRITE, 0x300, 1, .L1I⟩, ⟨.WRITE, 0x310, 1, .L1I⟩]

def micro_ops : List (DecodedUop Unit) :=
  DecodedUop.decode (fun _ => ⟨.execute, [], [], [], false, false, false⟩) 3 1 2

/-- The second load and the second store are squashed. -/
theorem handleInstruction_kept_gather : ∃ current_uops,
    handleInstruction (fun _ => 1) (fun _ => 0) micro_ops none operands accesses =
      .ok current_uops ∧ Kept micro_ops (number 7 current_uops) :=
  handleInstruction_kept (fun _ => 1) (fun _ => 0) _ 3 1 2 none operands accesses 7 (by decide)
    (by decide) (by decide)

/-- The execute depends on the two loads that are left, and the store on the execute. -/
example : (handleInstruction (fun _ => 1) (fun _ => 0) micro_ops none operands accesses).map
    (fun current_uops => ((number 7 current_uops).filter (!·.squashed)).map fun uop =>
      (uop.sequenceNumber, uop.getDependencies, uop.first, uop.last)) =
    .ok [(7, [], true, false), (8, [], false, false), (9, [7, 8], false, false),
      (10, [9], false, true)] := by
  decide

end Gather
end Sniper.Timing
