import Sniper.Lib.Compaction
import Sniper.Lib.Simulation
import Sniper.Timing.Squashing

/-! # What is squashed

The loop over the memory operands squashes loads and stores, but the first of neither, and no
execute. Whatever is squashed, the flags tell which of the others is the first and which the last.
-/
namespace Sniper.Timing
open Lib.Simulation Function

variable {Reg : Type}

namespace InstructionUop
variable {l l' : List (InstructionUop Reg)}

/-- There is a micro-op at an index that is not squashed. -/
def alive (l : List (InstructionUop Reg)) (i : Nat) : Bool := (l[i]?).any (!·.squashed)

/-- The flags are right for the micro-ops that are not squashed. -/
def Ends (l : List (InstructionUop Reg)) : Prop :=
  ∀ i uop, l[i]? = some uop → uop.squashed = false →
    (uop.first = true ↔ ∀ j < i, alive l j = false) ∧
      (uop.last = true ↔ ∀ j, i < j → alive l j = false)

theorem alive_of_get {i uop} (h : l[i]? = some uop) :
    alive l i = !uop.squashed := by
  rw [alive, h]
  rfl

theorem alive_congr (h : l'.map (·.squashed) = l.map (·.squashed)) : alive l' = alive l := by
  funext i
  have hi := congrArg (·[i]?) h
  simp only [List.getElem?_map] at hi
  rw [alive, alive]
  cases hl : l[i]? with
  | none =>
    rw [hl] at hi
    rw [Option.map_eq_none_iff.mp hi]
  | some uop =>
    rw [hl] at hi
    obtain ⟨uop', huop', heq⟩ := Option.map_eq_some_iff.mp hi
    rw [huop', Option.any_some, Option.any_some, heq]

/-! ### The first that is not squashed -/

theorem onFirst_squashed (f : InstructionUop Reg → InstructionUop Reg)
    (hf : ∀ uop, (f uop).squashed = uop.squashed) (l : List (InstructionUop Reg)) :
    (onFirst f l).map (·.squashed) = l.map (·.squashed) := by
  induction l with
  | nil => rfl
  | cons uop rest ih =>
    rw [onFirst]
    split
    · rw [List.map_cons, List.map_cons, ih]
    · rw [List.map_cons, List.map_cons, hf]

theorem onFirst_length (f : InstructionUop Reg → InstructionUop Reg)
    (l : List (InstructionUop Reg)) : (onFirst f l).length = l.length := by
  induction l with
  | nil => rfl
  | cons uop rest ih =>
    rw [onFirst]
    split
    · rw [List.length_cons, List.length_cons, ih]
    · rfl

theorem onFirst_get {f i uop'} (h : (onFirst f l)[i]? = some uop') :
    ∃ uop, l[i]? = some uop ∧
      (uop' = f uop ∧ uop.squashed = false ∧ (∀ j < i, alive l j = false) ∨
        uop' = uop ∧ (uop.squashed = false → ¬ ∀ j < i, alive l j = false)) := by
  induction l generalizing i with
  | nil => cases h
  | cons uop rest ih =>
    rw [onFirst] at h
    split at h
    case isTrue hsquashed =>
      cases i with
      | zero =>
        cases h
        exact ⟨_, rfl, .inr ⟨rfl, fun hfalse => absurd hsquashed (by simp [hfalse])⟩⟩
      | succ i =>
        obtain ⟨uop₁, hget, hcase⟩ := ih h
        have hbefore : (∀ j < i + 1, alive (uop :: rest) j = false) ↔
            ∀ j < i, alive rest j = false := by
          refine ⟨fun h j hj => h (j + 1) (Nat.succ_lt_succ hj), fun h j hj => ?_⟩
          cases j with
          | zero => simp [alive, hsquashed]
          | succ j => exact h j (Nat.lt_of_succ_lt_succ hj)
        rw [← hbefore] at hcase
        exact ⟨uop₁, hget, hcase⟩
    case isFalse hlive =>
      have hlive : uop.squashed = false := Bool.not_eq_true _ ▸ hlive
      cases i with
      | zero =>
        cases h
        exact ⟨uop, rfl, .inl ⟨rfl, hlive, fun j hj => absurd hj (Nat.not_lt_zero j)⟩⟩
      | succ i =>
        refine ⟨uop', h, .inr ⟨rfl, fun _ hall => ?_⟩⟩
        have hzero := hall 0 (Nat.succ_pos i)
        simp [alive, hlive] at hzero

theorem onLast_get {f i uop'} (h : (onFirst f l.reverse).reverse[i]? = some uop') :
    ∃ uop, l[i]? = some uop ∧
      (uop' = f uop ∧ uop.squashed = false ∧ (∀ j, i < j → alive l j = false) ∨
        uop' = uop ∧ (uop.squashed = false → ¬ ∀ j, i < j → alive l j = false)) := by
  have hlength : (onFirst f l.reverse).length = l.length := by
    rw [onFirst_length, List.length_reverse]
  have hi : i < l.length := by
    have hlt := (List.getElem?_eq_some_iff.mp h).1
    rwa [List.length_reverse, hlength] at hlt
  rw [List.getElem?_reverse (by omega), hlength] at h
  obtain ⟨uop, hget, hcase⟩ := onFirst_get h
  have hindex : l.length - 1 - (l.length - 1 - i) = i := by omega
  rw [List.getElem?_reverse (by omega), hindex] at hget
  have hback : ∀ j < l.length, alive l.reverse j = alive l (l.length - 1 - j) := by
    intro j hj
    rw [alive, alive, List.getElem?_reverse hj]
  have hafter : (∀ j < l.length - 1 - i, alive l.reverse j = false) ↔
      ∀ j, i < j → alive l j = false := by
    constructor
    · intro hall j hj
      by_cases hjl : j < l.length
      · have hj' := hall (l.length - 1 - j) (by omega)
        have hindex : l.length - 1 - (l.length - 1 - j) = j := by omega
        rwa [hback _ (by omega), hindex] at hj'
      · rw [alive, List.getElem?_eq_none (by omega)]
        rfl
    · intro hall j hj
      rw [hback j (by omega)]
      exact hall _ (by omega)
  rw [hafter] at hcase
  exact ⟨uop, hget, hcase⟩

/-! ### Squashing one -/

theorem squash_length (x : Nat) (l : List (InstructionUop Reg)) :
    (squash x l).length = l.length := by
  simp only [squash, List.length_reverse, onFirst_length, List.length_modify]

theorem alive_squash (x j : Nat) : alive (squash x l) j = (alive l j && decide (x ≠ j)) := by
  have hsame : alive (squash x l) = alive (l.modify x setSquashed) := by
    refine alive_congr ?_
    simp only [squash]
    rw [List.map_reverse, onFirst_squashed (setLast true) fun _ => rfl, List.map_reverse,
      List.reverse_reverse, onFirst_squashed (setFirst true) fun _ => rfl]
  rw [hsame, alive, alive, List.getElem?_modify]
  by_cases hj : x = j
  · cases l[j]? <;> simp [hj, setSquashed]
  · simp [hj]

theorem squash_get {x i uop'} (h : (squash x l)[i]? = some uop') :
    ∃ uop, l[i]? = some uop ∧
      uop' = { uop with
        squashed := uop.squashed || decide (x = i), first := uop'.first, last := uop'.last } ∧
      (uop'.squashed = false →
        (uop'.first = true ↔ uop.first = true ∨ ∀ j < i, alive (squash x l) j = false) ∧
        (uop'.last = true ↔
          uop.last = true ∨ ∀ j, i < j → alive (squash x l) j = false)) := by
  have hsame : alive (onFirst (setFirst true) (l.modify x setSquashed)) =
      alive (l.modify x setSquashed) :=
    alive_congr (onFirst_squashed (setFirst true) (fun _ => rfl) _)
  have halive : alive (squash x l) = alive (l.modify x setSquashed) := by
    refine (alive_congr ?_).trans hsame
    simp only [squash]
    rw [List.map_reverse, onFirst_squashed (setLast true) fun _ => rfl, List.map_reverse,
      List.reverse_reverse]
  rw [halive]
  obtain ⟨uop₂, hget₂, hlast⟩ := onLast_get h
  obtain ⟨uop₁, hget₁, hfirst⟩ := onFirst_get hget₂
  rw [hsame] at hlast
  rw [List.getElem?_modify] at hget₁
  obtain ⟨uop, hget, huop⟩ := Option.map_eq_some_iff.mp hget₁
  have huop : uop₁ = { uop with squashed := uop.squashed || decide (x = i) } := by
    rw [← huop]
    by_cases hx : x = i <;> simp [hx, setSquashed]
  refine ⟨uop, hget, ?_⟩
  rcases hfirst with ⟨rfl, hlive, hall⟩ | ⟨rfl, hnot⟩ <;>
    rcases hlast with ⟨rfl, hlive', hall'⟩ | ⟨rfl, hnot'⟩ <;>
    subst huop
  · exact ⟨rfl, fun _ => ⟨⟨fun _ => .inr hall, fun _ => rfl⟩,
      ⟨fun _ => .inr hall', fun _ => rfl⟩⟩⟩
  · exact ⟨rfl, fun hs => ⟨⟨fun _ => .inr hall, fun _ => rfl⟩,
      ⟨.inl, fun h => h.resolve_right (hnot' hs)⟩⟩⟩
  · exact ⟨rfl, fun hs => ⟨⟨.inl, fun h => h.resolve_right (hnot hs)⟩,
      ⟨fun _ => .inr hall', fun _ => rfl⟩⟩⟩
  · exact ⟨rfl, fun hs => ⟨⟨.inl, fun h => h.resolve_right (hnot hs)⟩,
      ⟨.inl, fun h => h.resolve_right (hnot' hs)⟩⟩⟩

theorem Ends.squash (h : Ends l) (x : Nat) : Ends (squash x l) := by
  intro i uop' hget' hlive
  obtain ⟨uop, hget, hrest, hflags⟩ := squash_get hget'
  have hlive' : uop.squashed = false := by
    rw [hrest] at hlive
    exact (Bool.or_eq_false_iff.mp hlive).1
  obtain ⟨hfirst, hlast⟩ := hflags hlive
  obtain ⟨hfirst₀, hlast₀⟩ := h i uop hget hlive'
  -- nothing comes back
  have hdead : ∀ j, alive l j = false → alive (InstructionUop.squash x l) j = false := by
    intro j hj
    rw [alive_squash, hj]
    rfl
  constructor
  · rw [hfirst, hfirst₀]
    exact ⟨fun h => h.elim (fun hall j hj => hdead j (hall j hj)) id, .inr⟩
  · rw [hlast, hlast₀]
    exact ⟨fun h => h.elim (fun hall j hj => hdead j (hall j hj)) id, .inr⟩

/-- What squashing reads is the same. -/
structure Keeps (f : InstructionUop Reg → InstructionUop Reg) : Prop where
  m_uop : ∀ uop, (f uop).m_uop = uop.m_uop
  squashed : ∀ uop, (f uop).squashed = uop.squashed
  intra : ∀ uop, (f uop).intraInstructionDependencies = uop.intraInstructionDependencies
  offset : ∀ uop, (f uop).microOpTypeOffset = uop.microOpTypeOffset
  decoded : ∀ uop, (f uop).decodedOffset = uop.decodedOffset
  first : ∀ uop, (f uop).first = uop.first
  last : ∀ uop, (f uop).last = uop.last

theorem modify_get {f : InstructionUop Reg → InstructionUop Reg} {x i : Nat}
    {uop' : InstructionUop Reg} (h : (l.modify x f)[i]? = some uop') :
    ∃ uop, l[i]? = some uop ∧ (uop' = f uop ∨ uop' = uop) := by
  rw [List.getElem?_modify] at h
  obtain ⟨uop, hget, huop⟩ := Option.map_eq_some_iff.mp h
  refine ⟨uop, hget, ?_⟩
  split at huop
  · exact .inl huop.symm
  · exact .inr huop.symm

theorem Keeps.alive {f} (hf : Keeps f) (x : Nat) (l : List (InstructionUop Reg)) :
    alive (l.modify x f) = alive l := by
  funext i
  rw [InstructionUop.alive, InstructionUop.alive, List.getElem?_modify]
  cases l[i]? with
  | none => rfl
  | some uop =>
    by_cases hx : x = i
    · simp [hx, hf.squashed]
    · simp [hx]

theorem Ends.modify (h : Ends l) {f : InstructionUop Reg → InstructionUop Reg} (hf : Keeps f)
    (x : Nat) : Ends (l.modify x f) := by
  intro i uop' hget' hlive
  rw [hf.alive]
  obtain ⟨uop, hget, rfl | rfl⟩ := modify_get hget'
  · rw [hf.squashed] at hlive
    rw [hf.first, hf.last]
    exact h i uop hget hlive
  · exact h i uop' hget hlive

end InstructionUop

/-! ### The micro-ops of an instruction -/

structure Mix where
  numLoads : Nat
  numExecs : Nat
  numStores : Nat

namespace Mix

def total (m : Mix) : Nat := m.numLoads + m.numExecs + m.numStores

def typeAt (m : Mix) (i : Nat) : UopType :=
  if i < m.numLoads then .load else if i < m.numLoads + m.numExecs then .execute else .store

def offsetAt (m : Mix) (i : Nat) : Nat :=
  if i < m.numLoads then i
  else if i < m.numLoads + m.numExecs then i - m.numLoads else i - m.numLoads - m.numExecs

def intraAt (m : Mix) (i : Nat) : Nat :=
  if i < m.numLoads then 0
  else if i < m.numLoads + m.numExecs then m.numLoads else m.numExecs

/-- How many micro-ops access the memory in a direction, and where the first of them is. -/
def count (m : Mix) : Direction → Nat
  | .READ => m.numLoads
  | .WRITE => m.numStores

def base (m : Mix) : Direction → Nat
  | .READ => 0
  | .WRITE => m.numLoads + m.numExecs

theorem access (m : Mix) {direction n} (h : n < m.count direction) :
    m.base direction + n < m.total ∧
    m.typeAt (m.base direction + n) = Operands.uopType direction ∧
    m.offsetAt (m.base direction + n) = n := by
  cases direction with
  | READ =>
    have hload : n < m.numLoads := h
    have hbase : m.base .READ + n = n := Nat.zero_add n
    rw [hbase, typeAt, offsetAt, if_pos hload, if_pos hload]
    refine ⟨?_, rfl, rfl⟩
    unfold total
    omega
  | WRITE =>
    have hstore : n < m.numStores := h
    have hload : ¬ m.numLoads + m.numExecs + n < m.numLoads := by omega
    have hexec : ¬ m.numLoads + m.numExecs + n < m.numLoads + m.numExecs := by omega
    have hbase : m.base .WRITE + n = m.numLoads + m.numExecs + n := rfl
    rw [hbase, typeAt, offsetAt, if_neg hload, if_neg hexec, if_neg hload, if_neg hexec]
    refine ⟨?_, rfl, by omega⟩
    unfold total
    omega

end Mix

namespace DecodedUop

theorem generate_length (uops : Nat → MicroOp Reg) (m : Mix) :
    (generate uops m.numLoads m.numExecs m.numStores).length = m.total := by
  simp only [generate, List.length_map, List.length_range]
  rfl

theorem generate_get {uops} {m : Mix} {i} {uop : DecodedUop Reg}
    (h : (generate uops m.numLoads m.numExecs m.numStores)[i]? = some uop) :
    uop.uop_type = m.typeAt i ∧ uop.microOpTypeOffset = m.offsetAt i ∧
    uop.intraInstructionDependencies = m.intraAt i ∧ (uop.first = true ↔ i = 0) ∧
    (uop.last = true ↔ i + 1 = m.total) := by
  have hi : i < m.total := generate_length uops m ▸ (List.getElem?_eq_some_iff.mp h).1
  have hlast : i = m.total - 1 ↔ i + 1 = m.total := by omega
  have hrange : (List.range (m.numLoads + m.numExecs + m.numStores))[i]? = some i :=
    List.getElem?_range hi
  rw [generate, List.getElem?_map, hrange] at h
  cases h
  simp only [Mix.typeAt, Mix.offsetAt, Mix.intraAt]
  split
  · exact ⟨rfl, rfl, rfl, decide_eq_true_iff, decide_eq_true_iff.trans hlast⟩
  · split
    all_goals exact ⟨rfl, rfl, rfl, decide_eq_true_iff, decide_eq_true_iff.trans hlast⟩

end DecodedUop

namespace InstructionUop
variable {m : Mix} {l : List (InstructionUop Reg)}

/-- The micro-ops are still those decoded, with some squashed. -/
structure Shape (m : Mix) (l : List (InstructionUop Reg)) : Prop where
  length : l.length = m.total
  decoded : ∀ i uop, l[i]? = some uop → uop.m_uop.uop_type = m.typeAt i ∧
    uop.decodedOffset = m.offsetAt i ∧ uop.microOpTypeOffset = m.offsetAt i ∧
    uop.intraInstructionDependencies = m.intraAt i
  squashed : ∀ i uop, l[i]? = some uop → uop.squashed = true →
    m.typeAt i ≠ .execute ∧ m.offsetAt i ≠ 0

theorem Shape.modify (h : Shape m l) {f : InstructionUop Reg → InstructionUop Reg} (hf : Keeps f)
    (x : Nat) : Shape m (l.modify x f) := by
  refine ⟨(List.length_modify ..).trans h.length, fun i uop' hget' => ?_,
    fun i uop' hget' hsquashed => ?_⟩
  · obtain ⟨uop, hget, rfl | rfl⟩ := modify_get hget'
    · rw [hf.m_uop, hf.decoded, hf.offset, hf.intra]
      exact h.decoded i uop hget
    · exact h.decoded i uop' hget
  · obtain ⟨uop, hget, rfl | rfl⟩ := modify_get hget'
    · rw [hf.squashed] at hsquashed
      exact h.squashed i uop hget hsquashed
    · exact h.squashed i uop' hget hsquashed

theorem Shape.squash (h : Shape m l) {x} (htype : m.typeAt x ≠ .execute)
    (hoffset : m.offsetAt x ≠ 0) : Shape m (squash x l) := by
  refine ⟨(squash_length x l).trans h.length, fun i uop' hget' => ?_,
    fun i uop' hget' hsquashed => ?_⟩
  · obtain ⟨uop, hget, hrest, -⟩ := squash_get hget'
    rw [hrest]
    exact h.decoded i uop hget
  · obtain ⟨uop, hget, hrest, -⟩ := squash_get hget'
    rw [hrest] at hsquashed
    rcases Bool.or_eq_true_iff.mp hsquashed with hsquashed | hx
    · exact h.squashed i uop hget hsquashed
    · rw [← of_decide_eq_true hx]
      exact ⟨htype, hoffset⟩

theorem created_shape (getInstructionLatency : DecodedUop Reg → Nat) (uops : Nat → MicroOp Reg)
    (m : Mix) :
    let l := (DecodedUop.generate uops m.numLoads m.numExecs m.numStores).map
      (create getInstructionLatency)
    Shape m l ∧ Ends l ∧ ∀ uop ∈ l, uop.squashed = false := by
  intro l
  have hlength : l.length = m.total := by
    rw [List.length_map, DecodedUop.generate_length]
  have hget : ∀ (i : Nat) uop, l[i]? = some uop → ∃ decoded : DecodedUop Reg,
      (DecodedUop.generate uops m.numLoads m.numExecs m.numStores)[i]? = some decoded ∧
        create getInstructionLatency decoded = uop := by
    intro i uop hget
    rw [List.getElem?_map] at hget
    exact Option.map_eq_some_iff.mp hget
  have hlive : ∀ i, alive l i = decide (i < m.total) := by
    intro i
    by_cases hi : i < m.total
    · obtain ⟨decoded, -, huop⟩ := hget i l[i] (List.getElem?_eq_getElem (hlength ▸ hi))
      rw [alive_of_get (List.getElem?_eq_getElem (hlength ▸ hi)), ← huop]
      simp [create, hi]
    · rw [alive, List.getElem?_eq_none (by omega)]
      simp [hi]
  refine ⟨⟨hlength, fun i uop huop => ?_, fun i uop huop hsquashed => ?_⟩,
    fun i uop huop _ => ?_, fun uop huop => ?_⟩
  · obtain ⟨decoded, hdecoded, rfl⟩ := hget i uop huop
    obtain ⟨htype, hoffset, hintra, -⟩ := DecodedUop.generate_get hdecoded
    exact ⟨htype, hoffset, hoffset, hintra⟩
  · obtain ⟨decoded, -, rfl⟩ := hget i uop huop
    cases hsquashed
  · obtain ⟨decoded, hdecoded, rfl⟩ := hget i uop huop
    obtain ⟨-, -, -, hfirst, hlast⟩ := DecodedUop.generate_get hdecoded
    have hi : i < m.total := hlength ▸ (List.getElem?_eq_some_iff.mp huop).1
    simp only [hlive, decide_eq_false_iff_not]
    refine ⟨hfirst.trans ⟨fun h j hj => by omega, fun h => ?_⟩,
      hlast.trans ⟨fun h j hj => by omega, fun h => ?_⟩⟩
    · by_contra hne
      exact h 0 (Nat.pos_of_ne_zero hne) (by omega)
    · by_contra hne
      exact h (i + 1) (Nat.lt_succ_self i) (by omega)
  · obtain ⟨decoded, -, rfl⟩ := List.mem_map.mp huop
    rfl

end InstructionUop

/-! ### The loop over the operands -/

/-- The direction of an operand in memory. -/
def Operand.direction : Operand → Option Direction
  | .memory m_direction => some m_direction
  | .other => none

namespace Operands
open InstructionUop
variable {m : Mix} {s s' : Operands Reg} {bypassLatency : InstructionUop Reg → Nat}

structure Handled (m : Mix) (s : Operands Reg) : Prop where
  shape : Shape m s.m_current_uops
  ends : Ends s.m_current_uops
  lines : ∀ direction, (s.m_cache_lines direction).length = s.num_done direction
  plain : s.do_squashing = false → ∀ uop ∈ s.m_current_uops, uop.squashed = false

theorem accessed_keeps (bypassLatency : InstructionUop Reg → Nat) (info : MemoryInfo) :
    Keeps (accessed bypassLatency info) :=
  ⟨fun _ => rfl, fun _ => rfl, fun _ => rfl, fun _ => rfl, fun _ => rfl, fun _ => rfl, fun _ => rfl⟩

theorem baseIndex_eq {l : List (InstructionUop Reg)} (h : Shape m l) {direction : Direction}
    (hcount : 0 < m.count direction) : baseIndex l direction = some (m.base direction) := by
  obtain ⟨hlt, htype, -⟩ := m.access hcount
  rw [Nat.add_zero] at hlt htype
  have hlength : m.base direction < l.length := h.length ▸ hlt
  rw [baseIndex, List.findIdx?_eq_some_iff_getElem]
  refine ⟨hlength, ?_, fun j hj => ?_⟩
  · rw [(h.decoded _ _ (List.getElem?_eq_getElem hlength)).1, htype]
    exact decide_eq_true rfl
  · have hjl : j < l.length := Nat.lt_trans hj hlength
    rw [(h.decoded _ _ (List.getElem?_eq_getElem hjl)).1]
    cases direction with
    | READ => exact absurd hj (Nat.not_lt_zero j)
    | WRITE =>
      have hj : j < m.numLoads + m.numExecs := hj
      rw [Mix.typeAt]
      split
      · decide
      · decide

theorem Handled.access (h : Handled m s) (bypassLatency : InstructionUop Reg → Nat)
    {base : Direction → Option Nat} {info : MemoryInfo}
    (hroom : s.num_done info.dir < m.count info.dir)
    (hbase : base info.dir = some (m.base info.dir)) :
    ∃ s', s.access bypassLatency base info = .ok s' ∧ Handled m s' ∧
      s'.num_done = update s.num_done info.dir (s.num_done info.dir + 1) := by
  obtain ⟨hlt, htype, hoffset⟩ := m.access hroom
  have hkeeps := accessed_keeps bypassLatency info
  have hget := List.getElem?_eq_getElem (h.shape.length ▸ hlt :
    m.base info.dir + s.num_done info.dir < s.m_current_uops.length)
  have huop := (h.shape.decoded _ _ hget).1
  rw [Operands.access, hbase]
  dsimp only
  rw [hget]
  dsimp only
  rw [if_pos (huop.trans htype)]
  refine ⟨_, rfl, ⟨?_, ?_, fun direction => ?_, fun hplain => ?_⟩, rfl⟩
  · split
    case isTrue hagain =>
      -- a line can only be there again after an access
      have hdone : s.num_done info.dir ≠ 0 := h.lines info.dir ▸
        Nat.ne_of_gt (List.length_pos_of_mem hagain)
      have hexecute : m.typeAt (m.base info.dir + s.num_done info.dir) ≠ .execute := by
        rw [htype]
        cases info.dir <;> decide
      exact (h.shape.squash hexecute (by rwa [hoffset])).modify hkeeps _
    case isFalse => exact h.shape.modify hkeeps _
  · split
    case isTrue => exact (h.ends.squash _).modify hkeeps _
    case isFalse => exact h.ends.modify hkeeps _
  · dsimp only
    by_cases hd : direction = info.dir
    · rw [hd, update_self, update_self, List.length_append, h.lines]
      rfl
    · rw [update_of_ne hd, update_of_ne hd]
      exact h.lines direction
  · obtain ⟨hplain, hagain⟩ := Bool.or_eq_false_iff.mp hplain
    rw [if_neg (of_decide_eq_false hagain)]
    intro uop hmem
    obtain ⟨i, hi⟩ := List.mem_iff_getElem?.mp hmem
    obtain ⟨uop₁, hget₁, rfl | rfl⟩ := modify_get hi
    · exact h.plain hplain uop₁ (List.mem_of_getElem? hget₁)
    · exact h.plain hplain uop (List.mem_of_getElem? hget₁)

theorem Handled.handle (bypassLatency : InstructionUop Reg → Nat) {base}
    (hbase : ∀ direction, 0 < m.count direction → base direction = some (m.base direction))
    {ops memory_info} (h : Handled m s)
    (hinfo : ops.filterMap Operand.direction <+: memory_info.map (·.dir))
    (hroom : ∀ direction, s.num_done direction +
      (ops.filterMap Operand.direction).count direction ≤ m.count direction) :
    ∃ s', handle bypassLatency base ops memory_info s = .ok s' ∧ Handled m s' ∧
      ∀ direction, s'.num_done direction =
        s.num_done direction + (ops.filterMap Operand.direction).count direction := by
  induction ops generalizing memory_info s with
  | nil => exact ⟨s, by rw [Operands.handle], h, fun _ => rfl⟩
  | cons op ops ih =>
    cases op with
    | other =>
      exact ih h hinfo hroom
    | memory m_direction =>
      have hcons : (Operand.memory m_direction :: ops).filterMap Operand.direction =
          m_direction :: ops.filterMap Operand.direction := List.filterMap_cons_some rfl
      rw [hcons] at hinfo hroom ⊢
      cases memory_info with
      | nil => exact absurd (List.prefix_nil.mp hinfo) (List.cons_ne_nil _ _)
      | cons info memory_info =>
        obtain ⟨hdir, hinfo⟩ := List.cons_prefix_cons.mp hinfo
        have hdir : info.dir = m_direction := hdir.symm
        have hone := hroom info.dir
        rw [hdir, List.count_cons_self] at hone
        obtain ⟨s₁, hs₁, h₁, hdone⟩ := h.access bypassLatency
          (by rw [hdir]; omega) (hbase info.dir (by rw [hdir]; omega))
        have hstep : ∀ direction, s₁.num_done direction +
            (ops.filterMap Operand.direction).count direction = s.num_done direction +
            (m_direction :: ops.filterMap Operand.direction).count direction := by
          intro direction
          rw [hdone, hdir]
          by_cases hd : direction = m_direction
          · rw [hd, update_self, List.count_cons_self]
            omega
          · rw [update_of_ne hd, List.count_cons_of_ne (Ne.symm hd)]
        obtain ⟨s', hs', h', hdone'⟩ := ih h₁ hinfo fun direction => by
          rw [hstep]
          exact hroom direction
        refine ⟨s', ?_, h', fun direction => (hdone' direction).trans (hstep direction)⟩
        rw [Operands.handle, if_pos hdir]
        exact bind_eq_of_ok hs₁ hs'

end Operands
end Sniper.Timing
