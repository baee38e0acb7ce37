import Sniper.Timing.IssuePorts

/-! # Micro-ops that are turned down

A micro-op that is turned down leaves the ports as they are, unless it is turned down for its
unit: the ports have been taken by then.
-/
namespace Sniper.Timing.Ports
open Function

variable {Reg K : Type}

/-! ### Turned down -/

/-- A micro-op that is turned down reserves nothing. -/
def Keeps (model : Rob.RobContention Reg K) (s : K) (uop : DynamicMicroOp Reg) : Prop :=
  ∀ s', model.tryIssue s uop = (false, s') → s' = s

theorem keeps_iff {model : Rob.RobContention Reg K} {s s' uop busy}
    (h : model.tryIssue s uop = (!busy, s')) (hne : s' ≠ s) :
    Keeps model s uop ↔ busy = false := by
  constructor
  · intro hkeeps
    cases busy with
    | false => rfl
    | true => exact absurd (hkeeps s' h) hne
  · rintro rfl s'' hs
    rw [h] at hs
    cases hs

namespace Nehalem.RobContentionNehalem
variable {s s' : RobContentionNehalem} {uop_port : UopPort}

theorem takePort_cases (h : s.takePort uop_port = some s') :
    (uop_port = .PORT015 ∧ s.ports_generic < 3 ∧
      s' = { s with ports_generic := s.ports_generic + 1 }) ∨
    (uop_port = .PORT05 ∧ s.ports_generic05 < 2 ∧
      s' = { s with ports_generic05 := s.ports_generic05 + 1 }) ∨
    ((uop_port = .PORT2 ∨ uop_port = .PORT34) ∧ s.ports uop_port = false ∧
      s' = { s with ports := update s.ports uop_port true }) ∨
    (uop_port = .PORT1 ∧ s.ports uop_port = false ∧ s.ports_generic < 3 ∧
      s' = { s with
        ports := update s.ports uop_port true
        ports_generic := s.ports_generic + 1 }) ∨
    ((uop_port = .PORT0 ∨ uop_port = .PORT5) ∧ s.ports uop_port = false ∧
      s.ports_generic < 3 ∧ s.ports_generic05 < 2 ∧
      s' = { s with
        ports := update s.ports uop_port true
        ports_generic := s.ports_generic + 1
        ports_generic05 := s.ports_generic05 + 1 }) := by
  cases uop_port <;> simp only [takePort, Option.ite_none_left_eq_some, Option.some.injEq] at h
  case PORT015 | PORT05 | PORT2 | PORT34 =>
    obtain ⟨hfree, rfl⟩ := h
    simpa using hfree
  case PORT1 =>
    obtain ⟨hfree, hgeneric, -, rfl⟩ := h
    simp [Nat.not_le.mp hgeneric, hfree]
  case PORT0 | PORT5 =>
    obtain ⟨hfree, hgeneric, h05, rfl⟩ := h
    simpa [Nat.not_le.mp hgeneric, hfree] using h05

theorem takePort_used (h : s.takePort uop_port = some s') :
    s' ≠ s ∧ ∀ alu, s'.aluBusy alu = s.aluBusy alu := by
  rcases takePort_cases h with ⟨-, -, rfl⟩ | ⟨-, -, rfl⟩ | ⟨-, hfree, rfl⟩ | ⟨-, -, -, rfl⟩ |
    ⟨-, -, -, -, rfl⟩
  · exact ⟨fun he => absurd (congrArg ports_generic he) (Nat.succ_ne_self _), fun _ => rfl⟩
  · exact ⟨fun he => absurd (congrArg ports_generic05 he) (Nat.succ_ne_self _), fun _ => rfl⟩
  · refine ⟨fun he => ?_, fun _ => rfl⟩
    have hport : update s.ports uop_port true uop_port = s.ports uop_port :=
      congrFun (congrArg ports he) uop_port
    rw [update_self, hfree] at hport
    cases hport
  all_goals exact ⟨fun he => absurd (congrArg ports_generic he) (Nat.succ_ne_self _), fun _ => rfl⟩

theorem model_keeps_iff (core : CoreModel Reg UopPort UopAlu) (s : RobContentionNehalem)
    (uop : DynamicMicroOp Reg) : Keeps (model core) s uop ↔
      ((s.takePort (core.getPort uop)).isSome → s.aluBusy (core.getAlu uop) = false) := by
  cases h : s.takePort (core.getPort uop) with
  | none =>
    refine iff_of_true (fun s' hs => ?_) nofun
    simp only [model, tryIssue, h, Prod.mk.injEq] at hs
    exact hs.2.symm
  | some s' =>
    obtain ⟨hne, hbusy⟩ := takePort_used h
    have htry : (model core).tryIssue s uop = (!s'.aluBusy (core.getAlu uop), s') := by
      simp only [model, tryIssue, h]
    rw [← hbusy, keeps_iff htry hne]
    simp

end Nehalem.RobContentionNehalem

namespace CortexA53.RobContentionCortexA53
variable {s s₁ s₂ : RobContentionCortexA53} {uop_port : UopPort} {uop_issue_slot : UopIssueSlot}
  {alu : UopAlu}

def slots (s : RobContentionCortexA53) : Nat := s.slot0.toNat + s.slot1.toNat

theorem takeSlot_used (h : s.takeSlot uop_issue_slot = some s₁) :
    s.slots < s₁.slots ∧ { s₁ with slot0 := s.slot0, slot1 := s.slot1 } = s := by
  cases uop_issue_slot <;> simp only [takeSlot, Option.ite_none_left_eq_some] at h
  case SLOT_00 | SLOT_01 | SLOT_10 =>
    obtain ⟨hfree, hs⟩ := h
    cases hs
    exact ⟨by simp_all [slots], rfl⟩
  case SLOT_11 =>
    obtain ⟨hfree, hs⟩ := h
    split at hs <;> cases hs <;> exact ⟨by simp_all [slots], rfl⟩

theorem takePort_slots (h : s.takePort uop_port = some (s₁, alu)) :
    s₁.slots = s.slots ∧ ∀ alu, s₁.aluBusy alu = s.aluBusy alu := by
  cases uop_port <;> simp only [takePort, Option.ite_none_left_eq_some] at h <;>
    obtain ⟨-, hs⟩ := h
  case PORT0 | PORT3 | PORT4 | PORT5 | PORT1 | PORT2 =>
    cases hs
    exact ⟨rfl, fun _ => rfl⟩
  case PORT0_12 | PORT12 | PORT5_12 =>
    rw [issueIntegerPorts] at hs
    split at hs <;> cases hs <;> exact ⟨rfl, fun _ => rfl⟩
  case PORT34 =>
    rw [issueNEONPorts] at hs
    split at hs <;> cases hs <;> exact ⟨rfl, fun _ => rfl⟩

theorem model_keeps_iff (core : CoreModel Reg UopPort UopAlu)
    (getIssueSlot : DynamicMicroOp Reg → UopIssueSlot) (s : RobContentionCortexA53)
    (uop : DynamicMicroOp Reg) : Keeps (model core getIssueSlot) s uop ↔
      ∀ s₂ alu, s.take (core.getPort uop) (getIssueSlot uop) = some (s₂, alu) →
        s.aluBusy alu = false := by
  cases h₁ : s.takeSlot (getIssueSlot uop) with
  | none =>
    simp only [take, h₁, Option.bind_none]
    refine iff_of_true (fun s' hs => ?_) (fun _ _ h => by cases h)
    simp only [model, tryIssue, h₁, Prod.mk.injEq] at hs
    exact hs.2.symm
  | some s₁ =>
    obtain ⟨hslots, hback⟩ := takeSlot_used h₁
    cases h₂ : s₁.takePort (core.getPort uop) with
    | none =>
      simp only [take, h₁, Option.bind_some, h₂]
      refine iff_of_true (fun s' hs => ?_) (fun _ _ h => by cases h)
      simp only [model, tryIssue, h₁, h₂, Prod.mk.injEq] at hs
      exact hs.2.symm.trans hback
    | some r =>
      obtain ⟨s₂, alu⟩ := r
      obtain ⟨hsame, hbusy⟩ := takePort_slots h₂
      have hbusy' : s₂.aluBusy alu = s.aluBusy alu := by
        rw [hbusy, ← hback]
        rfl
      simp only [take, h₁, Option.bind_some, h₂, Option.some.injEq, Prod.mk.injEq]
      constructor
      · rintro hkeeps _ _ ⟨rfl, rfl⟩
        by_contra hb
        rw [Bool.not_eq_false, ← hbusy'] at hb
        have hs := hkeeps s₂ (by simp only [model, tryIssue, h₁, h₂, hb, if_true])
        rw [hs] at hsame
        omega
      · intro hfree s' hs
        have hb := hfree s₂ alu ⟨rfl, rfl⟩
        rw [← hbusy'] at hb
        simp only [model, tryIssue, h₁, h₂, hb] at hs
        split at hs
        · contradiction
        · split at hs <;> cases hs

end CortexA53.RobContentionCortexA53

namespace CortexA72.RobContentionCortexA72
variable {s s' : RobContentionCortexA72} {uop_port : UopPort}

/-- How much of the ports is taken. -/
def used (s : RobContentionCortexA72) : Nat :=
  s.port_branch.toNat + s.port_simd0.toNat + s.port_simd1.toNat + s.port_int_multi.toNat +
    s.port_ld.toNat + s.port_st.toNat + s.ports_integer

theorem takePort_used (h : s.takePort uop_port = some s') :
    s.used < s'.used ∧ ∀ alu, s'.aluBusy alu = s.aluBusy alu := by
  cases uop_port <;> simp only [takePort, Option.ite_none_left_eq_some] at h <;>
    obtain ⟨hfree, hs⟩ := h
  case PORT4 | PORT5 =>
    split at hs <;> cases hs <;> exact ⟨by simp_all [used], fun _ => rfl⟩
  case PORT0_12 | PORT12_3 | PORT6_12 | PORT7_12 =>
    cases hs
    refine ⟨?_, fun _ => rfl⟩
    simp_all [used]
    omega
  case PORT0 | PORT12 | PORT3 | PORT6 | PORT7 =>
    cases hs
    exact ⟨by simp_all [used], fun _ => rfl⟩

theorem model_keeps_iff (core : CoreModel Reg UopPort UopAlu) (s : RobContentionCortexA72)
    (uop : DynamicMicroOp Reg) : Keeps (model core) s uop ↔
      ((s.takePort (core.getPort uop)).isSome → s.aluBusy (core.getAlu uop) = false) := by
  cases h : s.takePort (core.getPort uop) with
  | none =>
    refine iff_of_true (fun s' hs => ?_) nofun
    simp only [model, tryIssue, h, Prod.mk.injEq] at hs
    exact hs.2.symm
  | some s' =>
    obtain ⟨hused, hbusy⟩ := takePort_used h
    have hne : s' ≠ s := by
      rintro rfl
      omega
    have htry : (model core).tryIssue s uop = (!s'.aluBusy (core.getAlu uop), s') := by
      simp only [model, tryIssue, h]
    rw [← hbusy, keeps_iff htry hne]
    simp

end CortexA72.RobContentionCortexA72
/-! ### One cycle -/

/-- What is done in one cycle, with the micro-ops that have issued; `room` is asked of every
micro-op that is tried. -/
inductive Cycle (model : Rob.RobContention Reg K) (room : K → DynamicMicroOp Reg → Prop) :
    K → List (DynamicMicroOp Reg) → Prop
  | init (s : K) (now : Nat) : Cycle model room (model.initCycle s now) []
  | issue {s s' : K} {issued : List (DynamicMicroOp Reg)} (uop : DynamicMicroOp Reg)
      (h : Cycle model room s issued) (hroom : room s uop)
      (ht : model.tryIssue s uop = (true, s')) : Cycle model room s' (issued ++ [uop])
  | turnDown {s s' : K} {issued : List (DynamicMicroOp Reg)} (uop : DynamicMicroOp Reg)
      (h : Cycle model room s issued) (hroom : room s uop)
      (ht : model.tryIssue s uop = (false, s')) : Cycle model room s' issued
  | doIssue {s : K} {issued : List (DynamicMicroOp Reg)} (uop : DynamicMicroOp Reg)
      (h : Cycle model room s issued) : Cycle model room (model.doIssue s uop) issued

/-- Each of the models keeps its state when it turns a micro-op down exactly when it does not turn
it down for a busy unit. -/
theorem turned_down_keeps_iff :
    (∀ (core : CoreModel Reg Nehalem.UopPort Nehalem.UopAlu) s uop,
      Keeps (Nehalem.RobContentionNehalem.model core) s uop ↔
        ((s.takePort (core.getPort uop)).isSome → s.aluBusy (core.getAlu uop) = false)) ∧
    (∀ (core : CoreModel Reg CortexA53.UopPort CortexA53.UopAlu) getIssueSlot s uop,
      Keeps (CortexA53.RobContentionCortexA53.model core getIssueSlot) s uop ↔
        ∀ s' alu, s.take (core.getPort uop) (getIssueSlot uop) = some (s', alu) →
          s.aluBusy alu = false) ∧
    (∀ (core : CoreModel Reg CortexA72.UopPort CortexA72.UopAlu) s uop,
      Keeps (CortexA72.RobContentionCortexA72.model core) s uop ↔
        ((s.takePort (core.getPort uop)).isSome → s.aluBusy (core.getAlu uop) = false)) :=
  ⟨Nehalem.RobContentionNehalem.model_keeps_iff, CortexA53.RobContentionCortexA53.model_keeps_iff,
    CortexA72.RobContentionCortexA72.model_keeps_iff⟩

/-- A micro-op that executes, with a latency. -/
def sample (execLatency : Nat) : DynamicMicroOp Nat :=
  .hit ⟨.execute, [], [], [], false, false, false⟩ 0 execLatency

namespace Nehalem

def fresh : RobContentionNehalem := ⟨0, 1, fun _ => false, 0, 0, fun _ => 0⟩

/-- Every micro-op divides. -/
def divides : CoreModel Nat UopPort UopAlu := ⟨fun _ => .PORT0, fun _ => .TRIG, fun _ => 20⟩

/-- The cycle after one in which a division has issued. -/
def dividing : RobContentionNehalem :=
  (((fresh.initCycle 0).tryIssue .PORT0 .TRIG).2.doIssue .TRIG 20).initCycle 1

/-- A second division is turned down, and its port stays taken. -/
theorem turned_down_leaks :
    Cycle (RobContentionNehalem.model divides) (fun _ _ => True) dividing [] ∧
      ¬ Keeps (RobContentionNehalem.model divides) dividing (sample 0) := by
  refine ⟨.init _ 1, fun h => ?_⟩
  have hports := congrArg RobContentionNehalem.ports_generic (h _ rfl)
  revert hports
  decide

end Nehalem
end Sniper.Timing.Ports
