import Sniper.Lib.Assignment
import Sniper.Timing.PortReservation

/-! # The micro-ops of one cycle and the ports of a Nehalem

The micro-ops that issue in one cycle fit the ports as long as none of them is let in when the
ports 0, 1 and 5 have all been taken: those that go to port 0 or 5 are not counted among the
micro-ops that use one of the three.
-/
namespace Sniper.Timing.Ports
open Lib Function

variable {Reg : Type}

namespace Nehalem

inductive PhysicalPort where
  | P0
  | P1
  | P2
  | P3
  | P4
  | P5
  deriving DecidableEq

/-- The physical ports of a class. -/
def UopPort.allowed : UopPort → List PhysicalPort
  | .PORT0 => [.P0]
  | .PORT1 => [.P1]
  | .PORT2 => [.P2]
  | .PORT34 => [.P3, .P4]
  | .PORT5 => [.P5]
  | .PORT05 => [.P0, .P5]
  | .PORT015 => [.P0, .P1, .P5]

/-- The micro-ops get ports of their own, each one that its class allows. -/
def Realizable (core : CoreModel Reg UopPort UopAlu) (issued : List (DynamicMicroOp Reg)) : Prop :=
  Assignable (fun uop_port p => p ∈ UopPort.allowed uop_port) (issued.map core.getPort)

/-- The only physical port of a class, or the first one. -/
def UopPort.home : UopPort → PhysicalPort
  | .PORT0 | .PORT05 | .PORT015 => .P0
  | .PORT1 => .P1
  | .PORT2 => .P2
  | .PORT34 => .P3
  | .PORT5 => .P5

/-- Few enough micro-ops of each class, and of those that share ports. -/
structure Few (l : List UopPort) : Prop where
  single : ∀ p, p ≠ .PORT05 → p ≠ .PORT015 → l.count p ≤ 1
  two : l.count .PORT0 + l.count .PORT5 + l.count .PORT05 ≤ 2
  three : l.count .PORT0 + l.count .PORT1 + l.count .PORT5 + l.count .PORT05 +
    l.count .PORT015 ≤ 3

/-- The class allows one port, or two that nothing else allows. -/
def UopPort.single (p : UopPort) : Bool := p ≠ .PORT05 && p ≠ .PORT015

theorem count_home (l : List UopPort) (free : List PhysicalPort) :
    (((l.filter UopPort.single).map UopPort.home).filter (fun p => p ∈ free)).length =
      l.countP (fun c => UopPort.single c && decide (c.home ∈ free)) := by
  rw [List.filter_map, List.length_map, List.filter_filter, List.countP_eq_length_filter]
  congr 1
  refine List.filter_congr fun c _ => ?_
  rw [Function.comp_apply, Bool.and_comm]

theorem countP_two (l : List UopPort) :
    l.countP (fun c => UopPort.single c && decide (c.home ∈ [PhysicalPort.P0, .P5])) =
      l.count .PORT0 + l.count .PORT5 := by
  induction l with
  | nil => rfl
  | cons c l ih =>
    rw [List.countP_cons, List.count_cons, List.count_cons, ih]
    cases c <;> simp [UopPort.single, UopPort.home] <;> omega

theorem countP_three (l : List UopPort) :
    l.countP (fun c => UopPort.single c && decide (c.home ∈ [PhysicalPort.P0, .P1, .P5])) =
      l.count .PORT0 + l.count .PORT1 + l.count .PORT5 := by
  induction l with
  | nil => rfl
  | cons c l ih =>
    rw [List.countP_cons, List.count_cons, List.count_cons, List.count_cons, ih]
    cases c <;> simp [UopPort.single, UopPort.home] <;> omega

/-- Those with a port of their own get it; then come those with a choice of two ports, and last
those with a choice of three. -/
theorem Few.assignable {l} (h : Few l) :
    Assignable (fun uop_port p => p ∈ UopPort.allowed uop_port) l := by
  have hstart : Assigned (fun uop_port p => p ∈ UopPort.allowed uop_port)
      (l.filter UopPort.single) ((l.filter UopPort.single).map UopPort.home) := by
    constructor
    · refine List.Nodup.map_on ?_ (List.nodup_iff_count_le_one.mpr fun p => ?_)
      · intro p hp q hq
        cases p <;> cases q <;> simp_all [UopPort.single, UopPort.home]
      · by_cases hp : p.single = true
        · rw [List.count_filter hp]
          have hp : p ≠ .PORT05 ∧ p ≠ .PORT015 := by simpa [UopPort.single] using hp
          exact h.single p hp.1 hp.2
        · rw [List.count_eq_zero_of_not_mem fun hm => hp (List.mem_filter.mp hm).2]
          exact Nat.zero_le _
    · rw [List.forall₂_map_right_iff, List.forall₂_same]
      intro p hp
      cases p <;> decide
  have htwo := h.two
  have hthree := h.three
  obtain ⟨given, hgiven, -, hmiddle⟩ := hstart.extend
    (List.replicate (l.count .PORT05) .PORT05) [.P0, .P5]
    (fun r hr p hp => by rw [List.eq_of_mem_replicate hr]; exact hp) (by decide)
    (by rw [List.length_replicate, count_home, countP_two]; simp; omega)
  obtain ⟨given', -, -, hend⟩ := hmiddle.extend
    (List.replicate (l.count .PORT015) .PORT015) [.P0, .P1, .P5]
    (fun r hr p hp => by rw [List.eq_of_mem_replicate hr]; exact hp) (by decide) (by
      rw [List.length_replicate, List.filter_append, List.length_append, count_home, countP_three]
      have hle := List.length_filter_le (fun p => decide (p ∈ [PhysicalPort.P0, .P1, .P5])) given
      rw [hgiven, List.length_replicate] at hle
      simp only [List.length_cons, List.length_nil]
      omega)
  refine Assignable.perm ⟨_, hend⟩ (List.perm_iff_count.mpr fun p => ?_)
  rw [List.count_append, List.count_append, List.count_replicate, List.count_replicate]
  by_cases hp : p.single = true
  · cases p <;> simp_all [UopPort.single]
  · rw [List.count_eq_zero_of_not_mem fun hm => hp (List.mem_filter.mp hm).2]
    cases p <;> simp_all [UopPort.single]

namespace RobContentionNehalem
variable {s s' : RobContentionNehalem} {uop_port : UopPort} {l : List UopPort}

/-- How many of the ports 0, 1 and 5 have been taken in this cycle. -/
def reserved (s : RobContentionNehalem) : Nat :=
  s.ports_generic + s.ports_generic05 - (s.ports .PORT0).toNat - (s.ports .PORT5).toNat

/-- A micro-op that takes one of the ports 0, 1 and 5 finds that not all three have been taken. -/
def Room (s : RobContentionNehalem) (uop_port : UopPort) : Prop :=
  uop_port ≠ .PORT2 → uop_port ≠ .PORT34 → (s.takePort uop_port).isSome → s.reserved < 3

/-- The micro-ops are among those that the ports and the counters stand for. -/
structure Counts (s : RobContentionNehalem) (l : List UopPort) : Prop where
  ports : ∀ p, p ≠ .PORT05 → p ≠ .PORT015 → l.count p ≤ (s.ports p).toNat
  generic05 : l.count .PORT05 + (s.ports .PORT0).toNat + (s.ports .PORT5).toNat ≤ s.ports_generic05
  generic : l.count .PORT015 + (s.ports .PORT0).toNat + (s.ports .PORT1).toNat +
    (s.ports .PORT5).toNat ≤ s.ports_generic
  two : s.ports_generic05 ≤ 2
  three : s.ports_generic + s.ports_generic05 ≤
    3 + (s.ports .PORT0).toNat + (s.ports .PORT5).toNat

theorem Counts.few (h : Counts s l) : Few l := by
  have h0 := h.ports .PORT0 nofun nofun
  have h1 := h.ports .PORT1 nofun nofun
  have h5 := h.ports .PORT5 nofun nofun
  have h05 := h.generic05
  have h015 := h.generic
  have h2 := h.two
  have h3 := h.three
  exact ⟨fun p hp hp' => (h.ports p hp hp').trans (Bool.toNat_le _), by omega, by omega⟩

theorem Counts.fewer {l'} (h : Counts s (l ++ l')) : Counts s l := by
  have hle p : l.count p ≤ (l ++ l').count p := by
    rw [List.count_append]
    exact Nat.le_add_right _ _
  have h05 := hle .PORT05
  have h015 := hle .PORT015
  have hc05 := h.generic05
  have hc015 := h.generic
  exact ⟨fun p hp hp' => (hle p).trans (h.ports p hp hp'), by omega, by omega, h.two, h.three⟩

theorem count_snoc (l : List UopPort) (p q : UopPort) :
    (l ++ [q]).count p = l.count p + if q = p then 1 else 0 := by
  rw [List.count_append, List.count_singleton]
  simp

theorem count_snoc_le {ports p q} (h : l.count p ≤ (ports p).toNat) (hfree : ports q = false) :
    (l ++ [q]).count p ≤ (update ports q true p).toNat := by
  rw [count_snoc]
  by_cases hp : q = p
  · subst hp
    rw [hfree] at h
    simpa using h
  · rw [if_neg hp, update_of_ne (Ne.symm hp)]
    exact h

theorem Counts.takePort (h : Counts s l) (ht : s.takePort uop_port = some s')
    (hroom : Room s uop_port) : Counts s' (l ++ [uop_port]) := by
  have h05 := h.generic05
  have h015 := h.generic
  have h2 := h.two
  have h3 := h.three
  have hreserved : uop_port ≠ .PORT2 → uop_port ≠ .PORT34 → s.reserved < 3 :=
    fun hne hne' => hroom hne hne' (by rw [ht]; rfl)
  rw [reserved] at hreserved
  rcases takePort_cases ht with ⟨rfl, hlt, rfl⟩ | ⟨rfl, hlt, rfl⟩ | ⟨hp, hfree, rfl⟩ |
    ⟨rfl, hfree, hlt, rfl⟩ | ⟨hp, hfree, hlt, hlt', rfl⟩
  · have hroom := hreserved nofun nofun
    refine ⟨fun p hp hp' => ?_, ?_, ?_, ?_, ?_⟩
    · rw [count_snoc, if_neg (Ne.symm hp')]
      exact h.ports p hp hp'
    all_goals simp only [count_snoc, reduceCtorEq, if_true, if_false]; omega
  · have hroom := hreserved nofun nofun
    refine ⟨fun p hp hp' => ?_, ?_, ?_, ?_, ?_⟩
    · rw [count_snoc, if_neg (Ne.symm hp)]
      exact h.ports p hp hp'
    all_goals simp only [count_snoc, reduceCtorEq, if_true, if_false]; omega
  · refine ⟨fun p hp hp' => count_snoc_le (h.ports p hp hp') hfree, ?_, ?_, ?_, ?_⟩
    all_goals
      rcases hp with rfl | rfl <;>
        simpa only [count_snoc, update_apply, reduceCtorEq, if_false, Nat.add_zero]
  · have hroom := hreserved nofun nofun
    refine ⟨fun p hp hp' => count_snoc_le (h.ports p hp hp') hfree, ?_, ?_, ?_, ?_⟩
    all_goals
      simp only [count_snoc, update_apply, reduceCtorEq, if_true, if_false, hfree,
        Bool.toNat_true, Bool.toNat_false] at h015 ⊢
      omega
  · refine ⟨fun p hp hp' => count_snoc_le (h.ports p hp hp') hfree, ?_, ?_, ?_, ?_⟩
    all_goals
      rcases hp with rfl | rfl <;>
      · have hroom := hreserved nofun nofun
        simp only [count_snoc, update_apply, reduceCtorEq, if_true, if_false, hfree,
          Bool.toNat_true, Bool.toNat_false] at h05 h015 h3 hroom ⊢
        omega

theorem counts_of_cycle {core : CoreModel Reg UopPort UopAlu} {issued : List (DynamicMicroOp Reg)}
    (h : Cycle (model core) (fun s uop => Room s (core.getPort uop)) s issued) :
    Counts s (issued.map core.getPort) := by
  induction h with
  | init s now =>
    refine ⟨fun p _ _ => ?_, ?_, ?_, ?_, ?_⟩ <;>
      simp [model, initCycle]
  | issue uop _ hroom ht ih =>
    rw [List.map_append]
    simp only [model, tryIssue] at ht
    split at ht
    case h_1 => cases ht
    case h_2 hport =>
      obtain ⟨-, rfl⟩ := Prod.mk.inj ht
      exact ih.takePort hport hroom
  | turnDown uop _ hroom ht ih =>
    simp only [model, tryIssue] at ht
    split at ht
    case h_1 =>
      obtain ⟨-, rfl⟩ := Prod.mk.inj ht
      exact ih
    case h_2 hport =>
      obtain ⟨-, rfl⟩ := Prod.mk.inj ht
      exact (ih.takePort hport hroom).fewer
  | doIssue uop _ ih =>
    simp only [model, doIssue]
    split
    · exact ⟨ih.ports, ih.generic05, ih.generic, ih.two, ih.three⟩
    · exact ih

/-- The micro-ops that issue in a cycle fit the ports, where none is let in when the ports 0, 1 and
5 have been taken. -/
theorem issued_realizable (core : CoreModel Reg UopPort UopAlu) (s : RobContentionNehalem)
    (issued : List (DynamicMicroOp Reg))
    (h : Cycle (model core) (fun s uop => Room s (core.getPort uop)) s issued) :
    Realizable core issued :=
  (counts_of_cycle h).few.assignable

end RobContentionNehalem

/-- Latencies tell the class of a micro-op, and no unit is ever busy. -/
def simple : CoreModel Nat UopPort UopAlu where
  getPort uop := if uop.execLatency = 0 then .PORT015 else .PORT05
  getAlu _ := .NONE
  getAluLatency _ := 1

theorem issued_realizable_two : Realizable simple [sample 1, sample 0] := by
  have h : Cycle (RobContentionNehalem.model simple)
    (fun s uop => s.Room (simple.getPort uop)) (fresh.initCycle 0) [] := .init fresh 0
  have h₁ := h.issue (sample 1) (fun _ _ _ => by decide) rfl
  have h₂ := h₁.issue (sample 0) (fun _ _ _ => by decide) rfl
  exact RobContentionNehalem.issued_realizable simple _ _ h₂

/-- Two micro-ops with a choice of three ports and two with a choice of two issue together. -/
theorem issued_four : ∃ s, Cycle (RobContentionNehalem.model simple) (fun _ _ => True) s
    [sample 0, sample 0, sample 1, sample 1] ∧
    ¬ Realizable simple [sample 0, sample 0, sample 1, sample 1] := by
  have h : Cycle (RobContentionNehalem.model simple) (fun _ _ => True) (fresh.initCycle 0) [] :=
    .init fresh 0
  have h₁ := h.issue (sample 0) trivial rfl
  have h₂ := h₁.issue (sample 0) trivial rfl
  have h₃ := h₂.issue (sample 1) trivial rfl
  refine ⟨_, h₃.issue (sample 1) trivial rfl, fun hreal => ?_⟩
  have hle := hreal.length_le [.P0, .P1, .P5] (by decide)
  revert hle
  decide

end Nehalem
end Sniper.Timing.Ports
