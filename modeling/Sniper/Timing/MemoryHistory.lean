import Sniper.Lib.Latest
import Sniper.Timing.Dependencies

/-! # Memory dependencies and the history of micro-ops

The stores that `MemoryDependencies` keeps are the latest ones of the history, and its barrier is
the last barrier that is neither a load nor a store.
-/
namespace Sniper.Timing
open Lib Lib.Simulation

variable {Reg : Type}

namespace DynamicMicroOp
variable {uop uop' : DynamicMicroOp Reg}

theorem addDependency_adds {d} (h : uop.addDependency d = .ok uop') (x : Nat) :
    x ∈ uop'.dependencies ↔ x ∈ uop.dependencies ∨ some d = some x := by
  rw [addDependency] at h
  split at h
  case isTrue hmem =>
    cases h
    refine ⟨.inl, fun hx => hx.elim id fun hx => ?_⟩
    rwa [← Option.some.inj hx]
  case isFalse =>
    split at h
    case isTrue =>
      cases h
      simp [eq_comm]
    case isFalse => cases h

theorem addDependency_total (uop : DynamicMicroOp Reg) (d : Nat)
    (h : uop.dependencies.length < MAXIMUM_NUMBER_OF_DEPENDENCIES) :
    ∃ uop', uop.addDependency d = .ok uop' ∧
      uop'.dependencies.length ≤ uop.dependencies.length + 1 := by
  rw [addDependency]
  by_cases hmem : d ∈ uop.dependencies
  · rw [if_pos hmem]
    exact ⟨uop, rfl, Nat.le_succ _⟩
  · rw [if_neg hmem, if_pos h]
    exact ⟨_, rfl, by simp⟩

end DynamicMicroOp

namespace MemoryDependencies
open DynamicMicroOp

/-- What is done with the memory: a load, a store or a barrier. -/
def Ordered (uop : MicroOp Reg) : Bool := uop.isLoad || uop.isStore || uop.m_membar

/-- The latest earlier store to the address of a micro-op. -/
def latestStore (lowest : Nat) (history : List (DynamicMicroOp Reg)) (uop : DynamicMicroOp Reg) :
    Option Nat :=
  latest (·.sequenceNumber) (fun u => u.m_uop.isStore && decide (u.address = uop.address)) lowest
    history

/-- The latest earlier barrier, of any type. -/
def latestBarrier (lowest : Nat) (history : List (DynamicMicroOp Reg)) : Option Nat :=
  latest (·.sequenceNumber) (·.m_uop.m_membar) lowest history

/-- The dependencies added are those on the latest store to the address of a load and on the latest
barrier, as far as they are still valid. -/
def Exact (history : List (DynamicMicroOp Reg)) (lowest : Nat) (uop uop' : DynamicMicroOp Reg) :
    Prop :=
  ∀ x, x ∈ uop'.dependencies ↔ x ∈ uop.dependencies ∨
    uop.m_uop.isLoad = true ∧ latestStore lowest history uop = some x ∨
    Ordered uop.m_uop = true ∧ latestBarrier lowest history = some x

/-- The micro-ops given to `setDependencies`, the newest first, with the last bound; `allowed` is
asked of every one. -/
inductive Fed (allowed : List (DynamicMicroOp Reg) → Nat → DynamicMicroOp Reg → Prop) :
    MemoryDependencies → List (DynamicMicroOp Reg) → Nat → Prop
  | clear : Fed allowed ⟨[], none⟩ [] 0
  | set {deps deps' : MemoryDependencies} {history : List (DynamicMicroOp Reg)}
      {low lowest : Nat} {uop uop' : DynamicMicroOp Reg} (h : Fed allowed deps history low)
      (hnew : ∀ u ∈ history, u.sequenceNumber < uop.sequenceNumber) (hlow : low ≤ lowest)
      (hallowed : allowed history lowest uop)
      (hcall : deps.setDependencies uop lowest = .ok (deps', uop')) :
      Fed allowed deps' (uop :: history) lowest

/-- No load or store is a barrier itself, and no micro-op comes when the barrier it has to wait
for is the oldest micro-op that is still valid. -/
def Regular (history : List (DynamicMicroOp Reg)) (lowest : Nat) (uop : DynamicMicroOp Reg) :
    Prop :=
  (uop.m_uop.m_membar = true → uop.m_uop.isLoad = false ∧ uop.m_uop.isStore = false) ∧
  (Ordered uop.m_uop = true → latestBarrier lowest history ≠ some lowest)

/-! ### One call -/

section
variable {deps deps' : MemoryDependencies} {uop uop' : DynamicMicroOp Reg} {lowest : Nat}

theorem onMembar_adds (h : deps.onMembar lowest uop = .ok uop') (x : Nat) :
    x ∈ uop'.dependencies ↔
      x ∈ uop.dependencies ∨ deps.membar.filter (fun b => decide (lowest < b)) = some x := by
  rw [onMembar] at h
  cases hb : deps.membar with
  | none =>
    rw [hb] at h
    cases h
    simp
  | some b =>
    rw [hb] at h
    dsimp only at h
    split at h
    case isTrue hlt =>
      rw [addDependency_adds h, Option.filter_some_pos (by simpa using hlt)]
    case isFalse hle =>
      cases h
      rw [Option.filter_some_neg (by simpa using hle)]
      simp

theorem onStore_adds (h : deps.onStore uop = .ok uop') (x : Nat) :
    x ∈ uop'.dependencies ↔ x ∈ uop.dependencies ∨ deps.find uop.address = some x := by
  rw [onStore] at h
  cases hf : deps.find uop.address with
  | none =>
    rw [hf] at h
    cases h
    simp
  | some p =>
    rw [hf] at h
    exact addDependency_adds h x

theorem setDependencies_producers (h : deps.setDependencies uop lowest = .ok (deps', uop')) :
    deps'.producers = (deps.clean lowest).producers ++
      if uop.m_uop.isStore then [(uop.sequenceNumber, uop.address)] else [] := by
  rw [setDependencies] at h
  split at h
  case isTrue hload =>
    obtain ⟨uop₁, -, h⟩ := of_bind_ok h
    obtain ⟨uop₂, -, h⟩ := of_bind_ok h
    cases h
    have hstore : uop.m_uop.isStore = false := by
      have hload : uop.m_uop.uop_type = .load := by simpa [MicroOp.isLoad] using hload
      simp [MicroOp.isStore, hload]
    simp [hstore]
  case isFalse =>
    split at h
    case isTrue hstore =>
      obtain ⟨deps₁, hadd, h⟩ := of_bind_ok h
      obtain ⟨uop₁, -, h⟩ := of_bind_ok h
      cases h
      rw [if_pos hstore]
      rw [add] at hadd
      split at hadd
      · cases hadd
        rfl
      · cases hadd
    case isFalse hstore =>
      rw [if_neg hstore, List.append_nil]
      split at h
      · obtain ⟨uop₁, -, h⟩ := of_bind_ok h
        cases h
        rfl
      · cases h
        rfl

theorem setDependencies_adds (h : deps.setDependencies uop lowest = .ok (deps', uop')) (x : Nat) :
    x ∈ uop'.dependencies ↔ x ∈ uop.dependencies ∨
      uop.m_uop.isLoad = true ∧ (deps.clean lowest).find uop.address = some x ∨
      Ordered uop.m_uop = true ∧
        deps.membar.filter (fun b => decide (lowest < b)) = some x := by
  rw [setDependencies] at h
  split at h
  case isTrue hload =>
    obtain ⟨uop₁, hfind, h⟩ := of_bind_ok h
    obtain ⟨uop₂, hmembar, h⟩ := of_bind_ok h
    cases h
    rw [onMembar_adds hmembar, onStore_adds hfind, or_assoc]
    simp [Ordered, hload, clean]
  case isFalse hload =>
    split at h
    case isTrue hstore =>
      obtain ⟨deps₁, hadd, h⟩ := of_bind_ok h
      obtain ⟨uop₁, hmembar, h⟩ := of_bind_ok h
      cases h
      have hdeps : deps'.membar = deps.membar := by
        rw [add] at hadd
        split at hadd
        · cases hadd
          rfl
        · cases hadd
      rw [onMembar_adds hmembar, hdeps]
      simp [Ordered, hload, hstore]
    case isFalse hstore =>
      split at h
      case isTrue hbarrier =>
        obtain ⟨uop₁, hmembar, h⟩ := of_bind_ok h
        cases h
        rw [onMembar_adds hmembar]
        simp [Ordered, hload, hstore, hbarrier, clean]
      case isFalse hbarrier =>
        cases h
        simp [Ordered, hload, hstore, hbarrier]

end
/-! ### Any number of calls -/

/-- The stores of a history that are still valid, the newest first. -/
def kept (low : Nat) (history : List (DynamicMicroOp Reg)) : List (Nat × Nat) :=
  (history.filter fun u => u.m_uop.isStore && decide (low ≤ u.sequenceNumber)).map fun u =>
    (u.sequenceNumber, u.address)

/-- What is kept of a history; the newest store is kept even where it is not valid. -/
structure Records (deps : MemoryDependencies) (history : List (DynamicMicroOp Reg)) (low : Nat) :
    Prop where
  numbered : Numbered (·.sequenceNumber) history
  sorted : deps.producers.Pairwise fun a b => a.1 < b.1
  producers : ∀ n, low ≤ n →
    deps.producers.filter (fun a => decide (n ≤ a.1)) = (kept n history).reverse
  membar : deps.membar = latestBarrier 0 history

section
variable {deps deps' : MemoryDependencies} {uop uop' : DynamicMicroOp Reg} {low lowest : Nat}
  {history : List (DynamicMicroOp Reg)}

theorem kept_sorted (h : Numbered (·.sequenceNumber) history) (n : Nat) :
    (kept n history).reverse.Pairwise fun a b => a.1 < b.1 := by
  rw [List.pairwise_reverse, kept, List.pairwise_map]
  exact List.Pairwise.sublist List.filter_sublist h

theorem kept_raise (hle : low ≤ lowest) :
    (kept low history).filter (fun a => decide (lowest ≤ a.1)) = kept lowest history := by
  rw [kept, List.filter_map, List.filter_filter, kept]
  congr 1
  refine List.filter_congr fun u _ => ?_
  by_cases h : lowest ≤ u.sequenceNumber
  · simp [h, Nat.le_trans hle h]
  · simp [h]

theorem kept_cons (n : Nat) : kept n (uop :: history) =
    (if uop.m_uop.isStore = true ∧ n ≤ uop.sequenceNumber then
      [(uop.sequenceNumber, uop.address)] else []) ++ kept n history := by
  rw [kept, List.filter_cons, kept]
  by_cases h : uop.m_uop.isStore = true ∧ n ≤ uop.sequenceNumber
  · rw [if_pos h, if_pos (by simpa using h)]
    rfl
  · rw [if_neg h, if_neg (by simpa using h)]
    rfl

theorem Records.clean (h : Records deps history low) (hle : low ≤ lowest) :
    (deps.clean lowest).producers = (kept lowest history).reverse := by
  rw [MemoryDependencies.clean, dropWhile_lt h.sorted, h.producers lowest hle]

theorem Records.find (h : Records deps history low) (hle : low ≤ lowest) :
    (deps.clean lowest).find uop.address = latestStore lowest history uop := by
  rw [MemoryDependencies.find, h.clean hle, List.reverse_reverse, kept, List.find?_map,
    List.find?_filter, Option.map_map, latestStore, latest]
  have hsame (u : DynamicMicroOp Reg) :
      decide ((u.m_uop.isStore && decide (lowest ≤ u.sequenceNumber)) = true ∧
        decide (u.address = uop.address) = true) =
      (u.m_uop.isStore && decide (u.address = uop.address) &&
        decide (lowest ≤ u.sequenceNumber)) := by
    cases u.m_uop.isStore <;> simp [and_comm, Bool.decide_and]
  exact congrArg (fun f => (history.find? f).map (·.sequenceNumber)) (funext hsame)

/-- The last barrier, as far as it is valid, where it is not the oldest valid micro-op. -/
theorem Records.barrier (h : Records deps history low)
    (hne : latestBarrier lowest history ≠ some lowest) :
    deps.membar.filter (fun b => decide (lowest < b)) = latestBarrier lowest history := by
  have hraise : latestBarrier lowest history =
      (latestBarrier 0 history).filter fun n => decide (lowest ≤ n) :=
    latest_raise h.numbered (Nat.zero_le lowest)
  rw [hraise] at hne
  rw [h.membar, hraise]
  cases hb : latestBarrier 0 history with
  | none => rfl
  | some b =>
    rw [hb] at hne
    by_cases hlt : lowest < b
    · rw [Option.filter_some_pos (by simpa using hlt),
        Option.filter_some_pos (by simpa using Nat.le_of_lt hlt)]
    · have hb : b ≠ lowest := by
        rintro rfl
        exact hne (Option.filter_some_pos (by simp))
      rw [Option.filter_some_neg (by simpa using hlt),
        Option.filter_some_neg (by simp; omega)]

theorem Records.step (h : Records deps history low)
    (hnew : ∀ u ∈ history, u.sequenceNumber < uop.sequenceNumber) (hle : low ≤ lowest)
    (hregular : Regular history lowest uop)
    (hcall : deps.setDependencies uop lowest = .ok (deps', uop')) :
    Records deps' (uop :: history) lowest := by
  have hproducers := setDependencies_producers hcall
  rw [h.clean hle] at hproducers
  refine ⟨List.pairwise_cons.mpr ⟨hnew, h.numbered⟩, ?_, fun n hn => ?_, ?_⟩
  · rw [hproducers, List.pairwise_append]
    refine ⟨kept_sorted h.numbered lowest, ?_, ?_⟩
    · split
      · exact List.pairwise_singleton _ _
      · exact .nil
    · intro a ha b hb
      split at hb
      · obtain rfl := List.mem_singleton.mp hb
        rw [List.mem_reverse, kept, List.mem_map] at ha
        obtain ⟨u, hu, rfl⟩ := ha
        exact hnew u (List.mem_filter.mp hu).1
      · cases hb
  · rw [hproducers, List.filter_append, List.filter_reverse, kept_raise hn, kept_cons,
      List.reverse_append]
    congr 1
    by_cases hstore : uop.m_uop.isStore = true
    · by_cases hseq : n ≤ uop.sequenceNumber <;> simp [hstore, hseq]
    · simp [hstore]
  · have hcons : latestBarrier 0 (uop :: history) =
        if uop.m_uop.m_membar = true then some uop.sequenceNumber else latestBarrier 0 history := by
      rw [latestBarrier, latest_cons]
      simp [latestBarrier]
    rw [(setDependencies_ok hcall).2.2, h.membar, hcons]
    cases hbarrier : uop.m_uop.m_membar with
    | false => simp
    | true =>
      obtain ⟨hload, hstore⟩ := hregular.1 hbarrier
      simp [hload, hstore]

theorem records_of_fed (h : Fed Regular deps history low) : Records deps history low := by
  induction h with
  | clear => exact ⟨.nil, .nil, fun _ _ => rfl, rfl⟩
  | set _ hnew hlow hallowed hcall ih => exact ih.step hnew hlow hallowed hcall

theorem setDependencies_total (h : Records deps history low) (hle : low ≤ lowest)
    (hstores : (kept lowest history).length < 1024)
    (hroom : uop.dependencies.length + 2 ≤ MAXIMUM_NUMBER_OF_DEPENDENCIES) :
    ∃ r, deps.setDependencies uop lowest = .ok r := by
  have hmembar : ∀ (d : MemoryDependencies) (u : DynamicMicroOp Reg),
      u.dependencies.length + 1 ≤ MAXIMUM_NUMBER_OF_DEPENDENCIES →
      ∃ u', d.onMembar lowest u = .ok u' := by
    intro d u hu
    rw [onMembar]
    split
    · exact ⟨u, rfl⟩
    · split
      · obtain ⟨u', hadd, -⟩ := addDependency_total u _ hu
        exact ⟨u', hadd⟩
      · exact ⟨u, rfl⟩
  rw [setDependencies]
  split
  case isTrue =>
    have hstore : ∃ u, (deps.clean lowest).onStore uop = .ok u ∧
        u.dependencies.length ≤ uop.dependencies.length + 1 := by
      rw [onStore]
      split
      · exact addDependency_total uop _ (by omega)
      · exact ⟨uop, rfl, Nat.le_succ _⟩
    obtain ⟨u, hu, hlen⟩ := hstore
    refine exists_bind_ok hu ?_
    obtain ⟨u', hu'⟩ := hmembar (deps.clean lowest) u (by omega)
    exact exists_bind_ok hu' ⟨_, rfl⟩
  case isFalse =>
    split
    case isTrue =>
      have hadd : ∃ d, (deps.clean lowest).add uop.sequenceNumber uop.address = .ok d := by
        rw [add, h.clean hle, List.length_reverse, if_pos hstores]
        exact ⟨_, rfl⟩
      obtain ⟨d, hd⟩ := hadd
      refine exists_bind_ok hd ?_
      obtain ⟨u', hu'⟩ := hmembar d uop (by omega)
      exact exists_bind_ok hu' ⟨_, rfl⟩
    case isFalse =>
      split
      · obtain ⟨u', hu'⟩ := hmembar (deps.clean lowest) uop (by omega)
        exact exists_bind_ok hu' ⟨_, rfl⟩
      · exact ⟨_, rfl⟩

/-- Fed with micro-ops that are all regular, the memory dependencies are exact, and the call
returns where there is room for them. -/
theorem memory_exact (deps : MemoryDependencies) (history : List (DynamicMicroOp Reg))
    (low lowest : Nat) (uop : DynamicMicroOp Reg) (h : Fed Regular deps history low)
    (hlow : low ≤ lowest) (hregular : Regular history lowest uop)
    (hstores : (kept lowest history).length < 1024) :
    (∀ deps' uop', deps.setDependencies uop lowest = .ok (deps', uop') →
      Exact history lowest uop uop') ∧
    (uop.dependencies.length + 2 ≤ MAXIMUM_NUMBER_OF_DEPENDENCIES →
      ∃ r, deps.setDependencies uop lowest = .ok r) := by
  have hrec := records_of_fed h
  refine ⟨fun deps' uop' hcall x => ?_, setDependencies_total hrec hlow hstores⟩
  rw [setDependencies_adds hcall, hrec.find hlow]
  by_cases hordered : Ordered uop.m_uop = true
  · rw [hrec.barrier (hregular.2 hordered)]
  · simp [hordered]

end

/-! ### The oldest barrier -/

/-- A micro-op without registers and dependencies. -/
def plain (uop_type : UopType) (membar : Bool) (sequenceNumber address : Nat) :
    DynamicMicroOp Nat :=
  { DynamicMicroOp.hit ⟨uop_type, [], [], [], false, false, membar⟩ address 1 with sequenceNumber }

/-- A store and then a load of its address. -/
theorem memory_exact_store :
    (∀ deps' uop', setDependencies ⟨[(0, 64)], none⟩ (plain .load false 1 64) 0 =
        .ok (deps', uop') → Exact [plain .store false 0 64] 0 (plain .load false 1 64) uop') ∧
    (0 + 2 ≤ MAXIMUM_NUMBER_OF_DEPENDENCIES →
      ∃ r, setDependencies ⟨[(0, 64)], none⟩ (plain .load false 1 64) 0 = .ok r) :=
  memory_exact ⟨[(0, 64)], none⟩ [plain .store false 0 64] 0 0 (plain .load false 1 64)
    (.set .clear (by decide) (Nat.le_refl 0) ⟨nofun, fun _ => nofun⟩ rfl) (Nat.le_refl 0)
    ⟨nofun, fun _ => nofun⟩ (by decide)

/-- The barrier is the oldest micro-op when the load comes, which does not wait for it. -/
theorem memory_misses_barrier :
    Fed (fun _ _ _ => True) ⟨[], some 0⟩ [plain .execute true 0 0] 0 ∧
    setDependencies ⟨[], some 0⟩ (plain .load false 1 64) 0 =
      .ok (⟨[], some 0⟩, plain .load false 1 64) ∧
    ¬ Exact [plain .execute true 0 0] 0 (plain .load false 1 64) (plain .load false 1 64) := by
  refine ⟨.set .clear (by decide) (Nat.le_refl 0) trivial rfl, rfl, fun h => ?_⟩
  have hmem := (h 0).mpr (.inr (.inr ⟨rfl, rfl⟩))
  cases hmem

end MemoryDependencies
end Sniper.Timing
