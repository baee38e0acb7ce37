import Sniper.Timing.MemoryHistory

/-! # Register dependencies and the history of micro-ops

Of every register, `RegisterDependencies` knows the latest micro-op that writes it, as long as
that one is valid.
-/
namespace Sniper.Timing
open Lib Lib.Simulation Function

variable {Reg : Type} [DecidableEq Reg]

namespace RegisterDependencies
open DynamicMicroOp

/-- The latest earlier micro-op that lists a register as a destination. -/
def latestWriter (lowest : Nat) (history : List (DynamicMicroOp Reg)) (reg : Reg) : Option Nat :=
  latest (·.sequenceNumber) (fun u => decide (reg ∈ u.m_uop.destinationRegisters)) lowest history

/-- The dependencies added are those on the latest writers of the source registers that are still
valid. -/
def Exact (history : List (DynamicMicroOp Reg)) (lowest : Nat) (uop uop' : DynamicMicroOp Reg) :
    Prop :=
  ∀ x, x ∈ uop'.dependencies ↔ x ∈ uop.dependencies ∨
    ∃ r ∈ uop.m_uop.sourceRegisters, latestWriter lowest history r = some x

/-- What the registers are given: micro-ops, and questions about a producer. -/
inductive Fed (decoder : Decoder Reg)
    (allowed : RegisterDependencies Reg → Nat → DynamicMicroOp Reg → Prop) :
    RegisterDependencies Reg → List (DynamicMicroOp Reg) → Nat → Prop
  | clear : Fed decoder allowed (fun _ => none) [] 0
  | set {producers producers' : RegisterDependencies Reg} {history : List (DynamicMicroOp Reg)}
      {low lowest : Nat} {uop uop' : DynamicMicroOp Reg}
      (h : Fed decoder allowed producers history low)
      (hnew : ∀ u ∈ history, u.sequenceNumber < uop.sequenceNumber) (hlow : low ≤ lowest)
      (hallowed : allowed producers lowest uop)
      (hcall : setDependencies decoder producers uop lowest = .ok (producers', uop')) :
      Fed decoder allowed producers' (uop :: history) lowest
  | peek {producers : RegisterDependencies Reg} {history : List (DynamicMicroOp Reg)}
      {low lowest : Nat} (h : Fed decoder allowed producers history low) (hlow : low ≤ lowest) :
      Fed decoder allowed producers history lowest

/-- Where the producer of a source register has expired, so has any producer of the register it
is mapped to. -/
def Harmless (decoder : Decoder Reg) (producers : RegisterDependencies Reg) (lowest : Nat)
    (regs : List Reg) : Prop :=
  ∀ r ∈ regs, ∀ p, producers r = some p → p < lowest →
    ∀ q, producers (decoder.map_register r) = some q → q < lowest

/-! ### One call -/

section
variable {decoder : Decoder Reg} {producers producers' : RegisterDependencies Reg}
  {uop uop' : DynamicMicroOp Reg} {lowest : Nat} {regs : List Reg}

/-- The producer of a register, as far as it is valid. -/
def validProducer (producers : RegisterDependencies Reg) (lowest : Nat) (r : Reg) : Option Nat :=
  (producers r).filter fun p => decide (lowest ≤ p)

theorem validProducer_clear {reg} (h : ∀ q, producers reg = some q → q < lowest) (r : Reg) :
    validProducer (update producers reg none) lowest r =
      validProducer producers lowest r := by
  rw [validProducer, validProducer]
  by_cases hr : r = reg
  · subst hr
    rw [update_self]
    cases hp : producers r with
    | none => rfl
    | some q => exact (Option.filter_some_neg (by simpa using h q hp)).symm
  · rw [update_of_ne hr]

theorem harmless_clear (h : Harmless decoder producers lowest regs) (reg : Reg) :
    Harmless decoder (update producers reg none) lowest regs := by
  have hold : ∀ r p, update producers reg none r = some p → producers r = some p := by
    intro r p hp
    by_cases hr : r = reg
    · rw [hr, update_self] at hp
      cases hp
    · rwa [update_of_ne hr] at hp
  exact fun r hr p hp hlt q hq => h r hr p (hold r p hp) hlt q (hold _ q hq)

theorem readSources_exact (hharmless : Harmless decoder producers lowest regs)
    (h : readSources decoder lowest regs producers uop = .ok (producers', uop')) :
    (∀ x, x ∈ uop'.dependencies ↔ x ∈ uop.dependencies ∨
      ∃ r ∈ regs, validProducer producers lowest r = some x) ∧
    ∀ r, validProducer producers' lowest r = validProducer producers lowest r := by
  induction regs generalizing producers uop with
  | nil =>
    cases h
    simp
  | cons reg regs ih =>
    have htail : Harmless decoder producers lowest regs :=
      fun r hr => hharmless r (List.mem_cons_of_mem _ hr)
    rw [readSources.eq_def] at h
    dsimp only at h
    split at h
    case isTrue => cases h
    case isFalse =>
      split at h
      case h_1 hnone =>
        have hvalid : validProducer producers lowest reg = none := by
          rw [validProducer, hnone]
          rfl
        obtain ⟨hdeps, hkept⟩ := ih htail h
        refine ⟨fun x => ?_, hkept⟩
        simp only [hdeps x, List.mem_cons, exists_eq_or_imp, hvalid]
        simp
      case h_2 producer hsome =>
        split at h
        case isTrue hle =>
          obtain ⟨uop₁, hadd, h⟩ := of_bind_ok h
          have hvalid : validProducer producers lowest reg = some producer := by
            rw [validProducer, hsome]
            exact Option.filter_some_pos (by simpa using hle)
          obtain ⟨hdeps, hkept⟩ := ih htail h
          refine ⟨fun x => ?_, hkept⟩
          simp only [hdeps x, addDependency_adds hadd, List.mem_cons, exists_eq_or_imp, hvalid,
            or_assoc]
        case isFalse hlt =>
          have hlt : producer < lowest := Nat.lt_of_not_le hlt
          have hvalid : validProducer producers lowest reg = none := by
            rw [validProducer, hsome]
            exact Option.filter_some_neg (by simpa using hlt)
          -- nothing valid is cleared
          have hclear := validProducer_clear
            (hharmless reg (List.mem_cons_self ..) producer hsome hlt)
          obtain ⟨hdeps, hkept⟩ := ih (harmless_clear htail _) h
          refine ⟨fun x => ?_, fun r => (hkept r).trans (hclear r)⟩
          simp only [hdeps x, List.mem_cons, exists_eq_or_imp, hvalid]
          simp only [hclear]
          simp

theorem writeDestinations_eq {sequenceNumber}
    (h : writeDestinations decoder sequenceNumber regs producers = .ok producers') (r : Reg) :
    producers' r = if r ∈ regs then some sequenceNumber else producers r := by
  induction regs generalizing producers with
  | nil =>
    cases h
    simp
  | cons reg regs ih =>
    rw [writeDestinations] at h
    split at h
    case isTrue => cases h
    case isFalse =>
      rw [ih h]
      by_cases hr : r ∈ regs
      · simp [hr]
      · by_cases heq : r = reg
        · simp [heq]
        · simp [hr, heq]

/-! ### Any number of calls -/

variable {history : List (DynamicMicroOp Reg)} {low : Nat}

/-- What is known of a history. -/
structure Records (producers : RegisterDependencies Reg) (history : List (DynamicMicroOp Reg))
    (low : Nat) : Prop where
  numbered : Numbered (·.sequenceNumber) history
  writers : ∀ n, low ≤ n → ∀ r, validProducer producers n r = latestWriter n history r

omit [DecidableEq Reg] in
theorem validProducer_raise (producers : RegisterDependencies Reg) {n : Nat} (hle : lowest ≤ n)
    (r : Reg) :
    validProducer producers n r =
      (validProducer producers lowest r).filter fun p => decide (n ≤ p) := by
  rw [validProducer, validProducer, Option.filter_filter]
  congr 1
  funext p
  by_cases hp : n ≤ p
  · simp [hp, Nat.le_trans hle hp]
  · simp [hp]

theorem Records.exact (h : Records producers history low) (hle : low ≤ lowest)
    (hharmless : Harmless decoder producers lowest uop.m_uop.sourceRegisters)
    (hcall : setDependencies decoder producers uop lowest = .ok (producers', uop')) :
    Exact history lowest uop uop' := by
  obtain ⟨⟨producers₁, uop₁⟩, hread, hcall⟩ := of_bind_ok hcall
  obtain ⟨producers₂, -, hcall⟩ := of_bind_ok hcall
  cases hcall
  intro x
  rw [(readSources_exact hharmless hread).1 x]
  simp only [h.writers lowest hle]

theorem Records.step (h : Records producers history low)
    (hnew : ∀ u ∈ history, u.sequenceNumber < uop.sequenceNumber) (hle : low ≤ lowest)
    (hharmless : Harmless decoder producers lowest uop.m_uop.sourceRegisters)
    (hcall : setDependencies decoder producers uop lowest = .ok (producers', uop')) :
    Records producers' (uop :: history) lowest := by
  obtain ⟨⟨producers₁, uop₁⟩, hread, hcall⟩ := of_bind_ok hcall
  obtain ⟨producers₂, hwrite, hcall⟩ := of_bind_ok hcall
  cases hcall
  obtain ⟨-, hkept⟩ := readSources_exact hharmless hread
  have hsame := (readSources_grows hread).same
  rw [hsame.m_uop, hsame.sequenceNumber] at hwrite
  refine ⟨List.pairwise_cons.mpr ⟨hnew, h.numbered⟩, fun n hn r => ?_⟩
  rw [validProducer, writeDestinations_eq hwrite, latestWriter, latest_cons]
  by_cases hr : r ∈ uop.m_uop.destinationRegisters
  · rw [if_pos hr]
    by_cases hseq : n ≤ uop.sequenceNumber
    · rw [if_pos ⟨by simpa using hr, hseq⟩]
      exact Option.filter_some_pos (by simpa using hseq)
    · rw [if_neg fun h => hseq h.2]
      -- all earlier writers have expired as well
      cases hlatest : latest (·.sequenceNumber)
          (fun u => decide (r ∈ u.m_uop.destinationRegisters)) n history with
      | none => exact Option.filter_some_neg (by simpa using hseq)
      | some m =>
        obtain ⟨u, hu, rfl⟩ := latest_mem hlatest
        have := latest_le hlatest
        have := hnew u hu
        omega
  · rw [if_neg hr, if_neg fun h => hr (by simpa using h.1)]
    have hraise := validProducer_raise producers₁ hn r
    rw [validProducer] at hraise
    rw [hraise, hkept r, ← validProducer_raise producers hn r, h.writers n (Nat.le_trans hle hn)]
    rfl

theorem records_of_fed
    (h : Fed decoder (fun producers lowest uop =>
      Harmless decoder producers lowest uop.m_uop.sourceRegisters) producers history low) :
    Records producers history low := by
  induction h with
  | clear => exact ⟨.nil, fun _ _ _ => rfl⟩
  | set _ hnew hlow hallowed hcall ih => exact ih.step hnew hlow hallowed hcall
  | peek _ hlow ih => exact ⟨ih.numbered, fun n hn => ih.writers n (Nat.le_trans hlow hn)⟩

theorem readSources_total (producers : RegisterDependencies Reg) (lowest : Nat)
    (hvalid : ∀ r ∈ regs, decoder.valid r = true)
    (hroom : uop.dependencies.length + regs.length ≤ MAXIMUM_NUMBER_OF_DEPENDENCIES) :
    ∃ x, readSources decoder lowest regs producers uop = .ok x := by
  induction regs generalizing producers uop with
  | nil => exact ⟨_, rfl⟩
  | cons reg regs ih =>
    have htail : ∀ r ∈ regs, decoder.valid r = true :=
      fun r hr => hvalid r (List.mem_cons_of_mem _ hr)
    rw [List.length_cons] at hroom
    rw [readSources.eq_def]
    dsimp only
    rw [if_neg (by simp [hvalid reg (List.mem_cons_self ..)])]
    split
    case h_1 => exact ih producers htail (by omega)
    case h_2 producer _ =>
      split
      case isTrue =>
        obtain ⟨uop₁, hadd, hlen⟩ := addDependency_total uop producer (by omega)
        exact exists_bind_ok hadd (ih producers htail (by omega))
      case isFalse => exact ih _ htail (by omega)

theorem writeDestinations_total (producers : RegisterDependencies Reg) (sequenceNumber : Nat)
    (hvalid : ∀ r ∈ regs, decoder.valid r = true) :
    ∃ x, writeDestinations decoder sequenceNumber regs producers = .ok x := by
  induction regs generalizing producers with
  | nil => exact ⟨_, rfl⟩
  | cons reg regs ih =>
    rw [writeDestinations, if_neg (by simp [hvalid reg (List.mem_cons_self ..)])]
    exact ih _ fun r hr => hvalid r (List.mem_cons_of_mem _ hr)

/-- Fed with micro-ops that clear no valid producer, the register dependencies are exact, also for
a question about a producer. -/
theorem register_exact (decoder : Decoder Reg) (producers : RegisterDependencies Reg)
    (history : List (DynamicMicroOp Reg)) (low lowest : Nat) (uop : DynamicMicroOp Reg)
    (h : Fed decoder (fun producers lowest uop =>
      Harmless decoder producers lowest uop.m_uop.sourceRegisters) producers history low)
    (hlow : low ≤ lowest)
    (hharmless : Harmless decoder producers lowest uop.m_uop.sourceRegisters) :
    (∀ producers' uop', setDependencies decoder producers uop lowest = .ok (producers', uop') →
      Exact history lowest uop uop') ∧
    (∀ reg, reg ≠ decoder.DL_REG_INVALID →
      producers.peekProducer decoder reg lowest = latestWriter lowest history reg) ∧
    ((∀ r ∈ uop.m_uop.sourceRegisters ++ uop.m_uop.destinationRegisters,
        decoder.valid r = true) →
      uop.dependencies.length + uop.m_uop.sourceRegisters.length ≤
        MAXIMUM_NUMBER_OF_DEPENDENCIES →
      ∃ x, setDependencies decoder producers uop lowest = .ok x) := by
  have hrec := records_of_fed h
  refine ⟨fun producers' uop' => hrec.exact hlow hharmless, fun reg hreg => ?_,
    fun hvalid hroom => ?_⟩
  · rw [peekProducer, if_neg hreg]
    exact hrec.writers lowest hlow reg
  · obtain ⟨⟨producers₁, uop₁⟩, hread⟩ := readSources_total producers lowest
      (fun r hr => hvalid r (List.mem_append_left _ hr)) hroom
    have hsame := (readSources_grows hread).same
    refine exists_bind_ok hread ?_
    obtain ⟨producers₂, hwrite⟩ := writeDestinations_total producers₁ uop.sequenceNumber
      (fun r hr => hvalid r (List.mem_append_right _ hr))
    rw [← hsame.m_uop, ← hsame.sequenceNumber] at hwrite
    exact exists_bind_ok hwrite ⟨_, rfl⟩

end

/-! ### Registers that are mapped -/

/-- A micro-op that reads and writes registers. -/
def registerOp (sources destinations : List Nat) (sequenceNumber : Nat) : DynamicMicroOp Nat :=
  { MemoryDependencies.plain .execute false sequenceNumber 0 with
    m_uop := ⟨.execute, sources, [], destinations, false, false, false⟩ }

/-- Register 1 is part of register 2. -/
def halves : Decoder Nat := ⟨fun r => if r = 1 then 2 else r, fun r => decide (r < 280), 0⟩

/-- After a micro-op that writes register 2. -/
def wroteTwo : RegisterDependencies Nat := update (fun _ => none) 2 (some 0)

theorem register_exact_write :
    (∀ producers' uop', setDependencies halves wroteTwo (registerOp [2] [] 1) 0 =
        .ok (producers', uop') →
      Exact [registerOp [] [2] 0] 0 (registerOp [2] [] 1) uop') ∧
    (∀ reg, reg ≠ 0 →
      wroteTwo.peekProducer halves reg 0 = latestWriter 0 [registerOp [] [2] 0] reg) ∧
    ((∀ r ∈ [2], halves.valid r = true) → 0 + 1 ≤ MAXIMUM_NUMBER_OF_DEPENDENCIES →
      ∃ x, setDependencies halves wroteTwo (registerOp [2] [] 1) 0 = .ok x) :=
  register_exact halves wroteTwo [registerOp [] [2] 0] 0 0 (registerOp [2] [] 1)
    (.set .clear (by decide) (Nat.le_refl 0) nofun rfl) (Nat.le_refl 0)
    fun _ _ _ _ hlt => absurd hlt (Nat.not_lt_zero _)

/-- The expired producer of register 1 is read, and the valid one of register 2 is lost. -/
theorem register_loses_producer :
    ∃ producers, Fed halves (fun _ _ _ => True) producers
        [registerOp [1] [] 2, registerOp [] [2] 1, registerOp [] [1] 0] 1 ∧
      setDependencies halves producers (registerOp [2] [] 3) 1 =
        .ok (producers, registerOp [2] [] 3) ∧
      ¬ Exact [registerOp [1] [] 2, registerOp [] [2] 1, registerOp [] [1] 0] 1
        (registerOp [2] [] 3) (registerOp [2] [] 3) := by
  have h₀ : Fed halves (fun _ _ _ => True) _ [registerOp [] [1] 0] 0 :=
    .set .clear (by decide) (Nat.le_refl 0) trivial rfl
  have h₁ : Fed halves (fun _ _ _ => True) _ [registerOp [] [2] 1, registerOp [] [1] 0] 0 :=
    h₀.set (by decide) (Nat.le_refl 0) trivial rfl
  have h₂ : Fed halves (fun _ _ _ => True) _
      [registerOp [1] [] 2, registerOp [] [2] 1, registerOp [] [1] 0] 1 :=
    h₁.set (by decide) (Nat.zero_le 1) trivial rfl
  refine ⟨_, h₂, rfl, fun h => ?_⟩
  have hmem := (h 1).mpr (.inr ⟨2, List.mem_singleton_self 2, rfl⟩)
  cases hmem

end RegisterDependencies
end Sniper.Timing
