import Sniper.Lib.Simulation
import Sniper.Timing.MicroOp

/-! # What the dependency lists hold

Adding a dependency adds it at most once among the regular ones, and removing one removes one
occurrence of it. The register dependencies of a store contain the producers of its address.
-/
namespace Sniper.Timing
open Lib.Simulation

variable {Reg : Type}

namespace DynamicMicroOp
variable {uop uop' uop'' : DynamicMicroOp Reg}

/-- Only the dependencies differ. -/
structure Same (uop uop' : DynamicMicroOp Reg) : Prop where
  m_uop : uop'.m_uop = uop.m_uop
  sequenceNumber : uop'.sequenceNumber = uop.sequenceNumber

theorem Same.refl (uop : DynamicMicroOp Reg) : Same uop uop := ⟨rfl, rfl⟩

theorem Same.trans (h : Same uop uop') (h' : Same uop' uop'') : Same uop uop'' :=
  ⟨h'.m_uop.trans h.m_uop, h'.sequenceNumber.trans h.sequenceNumber⟩

/-- The dependencies grow. -/
structure Grows (uop uop' : DynamicMicroOp Reg) : Prop where
  same : Same uop uop'
  keeps : ∀ d ∈ uop.getDependencies, d ∈ uop'.getDependencies

theorem Grows.refl (uop : DynamicMicroOp Reg) : Grows uop uop := ⟨.refl uop, fun _ h => h⟩

theorem Grows.trans (h : Grows uop uop') (h' : Grows uop' uop'') : Grows uop uop'' :=
  ⟨h.same.trans h'.same, fun d hd => h'.keeps d (h.keeps d hd)⟩

/-! ### Adding -/

theorem intraDependencies_congr (uop uop' : DynamicMicroOp Reg)
    (hseq : uop'.sequenceNumber = uop.sequenceNumber)
    (hoff : uop'.microOpTypeOffset = uop.microOpTypeOffset) (n : Nat) :
    uop'.intraDependencies n = uop.intraDependencies n := by
  induction n with
  | zero => rfl
  | succ n ih => simp only [intraDependencies, intraDependency, hseq, hoff, ih]

theorem addDependency_ok {d} (h : uop.addDependency d = .ok uop') :
    Grows uop uop' ∧ d ∈ uop'.getDependencies := by
  rw [addDependency] at h
  split at h
  case isTrue hmem =>
    cases h
    exact ⟨.refl uop, List.mem_append_right _ hmem⟩
  case isFalse =>
    split at h
    case isTrue =>
      cases h
      have hintra := intraDependencies_congr uop
        { uop with dependencies := uop.dependencies ++ [d] } rfl rfl
      refine ⟨⟨⟨rfl, rfl⟩, fun x hx => ?_⟩, ?_⟩
      · rw [getDependencies] at hx ⊢
        rw [hintra]
        rcases List.mem_append.mp hx with hx | hx
        · exact List.mem_append_left _ hx
        · exact List.mem_append_right _ (List.mem_append_left _ hx)
      · exact List.mem_append_right _ (List.mem_append_right _ (List.mem_singleton_self d))
    case isFalse => cases h

/-! ### Removing -/

theorem popIntra_perm {d n n' l l'} (h : uop.popIntra d n l = .ok (n', l')) :
    (uop.intraDependencies n ++ l).Perm (d :: (uop.intraDependencies n' ++ l')) := by
  induction n generalizing l with
  | zero => cases h
  | succ n ih =>
    rw [popIntra] at h
    rw [intraDependencies]
    split at h
    case isTrue hd =>
      cases h
      rw [← hd]
      exact .refl _
    case isFalse =>
      split at h
      case isTrue =>
        refine .trans ?_ (ih h)
        rw [← List.append_assoc, List.cons_append]
        exact (List.perm_append_singleton _ _).symm
      case isFalse => cases h

theorem swapRemove_perm {l l' d} (h : swapRemove l d = .ok l') :
    l.Perm (d :: l') := by
  rw [swapRemove] at h
  split at h
  case h_1 => cases h
  case h_2 final hfinal =>
    obtain ⟨front, rfl⟩ : ∃ front, l = front ++ [final] := List.getLast?_eq_some_iff.mp hfinal
    split at h
    case isTrue heq =>
      cases h
      rw [List.dropLast_concat, ← heq]
      exact List.perm_append_singleton _ _
    case isFalse hne =>
      split at h
      case isTrue hmem =>
        cases h
        have hfront : d ∈ front := by
          rcases List.mem_append.mp hmem with h | h
          · exact h
          · exact absurd (List.mem_singleton.mp h).symm hne
        have hidx : (front ++ [final]).idxOf d = front.idxOf d := List.idxOf_append_of_mem hfront
        have hlt : front.idxOf d < front.length := List.idxOf_lt_length_of_mem hfront
        rw [hidx, List.set_append_left _ _ hlt, List.dropLast_concat]
        -- the last element takes the place of the removed one
        have hset := List.set_perm_cons_eraseIdx hlt final
        have hfront := List.getElem_cons_eraseIdx_perm hlt
        rw [List.getElem_idxOf hlt] at hfront
        calc List.Perm (front ++ [final]) (final :: front) := List.perm_append_singleton _ _
          List.Perm _ (final :: d :: front.eraseIdx (front.idxOf d)) := hfront.symm.cons final
          List.Perm _ (d :: final :: front.eraseIdx (front.idxOf d)) := .swap _ _ _
          List.Perm _ (d :: front.set (front.idxOf d) final) := hset.symm.cons d
      case isFalse => cases h

theorem removeDependency_ok {d} (h : uop.removeDependency d = .ok uop') :
    Same uop uop' ∧ uop.getDependencies.Perm (d :: uop'.getDependencies) := by
  rw [removeDependency] at h
  split at h
  case isTrue =>
    obtain ⟨⟨n, l⟩, hpop, rfl⟩ := of_map_ok h
    refine ⟨⟨rfl, rfl⟩, ?_⟩
    have hintra := intraDependencies_congr uop
      { uop with intraInstructionDependencies := n, dependencies := l } rfl rfl n
    rw [getDependencies, getDependencies, hintra]
    exact popIntra_perm hpop
  case isFalse =>
    obtain ⟨l, hswap, rfl⟩ := of_map_ok h
    refine ⟨⟨rfl, rfl⟩, ?_⟩
    have hintra := intraDependencies_congr uop
      { uop with dependencies := l } rfl rfl uop.intraInstructionDependencies
    rw [getDependencies, getDependencies, hintra]
    exact (List.Perm.append_left _ (swapRemove_perm hswap)).trans List.perm_middle

end DynamicMicroOp

/-! ### Register dependencies -/

namespace RegisterDependencies
open DynamicMicroOp
variable [DecidableEq Reg] {decoder : Decoder Reg} {uop uop' : DynamicMicroOp Reg}

theorem readSources_grows {lowest regs producers producers'}
    (h : readSources decoder lowest regs producers uop = .ok (producers', uop')) :
    Grows uop uop' := by
  induction regs generalizing producers uop with
  | nil =>
    cases h
    exact .refl _
  | cons reg regs ih =>
    rw [readSources.eq_def] at h
    dsimp only at h
    split at h
    · cases h
    · split at h
      · exact ih h
      · split at h
        · obtain ⟨uop₁, hadd, hrest⟩ := of_bind_ok h
          exact (addDependency_ok hadd).1.trans (ih hrest)
        · exact ih h

theorem setDependencies_grows {lowest producers producers'}
    (h : setDependencies decoder producers uop lowest = .ok (producers', uop')) :
    Grows uop uop' := by
  obtain ⟨⟨producers₁, uop₁⟩, hread, hrest⟩ := of_bind_ok h
  obtain ⟨producers₂, -, hrest⟩ := of_bind_ok hrest
  cases hrest
  exact readSources_grows hread

theorem readSources_ok {lowest regs producers producers'}
    (hmapped : ∀ r ∈ regs, decoder.map_register r = r)
    (h : readSources decoder lowest regs producers uop = .ok (producers', uop')) :
    Grows uop uop' ∧ ∀ r ∈ regs, ∀ p, producers r = some p → lowest ≤ p →
      p ∈ uop'.getDependencies := by
  induction regs generalizing producers uop with
  | nil =>
    cases h
    exact ⟨.refl _, nofun⟩
  | cons reg regs ih =>
    have hmapped' : ∀ r ∈ regs, decoder.map_register r = r :=
      fun r hr => hmapped r (List.mem_cons_of_mem _ hr)
    rw [readSources.eq_def] at h
    dsimp only at h
    split at h
    case isTrue => cases h
    case isFalse =>
      split at h
      case h_1 hnone =>
        obtain ⟨hgrows, hreads⟩ := ih hmapped' h
        refine ⟨hgrows, fun r hr p hp hlow => ?_⟩
        rcases List.mem_cons.mp hr with rfl | hr
        · rw [hnone] at hp
          cases hp
        · exact hreads r hr p hp hlow
      case h_2 producer hsome =>
        split at h
        case isTrue hvalid =>
          obtain ⟨uop₁, hadd, hrest⟩ := of_bind_ok h
          obtain ⟨hgrows₁, hmem⟩ := addDependency_ok hadd
          obtain ⟨hgrows, hreads⟩ := ih hmapped' hrest
          refine ⟨hgrows₁.trans hgrows, fun r hr p hp hlow => ?_⟩
          rcases List.mem_cons.mp hr with rfl | hr
          · rw [hsome] at hp
            cases hp
            exact hgrows.keeps _ hmem
          · exact hreads r hr p hp hlow
        case isFalse hstale =>
          obtain ⟨hgrows, hreads⟩ := ih hmapped' h
          refine ⟨hgrows, fun r hr p hp hlow => ?_⟩
          -- only the stale producer of this register is forgotten
          have hne : r ≠ reg := by
            intro heq
            rw [heq, hsome] at hp
            cases hp
            exact hstale hlow
          rcases List.mem_cons.mp hr with heq | hr
          · exact absurd heq hne
          · refine hreads r hr p ?_ hlow
            rw [hmapped reg (List.mem_cons_self ..), Function.update_of_ne hne]
            exact hp

theorem setDependencies_ok {lowest producers producers'} (hdecoded : uop.m_uop.Decoded decoder)
    (h : setDependencies decoder producers uop lowest = .ok (producers', uop')) :
    Grows uop uop' ∧ ∀ r ∈ uop.m_uop.addressRegisters, ∀ p,
      producers.peekProducer decoder r lowest = some p → p ∈ uop'.getDependencies := by
  obtain ⟨⟨producers₁, uop₁⟩, hread, hrest⟩ := of_bind_ok h
  obtain ⟨producers₂, -, hrest⟩ := of_bind_ok hrest
  cases hrest
  obtain ⟨hgrows, hreads⟩ := readSources_ok hdecoded.mapped hread
  refine ⟨hgrows, fun r hr p hp => ?_⟩
  rw [peekProducer] at hp
  split at hp
  case isTrue => cases hp
  case isFalse =>
    obtain ⟨hp, hlow⟩ := Option.filter_eq_some_iff.mp hp
    exact hreads r (hdecoded.address r hr) p hp (of_decide_eq_true hlow)

end RegisterDependencies

/-! ### Memory dependencies -/

namespace MemoryDependencies
open DynamicMicroOp
variable {deps deps' : MemoryDependencies} {uop uop' : DynamicMicroOp Reg}

theorem onMembar_ok {lowest} (h : deps.onMembar lowest uop = .ok uop') :
    Grows uop uop' ∧ ∀ b, deps.membar = some b → lowest < b → b ∈ uop'.getDependencies := by
  rw [onMembar] at h
  split at h
  case h_1 hnone =>
    cases h
    exact ⟨.refl _, fun b hb => nomatch hnone.symm.trans hb⟩
  case h_2 membar hsome =>
    split at h
    case isTrue =>
      obtain ⟨hgrows, hmem⟩ := addDependency_ok h
      exact ⟨hgrows, fun b hb _ => Option.some.inj (hsome.symm.trans hb) ▸ hmem⟩
    case isFalse hle =>
      cases h
      exact ⟨.refl _, fun b hb hlt => absurd (Option.some.inj (hsome.symm.trans hb) ▸ hlt) hle⟩

theorem setDependencies_ok {lowest} (h : deps.setDependencies uop lowest = .ok (deps', uop')) :
    Grows uop uop' ∧
    ((uop.m_uop.isLoad || uop.m_uop.isStore || uop.m_uop.m_membar) = true →
      ∀ b, deps.membar = some b → lowest < b → b ∈ uop'.getDependencies) ∧
    deps'.membar =
      if !uop.m_uop.isLoad && !uop.m_uop.isStore && uop.m_uop.m_membar then
        some uop.sequenceNumber
      else deps.membar := by
  rw [setDependencies] at h
  split at h
  case isTrue hload =>
    obtain ⟨uop₁, hfind, h⟩ := of_bind_ok h
    obtain ⟨uop₂, hmembar, h⟩ := of_bind_ok h
    cases h
    have hgrows₁ : Grows uop uop₁ := by
      rw [onStore] at hfind
      split at hfind
      · exact (addDependency_ok hfind).1
      · cases hfind
        exact .refl _
    obtain ⟨hgrows₂, hmem⟩ := onMembar_ok hmembar
    refine ⟨hgrows₁.trans hgrows₂, fun _ => hmem, ?_⟩
    rw [hload]
    rfl
  case isFalse hload =>
    have hload : uop.m_uop.isLoad = false := Bool.not_eq_true _ ▸ hload
    split at h
    case isTrue hstore =>
      obtain ⟨deps₁, hadd, h⟩ := of_bind_ok h
      obtain ⟨uop₁, hmembar, h⟩ := of_bind_ok h
      cases h
      have hdeps : deps'.membar = deps.membar := by
        rw [add] at hadd
        split at hadd
        · cases hadd
          rfl
        · cases hadd
      obtain ⟨hgrows, hmem⟩ := onMembar_ok hmembar
      rw [hdeps] at hmem
      refine ⟨hgrows, fun _ => hmem, ?_⟩
      rw [hdeps, hload, hstore]
      rfl
    case isFalse hstore =>
      have hstore : uop.m_uop.isStore = false := Bool.not_eq_true _ ▸ hstore
      split at h
      case isTrue hbarrier =>
        obtain ⟨uop₁, hmembar, h⟩ := of_bind_ok h
        cases h
        obtain ⟨hgrows, hmem⟩ := onMembar_ok hmembar
        refine ⟨hgrows, fun _ => hmem, ?_⟩
        rw [hload, hstore, hbarrier]
        exact congrArg some hgrows.same.sequenceNumber
      case isFalse hbarrier =>
        cases h
        have hbarrier : uop.m_uop.m_membar = false := Bool.not_eq_true _ ▸ hbarrier
        refine ⟨.refl _, fun hkind => ?_, ?_⟩
        · rw [hload, hstore, hbarrier] at hkind
          cases hkind
        · rw [hload, hstore, hbarrier]
          rfl

end MemoryDependencies
end Sniper.Timing
