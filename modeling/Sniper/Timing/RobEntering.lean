import Sniper.Timing.RobDataflow

/-! # Entering the reorder buffer

A micro-op that enters is linked to the producers that have not issued, and takes the times of
the others into its own.
-/
namespace Sniper.Timing.Rob
open Lib.Simulation DynamicMicroOp

variable {Reg K M : Type}

/-! ### Addresses -/

section Address
variable [DecidableEq Reg] {decoder : Decoder Reg} {registers : RegisterDependencies Reg}
  {rob : List (RobEntry Reg)} {lowest : Nat} {regs : List Reg} {e e' : RobEntry Reg}

/-- What the producers of an address do to an entry. -/
structure Addressed (decoder : Decoder Reg) (registers : RegisterDependencies Reg)
    (rob : List (RobEntry Reg)) (lowest : Nat) (regs : List Reg) (e e' : RobEntry Reg) : Prop where
  rest : e' =
    { e with addressProducers := e'.addressProducers, addressReadyMax := e'.addressReadyMax }
  bound : ∀ t : Time, e.addressReadyMax ≤ t →
    (∀ r ∈ regs, ∀ p ∈ rob, registers.peekProducer decoder r lowest = some p.seqnr → p.done ≠ ⊤ →
      p.done ≤ t) → e'.addressReadyMax ≤ t
  producers : ∀ a ∈ e'.addressProducers, a ∈ e.addressProducers ∨
    (∃ r ∈ regs, registers.peekProducer decoder r lowest = some a) ∧
    Unissued (rob.map RobEntry.core) a

theorem readAddress_ok (h : readAddress decoder registers rob lowest regs e = .ok e') :
    Addressed decoder registers rob lowest regs e e' := by
  induction regs generalizing e with
  | nil =>
    cases h
    exact ⟨rfl, fun _ ht _ => ht, fun _ ha => .inl ha⟩
  | cons reg regs ih =>
    rw [readAddress.eq_def] at h
    dsimp only at h
    split at h
    case h_1 =>
      have hrest := ih h
      refine ⟨hrest.rest, fun t ht hall => hrest.bound t ht fun r hr => hall r (.tail _ hr),
        fun a ha => (hrest.producers a ha).imp_right fun hp => ?_⟩
      obtain ⟨⟨r, hr, hpeek⟩, hun⟩ := hp
      exact ⟨⟨r, .tail _ hr, hpeek⟩, hun⟩
    case h_2 producer hpeek =>
      obtain ⟨p, hfind, h⟩ := of_bind_ok h
      obtain ⟨hp, hseq⟩ := findEntry_ok hfind
      have hrest := ih h
      have heq := hrest.rest
      split at hrest
      case isTrue hdone =>
        rw [if_pos hdone] at heq
        refine ⟨heq, fun t ht hall => hrest.bound t ht fun r hr => hall r (.tail _ hr),
          fun a ha => ?_⟩
        rcases hrest.producers a ha with hmem | ⟨⟨r, hr, hr'⟩, hun⟩
        · rcases List.mem_append.mp hmem with hmem | hmem
          · exact .inl hmem
          · cases List.mem_singleton.mp hmem
            exact .inr ⟨⟨reg, .head _, hpeek⟩, hseq ▸ unissued_of_mem hp hdone⟩
        · exact .inr ⟨⟨r, .tail _ hr, hr'⟩, hun⟩
      case isFalse hdone =>
        rw [if_neg hdone] at heq
        refine ⟨heq, fun t ht hall => hrest.bound t (max_le ht ?_) fun r hr => hall r (.tail _ hr),
          fun a ha => (hrest.producers a ha).imp_right fun hp => ?_⟩
        · exact hall reg (.head _) p hp (by rw [hpeek, hseq]) hdone
        · obtain ⟨⟨r, hr, hr'⟩, hun⟩ := hp
          exact ⟨⟨r, .tail _ hr, hr'⟩, hun⟩

theorem setAddress_ok (h : setAddress decoder registers rob lowest e = .ok e')
    (hready : e.addressReady = ⊤) (hmax : e.addressReadyMax = 0)
    (hproducers : e.addressProducers = []) :
    e' = { e with
      addressProducers := e'.addressProducers
      addressReady := e'.addressReady
      addressReadyMax := e'.addressReadyMax } ∧
    (∀ t : Time, (e.uop.m_uop.isStore = true → ∀ r ∈ e.uop.m_uop.addressRegisters, ∀ p ∈ rob,
        registers.peekProducer decoder r lowest = some p.seqnr → p.done ≠ ⊤ → p.done ≤ t) →
      e'.addressReadyMax ≤ t) ∧
    (∀ a ∈ e'.addressProducers,
      (∃ r ∈ e.uop.m_uop.addressRegisters, registers.peekProducer decoder r lowest = some a) ∧
      Unissued (rob.map RobEntry.core) a) ∧
    (e.uop.m_uop.isStore = true →
      e'.addressReady = ⊤ ∧ e'.addressProducers ≠ [] ∨ e'.addressReady = e'.addressReadyMax) := by
  rw [setAddress] at h
  split at h
  case isTrue hstore =>
    obtain ⟨e₁, hread, h⟩ := of_bind_ok h
    obtain ⟨hrest, hbound, hmem⟩ := readAddress_ok hread
    have hready₁ : e₁.addressReady = ⊤ := by rw [hrest]; exact hready
    have hbound' : ∀ t : Time, (e.uop.m_uop.isStore = true →
        ∀ r ∈ e.uop.m_uop.addressRegisters, ∀ p ∈ rob,
          registers.peekProducer decoder r lowest = some p.seqnr → p.done ≠ ⊤ → p.done ≤ t) →
        e₁.addressReadyMax ≤ t :=
      fun t ht => hbound t (by rw [hmax]; exact time_zero_le t) (ht hstore)
    have hmem' : ∀ a ∈ e₁.addressProducers,
        (∃ r ∈ e.uop.m_uop.addressRegisters, registers.peekProducer decoder r lowest = some a) ∧
        Unissued (rob.map RobEntry.core) a :=
      fun a ha => (hmem a ha).resolve_left (by rw [hproducers]; exact List.not_mem_nil)
    split at h
    case isTrue hnil =>
      cases h
      exact ⟨by rw [hrest], hbound', hmem', fun _ => .inr rfl⟩
    case isFalse hne =>
      cases h
      refine ⟨?_, hbound', hmem', fun _ => .inl ⟨hready₁, hne⟩⟩
      conv_lhs => rw [hrest]
      rw [hready₁, hready]
  case isFalse hstore =>
    cases h
    refine ⟨rfl, fun t _ => by rw [hmax]; exact time_zero_le t, fun a ha => ?_,
      fun h => absurd h hstore⟩
    rw [hproducers] at ha
    cases ha

end Address

/-! ### Forwarding -/

theorem addDependencies_ok {uop uop' : DynamicMicroOp Reg} {deps : List Nat}
    (h : addDependencies deps uop = .ok uop') : Grows uop uop' := by
  induction deps generalizing uop with
  | nil =>
    cases h
    exact .refl _
  | cons d deps ih =>
    obtain ⟨uop₁, hadd, h⟩ := of_bind_ok h
    exact (addDependency_ok hadd).1.trans (ih h)

theorem findStore_ok {rob deps} {p : RobEntry Reg} (h : findStore rob deps = .ok (some p)) :
    p ∈ rob ∧ p.uop.m_uop.isStore = true := by
  induction deps with
  | nil => cases h
  | cons d deps ih =>
    obtain ⟨q, hfind, h⟩ := of_bind_ok h
    split at h
    case isTrue hstore =>
      cases h
      exact ⟨(findEntry_ok hfind).1, hstore⟩
    case isFalse => exact ih h

theorem forward_ok {forwarding : Bool} {rob : List (RobEntry Reg)} {uop uop' : DynamicMicroOp Reg}
    (h : forward forwarding rob uop = .ok uop') :
    Same uop uop' ∧ (uop.m_uop.isStore = true → uop' = uop) ∧
    ∀ d ∈ uop.getDependencies, d ∈ uop'.getDependencies ∨
      ∃ p ∈ rob, p.seqnr = d ∧ p.uop.m_uop.isStore = true := by
  rw [forward] at h
  split at h
  case isTrue hload =>
    have hnot : uop.m_uop.isStore ≠ true := by
      have hload : uop.m_uop.isLoad = true := (Bool.and_eq_true_iff.mp hload).2
      simp only [MicroOp.isLoad, MicroOp.isStore, decide_eq_true_eq] at hload ⊢
      rw [hload]
      exact nofun
    obtain ⟨store, hfind, h⟩ := of_bind_ok h
    cases store with
    | none =>
      cases h
      exact ⟨.refl _, fun _ => rfl, fun _ hd => .inl hd⟩
    | some p =>
      obtain ⟨uop₁, hremove, h⟩ := of_bind_ok h
      obtain ⟨hsame, hperm⟩ := removeDependency_ok hremove
      have hgrows := addDependencies_ok h
      obtain ⟨hp, hstore⟩ := findStore_ok hfind
      refine ⟨hsame.trans hgrows.same, fun hstore => absurd hstore hnot, fun d hd => ?_⟩
      rcases List.mem_cons.mp (hperm.subset hd) with rfl | hd
      · exact .inr ⟨p, hp, rfl, hstore⟩
      · exact .inl (hgrows.keeps d hd)
  case isFalse =>
    cases h
    exact ⟨.refl _, fun _ => rfl, fun _ hd => .inl hd⟩

/-! ### Links -/

/-- The dependants of a producer that has not issued, with those that enter. -/
def attach (sequenceNumber : Nat) (deps : List Nat) (p : RobEntry Reg) : RobEntry Reg :=
  if p.done = ⊤ then
    { p with dependants := p.dependants ++ List.replicate (deps.count p.seqnr) sequenceNumber }
  else p

theorem attach_core (x : Nat) (deps : List Nat) (p : RobEntry Reg) :
    (attach x deps p).core = p.core := by
  rw [attach]
  split <;> rfl

theorem attach_uop (x : Nat) (deps : List Nat) (p : RobEntry Reg) :
    (attach x deps p).uop = p.uop := by
  rw [attach]
  split <;> rfl

theorem attach_dependants (x : Nat) (deps : List Nat) {p : RobEntry Reg} (h : p.done = ⊤) :
    (attach x deps p).dependants = p.dependants ++ List.replicate (deps.count p.seqnr) x := by
  rw [attach, if_pos h]

theorem Fed.attach {log : List (Event Reg)} {unissued : Nat → Prop} {p : RobEntry Reg}
    (h : Fed log unissued p) (x : Nat) (deps : List Nat) : Fed log unissued (attach x deps p) := by
  rw [Rob.attach]
  split
  · exact ⟨h.producers, h.ready, h.addressMax, h.address, h.pending, h.older⟩
  · exact h

theorem link_ok {x} {deps : List Nat} {rob rob' : List (RobEntry Reg)} {dtr dtr' t t'}
    (h : link x deps rob dtr t = .ok (rob', dtr', t')) (hunique : Unique rob) :
    rob' = rob.map (attach x deps) ∧
    dtr' = dtr ++ deps.filter (fun d => !decide (Unissued (rob.map RobEntry.core) d)) ∧
    (∀ d ∈ deps, ∃ p ∈ rob, p.seqnr = d) ∧ t ≤ t' ∧
    ∀ p ∈ rob, p.seqnr ∈ deps → p.done ≠ ⊤ → p.done ≤ t' := by
  induction deps generalizing rob dtr t with
  | nil =>
    cases h
    refine ⟨?_, (List.append_nil _).symm, fun _ h => absurd h List.not_mem_nil, le_refl _,
      fun _ _ h => absurd h List.not_mem_nil⟩
    refine (List.map_id' _).symm.trans (List.map_congr_left fun p _ => ?_)
    rw [attach]
    split
    · simp
    · rfl
  | cons d deps ih =>
    rw [link] at h
    obtain ⟨p, hfind, h⟩ := of_bind_ok h
    obtain ⟨hp, hseq⟩ := findEntry_ok hfind
    have hsame : ∀ p' ∈ rob, p'.seqnr = d → p' = p :=
      fun p' hp' hd => hunique p' hp' p hp (hd.trans hseq.symm)
    split at h
    case isTrue hdone =>
      have hcore : (updateEntry rob d fun entry =>
          { entry with dependants := entry.dependants ++ [x] }).map RobEntry.core =
          rob.map RobEntry.core := core_updateEntry fun _ _ _ => rfl
      obtain ⟨hrob, hdtr, hknown, hle, hbound⟩ := ih h (hunique.modify fun _ _ h => h)
      refine ⟨?_, ?_, fun y hy => ?_, hle, fun p' hp' hmem hne => ?_⟩
      · rw [hrob, updateEntry, List.map_map]
        refine List.map_congr_left fun p' hp' => ?_
        dsimp only [Function.comp]
        split
        case isTrue hd =>
          have hdone' : p'.done = ⊤ := by rw [hsame p' hp' hd]; exact hdone
          rw [attach, attach, if_pos hdone', if_pos hdone']
          show ({ p' with dependants := p'.dependants ++ [x] ++
            List.replicate (deps.count p'.seqnr) x } : RobEntry Reg) = _
          rw [hd, List.count_cons_self, List.append_assoc]
          rfl
        case isFalse hd => rw [attach, attach, List.count_cons_of_ne (Ne.symm hd)]
      · rw [hdtr, hcore, List.filter_cons_of_neg]
        simp only [Bool.not_eq_true', decide_eq_false_iff_not, not_not]
        exact hseq ▸ unissued_of_mem hp hdone
      · rcases List.mem_cons.mp hy with rfl | hy
        · exact ⟨p, hp, hseq⟩
        · obtain ⟨p', hp', hy'⟩ := hknown y hy
          obtain ⟨q, hq, rfl⟩ := mem_updateEntry.mp hp'
          refine ⟨q, hq, ?_⟩
          rw [← hy']
          split <;> rfl
      · rcases List.mem_cons.mp hmem with hd | hmem
        · rw [hsame p' hp' hd] at hne
          exact absurd hdone hne
        · have hne' : ¬ p'.seqnr = d := fun hd => hne (by rw [hsame p' hp' hd]; exact hdone)
          refine hbound p' (mem_updateEntry.mpr ⟨p', hp', ?_⟩) hmem hne
          rw [if_neg hne']
    case isFalse hdone =>
      split at h
      case isFalse => cases h
      case isTrue =>
        obtain ⟨hrob, hdtr, hknown, hle, hbound⟩ := ih h hunique
        refine ⟨?_, ?_, fun y hy => ?_, (le_max_left _ _).trans hle, fun p' hp' hmem hne => ?_⟩
        · rw [hrob]
          refine List.map_congr_left fun p' hp' => ?_
          rw [attach, attach]
          split
          case isTrue hdone' =>
            rw [List.count_cons_of_ne fun hd => hdone (hsame p' hp' hd.symm ▸ hdone')]
          case isFalse => rfl
        · rw [hdtr, List.filter_cons_of_pos, List.append_assoc]
          · rfl
          · simp only [Bool.not_eq_true', decide_eq_false_iff_not]
            intro hun
            obtain ⟨p', hp', hd, hdone'⟩ := mem_of_unissued hun
            exact hdone (hsame p' hp' hd ▸ hdone')
        · rcases List.mem_cons.mp hy with rfl | hy
          · exact ⟨p, hp, hseq⟩
          · exact hknown y hy
        · rcases List.mem_cons.mp hmem with hd | hmem
          · rw [hsame p' hp' hd]
            exact (le_max_right _ _).trans hle
          · exact hbound p' hp' hmem hne

theorem removeDependencies_ok {uop uop' : DynamicMicroOp Reg} {deps}
    (h : removeDependencies deps uop = .ok uop') :
    Same uop uop' ∧ uop.getDependencies.Perm (deps ++ uop'.getDependencies) := by
  induction deps generalizing uop with
  | nil =>
    cases h
    exact ⟨.refl _, .refl _⟩
  | cons d deps ih =>
    obtain ⟨uop₁, hremove, h⟩ := of_bind_ok h
    obtain ⟨hsame, hperm⟩ := removeDependency_ok hremove
    obtain ⟨hsame', hperm'⟩ := ih h
    exact ⟨hsame.trans hsame', hperm.trans (hperm'.cons d)⟩

theorem count_remaining {deps deps' : List Nat} {p} (h : deps.Perm (deps.filter p ++ deps'))
    (q : Nat) :
    deps'.count q = if p q then 0 else deps.count q := by
  have hcount := h.count_eq q
  rw [List.count_append] at hcount
  split
  case isTrue hq =>
    rw [List.count_filter hq] at hcount
    omega
  case isFalse hq =>
    have hzero : (deps.filter p).count q = 0 :=
      List.count_eq_zero.mpr fun hmem => hq (List.mem_filter.mp hmem).2
    omega

theorem count_linked {x} {rob rob' : List (RobEntry Reg)} {dtr t t'} {uop uop' : DynamicMicroOp Reg}
    (h : link x uop.getDependencies rob [] t = .ok (rob', dtr, t')) (hunique : Unique rob)
    (hremove : removeDependencies dtr uop = .ok uop') (q : Nat) :
    uop'.getDependencies.count q =
      if Unissued (rob.map RobEntry.core) q then uop.getDependencies.count q else 0 := by
  obtain ⟨-, hdtr, -⟩ := link_ok h hunique
  rw [List.nil_append] at hdtr
  subst hdtr
  rw [count_remaining (removeDependencies_ok hremove).2 q]
  by_cases hq : Unissued (rob.map RobEntry.core) q
  · simp [hq]
  · simp [hq]

end Sniper.Timing.Rob
