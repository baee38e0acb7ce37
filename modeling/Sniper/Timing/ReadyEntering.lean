import Sniper.Timing.ReadyTimes
import Sniper.Timing.StoreForwarding

/-! # Ready times at the entrance

What a micro-op that enters takes over from the producers that have issued, beside what it would
have heard of them.
-/
namespace Sniper.Timing.Rob
open Lib.Simulation DynamicMicroOp

variable {Reg K M : Type}

/-! ### The producers -/

/-- A producer that has issued before and is no store, or that only the store has heard of whose
value is forwarded. -/
def Early (dependencies forwarded : List Nat) (p : RobEntry Reg) : Prop :=
  p.done ≠ ⊤ ∧ (p.seqnr ∈ dependencies ∧ p.uop.m_uop.isStore = false ∨
    p.seqnr ∈ forwarded ∧ p.seqnr ∉ dependencies)

instance (dependencies forwarded : List Nat) (p : RobEntry Reg) :
    Decidable (Early dependencies forwarded p) := inferInstanceAs (Decidable (_ ∧ (_ ∨ _)))

/-- The dependencies of a micro-op, without the store that forwards to it. -/
def withoutStore (uop : DynamicMicroOp Reg) : Option (RobEntry Reg) → List Nat
  | none => uop.getDependencies
  | some store => uop.getDependencies.erase store.seqnr

namespace Consumer

/-- The consumer that a micro-op with its dependencies is, and the store that forwards to it. -/
def new (rob : List (RobEntry Reg)) (lowest : Nat) (uop : DynamicMicroOp Reg)
    (store : Option (RobEntry Reg)) (addressSources : List Nat) : Consumer :=
  let dependencies := withoutStore uop store
  let forwarded := match store with
    | none => []
    | some store => store.producers.filter (lowest ≤ ·)
  { seqnr := uop.sequenceNumber
    dependencies := dependencies
    forwarded := forwarded
    addressSources := addressSources
    early := (rob.filter fun p => Early dependencies forwarded p).map RobEntry.seqnr }

/-- The producers of the address of a store. -/
def addressOf [DecidableEq Reg] (decoder : Decoder Reg) (registers : RegisterDependencies Reg)
    (lowest : Nat) (uop : MicroOp Reg) : List Nat :=
  if uop.isStore then
    uop.addressRegisters.filterMap fun reg => registers.peekProducer decoder reg lowest
  else []

/-- The consumer that a micro-op is when it enters. -/
def of [DecidableEq Reg] (cfg : Config Reg K M) (s : RobTimer Reg K M)
    (uop : DynamicMicroOp Reg) : Except Stop Consumer := do
  let lowest := (s.rob.headD (RobEntry.init uop uop.sequenceNumber)).seqnr
  let (_, uop₁) ← s.registerDependencies.setDependencies cfg.decoder uop lowest
  let (_, uop₂) ← s.memoryDependencies.setDependencies uop₁ lowest
  let store ← forwardedFrom cfg s uop
  return new s.rob lowest uop₂ store (addressOf cfg.decoder s.registerDependencies lowest uop.m_uop)

section New
variable {rob : List (RobEntry Reg)} {lowest : Nat} {uop uop' : DynamicMicroOp Reg}
  {store : Option (RobEntry Reg)} {addressSources : List Nat}

theorem issued_of_early (hearly : (new rob lowest uop store addressSources).early = []) {p}
    (hp : p ∈ rob) (hdone : p.done ≠ ⊤)
    (hmem : p.seqnr ∈ (new rob lowest uop store addressSources).sources) :
    p.uop.m_uop.isStore = true ∧
      p.seqnr ∈ (new rob lowest uop store addressSources).dependencies := by
  have hnot := List.filter_eq_nil_iff.mp (List.map_eq_nil_iff.mp hearly) p hp
  simp only [decide_eq_true_eq] at hnot
  have hdep : p.seqnr ∈ (new rob lowest uop store addressSources).dependencies := by
    rcases List.mem_append.mp hmem with hdep | hforwarded
    · exact hdep
    · by_contra hdep
      exact hnot ⟨hdone, .inr ⟨hforwarded, hdep⟩⟩
  refine ⟨?_, hdep⟩
  by_contra hstore
  exact hnot ⟨hdone, .inl ⟨hdep, Bool.not_eq_true _ ▸ hstore⟩⟩

end New
end Consumer

theorem addDependency_of_mem {uop uop' : DynamicMicroOp Reg} {d x}
    (h : uop.addDependency d = .ok uop') (hx : x ∈ uop'.getDependencies) :
    x ∈ uop.getDependencies ∨ x = d := by
  rw [addDependency] at h
  split at h
  case isTrue =>
    cases h
    exact .inl hx
  case isFalse =>
    split at h
    case isTrue =>
      cases h
      have hintra := intraDependencies_congr uop
        { uop with dependencies := uop.dependencies ++ [d] } rfl rfl
      rw [getDependencies, hintra] at hx
      rw [getDependencies]
      simp only [List.mem_append, List.mem_singleton] at hx ⊢
      tauto
    case isFalse => cases h

theorem addDependencies_of_mem {uop uop' : DynamicMicroOp Reg} {deps x}
    (h : addDependencies deps uop = .ok uop') (hx : x ∈ uop'.getDependencies) :
    x ∈ uop.getDependencies ∨ x ∈ deps := by
  induction deps generalizing uop with
  | nil =>
    cases h
    exact .inl hx
  | cons d deps ih =>
    obtain ⟨uop₁, hadd, hrest⟩ := of_bind_ok h
    rcases ih hrest with hx | hx
    · refine (addDependency_of_mem hadd hx).imp_right fun heq => ?_
      rw [heq]
      exact List.mem_cons_self ..
    · exact .inr (List.mem_cons_of_mem _ hx)

/-- The store that forwards to a micro-op, whose dependencies have been set. -/
def storeFor (forwarding : Bool) (rob : List (RobEntry Reg)) (uop : DynamicMicroOp Reg) :
    Except Stop (Option (RobEntry Reg)) :=
  if forwarding && uop.m_uop.isLoad then findStore rob uop.getDependencies else .ok none

theorem mem_forward {forwarding rob} {uop uop' : DynamicMicroOp Reg} {store}
    (h : forward forwarding rob uop = .ok uop') (hstore : storeFor forwarding rob uop = .ok store)
    (x : Nat) : x ∈ uop'.getDependencies ↔
      x ∈ withoutStore uop store ∨ ∃ st ∈ store, x ∈ st.uop.getDependencies := by
  rw [storeFor] at hstore
  rw [forward] at h
  split at hstore
  case isTrue hload =>
    rw [if_pos hload, hstore] at h
    cases store with
    | none =>
      cases h
      simp [withoutStore]
    | some store =>
      obtain ⟨store', hstore', h⟩ := of_bind_ok h
      cases hstore'
      obtain ⟨uop₁, hremove, h⟩ := of_bind_ok h
      obtain ⟨-, hperm⟩ := removeDependency_ok hremove
      -- the dependency on the store has been removed
      have hremoved : ∀ d, d ∈ uop₁.getDependencies ↔
          d ∈ uop.getDependencies.erase store.seqnr := by
        intro d
        have herase := hperm.erase store.seqnr
        rw [List.erase_cons_head] at herase
        exact herase.mem_iff.symm
      simp only [withoutStore, ← hremoved, Option.mem_some_iff, exists_eq_left']
      constructor
      · exact addDependencies_of_mem h
      · intro hx
        exact hx.elim ((addDependencies_ok h).keeps x) (addDependencies_mem h)
  case isFalse hload =>
    rw [if_neg hload] at h
    cases hstore
    cases h
    simp [withoutStore]

theorem Consumer.mem_sources {forwarding rob lowest} {uop uop' : DynamicMicroOp Reg}
    {store addressSources} (h : forward forwarding rob uop = .ok uop')
    (hstore : storeFor forwarding rob uop = .ok store)
    (hearly : (new rob lowest uop store addressSources).early = [])
    (honly : ∀ e ∈ rob, ∀ p ∈ e.uop.getDependencies, p ∈ e.producers ∧ lowest ≤ p)
    (hissued : ∀ e ∈ rob, ∀ p ∈ e.producers, lowest ≤ p →
      p ∈ e.uop.getDependencies ∨ ∃ q ∈ rob, q.seqnr = p ∧ q.done ≠ ⊤) (x : Nat) :
    x ∈ (new rob lowest uop store addressSources).sources ↔ x ∈ uop'.getDependencies := by
  rw [mem_forward h hstore]
  cases store with
  | none => simp [sources, new]
  | some store =>
    have hmem : store ∈ rob := by
      rw [storeFor] at hstore
      split at hstore
      · exact (findStore_ok hstore).1
      · cases hstore
    constructor
    · intro hx
      rcases List.mem_append.mp hx with hdep | hforwarded
      · exact .inl hdep
      · obtain ⟨hproducer, hlow⟩ := List.mem_filter.mp hforwarded
        rcases hissued store hmem x hproducer (of_decide_eq_true hlow) with
          hdep | ⟨q, hq, rfl, hdone⟩
        · exact .inr ⟨store, rfl, hdep⟩
        · exact .inl (issued_of_early hearly hq hdone hx).2
    · intro hx
      rcases hx with hdep | ⟨st, hst, hdep⟩
      · exact List.mem_append_left _ hdep
      · obtain rfl := Option.mem_some_iff.mp hst
        obtain ⟨hproducer, hlow⟩ := honly store hmem x hdep
        exact List.mem_append_right _ (List.mem_filter.mpr ⟨hproducer, decide_eq_true hlow⟩)

/-! ### What is taken over -/

/-- Nothing but the times of the producers that have issued goes into `readyMax`. -/
theorem link_least {x : Nat} {deps : List Nat} {rob rob' : List (RobEntry Reg)}
    {dtr dtr' : List Nat} {t t' : Time} (h : link x deps rob dtr t = .ok (rob', dtr', t'))
    {u : Time} (ht : t ≤ u)
    (hall : ∀ p ∈ rob, p.seqnr ∈ deps → p.done ≠ ⊤ → p.done ≤ u) : t' ≤ u := by
  induction deps generalizing rob dtr t with
  | nil =>
    cases h
    exact ht
  | cons d deps ih =>
    rw [link] at h
    obtain ⟨p, hfind, h⟩ := of_bind_ok h
    obtain ⟨hp, hseq⟩ := findEntry_ok hfind
    split at h
    case isTrue hdone =>
      refine ih h ht fun q' hq' hmem hne => ?_
      obtain ⟨q, hq, rfl⟩ := mem_updateEntry.mp hq'
      have hsame : ∀ f : RobEntry Reg → RobEntry Reg, (f q).seqnr = q.seqnr →
          (f q).done = q.done →
          (if q.seqnr = d then f q else q).seqnr = q.seqnr ∧
          (if q.seqnr = d then f q else q).done = q.done := by
        intro f hfseq hfdone
        split
        · exact ⟨hfseq, hfdone⟩
        · exact ⟨rfl, rfl⟩
      obtain ⟨hqseq, hqdone⟩ :=
        hsame (fun entry => { entry with dependants := entry.dependants ++ [x] }) rfl rfl
      rw [hqseq] at hmem
      rw [hqdone] at hne ⊢
      exact hall q hq (List.mem_cons_of_mem _ hmem) hne
    case isFalse hdone =>
      split at h
      case isFalse => cases h
      case isTrue =>
        have hpu : p.done ≤ u := hall p hp (hseq ▸ List.mem_cons_self ..) hdone
        exact ih h (max_le ht hpu) fun q hq hmem => hall q hq (List.mem_cons_of_mem _ hmem)

section Address
variable {decoder : Decoder Reg} {registers : RegisterDependencies Reg}
  {rob : List (RobEntry Reg)} {lowest : Nat} {e e' : RobEntry Reg} [DecidableEq Reg]

theorem readAddress_told {regs} (h : readAddress decoder registers rob lowest regs e = .ok e') :
    (∀ a ∈ e.addressProducers, a ∈ e'.addressProducers) ∧
    e.addressReadyMax ≤ e'.addressReadyMax ∧
    ∀ r ∈ regs, ∀ a, registers.peekProducer decoder r lowest = some a →
      a ∈ e'.addressProducers ∨
        ∃ p ∈ rob, p.seqnr = a ∧ p.done ≠ ⊤ ∧ p.done ≤ e'.addressReadyMax := by
  induction regs generalizing e with
  | nil =>
    cases h
    exact ⟨fun _ ha => ha, le_refl _, nofun⟩
  | cons reg regs ih =>
    rw [readAddress.eq_def] at h
    dsimp only at h
    split at h
    case h_1 hnone =>
      obtain ⟨hkeeps, hle, htold⟩ := ih h
      refine ⟨hkeeps, hle, fun r hr a ha => ?_⟩
      rcases List.mem_cons.mp hr with rfl | hr
      · rw [hnone] at ha
        cases ha
      · exact htold r hr a ha
    case h_2 producer hpeek =>
      obtain ⟨p, hfind, h⟩ := of_bind_ok h
      obtain ⟨hp, hseq⟩ := findEntry_ok hfind
      obtain ⟨hkeeps, hle, htold⟩ := ih h
      split at hkeeps
      case isTrue hdone =>
        rw [if_pos hdone] at hle
        refine ⟨fun a ha => hkeeps a (List.mem_append_left _ ha), hle, fun r hr a ha => ?_⟩
        rcases List.mem_cons.mp hr with rfl | hr
        · rw [hpeek] at ha
          cases ha
          exact .inl (hkeeps _ (List.mem_append_right _ (List.mem_singleton_self _)))
        · exact htold r hr a ha
      case isFalse hdone =>
        rw [if_neg hdone] at hle
        refine ⟨hkeeps, (le_max_left _ _).trans hle, fun r hr a ha => ?_⟩
        rcases List.mem_cons.mp hr with rfl | hr
        · rw [hpeek] at ha
          cases ha
          exact .inr ⟨p, hp, hseq, hdone, (le_max_right _ _).trans hle⟩
        · exact htold r hr a ha

theorem setAddress_told (h : setAddress decoder registers rob lowest e = .ok e')
    (hstore : e.uop.m_uop.isStore = true) (hready : e.addressReady = ⊤) :
    (∀ r ∈ e.uop.m_uop.addressRegisters, ∀ a, registers.peekProducer decoder r lowest = some a →
      a ∈ e'.addressProducers ∨
        ∃ p ∈ rob, p.seqnr = a ∧ p.done ≠ ⊤ ∧ p.done ≤ e'.addressReadyMax) ∧
    e'.addressReady = if e'.addressProducers = [] then e'.addressReadyMax else ⊤ := by
  rw [setAddress, if_pos hstore] at h
  obtain ⟨e₁, hread, h⟩ := of_bind_ok h
  obtain ⟨-, -, htold⟩ := readAddress_told hread
  have hready₁ : e₁.addressReady = ⊤ := by
    rw [(readAddress_ok hread).rest]
    exact hready
  split at h
  case isTrue hnil =>
    cases h
    exact ⟨htold, (if_pos hnil).symm⟩
  case isFalse hne =>
    cases h
    exact ⟨htold, hready₁.trans (if_neg hne).symm⟩

end Address

/-! ### The entry -/

section Entry
variable {cfg : Config Reg K M} {base : Nat} {s : RobTimer Reg K M}

/-- What is waited for is in the reorder buffer and has not issued. -/
theorem Inv.unissued_of_dependency (h : Inv cfg base s) {e} (he : e ∈ s.rob) {p}
    (hp : p ∈ e.uop.getDependencies) : Unissued (s.rob.map RobEntry.core) p := by
  obtain ⟨owed, hlinked, howes⟩ := h.links
  have hpos := List.count_pos_iff.mpr hp
  rw [hlinked.count e he p] at hpos
  have howed := List.count_pos_iff.mp hpos
  obtain ⟨q, hq, rfl⟩ := hlinked.producer p _ howed
  refine unissued_of_mem hq ?_
  by_contra hdone
  rw [howes q hq, if_neg hdone] at howed
  cases howed

theorem Inv.base_le_of_unissued (h : Inv cfg base s) {p} (hp : Unissued (s.rob.map RobEntry.core) p) :
    base ≤ p := by
  obtain ⟨c, hc, rfl, -⟩ := hp
  exact (h.order.seqnr_lt hc).1

theorem Inv.issued_not_unissued (h : Inv cfg base s) {j} (hj : j ∈ issues s.log) :
    ¬ Unissued (s.rob.map RobEntry.core) j.seqnr := by
  intro hun
  rcases h.order.issued j hj with hlt | ⟨c, hc, hcj, hdone⟩
  · exact absurd (h.base_le_of_unissued hun) (Nat.not_le.mpr hlt)
  · obtain ⟨d, hd, hdj, hdtop⟩ := hun
    rw [h.order.eq_of_seqnr hd hc (hdj.trans hcj.symm), hdone] at hdtop
    exact time_ne_top _ hdtop

theorem Inv.head_seqnr (h : Inv cfg base s) {e} (he : e ∈ s.rob) (entry : RobEntry Reg) :
    (s.rob.headD entry).seqnr = base := by
  cases hrob : s.rob with
  | nil =>
    rw [hrob] at he
    cases he
  | cons front rest => exact h.seqnr_of_getElem (i := 0) (by rw [hrob]; rfl)

theorem Inv.producer_issued (h : Inv cfg base s) {e} (he : e ∈ s.rob) {p} (hp : p ∈ e.producers)
    (hbase : base ≤ p) :
    p ∈ e.uop.getDependencies ∨ ∃ q ∈ s.rob, q.seqnr = p ∧ q.done ≠ ⊤ := by
  refine ((h.fed e he).producers p hp).imp_right fun hissued => ?_
  obtain ⟨j, hj, rfl, -⟩ := hissued
  obtain ⟨c, hc, hcj, hdone⟩ := (h.order.issued j hj).resolve_left (Nat.not_lt.mpr hbase)
  obtain ⟨q, hq, rfl⟩ := List.mem_map.mp hc
  exact ⟨q, hq, hcj, fun htop => time_ne_top _ (hdone.symm.trans htop)⟩

theorem Inv.store_available (h : Inv cfg base s)
    (hstores : ∀ j ∈ issues s.log, j.uop.isStore = true → j.available = j.done) {p} (hp : p ∈ s.rob)
    (hdone : p.done ≠ ⊤) (hstore : p.uop.m_uop.isStore = true) :
    ∃ j ∈ issues s.log, j.seqnr = p.seqnr ∧ p.done = (j.available : Time) := by
  have hmem := List.mem_map_of_mem (f := RobEntry.core) hp
  obtain ⟨j, hj, hjp, hjdone⟩ := h.order.done p.core hmem hdone
  have hentered := h.order.disciplined.issued_entered hj
  rw [hjp] at hentered
  obtain ⟨huop, -⟩ := h.order.disciplined.entered_unique hentered (h.order.entries p.core hmem)
  refine ⟨j, hj, hjp, hjdone.trans ?_⟩
  rw [hstores j hj (huop ▸ hstore)]

variable [DecidableEq Reg]

theorem Consumer.mem_addressOf {decoder} {registers : RegisterDependencies Reg} {lowest a}
    {uop : MicroOp Reg} (hstore : uop.isStore = true) :
    a ∈ addressOf decoder registers lowest uop ↔
      ∃ r ∈ uop.addressRegisters, registers.peekProducer decoder r lowest = some a := by
  rw [addressOf, if_pos hstore, List.mem_filterMap]

theorem AddressGathered.enter {uop uop' : DynamicMicroOp Reg} {e₁ lowest} {c : Consumer}
    {producers readyMax ready} (haddr : setAddress cfg.decoder s.registerDependencies s.rob lowest
      (RobEntry.init uop s.nextSequenceNumber) = .ok e₁) (hstore : uop.m_uop.isStore = true)
    (hc : c.addressSources =
      Consumer.addressOf cfg.decoder s.registerDependencies lowest uop.m_uop)
    (hsources : ∀ a ∈ c.addressSources, a ∈ c.sources)
    (hremain : ∀ a ∈ c.sources, Unissued (s.rob.map RobEntry.core) a → a ∈ uop'.getDependencies)
    (htaken : ∀ p ∈ s.rob, p.done ≠ ⊤ → p.seqnr ∈ c.sources →
      ∃ j ∈ issues s.log, j.seqnr = p.seqnr ∧ p.done = (j.available : Time)) :
    AddressGathered s.log c { e₁ with
      uop := uop', readyMax := readyMax, ready := ready, producers := producers } := by
  obtain ⟨-, hbound, hproducers, -⟩ := setAddress_ok haddr rfl rfl rfl
  obtain ⟨htold, hready⟩ := setAddress_told haddr hstore rfl
  have hmem : ∀ a, a ∈ c.addressSources ↔ ∃ r ∈ uop.m_uop.addressRegisters,
      s.registerDependencies.peekProducer cfg.decoder r lowest = some a := by
    intro a
    rw [hc]
    exact Consumer.mem_addressOf hstore
  have hpending : ∀ a ∈ e₁.addressProducers,
      a ∈ c.addressSources ∧ a ∈ uop'.getDependencies := by
    intro a ha
    obtain ⟨hpeek, hun⟩ := hproducers a ha
    have hsource := (hmem a).mpr hpeek
    exact ⟨hsource, hremain a (hsources a hsource) hun⟩
  have htold' : ∀ a ∈ c.addressSources,
      a ∈ e₁.addressProducers ∨ AvailableBy s.log e₁.addressReadyMax a := by
    intro a ha
    obtain ⟨r, hr, hpeek⟩ := (hmem a).mp ha
    refine (htold r hr a hpeek).imp_right fun hissued => ?_
    obtain ⟨p, hp, rfl, hdone, hle⟩ := hissued
    obtain ⟨j, hj, hjp, heq⟩ := htaken p hp hdone (hsources _ ha)
    exact ⟨j, hj, hjp, heq ▸ hle⟩
  refine ⟨hsources, fun a ha => (hpending a ha).1, fun a ha => ?_, fun u hu => ?_, ?_⟩
  · exact (htold' a ha).imp_left fun hproducer => ⟨(hpending a hproducer).2, hproducer⟩
  · refine hbound u fun _ r hr p hp hpeek hdone => ?_
    have hsource := (hmem p.seqnr).mpr ⟨r, hr, hpeek⟩
    obtain ⟨j, hj, hjp, heq⟩ := htaken p hp hdone (hsources _ hsource)
    rw [heq]
    exact hu j hj (hjp ▸ hsource)
  · by_cases hnil : e₁.addressProducers = []
    · rw [if_pos hnil] at hready
      refine .inr ⟨hready, fun a ha => (htold' a ha).resolve_left ?_⟩
      rw [hnil]
      exact List.not_mem_nil
    · rw [if_neg hnil] at hready
      obtain ⟨a, ha⟩ := List.exists_mem_of_ne_nil _ hnil
      exact .inl ⟨hready, a, hpending a ha⟩

theorem Inv.gathered_enter (h : Inv cfg base s)
    (hstores : ∀ j ∈ issues s.log, j.uop.isStore = true → j.available = j.done)
    (honly : ∀ e ∈ s.rob, ∀ p ∈ e.uop.getDependencies, p ∈ e.producers)
    {uop uop₁ uop₂ uop₃ uop₄ : DynamicMicroOp Reg} (hdecoded : uop.m_uop.Decoded cfg.decoder)
    {e₁ : RobEntry Reg} {lowest : Nat} {registers : RegisterDependencies Reg}
    {memory : MemoryDependencies} {store : Option (RobEntry Reg)} {rob : List (RobEntry Reg)}
    {dtr : List Nat} {readyMax : Time} {c : Consumer} {event : Event Reg}
    (hlowest : ∀ e ∈ s.rob, lowest = base)
    (haddr : setAddress cfg.decoder s.registerDependencies s.rob lowest
      (RobEntry.init uop s.nextSequenceNumber) = .ok e₁)
    (hreg : s.registerDependencies.setDependencies cfg.decoder e₁.uop lowest =
      .ok (registers, uop₁))
    (hmem : s.memoryDependencies.setDependencies uop₁ lowest = .ok (memory, uop₂))
    (hstore : storeFor cfg.m_store_to_load_forwarding s.rob uop₂ = .ok store)
    (hforward : forward cfg.m_store_to_load_forwarding s.rob uop₂ = .ok uop₃)
    (hlink : link s.nextSequenceNumber uop₃.getDependencies s.rob [] 0 = .ok (rob, dtr, readyMax))
    (hremove : removeDependencies dtr uop₃ = .ok uop₄)
    (hc : c = .new s.rob lowest uop₂ store
      (Consumer.addressOf cfg.decoder s.registerDependencies lowest uop.m_uop))
    (hearly : c.early = []) :
    Gathered (event :: s.log) c { e₁ with
      uop := uop₄
      readyMax := readyMax
      ready := if uop₄.getDependencies = [] then readyMax else e₁.ready
      producers := uop₃.getDependencies } := by
  have hrest := (setAddress_ok haddr rfl rfl rfl).1
  have huop : e₁.uop = { uop with sequenceNumber := s.nextSequenceNumber } := by rw [hrest]; rfl
  have hready : e₁.ready = ⊤ := by rw [hrest]; rfl
  have hsources : ∀ p, p ∈ c.sources ↔ p ∈ uop₃.getDependencies := by
    subst hc
    refine Consumer.mem_sources hforward hstore hearly (fun e he p hp => ?_)
      fun e he p hp hlow => ?_
    · exact ⟨honly e he p hp,
        (hlowest e he).le.trans (h.base_le_of_unissued (h.unissued_of_dependency he hp))⟩
    · exact h.producer_issued he hp ((hlowest e he).symm.le.trans hlow)
  -- the producers that have issued are stores
  have htaken : ∀ p ∈ s.rob, p.done ≠ ⊤ → p.seqnr ∈ c.sources →
      ∃ j ∈ issues s.log, j.seqnr = p.seqnr ∧ p.done = (j.available : Time) := by
    intro p hp hdone hmem
    subst hc
    exact h.store_available hstores hp hdone (Consumer.issued_of_early hearly hp hdone hmem).1
  have hremain : ∀ a ∈ c.sources, Unissued (s.rob.map RobEntry.core) a →
      a ∈ uop₄.getDependencies := by
    intro a ha hun
    rw [← List.count_pos_iff, count_linked hlink h.unique hremove, if_pos hun]
    exact List.count_pos_iff.mpr ((hsources a).mp ha)
  refine Gathered.cons ⟨hsources, fun u hu => ?_, fun hne => ?_, fun hnil => ?_,
    fun hst => ?_⟩ event
  · refine link_least hlink (time_zero_le u) fun p hp hmem hdone => ?_
    have hsource := (hsources _).mpr hmem
    obtain ⟨j, hj, hjp, heq⟩ := htaken p hp hdone hsource
    rw [heq]
    exact hu j hj (hjp ▸ hsource)
  · exact (if_neg hne).trans hready
  · exact .inl (if_pos hnil)
  · -- the dependencies of a store are those of its registers and of the barriers
    have hdecoded₁ : e₁.uop.m_uop.Decoded cfg.decoder := by rw [huop]; exact hdecoded
    obtain ⟨hgrows₁, hreads⟩ := RegisterDependencies.setDependencies_ok hdecoded₁ hreg
    have hgrows₂ := (MemoryDependencies.setDependencies_ok hmem).1
    have hm_uop₂ : uop₂.m_uop = uop.m_uop :=
      (hgrows₁.same.trans hgrows₂.same).m_uop.trans (by rw [huop])
    obtain ⟨hsame₃, hstore₃, -⟩ := forward_ok hforward
    have hm_uop : uop₄.m_uop = uop.m_uop :=
      (hsame₃.trans (removeDependencies_ok hremove).1).m_uop.trans hm_uop₂
    have hst : uop.m_uop.isStore = true := hm_uop ▸ hst
    have haddress : c.addressSources =
        Consumer.addressOf cfg.decoder s.registerDependencies lowest uop.m_uop := by rw [hc]; rfl
    refine AddressGathered.enter haddr hst haddress (fun a ha => (hsources a).mpr ?_) hremain
      htaken
    rw [haddress, Consumer.mem_addressOf hst] at ha
    obtain ⟨r, hr, hpeek⟩ := ha
    rw [hstore₃ (by rw [hm_uop₂]; exact hst)]
    exact hgrows₂.keeps a (hreads r (by rw [huop]; exact hr) a hpeek)

end Entry
end Sniper.Timing.Rob
