import Sniper.Timing.RobEntering

/-! # The discipline of the reorder buffer

What every run of the timer keeps, from one stage of a cycle to the next, and what it says about
the order of the events.
-/
namespace Sniper.Timing.Rob
open Lib.Simulation DynamicMicroOp

variable {Reg K M : Type}

/-- What holds of a timer whose oldest micro-op is `base`. -/
structure Inv (cfg : Config Reg K M) (base : Nat) (s : RobTimer Reg K M) : Prop where
  order : Ordered cfg base (s.rob.map RobEntry.core) s.m_num_in_rob s.m_rs_entries_used
    s.nextSequenceNumber s.log
  links : ∃ owed, Linked s.rob owed ∧ Owes s.rob owed
  fed : ∀ e ∈ s.rob, Fed s.log (Unissued (s.rob.map RobEntry.core)) e

/-- **What enters.** A micro-op that is not squashed passes through the stages. -/
theorem enter_cases [DecidableEq Reg] {cfg : Config Reg K M} {s s' : RobTimer Reg K M} {uop}
    (h : enter cfg s uop = .ok s') : uop.squashed = true ∧ s' = s ∨ ¬ uop.squashed = true ∧
    ∃ e₁ registers uop₁ memory uop₂ uop₃ rob dtr readyMax uop₄,
      let lowest := (s.rob.headD (.init uop s.nextSequenceNumber)).seqnr
      setAddress cfg.decoder s.registerDependencies s.rob lowest
        (.init uop s.nextSequenceNumber) = .ok e₁ ∧
      s.registerDependencies.setDependencies cfg.decoder e₁.uop lowest = .ok (registers, uop₁) ∧
      s.memoryDependencies.setDependencies uop₁ lowest = .ok (memory, uop₂) ∧
      forward cfg.m_store_to_load_forwarding s.rob uop₂ = .ok uop₃ ∧
      link s.nextSequenceNumber uop₃.getDependencies s.rob [] e₁.readyMax =
        .ok (rob, dtr, readyMax) ∧
      removeDependencies dtr uop₃ = .ok uop₄ ∧
      s' = { s with
        rob := rob ++ [{ e₁ with
          uop := uop₄
          readyMax := readyMax
          ready := if uop₄.getDependencies = [] then readyMax else e₁.ready
          producers := uop₃.getDependencies }]
        nextSequenceNumber := s.nextSequenceNumber + 1
        registerDependencies := registers
        memoryDependencies := memory
        log := .entered s.nextSequenceNumber uop₄.m_uop uop₃.getDependencies :: s.log } := by
  rw [enter] at h
  split at h
  case isTrue hsquashed =>
    cases h
    exact .inl ⟨hsquashed, rfl⟩
  case isFalse hsquashed =>
    split at h
    case isTrue => cases h
    case isFalse =>
      obtain ⟨e₁, haddr, h⟩ := of_bind_ok h
      obtain ⟨⟨registers, uop₁⟩, hreg, h⟩ := of_bind_ok h
      obtain ⟨⟨memory, uop₂⟩, hmem, h⟩ := of_bind_ok h
      obtain ⟨uop₃, hforward, h⟩ := of_bind_ok h
      obtain ⟨⟨rob, dtr, readyMax⟩, hlink, h⟩ := of_bind_ok h
      obtain ⟨uop₄, hremove, h⟩ := of_bind_ok h
      cases h
      exact .inr ⟨hsquashed, _, _, _, _, _, _, _, _, _, _, haddr, hreg, hmem, hforward, hlink,
        hremove, rfl⟩

/-- **What the loop of `doDispatch` keeps.** The front end waits for the instruction cache, has
been served by it, dispatches, or waits for a mispredicted branch. -/
theorem dispatchLoop_invariant {cfg : Config Reg K M} {s s' : RobTimer Reg K M}
    {P : RobTimer Reg K M → Time → Prop}
    (hmiss : ∀ s t k, P s t → P { s with
      frontend_stalled_until := ((s.now + k * s.period : Nat) : Time), in_icache_miss := true } t)
    (hserved : ∀ s t, P s t → P { s with in_icache_miss := false } t)
    (hdispatch : ∀ s t e, s.rob[s.m_num_in_rob]? = some e → s.m_num_in_rob < cfg.windowSize →
      s.m_rs_entries_used ≠ cfg.rsEntries → P s t →
      P (dispatch s e) (min t (max e.ready ((s.now + s.period : Nat) : Time))))
    (hbranch : ∀ s t, P s t → P { s with frontend_stalled_until := ⊤ } t) {width t t'}
    (hs : P s t) (h : dispatchLoop cfg width s t = .ok (s', t')) : P s' t' := by
  induction width generalizing s t with
  | zero =>
    rw [dispatchLoop.eq_def] at h
    dsimp only at h
    split at h
    · cases h
      exact hs
    · split at h
      · cases h
      · cases h
        exact hs
  | succ width ih =>
    rw [dispatchLoop.eq_def] at h
    dsimp only at h
    split at h
    case isTrue =>
      cases h
      exact hs
    case isFalse hwindow =>
      split at h
      case h_1 => cases h
      case h_2 e he =>
        split at h
        case isTrue =>
          cases h
          exact hmiss _ _ _ hs
        case isFalse =>
          generalize hs₁ : (if e.uop.iCacheHitWhere ≠ .L1I then { s with in_icache_miss := false }
            else s) = s₁ at h
          have hkeep : s₁ = { s with in_icache_miss := s₁.in_icache_miss } := by
            rw [← hs₁]
            split <;> rfl
          have h₁ : P s₁ t := by
            rw [← hs₁]
            split
            · exact hserved _ _ hs
            · exact hs
          split at h
          case isTrue =>
            cases h
            exact h₁
          case isFalse hrs =>
            have h₂ := hdispatch _ _ e (by rw [hkeep]; exact he)
              (by rw [hkeep]; exact Nat.lt_of_not_le hwindow) hrs h₁
            split at h
            case isTrue =>
              cases h
              exact hbranch _ _ h₂
            case isFalse => exact ih h₂ h

namespace Inv
variable {cfg : Config Reg K M} {base : Nat} {s s' : RobTimer Reg K M}

theorem unique (h : Inv cfg base s) : Unique s.rob := by
  intro p hp p' hp' heq
  obtain ⟨i, hi, rfl⟩ := List.mem_iff_getElem.mp hp
  obtain ⟨j, hj, rfl⟩ := List.mem_iff_getElem.mp hp'
  have hget : ∀ k (hk : k < s.rob.length),
      (s.rob.map RobEntry.core)[k]? = some (s.rob[k].core) := by
    intro k hk
    rw [List.getElem?_map, List.getElem?_eq_getElem hk]
    rfl
  have hi' : s.rob[i].seqnr = base + i := h.order.numbered i _ (hget i hi)
  have hj' : s.rob[j].seqnr = base + j := h.order.numbered j _ (hget j hj)
  have hij : i = j := by omega
  subst hij
  rfl

theorem seqnr_lt (h : Inv cfg base s) {e} (he : e ∈ s.rob) :
    e.seqnr < s.nextSequenceNumber :=
  (h.order.seqnr_lt (List.mem_map_of_mem (f := RobEntry.core) he)).2

/-! ### Entering -/

theorem enterEntry (h : Inv cfg base s) {e deps} (hseq : e.seqnr = s.nextSequenceNumber)
    (hdone : e.done = ⊤) (hdependants : e.dependants = []) (hproducers : e.producers = deps)
    (hknown : ∀ d ∈ deps, ∃ p ∈ s.rob, p.seqnr = d) (hcount : ∀ q, e.uop.getDependencies.count q =
      if Unissued (s.rob.map RobEntry.core) q then deps.count q else 0)
    (hbound : ∀ p ∈ s.rob, p.seqnr ∈ deps → p.done ≠ ⊤ → p.done ≤ e.readyMax)
    (hready : e.ready ≠ ⊤ → e.uop.getDependencies = [] ∧ e.readyMax ≤ e.ready)
    (haddressMax : e.addressReadyMax ≤ e.readyMax) (haddress : e.uop.m_uop.isStore = true →
      e.addressReady = ⊤ ∧ e.uop.getDependencies ≠ [] ∨ e.addressReady ≤ e.readyMax)
    (hpending : ∀ a ∈ e.addressProducers, Unissued (s.rob.map RobEntry.core) a ∧
      (e.uop.m_uop.isStore = true → a ∈ deps)) :
    Inv cfg base { s with
      rob := s.rob.map (attach s.nextSequenceNumber deps) ++ [e]
      nextSequenceNumber := s.nextSequenceNumber + 1
      log := .entered s.nextSequenceNumber e.uop.m_uop deps :: s.log } := by
  obtain ⟨owed, hlinked, howes⟩ := h.links
  have hcores : (s.rob.map (attach s.nextSequenceNumber deps) ++ [e]).map RobEntry.core =
      s.rob.map RobEntry.core ++ [e.core] := by
    rw [List.map_append, List.map_map]
    congr 1
    exact List.map_congr_left fun p _ => attach_core _ _ p
  have hun : ∀ a, Unissued (s.rob.map RobEntry.core ++ [e.core]) a →
      Unissued (s.rob.map RobEntry.core) a ∨ a = s.nextSequenceNumber := by
    intro a ha
    obtain ⟨c, hc, ha, hcdone⟩ := ha
    rcases List.mem_append.mp hc with hc | hc
    · exact .inl ⟨c, hc, ha, hcdone⟩
    · cases List.mem_singleton.mp hc
      exact .inr (ha.symm.trans hseq)
  have hlt : ∀ q, Unissued (s.rob.map RobEntry.core) q → q < s.nextSequenceNumber := by
    intro q hq
    obtain ⟨p, hp, rfl, -⟩ := mem_of_unissued hq
    exact h.seqnr_lt hp
  have hmem : ∀ q, Unissued (s.rob.map RobEntry.core) q → q ∈ deps → q ∈ e.uop.getDependencies := by
    intro q hq hdeps
    rw [← List.count_pos_iff, hcount q, if_pos hq]
    exact List.count_pos_iff.mpr hdeps
  have hother : ∀ p ∈ s.rob, p.done ≠ ⊤ → ¬ Unissued (s.rob.map RobEntry.core) p.seqnr := by
    intro p hp hne hq
    obtain ⟨p', hp', heq, hdone'⟩ := mem_of_unissued hq
    exact hne (h.unique p' hp' p hp heq ▸ hdone')
  have hnew : ∀ q, s.nextSequenceNumber ∉ owed q := by
    intro q hq
    obtain ⟨p, hp, heq⟩ := hlinked.dependant q _ hq
    exact Nat.lt_irrefl _ (heq ▸ h.seqnr_lt hp)
  refine ⟨?_, ⟨fun q => owed q ++ if Unissued (s.rob.map RobEntry.core) q then
    List.replicate (deps.count q) s.nextSequenceNumber else [], ⟨fun e' he' q => ?_, fun q x hx => ?_,
    fun q x hx => ?_, fun q x hx => ?_⟩, fun p' hp' => ?_⟩, fun e' he' => ?_⟩
  · rw [hcores]
    have horder := h.order.enter (c := e.core) hseq hdone
    rw [show e.core.seqnr = s.nextSequenceNumber from hseq,
      show e.core.producers = deps from hproducers] at horder
    exact horder
  · rw [List.count_append]
    rcases List.mem_append.mp he' with he' | he'
    · obtain ⟨p, hp, rfl⟩ := List.mem_map.mp he'
      have hcount' := hlinked.count p hp q
      have hne : s.nextSequenceNumber ≠ p.seqnr := Nat.ne_of_gt (h.seqnr_lt hp)
      have hseq' : (attach s.nextSequenceNumber deps p).seqnr = p.seqnr :=
        congrArg Core.seqnr (attach_core _ _ p)
      rw [attach_uop, hseq', hcount']
      split
      · rw [List.count_replicate, if_neg (by simpa using hne)]
        rfl
      · rfl
    · cases List.mem_singleton.mp he'
      rw [hcount q, hseq, List.count_eq_zero.mpr (hnew q), Nat.zero_add]
      split
      · rw [List.count_replicate_self]
      · rfl
  · have hp : ∃ p ∈ s.rob, p.seqnr = q := by
      rcases List.mem_append.mp hx with hx | hx
      · exact hlinked.producer q x hx
      · split at hx
        case isTrue hq =>
          obtain ⟨p, hp, hpq, -⟩ := mem_of_unissued hq
          exact ⟨p, hp, hpq⟩
        case isFalse => cases hx
    obtain ⟨p, hp, hpq⟩ := hp
    exact ⟨_, List.mem_append_left _ (List.mem_map_of_mem hp),
      (congrArg Core.seqnr (attach_core _ _ p)).trans hpq⟩
  · rcases List.mem_append.mp hx with hx | hx
    · obtain ⟨p, hp, hpx⟩ := hlinked.dependant q x hx
      exact ⟨_, List.mem_append_left _ (List.mem_map_of_mem hp),
        (congrArg Core.seqnr (attach_core _ _ p)).trans hpx⟩
    · split at hx
      · rw [(List.mem_replicate.mp hx).2]
        exact ⟨e, List.mem_append_right _ (List.mem_singleton_self e), hseq⟩
      · cases hx
  · rcases List.mem_append.mp hx with hx | hx
    · exact hlinked.younger q x hx
    · split at hx
      case isTrue hq =>
        rw [(List.mem_replicate.mp hx).2]
        exact hlt q hq
      case isFalse => cases hx
  · rcases List.mem_append.mp hp' with hp' | hp'
    · obtain ⟨p, hp, rfl⟩ := List.mem_map.mp hp'
      have hcore := attach_core s.nextSequenceNumber deps p
      have hseq' : (attach s.nextSequenceNumber deps p).seqnr = p.seqnr := congrArg Core.seqnr hcore
      have hdone' : (attach s.nextSequenceNumber deps p).done = p.done := congrArg Core.done hcore
      dsimp only
      rw [hseq', hdone', howes p hp]
      by_cases hp₀ : p.done = ⊤
      · rw [if_pos hp₀, if_pos hp₀, if_pos (unissued_of_mem hp hp₀), attach_dependants _ _ hp₀]
      · rw [if_neg hp₀, if_neg hp₀, if_neg (hother p hp hp₀)]
        rfl
    · cases List.mem_singleton.mp hp'
      have hnil : owed e.seqnr = [] := by
        refine List.eq_nil_iff_forall_not_mem.mpr fun x hx => ?_
        obtain ⟨p, hp, heq⟩ := hlinked.producer _ x hx
        have hp := h.seqnr_lt hp
        omega
      have hnot : ¬ Unissued (s.rob.map RobEntry.core) e.seqnr := by
        intro hq
        have hq := hlt _ hq
        omega
      dsimp only
      rw [hnil, if_neg hnot, hdependants]
      split <;> rfl
  · rw [hcores]
    rcases List.mem_append.mp he' with he' | he'
    · obtain ⟨p, hp, rfl⟩ := List.mem_map.mp he'
      refine ((h.fed p hp).attach _ deps).mono fun a ha hq => (hun a hq).resolve_right fun heq => ?_
      have hseq' : (attach s.nextSequenceNumber deps p).seqnr = p.seqnr :=
        congrArg Core.seqnr (attach_core _ _ p)
      have hold := ((h.fed p hp).attach s.nextSequenceNumber deps).older a ha
      have hp := h.seqnr_lt hp
      omega
    · cases List.mem_singleton.mp he'
      have hfed : Fed s.log (Unissued (s.rob.map RobEntry.core)) e := by
        refine ⟨fun p hp => ?_, hready, haddressMax, haddress,
          fun hstore a ha hq => hmem a hq ((hpending a ha).2 hstore),
          fun a ha => hseq ▸ hlt a (hpending a ha).1⟩
        rw [hproducers] at hp
        by_cases hq : Unissued (s.rob.map RobEntry.core) p
        · exact .inl (hmem p hq hp)
        · right
          obtain ⟨p', hp', rfl⟩ := hknown p hp
          have hne : p'.done ≠ ⊤ := fun hdone' => hq (unissued_of_mem hp' hdone')
          obtain ⟨j, hj, hjseq, hjdone⟩ := h.order.done p'.core (List.mem_map_of_mem hp') hne
          refine ⟨j, hj, hjseq, (time_le.mpr (h.order.available j hj)).trans ?_⟩
          rw [← hjdone]
          exact hbound p' hp' hp hne
      exact hfed.mono fun a ha _ => (hpending a ha).1

/-- A micro-op enters with its address and its dependencies; `deps` are those of them that are
in the reorder buffer. -/
theorem enterLinked [DecidableEq Reg] (h : Inv cfg base s) {decoder lowest uop uop₁ uop₂ uop₃ uop₄}
    (hdecoded : uop.m_uop.Decoded decoder) {e₁ registers memory forwarding deps readyMax}
    (haddr : setAddress decoder s.registerDependencies s.rob lowest
      (RobEntry.init uop s.nextSequenceNumber) = .ok e₁)
    (hreg : s.registerDependencies.setDependencies decoder e₁.uop lowest = .ok (registers, uop₁))
    (hmem : s.memoryDependencies.setDependencies uop₁ lowest = .ok (memory, uop₂))
    (hforward : forward forwarding s.rob uop₂ = .ok uop₃) (hsame₄ : Same uop₃ uop₄)
    (hkeeps : ∀ p ∈ s.rob, p.seqnr ∈ uop₃.getDependencies → p.seqnr ∈ deps)
    (hknown : ∀ d ∈ deps, ∃ p ∈ s.rob, p.seqnr = d) (hcount : ∀ q, uop₄.getDependencies.count q =
      if Unissued (s.rob.map RobEntry.core) q then deps.count q else 0)
    (hissued : ∀ p ∈ s.rob, p.seqnr ∈ deps → p.done ≠ ⊤ → p.done ≤ readyMax) :
    Inv cfg base { s with
      rob := s.rob.map (attach s.nextSequenceNumber deps) ++ [{ e₁ with
        uop := uop₄
        readyMax := readyMax
        ready := if uop₄.getDependencies = [] then readyMax else e₁.ready
        producers := deps }]
      nextSequenceNumber := s.nextSequenceNumber + 1
      log := .entered s.nextSequenceNumber uop₄.m_uop deps :: s.log } := by
  obtain ⟨hrest, hbound, hproducers, haddress⟩ := setAddress_ok haddr rfl rfl rfl
  have huop : e₁.uop = { uop with sequenceNumber := s.nextSequenceNumber } := by rw [hrest]; rfl
  have hdecoded₁ : e₁.uop.m_uop.Decoded decoder := by rw [huop]; exact hdecoded
  obtain ⟨hgrows₁, hreads⟩ := RegisterDependencies.setDependencies_ok hdecoded₁ hreg
  have hgrows₂ := (MemoryDependencies.setDependencies_ok hmem).1
  obtain ⟨hsame₃, hstore₃, -⟩ := forward_ok hforward
  have hsame := ((hgrows₁.same.trans hgrows₂.same).trans hsame₃).trans hsame₄
  have hm_uop : uop₄.m_uop = uop.m_uop := hsame.m_uop.trans (by rw [huop])
  -- the producers of the address of a store are among its dependencies
  have hread : uop.m_uop.isStore = true → ∀ r ∈ uop.m_uop.addressRegisters, ∀ a,
      s.registerDependencies.peekProducer decoder r lowest = some a →
      a ∈ uop₃.getDependencies := by
    intro hstore r hr a hpeek
    have hm_uop₂ : uop₂.m_uop = uop.m_uop :=
      (hgrows₁.same.trans hgrows₂.same).m_uop.trans (by rw [huop])
    rw [hstore₃ (by rw [hm_uop₂]; exact hstore)]
    exact hgrows₂.keeps a (hreads r (by rw [huop]; exact hr) a hpeek)
  have hdeps : uop.m_uop.isStore = true → ∀ r ∈ uop.m_uop.addressRegisters, ∀ p ∈ s.rob,
      s.registerDependencies.peekProducer decoder r lowest = some p.seqnr → p.seqnr ∈ deps :=
    fun hstore r hr p hp hpeek => hkeeps p hp (hread hstore r hr p.seqnr hpeek)
  have hpending : ∀ a ∈ e₁.addressProducers, Unissued (s.rob.map RobEntry.core) a ∧
      (uop.m_uop.isStore = true → a ∈ deps) := by
    intro a ha
    obtain ⟨⟨r, hr, hpeek⟩, hun⟩ := hproducers a ha
    refine ⟨hun, fun hstore => ?_⟩
    obtain ⟨p, hp, rfl, -⟩ := mem_of_unissued hun
    exact hdeps hstore r hr p hp hpeek
  have hmax : e₁.addressReadyMax ≤ readyMax := hbound readyMax fun hstore r hr p hp hpeek hne =>
    hissued p hp (hdeps hstore r hr p hp hpeek) hne
  refine h.enterEntry (hsame.sequenceNumber.trans (by rw [huop])) (by rw [hrest]; rfl)
    (by rw [hrest]; rfl) rfl hknown hcount hissued (fun hne => ?_) hmax (fun hstore => ?_)
    fun a ha => ⟨(hpending a ha).1, fun hstore => (hpending a ha).2 (hm_uop ▸ hstore)⟩
  · split at hne
    case isTrue hnil => exact ⟨hnil, by rw [if_pos hnil]⟩
    case isFalse => exact absurd (by rw [hrest]; rfl) hne
  · have hstore : uop.m_uop.isStore = true := hm_uop ▸ hstore
    rcases haddress hstore with ⟨htop, hne⟩ | heq
    · left
      refine ⟨htop, fun hnil => ?_⟩
      obtain ⟨a, ha⟩ := List.exists_mem_of_ne_nil _ hne
      obtain ⟨hun, hmem⟩ := hpending a ha
      have hpos := hcount a
      rw [if_pos hun, hnil] at hpos
      exact Nat.ne_of_gt (List.count_pos_iff.mpr (hmem hstore)) hpos.symm
    · exact .inr (heq ▸ hmax)

theorem enter [DecidableEq Reg] (h : Inv cfg base s) {uop}
    (hdecoded : uop.m_uop.Decoded cfg.decoder)
    (hs' : Rob.enter cfg s uop = .ok s') :
    Inv cfg base s' := by
  rcases enter_cases hs' with ⟨-, rfl⟩ | ⟨-, e₁, registers, uop₁, memory, uop₂, uop₃, rob, dtr,
    readyMax, uop₄, haddr, hreg, hmem, hforward, hlink, hremove, rfl⟩
  · exact h
  · obtain ⟨hrob, -, hknown, -, hissued⟩ := link_ok hlink h.unique
    have hsame₄ := (removeDependencies_ok hremove).1
    have hcount := count_linked hlink h.unique hremove
    subst hrob
    have hinv := h.enterLinked hdecoded haddr hreg hmem hforward hsame₄ (fun _ _ hp => hp)
      hknown hcount hissued
    exact ⟨hinv.order, hinv.links, hinv.fed⟩

/-! ### Dispatch -/

theorem frame_updateEntry {rob : List (RobEntry Reg)} {x f} (hf : ∀ p, (f p).frame = p.frame) :
    (updateEntry rob x f).map RobEntry.frame = rob.map RobEntry.frame := by
  rw [updateEntry, List.map_map]
  refine List.map_congr_left fun p _ => ?_
  dsimp only [Function.comp]
  split
  · exact hf p
  · rfl

theorem seqnr_of_getElem (h : Inv cfg base s) {i e} (he : s.rob[i]? = some e) :
    e.seqnr = base + i := by
  refine h.order.numbered i e.core ?_
  rw [List.getElem?_map, he]
  rfl

theorem dispatch (h : Inv cfg base s) {e} (he : s.rob[s.m_num_in_rob]? = some e)
    (hwindow : s.m_num_in_rob < cfg.windowSize) (hrs : s.m_rs_entries_used ≠ cfg.rsEntries) :
    Inv cfg base (Rob.dispatch s e) := by
  obtain ⟨owed, hlinked, howes⟩ := h.links
  have hframe : (Rob.dispatch s e).rob.map RobEntry.frame = s.rob.map RobEntry.frame :=
    frame_updateEntry fun _ => rfl
  have hlt : s.m_num_in_rob < (s.rob.map RobEntry.core).length := by
    rw [List.length_map]
    exact (List.getElem?_eq_some_iff.mp he).1
  refine ⟨?_, ⟨owed, ?_, howes.congr hframe⟩, fun e' he' => ?_⟩
  · rw [core_of_frame hframe]
    have horder := h.order.dispatch hlt hwindow (Nat.lt_of_le_of_ne h.order.rs_fits hrs)
    rw [← h.seqnr_of_getElem he] at horder
    exact horder
  · exact hlinked.modify fun _ _ hx => ⟨hx, rfl⟩
  · rw [core_of_frame hframe]
    obtain ⟨p, hp, rfl⟩ := mem_updateEntry.mp he'
    have hfed : Fed (.dispatched e.seqnr :: s.log) _ p := (h.fed p hp).mono fun _ _ h => h
    split
    case isFalse => exact hfed
    case isTrue =>
      refine ⟨hfed.producers, fun hne => ?_, hfed.addressMax, hfed.address, hfed.pending, hfed.older⟩
      have hready : p.ready ≠ ⊤ := fun htop => hne (by simp [htop])
      exact ⟨(hfed.ready hready).1, (hfed.ready hready).2.trans (le_max_left _ _)⟩

theorem congr (h : Inv cfg base s) (hrob : s'.rob = s.rob)
    (hnum : s'.m_num_in_rob = s.m_num_in_rob) (hrs : s'.m_rs_entries_used = s.m_rs_entries_used)
    (hnext : s'.nextSequenceNumber = s.nextSequenceNumber) (hlog : s'.log = s.log) :
    Inv cfg base s' := by
  refine ⟨?_, ?_, ?_⟩
  · rw [hrob, hnum, hrs, hnext, hlog]
    exact h.order
  · rw [hrob]
    exact h.links
  · rw [hrob, hlog]
    exact h.fed

theorem dispatchLoop (h : Inv cfg base s) {width t t'}
    (hs' : Rob.dispatchLoop cfg width s t = .ok (s', t')) : Inv cfg base s' :=
  dispatchLoop_invariant (P := fun s _ => Inv cfg base s)
    (fun _ _ _ h => h.congr rfl rfl rfl rfl rfl) (fun _ _ h => h.congr rfl rfl rfl rfl rfl)
    (fun _ _ _ he hwindow hrs h => h.dispatch he hwindow hrs)
    (fun _ _ h => h.congr rfl rfl rfl rfl rfl) h hs'

theorem doDispatch (h : Inv cfg base s) {t} (hs' : Rob.doDispatch cfg s = .ok (s', t)) :
    Inv cfg base s' := by
  rw [Rob.doDispatch] at hs'
  split at hs'
  · obtain ⟨⟨s₁, t₁⟩, hloop, hs'⟩ := of_bind_ok hs'
    cases hs'
    exact h.dispatchLoop hloop
  · cases hs'
    exact h

end Inv
end Sniper.Timing.Rob
