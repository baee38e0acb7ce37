import Sniper.Timing.Dependencies
import Sniper.Timing.RobOrder

/-! # Readiness

A micro-op becomes ready when the last of its dependencies is removed, and its readiness is then
no earlier than the result of any producer: those that have issued before it enters are taken
into `readyMax` at once, and the others tell it through their dependants.
-/
namespace Sniper.Timing.Rob
open Lib.Simulation Function

variable {Reg K M : Type}

/-! ### Entries by number -/

def Unique (rob : List (RobEntry Reg)) : Prop :=
  ∀ p ∈ rob, ∀ p' ∈ rob, p.seqnr = p'.seqnr → p = p'

theorem findEntry_ok {rob x} {e : RobEntry Reg} (h : findEntryBySequenceNumber rob x = .ok e) :
    e ∈ rob ∧ e.seqnr = x := by
  rw [findEntryBySequenceNumber.eq_def] at h
  split at h
  case h_1 => cases h
  case h_2 =>
    split at h
    case isTrue => cases h
    case isFalse =>
      split at h
      case h_1 => cases h
      case h_2 entry hget =>
        split at h
        case isTrue heq =>
          cases h
          exact ⟨List.mem_of_getElem? hget, heq⟩
        case isFalse => cases h

theorem mem_updateEntry {rob : List (RobEntry Reg)} {x : Nat} {f : RobEntry Reg → RobEntry Reg}
    {e : RobEntry Reg} : e ∈ updateEntry rob x f ↔
      ∃ p ∈ rob, e = if p.seqnr = x then f p else p := by
  simp only [updateEntry, List.mem_map, eq_comm]

theorem Unique.modify {rob : List (RobEntry Reg)} (h : Unique rob) {x : Nat}
    {f : RobEntry Reg → RobEntry Reg} (hf : ∀ p ∈ rob, p.seqnr = x → (f p).seqnr = x) :
    Unique (updateEntry rob x f) := by
  have hseq : ∀ p ∈ rob, (if p.seqnr = x then f p else p).seqnr = p.seqnr := by
    intro p hp
    split
    case isTrue hx => rw [hf p hp hx, hx]
    case isFalse => rfl
  intro e he e' he' heq
  obtain ⟨p, hp, rfl⟩ := mem_updateEntry.mp he
  obtain ⟨p', hp', rfl⟩ := mem_updateEntry.mp he'
  rw [hseq p hp, hseq p' hp'] at heq
  rw [h p hp p' hp' heq]

theorem core_updateEntry {rob : List (RobEntry Reg)} {x f}
    (hf : ∀ p ∈ rob, p.seqnr = x → (f p).core = p.core) :
    (updateEntry rob x f).map RobEntry.core = rob.map RobEntry.core := by
  rw [updateEntry, List.map_map]
  refine List.map_congr_left fun p hp => ?_
  dsimp only [Function.comp]
  split
  case isTrue hx => exact hf p hp hx
  case isFalse => rfl

/-- The producers that are in the reorder buffer and have not issued. -/
def Unissued (cores : List (Core Reg)) (x : Nat) : Prop :=
  ∃ c ∈ cores, c.seqnr = x ∧ c.done = ⊤

instance (cores : List (Core Reg)) (x : Nat) : Decidable (Unissued cores x) :=
  inferInstanceAs (Decidable (∃ c ∈ cores, _))

theorem unissued_of_mem {rob : List (RobEntry Reg)} {p : RobEntry Reg} (hp : p ∈ rob)
    (hdone : p.done = ⊤) : Unissued (rob.map RobEntry.core) p.seqnr :=
  ⟨p.core, List.mem_map_of_mem hp, rfl, hdone⟩

theorem mem_of_unissued {rob : List (RobEntry Reg)} {x} (h : Unissued (rob.map RobEntry.core) x) :
    ∃ p ∈ rob, p.seqnr = x ∧ p.done = ⊤ := by
  obtain ⟨c, hc, hx, hdone⟩ := h
  obtain ⟨p, hp, rfl⟩ := List.mem_map.mp hc
  exact ⟨p, hp, hx, hdone⟩

/-! ### Dependencies and dependants -/

/-- The occurrences of a producer among the dependencies of an entry, and of the entry among
the dependants that the producer has still to tell, are as many. -/
structure Linked (rob : List (RobEntry Reg)) (owed : Nat → List Nat) : Prop where
  count : ∀ e ∈ rob, ∀ q, e.uop.getDependencies.count q = (owed q).count e.seqnr
  producer : ∀ q x, x ∈ owed q → ∃ p ∈ rob, p.seqnr = q
  dependant : ∀ q x, x ∈ owed q → ∃ e ∈ rob, e.seqnr = x
  younger : ∀ q x, x ∈ owed q → q < x

/-- Outside `issueInstruction` those that have not issued have still to tell their dependants. -/
def Owes (rob : List (RobEntry Reg)) (owed : Nat → List Nat) : Prop :=
  ∀ p ∈ rob, owed p.seqnr = if p.done = ⊤ then p.dependants else []

/-- What the readiness of an entry accounts for. -/
structure Fed (log : List (Event Reg)) (unissued : Nat → Prop) (e : RobEntry Reg) : Prop where
  producers : ∀ p ∈ e.producers, p ∈ e.uop.getDependencies ∨
    ∃ j ∈ issues log, j.seqnr = p ∧ (j.available : Time) ≤ e.readyMax
  ready : e.ready ≠ ⊤ → e.uop.getDependencies = [] ∧ e.readyMax ≤ e.ready
  addressMax : e.addressReadyMax ≤ e.readyMax
  address : e.uop.m_uop.isStore = true →
    e.addressReady = ⊤ ∧ e.uop.getDependencies ≠ [] ∨ e.addressReady ≤ e.readyMax
  pending : e.uop.m_uop.isStore = true →
    ∀ a ∈ e.addressProducers, unissued a → a ∈ e.uop.getDependencies
  older : ∀ a ∈ e.addressProducers, a < e.seqnr

theorem Fed.mono {log event unissued unissued'} {e : RobEntry Reg} (h : Fed log unissued e)
    (hmono : ∀ a ∈ e.addressProducers, unissued' a → unissued a) :
    Fed (event :: log) unissued' e := by
  refine ⟨fun p hp => (h.producers p hp).imp_right fun hj => ?_, h.ready, h.addressMax, h.address,
    fun hstore a ha hun => h.pending hstore a ha (hmono a ha hun), h.older⟩
  obtain ⟨j, hj, hseq⟩ := hj
  refine ⟨j, ?_, hseq⟩
  rw [issues, List.filterMap_cons]
  split
  · exact hj
  · exact List.mem_cons_of_mem _ hj

theorem Fed.available {log : List (Event Reg)} {unissued : Nat → Prop} {e : RobEntry Reg}
    (h : Fed log unissued e) {now : Nat} (hready : e.ready ≤ (now : Time)) :
    (∀ p ∈ e.producers, ∃ j ∈ issues log, j.seqnr = p ∧ j.available ≤ now) ∧
    (e.uop.m_uop.isStore = true → e.addressReady ≤ e.ready) ∧ e.uop.getDependencies = [] := by
  have hne : e.ready ≠ ⊤ := fun htop => time_ne_top now (top_le_iff.mp (htop ▸ hready))
  obtain ⟨hdeps, hmax⟩ := h.ready hne
  refine ⟨fun p hp => ?_, fun hstore => ?_, hdeps⟩
  · obtain ⟨j, hj, hseq, havailable⟩ :=
      (h.producers p hp).resolve_left (by rw [hdeps]; exact List.not_mem_nil)
    exact ⟨j, hj, hseq, time_le.mp (havailable.trans (hmax.trans hready))⟩
  · exact ((h.address hstore).resolve_left fun hpend => hpend.2 hdeps).trans hmax

/-! ### Telling the dependants -/

theorem addressPending_ok {rob : List (RobEntry Reg)} {producers}
    (h : addressPending rob producers = .ok true) :
    ∃ a ∈ producers, Unissued (rob.map RobEntry.core) a := by
  rw [addressPending.eq_def] at h
  split at h
  case h_1 => cases h
  case h_2 front rest =>
    have hfold : ∀ (l : List Nat) (pending : Bool),
        l.foldlM (fun pending addressProducer =>
          if addressProducer < front.seqnr then (.ok pending : Except Stop Bool)
          else do
            let prodEntry ← findEntryBySequenceNumber (front :: rest) addressProducer
            return pending || decide (prodEntry.done = ⊤)) pending = .ok true →
        pending = true ∨ ∃ a ∈ l, Unissued ((front :: rest).map RobEntry.core) a := by
      intro l
      induction l with
      | nil =>
        intro pending h
        exact .inl (Except.ok.inj h)
      | cons a l ih =>
        intro pending h
        rw [List.foldlM_cons] at h
        obtain ⟨pending', hstep, hrest⟩ := of_bind_ok h
        rcases ih pending' hrest with htrue | ⟨b, hb, hun⟩
        · split at hstep
          case isTrue =>
            cases hstep
            exact .inl htrue
          case isFalse =>
            obtain ⟨p, hfind, hp⟩ := of_bind_ok hstep
            cases hp
            obtain ⟨hmem, hseq⟩ := findEntry_ok hfind
            rcases Bool.or_eq_true_iff.mp htrue with hpend | hdone
            · exact .inl hpend
            · refine .inr ⟨a, List.mem_cons_self .., ?_⟩
              rw [← hseq]
              exact unissued_of_mem hmem (of_decide_eq_true hdone)
        · exact .inr ⟨b, List.mem_cons_of_mem _ hb, hun⟩
    exact (hfold producers false h).resolve_left Bool.false_ne_true

/-- What `resolve` does to the address of an entry. -/
structure Resolved (rob : List (RobEntry Reg)) (cycle_depend : Nat) (e e' : RobEntry Reg) :
    Prop where
  rest : e' =
    { e with addressReady := e'.addressReady, addressReadyMax := e'.addressReadyMax }
  addressMax : e'.addressReadyMax ≤ max e.addressReadyMax (cycle_depend : Time)
  address : e.uop.m_uop.isStore = true →
    e.addressReady ≠ ⊤ ∧ e'.addressReady = e.addressReady ∨
    e'.addressReady ≤ e'.addressReadyMax ∨
    e'.addressReady = ⊤ ∧ ∃ a ∈ e.addressProducers, Unissued (rob.map RobEntry.core) a

theorem resolve_ok {rob : List (RobEntry Reg)} {seqnr cycle_depend : Nat} {e e' : RobEntry Reg}
    (h : resolve rob seqnr cycle_depend e = .ok e') : Resolved rob cycle_depend e e' := by
  rw [resolve] at h
  split at h
  case isTrue =>
    obtain ⟨pending, hpending, h⟩ := of_bind_ok h
    cases h
    refine ⟨rfl, ?_, fun _ => .inr ?_⟩
    · dsimp only
      split
      · exact le_refl _
      · exact le_max_left _ _
    · cases pending with
      | true => exact .inr ⟨rfl, addressPending_ok hpending⟩
      | false => exact .inl (le_refl _)
  case isFalse hnot =>
    cases h
    exact ⟨rfl, le_max_left _ _, fun hstore => .inl ⟨fun htop => hnot ⟨hstore, htop⟩, rfl⟩⟩

/-- What a dependant learns from its producer. -/
structure Told (seqnr cycle_depend : Nat) (e e' : RobEntry Reg) : Prop where
  core : e'.core = e.core
  dependants : e'.dependants = e.dependants
  deps : e.uop.getDependencies.Perm (seqnr :: e'.uop.getDependencies)

theorem notify_ok {rob : List (RobEntry Reg)} {seqnr cycle_depend : Nat} {e e' : RobEntry Reg}
    {log : List (Event Reg)} (h : notify rob seqnr cycle_depend e = .ok e')
    (hissue : ∃ j ∈ issues log, j.seqnr = seqnr ∧ j.available = cycle_depend)
    (hissued : ¬ Unissued (rob.map RobEntry.core) seqnr)
    (hfed : Fed log (Unissued (rob.map RobEntry.core)) e) :
    Told seqnr cycle_depend e e' ∧ Fed log (Unissued (rob.map RobEntry.core)) e' := by
  rw [notify] at h
  split at h
  case isTrue => cases h
  case isFalse hne =>
    obtain ⟨uop, hremove, h⟩ := of_bind_ok h
    obtain ⟨hsame, hperm⟩ := DynamicMicroOp.removeDependency_ok hremove
    have hresolved := resolve_ok h
    have hrest := hresolved.rest
    have haddressMax := hresolved.addressMax
    have haddress := hresolved.address
    have huop : e'.uop = uop := by rw [hrest]
    have hmax : e'.readyMax = max e.readyMax (cycle_depend : Time) := by rw [hrest]
    have hproducers : e'.producers = e.producers := by rw [hrest]
    have haddressProducers : e'.addressProducers = e.addressProducers := by rw [hrest]
    have hready : e'.ready = if uop.getDependencies = [] then max e.readyMax (cycle_depend : Time)
        else e.ready := by rw [hrest]
    have hle : e'.addressReadyMax ≤ e'.readyMax := by
      rw [hmax]
      exact haddressMax.trans (max_le_max_right _ hfed.addressMax)
    -- the other dependencies stay
    have hstays : ∀ d ∈ e.uop.getDependencies, d = seqnr ∨ d ∈ uop.getDependencies :=
      fun d hd => List.mem_cons.mp (hperm.subset hd)
    have hpending : ∀ a ∈ e.addressProducers, e.uop.m_uop.isStore = true →
        Unissued (rob.map RobEntry.core) a → a ∈ uop.getDependencies := by
      intro a ha hstore hun
      refine (hstays a (hfed.pending hstore a ha hun)).resolve_left fun heq => ?_
      exact hissued (heq ▸ hun)
    refine ⟨⟨?_, by rw [hrest], by rw [huop]; exact hperm⟩, ⟨fun p hp => ?_, fun hnetop => ?_, hle,
      fun hstore => ?_, fun hstore a ha hun => ?_, fun a ha => ?_⟩⟩
    · rw [hrest]
      simp only [RobEntry.core, RobEntry.seqnr, hsame.m_uop, hsame.sequenceNumber]
    · rw [hproducers] at hp
      rw [huop, hmax]
      rcases hfed.producers p hp with hp | ⟨j, hj, hseq, havailable⟩
      · refine (hstays p hp).symm.imp_right fun heq => ?_
        obtain ⟨j, hj, hseq, havailable⟩ := hissue
        exact ⟨j, hj, hseq.trans heq.symm, havailable ▸ le_max_right _ _⟩
      · exact .inr ⟨j, hj, hseq, havailable.trans (le_max_left _ _)⟩
    · rw [hready] at hnetop ⊢
      rw [huop, hmax]
      split at hnetop
      case isTrue hnil => exact ⟨hnil, by rw [if_pos hnil]⟩
      case isFalse => exact absurd (hfed.ready hnetop).1 hne
    · rw [huop, hsame.m_uop] at hstore
      have hnil : e.addressReady ≠ ⊤ → e.addressReady ≤ e.readyMax :=
        fun hnetop => (hfed.address hstore).resolve_left fun h => hnetop h.1
      rcases haddress (by rw [hsame.m_uop]; exact hstore) with
        ⟨hnetop, heq⟩ | hmaxle | ⟨htop, a, ha, hun⟩
      · right
        rw [heq, hmax]
        exact (hnil hnetop).trans (le_max_left _ _)
      · exact .inr (hmaxle.trans hle)
      · left
        refine ⟨htop, fun hempty => ?_⟩
        have hmem := hpending a ha hstore hun
        rw [huop] at hempty
        rw [hempty] at hmem
        cases hmem
    · rw [huop, hsame.m_uop] at hstore
      rw [haddressProducers] at ha
      rw [huop]
      exact hpending a ha hstore hun
    · rw [haddressProducers] at ha
      have hseq : e'.seqnr = e.seqnr := by
        show e'.uop.sequenceNumber = e.uop.sequenceNumber
        rw [huop, hsame.sequenceNumber]
      rw [hseq]
      exact hfed.older a ha

/-! ### Issuing -/

theorem exists_updateEntry {rob : List (RobEntry Reg)} {x q : Nat}
    {f : RobEntry Reg → RobEntry Reg} (hf : ∀ p ∈ rob, p.seqnr = x → (f p).seqnr = x)
    (h : ∃ p ∈ rob, p.seqnr = q) : ∃ p ∈ updateEntry rob x f, p.seqnr = q := by
  obtain ⟨p, hp, hq⟩ := h
  refine ⟨_, mem_updateEntry.mpr ⟨p, hp, rfl⟩, ?_⟩
  split
  case isTrue hx => exact (hf p hp hx).trans (hx.symm.trans hq)
  case isFalse => exact hq

theorem Linked.modify {rob : List (RobEntry Reg)} {owed : Nat → List Nat}
    (h : Linked rob owed) {x : Nat} {f : RobEntry Reg → RobEntry Reg}
    (hf : ∀ p ∈ rob, p.seqnr = x →
      (f p).seqnr = x ∧ (f p).uop.getDependencies = p.uop.getDependencies) :
    Linked (updateEntry rob x f) owed := by
  have hseq : ∀ p ∈ rob, p.seqnr = x → (f p).seqnr = x := fun p hp hx => (hf p hp hx).1
  refine ⟨fun e he q => ?_, fun q y hy => exists_updateEntry hseq (h.producer q y hy),
    fun q y hy => exists_updateEntry hseq (h.dependant q y hy), h.younger⟩
  obtain ⟨p, hp, rfl⟩ := mem_updateEntry.mp he
  split
  case isTrue hx =>
    rw [(hf p hp hx).2, (hf p hp hx).1, ← hx]
    exact h.count p hp q
  case isFalse => exact h.count p hp q

/-- What telling the dependants does not change. -/
def RobEntry.frame (entry : RobEntry Reg) : Core Reg × List Nat := (entry.core, entry.dependants)

theorem core_of_frame {rob rob' : List (RobEntry Reg)}
    (h : rob'.map RobEntry.frame = rob.map RobEntry.frame) :
    rob'.map RobEntry.core = rob.map RobEntry.core := by
  have hfst := congrArg (List.map Prod.fst) h
  simpa only [List.map_map, RobEntry.frame, Function.comp_def] using hfst

theorem Owes.congr {rob rob' : List (RobEntry Reg)} {owed} (h : Owes rob owed)
    (hframe : rob'.map RobEntry.frame = rob.map RobEntry.frame) : Owes rob' owed := by
  intro p' hp'
  have hmem : p'.frame ∈ rob.map RobEntry.frame := hframe ▸ List.mem_map_of_mem hp'
  obtain ⟨p, hp, heq⟩ := List.mem_map.mp hmem
  have hseq : p.seqnr = p'.seqnr := congrArg (fun f => f.1.seqnr) heq
  have hdone : p.done = p'.done := congrArg (fun f => f.1.done) heq
  have hdependants : p.dependants = p'.dependants := congrArg Prod.snd heq
  rw [← hseq, ← hdone, ← hdependants]
  exact h p hp

theorem Linked.tell {rob owed seqnr x rest}
    (h : Linked rob (update owed seqnr (x :: rest))) (hunique : Unique rob) {cycle_depend}
    {e e' : RobEntry Reg} (he : e ∈ rob) (hx : e.seqnr = x) (htold : Told seqnr cycle_depend e e') :
    Linked (updateEntry rob x fun _ => e') (update owed seqnr rest) := by
  have hseq : e'.seqnr = x := (congrArg Core.seqnr htold.core).trans hx
  have hsub : ∀ q y, y ∈ update owed seqnr rest q →
      y ∈ update owed seqnr (x :: rest) q := by
    intro q y hy
    by_cases hq : q = seqnr
    · subst hq
      rw [update_self] at hy ⊢
      exact List.mem_cons_of_mem _ hy
    · rw [update_of_ne hq] at hy ⊢
      exact hy
  refine ⟨fun p' hp' q => ?_,
    fun q y hy => exists_updateEntry (fun _ _ _ => hseq) (h.producer q y (hsub q y hy)),
    fun q y hy => exists_updateEntry (fun _ _ _ => hseq) (h.dependant q y (hsub q y hy)),
    fun q y hy => h.younger q y (hsub q y hy)⟩
  obtain ⟨p, hp, rfl⟩ := mem_updateEntry.mp hp'
  have hcount := h.count p hp q
  split
  case isTrue hpx =>
    have hpe : p = e := hunique p hp e he (hpx.trans hx.symm)
    subst hpe
    have hdeps := htold.deps.count_eq q
    rw [hseq]
    rw [hpx, hdeps] at hcount
    by_cases hq : q = seqnr
    · subst hq
      rw [update_self, List.count_cons_self, List.count_cons_self] at hcount
      rw [update_self]
      omega
    · rw [update_of_ne hq, List.count_cons_of_ne (Ne.symm hq)] at hcount
      rw [update_of_ne hq]
      exact hcount
  case isFalse hpx =>
    rw [hcount]
    by_cases hq : q = seqnr
    · subst hq
      rw [update_self, update_self, List.count_cons_of_ne (Ne.symm hpx)]
    · rw [update_of_ne hq, update_of_ne hq]

theorem notifyAll_ok {rob rob' : List (RobEntry Reg)} {owed seqnr cycle_depend rest log}
    (h : notifyAll seqnr cycle_depend rest rob = .ok rob') (hunique : Unique rob)
    (hlinked : Linked rob (update owed seqnr rest))
    (hissue : ∃ j ∈ issues log, j.seqnr = seqnr ∧ j.available = cycle_depend)
    (hissued : ¬ Unissued (rob.map RobEntry.core) seqnr)
    (hfed : ∀ e ∈ rob, Fed log (Unissued (rob.map RobEntry.core)) e) :
    rob'.map RobEntry.frame = rob.map RobEntry.frame ∧
    Linked rob' (update owed seqnr []) ∧
    ∀ e ∈ rob', Fed log (Unissued (rob'.map RobEntry.core)) e := by
  induction rest generalizing rob with
  | nil =>
    cases h
    exact ⟨rfl, hlinked, hfed⟩
  | cons x rest ih =>
    rw [notifyAll] at h
    obtain ⟨e, hfind, h⟩ := of_bind_ok h
    obtain ⟨e', hnotify, h⟩ := of_bind_ok h
    obtain ⟨he, hx⟩ := findEntry_ok hfind
    obtain ⟨htold, hfed'⟩ := notify_ok hnotify hissue hissued (hfed e he)
    have hsame : ∀ p ∈ rob, p.seqnr = x → p = e :=
      fun p hp hpx => hunique p hp e he (hpx.trans hx.symm)
    have hframe : (updateEntry rob x fun _ => e').map RobEntry.frame = rob.map RobEntry.frame := by
      rw [updateEntry, List.map_map]
      refine List.map_congr_left fun p hp => ?_
      dsimp only [Function.comp]
      split
      case isTrue hpx =>
        rw [hsame p hp hpx]
        exact Prod.ext htold.core htold.dependants
      case isFalse => rfl
    have hcore := core_of_frame hframe
    obtain ⟨hframe', hlinked', hfed''⟩ := ih h
      (hunique.modify fun _ _ _ => (congrArg Core.seqnr htold.core).trans hx)
      (hlinked.tell hunique he hx htold) (by rw [hcore]; exact hissued) (by
        intro p' hp'
        rw [hcore]
        obtain ⟨p, hp, rfl⟩ := mem_updateEntry.mp hp'
        split
        · exact hfed'
        · exact hfed p hp)
    exact ⟨hframe'.trans hframe, hlinked', hfed''⟩

end Sniper.Timing.Rob
