import Sniper.Timing.RobBarriers
import Sniper.Timing.RobMoves

/-! # Ready times

What a micro-op in the reorder buffer knows of its producers: when it has heard of all of them,
its ready time is that of the latest of their results, and the address of a store is ready with
the latest of the results it is computed from.
-/
namespace Sniper.Timing.Rob
open Lib.Simulation DynamicMicroOp

variable {Reg K M : Type}

/-- When the result of a producer is available; `⊤` as long as it has not issued. -/
def availability (log : List (Event Reg)) (p : Nat) : Time :=
  match (issues log).find? fun j => j.seqnr = p with
  | some j => (j.available : Time)
  | none => ⊤

/-- The latest of the results of several producers. -/
def latest (log : List (Event Reg)) (sources : List Nat) : Time :=
  sources.toFinset.sup (availability log)

theorem availability_of_mem {log} (h : Disciplined log) {j : Issue Reg} (hj : j ∈ issues log) :
    availability log j.seqnr = (j.available : Time) := by
  have hfind : (issues log).find? (fun i => i.seqnr = j.seqnr) = some j := by
    induction log with
    | nil => cases hj
    | cons event log ih =>
      cases event with
      | issued i =>
        rcases List.mem_cons.mp hj with rfl | hj
        · exact List.find?_cons_of_pos (by simp)
        · -- a micro-op issues once
          have hne : i.seqnr ≠ j.seqnr := (h.1.2.2.1 j hj).symm
          exact (List.find?_cons_of_neg (by simpa using hne)).trans (ih h.2 hj)
      | entered | dispatched | committed => exact ih h.2 hj
  rw [availability, hfind]

theorem availability_of_not_issued {log : List (Event Reg)} {p : Nat}
    (h : ∀ j ∈ issues log, j.seqnr ≠ p) : availability log p = ⊤ := by
  have hfind : (issues log).find? (fun j => j.seqnr = p) = none :=
    List.find?_eq_none.mpr fun j hj => by simpa using h j hj
  rw [availability, hfind]

theorem availability_le_latest {log : List (Event Reg)} {sources : List Nat} {p : Nat}
    (hp : p ∈ sources) : availability log p ≤ latest log sources :=
  Finset.le_sup (List.mem_toFinset.mpr hp)

theorem latest_le {log : List (Event Reg)} {sources : List Nat} {t : Time}
    (h : ∀ p ∈ sources, availability log p ≤ t) : latest log sources ≤ t :=
  Finset.sup_le fun p hp => h p (List.mem_toFinset.mp hp)

/-- A producer has issued, and its result is available by a time. -/
def AvailableBy (log : List (Event Reg)) (t : Time) (p : Nat) : Prop :=
  ∃ j ∈ issues log, j.seqnr = p ∧ (j.available : Time) ≤ t

/-- No time before those of the results of producers that have issued. -/
def LeastOver (log : List (Event Reg)) (sources : List Nat) (t : Time) : Prop :=
  ∀ u : Time, (∀ j ∈ issues log, j.seqnr ∈ sources → (j.available : Time) ≤ u) → t ≤ u

theorem AvailableBy.le {log : List (Event Reg)} {t : Time} {p : Nat} (h : AvailableBy log t p)
    (hdisciplined : Disciplined log) : availability log p ≤ t := by
  obtain ⟨j, hj, rfl, hle⟩ := h
  rw [availability_of_mem hdisciplined hj]
  exact hle

theorem AvailableBy.mono {log : List (Event Reg)} {t t' : Time} {p : Nat} (h : AvailableBy log t p)
    (hle : t ≤ t') : AvailableBy log t' p := by
  obtain ⟨j, hj, hp, hjle⟩ := h
  exact ⟨j, hj, hp, hjle.trans hle⟩

theorem AvailableBy.cons {log t p} (h : AvailableBy log t p) (event : Event Reg) :
    AvailableBy (event :: log) t p := by
  obtain ⟨j, hj, hp, hle⟩ := h
  exact ⟨j, issues_mono hj, hp, hle⟩

theorem LeastOver.cons {log sources t} (h : LeastOver log sources t) (event : Event Reg) :
    LeastOver (event :: log) sources t :=
  fun u hu => h u fun j hj hmem => hu j (issues_mono hj) hmem

theorem LeastOver.max {log sources t} (h : LeastOver log sources t) {j : Issue Reg}
    (hj : j ∈ issues log) (hmem : j.seqnr ∈ sources) :
    LeastOver log sources (max t (j.available : Time)) :=
  fun u hu => max_le (h u hu) (hu j hj hmem)

theorem LeastOver.eq_latest {log : List (Event Reg)} {sources : List Nat} {t : Time}
    (h : LeastOver log sources t) (hdisciplined : Disciplined log)
    (hall : ∀ p ∈ sources, AvailableBy log t p) : t = latest log sources := by
  refine le_antisymm (h _ fun j hj hmem => ?_) (latest_le fun p hp => (hall p hp).le hdisciplined)
  rw [← availability_of_mem hdisciplined hj]
  exact availability_le_latest hmem

theorem latest_eq_top {log : List (Event Reg)} {sources : List Nat} {p : Nat} (hp : p ∈ sources)
    (h : ∀ j ∈ issues log, j.seqnr ≠ p) : latest log sources = ⊤ :=
  top_le_iff.mp ((availability_of_not_issued h).symm.le.trans (availability_le_latest hp))

/-! ### Consumers -/

/-- What is recorded of a micro-op that enters: its dependencies, without the store that is
forwarded, and what it gets for that store and for its address. -/
structure Consumer where
  seqnr : Nat
  dependencies : List Nat
  forwarded : List Nat
  addressSources : List Nat
  early : List Nat

namespace Consumer

def sources (c : Consumer) : List Nat := c.dependencies ++ c.forwarded

end Consumer

/-- The times of an entry are those of the latest results; when the micro-op has been dispatched
it is not ready before the next cycle. -/
structure Timed (log : List (Event Reg)) (c : Consumer) (e : RobEntry Reg) : Prop where
  ready : e.ready = latest log c.sources ∨
    e.seqnr ∈ dispatches log ∧ ∃ period, 0 < period ∧
      e.ready = max (latest log c.sources) ((e.dispatched + period : Nat) : Time)
  address : e.uop.m_uop.isStore = true → e.addressReady = latest log c.addressSources

/-- What an entry has gathered for the address of its store. -/
structure AddressGathered (log : List (Event Reg)) (c : Consumer) (e : RobEntry Reg) : Prop where
  sources : ∀ a ∈ c.addressSources, a ∈ c.sources
  producers : ∀ a ∈ e.addressProducers, a ∈ c.addressSources
  told : ∀ a ∈ c.addressSources, a ∈ e.uop.getDependencies ∧ a ∈ e.addressProducers ∨
    AvailableBy log e.addressReadyMax a
  least : LeastOver log c.addressSources e.addressReadyMax
  address : e.addressReady = ⊤ ∧ (∃ a ∈ c.addressSources, a ∈ e.uop.getDependencies) ∨
    e.addressReady = e.addressReadyMax ∧ ∀ a ∈ c.addressSources, AvailableBy log e.addressReadyMax a

/-- What an entry has gathered of its producers. -/
structure Gathered (log : List (Event Reg)) (c : Consumer) (e : RobEntry Reg) : Prop where
  producers : ∀ p, p ∈ c.sources ↔ p ∈ e.producers
  least : LeastOver log c.sources e.readyMax
  waiting : e.uop.getDependencies ≠ [] → e.ready = ⊤
  ready : e.uop.getDependencies = [] → e.ready = e.readyMax ∨
    e.seqnr ∈ dispatches log ∧ ∃ period, 0 < period ∧
      e.ready = max e.readyMax ((e.dispatched + period : Nat) : Time)
  address : e.uop.m_uop.isStore = true → AddressGathered log c e

theorem dispatches_mono {event : Event Reg} {log : List (Event Reg)} {x : Nat}
    (h : x ∈ dispatches log) : x ∈ dispatches (event :: log) := by
  cases event with
  | dispatched => exact List.mem_cons_of_mem _ h
  | entered | issued | committed => exact h

theorem AddressGathered.cons {log c e} (h : AddressGathered log c e) (event : Event Reg) :
    AddressGathered (event :: log) c e :=
  ⟨h.sources, h.producers, fun a ha => (h.told a ha).imp_right fun hby => hby.cons event,
    h.least.cons event, h.address.imp_right fun hready =>
      ⟨hready.1, fun a ha => (hready.2 a ha).cons event⟩⟩

theorem Gathered.cons {log : List (Event Reg)} {c : Consumer} {e : RobEntry Reg}
    (h : Gathered log c e) (event : Event Reg) : Gathered (event :: log) c e :=
  ⟨h.producers, h.least.cons event, h.waiting,
    fun hnil => (h.ready hnil).imp_right fun hlater => ⟨dispatches_mono hlater.1, hlater.2⟩,
    fun hstore => (h.address hstore).cons event⟩

/-- What has been gathered is right, since no producer that is still waited for has issued. -/
theorem Gathered.timed {log : List (Event Reg)} {c : Consumer} {e : RobEntry Reg}
    {unissued : Nat → Prop} (h : Gathered log c e) (hdisciplined : Disciplined log)
    (hfed : Fed log unissued e)
    (hwaits : ∀ p ∈ e.uop.getDependencies, ∀ j ∈ issues log, j.seqnr ≠ p)
    (honly : ∀ p ∈ e.uop.getDependencies, p ∈ e.producers) : Timed log c e := by
  constructor
  · by_cases hnil : e.uop.getDependencies = []
    · have hmax : e.readyMax = latest log c.sources := by
        refine h.least.eq_latest hdisciplined fun p hp => ?_
        refine (hfed.producers p ((h.producers p).mp hp)).resolve_left ?_
        rw [hnil]
        exact List.not_mem_nil
      rw [← hmax]
      exact h.ready hnil
    · obtain ⟨p, hp⟩ := List.exists_mem_of_ne_nil _ hnil
      left
      rw [h.waiting hnil, latest_eq_top ((h.producers p).mpr (honly p hp)) (hwaits p hp)]
  · intro hstore
    have haddress := h.address hstore
    rcases haddress.address with ⟨htop, a, ha, hdep⟩ | ⟨heq, hall⟩
    · rw [htop, latest_eq_top ha (hwaits a hdep)]
    · rw [heq]
      exact haddress.least.eq_latest hdisciplined hall

/-! ### Hearing of a producer -/

theorem addressPending_false {rob : List (RobEntry Reg)} {producers}
    (h : addressPending rob producers = .ok false) (hunique : Unique rob) {a} (ha : a ∈ producers)
    (hun : Unissued (rob.map RobEntry.core) a) (hfirst : ∀ front ∈ rob.head?, front.seqnr ≤ a) :
    False := by
  rw [addressPending.eq_def] at h
  split at h
  case h_1 => cases h
  case h_2 front rest =>
    have hle : front.seqnr ≤ a := hfirst front rfl
    have hfold : ∀ (l : List Nat) (pending : Bool),
        l.foldlM (fun pending addressProducer =>
          if addressProducer < front.seqnr then (.ok pending : Except Stop Bool)
          else do
            let prodEntry ← findEntryBySequenceNumber (front :: rest) addressProducer
            return pending || decide (prodEntry.done = ⊤)) pending = .ok false →
        pending = false ∧ a ∉ l := by
      intro l
      induction l with
      | nil =>
        intro pending h
        exact ⟨Except.ok.inj h, List.not_mem_nil⟩
      | cons b l ih =>
        intro pending h
        rw [List.foldlM_cons] at h
        obtain ⟨pending', hstep, hrest⟩ := of_bind_ok h
        obtain ⟨rfl, hnot⟩ := ih pending' hrest
        split at hstep
        case isTrue hlt =>
          have hne : a ≠ b := by omega
          exact ⟨Except.ok.inj hstep, fun hmem => hnot (List.mem_of_ne_of_mem hne hmem)⟩
        case isFalse =>
          obtain ⟨p, hfind, hp⟩ := of_bind_ok hstep
          obtain ⟨hmem, hseq⟩ := findEntry_ok hfind
          obtain ⟨hpending, hdone⟩ := Bool.or_eq_false_iff.mp (Except.ok.inj hp)
          refine ⟨hpending, fun hmem' => ?_⟩
          rcases List.mem_cons.mp hmem' with rfl | hmem'
          · obtain ⟨q, hq, hqa, hqdone⟩ := mem_of_unissued hun
            obtain rfl := hunique q hq p hmem (hqa.trans hseq.symm)
            exact of_decide_eq_false hdone hqdone
          · exact hnot hmem'
    exact (hfold producers false h).2 ha

/-- What holds while a producer tells its dependants. -/
structure Telling (rob : List (RobEntry Reg)) (log : List (Event Reg)) (issue : Issue Reg) :
    Prop where
  unique : Unique rob
  mem : issue ∈ issues log
  issued : ∀ j ∈ issues log, ¬ Unissued (rob.map RobEntry.core) j.seqnr
  first : ∀ a, Unissued (rob.map RobEntry.core) a → ∀ front ∈ rob.head?, front.seqnr ≤ a

theorem AddressGathered.resolve {rob : List (RobEntry Reg)} {log} {issue : Issue Reg} {c}
    {e e₁ e' : RobEntry Reg} (h : AddressGathered log c e) (htelling : Telling rob log issue)
    (hs : Rob.resolve rob issue.seqnr issue.available e₁ = .ok e')
    (hstore : e.uop.m_uop.isStore = true) (hm_uop : e₁.uop.m_uop = e.uop.m_uop)
    (hdeps : e.uop.getDependencies.Perm (issue.seqnr :: e₁.uop.getDependencies))
    (hpend : ∀ p ∈ e.uop.getDependencies, p = issue.seqnr ∨ Unissued (rob.map RobEntry.core) p)
    (haddressProducers : e₁.addressProducers = e.addressProducers)
    (haddressReady : e₁.addressReady = e.addressReady)
    (haddressReadyMax : e₁.addressReadyMax = e.addressReadyMax) : AddressGathered log c e' := by
  have hstays : ∀ d ∈ e.uop.getDependencies, d = issue.seqnr ∨ d ∈ e₁.uop.getDependencies :=
    fun d hd => List.mem_cons.mp (hdeps.subset hd)
  rw [Rob.resolve] at hs
  split at hs
  case isTrue =>
    obtain ⟨pending, hpending, hs⟩ := of_bind_ok hs
    rw [haddressProducers] at hpending
    rw [haddressProducers, haddressReadyMax] at hs
    generalize hmax : (if issue.seqnr ∈ e.addressProducers then
      max e.addressReadyMax (issue.available : Time) else e.addressReadyMax) = addressReadyMax at hs
    have hle : e.addressReadyMax ≤ addressReadyMax := by
      rw [← hmax]
      split
      · exact le_max_left _ _
      · exact le_refl _
    have htold : ∀ a ∈ c.addressSources,
        a ∈ e₁.uop.getDependencies ∧ a ∈ e.addressProducers ∧
          Unissued (rob.map RobEntry.core) a ∨ AvailableBy log addressReadyMax a := by
      intro a ha
      rcases h.told a ha with ⟨hdep, hproducer⟩ | hby
      · by_cases hself : a = issue.seqnr
        · right
          subst hself
          rw [if_pos hproducer] at hmax
          exact ⟨issue, htelling.mem, rfl, hmax ▸ le_max_right _ _⟩
        · exact .inl ⟨(hstays a hdep).resolve_left hself, hproducer,
            (hpend a hdep).resolve_left hself⟩
      · exact .inr (hby.mono hle)
    cases hs
    refine ⟨h.sources, h.producers, fun a ha => ?_, ?_, ?_⟩
    · exact (htold a ha).imp_left fun hdep => ⟨hdep.1, hdep.2.1⟩
    · dsimp only
      rw [← hmax]
      split
      case isTrue hmem => exact h.least.max htelling.mem (h.producers _ hmem)
      case isFalse => exact h.least
    · cases pending with
      | true =>
        obtain ⟨a, ha, hun⟩ := addressPending_ok hpending
        have hsource := h.producers a ha
        refine .inl ⟨rfl, a, hsource, ?_⟩
        refine ((htold a hsource).resolve_right fun hby => ?_).1
        obtain ⟨j, hj, rfl, -⟩ := hby
        exact htelling.issued j hj hun
      | false =>
        refine .inr ⟨rfl, fun a ha => (htold a ha).resolve_left fun hdep => ?_⟩
        exact addressPending_false hpending htelling.unique hdep.2.1 hdep.2.2
          (htelling.first a hdep.2.2)
  case isFalse hnot =>
    cases hs
    have hne : e.addressReady ≠ ⊤ :=
      fun htop => hnot ⟨hm_uop ▸ hstore, haddressReady.trans htop⟩
    obtain ⟨heq, hall⟩ := h.address.resolve_left fun htop => hne htop.1
    have hall' : ∀ a ∈ c.addressSources, AvailableBy log e₁.addressReadyMax a :=
      fun a ha => haddressReadyMax ▸ hall a ha
    exact ⟨h.sources, fun a ha => h.producers a (haddressProducers ▸ ha),
      fun a ha => .inr (hall' a ha), haddressReadyMax ▸ h.least,
      .inr ⟨(haddressReady.trans heq).trans haddressReadyMax.symm, hall'⟩⟩

theorem Gathered.notify {rob : List (RobEntry Reg)} {log} {issue : Issue Reg} {c}
    {e e' : RobEntry Reg} (h : Gathered log c e) (htelling : Telling rob log issue)
    (honly : ∀ p ∈ e.uop.getDependencies, p ∈ e.producers)
    (hpend : ∀ p ∈ e.uop.getDependencies, p = issue.seqnr ∨ Unissued (rob.map RobEntry.core) p)
    (hs : Rob.notify rob issue.seqnr issue.available e = .ok e') : Gathered log c e' := by
  rw [Rob.notify] at hs
  split at hs
  case isTrue => cases hs
  case isFalse hne =>
    obtain ⟨uop, hremove, hs⟩ := of_bind_ok hs
    obtain ⟨hsame, hperm⟩ := removeDependency_ok hremove
    have hrest := (resolve_ok hs).rest
    have huop : e'.uop = uop := by rw [hrest]
    have hproducers : e'.producers = e.producers := by rw [hrest]
    have hmax : e'.readyMax = max e.readyMax (issue.available : Time) := by rw [hrest]
    have hready : e'.ready = if uop.getDependencies = [] then
        max e.readyMax (issue.available : Time) else e.ready := by rw [hrest]
    have hsource : issue.seqnr ∈ c.sources :=
      (h.producers _).mpr (honly _ (hperm.symm.subset (List.mem_cons_self ..)))
    refine ⟨fun p => by rw [hproducers]; exact h.producers p, ?_, fun hne' => ?_, fun hnil => ?_,
      fun hstore => ?_⟩
    · rw [hmax]
      exact h.least.max htelling.mem hsource
    · rw [huop] at hne'
      rw [hready, if_neg hne']
      exact h.waiting hne
    · rw [huop] at hnil
      left
      rw [hready, if_pos hnil, hmax]
    · rw [huop, hsame.m_uop] at hstore
      exact (h.address hstore).resolve htelling hs hstore hsame.m_uop hperm hpend rfl rfl rfl

theorem notify_frame {rob x cycle_depend} {e e' : RobEntry Reg}
    (h : notify rob x cycle_depend e = .ok e') : e'.frame = e.frame ∧
      e'.producers = e.producers ∧ ∀ p ∈ e'.uop.getDependencies, p ∈ e.uop.getDependencies := by
  rw [notify] at h
  split at h
  case isTrue => cases h
  case isFalse =>
    obtain ⟨uop, hremove, h⟩ := of_bind_ok h
    obtain ⟨hsame, hperm⟩ := removeDependency_ok hremove
    have hrest := (resolve_ok h).rest
    refine ⟨?_, by rw [hrest], fun p hp => ?_⟩
    · rw [hrest]
      simp only [RobEntry.frame, RobEntry.core, RobEntry.seqnr, hsame.m_uop, hsame.sequenceNumber]
    · rw [hrest] at hp
      exact hperm.symm.subset (List.mem_cons_of_mem _ hp)

theorem notifyAll_forall {rob rob' : List (RobEntry Reg)} {x cycle_depend : Nat} {rest : List Nat}
    {Q : RobEntry Reg → Prop} (h : notifyAll x cycle_depend rest rob = .ok rob')
    (hunique : Unique rob) (hQ : ∀ e ∈ rob, Q e)
    (hnotify : ∀ rob₁ e e', Unique rob₁ → rob₁.map RobEntry.frame = rob.map RobEntry.frame →
      Q e → notify rob₁ x cycle_depend e = .ok e' → Q e') :
    rob'.map RobEntry.frame = rob.map RobEntry.frame ∧ ∀ e ∈ rob', Q e := by
  induction rest generalizing rob with
  | nil =>
    cases h
    exact ⟨rfl, hQ⟩
  | cons y rest ih =>
    rw [notifyAll] at h
    obtain ⟨e, hfind, h⟩ := of_bind_ok h
    obtain ⟨e', htold, h⟩ := of_bind_ok h
    obtain ⟨he, hy⟩ := findEntry_ok hfind
    obtain ⟨hframe, -, -⟩ := notify_frame htold
    have hsame : (updateEntry rob y fun _ => e').map RobEntry.frame = rob.map RobEntry.frame := by
      rw [updateEntry, List.map_map]
      refine List.map_congr_left fun p hp => ?_
      dsimp only [Function.comp]
      split
      case isTrue hpy =>
        rw [hframe, hunique p hp e he (hpy.trans hy.symm)]
      case isFalse => rfl
    obtain ⟨hframes, hall⟩ := ih h
      (hunique.modify fun _ _ _ => (congrArg (fun f => f.1.seqnr) hframe).trans hy)
      (fun p' hp' => by
        obtain ⟨p, hp, rfl⟩ := mem_updateEntry.mp hp'
        split
        · exact hnotify rob e e' hunique rfl (hQ e he) htold
        · exact hQ p hp)
      (fun rob₁ p p' hunique₁ hframe₁ => hnotify rob₁ p p' hunique₁ (hframe₁.trans hsame))
    exact ⟨hframes.trans hsame, hall⟩

end Sniper.Timing.Rob
