import Sniper.Timing.RobFencing
import Sniper.Timing.StoreForwarding

/-! # Forwarding on an SMT core

Each hardware thread keeps the invariant of `RobTimer` on its view of the core, but for the bounds
of the window and of the reservation stations, which are not its own; what another thread does
changes nothing that this is about.
-/
namespace Sniper.Timing.Rob
open Lib.Simulation Function

variable {n : Nat} {Reg K M : Type}

/-! ### Dependencies -/

theorem linkValid_ok {lowest x : Nat} {deps : List Nat} {rob rob' : List (RobEntry Reg)}
    {dtr dtr' : List Nat} {t t' : Time}
    (h : linkValid lowest x deps rob dtr t = .ok (rob', dtr', t')) :
    link x (deps.filter (lowest ≤ ·)) rob (dtr.filter (lowest ≤ ·)) t =
      .ok (rob', dtr'.filter (lowest ≤ ·), t') ∧
    dtr'.filter (· < lowest) = dtr.filter (· < lowest) ++ deps.filter (· < lowest) := by
  induction deps generalizing rob dtr t with
  | nil =>
    cases h
    exact ⟨rfl, (List.append_nil _).symm⟩
  | cons d deps ih =>
    rw [linkValid] at h
    split at h
    case isTrue hlt =>
      split at h
      case isTrue =>
        obtain ⟨hlink, hold⟩ := ih h
        have hnot : ¬ lowest ≤ d := Nat.not_le.mpr hlt
        rw [List.filter_append, List.filter_cons_of_neg (by simpa using hnot)] at hlink
        rw [List.filter_cons_of_neg (by simpa using hnot)]
        rw [List.filter_append, List.filter_cons_of_pos (by simpa using hlt)] at hold
        rw [List.filter_cons_of_pos (by simpa using hlt), hold, List.append_assoc]
        exact ⟨by simpa using hlink, rfl⟩
      case isFalse => cases h
    case isFalse hle =>
      have hle : lowest ≤ d := Nat.not_lt.mp hle
      obtain ⟨p, hfind, h⟩ := of_bind_ok h
      rw [List.filter_cons_of_pos (by simpa using hle),
        List.filter_cons_of_neg (by simpa using hle), link]
      split at h
      case isTrue hdone =>
        obtain ⟨hlink, hold⟩ := ih h
        exact ⟨bind_eq_of_ok hfind (by rw [if_pos hdone]; exact hlink), hold⟩
      case isFalse hdone =>
        split at h
        case isTrue hlength =>
          obtain ⟨hlink, hold⟩ := ih h
          rw [List.filter_append, List.filter_cons_of_pos (by simpa using hle),
            List.filter_nil] at hlink
          rw [List.filter_append, List.filter_cons_of_neg (by simpa using hle), List.filter_nil,
            List.append_nil] at hold
          have hshort : (dtr.filter (lowest ≤ ·)).length < 8 :=
            Nat.lt_of_le_of_lt (List.length_filter_le ..) hlength
          exact ⟨bind_eq_of_ok hfind (by rw [if_neg hdone, if_pos hshort]; exact hlink), hold⟩
        case isFalse => cases h

theorem count_valid {deps deps' dtr : List Nat} {lowest pending} [DecidablePred pending]
    (hperm : deps.Perm (dtr ++ deps')) (hnew : dtr.filter (lowest ≤ ·) =
      (deps.filter (lowest ≤ ·)).filter fun d => !decide (pending d))
    (hold : dtr.filter (· < lowest) = deps.filter (· < lowest)) (hlow : ∀ q, pending q → lowest ≤ q)
    (q : Nat) :
    deps'.count q = if pending q then (deps.filter (lowest ≤ ·)).count q else 0 := by
  have hcount := hperm.count_eq q
  rw [List.count_append] at hcount
  by_cases hq : lowest ≤ q
  · have hdtr : dtr.count q = (dtr.filter (lowest ≤ ·)).count q :=
      (List.count_filter (by simpa using hq)).symm
    have hdeps : (deps.filter (lowest ≤ ·)).count q = deps.count q :=
      List.count_filter (by simpa using hq)
    rw [hnew] at hdtr
    rw [hdeps]
    split
    case isTrue hpending =>
      have hzero : ((deps.filter (lowest ≤ ·)).filter fun d => !decide (pending d)).count q = 0 :=
        List.count_eq_zero.mpr fun hmem => by simp [hpending] at hmem
      omega
    case isFalse hpending =>
      rw [List.count_filter (by simpa using hpending), hdeps] at hdtr
      omega
  · rw [if_neg fun hpending => hq (hlow q hpending)]
    have hlt : q < lowest := Nat.not_le.mp hq
    have hdtr : dtr.count q = (dtr.filter (· < lowest)).count q :=
      (List.count_filter (by simpa using hlt)).symm
    have hdeps : (deps.filter (· < lowest)).count q = deps.count q :=
      List.count_filter (by simpa using hlt)
    rw [hold] at hdtr
    omega

theorem Inv.lowest {cfg base} {s : RobTimer Reg K M} (h : Inv cfg base s) (e : RobEntry Reg) :
    ∀ p ∈ s.rob, (s.rob.headD e).seqnr ≤ p.seqnr := by
  intro p hp
  obtain ⟨i, hi, rfl⟩ := List.mem_iff_getElem.mp hp
  have hseq := h.seqnr_of_getElem (List.getElem?_eq_getElem hi)
  obtain ⟨front, hfront⟩ : ∃ front, s.rob[0]? = some front :=
    ⟨_, List.getElem?_eq_getElem (Nat.zero_lt_of_lt hi)⟩
  have hhead : s.rob.headD e = front := by
    rw [List.headD_eq_head?_getD, List.head?_eq_getElem?, hfront]
    rfl
  have hseq₀ := h.seqnr_of_getElem hfront
  rw [hhead]
  omega

theorem Inv.depends {cfg base} {s : RobTimer Reg K M} (h : Inv cfg base s) {e : RobEntry Reg}
    (he : e ∈ s.rob) {d} (hd : d ∈ e.uop.getDependencies) : ∃ p ∈ s.rob, p.seqnr = d := by
  obtain ⟨owed, hlinked, -⟩ := h.links
  have hpos := List.count_pos_iff.mpr hd
  rw [hlinked.count e he d] at hpos
  exact hlinked.producer d _ (List.count_pos_iff.mp hpos)

/-- What a hardware thread and its next micro-op are after `setDependencies`: the micro-op can
enter. -/
structure Entering (cfg : Config Reg K M) (base rs : Nat) (v v' : RobTimer Reg K M)
    (e : RobEntry Reg) : Prop where
  rest : v' = { v with
    rob := v'.rob
    registerDependencies := v'.registerDependencies
    memoryDependencies := v'.memoryDependencies }
  seqnr : e.seqnr = v.nextSequenceNumber
  inv : Inv cfg base { v' with
    m_rs_entries_used := rs
    rob := v'.rob ++ [e]
    nextSequenceNumber := v.nextSequenceNumber + 1
    log := .entered v.nextSequenceNumber e.uop.m_uop e.producers :: v.log }

theorem setDependencies_ok [DecidableEq Reg] {cfg cfg' : Config Reg K M} {base rs : Nat}
    {v v' : RobTimer Reg K M}
    {e e' : RobEntry Reg} (h : Inv cfg' base { v with m_rs_entries_used := rs })
    (he : e = RobEntry.init e.uop v.nextSequenceNumber) (hdecoded : e.uop.m_uop.Decoded cfg.decoder)
    (hs : setDependencies cfg v e = .ok (v', e')) :
    Entering cfg' base rs v v' e' ∧ ∀ f ∈ Forward.of cfg v e.uop,
      f.load = v.nextSequenceNumber ∧ f.time = v.now ∧ ∀ p ∈ f.remaining, p ∈ e'.producers := by
  obtain ⟨e₁, haddr, hs⟩ := of_bind_ok hs
  obtain ⟨⟨registers, uop₁⟩, hreg, hs⟩ := of_bind_ok hs
  obtain ⟨⟨memory, uop₂⟩, hmem, hs⟩ := of_bind_ok hs
  obtain ⟨uop₃, hforward, hs⟩ := of_bind_ok hs
  obtain ⟨⟨rob, dtr, readyMax⟩, hlink, hs⟩ := of_bind_ok hs
  obtain ⟨uop₄, hremove, hs⟩ := of_bind_ok hs
  cases hs
  have hseq : e.uop.sequenceNumber = v.nextSequenceNumber := by rw [he]; rfl
  have hlow := h.lowest e
  dsimp only at hlow
  have hlowest : (v.rob.headD (RobEntry.init e.uop e.uop.sequenceNumber)).seqnr =
      (v.rob.headD e).seqnr := by
    rw [hseq, ← he]
  generalize (v.rob.headD e).seqnr = lowest at *
  have haddr' : setAddress cfg.decoder v.registerDependencies v.rob lowest
      (RobEntry.init e.uop v.nextSequenceNumber) = .ok e₁ := by
    rw [← he]
    exact haddr
  have huop : e₁.uop = e.uop := by
    rw [(setAddress_ok haddr' rfl rfl rfl).1, ← he]
  have hseq₁ : e₁.seqnr = v.nextSequenceNumber := by rw [RobEntry.seqnr, huop, hseq]
  rw [hseq₁] at hlink
  obtain ⟨hlink, hold⟩ := linkValid_ok hlink
  obtain ⟨hrob, hdtr, hknown, -, hissued⟩ := link_ok hlink h.unique
  obtain ⟨hsame₄, hperm⟩ := removeDependencies_ok hremove
  subst hrob
  have hun : ∀ q, Unissued (v.rob.map RobEntry.core) q → lowest ≤ q := by
    intro q hq
    obtain ⟨p, hp, rfl, -⟩ := mem_of_unissued hq
    exact hlow p hp
  have hcount := count_valid hperm hdtr hold hun
  have hinv := h.enterLinked hdecoded haddr' hreg hmem hforward hsame₄
    (fun p hp hd => List.mem_filter.mpr ⟨hd, by simpa using hlow p hp⟩) hknown hcount hissued
  refine ⟨⟨rfl, ?_, ⟨hinv.order, hinv.links, hinv.fed⟩⟩, fun f hf => ?_⟩
  · have hlast := hinv.seqnr_of_getElem List.getElem?_concat_length
    have htotal := h.order.total
    rw [List.length_map] at hlast
    rw [List.length_map] at htotal
    exact hlast.trans htotal.symm
  · rw [huop] at hreg
    obtain ⟨hload, htime, hsub, store, hstore, hremaining⟩ :=
      Forward.of_mem hf hlowest hreg hmem hforward
    refine ⟨hload.trans hseq, htime, fun p hp => List.mem_filter.mpr ⟨hsub p hp, ?_⟩⟩
    obtain ⟨q, hq, rfl⟩ := h.depends hstore (hremaining ▸ hp)
    simpa using hlow q hq

/-! ### The view of a thread -/

/-- The invariant of `RobTimer`, whatever the bounds of the window and the reservation
stations, and whoever else uses these. -/
def Loose (v : RobTimer Reg K M) : Prop :=
  ∃ (cfg : Config Reg K M) (base rs : Nat), Inv cfg base { v with m_rs_entries_used := rs }

theorem Inv.relax {cfg base s} (h : Inv cfg base s) (cfg' : Config Reg K M)
    (hwindow : cfg.windowSize ≤ cfg'.windowSize) (hrs : cfg.rsEntries ≤ cfg'.rsEntries) :
    Inv cfg' base s :=
  ⟨{ h.order with
      window := h.order.window.trans hwindow
      rs_fits := h.order.rs_fits.trans hrs }, h.links, h.fed⟩

namespace Loose
variable {v v' : RobTimer Reg K M}

theorem congr (h : Loose v) (hrob : v'.rob = v.rob) (hnum : v'.m_num_in_rob = v.m_num_in_rob)
    (hnext : v'.nextSequenceNumber = v.nextSequenceNumber) (hlog : v'.log = v.log) : Loose v' := by
  obtain ⟨cfg, base, rs, hinv⟩ := h
  exact ⟨cfg, base, rs, hinv.congr hrob hnum rfl hnext hlog⟩

theorem disciplined (h : Loose v) : Disciplined v.log := by
  obtain ⟨cfg, base, rs, hinv⟩ := h
  exact hinv.order.disciplined

theorem length_entered (h : Loose v) : (entered v.log).length = v.nextSequenceNumber := by
  obtain ⟨cfg, base, rs, hinv⟩ := h
  exact hinv.order.length_entered

theorem issueLoop {cfg} (h : Loose v) {count i} (hi : i + count ≤ v.m_num_in_rob) {scan t}
    (hs : Rob.issueLoop cfg count i v scan = .ok (v', t)) :
    Loose v' ∧ v'.rob.length = v.rob.length ∧ v'.m_num_in_rob = v.m_num_in_rob ∧
      v'.nextSequenceNumber = v.nextSequenceNumber := by
  obtain ⟨cfg', base, rs, h⟩ := h
  suffices hinv : (∃ rs, Inv cfg' base { v' with m_rs_entries_used := rs }) ∧
      v'.m_num_in_rob = v.m_num_in_rob ∧ v'.nextSequenceNumber = v.nextSequenceNumber by
    obtain ⟨⟨rs', h'⟩, hnum, hnext⟩ := hinv
    refine ⟨⟨cfg', base, rs', h'⟩, ?_, hnum, hnext⟩
    have htotal := h.order.total
    have htotal' := h'.order.total
    rw [List.length_map] at htotal htotal'
    dsimp only at htotal htotal'
    omega
  induction count generalizing i v scan rs with
  | zero =>
    cases hs
    exact ⟨⟨rs, h⟩, rfl, rfl⟩
  | succ count ih =>
    have hlt : i < v.rob.length := by
      have hfits := h.order.fits
      rw [List.length_map] at hfits
      dsimp only at hfits
      omega
    obtain ⟨e, he⟩ : ∃ e, v.rob[i]? = some e := ⟨_, List.getElem?_eq_getElem hlt⟩
    obtain ⟨-, heq⟩ | ⟨-, v₁, t₁, hv₁, heq⟩ | ⟨-, v₁, scan₁, hv₁, -, heq⟩ |
      ⟨hdone, hready, -, -, v₁, t₁, k, hv₁, heq, hk⟩ := issueLoop_succ cfg count scan he
    · exact ih (by omega) (heq ▸ hs) rs h
    · obtain ⟨k, rfl⟩ := hv₁
      rw [heq] at hs
      cases hs
      exact ⟨⟨rs, h.congr rfl rfl rfl rfl rfl⟩, rfl, rfl⟩
    · obtain ⟨k, rfl⟩ := hv₁
      have h₁ : Inv cfg' base { v with contention := k, m_rs_entries_used := rs } :=
        h.congr rfl rfl rfl rfl rfl
      rw [heq] at hs
      exact ih (v := { v with contention := k }) (by dsimp only; omega) hs rs h₁
    · obtain ⟨contention, rfl⟩ := hv₁
      rw [heq] at hs
      obtain ⟨⟨v₂, t₂⟩, hs₂, hs⟩ := of_bind_ok hs
      obtain ⟨issue, hissue⟩ := issueInstruction_ok hs₂
      have hinv : Inv cfg' base { v₂ with m_rs_entries_used := rs - 1 } := by
        have h₁ : Inv cfg' base { v with contention := contention, m_rs_entries_used := rs } :=
          h.congr rfl rfl rfl rfl rfl
        exact h₁.issuing he (by dsimp only; omega) hdone hready { hissue with rs_entries := rfl }
      have hnum := hissue.num_in_rob
      have hnext := hissue.next
      obtain ⟨t₃, hstop⟩ | ⟨scan₂, -, hgo⟩ := hk v₂ t₂
      · rw [hstop] at hs
        cases hs
        exact ⟨⟨rs - 1, hinv⟩, hnum, hnext⟩
      · obtain ⟨hloose, hnum', hnext'⟩ :=
          ih (by rw [hnum]; dsimp only; omega) (hgo ▸ hs) (rs - 1) hinv
        exact ⟨hloose, hnum'.trans hnum, hnext'.trans hnext⟩

theorem commitLoop {cfg rob} (h : Loose { v with rob := rob }) (hnum : v.m_num_in_rob = rob.length)
    (num_committed : Nat) :
    Loose (Rob.commitLoop cfg v rob num_committed) ∧
      (Rob.commitLoop cfg v rob num_committed).m_num_in_rob =
        (Rob.commitLoop cfg v rob num_committed).rob.length ∧
      (Rob.commitLoop cfg v rob num_committed).nextSequenceNumber = v.nextSequenceNumber := by
  induction rob generalizing v num_committed with
  | nil => exact ⟨h, hnum, rfl⟩
  | cons front rob ih =>
    rw [Rob.commitLoop]
    split
    case isTrue hdone =>
      obtain ⟨cfg', base, rs, hinv⟩ := h
      have hcommit := Inv.commit (s := { v with m_rs_entries_used := rs }) hinv hdone
      have hnum₁ : v.m_num_in_rob - 1 = rob.length := by
        rw [hnum]
        rfl
      dsimp only
      split
      · exact ⟨⟨cfg', base + 1, rs, hcommit⟩, hnum₁, rfl⟩
      · exact ih (v := { v with
          rob := rob
          m_num_in_rob := v.m_num_in_rob - 1
          log := .committed front.seqnr :: v.log }) ⟨cfg', base + 1, rs, hcommit⟩ hnum₁ _
    case isFalse => exact ⟨h, hnum, rfl⟩

end Loose

/-! ### A hardware thread -/

/-- What holds of the view of a thread, of its micro-ops that are not dispatched yet and of its
forwards. -/
structure ThreadInv (decoder : Decoder Reg) (v : RobTimer Reg K M) (prerob : List (RobEntry Reg))
    (forwards : List Forward) : Prop where
  loose : Loose v
  num_in_rob : v.m_num_in_rob = v.rob.length
  prerob : ∀ i e, prerob[i]? = some e →
    e = RobEntry.init e.uop (v.nextSequenceNumber + i) ∧ e.uop.m_uop.Decoded decoder
  covered : ∀ f ∈ forwards, f.Covered v.now v.log

theorem ThreadInv.congr {decoder} {v v' : RobTimer Reg K M} {prerob forwards}
    (h : ThreadInv decoder v prerob forwards) (hrob : v'.rob = v.rob)
    (hnum : v'.m_num_in_rob = v.m_num_in_rob) (hnext : v'.nextSequenceNumber = v.nextSequenceNumber)
    (hlog : v'.log = v.log) (hnow : v.now ≤ v'.now) : ThreadInv decoder v' prerob forwards := by
  refine ⟨h.loose.congr hrob hnum hnext hlog, ?_, ?_, fun f hf => ?_⟩
  · rw [hnum, hrob]
    exact h.num_in_rob
  · rw [hnext]
    exact h.prerob
  · rw [hlog]
    exact Adds.covered (.refl _ _) (h.covered f hf) hnow

theorem updateEntry_last {rob} {e : RobEntry Reg} {f} (h : ∀ p ∈ rob, p.seqnr ≠ e.seqnr) :
    updateEntry (rob ++ [e]) e.seqnr f = rob ++ [f e] := by
  rw [updateEntry, List.map_append, List.map_singleton, if_pos rfl]
  congr 1
  refine (List.map_congr_left fun p hp => ?_).trans (List.map_id rob)
  rw [if_neg (h p hp)]
  rfl

/-- What dispatching from a thread does to it. -/
structure Dispatched (cfg : Config Reg K M) (d d' : Dispatch Reg K M) : Prop where
  inv : ThreadInv cfg.decoder d'.timer d'.prerob d'.forwards
  within : WithinCycle d.timer d'.timer
  count : d'.timer.nextSequenceNumber + d'.prerob.length =
    d.timer.nextSequenceNumber + d.prerob.length

section Dispatch
variable {cfg : Config Reg K M} {d d' d'' : Dispatch Reg K M}

theorem Dispatched.trans (h : Dispatched cfg d d') (h' : Dispatched cfg d' d'') :
    Dispatched cfg d d'' :=
  ⟨h'.inv, h.within.trans h'.within, h'.count.trans h.count⟩

theorem Dispatched.of_eq (h : ThreadInv cfg.decoder d.timer d.prerob d.forwards)
    {frontend_stalled_until in_icache_miss} :
    Dispatched cfg d { d with timer := { d.timer with
      frontend_stalled_until := frontend_stalled_until
      in_icache_miss := in_icache_miss } } :=
  ⟨h.congr rfl rfl rfl rfl (Nat.le_refl _), .of_eq rfl rfl, rfl⟩

variable [DecidableEq Reg]

theorem Dispatch.next_ok {e prerob} (h : ThreadInv cfg.decoder d.timer d.prerob d.forwards)
    (hprerob : d.prerob = e :: prerob) (hs : d.next cfg e prerob = .ok d') :
    Dispatched cfg d d' := by
  obtain ⟨⟨v, e'⟩, hset, hs⟩ := of_bind_ok hs
  cases hs
  obtain ⟨cfg', base, rs, hinv⟩ := h.loose
  obtain ⟨he, hdecoded⟩ := h.prerob 0 e (by rw [hprerob]; rfl)
  obtain ⟨hentering, hforwards⟩ := setDependencies_ok hinv he hdecoded hset
  have hrest := hentering.rest
  have hseq : e.seqnr = d.timer.nextSequenceNumber := by rw [he]; rfl
  have hnum : v.m_num_in_rob = d.timer.m_num_in_rob := by rw [hrest]
  have hnext : v.nextSequenceNumber = d.timer.nextSequenceNumber := by rw [hrest]
  have hnow : v.now = d.timer.now := by rw [hrest]
  have hlog : v.log = d.timer.log := by rw [hrest]
  have htotal := hinv.order.total
  have htotal' := hentering.inv.order.total
  rw [List.length_map] at htotal htotal'
  dsimp only at htotal htotal'
  rw [List.length_append, List.length_singleton] at htotal'
  have hlength : v.m_num_in_rob = v.rob.length := by
    have hlength := h.num_in_rob
    omega
  -- the micro-op enters, and is dispatched at once
  have hget : (v.rob ++ [e'])[v.m_num_in_rob]? = some e' := by
    rw [hlength]
    exact List.getElem?_concat_length
  have hother : ∀ p ∈ v.rob, p.seqnr ≠ e'.seqnr := by
    intro p hp
    obtain ⟨i, hi, rfl⟩ := List.mem_iff_getElem.mp hp
    have hpseq := hentering.inv.seqnr_of_getElem (i := i) (e := v.rob[i])
      (by rw [List.getElem?_append_left hi, List.getElem?_eq_getElem hi])
    have heseq := hentering.seqnr
    omega
  have hdispatch := (hentering.inv.relax
    { cfg' with windowSize := cfg'.windowSize + 1, rsEntries := cfg'.rsEntries + 1 }
    (Nat.le_succ _) (Nat.le_succ _)).dispatch hget
    (Nat.lt_succ_of_le hentering.inv.order.window)
    (Nat.ne_of_lt (Nat.lt_succ_of_le hentering.inv.order.rs_fits))
  have hentered : Adds d.timer.now d.timer.log
      (.entered e.seqnr e'.uop.m_uop e'.producers :: d.timer.log) := .one nofun
  have hdispatched : Adds d.timer.now (.entered e.seqnr e'.uop.m_uop e'.producers :: d.timer.log)
      (.dispatched e.seqnr :: .entered e.seqnr e'.uop.m_uop e'.producers :: d.timer.log) :=
    .one nofun
  have hcovered : ∀ f ∈ Forward.of cfg d.timer e.uop ++ d.forwards,
      f.Covered d.timer.now (.entered e.seqnr e'.uop.m_uop e'.producers :: d.timer.log) := by
    intro f hf
    rcases List.mem_append.mp hf with hf | hf
    · obtain ⟨hload, htime, hsub⟩ := hforwards f hf
      rw [hseq, ← hload]
      exact .enter h.loose.disciplined htime (hload.trans h.loose.length_entered.symm) hsub
    · exact hentered.covered (h.covered f hf) (Nat.le_refl _)
  refine ⟨⟨⟨_, base, rs + 1, hdispatch.congr ?_ rfl rfl ?_ ?_⟩, ?_, fun i p hp => ?_,
    fun f hf => ?_⟩, ⟨hnow, ?_⟩, ?_⟩
  · dsimp only [dispatch]
    rw [updateEntry_last hother]
  · dsimp only [dispatch]
    rw [hnext]
  · dsimp only [dispatch]
    rw [hentering.seqnr, hseq, hlog]
  · dsimp only
    rw [hlength, List.length_append, List.length_singleton]
  · have hp' : d.prerob[i + 1]? = some p := by
      rw [hprerob]
      exact hp
    dsimp only
    rw [hnext, Nat.add_assoc, Nat.add_comm 1]
    exact h.prerob (i + 1) p hp'
  · dsimp only
    rw [hlog, hnow]
    exact hdispatched.covered (hcovered f hf) (Nat.le_refl _)
  · dsimp only
    rw [hlog]
    exact hentered.trans hdispatched
  · dsimp only
    rw [hnext, hprerob, List.length_cons]
    omega

theorem dispatchThread_ok {currentWindowSize width}
    (h : ThreadInv cfg.decoder d.timer d.prerob d.forwards)
    (hs : dispatchThread cfg currentWindowSize width d = .ok d') : Dispatched cfg d d' := by
  have hrefl : ∀ {d : Dispatch Reg K M}, ThreadInv cfg.decoder d.timer d.prerob d.forwards →
      Dispatched cfg d d := fun h => .of_eq h
  induction width generalizing d with
  | zero =>
    rw [dispatchThread.eq_def] at hs
    dsimp only at hs
    split at hs
    · cases hs
      exact hrefl h
    · split at hs
      · cases hs
      · cases hs
        exact hrefl h
  | succ width ih =>
    rw [dispatchThread.eq_def] at hs
    dsimp only at hs
    split at hs
    case isTrue =>
      cases hs
      exact hrefl h
    case isFalse =>
      split at hs
      case h_1 => cases hs
      case h_2 e prerob hprerob =>
        split at hs
        case isTrue =>
          cases hs
          exact .of_eq h
        case isFalse =>
          -- the micro-op may have waited for the instruction cache
          generalize hd₁ : (if e.uop.iCacheHitWhere ≠ .L1I then
            { d with timer := { d.timer with in_icache_miss := false } } else d) = d₁ at hs
          have h₁ : Dispatched cfg d d₁ := by
            rw [← hd₁]
            split
            · exact .of_eq h
            · exact hrefl h
          have hprerob₁ : d₁.prerob = e :: prerob := by
            rw [← hd₁, ← hprerob]
            split <;> rfl
          split at hs
          case isTrue =>
            cases hs
            exact h₁
          case isFalse =>
            obtain ⟨d₂, hnext, hs⟩ := of_bind_ok hs
            have h₂ := h₁.trans (d₁.next_ok h₁.inv hprerob₁ hnext)
            split at hs
            case isTrue =>
              cases hs
              exact h₂.trans (.of_eq h₂.inv)
            case isFalse => exact h₂.trans (ih h₂.inv hs)

end Dispatch

/-! ### The core -/

namespace RobSmtTimer

structure ThreadOk (decoder : Decoder Reg) (s : RobSmtTimer n Reg K M) (t : Fin n) : Prop where
  inv : ThreadInv decoder (s.view t) (s.m_rob_threads t).prerob (s.m_rob_threads t).forwards
  counted : (s.m_rob_threads t).prerob.length ≤ (s.m_rob_threads t).nextSequenceNumber

def SmtInv (decoder : Decoder Reg) (s : RobSmtTimer n Reg K M) : Prop :=
  ∀ t, ThreadOk decoder s t

section Threads
variable {decoder : Decoder Reg} {s s' : RobSmtTimer n Reg K M} {t : Fin n}

/-- What a thread does not see of the others, and what does not matter to it. -/
theorem ThreadOk.congr (h : ThreadOk decoder s t)
    (hthread : ∃ running now next_event, s'.m_rob_threads t = { s.m_rob_threads t with
      running := running, now := now, next_event := next_event })
    (hnow : s.now ≤ s'.now) : ThreadOk decoder s' t := by
  obtain ⟨running, now, next_event, hthread⟩ := hthread
  refine ⟨?_, ?_⟩
  · rw [hthread]
    refine h.inv.congr ?_ ?_ ?_ ?_ hnow
    all_goals
      rw [view, hthread]
      rfl
  · rw [hthread]
    exact h.counted

theorem SmtInv.change (h : SmtInv decoder s) {v : RobTimer Reg K M}
    (hother : ∀ u, u ≠ t → s'.m_rob_threads u = s.m_rob_threads u) (hnow : s'.now = s.now)
    (hv : ThreadInv decoder v (s'.m_rob_threads t).prerob (s'.m_rob_threads t).forwards)
    (hrob : (s'.m_rob_threads t).rob = v.rob) (hlog : (s'.m_rob_threads t).log = v.log)
    (hclock : v.now = s.now) (hcount : v.nextSequenceNumber + (s'.m_rob_threads t).prerob.length =
      (s'.m_rob_threads t).nextSequenceNumber) : SmtInv decoder s' := by
  intro u
  by_cases hu : u = t
  · subst hu
    refine ⟨hv.congr hrob ?_ ?_ hlog ?_, by omega⟩
    · rw [hv.num_in_rob, ← hrob]
      rfl
    · dsimp only [view]
      omega
    · exact Nat.le_of_eq (hclock.trans hnow.symm)
  · exact (h u).congr ⟨_, _, _, hother u hu⟩ hnow.ge

theorem SmtInv.tick (h : SmtInv decoder s) (hthreads : s'.m_rob_threads = s.m_rob_threads)
    (hnow : s.now ≤ s'.now) : SmtInv decoder s' :=
  fun t => (h t).congr ⟨_, _, _, congrFun hthreads t⟩ hnow

end Threads

section Stages
variable {cfg : SmtConfig n Reg K M} {s s' : RobSmtTimer n Reg K M}

theorem tryDispatch_ok [DecidableEq Reg] (h : SmtInv cfg.decoder s)
    {t next_event next_event' hasDispatched}
    (hs : s.tryDispatch cfg t next_event = .ok (s', hasDispatched, next_event')) :
    SmtInv cfg.decoder s' ∧ s'.now = s.now := by
  obtain ⟨d, hloop, hs⟩ := of_bind_ok hs
  cases hs
  have ht := h t
  have hview : ThreadInv (cfg.thread t).decoder (s.view t) (s.m_rob_threads t).prerob [] :=
    ⟨ht.inv.loose, ht.inv.num_in_rob, ht.inv.prerob, nofun⟩
  have hd := dispatchThread_ok hview hloop
  refine ⟨h.change (t := t) (v := d.timer) (fun u hu => ?_) rfl ?_ ?_ ?_ hd.within.now ?_, rfl⟩
  · simp [setThread, put, hu]
  · refine ⟨hd.inv.loose, hd.inv.num_in_rob, ?_, ?_⟩
    · intro i e he
      simp only [setThread, put, update_self] at he
      exact hd.inv.prerob i e he
    · intro f hf
      simp only [setThread, put, update_self, List.mem_append] at hf
      rcases hf with hf | hf
      · exact hd.inv.covered f hf
      · exact hd.within.log.covered (ht.inv.covered f hf) hd.within.now.ge
  · simp [setThread, put]
  · simp [setThread, put]
  · have hcount := hd.count
    have hcounted := ht.counted
    simp only [setThread, put, update_self]
    dsimp only [view] at hcount
    omega

theorem dispatchLoop_ok [DecidableEq Reg] {threads} (h : SmtInv cfg.decoder s)
    {dispatched_from dispatched_from' next_event next_event'}
    (hs : dispatchLoop cfg threads s dispatched_from next_event =
      .ok (s', dispatched_from', next_event')) : SmtInv cfg.decoder s' ∧ s'.now = s.now := by
  induction threads generalizing s dispatched_from next_event with
  | nil =>
    cases hs
    exact ⟨h, rfl⟩
  | cons t threads ih =>
    rw [dispatchLoop] at hs
    split at hs
    case isTrue =>
      obtain ⟨⟨s₁, hasDispatched, next_event₁⟩, hdispatch, hs⟩ := of_bind_ok hs
      obtain ⟨h₁, hnow₁⟩ := tryDispatch_ok h hdispatch
      obtain ⟨h', hnow'⟩ := ih h₁ hs
      exact ⟨h', hnow'.trans hnow₁⟩
    case isFalse => exact ih h hs

theorem tryIssue_ok (h : SmtInv cfg.decoder s) {t next_event next_event' hasIssued}
    (hs : s.tryIssue cfg t next_event = .ok (s', hasIssued, next_event')) :
    SmtInv cfg.decoder s' ∧ s'.now = s.now := by
  obtain ⟨⟨v, thread_next_event⟩, hloop, hs⟩ := of_bind_ok hs
  cases hs
  have ht := h t
  have hwithin := (issueLoop_moves hloop (Nat.le_of_eq (Nat.zero_add _))).within
  obtain ⟨hloose, hlength, hnum, hnext⟩ :=
    ht.inv.loose.issueLoop (Nat.le_of_eq (Nat.zero_add _)) hloop
  refine ⟨h.change (t := t) (v := v) (fun u hu => ?_) rfl ⟨hloose, ?_, ?_, ?_⟩ ?_ ?_ hwithin.now ?_,
    rfl⟩
  · simp [setThread, put, hu]
  · rw [hnum, hlength]
    rfl
  · intro i e he
    simp only [setThread, put, update_self] at he
    rw [hnext]
    exact ht.inv.prerob i e he
  · intro f hf
    simp only [setThread, put, update_self] at hf
    exact hwithin.log.covered (ht.inv.covered f hf) hwithin.now.ge
  · simp [setThread, put]
  · simp [setThread, put]
  · have hcounted := ht.counted
    simp only [setThread, put, update_self]
    rw [hnext]
    dsimp only [view]
    omega

theorem issueThreads_ok {threads} (h : SmtInv cfg.decoder s)
    {thread_first thread_num next_event next_event'}
    (hs : issueThreads cfg thread_first threads s next_event = .ok (s', thread_num, next_event')) :
    SmtInv cfg.decoder s' ∧ s'.now = s.now := by
  induction threads generalizing s next_event with
  | nil =>
    cases hs
    exact ⟨h, rfl⟩
  | cons t threads ih =>
    rw [issueThreads] at hs
    split at hs
    case isTrue =>
      obtain ⟨⟨s₁, hasIssued, next_event₁⟩, hissue, hs⟩ := of_bind_ok hs
      obtain ⟨h₁, hnow₁⟩ := tryIssue_ok h hissue
      dsimp only at hs
      split at hs
      case isTrue =>
        cases hs
        exact ⟨h₁, hnow₁⟩
      case isFalse =>
        obtain ⟨h', hnow'⟩ := ih h₁ hs
        exact ⟨h', hnow'.trans hnow₁⟩
    case isFalse => exact ih h hs

theorem commit_ok (h : SmtInv cfg.decoder s) (t : Fin n) :
    SmtInv cfg.decoder (s.commit cfg t) ∧ (s.commit cfg t).now = s.now := by
  have ht := h t
  generalize hv : commitLoop (cfg.thread t) (s.view t) (s.m_rob_threads t).rob 0 = v
  have hmoves : Moves (cfg.thread t) (s.view t) v := by
    rw [← hv]
    exact commitLoop_moves (s := s.view t) (s.m_rob_threads t).rob 0
  have hwithin := hmoves.within
  obtain ⟨hloose, hnum, hnext⟩ : Loose v ∧ v.m_num_in_rob = v.rob.length ∧
      v.nextSequenceNumber = (s.view t).nextSequenceNumber := by
    rw [← hv]
    exact Loose.commitLoop ht.inv.loose rfl 0
  refine ⟨h.change (t := t) (v := v) (fun u hu => ?_) rfl ⟨hloose, hnum, ?_, ?_⟩ ?_ ?_
    hwithin.now ?_, rfl⟩
  · simp [commit, setThread, put, hu]
  · intro i e he
    simp only [commit, setThread, put, update_self] at he
    rw [hnext]
    exact ht.inv.prerob i e he
  · intro f hf
    simp only [commit, setThread, put, update_self] at hf
    exact hwithin.log.covered (ht.inv.covered f hf) hwithin.now.ge
  · simp [commit, setThread, put, hv]
  · simp [commit, setThread, put, hv]
  · have hcounted := ht.counted
    simp only [commit, setThread, put, update_self]
    rw [hnext]
    dsimp only [view]
    omega

theorem commits_ok (threads : List (Fin n)) (h : SmtInv cfg.decoder s) :
    SmtInv cfg.decoder (threads.foldl (commit cfg) s) ∧
      (threads.foldl (commit cfg) s).now = s.now := by
  induction threads generalizing s with
  | nil => exact ⟨h, rfl⟩
  | cons t threads ih =>
    obtain ⟨h₁, hnow₁⟩ := commit_ok h t
    obtain ⟨h', hnow'⟩ := ih h₁
    exact ⟨h', hnow'.trans hnow₁⟩

theorem doDispatch_ok [DecidableEq Reg] [NeZero n] (h : SmtInv cfg.decoder s) {t}
    (hs : s.doDispatch cfg = .ok (s', t)) :
    SmtInv cfg.decoder s' := by
  obtain ⟨⟨s₁, dispatched_from, t₁⟩, hloop, hs⟩ := of_bind_ok hs
  cases hs
  exact (dispatchLoop_ok h hloop).1.tick rfl (Nat.le_refl _)

theorem doIssue_ok [NeZero n] (h : SmtInv cfg.decoder s) {t} (hs : s.doIssue cfg = .ok (s', t)) :
    SmtInv cfg.decoder s' := by
  have hports : ∀ contention, SmtInv cfg.decoder { s with contention := contention } :=
    fun _ => h.tick rfl (Nat.le_refl _)
  obtain ⟨⟨s₁, thread_num, t₁⟩, hloop, hs⟩ := of_bind_ok hs
  cases hs
  exact (issueThreads_ok (hports _) hloop).1.tick rfl (Nat.le_refl _)

theorem executeCycle_ok [DecidableEq Reg] [NeZero n] (h : SmtInv cfg.decoder s)
    (hs : s.executeCycle cfg = .ok s') :
    SmtInv cfg.decoder s' := by
  obtain ⟨⟨s₁, t₁⟩, hdispatch, hs⟩ := of_bind_ok hs
  obtain ⟨⟨s₂, t₂⟩, hissue, hs⟩ := of_bind_ok hs
  obtain ⟨h₃, -⟩ := commits_ok (List.finRange n) (doIssue_ok (doDispatch_ok h hdispatch) hissue)
  cases hs
  exact h₃.tick rfl (Nat.le_add_right _ _)

theorem pushInstructions_ok {t insts} (h : SmtInv cfg.decoder s)
    (hdecoded : ∀ uop ∈ insts, uop.m_uop.Decoded cfg.decoder)
    (hs : pushInstructions cfg t insts s = .ok s') : SmtInv cfg.decoder s' := by
  induction insts generalizing s with
  | nil =>
    cases hs
    exact h
  | cons uop insts ih =>
    have hrest : ∀ uop ∈ insts, uop.m_uop.Decoded cfg.decoder :=
      fun uop huop => hdecoded uop (.tail _ huop)
    rw [pushInstructions] at hs
    split at hs
    case isTrue => exact ih h hrest hs
    case isFalse =>
      dsimp only at hs
      split at hs
      case isTrue => cases hs
      case isFalse =>
        have ht := h t
        have hcounted := ht.counted
        refine ih ?_ hrest hs
        refine h.change (t := t) (v := s.view t) (fun u hu => ?_) rfl
          ⟨ht.inv.loose, ht.inv.num_in_rob, fun i e he => ?_, ?_⟩ ?_ ?_ rfl ?_
        · simp [setThread, hu]
        · simp only [setThread, update_self] at he
          rcases Nat.lt_or_ge i (s.m_rob_threads t).prerob.length with hi | hi
          · rw [List.getElem?_append_left hi] at he
            exact ht.inv.prerob i e he
          · rw [List.getElem?_append_right hi, List.getElem?_singleton] at he
            split at he
            case isTrue hzero =>
              cases he
              have hnext : (s.view t).nextSequenceNumber + i =
                  (s.m_rob_threads t).nextSequenceNumber := by
                dsimp only [view]
                omega
              rw [hnext]
              exact ⟨rfl, hdecoded uop (.head _)⟩
            case isFalse => cases he
        · simpa [setThread] using ht.inv.covered
        · simp [setThread, view]
        · simp [setThread, view]
        · simp only [setThread, update_self, List.length_append, List.length_singleton]
          dsimp only [view]
          omega

theorem exec_ok [DecidableEq Reg] [NeZero n] (h : SmtInv cfg.decoder s) {call}
    (ha : Allowed cfg call)
    (hs : s.exec cfg call = .ok s') : SmtInv cfg.decoder s' := by
  -- what `SmtTimer` knows of a thread does not matter
  have hother : ∀ {s₁ : RobSmtTimer n Reg K M} {t : Fin n} {running : Bool} {now : Nat},
      s₁.m_rob_threads = update s.m_rob_threads t
        { s.m_rob_threads t with running := running, now := now } →
      s.now ≤ s₁.now → SmtInv cfg.decoder s₁ := by
    intro s₁ t running now hthreads hnow u
    refine (h u).congr ?_ hnow
    rw [hthreads]
    by_cases hu : u = t
    · subst hu
      exact ⟨running, now, (s.m_rob_threads u).next_event, update_self ..⟩
    · exact ⟨_, _, _, update_of_ne hu ..⟩
  cases call with
  | pushInstructions t insts => exact pushInstructions_ok h (fun uop huop => (ha uop huop).1) hs
  | executeCycle =>
    rw [exec] at hs
    split at hs
    case isTrue => exact executeCycle_ok h hs
    case isFalse =>
      cases hs
      exact h
  | returnLatency t | setRunning t running =>
    cases hs
    exact hother rfl (Nat.le_refl _)
  | synchronize t time =>
    cases hs
    exact hother rfl (Nat.le_max_left _ _)
  | notifyNumActiveThreadsChange | setPeriod period =>
    cases hs
    exact h.tick rfl (Nat.le_refl _)

theorem Init.inv (h : Init cfg s) : SmtInv cfg.decoder s := by
  intro t
  have hthread := h.threads t
  refine ⟨⟨?_, rfl, fun i e he => ?_, fun f hf => ?_⟩, ?_⟩
  · refine ⟨cfg.toConfig, 0, 0, .init ⟨?_, ?_, rfl, h.now, h.period, ?_, ?_, h.last_store, ?_,
      fun r => ?_, ?_, ?_, h.widths⟩⟩ <;> simp [view, hthread]
  · simp [hthread] at he
  · simp [hthread] at hf
  · simp [hthread]

theorem forward_waits [DecidableEq Reg] [NeZero n] (h : Reachable (Init cfg) (Step cfg) s) {t f}
    (hf : f ∈ (s.m_rob_threads t).forwards) (htimely : f.Timely (s.m_rob_threads t).log) :
    f.Waits (s.m_rob_threads t).log := by
  have hinv : SmtInv cfg.decoder s := by
    refine h.invariant (fun _ => Init.inv) fun s s' h hstep => ?_
    obtain ⟨call, ha, hs⟩ := hstep
    exact exec_ok h ha hs
  have ht := (hinv t).inv
  exact (ht.covered f hf).waits ht.loose.disciplined htimely

end Stages
end RobSmtTimer

variable [DecidableEq Reg]

/-- A load that is forwarded waits for all producers of the store, on either timer, when those
that it does not depend on have their results as it enters. -/
theorem forwarded_load_waits [NeZero n] :
    (∀ (cfg : Config Reg K M) (s : Traced Reg K M),
      Reachable (Traced.Init cfg) (Traced.Step cfg) s →
      ∀ f ∈ s.forwards, f.Timely s.timer.log → f.Waits s.timer.log) ∧
    ∀ (cfg : SmtConfig n Reg K M) (s : RobSmtTimer n Reg K M),
      Reachable (RobSmtTimer.Init cfg) (RobSmtTimer.Step cfg) s → ∀ t,
      ∀ f ∈ (s.m_rob_threads t).forwards, f.Timely (s.m_rob_threads t).log →
        f.Waits (s.m_rob_threads t).log :=
  ⟨fun _ _ h _ hf htimely => Traced.forward_waits h hf htimely,
    fun _ _ h _ _ hf htimely => RobSmtTimer.forward_waits h hf htimely⟩

/-! ### On small cores -/

/-- The small core with a larger window, and with forwarding. -/
def wide : Config Nat Unit Unit :=
  { small with windowSize := 16, rsEntries := 16, m_store_to_load_forwarding := true }

def wide.producer : DynamicMicroOp Nat := small.uop .execute [] [1] false 4

def wide.store : DynamicMicroOp Nat := small.uop .store [1] [] false 1

def wide.load : DynamicMicroOp Nat := small.uop .load [] [2] false 3

/-- The producer enters with the store and the load. -/
def wide.together : List (Call Nat) :=
  small.feed (wide.producer :: wide.store :: wide.load :: List.replicate 14 small.plain) 8

/-- The store and the load enter when the producer has issued. -/
def wide.late : List (Call Nat) :=
  small.feed (wide.producer :: List.replicate 5 small.plain) 3 ++
    small.feed (wide.store :: wide.load :: List.replicate 6 small.plain) 4

def wide.run (calls : List (Call Nat)) : Except Stop (Traced Nat Unit Unit) :=
  calls.foldlM (Traced.exec wide) ⟨small.start, []⟩

theorem wide.feed_step (uops : List (DynamicMicroOp Nat))
    (hallowed : ∀ uop ∈ uops, Allowed small (.enter uop)) (cycles : Nat) :
    ∀ call ∈ small.feed uops cycles, ∀ s s', Traced.exec wide s call = .ok s' →
      Traced.Step wide s s' := by
  intro call hcall s s' hs
  refine ⟨call, small.feed_allowed uops hallowed cycles call hcall, ?_, hs⟩
  rcases List.mem_append.mp hcall with hcall | hcall
  · obtain ⟨uop, huop, rfl⟩ := List.mem_map.mp hcall
    trivial
  · rw [(List.mem_replicate.mp hcall).2]
    trivial

theorem wide.reachable {calls} (hsteps : ∀ call ∈ calls, ∀ s s',
    Traced.exec wide s call = .ok s' → Traced.Step wide s s') {s} (hrun : wide.run calls = .ok s) :
    Reachable (Traced.Init wide) (Traced.Step wide) s := by
  refine Reachable.foldlM hsteps (.init ⟨?_, rfl⟩) hrun
  exact ⟨rfl, rfl, rfl, rfl, by decide, rfl, rfl, rfl, rfl, fun _ => rfl, rfl, rfl, by decide⟩

/-- Two hardware threads of such a core. -/
def pair : SmtConfig 2 Nat Unit Unit :=
  { wide with
    m_num_threads := 2
    windowRepartition := false
    simultaneousIssue := false
    cores := fun _ => wide.accessMemory }

open scoped Lib.Sizes

def pair.start : RobSmtTimer 2 Nat Unit Unit where
  m_rob_threads _ := ⟨false, 0, [], [], 0, 0, false, 0, fun _ => none, ⟨[], none⟩, [], []⟩
  currentWindowSize := 8
  dispatch_thread := 0
  issue_thread := 0
  now := 0
  period := 10
  last_store_done := 0
  load_queue := ⟨[(0, 0)], 0⟩
  store_queue := ⟨[(0, 0)], 0⟩
  m_rs_entries_used := 0
  contention := ()
  memory := ()

def pair.run (calls : List (SmtCall 2 Nat)) : Except Stop (RobSmtTimer 2 Nat Unit Unit) :=
  calls.foldlM (RobSmtTimer.exec pair) pair.start

/-- The first thread gets micro-ops and runs alone. -/
def pair.feed (uops : List (DynamicMicroOp Nat)) (cycles : Nat) : List (SmtCall 2 Nat) :=
  .setRunning 0 true :: .pushInstructions 0 uops :: List.replicate cycles .executeCycle

theorem pair.reachable {uops} (hallowed : ∀ uop ∈ uops, Allowed small (.enter uop)) {cycles s}
    (hrun : pair.run (pair.feed uops cycles) = .ok s) :
    Reachable (RobSmtTimer.Init pair) (RobSmtTimer.Step pair) s := by
  refine Reachable.foldlM (fun call hcall s s' hs => ⟨call, ?_, hs⟩)
    (.init ⟨fun _ => rfl, rfl, rfl, rfl, by decide, rfl, by decide⟩) hrun
  rcases List.mem_cons.mp hcall with rfl | hcall
  · trivial
  · rcases List.mem_cons.mp hcall with rfl | hcall
    · exact hallowed
    · rw [(List.mem_replicate.mp hcall).2]
      trivial

/-- The producer is dispatched just before the store and the load. -/
def pair.together : List (DynamicMicroOp Nat) :=
  [wide.producer, wide.store, wide.load] ++ List.replicate 10 small.plain

/-- The producer has issued when the store and the load are dispatched. -/
def pair.late : List (DynamicMicroOp Nat) :=
  wide.producer :: List.replicate 3 small.plain ++ [wide.store, wide.load] ++
    List.replicate 10 small.plain

theorem forwarded_load_waits_together :
    (∃ s : Traced Nat Unit Unit, ∃ f ∈ s.forwards, f.producers = [0] ∧
      f.load ∈ (issues s.timer.log).map Issue.seqnr ∧ f.Waits s.timer.log) ∧
    ∃ s : RobSmtTimer 2 Nat Unit Unit, ∃ f ∈ (s.m_rob_threads 0).forwards, f.producers = [0] ∧
      f.load ∈ (issues (s.m_rob_threads 0).log).map Issue.seqnr ∧
      f.Waits (s.m_rob_threads 0).log := by
  constructor
  · have hrun : ∃ s ∈ (wide.run wide.together).toOption, ∃ f ∈ s.forwards, f.producers = [0] ∧
        f.load ∈ (issues s.timer.log).map Issue.seqnr ∧ f.Timely s.timer.log := by decide +kernel
    obtain ⟨s, hs, f, hf, hproducers, hload, htimely⟩ := exists_of_toOption hrun
    have hreachable := wide.reachable (wide.feed_step _ (by
      simp [wide.producer, wide.store, wide.load, small.plain]) _) hs
    exact ⟨s, f, hf, hproducers, hload,
      (forwarded_load_waits (n := 2)).1 wide s hreachable f hf htimely⟩
  · have hrun : ∃ s ∈ (pair.run (pair.feed pair.together 7)).toOption,
        ∃ f ∈ (s.m_rob_threads 0).forwards, f.producers = [0] ∧
        f.load ∈ (issues (s.m_rob_threads 0).log).map Issue.seqnr ∧
        f.Timely (s.m_rob_threads 0).log := by decide +kernel
    obtain ⟨s, hs, f, hf, hproducers, hload, htimely⟩ := exists_of_toOption hrun
    have hreachable := pair.reachable (by
      simp [pair.together, wide.producer, wide.store, wide.load, small.plain]) hs
    exact ⟨s, f, hf, hproducers, hload,
      forwarded_load_waits.2 pair s hreachable 0 f hf htimely⟩

/-- A load issues before the result of the producer of the store is available. -/
theorem forwarded_too_early :
    (∃ s : Traced Nat Unit Unit, Reachable (Traced.Init wide) (Traced.Step wide) s ∧
      ∃ f ∈ s.forwards, ¬ f.Waits s.timer.log) ∧
    ∃ s : RobSmtTimer 2 Nat Unit Unit,
      Reachable (RobSmtTimer.Init pair) (RobSmtTimer.Step pair) s ∧
      ∃ f ∈ (s.m_rob_threads 0).forwards, ¬ f.Waits (s.m_rob_threads 0).log := by
  constructor
  · have hrun : ∃ s ∈ (wide.run wide.late).toOption, ∃ f ∈ s.forwards,
        ¬ f.Waits s.timer.log := by decide +kernel
    obtain ⟨s, hs, hearly⟩ := exists_of_toOption hrun
    refine ⟨s, wide.reachable (fun call hcall => ?_) hs, hearly⟩
    rcases List.mem_append.mp hcall with hcall | hcall
    · exact wide.feed_step _ (by simp [wide.producer, small.plain]) _ call hcall
    · exact wide.feed_step _ (by simp [wide.store, wide.load, small.plain]) _ call hcall
  · have hrun : ∃ s ∈ (pair.run (pair.feed pair.late 6)).toOption,
        ∃ f ∈ (s.m_rob_threads 0).forwards, ¬ f.Waits (s.m_rob_threads 0).log := by decide +kernel
    obtain ⟨s, hs, hearly⟩ := exists_of_toOption hrun
    exact ⟨s, pair.reachable (by
      simp [pair.late, wide.producer, wide.store, wide.load, small.plain]) hs, hearly⟩

end Sniper.Timing.Rob
