import Sniper.Timing.RobBarriers

/-! # The scan and the barriers

`head_of_queue` is set when the scan comes to a barrier only if everything older is done, when
that holds of the barriers that may issue as the cycle begins: dispatching makes nothing ready in
this cycle, and an instruction that issues leaves a barrier behind it waiting.
-/
namespace Sniper.Timing.Rob
open Lib.Simulation DynamicMicroOp

variable {Reg K M : Type} {cfg : Config Reg K M} {s s' s'' : RobTimer Reg K M}

/-! ### Dispatch -/

/-- What dispatching does to an entry. -/
structure Waited (cfg : Config Reg K M) (s s' : RobTimer Reg K M) (k : Nat)
    (p p' : RobEntry Reg) : Prop where
  uop : p'.uop = p.uop
  done : p'.done = p.done
  ready : p.ready ≤ p'.ready
  unready : p'.ready = ⊤ → p.ready = ⊤
  before : k < s.m_num_in_rob → p'.ready = p.ready
  now : s.m_num_in_rob ≤ k → k < s'.m_num_in_rob → (s.now : Time) < p'.ready

/-- What the scan of `doIssue` looks at, the entries apart. -/
structure SameScan (s s' : RobTimer Reg K M) : Prop where
  now : s'.now = s.now
  period : s'.period = s.period
  last_store : s'.last_store_done = s.last_store_done
  load_queue : s'.load_queue = s.load_queue
  store_queue : s'.store_queue = s.store_queue
  contention : s'.contention = s.contention
  memory : s'.memoryDependencies = s.memoryDependencies

structure Dispatching (cfg : Config Reg K M) (s s' : RobTimer Reg K M) : Prop where
  scan : SameScan s s'
  num_in_rob : s.m_num_in_rob ≤ s'.m_num_in_rob
  entries : ∀ k p', s'.rob[k]? = some p' → ∃ p, s.rob[k]? = some p ∧ Waited cfg s s' k p p'
  fencing : ∀ base now membar, Fencing base now membar s.log → Fencing base now membar s'.log

theorem SameScan.trans (h : SameScan s s') (h' : SameScan s' s'') : SameScan s s'' :=
  ⟨h'.now.trans h.now, h'.period.trans h.period, h'.last_store.trans h.last_store,
    h'.load_queue.trans h.load_queue, h'.store_queue.trans h.store_queue,
    h'.contention.trans h.contention, h'.memory.trans h.memory⟩

theorem Dispatching.trans (h : Dispatching cfg s s') (h' : Dispatching cfg s' s'') :
    Dispatching cfg s s'' := by
  refine ⟨h.scan.trans h'.scan, h.num_in_rob.trans h'.num_in_rob, fun k p'' hp'' => ?_,
    fun base now membar hf => h'.fencing _ _ _ (h.fencing _ _ _ hf)⟩
  obtain ⟨p', hp', hw'⟩ := h'.entries k p'' hp''
  obtain ⟨p, hp, hw⟩ := h.entries k p' hp'
  have hnum := h.num_in_rob
  refine ⟨p, hp, hw'.uop.trans hw.uop, hw'.done.trans hw.done, hw.ready.trans hw'.ready,
    fun htop => hw.unready (hw'.unready htop),
    fun hk => (hw'.before (by omega)).trans (hw.before hk), fun hle hlt => ?_⟩
  by_cases hk : k < s'.m_num_in_rob
  · rw [hw'.before hk]
    exact hw.now hle hk
  · have hnow := hw'.now (by omega) hlt
    rw [h.scan.now] at hnow
    exact hnow

theorem Dispatching.of_eq (hscan : SameScan s s') (hnum : s'.m_num_in_rob = s.m_num_in_rob)
    (hrob : s'.rob = s.rob) (hlog : s'.log = s.log) : Dispatching cfg s s' := by
  refine ⟨hscan, Nat.le_of_eq hnum.symm, fun k p hp => ⟨p, hrob ▸ hp, ?_⟩, ?_⟩
  · exact ⟨rfl, rfl, le_refl _, id, fun _ => rfl, fun hle hlt => by omega⟩
  · rw [hlog]
    exact fun _ _ _ hf => hf

theorem Inv.dispatching {base} (h : Inv cfg base s) (hperiod : 0 < s.period) {e}
    (he : s.rob[s.m_num_in_rob]? = some e) :
    Dispatching cfg s (Rob.dispatch s e) := by
  refine ⟨⟨rfl, rfl, rfl, rfl, rfl, rfl, rfl⟩, Nat.le_succ _, fun k p' hp' => ?_,
    fun _ _ _ hf => hf.dispatched _⟩
  have hlater : (s.now : Time) < ((s.now + s.period : Nat) : Time) :=
    WithTop.coe_lt_coe.mpr (Nat.lt_add_of_pos_right hperiod)
  change (updateEntry s.rob e.seqnr _)[k]? = some p' at hp'
  rw [updateEntry, List.getElem?_map] at hp'
  obtain ⟨p, hp, rfl⟩ := Option.map_eq_some_iff.mp hp'
  refine ⟨p, hp, ?_⟩
  have hpseq := h.seqnr_of_getElem hp
  have heseq := h.seqnr_of_getElem he
  split
  case isTrue hseq =>
    refine ⟨rfl, rfl, le_max_left _ _, fun htop => ?_, fun hk => ?_, fun _ _ => ?_⟩
    · exact (max_eq_top.mp htop).resolve_right (time_ne_top _)
    · omega
    · exact lt_of_lt_of_le hlater (le_max_right _ _)
  case isFalse hne =>
    refine ⟨rfl, rfl, le_refl _, id, fun _ => rfl, fun hle hlt => ?_⟩
    have hnum : (Rob.dispatch s e).m_num_in_rob = s.m_num_in_rob + 1 := rfl
    omega

theorem Inv.dispatchLoop_dispatching {base} (h : Inv cfg base s) (hperiod : 0 < s.period)
    {width t t'} (hs' : Rob.dispatchLoop cfg width s t = .ok (s', t')) :
    Dispatching cfg s s' := by
  have hrefl : Dispatching cfg s s := .of_eq ⟨rfl, rfl, rfl, rfl, rfl, rfl, rfl⟩ rfl rfl rfl
  refine (dispatchLoop_invariant (P := fun s' _ => Inv cfg base s' ∧ Dispatching cfg s s')
    (fun s' _ _ h => ⟨h.1.congr rfl rfl rfl rfl rfl, ?_⟩)
    (fun s' _ h => ⟨h.1.congr rfl rfl rfl rfl rfl, ?_⟩) (fun s' _ e he hwindow hrs h => ?_)
    (fun s' _ h => ⟨h.1.congr rfl rfl rfl rfl rfl, ?_⟩) ⟨h, hrefl⟩ hs').2
  · exact h.2.trans (.of_eq ⟨rfl, rfl, rfl, rfl, rfl, rfl, rfl⟩ rfl rfl rfl)
  · exact h.2.trans (.of_eq ⟨rfl, rfl, rfl, rfl, rfl, rfl, rfl⟩ rfl rfl rfl)
  · have hperiod' : 0 < s'.period := h.2.scan.period ▸ hperiod
    exact ⟨h.1.dispatch he hwindow hrs, h.2.trans (h.1.dispatching hperiod' he)⟩
  · exact h.2.trans (.of_eq ⟨rfl, rfl, rfl, rfl, rfl, rfl, rfl⟩ rfl rfl rfl)

theorem Inv.doDispatch_dispatching {base} (h : Inv cfg base s) (hperiod : 0 < s.period) {t}
    (hs' : Rob.doDispatch cfg s = .ok (s', t)) : Dispatching cfg s s' := by
  rw [Rob.doDispatch] at hs'
  split at hs'
  · obtain ⟨⟨s₁, t₁⟩, hloop, hs'⟩ := of_bind_ok hs'
    cases hs'
    exact h.dispatchLoop_dispatching hperiod hloop
  · cases hs'
    exact .of_eq ⟨rfl, rfl, rfl, rfl, rfl, rfl, rfl⟩ rfl rfl rfl

/-! ### The beginning of the scan -/

/-- What the scan has to find at a position. -/
def Turn (cfg : Config Reg K M) (s : RobTimer Reg K M) (i : Nat) (scan : Scan) : Prop :=
  scan.head_of_queue = true → (∀ j < i, ∀ q ∈ s.rob[j]?, q.done ≠ ⊤) ∧
    ∀ k ≥ i, ∀ b ∈ s.rob[k]?, Fences b.uop.m_uop → MayIssue s k b →
      Clear s k ∨ Blocked cfg s scan k

theorem HeldBack.later {scan p p'} (h : HeldBack cfg s scan p) (hscan : SameScan s s')
    (huop : p'.uop = p.uop) (hready : p.ready ≤ p'.ready) :
    HeldBack cfg s' scan p' := by
  have htry : (Rob.tryIssue cfg s' p').1 = (Rob.tryIssue cfg s p).1 := by
    rw [Rob.tryIssue, Rob.tryIssue, huop, hscan.contention]
    split <;> rfl
  refine h.imp (fun hcan hcan' => hcan ?_) fun hfalse => htry.trans hfalse
  by_cases hlate' : (s'.now : Time) < p'.ready
  · rw [canIssue.eq_def, if_pos hlate'] at hcan'
    cases hcan'
  · have hlate : ¬ (s.now : Time) < p.ready := by
      rw [← hscan.now]
      exact fun hlt => hlate' (lt_of_lt_of_le hlt hready)
    rw [canIssue.eq_def, if_neg hlate', huop, hscan.now, hscan.last_store, hscan.load_queue,
      hscan.store_queue] at hcan'
    rw [canIssue.eq_def, if_neg hlate]
    exact hcan'

theorem sameScan_initCycle (h : SameScan s s') : SameScan (initCycle cfg s) (initCycle cfg s') := by
  refine ⟨h.now, h.period, h.last_store, h.load_queue, h.store_queue, ?_, h.memory⟩
  rw [initCycle, initCycle, h.contention, h.now]

theorem Sheltered.turn (h : Sheltered cfg s) (hd : Dispatching cfg s s') :
    Turn cfg (initCycle cfg s') 0 .start := by
  intro _
  refine ⟨fun j hj => absurd hj (Nat.not_lt_zero j), fun k _ b' hb' hfences hmay => ?_⟩
  have hnow : s'.now = s.now := hd.scan.now
  obtain ⟨b, hb, hw⟩ := hd.entries k b' hb'
  obtain ⟨hdone, hstore, hmay⟩ := hmay
  have hmay' : MayIssue s k b := by
    refine ⟨hw.done.symm.trans hdone, ?_, hmay.imp (fun hready => ?_) fun hready => ?_⟩
    · rw [← hnow, ← hd.scan.last_store]
      exact hstore
    · obtain ⟨hk, hready⟩ := hready
      have hready : b'.ready ≤ (s.now : Time) := hnow ▸ hready
      have hlt : k < s.m_num_in_rob := by
        by_contra hge
        exact absurd hready (not_le.mpr (hw.now (Nat.le_of_not_lt hge) hk))
      exact ⟨hlt, hw.before hlt ▸ hready⟩
    · obtain ⟨htop, j, hj, p', hp', hpdone, hlatency, hkind⟩ := hready
      obtain ⟨p, hp, hwp⟩ := hd.entries j p' hp'
      exact ⟨hw.unready htop, j, hj, p, hp, hwp.done ▸ hpdone, hwp.uop ▸ hlatency, hwp.uop ▸ hkind⟩
  have hk : k < s.rob.length := (List.getElem?_eq_some_iff.mp hb).1
  refine (h k hk b hb (hw.uop ▸ hfences) hmay').imp (fun hclear j hj p' hp' => ?_) fun hblocked => ?_
  · obtain ⟨p, hp, hwp⟩ := hd.entries j p' hp'
    show p'.done ≤ (s'.now : Time)
    rw [hwp.done, hnow]
    exact hclear j hj p hp
  · obtain ⟨o, ho, p, hp, hpdone, holdest, hstuck⟩ := hblocked
    obtain ⟨p', hp'⟩ : ∃ p', s'.rob[o]? = some p' := by
      have hk' : k < s'.rob.length := (List.getElem?_eq_some_iff.mp hb').1
      exact ⟨_, List.getElem?_eq_getElem (Nat.lt_trans ho hk')⟩
    obtain ⟨q, hq, hwp⟩ := hd.entries o p' hp'
    cases Option.some.inj (hp.symm.trans hq)
    refine ⟨o, ho, p', hp', hwp.done.trans hpdone, fun j hj q' hq' => ?_,
      hstuck.imp (fun hst => hwp.uop ▸ hst)
        fun hheld => hheld.later (sameScan_initCycle hd.scan) hwp.uop hwp.ready⟩
    obtain ⟨q, hq, hwq⟩ := hd.entries j q' hq'
    rw [hwq.done]
    exact holdest j hj q hq

/-! ### After an issue -/

theorem removeDependency_execLatency {uop uop' : DynamicMicroOp Reg} {d}
    (h : uop.removeDependency d = .ok uop') : uop'.execLatency = uop.execLatency := by
  rw [removeDependency] at h
  split at h
  · obtain ⟨⟨n, l⟩, -, rfl⟩ := of_map_ok h
    rfl
  · obtain ⟨l, -, rfl⟩ := of_map_ok h
    rfl

/-- What a dependant hears, as far as the scan sees it. -/
structure Heard (cycle_depend : Nat) (e e' : RobEntry Reg) : Prop where
  core : e'.core = e.core
  execLatency : e'.uop.execLatency = e.uop.execLatency
  ready : e'.ready = e.ready ∨ e.ready = ⊤ ∧ (cycle_depend : Time) ≤ e'.ready

/-- An entry that is ready waits for nothing. -/
def Awaits (rob : List (RobEntry Reg)) : Prop :=
  ∀ e ∈ rob, e.ready ≠ ⊤ → e.uop.getDependencies = []

theorem notify_heard {rob seqnr cycle_depend} {e e' : RobEntry Reg}
    (h : notify rob seqnr cycle_depend e = .ok e')
    (hawaits : e.ready ≠ ⊤ → e.uop.getDependencies = []) :
    Heard cycle_depend e e' ∧ (e'.ready ≠ ⊤ → e'.uop.getDependencies = []) := by
  rw [notify] at h
  split at h
  case isTrue => cases h
  case isFalse hne =>
    obtain ⟨uop, hremove, h⟩ := of_bind_ok h
    obtain ⟨hsame, -⟩ := removeDependency_ok hremove
    have htop : e.ready = ⊤ := by
      by_contra hready
      exact hne (hawaits hready)
    have hrest := (resolve_ok h).rest
    have hready : e'.ready = if uop.getDependencies = [] then max e.readyMax (cycle_depend : Time)
        else e.ready := by rw [hrest]
    have huop : e'.uop = uop := by rw [hrest]
    refine ⟨⟨?_, ?_, ?_⟩, fun hnetop => ?_⟩
    · rw [hrest]
      simp only [RobEntry.core, RobEntry.seqnr, hsame.m_uop, hsame.sequenceNumber]
    · rw [huop]
      exact removeDependency_execLatency hremove
    · rw [hready]
      split
      · exact .inr ⟨htop, le_max_right _ _⟩
      · exact .inl rfl
    · rw [hready] at hnetop
      rw [huop]
      split at hnetop
      · assumption
      · exact absurd htop hnetop

theorem Heard.done {cycle_depend} {e e' : RobEntry Reg} (h : Heard cycle_depend e e') :
    e'.done = e.done := congrArg Core.done h.core

theorem Heard.refl (cycle_depend : Nat) (e : RobEntry Reg) : Heard cycle_depend e e :=
  ⟨rfl, rfl, .inl rfl⟩

theorem Heard.trans {cycle_depend : Nat} {e e' e'' : RobEntry Reg} (h : Heard cycle_depend e e')
    (h' : Heard cycle_depend e' e'') : Heard cycle_depend e e'' := by
  refine ⟨h'.core.trans h.core, h'.execLatency.trans h.execLatency, ?_⟩
  rcases h'.ready with heq | ⟨htop, hle⟩
  · rw [heq]
    exact h.ready
  · rcases h.ready with heq | ⟨htop', -⟩
    · exact .inr ⟨heq ▸ htop, hle⟩
    · exact .inr ⟨htop', hle⟩

theorem notifyAll_heard {rob rob' : List (RobEntry Reg)} {seqnr cycle_depend : Nat}
    {rest : List Nat} (h : notifyAll seqnr cycle_depend rest rob = .ok rob') (hunique : Unique rob)
    (hawaits : Awaits rob) {k : Nat} {p' : RobEntry Reg} (hp' : rob'[k]? = some p') :
    ∃ p, rob[k]? = some p ∧ Heard cycle_depend p p' := by
  induction rest generalizing rob with
  | nil =>
    cases h
    exact ⟨p', hp', .refl _ _⟩
  | cons x rest ih =>
    rw [notifyAll] at h
    obtain ⟨e, hfind, h⟩ := of_bind_ok h
    obtain ⟨e', hnotify, h⟩ := of_bind_ok h
    obtain ⟨he, hx⟩ := findEntry_ok hfind
    obtain ⟨hheard, hawaits'⟩ := notify_heard hnotify (hawaits e he)
    have hunique' : Unique (updateEntry rob x fun _ => e') :=
      hunique.modify fun _ _ _ => (congrArg Core.seqnr hheard.core).trans hx
    have hall : Awaits (updateEntry rob x fun _ => e') := by
      intro p hp
      obtain ⟨q, hq, rfl⟩ := mem_updateEntry.mp hp
      split
      · exact hawaits'
      · exact hawaits q hq
    obtain ⟨p, hp, hheard'⟩ := ih h hunique' hall
    rw [updateEntry, List.getElem?_map] at hp
    obtain ⟨q, hq, rfl⟩ := Option.map_eq_some_iff.mp hp
    refine ⟨q, hq, ?_⟩
    split at hheard'
    case isTrue hqx =>
      rw [hunique q (List.mem_of_getElem? hq) e he (hqx.trans hx.symm)]
      exact hheard.trans hheard'
    case isFalse => exact hheard'

theorem Inv.awaits {base} (h : Inv cfg base s) : Awaits s.rob :=
  fun e he hne => ((h.fed e he).ready hne).1

theorem Inv.issuing_entries {base i : Nat} (h : Inv cfg base s) {e : RobEntry Reg}
    (he : s.rob[i]? = some e) {issue : Issue Reg} (hs' : Issuing s s' e issue) {k : Nat}
    {p' : RobEntry Reg} (hp' : s'.rob[k]? = some p') :
    ∃ p, s.rob[k]? = some p ∧ p'.uop.m_uop = p.uop.m_uop ∧
      (k = i → p'.done = (issue.done : Time)) ∧
      (k ≠ i → Heard issue.available p p') := by
  obtain ⟨uop, hsame, hdeps, hnotify⟩ := hs'.rob
  have hmem : e ∈ s.rob := List.mem_of_getElem? he
  have hunique : Unique (updateEntry s.rob e.seqnr fun p => p.issue uop s.now issue.done) :=
    h.unique.modify fun _ _ _ => hsame.sequenceNumber
  have hawaits : Awaits (updateEntry s.rob e.seqnr fun p => p.issue uop s.now issue.done) := by
    intro p hp hne
    obtain ⟨q, hq, rfl⟩ := mem_updateEntry.mp hp
    split
    case isTrue hqe =>
      rw [if_pos hqe] at hne
      obtain rfl := h.unique q hq e hmem hqe
      exact hdeps.trans (h.awaits q hq hne)
    case isFalse hqe =>
      rw [if_neg hqe] at hne
      exact h.awaits q hq hne
  obtain ⟨p, hp, hheard⟩ := notifyAll_heard hnotify hunique hawaits hp'
  rw [updateEntry, List.getElem?_map] at hp
  obtain ⟨q, hq, rfl⟩ := Option.map_eq_some_iff.mp hp
  have hqseq := h.seqnr_of_getElem hq
  have heseq := h.seqnr_of_getElem he
  refine ⟨q, hq, ?_⟩
  split at hheard
  case isTrue hqe =>
    have hki : k = i := by omega
    obtain rfl := h.unique q (List.mem_of_getElem? hq) e hmem hqe
    exact ⟨(congrArg Core.uop hheard.core).trans hsame.m_uop,
      fun _ => hheard.done, fun hne => absurd hki hne⟩
  case isFalse hqe =>
    have hki : k ≠ i := by
      intro heq
      subst heq
      omega
    exact ⟨congrArg Core.uop hheard.core, fun heq => absurd heq hki, fun _ => hheard⟩

theorem Turn.issue {base i : Nat} {scan scan' : Scan} (h : Turn cfg s i scan)
    (hinv : Inv cfg base s) (hperiod : 0 < s.period) {e : RobEntry Reg}
    (he : s.rob[i]? = some e) (hdone : e.done = ⊤) (hheld : ¬ HeldBack cfg s scan e)
    {issue : Issue Reg} (hs' : Issuing s s' e issue)
    (hscan : scan'.head_of_queue = scan.head_of_queue) : Turn cfg s' (i + 1) scan' := by
  intro hhead
  obtain ⟨hissued, hturn⟩ := h (hscan ▸ hhead)
  have hentry : ∀ {k p'}, s'.rob[k]? = some p' → ∃ p, s.rob[k]? = some p ∧
      p'.uop.m_uop = p.uop.m_uop ∧ (k = i → p'.done = (issue.done : Time)) ∧
      (k ≠ i → Heard issue.available p p') := fun hp' => hinv.issuing_entries he hs' hp'
  refine ⟨fun j hj q' hq' => ?_, fun k hk b' hb' hfences hmay => ?_⟩
  · obtain ⟨q, hq, -, hat, hother⟩ := hentry hq'
    rcases Nat.lt_succ_iff_lt_or_eq.mp hj with hj | hj
    · rw [(hother (Nat.ne_of_lt hj)).done]
      exact hissued j hj q hq
    · rw [hat hj]
      exact time_ne_top _
  · exfalso
    obtain ⟨hdone', hstore', hmay⟩ := hmay
    rw [hs'.now] at hstore' hmay
    -- a store that has issued keeps the barriers waiting itself
    have hkind : issue.uop.isStore = false := by
      cases hkind : issue.uop.isStore with
      | false => rfl
      | true =>
        have hlater := hs'.last_store
        rw [if_pos hkind] at hlater
        omega
    have hlast : s'.last_store_done = s.last_store_done := by
      have hlast := hs'.last_store
      rw [if_neg (by rw [hkind]; exact Bool.false_ne_true)] at hlast
      exact hlast
    obtain ⟨b, hb, huop, -, hother⟩ := hentry hb'
    have hheard := hother (by omega)
    have hbdone : b.done = ⊤ := hheard.done.symm.trans hdone'
    have hmay' : MayIssue s k b := by
      refine ⟨hbdone, hlast ▸ hstore', ?_⟩
      rcases hmay with ⟨hlt, hready⟩ | ⟨htop, j, hj, p', hp', hpdone, hlatency, hpkind⟩
      · rcases hheard.ready with heq | ⟨htop, hle⟩
        · exact .inl ⟨hs'.num_in_rob ▸ hlt, heq ▸ hready⟩
        · right
          refine ⟨htop, i, by omega, e, he, hdone, ?_, hs'.uop ▸ hkind⟩
          by_contra hpos
          have hnow := hs'.latency (.inr hpos)
          have hle' := time_le.mp (hle.trans hready)
          omega
      · right
        obtain ⟨p, hp, hpuop, hat, hpother⟩ := hentry hp'
        have hji : j ≠ i := by
          intro heq
          rw [hat heq] at hpdone
          exact time_ne_top _ hpdone
        have hpheard := hpother hji
        refine ⟨?_, j, hj, p, hp, hpheard.done.symm.trans hpdone,
          hpheard.execLatency ▸ hlatency, hpuop ▸ hpkind⟩
        exact hheard.ready.elim (fun heq => heq ▸ htop) And.left
    rcases hturn k (by omega) b hb (huop ▸ hfences) hmay' with hclear | hblocked
    · have hle := hclear i (by omega) e he
      rw [hdone] at hle
      exact time_ne_top _ (top_le_iff.mp hle)
    · obtain ⟨o, -, p, hp, hpdone, holdest, hstuck⟩ := hblocked
      rcases Nat.lt_trichotomy o i with ho | rfl | ho
      · exact hissued o ho p hp hpdone
      · cases Option.some.inj (he.symm.trans hp)
        refine hstuck.elim (fun hst => ?_) hheld
        rw [← hs'.uop, hkind] at hst
        cases hst
      · exact holdest i ho e he hdone

end Sniper.Timing.Rob
