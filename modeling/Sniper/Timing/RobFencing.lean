import Sniper.Timing.RobShelter

/-! # Runs with barriers

In a run of careful steps every event respects the barriers. A load or store that enters behind a
barrier depends on the last one, and that one has everything older done when it issues.
-/
namespace Sniper.Timing.Rob
open Lib.Simulation DynamicMicroOp

variable {Reg K M : Type} {cfg : Config Reg K M} {base : Nat}
  {s s' : RobTimer Reg K M}

/-- What a careful run keeps. -/
structure Guarded (cfg : Config Reg K M) (base : Nat) (s : RobTimer Reg K M) : Prop where
  inv : Inv cfg base s
  fencing : Fencing base s.now s.memoryDependencies.membar s.log
  period : 0 < s.period

namespace Guarded

theorem committed (h : Guarded cfg base s) {b} (hb : b < base) :
    ∃ j ∈ issues s.log, j.seqnr = b ∧ j.done ≤ s.now := by
  obtain ⟨j, hj, rfl⟩ := h.inv.order.committed b hb
  exact ⟨j, hj, rfl, h.fencing.old j hj hb⟩

theorem finished (h : Guarded cfg base s) {p} (hp : p ∈ s.rob) (hdone : p.done ≤ (s.now : Time)) :
    ∃ j ∈ issues s.log, j.seqnr = p.seqnr ∧ j.done ≤ s.now := by
  have hne : p.done ≠ ⊤ := fun htop => time_ne_top s.now (top_le_iff.mp (htop ▸ hdone))
  obtain ⟨j, hj, hseq, hjdone⟩ := h.inv.order.done p.core (List.mem_map_of_mem hp) hne
  refine ⟨j, hj, hseq, time_le.mp ?_⟩
  rw [← hjdone]
  exact hdone

/-! ### Issue -/

theorem fenced (h : Guarded cfg base s) {i scan} (hturn : Turn cfg s i scan) {e}
    (he : s.rob[i]? = some e) (hi : i < s.m_num_in_rob) (hdone : e.done = ⊤)
    (hready : e.ready ≤ (s.now : Time)) (hin : InTurn s scan e) {issue} (hs' : Issuing s s' e issue) :
    Fenced (.issued issue) s.log := by
  have hmem : e ∈ s.rob := List.mem_of_getElem? he
  have heseq := h.inv.seqnr_of_getElem he
  refine ⟨fun hfences => ?_, fun hacc b uop producers hb hlt hmembar => ?_⟩
  · rw [hs'.uop] at hfences
    obtain ⟨hhead, hstore⟩ := hin hfences
    obtain ⟨hissued, hturn⟩ := hturn hhead
    have hclear : Clear s i := by
      refine (hturn i (Nat.le_refl i) e he hfences ⟨hdone, hstore, .inl ⟨hi, hready⟩⟩).resolve_right
        fun hblocked => ?_
      obtain ⟨o, ho, p, hp, hpdone, -⟩ := hblocked
      exact hissued o ho p hp hpdone
    rw [hs'.last_store_done, hs'.issued, hs'.seqnr]
    refine ⟨hstore, fun n hn => ?_⟩
    by_cases hbase : n < base
    · exact h.committed hbase
    · have hlt : n - base < s.rob.length := by
        have hlen := (List.getElem?_eq_some_iff.mp he).1
        omega
      have hp := List.getElem?_eq_getElem hlt
      have hpseq := h.inv.seqnr_of_getElem hp
      obtain ⟨j, hj, hjseq, hjdone⟩ := h.finished (List.getElem_mem hlt)
        (hclear (n - base) (by omega) _ hp)
      exact ⟨j, hj, by omega, hjdone⟩
  · rw [hs'.uop] at hacc
    rw [hs'.seqnr] at hlt
    rw [hs'.issued]
    have hentered := h.inv.order.entries e.core (List.mem_map_of_mem hmem)
    rcases h.fencing.behind e.seqnr e.uop.m_uop e.producers hentered hacc b hlt
      ⟨uop, producers, hb, hmembar⟩ with hj | ⟨m, hm, hle, uop', producers', hentry, hmembar'⟩
    · exact hj
    · obtain ⟨i, hi, rfl, havailable⟩ := ((h.inv.fed e hmem).available hready).1 m hm
      rcases Nat.eq_or_lt_of_le hle with rfl | hlt
      · exact ⟨i, hi, rfl, havailable⟩
      · -- the last barrier had this one done
        have huop : i.uop = uop' :=
          (h.inv.order.disciplined.entered_unique (h.inv.order.disciplined.issued_entered hi)
            hentry).1
        have hfences : Fences i.uop := by
          rw [Fences, huop, hmembar', Bool.or_true]
        obtain ⟨j, hj, hjseq, hjdone⟩ := h.fencing.barred.done hi hfences hlt
        refine ⟨j, hj, hjseq, ?_⟩
        have havailable' := h.inv.order.available j hj
        have hwithin := h.fencing.within i hi
        omega

theorem issuing (h : Guarded cfg base s) {i scan} (hturn : Turn cfg s i scan) {e}
    (he : s.rob[i]? = some e) (hi : i < s.m_num_in_rob) (hdone : e.done = ⊤)
    (hready : e.ready ≤ (s.now : Time)) (hin : InTurn s scan e) {issue} (hs' : Issuing s s' e issue) :
    Guarded cfg base s' := by
  refine ⟨h.inv.issuing he hi hdone hready hs', ?_, hs'.period ▸ h.period⟩
  rw [hs'.now, hs'.memory, hs'.log]
  refine h.fencing.cons (fun _ _ _ => nofun) (h.fenced hturn he hi hdone hready hin hs')
    (fun j hj hlt => ?_) fun j hj => ?_
  · rcases List.mem_cons.mp hj with rfl | hj
    · have heseq := h.inv.seqnr_of_getElem he
      have hseq := hs'.seqnr
      omega
    · exact h.fencing.old j hj hlt
  · cases hj
    exact hs'.available.1

end Guarded

theorem Issuing.of_contends {s₁} (hs₁ : Contends s s₁) {e issue} (h : Issuing s₁ s' e issue) :
    Issuing s s' e issue := by
  obtain ⟨k, rfl⟩ := hs₁
  exact ⟨h.seqnr, h.uop, h.producers, h.last_store_done, h.issued, h.available, h.latency, h.later,
    h.address, h.last_store, h.rob, h.num_in_rob, h.rs_entries, h.next, h.memory, h.now, h.period,
    h.log⟩

theorem Turn.skip {i scan} (h : Turn cfg s i scan) {e} (he : s.rob[i]? = some e)
    (hdone : e.done ≠ ⊤) (t : Time) :
    Turn cfg s (i + 1) { scan with next_event := t } := by
  intro hhead
  obtain ⟨hissued, hturn⟩ := h hhead
  refine ⟨fun j hj q hq => ?_, fun k hk b hb hfences hmay => ?_⟩
  · rcases Nat.lt_succ_iff_lt_or_eq.mp hj with hj | rfl
    · exact hissued j hj q hq
    · cases Option.some.inj (he.symm.trans hq)
      exact hdone
  · refine (hturn k (Nat.le_of_succ_le hk) b hb hfences hmay).imp_right fun hblocked => ?_
    obtain ⟨o, ho, p, hp, hpdone, holdest, hstuck⟩ := hblocked
    exact ⟨o, ho, p, hp, hpdone, holdest, hstuck.imp_right (heldBack_next_event scan p t).mpr⟩

namespace Guarded

theorem contends (h : Guarded cfg base s) (hs' : Contends s s') : Guarded cfg base s' := by
  obtain ⟨k, rfl⟩ := hs'
  exact ⟨h.inv.congr rfl rfl rfl rfl rfl, h.fencing, h.period⟩

theorem issueLoop (h : Guarded cfg base s) {count i} (hi : i + count ≤ s.m_num_in_rob) {scan}
    (hturn : Turn cfg s i scan) {t} (hs' : Rob.issueLoop cfg count i s scan = .ok (s', t)) :
    Guarded cfg base s' := by
  induction count generalizing i s scan with
  | zero =>
    cases hs'
    exact h
  | succ count ih =>
    have hlt : i < s.rob.length := by
      have hfits := h.inv.order.fits
      rw [List.length_map] at hfits
      omega
    obtain ⟨e, he⟩ : ∃ e, s.rob[i]? = some e := ⟨_, List.getElem?_eq_getElem hlt⟩
    rcases issueLoop_succ cfg count scan he with
      ⟨hdone, heq⟩ | ⟨-, s₁, t₁, hs₁, heq⟩ | ⟨-, s₁, scan₁, hs₁, hhead, heq⟩ |
      ⟨hdone, hready, hin, hheld, s₁, t₁, k, hs₁, heq, hk⟩
    · rw [heq] at hs'
      exact ih h (by omega) (hturn.skip he hdone _) hs'
    · rw [heq] at hs'
      cases hs'
      exact h.contends hs₁
    · rw [heq] at hs'
      have hnum : s₁.m_num_in_rob = s.m_num_in_rob := by
        obtain ⟨c, rfl⟩ := hs₁
        rfl
      exact ih (h.contends hs₁) (by omega)
        (fun htrue => absurd (hhead.symm.trans htrue) Bool.false_ne_true) hs'
    · rw [heq] at hs'
      obtain ⟨⟨s₂, t₂⟩, hs₂, hs'⟩ := of_bind_ok hs'
      obtain ⟨issue, hissue⟩ := issueInstruction_ok hs₂
      have hissue := hissue.of_contends hs₁
      have h₂ := h.issuing hturn he (by omega) hdone hready hin hissue
      rcases hk s₂ t₂ with ⟨t', hstop⟩ | ⟨scan₂, hscan, hgo⟩
      · rw [hstop] at hs'
        cases hs'
        exact h₂
      · rw [hgo] at hs'
        exact ih h₂ (by rw [hissue.num_in_rob]; omega)
          (hturn.issue h.inv h.period he hdone hheld hissue hscan) hs'

/-! ### Commit -/

theorem commit {front rob} (h : Guarded cfg base { s with rob := front :: rob })
    (hdone : front.done ≤ (s.now : Time)) :
    Guarded cfg (base + 1) { s with
      rob := rob
      m_num_in_rob := s.m_num_in_rob - 1
      log := .committed front.seqnr :: s.log } := by
  refine ⟨h.inv.commit hdone, h.fencing.cons (fun _ _ _ => nofun) trivial (fun j hj hlt => ?_)
    (fun _ => nofun), h.period⟩
  rcases Nat.lt_succ_iff_lt_or_eq.mp hlt with hlt | heq
  · exact h.fencing.old j hj hlt
  · have hfront : front.seqnr = base := h.inv.seqnr_of_getElem (i := 0) rfl
    -- what has issued under this number is the oldest micro-op
    rcases h.inv.order.issued j hj with hlt | ⟨c, hc, hcj, hcdone⟩
    · omega
    · have hcf : c = front.core :=
        h.inv.order.eq_of_seqnr hc (List.mem_cons_self ..) (hcj.trans (heq.trans hfront.symm))
      rw [hcf] at hcdone
      exact time_le.mp (hcdone ▸ hdone)

theorem commitLoop {rob} (h : Guarded cfg base { s with rob := rob }) (num_committed : Nat) :
    ∃ base', Guarded cfg base' (Rob.commitLoop cfg s rob num_committed) := by
  induction rob generalizing base s num_committed with
  | nil => exact ⟨base, h⟩
  | cons front rob ih =>
    rw [Rob.commitLoop]
    split
    case isTrue hdone =>
      have h₁ := h.commit hdone
      dsimp only
      split
      · exact ⟨_, h₁⟩
      · exact ih h₁ _
    case isFalse => exact ⟨base, h⟩

/-! ### Entering -/

theorem behind (h : Guarded cfg base s) {producers : List Nat}
    (hproducers : ∀ m, s.memoryDependencies.membar = some m →
      (∀ front ∈ s.rob.head?, front.seqnr < m) → s.rob ≠ [] →
      m ∈ producers ∨ ∃ p ∈ s.rob, p.seqnr = m ∧ p.uop.m_uop.isStore = true)
    (hfront : ∀ front ∈ s.rob.head?, s.memoryDependencies.membar = some front.seqnr →
      front.done ≤ (s.now : Time)) {b : Nat} (hb : IsBarrier s.log b) :
    (∃ j ∈ issues s.log, j.seqnr = b ∧ j.available ≤ s.now) ∨
      ∃ m ∈ producers, b ≤ m ∧ IsBarrier s.log m := by
  have havailable : (∃ j ∈ issues s.log, j.seqnr = b ∧ j.done ≤ s.now) →
      ∃ j ∈ issues s.log, j.seqnr = b ∧ j.available ≤ s.now := by
    intro hj
    obtain ⟨j, hj, hjb, hle⟩ := hj
    exact ⟨j, hj, hjb, (h.inv.order.available j hj).trans hle⟩
  by_cases hbase : b < base
  · exact .inl (havailable (h.committed hbase))
  obtain ⟨m, hm, hle⟩ := h.fencing.recorded b hb
  cases hrob : s.rob with
  | nil =>
    obtain ⟨uop, ps, hb, -⟩ := hb
    have hlt := h.inv.order.disciplined.entered_lt hb
    have htotal := h.inv.order.total
    rw [hrob] at htotal
    rw [h.inv.order.length_entered, htotal] at hlt
    exact absurd hlt hbase
  | cons front rob =>
    have hhead : front ∈ s.rob.head? := by rw [hrob]; rfl
    have hmem : front ∈ s.rob := List.mem_of_mem_head? hhead
    have hseq : front.seqnr = base := h.inv.seqnr_of_getElem (i := 0) (by rw [hrob]; rfl)
    rcases Nat.lt_trichotomy front.seqnr m with hlt | rfl | hlt
    · have hbm := h.fencing.barrier m hm
      rcases hproducers m hm (fun f hf => by cases Option.some.inj (hhead.symm.trans hf); exact hlt)
        (by rw [hrob]; exact List.cons_ne_nil _ _) with hmem | ⟨p, hp, rfl, hstore⟩
      · exact .inr ⟨m, hmem, hle, hbm⟩
      · -- a barrier is no store
        obtain ⟨uop, ps, hentry, hmembar⟩ := hbm
        have hentered := h.inv.order.entries p.core (List.mem_map_of_mem hp)
        have huop := (h.inv.order.disciplined.entered_unique hentered hentry).1
        have hplain := h.fencing.plain _ _ _ hentry (by
          rw [← huop]
          exact Bool.or_eq_true_iff.mpr (.inr hstore))
        rw [hmembar] at hplain
        cases hplain
    · left
      have hbf : b = front.seqnr := by omega
      rw [hbf]
      obtain ⟨j, hj, hjseq, hjdone⟩ := h.finished hmem (hfront front hhead hm)
      exact ⟨j, hj, hjseq, (h.inv.order.available j hj).trans hjdone⟩
    · omega

theorem enter [DecidableEq Reg] (h : Guarded cfg base s) {uop : DynamicMicroOp Reg}
    (hdecoded : uop.m_uop.Decoded cfg.decoder) (hcareful : Careful cfg s (.enter uop))
    (hs' : Rob.enter cfg s uop = .ok s') : Guarded cfg base s' := by
  have hinv := h.inv.enter hdecoded hs'
  rcases enter_cases hs' with ⟨hsquashed, rfl⟩ | ⟨hsquashed, e₁, registers, uop₁, memory, uop₂,
    uop₃, rob, dtr, readyMax, uop₄, haddr, hreg, hmem, hforward, hlink, hremove, rfl⟩
  · exact h
  · have hrest := (setAddress_ok haddr rfl rfl rfl).1
    have huop : e₁.uop = { uop with sequenceNumber := s.nextSequenceNumber } := by rw [hrest]; rfl
    have hsame₁ := (RegisterDependencies.setDependencies_ok
      (by rw [huop]; exact hdecoded) hreg).1.same
    obtain ⟨hgrows₂, hbarrier, hmembar⟩ := MemoryDependencies.setDependencies_ok hmem
    obtain ⟨hsame₃, -, hkeeps⟩ := forward_ok hforward
    have hm_uop₁ : uop₁.m_uop = uop.m_uop := hsame₁.m_uop.trans (by rw [huop])
    have hm_uop : uop₄.m_uop = uop.m_uop :=
      ((hgrows₂.same.trans hsame₃).trans (removeDependencies_ok hremove).1).m_uop.trans hm_uop₁
    have hseq₁ : uop₁.sequenceNumber = s.nextSequenceNumber :=
      hsame₁.sequenceNumber.trans (by rw [huop])
    refine ⟨hinv, ?_, h.period⟩
    have hcareful := hcareful (Bool.not_eq_true _ ▸ hsquashed)
    refine h.fencing.entered ?_ ?_ ?_ ?_
    · rw [hm_uop]
      exact fun hacc => (hcareful hacc).1
    · rw [hm_uop, hmembar, hm_uop₁, hseq₁, accesses, Bool.not_or]
    · intro y uop' producers' hy
      rw [← h.inv.order.length_entered]
      exact h.inv.order.disciplined.entered_lt hy
    · rw [hm_uop]
      intro hacc b hb
      refine h.behind (fun m hm hfront hne => ?_) (hcareful hacc).2 hb
      refine hkeeps m (hbarrier ?_ m hm ?_)
      · rw [hm_uop₁, Bool.or_eq_true_iff]
        exact .inl hacc
      · cases hrob : s.rob with
        | nil => exact absurd hrob hne
        | cons front rest => exact hfront front (by rw [hrob]; rfl)

/-! ### Calls -/

theorem cycle (h : Guarded cfg base s) (hsheltered : Sheltered cfg s) {t}
    (hs' : Rob.cycle cfg s = .ok (s', t)) : ∃ base', Guarded cfg base' s' := by
  obtain ⟨⟨s₁, t₁⟩, hdispatch, hs'⟩ := of_bind_ok hs'
  obtain ⟨⟨s₂, t₂⟩, hissue, hs'⟩ := of_bind_ok hs'
  cases hs'
  have hd := h.inv.doDispatch_dispatching h.period hdispatch
  have h₁ : Guarded cfg base (initCycle cfg s₁) := by
    refine ⟨(h.inv.doDispatch hdispatch).congr rfl rfl rfl rfl rfl, ?_, ?_⟩
    · show Fencing base s₁.now s₁.memoryDependencies.membar s₁.log
      rw [hd.scan.now, hd.scan.memory]
      exact hd.fencing _ _ _ h.fencing
    · show 0 < s₁.period
      rw [hd.scan.period]
      exact h.period
  have h₂ : Guarded cfg base s₂ :=
    h₁.issueLoop (by rw [Nat.zero_add]; rfl) (hsheltered.turn hd) hissue
  exact commitLoop (s := s₂) h₂ 0

theorem execute (h : Guarded cfg base s) (hcareful : Careful cfg s .execute) {latency}
    (hs' : Rob.execute cfg s = .ok (s', latency)) : ∃ base', Guarded cfg base' s' := by
  rw [Rob.execute] at hs'
  split at hs'
  case isTrue =>
    cases hs'
    exact ⟨base, h⟩
  case isFalse hstarved =>
    obtain ⟨⟨s₁, t₁⟩, hcycle, hs'⟩ := of_bind_ok hs'
    obtain ⟨base', h₁⟩ := h.cycle (hcareful (Bool.not_eq_true _ ▸ hstarved)) hcycle
    cases hs'
    exact ⟨base', h₁.inv.congr rfl rfl rfl rfl rfl, h₁.fencing.tick (Nat.le_add_right _ _),
      h₁.period⟩

theorem exec [DecidableEq Reg] (h : Guarded cfg base s) {call} (ha : Allowed cfg call)
    (hcareful : Careful cfg s call)
    (hs' : Rob.exec cfg s call = .ok s') :
    ∃ base', Guarded cfg base' s' := by
  cases call with
  | enter uop => exact ⟨base, h.enter ha.1 hcareful hs'⟩
  | execute =>
    obtain ⟨⟨s₁, t⟩, hexec, rfl⟩ := of_map_ok hs'
    exact h.execute hcareful hexec
  | synchronize time =>
    cases hs'
    exact ⟨base, h.inv.congr rfl rfl rfl rfl rfl, h.fencing.tick hcareful, h.period⟩
  | setPeriod period =>
    cases hs'
    exact ⟨base, h.inv.congr rfl rfl rfl rfl rfl, h.fencing, ha⟩

theorem init (h : Init cfg s) : Guarded cfg 0 s := by
  refine ⟨.init h, ?_, h.period⟩
  have hnone : ∀ event ∈ s.log, False := by
    rw [h.log]
    exact nofun
  have hmembar : s.memoryDependencies.membar = none := by rw [h.memory]
  rw [h.log, hmembar]
  exact ⟨nofun, nofun, nofun, fun b hb => (by obtain ⟨_, _, hb, -⟩ := hb; cases hb), nofun, nofun,
    trivial⟩

end Guarded

variable [DecidableEq Reg]

/-- In a run of careful steps the events respect the barriers. -/
theorem careful_barred (h : Reachable (Init cfg) (CarefulStep cfg) s) : Barred s.log := by
  have hguarded : ∃ base, Guarded cfg base s := by
    refine h.invariant (P := fun s => ∃ base, Guarded cfg base s) (fun s hs => ⟨0, .init hs⟩)
      fun s s' ih hstep => ?_
    obtain ⟨base, h⟩ := ih
    obtain ⟨call, ha, hcareful, hs'⟩ := hstep
    exact h.exec ha hcareful hs'
  obtain ⟨base, h⟩ := hguarded
  exact h.fencing.barred

/-! ### On the small core -/

/-- A micro-op without registers. -/
def small.plain : DynamicMicroOp Nat := small.uop .execute [] [] false 1

def small.barrier : DynamicMicroOp Nat := small.uop .execute [] [] true 1

def small.load : DynamicMicroOp Nat := small.uop .load [] [] false 3

/-- The micro-ops enter, and the timer executes so often. -/
def small.feed (uops : List (DynamicMicroOp Nat)) (cycles : Nat) : List (Call Nat) :=
  uops.map .enter ++ List.replicate cycles .execute

theorem small.feed_allowed (uops : List (DynamicMicroOp Nat))
    (h : ∀ uop ∈ uops, Allowed small (.enter uop)) (cycles : Nat) :
    ∀ call ∈ small.feed uops cycles, Allowed small call := by
  intro call hcall
  rcases List.mem_append.mp hcall with hcall | hcall
  · obtain ⟨uop, huop, rfl⟩ := List.mem_map.mp hcall
    exact h uop huop
  · rw [(List.mem_replicate.mp hcall).2]
    trivial

def small.carefully (s : RobTimer Nat Unit Unit) (call : Call Nat) :
    Except Stop (RobTimer Nat Unit Unit) :=
  if Careful small s call then exec small s call else .error .assertion

/-- Four micro-ops, of which the window is full, a barrier behind them and a load behind that. -/
def small.waiting : List (DynamicMicroOp Nat) :=
  [small.plain, small.plain, small.plain, small.plain, small.barrier, small.load, small.plain,
    small.plain, small.plain, small.plain, small.plain, small.plain]

theorem careful_barred_waiting : ∃ s : RobTimer Nat Unit Unit,
    (issues s.log).map Issue.seqnr = [7, 6, 5, 4, 3, 2, 1, 0] ∧ Barred s.log := by
  have hrun : ∃ s ∈ ((small.feed small.waiting 8).foldlM small.carefully small.start).toOption,
      (issues s.log).map Issue.seqnr = [7, 6, 5, 4, 3, 2, 1, 0] := by decide +kernel
  obtain ⟨s, hs, hissues⟩ := exists_of_toOption hrun
  suffices hreachable : Reachable (Init small) (CarefulStep small) s from
    ⟨s, hissues, careful_barred hreachable⟩
  have hallowed := small.feed_allowed small.waiting
    (by simp [small.waiting, small.plain, small.barrier, small.load]) 8
  refine Reachable.foldlM (f := small.carefully) (fun call hcall s₁ s₂ hs₂ => ?_)
    (.init small.init) hs
  rw [small.carefully] at hs₂
  split at hs₂
  case isTrue hcareful => exact ⟨call, hallowed call hcall, hcareful, hs₂⟩
  case isFalse => cases hs₂

/-- A load, and a barrier behind it. -/
def small.loadFirst : List (DynamicMicroOp Nat) :=
  [small.load, small.barrier, small.plain, small.plain, small.plain, small.plain]

/-- A barrier, and a load that enters while the barrier is the oldest micro-op. -/
def small.barrierFirst : List (DynamicMicroOp Nat) :=
  [small.barrier, small.load, small.plain, small.plain, small.plain, small.plain]

/-- A barrier issues before a load in front of it is done, and a load before the result of a barrier
in front of it is available. -/
theorem barriers_overtaken :
    (∃ s, Reachable (Init small) (Step small) s ∧ ¬ Barred s.log ∧
      ∃ j ∈ issues s.log, Fences j.uop ∧ ∃ n < j.seqnr,
        ∀ i ∈ issues s.log, i.seqnr = n → j.issued < i.done) ∧
    ∃ s, Reachable (Init small) (Step small) s ∧ ¬ Barred s.log ∧
      ∃ j ∈ issues s.log, accesses j.uop = true ∧ ∃ b ∈ issues s.log, b.uop.m_membar = true ∧
        b.seqnr < j.seqnr ∧ ∀ i ∈ issues s.log, i.seqnr = b.seqnr → j.issued < i.available := by
  constructor
  · have hrun : ∃ s ∈ (small.run (small.feed small.loadFirst 2)).toOption,
        ∃ j ∈ issues s.log, Fences j.uop ∧ ∃ n < j.seqnr,
          ∀ i ∈ issues s.log, i.seqnr = n → j.issued < i.done := by decide +kernel
    obtain ⟨s, hs, hearly⟩ := exists_of_toOption hrun
    have hallowed := small.feed_allowed small.loadFirst
      (by simp [small.loadFirst, small.plain, small.barrier, small.load]) 2
    refine ⟨s, small.reachable hallowed hs, fun hbarred => ?_, hearly⟩
    obtain ⟨j, hj, hfences, n, hn, hlate⟩ := hearly
    obtain ⟨i, hi, hin, hdone⟩ := hbarred.done hj hfences hn
    exact Nat.not_lt.mpr hdone (hlate i hi hin)
  · have hrun : ∃ s ∈ (small.run (small.feed small.barrierFirst 2)).toOption,
        ∃ j ∈ issues s.log, accesses j.uop = true ∧ ∃ b ∈ issues s.log, b.uop.m_membar = true ∧
          b.seqnr < j.seqnr ∧ ∀ i ∈ issues s.log, i.seqnr = b.seqnr → j.issued < i.available := by
      decide +kernel
    obtain ⟨s, hs, hearly⟩ := exists_of_toOption hrun
    have hallowed := small.feed_allowed small.barrierFirst
      (by simp [small.barrierFirst, small.plain, small.barrier, small.load]) 2
    have hreachable := small.reachable hallowed hs
    refine ⟨s, hreachable, fun hbarred => ?_, hearly⟩
    obtain ⟨j, hj, hacc, b, hb, hmembar, hlt, hlate⟩ := hearly
    obtain ⟨base, hinv⟩ := Inv.of_reachable hreachable
    have hdisciplined := hinv.order.disciplined
    obtain ⟨i, hi, hib, havailable⟩ := hbarred.available hdisciplined hj hacc
      ⟨b.uop, b.producers, hdisciplined.issued_entered hb, hmembar⟩ hlt
    exact Nat.not_lt.mpr havailable (hlate i hi hib)

end Sniper.Timing.Rob
