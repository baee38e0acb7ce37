import Sniper.Timing.ReadyEntering
import Sniper.Timing.RobFencing

/-! # Ready times in every run

Every move keeps what the entries have gathered, and so does every call: the ready times of a
micro-op that hears of no producer too late are those of the latest of its producers.
-/
namespace Sniper.Timing.Rob
open Lib.Simulation DynamicMicroOp

variable {Reg K M : Type} {cfg : Config Reg K M} {base : Nat}
  {s s' : RobTimer Reg K M} {consumers : List Consumer}

/-- What holds of an entry: it waits for its producers only, and has gathered their times. -/
structure Kept (log : List (Event Reg)) (consumers : List Consumer) (e : RobEntry Reg) :
    Prop where
  only : ∀ p ∈ e.uop.getDependencies, p ∈ e.producers
  gathered : ∀ c ∈ consumers, c.early = [] → e.seqnr = c.seqnr → Gathered log c e

/-- What holds of a timer, with the micro-ops that have entered. -/
structure Overseen (s : RobTimer Reg K M) (consumers : List Consumer) : Prop where
  period : 0 < s.period
  stores : ∀ j ∈ issues s.log, j.uop.isStore = true → j.available = j.done
  numbered : ∀ c ∈ consumers, c.seqnr < s.nextSequenceNumber
  kept : ∀ e ∈ s.rob, Kept s.log consumers e

theorem Kept.cons {log e} (h : Kept log consumers e) (event : Event Reg) :
    Kept (event :: log) consumers e :=
  ⟨h.only, fun c hc hearly hseq => (h.gathered c hc hearly hseq).cons event⟩

namespace Overseen

/-! ### Moves -/

theorem congr (h : Overseen s consumers) (hsame : SameBuffer s s') : Overseen s' consumers := by
  refine ⟨hsame.period ▸ h.period, ?_, ?_, ?_⟩
  · rw [hsame.log]
    exact h.stores
  · rw [hsame.next]
    exact h.numbered
  · rw [hsame.rob, hsame.log]
    exact h.kept

theorem clocked (h : Overseen s consumers) (hclock : Clocked s s') : Overseen s' consumers := by
  obtain ⟨now, period, hperiod, rfl⟩ := hclock
  exact ⟨hperiod h.period, h.stores, h.numbered, h.kept⟩

theorem commit (h : Overseen s consumers) {front rob} (hrob : s.rob = front :: rob) :
    Overseen (commitFront s front rob) consumers := by
  refine ⟨h.period, h.stores, h.numbered, fun e he => ?_⟩
  have hmem : e ∈ s.rob := by
    rw [hrob]
    exact List.mem_cons_of_mem _ he
  exact (h.kept e hmem).cons _

theorem dispatch (h : Overseen s consumers) (hinv : Inv cfg base s) {e}
    (he : s.rob[s.m_num_in_rob]? = some e) : Overseen (Rob.dispatch s e) consumers := by
  refine ⟨h.period, h.stores, h.numbered, fun e' he' => ?_⟩
  obtain ⟨p, hp, rfl⟩ := mem_updateEntry.mp he'
  have hkept : Kept (.dispatched e.seqnr :: s.log) consumers p := (h.kept p hp).cons _
  split
  case isFalse => exact hkept
  case isTrue hpe =>
    refine ⟨hkept.only, fun c hc hearly hseq => ?_⟩
    have hold := (h.kept p hp).gathered c hc hearly hseq
    have hnew := hkept.gathered c hc hearly hseq
    refine ⟨hnew.producers, hnew.least, fun hne => ?_, fun hnil => ?_, fun hstore => ?_⟩
    · dsimp only
      rw [hold.waiting hne]
      exact max_eq_left le_top
    · -- it is dispatched once
      have hnot : p.seqnr ∉ dispatches s.log := by
        rw [hinv.order.mem_dispatches, hpe, hinv.seqnr_of_getElem he]
        exact Nat.lt_irrefl _
      have hready := (hold.ready hnil).resolve_right fun hlater => hnot hlater.1
      refine .inr ⟨?_, s.period, h.period, ?_⟩
      · show p.seqnr ∈ e.seqnr :: dispatches s.log
        rw [hpe]
        exact List.mem_cons_self ..
      · dsimp only
        rw [hready]
    · have haddress := hnew.address hstore
      exact ⟨haddress.sources, haddress.producers, haddress.told, haddress.least,
        haddress.address⟩

end Overseen

theorem Kept.issue {log} {e : RobEntry Reg} (h : Kept log consumers e) {uop : DynamicMicroOp Reg}
    (hsame : Same e.uop uop) (hdeps : uop.getDependencies = e.uop.getDependencies)
    (issued done : Nat) :
    Kept log consumers (e.issue uop issued done) := by
  have hseq : (e.issue uop issued done).seqnr = e.seqnr := hsame.sequenceNumber
  refine ⟨fun p hp => h.only p (hdeps ▸ hp), fun c hc hearly hc' => ?_⟩
  have hold := h.gathered c hc hearly (hseq.symm.trans hc')
  refine ⟨hold.producers, hold.least, fun hne => hold.waiting (hdeps ▸ hne), fun hnil => ?_,
    fun hstore => ?_⟩
  · rw [hseq]
    exact hold.ready (hdeps ▸ hnil)
  · have haddress := hold.address (hsame.m_uop ▸ hstore)
    refine ⟨haddress.sources, haddress.producers, ?_, haddress.least, ?_⟩
    · rw [RobEntry.issue, hdeps]
      exact haddress.told
    · rw [RobEntry.issue, hdeps]
      exact haddress.address

theorem Kept.notify {rob : List (RobEntry Reg)} {log} {issue : Issue Reg} {e e' : RobEntry Reg}
    (h : Kept log consumers e) (htelling : Telling rob log issue)
    (hpend : ∀ p ∈ e.uop.getDependencies, p = issue.seqnr ∨ Unissued (rob.map RobEntry.core) p)
    (hs : Rob.notify rob issue.seqnr issue.available e = .ok e') : Kept log consumers e' := by
  obtain ⟨hframe, hproducers, hdeps⟩ := notify_frame hs
  have hseq : e'.seqnr = e.seqnr := congrArg (fun f => f.1.seqnr) hframe
  refine ⟨fun p hp => ?_, fun c hc hearly hc' => ?_⟩
  · rw [hproducers]
    exact h.only p (hdeps p hp)
  · exact (h.gathered c hc hearly (hseq.symm.trans hc')).notify htelling h.only hpend hs

theorem Inv.first_le (h : Inv cfg base s) {rob : List (RobEntry Reg)}
    (hcore : rob.map RobEntry.core = s.rob.map RobEntry.core) {a}
    (ha : Unissued (rob.map RobEntry.core) a) : ∀ front ∈ rob.head?, front.seqnr ≤ a := by
  intro front hfront
  rw [hcore] at ha
  have hget : (s.rob.map RobEntry.core)[0]? = some front.core := by
    rw [← hcore, ← List.head?_eq_getElem?, List.head?_map, hfront]
    rfl
  have hseq : front.seqnr = base + 0 := h.order.numbered 0 front.core hget
  have hbase := h.base_le_of_unissued ha
  omega

theorem Overseen.issue (h : Overseen s consumers) (hinv : Inv cfg base s)
    (hinv' : Inv cfg base s') {i : Nat} {e : RobEntry Reg} {issue : Issue Reg}
    (he : s.rob[i]? = some e) (hs' : Issuing s s' e issue)
    (hstore : issue.uop.isStore = true → issue.available = issue.done) :
    Overseen s' consumers := by
  obtain ⟨uop, hsame, hdeps, hnotify⟩ := hs'.rob
  have hmem : e ∈ s.rob := List.mem_of_getElem? he
  have hcores := hinv.core_issue he hsame s.now issue.done
  generalize hrob : (updateEntry s.rob e.seqnr fun p => p.issue uop s.now issue.done) = rob
    at hnotify hcores
  have hunique : Unique rob := by
    rw [← hrob]
    exact hinv.unique.modify fun _ _ _ => hsame.sequenceNumber
  have hframes : s'.rob.map RobEntry.frame = rob.map RobEntry.frame :=
    (notifyAll_forall (Q := fun _ => True) hnotify hunique (fun _ _ => trivial)
      fun _ _ _ _ _ _ _ => trivial).1
  have hcores' := core_of_frame hframes
  -- while the dependants are told, the cores are those of the next state
  have htelling : ∀ rob₁ : List (RobEntry Reg), Unique rob₁ →
      rob₁.map RobEntry.frame = rob.map RobEntry.frame → Telling rob₁ s'.log issue := by
    intro rob₁ hunique₁ hframe₁
    have hcore₁ : rob₁.map RobEntry.core = s'.rob.map RobEntry.core :=
      (core_of_frame hframe₁).trans hcores'.symm
    refine ⟨hunique₁, ?_, fun j hj => ?_, fun a ha => hinv'.first_le hcore₁ ha⟩
    · rw [hs'.log]
      exact List.mem_cons_self ..
    · rw [hcore₁]
      exact hinv'.issued_not_unissued hj
  have hstart : ∀ p ∈ rob, Kept s'.log consumers p ∧
      ∀ d ∈ p.uop.getDependencies, d = issue.seqnr ∨ Unissued (rob.map RobEntry.core) d := by
    intro p' hp'
    rw [← hrob] at hp'
    obtain ⟨p, hp, rfl⟩ := mem_updateEntry.mp hp'
    have hkept : Kept s'.log consumers p := hs'.log ▸ (h.kept p hp).cons _
    have hpend : ∀ d ∈ p.uop.getDependencies,
        d = issue.seqnr ∨ Unissued (rob.map RobEntry.core) d := by
      intro d hd
      obtain ⟨q, hq, rfl, hqdone⟩ := mem_of_unissued (hinv.unissued_of_dependency hp hd)
      rw [hs'.seqnr]
      refine or_iff_not_imp_left.mpr fun hne => ?_
      refine unissued_of_mem ?_ hqdone
      rw [← hrob]
      exact mem_updateEntry.mpr ⟨q, hq, (if_neg hne).symm⟩
    split
    case isTrue hpe =>
      obtain rfl := hinv.unique p hp e hmem hpe
      exact ⟨hkept.issue hsame hdeps _ _, fun d hd => hpend d (hdeps ▸ hd)⟩
    case isFalse => exact ⟨hkept, hpend⟩
  refine ⟨hs'.period ▸ h.period, ?_, hs'.next ▸ h.numbered, fun p hp => ?_⟩
  · rw [hs'.log]
    intro j hj
    rcases List.mem_cons.mp hj with rfl | hj
    · exact hstore
    · exact h.stores j hj
  · rw [← hs'.seqnr] at hnotify
    refine ((notifyAll_forall hnotify hunique hstart ?_).2 p hp).1
    intro rob₁ p p' hunique₁ hframe₁ hp hs
    obtain ⟨hkept, hpend⟩ := hp
    refine ⟨hkept.notify (htelling rob₁ hunique₁ hframe₁) ?_ hs, fun d hd => ?_⟩
    · rw [core_of_frame hframe₁]
      exact hpend
    · exact hpend d ((notify_frame hs).2.2 d hd)

theorem Overseen.move (h : Overseen s consumers) (hinv : Inv cfg base s)
    (hmove : Move cfg s s') : Overseen s' consumers := by
  cases hmove with
  | dispatch he => exact h.dispatch hinv he
  | issue he hi hdone hready hissue hstore =>
    exact h.issue hinv (hinv.issuing he hi hdone hready hissue) he hissue hstore
  | commit hrob => exact h.commit hrob
  | other hsame => exact h.congr hsame

theorem Overseen.moves (h : Overseen s consumers) (hinv : Inv cfg base s)
    (hmoves : Moves cfg s s') : Overseen s' consumers := by
  have hall := hmoves.invariant (P := fun s => (∃ base, Inv cfg base s) ∧ Overseen s consumers)
    ⟨⟨base, hinv⟩, h⟩ ?_
  · exact hall.2
  · intro s₁ s₂ h₁ hmove
    obtain ⟨⟨base₁, hinv₁⟩, hover₁⟩ := h₁
    exact ⟨hinv₁.move hmove, hover₁.move hinv₁ hmove⟩

/-! ### Entering -/

theorem Consumer.of_ok [DecidableEq Reg] {uop uop₁ uop₂ lowest c registers memory}
    (h : Consumer.of cfg s uop = .ok c)
    (hlowest : (s.rob.headD (RobEntry.init uop uop.sequenceNumber)).seqnr = lowest)
    (hreg : s.registerDependencies.setDependencies cfg.decoder uop lowest = .ok (registers, uop₁))
    (hmem : s.memoryDependencies.setDependencies uop₁ lowest = .ok (memory, uop₂)) :
    ∃ store, storeFor cfg.m_store_to_load_forwarding s.rob uop₂ = .ok store ∧
      c = .new s.rob lowest uop₂ store
        (Consumer.addressOf cfg.decoder s.registerDependencies lowest uop.m_uop) := by
  rw [Consumer.of] at h
  dsimp only at h
  rw [hlowest] at h
  obtain ⟨⟨registers', uop₁'⟩, hreg', h⟩ := of_bind_ok h
  cases hreg.symm.trans hreg'
  obtain ⟨⟨memory', uop₂'⟩, hmem', h⟩ := of_bind_ok h
  cases hmem.symm.trans hmem'
  obtain ⟨store, hstore, h⟩ := of_bind_ok h
  rw [forwardedFrom_eq hlowest hreg hmem] at hstore
  exact ⟨store, hstore, (Except.ok.inj h).symm⟩

/-- The consumers that a call adds. -/
def consumersOf [DecidableEq Reg] (cfg : Config Reg K M) (s : RobTimer Reg K M) :
    Call Reg → List Consumer
  | .enter uop =>
    if uop.squashed then []
    else
      match Consumer.of cfg s { uop with sequenceNumber := s.nextSequenceNumber } with
      | .ok c => [c]
      | .error _ => []
  | _ => []

theorem Kept.append {log} {e : RobEntry Reg} (h : Kept log consumers e) {new}
    (hnew : ∀ c ∈ new, c.early = [] → e.seqnr = c.seqnr → Gathered log c e) :
    Kept log (new ++ consumers) e := by
  refine ⟨h.only, fun c hc hearly hseq => ?_⟩
  rcases List.mem_append.mp hc with hc | hc
  · exact hnew c hc hearly hseq
  · exact h.gathered c hc hearly hseq

theorem Kept.attach {log : List (Event Reg)} {p : RobEntry Reg} (h : Kept log consumers p)
    (x : Nat) (deps : List Nat) : Kept log consumers (attach x deps p) := by
  rw [Rob.attach]
  split
  case isFalse => exact h
  case isTrue =>
    refine ⟨h.only, fun c hc hearly hseq => ?_⟩
    have hold := h.gathered c hc hearly hseq
    refine ⟨hold.producers, hold.least, hold.waiting, hold.ready, fun hstore => ?_⟩
    have haddress := hold.address hstore
    exact ⟨haddress.sources, haddress.producers, haddress.told, haddress.least, haddress.address⟩

variable [DecidableEq Reg]

theorem Overseen.enter (h : Overseen s consumers) (hinv : Inv cfg base s)
    {uop : DynamicMicroOp Reg} (hdecoded : uop.m_uop.Decoded cfg.decoder)
    (hs' : Rob.enter cfg s uop = .ok s') :
    Overseen s' (consumersOf cfg s (.enter uop) ++ consumers) := by
  rw [consumersOf]
  rcases enter_cases hs' with ⟨hsquashed, rfl⟩ | ⟨hsquashed, e₁, registers, uop₁, memory, uop₂,
    uop₃, rob, dtr, readyMax, uop₄, haddr, hreg, hmem, hforward, hlink, hremove, rfl⟩
  · rw [if_pos hsquashed]
    exact h
  · rw [if_neg hsquashed]
    obtain ⟨hrob, -⟩ := link_ok hlink hinv.unique
    have hrest := (setAddress_ok haddr rfl rfl rfl).1
    have huop : e₁.uop = { uop with sequenceNumber := s.nextSequenceNumber } := by
      rw [hrest]
      rfl
    have hmax : e₁.readyMax = 0 := by
      rw [hrest]
      rfl
    have hsame := (RegisterDependencies.setDependencies_grows hreg).same.trans
      (MemoryDependencies.setDependencies_ok hmem).1.same
    have hseq₂ : uop₂.sequenceNumber = s.nextSequenceNumber := by
      rw [hsame.sequenceNumber, huop]
    have hseq₄ : uop₄.sequenceNumber = s.nextSequenceNumber := by
      rw [(removeDependencies_ok hremove).1.sequenceNumber,
        (forward_ok hforward).1.sequenceNumber, hseq₂]
    rw [hmax] at hlink
    subst hrob
    -- what is known of the consumer that enters
    generalize hnew : (match Consumer.of cfg s
      { uop with sequenceNumber := s.nextSequenceNumber } with
      | .ok c => [c]
      | .error _ => []) = new
    have hgathered : ∀ c ∈ new, c.seqnr = s.nextSequenceNumber ∧ (c.early = [] →
        Gathered (.entered s.nextSequenceNumber uop₄.m_uop uop₃.getDependencies :: s.log) c
          { e₁ with
            uop := uop₄
            readyMax := readyMax
            ready := if uop₄.getDependencies = [] then readyMax else e₁.ready
            producers := uop₃.getDependencies }) := by
      intro c hc
      rw [← hnew] at hc
      split at hc
      case h_2 => cases hc
      case h_1 c' hof =>
        obtain rfl := List.mem_singleton.mp hc
        have hreg' := hreg
        rw [huop] at hreg'
        obtain ⟨store, hstore, hc⟩ := Consumer.of_ok hof (by cases s.rob <;> rfl) hreg' hmem
        refine ⟨by rw [hc]; exact hseq₂, fun hearly => ?_⟩
        exact hinv.gathered_enter h.stores (fun e he => (h.kept e he).only) hdecoded
          (fun e he => hinv.head_seqnr he _) haddr hreg hmem hstore hforward hlink hremove hc
          hearly
    refine ⟨h.period, h.stores, fun c hc => ?_, fun e he => ?_⟩
    · rcases List.mem_append.mp hc with hc | hc
      · exact Nat.lt_succ_of_le (hgathered c hc).1.le
      · exact Nat.lt_succ_of_lt (h.numbered c hc)
    · rcases List.mem_append.mp he with he | he
      · obtain ⟨p, hp, rfl⟩ := List.mem_map.mp he
        refine (((h.kept p hp).cons _).attach _ _).append fun c hc _ hseq => ?_
        -- older than the one that enters
        have hseqp : (attach s.nextSequenceNumber uop₃.getDependencies p).seqnr = p.seqnr :=
          congrArg Core.seqnr (attach_core _ _ p)
        have hlt := hinv.seqnr_lt hp
        rw [hseqp, (hgathered c hc).1] at hseq
        omega
      · obtain rfl := List.mem_singleton.mp he
        refine Kept.append ⟨fun p hp => ?_, fun c hc _ hseq => ?_⟩ fun c hc hearly _ =>
          (hgathered c hc).2 hearly
        · exact (removeDependencies_ok hremove).2.symm.subset (List.mem_append_right _ hp)
        · have hlt := h.numbered c hc
          have hseq : uop₄.sequenceNumber = c.seqnr := hseq
          omega

/-! ### Runs -/

/-- The timer, with the micro-ops that have entered. -/
structure Recorded (Reg K M : Type) where
  timer : RobTimer Reg K M
  consumers : List Consumer

namespace Recorded

structure Init (cfg : Config Reg K M) (s : Recorded Reg K M) : Prop where
  timer : Rob.Init cfg s.timer
  consumers : s.consumers = []

def exec (cfg : Config Reg K M) (s : Recorded Reg K M) (call : Call Reg) :
    Except Stop (Recorded Reg K M) :=
  (Rob.exec cfg s.timer call).map fun timer =>
    ⟨timer, consumersOf cfg s.timer call ++ s.consumers⟩

def Step (cfg : Config Reg K M) (s s' : Recorded Reg K M) : Prop :=
  ∃ call, Allowed cfg call ∧ s.exec cfg call = .ok s'

/-- The invariant of the timer, and what is recorded of the micro-ops in it. -/
structure Inv (cfg : Config Reg K M) (s : Recorded Reg K M) : Prop where
  timer : ∃ base, Rob.Inv cfg base s.timer
  overseen : Overseen s.timer s.consumers

variable {s s' : Recorded Reg K M}

omit [DecidableEq Reg] in
theorem Init.inv (h : Init cfg s) : Inv cfg s := by
  refine ⟨⟨0, .init h.timer⟩, ⟨h.timer.period, ?_, ?_, ?_⟩⟩
  · rw [h.timer.log]
    exact fun j hj => by cases hj
  · rw [h.consumers]
    exact fun c hc => by cases hc
  · rw [h.timer.rob]
    exact fun e he => by cases he

theorem Inv.step (h : Inv cfg s) (hstep : Step cfg s s') : Inv cfg s' := by
  obtain ⟨call, ha, hs'⟩ := hstep
  obtain ⟨base, hinv⟩ := h.timer
  obtain ⟨timer, htimer, rfl⟩ := of_map_ok hs'
  refine ⟨hinv.exec ha htimer, ?_⟩
  rcases exec_moves ha htimer with ⟨uop, rfl⟩ | ⟨s₁, hmoves, hclock⟩
  · exact h.overseen.enter hinv ha.1 htimer
  · have hover : Overseen timer s.consumers := (h.overseen.moves hinv hmoves).clocked hclock
    cases call with
    | enter uop => exact h.overseen.enter hinv ha.1 htimer
    | execute | synchronize time | setPeriod period => exact hover

/-- Whenever its producers issue, the times of a micro-op are those of the latest of them, when
none of them that has issued before it enters is heard of too late. -/
theorem ready_eq_latest (h : Reachable (Init cfg) (Step cfg) s) {c : Consumer}
    (hc : c ∈ s.consumers) (hearly : c.early = []) {e : RobEntry Reg} (he : e ∈ s.timer.rob) (hseq : e.seqnr = c.seqnr) :
    Timed s.timer.log c e := by
  have hinv := h.invariant (fun _ => Init.inv) fun _ _ h hstep => h.step hstep
  obtain ⟨base, htimer⟩ := hinv.timer
  have hkept := hinv.overseen.kept e he
  refine (hkept.gathered c hc hearly hseq).timed htimer.order.disciplined (htimer.fed e he)
    (fun p hp j hj heq => ?_) hkept.only
  exact htimer.issued_not_unissued hj (heq ▸ htimer.unissued_of_dependency he hp)

end Recorded

/-! ### On the small core -/

/-- The reorder buffer and what is recorded, after calls. -/
def small.record (calls : List (Call Nat)) : Except Stop (Recorded Nat Unit Unit) :=
  calls.foldlM (Recorded.exec small) ⟨small.start, []⟩

theorem small.recorded {calls} (ha : ∀ call ∈ calls, Allowed small call) {s}
    (h : small.record calls = .ok s) :
    Reachable (Recorded.Init small) (Recorded.Step small) s :=
  Reachable.foldlM (fun call hcall _ _ hs => ⟨call, ha call hcall, hs⟩)
    (.init ⟨small.init, rfl⟩) h

/-- A micro-op, and one that stores its result to an address computed from it. -/
def small.producer : DynamicMicroOp Nat := small.uop .execute [1] [2] false 1

def small.store : DynamicMicroOp Nat :=
  { small.uop .store [2] [] false 1 with
    m_uop := ⟨.store, [2], [2], [], false, false, false⟩ }

theorem small.allowed_store : Allowed small (.enter small.store) :=
  ⟨⟨fun _ _ => rfl, fun _ h => h⟩, rfl⟩

/-- The store enters with the producer, and when the producer has issued. -/
def small.together : List (Call Nat) :=
  small.feed [small.producer, small.store, small.plain, small.plain, small.plain, small.plain,
    small.plain] 2

def small.apart : List (Call Nat) :=
  small.feed [small.producer, small.plain, small.plain, small.plain, small.plain, small.plain] 2 ++
    [.enter small.store]

theorem small.recorded_together {s} (h : small.record small.together = .ok s) :
    Reachable (Recorded.Init small) (Recorded.Step small) s := by
  refine small.recorded (small.feed_allowed _ ?_ 2) h
  simp [small.producer, small.plain, small.allowed_store]

theorem small.recorded_apart {s} (h : small.record small.apart = .ok s) :
    Reachable (Recorded.Init small) (Recorded.Step small) s := by
  refine small.recorded (fun call hcall => ?_) h
  rcases List.mem_append.mp hcall with hcall | hcall
  · exact small.feed_allowed _ (by simp [small.producer, small.plain]) 2 call hcall
  · rw [List.mem_singleton.mp hcall]
    exact small.allowed_store

/-- The store that enters with its producer. -/
theorem timed_together : ∃ s : Recorded Nat Unit Unit, ∃ c ∈ s.consumers, ∃ e ∈ s.timer.rob,
    c.sources = [0] ∧ c.addressSources = [0] ∧ e.ready = 20 ∧ Timed s.timer.log c e := by
  have hrun : ∃ s ∈ (small.record small.together).toOption, ∃ c ∈ s.consumers,
      ∃ e ∈ s.timer.rob, e.seqnr = c.seqnr ∧ c.early = [] ∧ c.sources = [0] ∧
        c.addressSources = [0] ∧ e.ready = 20 := by decide +kernel
  obtain ⟨s, hs, c, hc, e, he, hseq, hearly, hsources, haddress, hready⟩ := exists_of_toOption hrun
  exact ⟨s, c, hc, e, he, hsources, haddress, hready,
    Recorded.ready_eq_latest (small.recorded_together hs) hc hearly he hseq⟩

/-- The result is available at the same time, and the store that enters later is ready a cycle
later; so is its address. -/
theorem ready_later_apart :
    (∃ s, Reachable (Recorded.Init small) (Recorded.Step small) s ∧ ∃ c ∈ s.consumers,
      ∃ e ∈ s.timer.rob, e.seqnr = c.seqnr ∧ c.sources = [0] ∧ latest s.timer.log [0] = 20 ∧
        e.ready = 20 ∧ e.addressReady = 20) ∧
    ∃ s, Reachable (Recorded.Init small) (Recorded.Step small) s ∧ ∃ c ∈ s.consumers,
      ∃ e ∈ s.timer.rob, e.seqnr = c.seqnr ∧ c.sources = [0] ∧ latest s.timer.log [0] = 20 ∧
        e.ready = 30 ∧ e.addressReady = 30 ∧ ¬ Timed s.timer.log c e := by
  constructor
  · have hrun : ∃ s ∈ (small.record small.together).toOption, ∃ c ∈ s.consumers,
        ∃ e ∈ s.timer.rob, e.seqnr = c.seqnr ∧ c.sources = [0] ∧ latest s.timer.log [0] = 20 ∧
          e.ready = 20 ∧ e.addressReady = 20 := by decide +kernel
    obtain ⟨s, hs, hconsumer⟩ := exists_of_toOption hrun
    exact ⟨s, small.recorded_together hs, hconsumer⟩
  · have hrun : ∃ s ∈ (small.record small.apart).toOption, ∃ c ∈ s.consumers,
        ∃ e ∈ s.timer.rob, e.seqnr = c.seqnr ∧ c.sources = [0] ∧ latest s.timer.log [0] = 20 ∧
          e.ready = 30 ∧ e.addressReady = 30 ∧ e.uop.m_uop.isStore = true ∧
          c.addressSources = [0] := by decide +kernel
    obtain ⟨s, hs, c, hc, e, he, hseq, hsources, hlatest, hready, haddress, hstore, haddr⟩ :=
      exists_of_toOption hrun
    refine ⟨s, small.recorded_apart hs, c, hc, e, he, hseq, hsources, hlatest, hready, haddress,
      fun htimed => ?_⟩
    have heq := htimed.address hstore
    rw [haddress, haddr, hlatest] at heq
    exact absurd heq (by decide)

end Sniper.Timing.Rob
