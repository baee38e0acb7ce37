import Sniper.Timing.RobBarriers
import Sniper.Timing.RobMoves
import Sniper.Timing.RobSmtTimer

/-! # Store-to-load forwarding

What a load waits for after its dependency on a store has been replaced: for those producers of
the store that it gets to depend on, and not for those that the store has been told of before.
-/
namespace Sniper.Timing.Rob
open Lib.Simulation DynamicMicroOp

variable {Reg K M : Type}

/-! ### Forwards -/

namespace Forward

/-- Every producer of the store that the load does not get to depend on has its result when the
load enters. -/
def Timely (log : List (Event Reg)) (f : Forward) : Prop :=
  ∀ p ∈ f.producers, p ∉ f.remaining → ∃ j ∈ issues log, j.seqnr = p ∧ j.available ≤ f.time

/-- The load issues no earlier than the result of any producer of the store is available. -/
def Waits (log : List (Event Reg)) (f : Forward) : Prop :=
  ∀ i ∈ issues log, i.seqnr = f.load → ∀ p ∈ f.producers,
    ∃ j ∈ issues log, j.seqnr = p ∧ j.available ≤ i.issued

instance (log : List (Event Reg)) (f : Forward) : Decidable (f.Timely log) :=
  inferInstanceAs (Decidable (∀ p ∈ f.producers, p ∉ f.remaining →
    ∃ j ∈ issues log, j.seqnr = p ∧ j.available ≤ f.time))

instance (log : List (Event Reg)) (f : Forward) : Decidable (f.Waits log) :=
  inferInstanceAs (Decidable (∀ i ∈ issues log, i.seqnr = f.load → ∀ p ∈ f.producers,
    ∃ j ∈ issues log, j.seqnr = p ∧ j.available ≤ i.issued))

/-- What is known of a forward at any later time. -/
structure Covered (now : Nat) (log : List (Event Reg)) (f : Forward) : Prop where
  time : f.time ≤ now
  later : ∀ i ∈ issues log, i.seqnr = f.load → f.time ≤ i.issued
  entered : ∃ uop producers, .entered f.load uop producers ∈ log ∧
    ∀ p ∈ f.remaining, p ∈ producers

end Forward

theorem Disciplined.available {log} (h : Disciplined log) {i : Issue Reg} (hi : i ∈ issues log) {p}
    (hp : p ∈ i.producers) :
    ∃ j ∈ issues log, j.seqnr = p ∧ j.available ≤ i.issued := by
  induction log with
  | nil => cases hi
  | cons event log ih =>
    have hold : i ∈ issues log →
        ∃ j ∈ issues (event :: log), j.seqnr = p ∧ j.available ≤ i.issued := by
      intro hi
      obtain ⟨j, hj, hjp⟩ := ih h.2 hi
      exact ⟨j, issues_mono hj, hjp⟩
    cases event with
    | issued e =>
      rcases List.mem_cons.mp hi with rfl | hi
      · obtain ⟨j, hj, hjp⟩ := h.1.2.2.2.1 p hp
        exact ⟨j, issues_mono hj, hjp⟩
      · exact hold hi
    | entered | dispatched | committed => exact hold hi

/-- The load depends on the one half of the producers, and is younger than the results of the
other. -/
theorem Forward.Covered.waits {now : Nat} {log : List (Event Reg)} {f : Forward}
    (h : f.Covered now log) (hdisciplined : Disciplined log) (htimely : f.Timely log) :
    f.Waits log := by
  intro i hi hload p hp
  by_cases hremaining : p ∈ f.remaining
  · obtain ⟨uop, producers, hentered, hsub⟩ := h.entered
    have hissued := hdisciplined.issued_entered hi
    rw [hload] at hissued
    obtain ⟨-, hproducers⟩ := hdisciplined.entered_unique hentered hissued
    exact hdisciplined.available hi (hproducers ▸ hsub p hremaining)
  · obtain ⟨j, hj, hjp, havailable⟩ := htimely p hp hremaining
    exact ⟨j, hj, hjp, havailable.trans (h.later i hi hload)⟩

/-! ### Time -/

/-- What has been added to the log at a time. -/
def Adds (now : Nat) (log log' : List (Event Reg)) : Prop :=
  ∃ events, log' = events ++ log ∧ ∀ i ∈ issues events, i.issued = now

namespace Adds
variable {now now' : Nat} {log log' log'' : List (Event Reg)}

theorem refl (now : Nat) (log : List (Event Reg)) : Adds now log log := ⟨[], rfl, nofun⟩

theorem trans (h : Adds now log log') (h' : Adds now log' log'') : Adds now log log'' := by
  obtain ⟨events, rfl, hissued⟩ := h
  obtain ⟨events', rfl, hissued'⟩ := h'
  refine ⟨events' ++ events, (List.append_assoc ..).symm, fun i hi => ?_⟩
  rw [issues, List.filterMap_append] at hi
  exact (List.mem_append.mp hi).elim (hissued' i) (hissued i)

theorem one {event} (h : ∀ i, event = .issued i → i.issued = now) :
    Adds now log (event :: log) := by
  refine ⟨[event], rfl, fun i hi => ?_⟩
  cases event with
  | issued e =>
    obtain rfl := List.mem_singleton.mp hi
    exact h i rfl
  | entered | dispatched | committed => cases hi

theorem mem (h : Adds now log log') {event} (he : event ∈ log) : event ∈ log' := by
  obtain ⟨events, rfl, -⟩ := h
  exact List.mem_append_right _ he

theorem covered (h : Adds now log log') {f : Forward} (hf : f.Covered now log)
    (hle : now ≤ now') : f.Covered now' log' := by
  refine ⟨hf.time.trans hle, fun i hi hload => ?_, ?_⟩
  · obtain ⟨events, rfl, hissued⟩ := h
    rw [issues, List.filterMap_append] at hi
    rcases List.mem_append.mp hi with hi | hi
    · exact (hissued i hi).symm ▸ hf.time
    · exact hf.later i hi hload
  · obtain ⟨uop, producers, hentered, hsub⟩ := hf.entered
    exact ⟨uop, producers, h.mem hentered, hsub⟩

end Adds

structure WithinCycle (s s' : RobTimer Reg K M) : Prop where
  now : s'.now = s.now
  log : Adds s.now s.log s'.log

namespace WithinCycle
variable {s s' s'' : RobTimer Reg K M}

theorem of_eq (hnow : s'.now = s.now) (hlog : s'.log = s.log) : WithinCycle s s' :=
  ⟨hnow, hlog ▸ .refl _ _⟩

theorem trans (h : WithinCycle s s') (h' : WithinCycle s' s'') : WithinCycle s s'' :=
  ⟨h'.now.trans h.now, h.log.trans (h.now ▸ h'.log)⟩

end WithinCycle

section Moves
variable {cfg : Config Reg K M} {s s' : RobTimer Reg K M}

theorem Move.within (h : Move cfg s s') : WithinCycle s s' := by
  cases h with
  | dispatch | commit => exact ⟨rfl, .one (fun _ h => by cases h)⟩
  | issue _ _ _ _ hissue =>
    refine ⟨hissue.now, hissue.log ▸ .one fun i hi => ?_⟩
    cases hi
    exact hissue.issued
  | other hsame => exact .of_eq hsame.now hsame.log

theorem Moves.within (h : Moves cfg s s') : WithinCycle s s' :=
  h.invariant (P := WithinCycle s) (.of_eq rfl rfl) fun _ _ hs hmove => hs.trans hmove.within

end Moves

/-! ### The load that enters -/

theorem addDependencies_mem {uop uop' : DynamicMicroOp Reg} {deps}
    (h : addDependencies deps uop = .ok uop') {d} (hd : d ∈ deps) :
    d ∈ uop'.getDependencies := by
  induction deps generalizing uop with
  | nil => cases hd
  | cons d' deps ih =>
    obtain ⟨uop₁, hadd, hrest⟩ := of_bind_ok h
    rcases List.mem_cons.mp hd with rfl | hd
    · have hgrows : Grows uop₁ uop' := addDependencies_ok hrest
      exact hgrows.keeps d (addDependency_ok hadd).2
    · exact ih hrest hd

theorem forward_store {forwarding rob} {uop uop' : DynamicMicroOp Reg} {store : RobEntry Reg}
    (h : forward forwarding rob uop = .ok uop') (hload : (forwarding && uop.m_uop.isLoad) = true)
    (hfind : findStore rob uop.getDependencies = .ok (some store)) :
    ∀ d ∈ store.uop.getDependencies, d ∈ uop'.getDependencies := by
  rw [forward, if_pos hload, hfind] at h
  obtain ⟨store', hstore', h⟩ := of_bind_ok h
  cases hstore'
  obtain ⟨uop₁, -, h⟩ := of_bind_ok h
  exact fun d hd => addDependencies_mem h hd

variable [DecidableEq Reg]

theorem forwardedFrom_eq {cfg : Config Reg K M} {s : RobTimer Reg K M} {uop : DynamicMicroOp Reg}
    {registers memory} {uop₁ uop₂ : DynamicMicroOp Reg} {lowest}
    (hlowest : (s.rob.headD (RobEntry.init uop uop.sequenceNumber)).seqnr = lowest)
    (hreg : s.registerDependencies.setDependencies cfg.decoder uop lowest = .ok (registers, uop₁))
    (hmem : s.memoryDependencies.setDependencies uop₁ lowest = .ok (memory, uop₂)) :
    forwardedFrom cfg s uop =
      if cfg.m_store_to_load_forwarding && uop₂.m_uop.isLoad then
        findStore s.rob uop₂.getDependencies
      else .ok none := by
  rw [forwardedFrom]
  rw [hlowest]
  exact bind_eq_of_ok hreg (bind_eq_of_ok hmem rfl)

theorem Forward.of_mem {cfg : Config Reg K M} {s : RobTimer Reg K M} {uop : DynamicMicroOp Reg}
    {f : Forward} (hf : f ∈ Forward.of cfg s uop) {registers memory}
    {uop₁ uop₂ uop₃ : DynamicMicroOp Reg} {lowest}
    (hlowest : (s.rob.headD (RobEntry.init uop uop.sequenceNumber)).seqnr = lowest)
    (hreg : s.registerDependencies.setDependencies cfg.decoder uop lowest = .ok (registers, uop₁))
    (hmem : s.memoryDependencies.setDependencies uop₁ lowest = .ok (memory, uop₂))
    (hforward : forward cfg.m_store_to_load_forwarding s.rob uop₂ = .ok uop₃) :
    f.load = uop.sequenceNumber ∧ f.time = s.now ∧
      (∀ d ∈ f.remaining, d ∈ uop₃.getDependencies) ∧
      ∃ store ∈ s.rob, f.remaining = store.uop.getDependencies := by
  rw [Forward.of, forwardedFrom_eq hlowest hreg hmem] at hf
  split at hf
  case h_1 store hstore =>
    obtain rfl := List.mem_singleton.mp hf
    split at hstore
    case isTrue hload =>
      exact ⟨rfl, rfl, forward_store hforward hload hstore, store, (findStore_ok hstore).1, rfl⟩
    case isFalse => cases hstore
  case h_2 => cases hf

omit [DecidableEq Reg] in
theorem Forward.Covered.enter {now : Nat} {log : List (Event Reg)} (hdisciplined : Disciplined log)
    {f : Forward} {uop : MicroOp Reg} {producers : List Nat} (htime : f.time = now)
    (hload : f.load = (Rob.entered log).length) (hsub : ∀ p ∈ f.remaining, p ∈ producers) :
    f.Covered now (.entered f.load uop producers :: log) := by
  refine ⟨Nat.le_of_eq htime, fun i hi heq => ?_, uop, producers, List.mem_cons_self .., hsub⟩
  -- nothing younger than what has entered has issued
  have hlt := hdisciplined.entered_lt (hdisciplined.issued_entered hi)
  omega

/-! ### Runs of `RobTimer` -/

/-- The timer, with the forwards so far. -/
structure Traced (Reg K M : Type) where
  timer : RobTimer Reg K M
  forwards : List Forward

def forwardsOf (cfg : Config Reg K M) (s : RobTimer Reg K M) : Call Reg → List Forward
  | .enter uop =>
    if uop.squashed then []
    else Forward.of cfg s { uop with sequenceNumber := s.nextSequenceNumber }
  | _ => []

def Monotone (s : RobTimer Reg K M) : Call Reg → Prop
  | .synchronize time => s.now ≤ time
  | _ => True

namespace Traced
variable {cfg : Config Reg K M} {s s' : Traced Reg K M}

structure Init (cfg : Config Reg K M) (s : Traced Reg K M) : Prop where
  timer : Rob.Init cfg s.timer
  forwards : s.forwards = []

def exec (cfg : Config Reg K M) (s : Traced Reg K M) (call : Call Reg) :
    Except Stop (Traced Reg K M) :=
  (Rob.exec cfg s.timer call).map fun timer =>
    ⟨timer, forwardsOf cfg s.timer call ++ s.forwards⟩

def Step (cfg : Config Reg K M) (s s' : Traced Reg K M) : Prop :=
  ∃ call, Allowed cfg call ∧ Monotone s.timer call ∧ s.exec cfg call = .ok s'

/-- What holds of the timer and of all forwards. -/
structure Inv (cfg : Config Reg K M) (s : Traced Reg K M) : Prop where
  timer : ∃ base, Rob.Inv cfg base s.timer
  covered : ∀ f ∈ s.forwards, f.Covered s.timer.now s.timer.log

theorem enter_log {s s' : RobTimer Reg K M} {uop : DynamicMicroOp Reg}
    (h : enter cfg s uop = .ok s') (hsquashed : ¬ uop.squashed = true) :
    ∃ m_uop producers, s'.log = .entered s.nextSequenceNumber m_uop producers :: s.log ∧
      s'.now = s.now ∧
      ∀ f ∈ Forward.of cfg s { uop with sequenceNumber := s.nextSequenceNumber },
        f.load = s.nextSequenceNumber ∧ f.time = s.now ∧ ∀ p ∈ f.remaining, p ∈ producers := by
  obtain ⟨hsq, -⟩ | ⟨-, e₁, registers, uop₁, memory, uop₂, uop₃, rob, dtr, readyMax, uop₄, haddr,
    hreg, hmem, hforward, hlink, hremove, rfl⟩ := enter_cases h
  · exact absurd hsq hsquashed
  · have huop : e₁.uop = { uop with sequenceNumber := s.nextSequenceNumber } := by
      rw [(setAddress_ok haddr rfl rfl rfl).1]
      rfl
    rw [huop] at hreg
    refine ⟨uop₄.m_uop, uop₃.getDependencies, rfl, rfl, fun f hf => ?_⟩
    obtain ⟨hload, htime, hsub, -⟩ := Forward.of_mem hf (by cases s.rob <;> rfl) hreg hmem hforward
    exact ⟨hload, htime, hsub⟩

theorem Inv.enter (h : Inv cfg s) {uop : DynamicMicroOp Reg} {base : Nat}
    {timer : RobTimer Reg K M} (hinv : Rob.Inv cfg base s.timer)
    (hs' : Rob.enter cfg s.timer uop = .ok timer) :
    ∀ f ∈ forwardsOf cfg s.timer (.enter uop) ++ s.forwards, f.Covered timer.now timer.log := by
  intro f hf
  rw [forwardsOf] at hf
  by_cases hsquashed : uop.squashed = true
  · rw [if_pos hsquashed] at hf
    rw [Rob.enter, if_pos hsquashed] at hs'
    rw [← Except.ok.inj hs']
    exact h.covered f hf
  · rw [if_neg hsquashed] at hf
    obtain ⟨m_uop, producers, hlog, hnow, hall⟩ := enter_log hs' hsquashed
    rw [hlog, hnow]
    rcases List.mem_append.mp hf with hf | hf
    · obtain ⟨hload, htime, hsub⟩ := hall f hf
      rw [← hload]
      exact .enter hinv.order.disciplined htime (hload.trans hinv.order.length_entered.symm) hsub
    · have hadds : Adds s.timer.now s.timer.log
          (.entered s.timer.nextSequenceNumber m_uop producers :: s.timer.log) := .one (by simp)
      exact hadds.covered (h.covered f hf) (Nat.le_refl _)

theorem Inv.step (h : Inv cfg s) (hstep : Step cfg s s') : Inv cfg s' := by
  obtain ⟨call, ha, hmonotone, hs'⟩ := hstep
  obtain ⟨base, hinv⟩ := h.timer
  obtain ⟨timer, htimer, rfl⟩ := of_map_ok hs'
  refine ⟨hinv.exec ha htimer, ?_⟩
  cases call with
  | enter uop => exact h.enter hinv htimer
  | execute =>
    obtain ⟨⟨s₁, latency⟩, hexec, rfl⟩ := of_map_ok htimer
    intro f hf
    rw [execute] at hexec
    split at hexec
    case isTrue =>
      cases hexec
      exact h.covered f hf
    case isFalse =>
      obtain ⟨⟨s₂, t⟩, hcycle, hexec⟩ := of_bind_ok hexec
      have hwithin := (cycle_moves hcycle).within
      cases hexec
      exact hwithin.log.covered (h.covered f hf) (hwithin.now ▸ Nat.le_add_right _ _)
  | synchronize time =>
    cases htimer
    exact fun f hf => Adds.covered (.refl _ _) (h.covered f hf) hmonotone
  | setPeriod period =>
    cases htimer
    exact h.covered

omit [DecidableEq Reg] in
theorem Init.inv (h : Init cfg s) : Inv cfg s := by
  refine ⟨⟨0, .init h.timer⟩, fun f hf => ?_⟩
  rw [h.forwards] at hf
  cases hf

theorem forward_waits (h : Reachable (Init cfg) (Step cfg) s) {f : Forward} (hf : f ∈ s.forwards)
    (htimely : f.Timely s.timer.log) : f.Waits s.timer.log := by
  have hinv := h.invariant (fun _ => Init.inv) fun _ _ h hstep => h.step hstep
  obtain ⟨base, htimer⟩ := hinv.timer
  exact (hinv.covered f hf).waits htimer.order.disciplined htimely

end Traced
end Sniper.Timing.Rob
