import Sniper.Timing.RobFrontEnd

/-! # The stalls of `RobTimer` for instruction cache misses

Along every run in which the reservation stations are not full when the front end returns from a
miss, a micro-op that missed stalls the front end once, and no other one does.
-/
namespace Sniper.Timing.Rob
open Lib.Simulation

variable {Reg K M : Type}

/-- The front end returns from a miss to full reservation stations. -/
def RobTimer.returnsToFull (cfg : Config Reg K M) (s : RobTimer Reg K M) : Bool :=
  !starved cfg s && decide (s.frontend_stalled_until ≤ (s.now : Time)) && s.in_icache_miss &&
    decide (s.m_num_in_rob < cfg.windowSize) && decide (s.m_rs_entries_used = cfg.rsEntries)

/-- The fetch of the micro-op that a call enters; squashed ones are left out. -/
def Call.fetches : Call Reg → List Fetch
  | .enter uop => if uop.squashed then [] else [.of uop]
  | _ => []

/-- A timer with the micro-ops that have entered and what its front end has done. -/
structure Fetching (Reg K M : Type) where
  timer : RobTimer Reg K M
  entered : List Fetch
  trace : List FrontEvent

namespace Fetching
variable [DecidableEq Reg]

def exec (cfg : Config Reg K M) (w : Fetching Reg K M) (call : Call Reg) :
    Except Stop (Fetching Reg K M) :=
  (Rob.exec cfg w.timer call).map fun timer =>
    { timer := timer
      entered := w.entered ++ call.fetches
      trace := match call with
        | .execute => if starved cfg w.timer then w.trace else (w.timer.frontEnd cfg w.trace).trace
        | _ => w.trace }

structure Init (cfg : Config Reg K M) (w : Fetching Reg K M) : Prop where
  timer : Rob.Init cfg w.timer
  entered : w.entered = []
  trace : w.trace = []

/-- A step at which the front end does not return to full reservation stations. -/
def Step (cfg : Config Reg K M) (w w' : Fetching Reg K M) : Prop :=
  ∃ call, Allowed cfg call ∧ (call = .execute → w.timer.returnsToFull cfg = false) ∧
    w.exec cfg call = .ok w'

end Fetching

/-! ### Entering -/

section Enter
variable {cfg : Config Reg K M} {s s' : RobTimer Reg K M} {base : Nat}

/-- A micro-op that enters waits behind the others. -/
structure Queued (s s' : RobTimer Reg K M) (fetches : List Fetch) : Prop where
  waiting : s'.waiting = s.waiting ++ fetches
  icache : s'.in_icache_miss = s.in_icache_miss
  stalled : s'.frontend_stalled_until = s.frontend_stalled_until
  unresolved : s'.unresolved = s.unresolved

theorem enter_queued [DecidableEq Reg] (hinv : Inv cfg base s) {uop}
    (h : enter cfg s uop = .ok s') :
    Queued s s' (Call.enter uop).fetches := by
  rw [Call.fetches]
  rcases enter_cases h with ⟨hsquashed, rfl⟩ | ⟨hsquashed, e₁, registers, uop₁, memory, uop₂, uop₃,
    rob, dtr, readyMax, uop₄, haddr, hreg, hmem, hforward, hlink, hremove, rfl⟩
  · rw [if_pos hsquashed]
    exact ⟨(List.append_nil _).symm, rfl, rfl, rfl⟩
  · obtain ⟨rfl, -⟩ := link_ok hlink hinv.unique
    have hfetch : Fetch.of uop₄ = .of uop := by
      have hrewired := (((Rewired.setRegisters hreg).trans (.setMemory hmem)).trans
        (.forward hforward)).trans (.removeAll hremove)
      rw [hrewired.fetch, (setAddress_ok haddr rfl rfl rfl).1]
      rfl
    have hfits : s.m_num_in_rob ≤ s.rob.length := by
      have hfits := hinv.order.fits
      rwa [List.length_map] at hfits
    have hattach : ∀ p : RobEntry Reg,
        (attach s.nextSequenceNumber uop₃.getDependencies p).fetch = p.fetch :=
      fun p => congrArg Fetch.of (attach_uop _ _ p)
    refine ⟨?_, rfl, rfl, ?_⟩
    · rw [if_neg hsquashed, RobTimer.waiting, List.drop_append_of_le_length (by simpa using hfits),
        List.map_append, ← List.map_drop, List.map_map]
      refine congrArg₂ _ (List.map_congr_left fun p _ => hattach p) ?_
      exact congrArg (fun fetch => [fetch]) hfetch
    · rw [RobTimer.unresolved, List.take_append_of_le_length (by simpa using hfits),
        ← List.map_take, List.countP_map]
      refine List.countP_congr fun p _ => ?_
      have hdone : (attach s.nextSequenceNumber uop₃.getDependencies p).done = p.done :=
        congrArg Core.done (attach_core _ _ p)
      simp only [Function.comp_apply, RobEntry.unresolved, hattach, hdone]

end Enter

/-! ### Runs -/

namespace Fetching
variable {cfg : Config Reg K M} {w w' : Fetching Reg K M}

structure Sound (cfg : Config Reg K M) (w : Fetching Reg K M) : Prop where
  inv : ∃ base, Inv cfg base w.timer
  braked : Braked w.timer
  once : StalledOnce w.entered (w.timer.front w.trace)

theorem Sound.init (h : Init cfg w) : Sound cfg w := by
  have hrob := h.timer.rob
  refine ⟨⟨0, .init h.timer⟩, ⟨?_, fun hne => absurd ?_ hne⟩, [], [], ?_, .nil, ?_⟩
  · simp [RobTimer.unresolved, hrob]
  · simp [RobTimer.unresolved, hrob]
  · simp [RobTimer.front, RobTimer.waiting, hrob, h.entered]
  · simp [RobTimer.front, h.timer.icache, h.trace]

theorem Sound.queued {fetches} (h : Sound cfg w) (hinv : ∃ base, Inv cfg base w'.timer)
    (hqueued : Queued w.timer w'.timer fetches) (hentered : w'.entered = w.entered ++ fetches)
    (htrace : w'.trace = w.trace) : Sound cfg w' := by
  refine ⟨hinv, ⟨?_, fun hne => ?_⟩, ?_⟩
  · rw [hqueued.unresolved]
    exact h.braked.one
  · rw [hqueued.stalled]
    exact h.braked.stalled (hqueued.unresolved ▸ hne)
  · rw [hentered]
    exact h.once.wait hqueued.waiting hqueued.icache htrace fun _ _ => hqueued.stalled

variable [DecidableEq Reg]

theorem cycle_quiet {base s s' t} (hinv : Inv cfg base s) (hs' : Rob.cycle cfg s = .ok (s', t)) :
    ∃ s₁ t₁, doDispatch cfg s = .ok (s₁, t₁) ∧ Quiet s₁ s' := by
  obtain ⟨⟨s₁, t₁⟩, hdispatch, hs'⟩ := of_bind_ok hs'
  obtain ⟨⟨s₂, t₂⟩, hissue, hs'⟩ := of_bind_ok hs'
  cases hs'
  have hinv₁ := hinv.doDispatch hdispatch
  have hinv₂ := hinv₁.doIssue.2 s₂ t₂ hissue
  have hwaiting : ∀ e ∈ s₂.rob.drop s₂.m_num_in_rob, e.done = ⊤ := by
    intro e he
    obtain ⟨i, hi⟩ := List.mem_iff_getElem?.mp he
    rw [List.getElem?_drop] at hi
    refine hinv₂.order.waiting (s₂.m_num_in_rob + i) e.core ?_ (Nat.le_add_right _ _)
    rw [List.getElem?_map, hi]
    rfl
  exact ⟨s₁, t₁, hdispatch,
    (doIssue_quiet hinv₁.numbered hissue).trans (commitLoop_quiet hwaiting 0)⟩

theorem once_iff {entered f} :
    StalledOnce entered { f with cpiFrontEnd := none } ↔ StalledOnce entered f := Iff.rfl

theorem Sound.cycle (h : Sound cfg w) (hstarved : starved cfg w.timer = false)
    (hfull : w.timer.returnsToFull cfg = false) {s' t} (hs' : Rob.cycle cfg w.timer = .ok (s', t)) :
    Braked s' ∧ StalledOnce w.entered (s'.front (w.timer.frontEnd cfg w.trace).trace) := by
  obtain ⟨base, hinv⟩ := h.inv
  obtain ⟨s₁, t₁, hdispatch, hquiet⟩ := cycle_quiet hinv hs'
  have hbraked₁ := doDispatch_braked h.braked hdispatch
  have honce₁ : StalledOnce w.entered (s₁.front (w.timer.frontEnd cfg w.trace).trace) := by
    rw [doDispatch_frontEnd w.trace hdispatch, once_iff, RobTimer.frontEnd]
    split
    case isTrue hstalled =>
      refine h.once.frontEnd hstalled fun hflag hwindow hrs => ?_
      have hflag : w.timer.in_icache_miss = true := hflag
      simp [RobTimer.returnsToFull, hstarved, hstalled, hflag, hwindow, hrs] at hfull
    case isFalse => exact h.once
  refine ⟨hquiet.braked hbraked₁, ?_⟩
  have hlast : StalledOnce (w.entered ++ [])
      (s'.front (w.timer.frontEnd cfg w.trace).trace) := by
    refine honce₁.wait ?_ hquiet.icache rfl fun _ => hquiet.stalled hbraked₁
    rw [List.append_nil]
    exact hquiet.waiting
  rwa [List.append_nil] at hlast

theorem Sound.step (h : Sound cfg w) (hstep : Step cfg w w') : Sound cfg w' := by
  obtain ⟨call, ha, hfull, hw'⟩ := hstep
  obtain ⟨timer, htimer, rfl⟩ := of_map_ok hw'
  obtain ⟨base, hinv⟩ := h.inv
  have hinv' := hinv.exec ha htimer
  cases call with
  | enter uop => exact h.queued hinv' (enter_queued hinv htimer) rfl rfl
  | synchronize time | setPeriod period =>
    cases htimer
    exact h.queued hinv' ⟨(List.append_nil _).symm, rfl, rfl, rfl⟩ rfl rfl
  | execute =>
    obtain ⟨⟨s₁, latency⟩, hexec, rfl⟩ := of_map_ok htimer
    rw [execute] at hexec
    cases hstarved : starved cfg w.timer with
    | true =>
      rw [hstarved, if_pos rfl] at hexec
      cases hexec
      exact h.queued hinv' ⟨(List.append_nil _).symm, rfl, rfl, rfl⟩ rfl (by simp)
    | false =>
      rw [hstarved, if_neg Bool.false_ne_true] at hexec
      obtain ⟨⟨s₂, t⟩, hcycle, hexec⟩ := of_bind_ok hexec
      cases hexec
      obtain ⟨hbraked, honce⟩ := h.cycle hstarved (hfull rfl) hcycle
      refine ⟨hinv', ⟨hbraked.one, hbraked.stalled⟩, ?_⟩
      simp only [Call.fetches, List.append_nil, Bool.false_eq_true, if_false]
      exact honce

theorem stalledOnce (h : Reachable (Init cfg) (Step cfg) w) :
    StalledOnce w.entered (w.timer.front w.trace) := by
  have hsound : Sound cfg w :=
    h.invariant (fun _ => Sound.init) fun _ _ hw hstep => hw.step hstep
  exact hsound.once

end Fetching

end Sniper.Timing.Rob
