import Sniper.Timing.RobExecution

/-! # The moves of the reorder buffer

A cycle dispatches, issues and commits micro-ops one at a time: every call but `enter` is a
sequence of such moves and a change of the clock, so that what each of them keeps is kept by the
call.
-/
namespace Sniper.Timing.Rob
open Lib.Simulation

variable {Reg K M : Type} {cfg : Config Reg K M} {s s' s'' : RobTimer Reg K M}

/-- The micro-ops in the reorder buffer are not touched. -/
structure SameBuffer (s s' : RobTimer Reg K M) : Prop where
  rob : s'.rob = s.rob
  num_in_rob : s'.m_num_in_rob = s.m_num_in_rob
  rs_entries : s'.m_rs_entries_used = s.m_rs_entries_used
  next : s'.nextSequenceNumber = s.nextSequenceNumber
  now : s'.now = s.now
  period : s'.period = s.period
  log : s'.log = s.log

def commitFront (s : RobTimer Reg K M) (front : RobEntry Reg) (rob : List (RobEntry Reg)) :
    RobTimer Reg K M :=
  { s with
    rob := rob
    m_num_in_rob := s.m_num_in_rob - 1
    log := .committed front.seqnr :: s.log }

/-- One micro-op is dispatched, issues or commits. A store that issues is done when its result is
available. -/
inductive Move (cfg : Config Reg K M) : RobTimer Reg K M → RobTimer Reg K M → Prop
  | dispatch {s : RobTimer Reg K M} {e : RobEntry Reg}
      (he : s.rob[s.m_num_in_rob]? = some e)
      (hwindow : s.m_num_in_rob < cfg.windowSize) (hrs : s.m_rs_entries_used ≠ cfg.rsEntries) :
      Move cfg s (dispatch s e)
  | issue {s s' : RobTimer Reg K M} {i : Nat} {e : RobEntry Reg} {issue : Issue Reg}
      (he : s.rob[i]? = some e) (hi : i < s.m_num_in_rob) (hdone : e.done = ⊤)
      (hready : e.ready ≤ (s.now : Time)) (hissue : Issuing s s' e issue)
      (hstore : issue.uop.isStore = true → issue.available = issue.done) : Move cfg s s'
  | commit {s : RobTimer Reg K M} {front : RobEntry Reg} {rob : List (RobEntry Reg)}
      (hrob : s.rob = front :: rob) (hdone : front.done ≤ (s.now : Time)) :
      Move cfg s (commitFront s front rob)
  | other {s s' : RobTimer Reg K M} (h : SameBuffer s s') : Move cfg s s'

abbrev Moves (cfg : Config Reg K M) : RobTimer Reg K M → RobTimer Reg K M → Prop :=
  Relation.ReflTransGen (Move cfg)

theorem SameBuffer.moves (h : SameBuffer s s') : Moves cfg s s' := .single (.other h)

theorem Moves.invariant {P : RobTimer Reg K M → Prop} (h : Moves cfg s s') (hs : P s)
    (hmove : ∀ s s', P s → Move cfg s s' → P s') : P s' := by
  induction h with
  | refl => exact hs
  | tail _ hlast ih => exact hmove _ _ ih hlast

/-! ### Dispatch -/

theorem dispatchLoop_moves {width t t'} (h : dispatchLoop cfg width s t = .ok (s', t')) :
    Moves cfg s s' :=
  dispatchLoop_invariant (P := fun s' _ => Moves cfg s s')
    (fun _ _ _ h => h.tail (.other ⟨rfl, rfl, rfl, rfl, rfl, rfl, rfl⟩))
    (fun _ _ h => h.tail (.other ⟨rfl, rfl, rfl, rfl, rfl, rfl, rfl⟩))
    (fun _ _ _ he hwindow hrs h => h.tail (.dispatch he hwindow hrs))
    (fun _ _ h => h.tail (.other ⟨rfl, rfl, rfl, rfl, rfl, rfl, rfl⟩)) .refl h

theorem doDispatch_moves {t} (h : doDispatch cfg s = .ok (s', t)) : Moves cfg s s' := by
  rw [doDispatch] at h
  split at h
  · obtain ⟨⟨s₁, t₁⟩, hloop, h⟩ := of_bind_ok h
    cases h
    exact dispatchLoop_moves hloop
  · cases h
    exact .refl

/-! ### Issue -/

section Issue
theorem Contends.moves (h : Contends s s') : Moves cfg s s' := by
  obtain ⟨k, rfl⟩ := h
  exact SameBuffer.moves ⟨rfl, rfl, rfl, rfl, rfl, rfl, rfl⟩

theorem issueInstruction_move {i e t t'} (h : issueInstruction cfg s e t = .ok (s', t'))
    (he : s.rob[i]? = some e) (hi : i < s.m_num_in_rob) (hdone : e.done = ⊤)
    (hready : e.ready ≤ (s.now : Time)) :
    Move cfg s s' := by
  obtain ⟨_, hissue, htimed, -⟩ := issueInstruction_spec h
  exact .issue he hi hdone hready hissue htimed.store

theorem issueLoop_moves {count i scan t} (h : issueLoop cfg count i s scan = .ok (s', t))
    (hcount : i + count ≤ s.m_num_in_rob) :
    Moves cfg s s' := by
  induction count generalizing i s scan with
  | zero =>
    cases h
    exact .refl
  | succ count ih =>
    cases he : s.rob[i]? with
    | none =>
      rw [issueLoop.eq_def] at h
      simp only [he] at h
      cases h
    | some e =>
      obtain ⟨-, heq⟩ | ⟨-, s₁, t₁, hs₁, heq⟩ | ⟨-, s₁, scan₁, hs₁, -, heq⟩ |
        ⟨hdone, hready, -, -, s₁, t₁, k, hs₁, heq, hk⟩ := issueLoop_succ cfg count scan he
      · exact ih (heq ▸ h) (by omega)
      · rw [heq] at h
        cases h
        exact hs₁.moves
      · have h₁ : Moves cfg s s₁ := hs₁.moves
        obtain ⟨c, rfl⟩ := hs₁
        exact h₁.trans (ih (heq ▸ h) (show i + 1 + count ≤ s.m_num_in_rob by omega))
      · have h₁ : Moves cfg s s₁ := hs₁.moves
        rw [heq] at h
        obtain ⟨⟨s₂, t₂⟩, hs₂, hrest⟩ := of_bind_ok h
        obtain ⟨c, rfl⟩ := hs₁
        have hi : i < s.m_num_in_rob := by omega
        have h₂ := h₁.tail (issueInstruction_move hs₂ he hi hdone hready)
        have hnum : s₂.m_num_in_rob = s.m_num_in_rob :=
          (issueInstruction_ok hs₂).choose_spec.num_in_rob
        obtain ⟨t₃, hstop⟩ | ⟨scan₂, -, hgo⟩ := hk s₂ t₂
        · rw [hstop] at hrest
          cases hrest
          exact h₂
        · exact h₂.trans (ih (hgo ▸ hrest) (by omega))

theorem doIssue_moves {t} (h : doIssue cfg s = .ok (s', t)) : Moves cfg s s' := by
  refine (SameBuffer.moves ?_).trans (issueLoop_moves h ?_)
  · exact ⟨rfl, rfl, rfl, rfl, rfl, rfl, rfl⟩
  · exact Nat.le_of_eq (Nat.zero_add _)

end Issue

/-! ### Commit -/

theorem commitLoop_moves (rob : List (RobEntry Reg)) (num_committed : Nat) :
    Moves cfg { s with rob := rob } (commitLoop cfg s rob num_committed) := by
  induction rob generalizing s num_committed with
  | nil => exact .refl
  | cons front rob ih =>
    rw [commitLoop]
    split
    case isTrue hdone =>
      have hmove : Move cfg { s with rob := front :: rob }
          (commitFront { s with rob := front :: rob } front rob) := .commit rfl hdone
      dsimp only
      split
      · exact .single hmove
      · exact .head hmove (ih (s := commitFront s front rob) _)
    case isFalse => exact .refl

/-! ### Calls -/

theorem cycle_moves {t} (h : cycle cfg s = .ok (s', t)) : Moves cfg s s' := by
  obtain ⟨⟨s₁, t₁⟩, hdispatch, h⟩ := of_bind_ok h
  obtain ⟨⟨s₂, t₂⟩, hissue, h⟩ := of_bind_ok h
  cases h
  exact ((doDispatch_moves hdispatch).trans (doIssue_moves hissue)).trans
    (commitLoop_moves (s := s₂) s₂.rob 0)

/-- The clock is set, or its period is. -/
def Clocked (s s' : RobTimer Reg K M) : Prop :=
  ∃ now period, (0 < s.period → 0 < period) ∧ s' = { s with now := now, period := period }

theorem Clocked.refl (s : RobTimer Reg K M) : Clocked s s := ⟨s.now, s.period, id, rfl⟩

theorem exec_moves [DecidableEq Reg] {call} (ha : Allowed cfg call) (h : exec cfg s call = .ok s') :
    (∃ uop, call = .enter uop) ∨ ∃ s₁, Moves cfg s s₁ ∧ Clocked s₁ s' := by
  cases call with
  | enter uop => exact .inl ⟨uop, rfl⟩
  | execute =>
    right
    obtain ⟨⟨s₁, latency⟩, hexec, rfl⟩ := of_map_ok h
    rw [execute] at hexec
    split at hexec
    case isTrue =>
      cases hexec
      exact ⟨s, .refl, .refl s⟩
    case isFalse =>
      obtain ⟨⟨s₂, t⟩, hcycle, hexec⟩ := of_bind_ok hexec
      cases hexec
      exact ⟨s₂, cycle_moves hcycle, _, s₂.period, id, rfl⟩
  | synchronize time =>
    cases h
    exact .inr ⟨s, .refl, time, s.period, id, rfl⟩
  | setPeriod period =>
    cases h
    exact .inr ⟨s, .refl, s.now, period, fun _ => ha, rfl⟩

theorem Inv.move {base} (h : Inv cfg base s) (hmove : Move cfg s s') :
    ∃ base', Inv cfg base' s' := by
  cases hmove with
  | dispatch he hwindow hrs => exact ⟨base, h.dispatch he hwindow hrs⟩
  | issue he hi hdone hready hissue => exact ⟨base, h.issuing he hi hdone hready hissue⟩
  | @commit front rob hrob hdone =>
    refine ⟨base + 1, Inv.commit (s := s) ?_ hdone⟩
    rw [← hrob]
    exact h
  | other hsame =>
    exact ⟨base, h.congr hsame.rob hsame.num_in_rob hsame.rs_entries hsame.next hsame.log⟩

end Sniper.Timing.Rob
