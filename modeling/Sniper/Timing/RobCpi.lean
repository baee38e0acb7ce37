import Sniper.Lib.Metering
import Sniper.Timing.RobFrontEnd

/-! # The CPI stack of the reorder buffer

`doDispatch` chooses a component, and `execute` adds to it the time to which the three stages let
the clock go on. So the components grow together by the latency that `simulate` returns, and a
component is always found.
-/
namespace Sniper.Timing.Rob
open Lib.Simulation Lib.Metering

variable {Reg K M : Type}

abbrev CpiStack : Type := Counters CpiComponent

/-- Why a timer with its CPI stack stops. -/
inductive CpiStop where
  | timer (stop : Stop)
  /-- The check that `cpiComponent != NULL`. -/
  | cpiComponent
  /-- The check of `m_cpiCurrentFrontEndStall`. -/
  | cpiCurrentFrontEndStall
  | outOfFuel

def ofTimer {α : Type} (x : Except Stop α) : Except CpiStop α := x.mapError .timer

/-- No check that a component was found fails. -/
structure ComponentFound {α : Type} (x : Except CpiStop α) : Prop where
  cpiComponent : x ≠ .error .cpiComponent
  stall : x ≠ .error .cpiCurrentFrontEndStall

/-- What the micro-op stands for when everybody is blocked on it. -/
def RobEntry.cpiComponent (entry : RobEntry Reg) : Option CpiComponent :=
  if entry.uop.m_uop.serializing || entry.uop.m_uop.m_membar then some .Serialization
  else if entry.uop.m_uop.isLoad || entry.uop.m_uop.isStore then
    some (.DataCache entry.uop.dCacheHitWhere)
  else none

/-- `findCpiComponent`, over the entries that have been dispatched. -/
def findCpiComponent (now : Nat) : List (RobEntry Reg) → Option CpiComponent
  | [] => none
  | entry :: rest =>
    if entry.done < (now : Time) then findCpiComponent now rest else entry.cpiComponent

/-- `*cpiComponent += latency`. -/
def charge (cpi : CpiStack) (cpiComponent : Option CpiComponent) (latency : Nat) :
    Except CpiStop CpiStack :=
  match cpiComponent with
  | some component => .ok (cpi.add component latency)
  | none => .error .cpiComponent

/-- A timer with its CPI stack. -/
structure CpiTimer (Reg K M : Type) where
  timer : RobTimer Reg K M
  m_cpiCurrentFrontEndStall : Option CpiComponent
  cpi : CpiStack

namespace CpiTimer

/-- `cpiFrontEnd` of `doDispatch`: a front end that is still stalled re-uses the last one. -/
def cpiFrontEnd (cfg : Config Reg K M) (w : CpiTimer Reg K M) : Option CpiComponent :=
  if w.timer.frontend_stalled_until ≤ (w.timer.now : Time) then
    (w.timer.frontEnd cfg []).cpiFrontEnd
  else w.m_cpiCurrentFrontEndStall

end CpiTimer

/-- The component that `doDispatch` chooses when it has dispatched. -/
def cpiComponent (cfg : Config Reg K M) (cpiFrontEnd : Option CpiComponent)
    (s : RobTimer Reg K M) : Option CpiComponent :=
  let cpiRobHead := findCpiComponent s.now (s.rob.take s.m_num_in_rob)
  match cpiFrontEnd with
  | some frontEnd => some (cpiRobHead.getD frontEnd)
  | none =>
    if s.m_num_in_rob = cfg.windowSize then some (cpiRobHead.getD .Base) else some .Base

namespace CpiTimer
/-- `execute`, with its latency. -/
def execute (cfg : Config Reg K M) (w : CpiTimer Reg K M) :
    Except CpiStop (CpiTimer Reg K M × Nat) := do
  if starved cfg w.timer then return (w, 0)
  let cpiFrontEnd := w.cpiFrontEnd cfg
  let (s, next_dispatch) ← ofTimer (doDispatch cfg w.timer)
  let component := cpiComponent cfg cpiFrontEnd s
  let (s, next_issue) ← ofTimer (doIssue cfg s)
  let (s, next_commit) := doCommit cfg s
  let skip := match min next_dispatch (min next_issue next_commit) with
    | some event => if s.now + s.period < event then event - s.now else s.period
    | none => s.period
  let cpi ← charge w.cpi component skip
  return ({ timer := { s with now := s.now + skip }
            m_cpiCurrentFrontEndStall := cpiFrontEnd
            cpi := cpi }, skip)

/-- The loop of `simulate`, for at most `fuel` rounds. -/
def executeAll (cfg : Config Reg K M) :
    Nat → CpiTimer Reg K M → Nat → Except CpiStop (CpiTimer Reg K M × Nat)
  | 0, _, _ => .error .outOfFuel
  | fuel + 1, w, totalLat => do
    let (w, latency) ← w.execute cfg
    if latency = 0 then return (w, totalLat) else executeAll cfg fuel w (totalLat + latency)

/-- `simulate`, with the latency it returns. -/
def simulate [DecidableEq Reg] (cfg : Config Reg K M) (fuel : Nat)
    (insts : List (DynamicMicroOp Reg))
    (w : CpiTimer Reg K M) : Except CpiStop (CpiTimer Reg K M × Nat) := do
  let timer ← ofTimer (insts.foldlM (enter cfg) w.timer)
  executeAll cfg fuel { w with timer := timer } 0

end CpiTimer

/-! ### Checks -/

namespace ComponentFound

theorem ok {α} (a : α) : ComponentFound (.ok a) := ⟨nofun, nofun⟩

theorem ofTimer {α} (x : Except Stop α) : ComponentFound (ofTimer x) := by
  cases x with
  | error stop => exact ⟨nofun, nofun⟩
  | ok a => exact ok a

theorem bind {α β : Type} {x : Except CpiStop α} {f : α → Except CpiStop β}
    (h : ComponentFound x) (hf : ∀ a, x = .ok a → ComponentFound (f a)) :
    ComponentFound (x >>= f) where
  cpiComponent := bind_ne_error h.cpiComponent fun a ha => (hf a ha).cpiComponent
  stall := bind_ne_error h.stall fun a ha => (hf a ha).stall

end ComponentFound

theorem eq_ok_of_ofTimer {α : Type} {x : Except Stop α} {a : α} (h : ofTimer x = .ok a) :
    x = .ok a := by
  cases x with
  | error stop => cases h
  | ok a' => exact congrArg Except.ok (Except.ok.inj h)

theorem ofTimer_bind {α β} (x : Except Stop α) (f : α → Except Stop β) :
    ofTimer (x >>= f) = ofTimer x >>= fun a => ofTimer (f a) := by
  cases x with
  | error stop | ok a => rfl

theorem exists_cpiComponent (cfg : Config Reg K M) (cpiFrontEnd : Option CpiComponent)
    (s : RobTimer Reg K M) : ∃ component, cpiComponent cfg cpiFrontEnd s = some component := by
  cases cpiFrontEnd with
  | some frontEnd => exact ⟨_, rfl⟩
  | none =>
    rw [cpiComponent]
    split
    · exact ⟨_, rfl⟩
    · exact ⟨_, rfl⟩

/-! ### Accounts -/

namespace CpiTimer
variable {cfg : Config Reg K M} {w w' : CpiTimer Reg K M}

theorem execute_charged (cfg : Config Reg K M) (w : CpiTimer Reg K M) :
    Lockstep (fun a b => b.1.timer = a.1 ∧ b.2 = a.2 ∧ b.1.cpi.total = w.cpi.total + a.2)
      (ofTimer (Rob.execute cfg w.timer)) (w.execute cfg) := by
  rw [Rob.execute, CpiTimer.execute]
  by_cases hstarved : starved cfg w.timer
  · rw [if_pos hstarved, if_pos hstarved]
    exact .ok ⟨rfl, rfl, rfl⟩
  · rw [if_neg hstarved, if_neg hstarved, cycle]
    simp only [ofTimer_bind, bind_assoc]
    refine .bind_same fun dispatched _ => .bind_same fun issued _ => ?_
    obtain ⟨component, hcomponent⟩ :=
      exists_cpiComponent cfg (w.cpiFrontEnd cfg) dispatched.1
    rw [hcomponent]
    exact .ok ⟨rfl, rfl, Counters.total_add ..⟩

theorem execute_found (cfg : Config Reg K M) (w : CpiTimer Reg K M) :
    ComponentFound (w.execute cfg) := by
  have hfound := ComponentFound.ofTimer (Rob.execute cfg w.timer)
  have hcharged := execute_charged cfg w
  exact ⟨fun h => hfound.cpiComponent (hcharged.of_error h),
    fun h => hfound.stall (hcharged.of_error h)⟩

theorem executeAll_total {fuel totalLat latency}
    (h : executeAll cfg fuel w totalLat = .ok (w', latency)) :
    w'.cpi.total + totalLat = w.cpi.total + latency := by
  induction fuel generalizing w totalLat with
  | zero => cases h
  | succ fuel ih =>
    obtain ⟨⟨w₁, cycle⟩, hexecute, h⟩ := of_bind_ok h
    obtain ⟨⟨s, cycle'⟩, -, -, hcycle, htotal⟩ := (execute_charged cfg w).of_ok hexecute
    dsimp only at hcycle htotal h
    split at h
    case isTrue hzero =>
      cases h
      omega
    case isFalse =>
      have hrest := ih h
      omega

theorem executeAll_found (cfg : Config Reg K M) (fuel : Nat) (w : CpiTimer Reg K M)
    (totalLat : Nat) : ComponentFound (executeAll cfg fuel w totalLat) := by
  induction fuel generalizing w totalLat with
  | zero => exact ⟨nofun, nofun⟩
  | succ fuel ih =>
    refine .bind (execute_found cfg w) fun p _ => ?_
    dsimp only
    split
    · exact .ok _
    · exact ih p.1 _

variable [DecidableEq Reg]

theorem simulate_total {fuel latency insts} (h : w.simulate cfg fuel insts = .ok (w', latency)) :
    w'.cpi.total = w.cpi.total + latency := by
  obtain ⟨timer, -, h⟩ := of_bind_ok h
  exact executeAll_total h

theorem simulate_found (cfg : Config Reg K M) (fuel : Nat) (insts : List (DynamicMicroOp Reg))
    (w : CpiTimer Reg K M) : ComponentFound (w.simulate cfg fuel insts) :=
  .bind (.ofTimer _) fun _ _ => executeAll_found ..

end CpiTimer

end Sniper.Timing.Rob
