import Sniper.Timing.RobTimer

/-! # The front end

What the loop of `RobTimer::doDispatch`, and that of `RobSmtTimer::tryDispatch`, does to the front
end. A micro-op whose instruction was not in the first-level cache stalls it once, if the
reservation stations are not full when the stall is over.
-/
namespace Sniper.Timing.Rob

variable {Reg : Type}

/-- What the front end knows of a micro-op. -/
structure Fetch where
  iCacheHitWhere : HitWhere
  iCacheLatency : Nat
  /-- `isBranch()` and `isBranchMispredicted()`. -/
  mispredicted : Bool

namespace Fetch

def of (uop : DynamicMicroOp Reg) : Fetch where
  iCacheHitWhere := uop.iCacheHitWhere
  iCacheLatency := uop.iCacheLatency
  mispredicted := uop.m_uop.branch && uop.branchMispredicted

def iCacheMiss (fetch : Fetch) : Prop := fetch.iCacheHitWhere ≠ .L1I

instance (fetch : Fetch) : Decidable fetch.iCacheMiss :=
  inferInstanceAs (Decidable (fetch.iCacheHitWhere ≠ .L1I))

end Fetch

/-- The components of a CPI stack of the reorder buffers. -/
inductive CpiComponent where
  | Base
  | BranchPredictor
  | Serialization
  | RSFull
  | InstructionCache (hit_where : HitWhere)
  | DataCache (hit_where : HitWhere)
  /-- The last two are those of an SMT core only. -/
  | Idle
  | SMT
  deriving DecidableEq

/-- What the front end does with a micro-op. -/
inductive FrontEvent where
  /-- It stalls, from `now` on, for the latency in cycles of `period`. -/
  | stalled (fetch : Fetch) (now period : Nat)
  | dispatched (fetch : Fetch) (now : Nat)

/-- The micro-ops that wait to be dispatched, the state of the front end, the reason for which it
stalls, and what it has done. -/
structure FrontEnd where
  waiting : List Fetch
  frontend_stalled_until : Time
  in_icache_miss : Bool
  cpiFrontEnd : Option CpiComponent
  trace : List FrontEvent

/-- The loop over the micro-ops, with the number of those it may still dispatch, and with the
sizes of the reorder buffer and of the reservation stations. -/
def frontEnd (windowSize rsEntries now period : Nat) : Nat → Nat → Nat → FrontEnd → FrontEnd
  | width, num_in_rob, rs_entries_used, s =>
    if windowSize ≤ num_in_rob then s
    else
      match s.waiting with
      | [] => s
      | fetch :: waiting =>
        match width with
        | 0 => s
        | width + 1 =>
          if fetch.iCacheMiss ∧ s.in_icache_miss = false then
            { s with
              frontend_stalled_until := ((now + fetch.iCacheLatency * period : Nat) : Time)
              in_icache_miss := true
              cpiFrontEnd := some (.InstructionCache fetch.iCacheHitWhere)
              trace := s.trace ++ [.stalled fetch now period] }
          else
            let s := if fetch.iCacheMiss then { s with in_icache_miss := false } else s
            if rs_entries_used = rsEntries then { s with cpiFrontEnd := some .RSFull }
            else
              let s := { s with waiting := waiting, trace := s.trace ++ [.dispatched fetch now] }
              if fetch.mispredicted then
                { s with frontend_stalled_until := ⊤, cpiFrontEnd := some .BranchPredictor }
              else frontEnd windowSize rsEntries now period width (num_in_rob + 1)
                (rs_entries_used + 1) s

/-! ### One stall for one miss -/

/-- The micro-ops have been dispatched in order; each that missed has stalled the front end once
before, for all of its latency, and each that hit has not. -/
inductive Served : List Fetch → List FrontEvent → Prop
  | nil : Served [] []
  | hit {fetches : List Fetch} {trace : List FrontEvent} {fetch : Fetch} (now : Nat)
      (hhit : ¬ fetch.iCacheMiss) (h : Served fetches trace) :
      Served (fetches ++ [fetch]) (trace ++ [.dispatched fetch now])
  | miss {fetches : List Fetch} {trace : List FrontEvent} {fetch : Fetch}
      {since period now : Nat} (hmiss : fetch.iCacheMiss)
      (htaken : since + fetch.iCacheLatency * period ≤ now) (h : Served fetches trace) :
      Served (fetches ++ [fetch])
        (trace ++ [.stalled fetch since period, .dispatched fetch now])

/-- The stall of the next micro-op has begun, and its latency has not been taken. -/
def Missing (s : FrontEnd) (trace : List FrontEvent) : Prop :=
  ∃ fetch rest since period, s.waiting = fetch :: rest ∧ fetch.iCacheMiss ∧
    s.trace = trace ++ [.stalled fetch since period] ∧
    s.frontend_stalled_until = ((since + fetch.iCacheLatency * period : Nat) : Time)

/-- Of the micro-ops that have entered, those that have left the front end have stalled it as they
should; it is in a miss of the next one, or nothing else has happened. -/
def StalledOnce (entered : List Fetch) (s : FrontEnd) : Prop :=
  ∃ dispatched trace, entered = dispatched ++ s.waiting ∧ Served dispatched trace ∧
    if s.in_icache_miss then Missing s trace else s.trace = trace

theorem StalledOnce.wait {entered more s s'} (h : StalledOnce entered s)
    (hwaiting : s'.waiting = s.waiting ++ more) (hflag : s'.in_icache_miss = s.in_icache_miss)
    (htrace : s'.trace = s.trace) (hstall : s.in_icache_miss = true → s.frontend_stalled_until ≠ ⊤ →
      s'.frontend_stalled_until = s.frontend_stalled_until) :
    StalledOnce (entered ++ more) s' := by
  obtain ⟨dispatched, trace, hentered, hserved, hrest⟩ := h
  refine ⟨dispatched, trace, by rw [hentered, hwaiting, List.append_assoc], hserved, ?_⟩
  rw [hflag]
  split at hrest
  case isTrue hmissing =>
    obtain ⟨fetch, rest, since, period, hnext, hmiss, hlast, huntil⟩ := hrest
    rw [if_pos hmissing]
    refine ⟨fetch, rest ++ more, since, period, ?_, hmiss, htrace.trans hlast, ?_⟩
    · rw [hwaiting, hnext]
      rfl
    · rw [hstall hmissing (huntil ▸ time_ne_top _), huntil]
  case isFalse hmissing =>
    rw [if_neg hmissing]
    exact htrace.trans hrest

def FrontEvent.isStall : FrontEvent → Bool
  | .stalled .. => true
  | .dispatched .. => false

theorem Served.stalls {fetches trace} (h : Served fetches trace) :
    trace.countP FrontEvent.isStall = fetches.countP fun fetch => decide fetch.iCacheMiss := by
  induction h with
  | nil => rfl
  | @hit fetches trace fetch now hhit h ih =>
    have hnone : [fetch].countP (fun fetch => decide fetch.iCacheMiss) = 0 := by
      rw [List.countP_singleton, if_neg (by simpa using hhit)]
    rw [List.countP_append, List.countP_append, ih, hnone]
    rfl
  | @miss fetches trace fetch since period now hmiss htaken h ih =>
    have hone : [fetch].countP (fun fetch => decide fetch.iCacheMiss) = 1 := by
      rw [List.countP_singleton, if_pos (decide_eq_true hmiss)]
    rw [List.countP_append, List.countP_append, ih, hone]
    rfl

theorem StalledOnce.stalls_le {entered s} (h : StalledOnce entered s) :
    s.trace.countP FrontEvent.isStall ≤ entered.countP fun fetch => decide fetch.iCacheMiss := by
  obtain ⟨dispatched, trace, hentered, hserved, hrest⟩ := h
  rw [hentered, List.countP_append, ← hserved.stalls]
  split at hrest
  case isTrue =>
    obtain ⟨fetch, rest, since, period, hnext, hmiss, hlast, -⟩ := hrest
    rw [hlast, hnext, List.countP_append]
    refine Nat.add_le_add_left ?_ _
    exact List.countP_pos_iff.mpr ⟨fetch, List.mem_cons_self .., decide_eq_true hmiss⟩
  case isFalse =>
    rw [hrest]
    exact Nat.le_add_right _ _

section Loop
variable {windowSize rsEntries now period width num_in_rob rs_entries_used : Nat}
  {entered : List Fetch} {s : FrontEnd}

theorem frontEnd_zero :
    frontEnd windowSize rsEntries now period 0 num_in_rob rs_entries_used s = s := by
  rw [frontEnd.eq_def]
  dsimp only
  split
  · rfl
  · split <;> rfl

theorem frontEnd_reason (hnow : s.frontend_stalled_until ≤ (now : Time)) :
    (frontEnd windowSize rsEntries now period width num_in_rob rs_entries_used
      s).frontend_stalled_until ≤ (now : Time) ∨
    (frontEnd windowSize rsEntries now period width num_in_rob rs_entries_used
      s).cpiFrontEnd ≠ none := by
  induction width generalizing num_in_rob rs_entries_used s with
  | zero =>
    rw [frontEnd_zero]
    exact .inl hnow
  | succ width ih =>
    rw [frontEnd.eq_def]
    dsimp only
    split
    case isTrue => exact .inl hnow
    case isFalse =>
      split
      case h_1 => exact .inl hnow
      case h_2 fetch waiting hwaiting =>
        split
        case isTrue => exact .inr (Option.some_ne_none _)
        case isFalse =>
          have hfetched : ∀ f : FrontEnd, f.frontend_stalled_until = s.frontend_stalled_until →
              f.frontend_stalled_until ≤ (now : Time) := fun f hf => hf ▸ hnow
          split
          case isTrue => exact .inr (Option.some_ne_none _)
          case isFalse =>
            split
            case isTrue => exact .inr (Option.some_ne_none _)
            case isFalse =>
              refine ih (hfetched _ ?_)
              dsimp only
              split
              · rfl
              · rfl

theorem StalledOnce.frontEnd_of_not_missing (h : StalledOnce entered s)
    (hflag : s.in_icache_miss = false) :
    StalledOnce entered
      (frontEnd windowSize rsEntries now period width num_in_rob rs_entries_used s) := by
  induction width generalizing num_in_rob rs_entries_used s with
  | zero => rwa [frontEnd_zero]
  | succ width ih =>
    obtain ⟨dispatched, trace, hentered, hserved, htrace⟩ := h
    rw [hflag, if_neg Bool.false_ne_true] at htrace
    have hsame : StalledOnce entered s :=
      ⟨dispatched, trace, hentered, hserved, by rw [hflag, if_neg Bool.false_ne_true, htrace]⟩
    rw [frontEnd.eq_def]
    dsimp only
    split
    case isTrue => exact hsame
    case isFalse =>
      split
      case h_1 => exact hsame
      case h_2 fetch waiting hwaiting =>
        by_cases hmiss : fetch.iCacheMiss
        · rw [if_pos ⟨hmiss, hflag⟩]
          exact ⟨dispatched, trace, hentered, hserved, fetch, waiting, now, period, hwaiting, hmiss,
            by rw [htrace], rfl⟩
        · rw [if_neg fun hboth => hmiss hboth.1, if_neg hmiss]
          split
          case isTrue => exact ⟨dispatched, trace, hentered, hserved, by simp [hflag, htrace]⟩
          case isFalse =>
            have hnext : ∀ t : FrontEnd, t.waiting = waiting → t.in_icache_miss = false →
                t.trace = s.trace ++ [.dispatched fetch now] → StalledOnce entered t := by
              intro t htw htf htt
              refine ⟨dispatched ++ [fetch], _, ?_, hserved.hit now hmiss, ?_⟩
              · rw [hentered, hwaiting, htw, List.append_assoc]
                rfl
              · rw [htf, if_neg Bool.false_ne_true, htt, htrace]
            split
            case isTrue => exact hnext _ rfl hflag rfl
            case isFalse => exact ih (hnext _ rfl hflag rfl) hflag

/-- The micro-op that has missed is dispatched when its stall is over, if the reservation stations
are not full. -/
theorem StalledOnce.frontEnd (h : StalledOnce entered s)
    (hnow : s.frontend_stalled_until ≤ (now : Time))
    (hroom : s.in_icache_miss = true → num_in_rob < windowSize → rs_entries_used ≠ rsEntries) :
    StalledOnce entered
      (frontEnd windowSize rsEntries now period width num_in_rob rs_entries_used s) := by
  by_cases hflag : s.in_icache_miss = false
  · exact h.frontEnd_of_not_missing hflag
  · have hflag : s.in_icache_miss = true := by simpa using hflag
    cases width with
    | zero => rwa [frontEnd_zero]
    | succ width =>
      rw [Rob.frontEnd.eq_def]
      dsimp only
      split
      case isTrue => exact h
      case isFalse hwindow =>
        obtain ⟨dispatched, trace, hentered, hserved, hmissing⟩ := h
        rw [if_pos hflag] at hmissing
        obtain ⟨fetch, waiting, since, since_period, hwaiting, hmiss, htrace, hstall⟩ := hmissing
        simp only [hwaiting, hflag, Bool.true_eq_false, and_false, if_false, if_pos hmiss,
          if_neg (hroom hflag (Nat.lt_of_not_le hwindow))]
        have htaken : since + fetch.iCacheLatency * since_period ≤ now :=
          time_le.mp (hstall ▸ hnow)
        have hnext : ∀ t : FrontEnd, t.waiting = waiting → t.in_icache_miss = false →
            t.trace = s.trace ++ [.dispatched fetch now] → StalledOnce entered t := by
          intro t htw htf htt
          refine ⟨dispatched ++ [fetch], _, ?_, hserved.miss hmiss htaken, ?_⟩
          · rw [hentered, hwaiting, htw, List.append_assoc]
            rfl
          · rw [htf, if_neg Bool.false_ne_true, htt, htrace, List.append_assoc]
            rfl
        split
        case isTrue => exact hnext _ rfl rfl rfl
        case isFalse => exact (hnext _ rfl rfl rfl).frontEnd_of_not_missing rfl

end Loop

end Sniper.Timing.Rob
