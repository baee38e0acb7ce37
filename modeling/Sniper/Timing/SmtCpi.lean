import Sniper.Timing.RobCpi
import Sniper.Timing.SmtFetchStalls

/-! # The CPI stacks of an SMT core

`doDispatch` charges each thread one period in each cycle, to a component that it always finds. The
clock goes on by that period unless there is a single thread and `executeCycle` skips cycles.
-/
namespace Sniper.Timing.Rob
open Lib.Simulation Lib.Metering Function

variable {n : Nat} {Reg K M : Type}

/-- What the CPI stack of a thread needs. -/
structure CpiThread where
  m_cpiCurrentFrontEndStall : Option CpiComponent
  cpi : CpiStack

/-- A core with the CPI stacks of its threads. -/
structure SmtCpiTimer (n : Nat) (Reg K M : Type) where
  timer : RobSmtTimer n Reg K M
  threads : Fin n → CpiThread

/-- `findCpiComponent` of a thread, over its entries: unlike that of `RobTimer`, it finds nothing
at a micro-op that has not begun to execute. -/
def findExecuting (now : Nat) : List (RobEntry Reg) → Option CpiComponent
  | [] => none
  | entry :: rest =>
    if entry.done < (now : Time) then findExecuting now rest
    else if (now : Time) ≤ entry.issued then none
    else entry.cpiComponent

namespace SmtCpiTimer

variable [DecidableEq Reg]

def setThread (w : SmtCpiTimer n Reg K M) (thread_num : Fin n) (thread : CpiThread) :
    SmtCpiTimer n Reg K M :=
  { w with threads := update w.threads thread_num thread }

/-- A round of the loop of `doDispatch`: what the thread does, and its component. -/
def dispatchThread (cfg : SmtConfig n Reg K M) (w : SmtCpiTimer n Reg K M) (thread_num : Fin n)
    (dispatched_from : Option (Fin n)) (next_event : Time) :
    Except CpiStop (SmtCpiTimer n Reg K M × Option CpiComponent × Option (Fin n) × Time) :=
  let thread := w.timer.m_rob_threads thread_num
  let stall := (w.threads thread_num).m_cpiCurrentFrontEndStall
  let cpiRobHead := findExecuting w.timer.now thread.rob
  if (w.timer.now : Time) < thread.frontend_stalled_until then
    if stall = none then .error .cpiCurrentFrontEndStall
    else .ok (w, cpiRobHead.or stall, dispatched_from, next_event)
  else if !thread.running || w.timer.now < thread.now then
    .ok (w, some .Idle, dispatched_from, next_event)
  else if w.timer.currentWindowSize ≤ thread.rob.length then
    .ok (w, some (cpiRobHead.getD .Base), dispatched_from, next_event)
  else if dispatched_from ≠ none then .ok (w, some .SMT, dispatched_from, next_event)
  else do
    let (timer, hasDispatched, next_event) ←
      ofTimer (w.timer.tryDispatch cfg thread_num next_event)
    -- `tryDispatch` forgets the last stall
    let stall := (w.timer.frontEnd cfg thread_num []).cpiFrontEnd
    return ({ w with timer := timer }.setThread thread_num
        { w.threads thread_num with m_cpiCurrentFrontEndStall := stall },
      some (stall.getD .Base), if hasDispatched then some thread_num else none, next_event)

/-- The loop of `doDispatch`. -/
def dispatchLoop (cfg : SmtConfig n Reg K M) : List (Fin n) → SmtCpiTimer n Reg K M →
    Option (Fin n) → Time → Except CpiStop (SmtCpiTimer n Reg K M × Option (Fin n) × Time)
  | [], w, dispatched_from, next_event => .ok (w, dispatched_from, next_event)
  | thread_num :: rest, w, dispatched_from, next_event => do
    let (w, cpiComponent, dispatched_from, next_event) ←
      w.dispatchThread cfg thread_num dispatched_from next_event
    let cpi ← charge (w.threads thread_num).cpi cpiComponent w.timer.period
    dispatchLoop cfg rest (w.setThread thread_num { w.threads thread_num with cpi := cpi })
      dispatched_from next_event

def doDispatch [NeZero n] (cfg : SmtConfig n Reg K M) (w : SmtCpiTimer n Reg K M) :
    Except CpiStop (SmtCpiTimer n Reg K M × Time) := do
  let thread_first := w.timer.dispatch_thread
  let (w, dispatched_from, next_event) ←
    w.dispatchLoop cfg (RobSmtTimer.threadsFrom thread_first) none ⊤
  return ({ w with timer :=
    { w.timer with dispatch_thread := dispatched_from.getD thread_first + 1 } }, next_event)

def executeCycle [NeZero n] (cfg : SmtConfig n Reg K M) (w : SmtCpiTimer n Reg K M) :
    Except CpiStop (SmtCpiTimer n Reg K M) := do
  let (w, next_dispatch) ← w.doDispatch cfg
  let (s, next_issue) ← ofTimer (w.timer.doIssue cfg)
  let (s, next_commit) := s.doCommit cfg
  let skip := if 1 < n then s.period
    else match min next_dispatch (min next_issue next_commit) with
      | some event => if s.now + s.period < event then event - s.now else s.period
      | none => s.period
  return { w with timer := { s with now := s.now + skip } }

def exec [NeZero n] (cfg : SmtConfig n Reg K M) (w : SmtCpiTimer n Reg K M) :
    SmtCall n Reg → Except CpiStop (SmtCpiTimer n Reg K M)
  | .executeCycle => if w.timer.canExecute cfg then w.executeCycle cfg else .ok w
  | call => (ofTimer (w.timer.exec cfg call)).map fun timer => { w with timer := timer }

/-- After the constructor: the last stall is set to that of the other threads. -/
structure Init (cfg : SmtConfig n Reg K M) (w : SmtCpiTimer n Reg K M) : Prop where
  timer : RobSmtTimer.Init cfg w.timer
  stall : ∀ t, (w.threads t).m_cpiCurrentFrontEndStall = some .SMT
  cpi : ∀ t, (w.threads t).cpi = ∅

def Step [NeZero n] (cfg : SmtConfig n Reg K M) (w w' : SmtCpiTimer n Reg K M) : Prop :=
  ∃ call, RobSmtTimer.Allowed cfg call ∧ w.exec cfg call = .ok w'

end SmtCpiTimer

def RobSmtTimer.nextEvent [DecidableEq Reg] [NeZero n] (cfg : SmtConfig n Reg K M)
    (s : RobSmtTimer n Reg K M) : Except Stop Time := do
  let (s, next_dispatch) ← s.doDispatch cfg
  let (s, next_issue) ← s.doIssue cfg
  let (_, next_commit) := s.doCommit cfg
  return min next_dispatch (min next_issue next_commit)

/-- `executeCycle` skips cycles: there is one thread, and the next event is later than the next
cycle. -/
def RobSmtTimer.Skips [DecidableEq Reg] [NeZero n] (cfg : SmtConfig n Reg K M)
    (s : RobSmtTimer n Reg K M) : Prop :=
  ¬ 1 < n ∧ ∃ event : Nat, s.nextEvent cfg = .ok (event : Time) ∧ s.now + s.period < event

/-! ### The clock -/

namespace RobSmtTimer
variable {cfg : SmtConfig n Reg K M} {s s' s'' : RobSmtTimer n Reg K M}

/-- The clock and its period stay as they are. -/
structure Paused (s s' : RobSmtTimer n Reg K M) : Prop where
  now : s'.now = s.now
  period : s'.period = s.period

theorem Paused.trans (h : Paused s s') (h' : Paused s' s'') : Paused s s'' :=
  ⟨h'.now.trans h.now, h'.period.trans h.period⟩

theorem dispatchLoop_paused [DecidableEq Reg]
    {threads dispatched_from dispatched_from' next_event next_event'}
    (h : dispatchLoop cfg threads s dispatched_from next_event =
      .ok (s', dispatched_from', next_event')) : Paused s s' := by
  induction threads generalizing s dispatched_from next_event with
  | nil =>
    cases h
    exact ⟨rfl, rfl⟩
  | cons t threads ih =>
    rw [dispatchLoop] at h
    split at h
    case isTrue =>
      obtain ⟨⟨s₁, hasDispatched, next_event₁⟩, hdispatch, h⟩ := of_bind_ok h
      have htried := tryDispatch_tried hdispatch
      exact .trans ⟨htried.now, htried.period⟩ (ih h)
    case isFalse => exact ih h

theorem issueThreads_paused {threads thread_first thread_num next_event next_event'}
    (h : issueThreads cfg thread_first threads s next_event = .ok (s', thread_num, next_event')) :
    Paused s s' := by
  induction threads generalizing s next_event with
  | nil =>
    cases h
    exact ⟨rfl, rfl⟩
  | cons t threads ih =>
    rw [issueThreads] at h
    split at h
    case isTrue =>
      obtain ⟨⟨s₁, hasIssued, next_event₁⟩, hissue, h⟩ := of_bind_ok h
      have hpaused : Paused s s₁ := by
        obtain ⟨⟨v, thread_next_event⟩, -, hissue⟩ := of_bind_ok hissue
        cases hissue
        exact ⟨rfl, rfl⟩
      dsimp only at h
      split at h
      case isTrue =>
        cases h
        exact hpaused
      case isFalse => exact hpaused.trans (ih h)
    case isFalse => exact ih h

theorem commits_paused (threads : List (Fin n)) : Paused s (threads.foldl (commit cfg) s) := by
  induction threads generalizing s with
  | nil => exact ⟨rfl, rfl⟩
  | cons t threads ih =>
    have hcommit : Paused s (s.commit cfg t) := ⟨rfl, rfl⟩
    exact hcommit.trans ih

theorem executeCycle_now_iff [DecidableEq Reg] [NeZero n] (h : s.executeCycle cfg = .ok s') :
    s'.now = s.now + s.period ↔ ¬ s.Skips cfg := by
  obtain ⟨⟨s₁, t₁⟩, hdispatch, h⟩ := of_bind_ok h
  obtain ⟨⟨s₂, t₂⟩, hissue, h⟩ := of_bind_ok h
  have hpaused : Paused s ((List.finRange n).foldl (commit cfg) s₂) := by
    refine Paused.trans ?_ (commits_paused _)
    obtain ⟨⟨s₃, dispatched_from, t₃⟩, hloop, hnext⟩ := of_bind_ok hdispatch
    obtain ⟨⟨s₄, thread_num, t₄⟩, hloop', hnext'⟩ := of_bind_ok hissue
    have hdispatched := dispatchLoop_paused hloop
    have hissued := issueThreads_paused hloop'
    cases hnext
    cases hnext'
    exact ⟨hissued.now.trans hdispatched.now, hissued.period.trans hdispatched.period⟩
  have hevent : s.nextEvent cfg = .ok (min t₁ (min t₂ (s₂.doCommit cfg).2)) :=
    bind_eq_of_ok hdispatch (bind_eq_of_ok hissue rfl)
  cases h
  dsimp only [doCommit] at hevent ⊢
  rw [hpaused.now, hpaused.period, Skips, hevent]
  generalize min t₁ (min t₂ _) = next_event
  by_cases hone : 1 < n
  · simp [hone]
  · rw [if_neg hone]
    cases next_event with
    | none =>
      refine iff_of_true rfl ?_
      rintro ⟨-, event, hsome, -⟩
      cases hsome
    | some event =>
      dsimp only
      split
      case isTrue hlate =>
        refine iff_of_false (by omega) fun hnot => hnot ⟨hone, event, rfl, hlate⟩
      case isFalse hearly =>
        refine iff_of_true rfl ?_
        rintro ⟨-, event', hsome, hlate⟩
        cases hsome
        exact hearly hlate

end RobSmtTimer

/-! ### A cycle -/

namespace SmtCpiTimer
open RobSmtTimer
variable {cfg : SmtConfig n Reg K M} {w w' : SmtCpiTimer n Reg K M}

/-- A thread whose front end is stalled has a component for it. -/
structure Ready (w : SmtCpiTimer n Reg K M) : Prop where
  braked : ∀ t, Braked (w.timer.view t)
  stalled : ∀ t, (w.timer.now : Time) < (w.timer.m_rob_threads t).frontend_stalled_until →
    (w.threads t).m_cpiCurrentFrontEndStall ≠ none

theorem Ready.tried (h : Ready w) {t timer hasDispatched}
    (htried : Tried cfg w.timer timer t hasDispatched)
    (hnow : (w.timer.m_rob_threads t).frontend_stalled_until ≤ (w.timer.now : Time)) :
    Ready (({ w with timer := timer } : SmtCpiTimer n Reg K M).setThread t
      { w.threads t with
        m_cpiCurrentFrontEndStall := (w.timer.frontEnd cfg t []).cpiFrontEnd }) := by
  refine ⟨fun u => ?_, fun u hu => ?_⟩
  · by_cases heq : u = t
    · subst heq
      refine htried.braked (fun htop => ?_) (h.braked u)
      rw [htop] at hnow
      exact time_ne_top _ (top_le_iff.mp hnow)
    · exact (Calm.of_thread (htried.others u heq)).braked (h.braked u)
  · dsimp only [setThread] at hu ⊢
    by_cases heq : u = t
    · subst heq
      have hstalled : (timer.m_rob_threads u).frontend_stalled_until =
          (w.timer.frontEnd cfg u []).frontend_stalled_until :=
        congrArg FrontEnd.frontend_stalled_until (htried.front [])
      rw [hstalled, htried.now] at hu
      rw [update_self]
      exact (frontEnd_reason hnow).resolve_left (not_le_of_gt hu)
    · rw [htried.others u heq, htried.now] at hu
      rw [update_of_ne heq]
      exact h.stalled u hu

variable [DecidableEq Reg]

theorem dispatchThread_waits (cfg : SmtConfig n Reg K M) (h : Ready w) {t dispatched_from}
    (hwaits : ¬ (w.timer.mayDispatch t = true ∧ dispatched_from = none)) (next_event : Time) :
    ∃ component, w.dispatchThread cfg t dispatched_from next_event =
      .ok (w, some component, dispatched_from, next_event) := by
  rw [dispatchThread]
  split
  case isTrue hstalled =>
    obtain ⟨stall, hstall⟩ := Option.ne_none_iff_exists'.mp (h.stalled t hstalled)
    rw [hstall, if_neg (Option.some_ne_none _)]
    cases findExecuting w.timer.now (w.timer.m_rob_threads t).rob with
    | none | some head => exact ⟨_, rfl⟩
  case isFalse hstalled =>
    split
    case isTrue => exact ⟨_, rfl⟩
    case isFalse hidle =>
      split
      case isTrue => exact ⟨_, rfl⟩
      case isFalse hfull =>
        split
        case isTrue => exact ⟨_, rfl⟩
        case isFalse hnone =>
          refine absurd ⟨?_, not_not.mp hnone⟩ hwaits
          simp only [Bool.or_eq_true, Bool.not_eq_true', decide_eq_true_eq, not_or,
            Bool.not_eq_false, not_lt] at hidle
          simp only [mayDispatch, Bool.and_eq_true, decide_eq_true_eq]
          exact ⟨⟨⟨not_lt.mp hstalled, hidle.2⟩, not_le.mp hfull⟩, hidle.1⟩

theorem dispatchThread_tries (cfg : SmtConfig n Reg K M) (h : Ready w) {t}
    (hmay : w.timer.mayDispatch t = true) (next_event : Time) :
    Lockstep (fun a b => b.1.timer = a.1 ∧ b.2.2 = (if a.2.1 then some t else none, a.2.2) ∧
        b.2.1 ≠ none ∧ (∀ u, (b.1.threads u).cpi = (w.threads u).cpi) ∧
        b.1.timer.period = w.timer.period ∧ Ready b.1)
      (ofTimer (w.timer.tryDispatch cfg t next_event))
      (w.dispatchThread cfg t none next_event) := by
  simp only [mayDispatch, Bool.and_eq_true, decide_eq_true_eq] at hmay
  obtain ⟨⟨⟨hstalled, hnow⟩, hroom⟩, hrunning⟩ := hmay
  rw [dispatchThread, if_neg (not_lt.mpr hstalled), if_neg (by simp [hrunning, hnow]),
    if_neg (not_le.mpr hroom), if_neg (not_not.mpr rfl)]
  cases htry : w.timer.tryDispatch cfg t next_event with
  | error stop => exact .error _
  | ok p =>
    have htried := tryDispatch_tried htry
    refine .ok ⟨rfl, rfl, Option.some_ne_none _, fun u => ?_, htried.period,
      h.tried htried hstalled⟩
    dsimp only [setThread]
    by_cases hu : u = t
    · subst hu
      rw [update_self]
    · rw [update_of_ne hu]

omit [DecidableEq Reg] in
theorem Ready.charged (h : Ready w) {t} (cpi : CpiStack) :
    Ready (w.setThread t { w.threads t with cpi := cpi }) := by
  refine ⟨h.braked, fun u hu => ?_⟩
  have hstall := h.stalled u hu
  dsimp only [setThread]
  by_cases heq : u = t
  · subst heq
    rwa [update_self]
  · rwa [update_of_ne heq]

theorem dispatchLoop_charged (cfg : SmtConfig n Reg K M) {threads} (hnodup : threads.Nodup)
    (h : Ready w) (dispatched_from : Option (Fin n)) (next_event : Time) :
    Lockstep (fun a b => b.1.timer = a.1 ∧ b.2 = a.2 ∧ Ready b.1 ∧
        ∀ t, (b.1.threads t).cpi.total =
          (w.threads t).cpi.total + if t ∈ threads then w.timer.period else 0)
      (ofTimer (RobSmtTimer.dispatchLoop cfg threads w.timer dispatched_from next_event))
      (w.dispatchLoop cfg threads dispatched_from next_event) := by
  induction threads generalizing w dispatched_from next_event with
  | nil => exact .ok ⟨rfl, rfl, h, fun t => by simp⟩
  | cons t threads ih =>
    obtain ⟨hnot, hnodup⟩ := List.nodup_cons.mp hnodup
    have hrest : ∀ (w₁ : SmtCpiTimer n Reg K M) (component : CpiComponent) (d : Option (Fin n))
        (e : Time), Ready w₁ → (∀ u, (w₁.threads u).cpi = (w.threads u).cpi) →
        w₁.timer.period = w.timer.period →
        Lockstep (fun a b => b.1.timer = a.1 ∧ b.2 = a.2 ∧ Ready b.1 ∧
            ∀ u, (b.1.threads u).cpi.total =
              (w.threads u).cpi.total + if u ∈ t :: threads then w.timer.period else 0)
          (ofTimer (RobSmtTimer.dispatchLoop cfg threads w₁.timer d e))
          (dispatchLoop cfg threads (w₁.setThread t { w₁.threads t with
            cpi := (w₁.threads t).cpi.add component w₁.timer.period }) d e) := by
      intro w₁ component d e hready hcpi hperiod
      refine (ih hnodup (hready.charged _) d e).mono fun a b => ?_
      rintro ⟨htimer, hresult, hready', htotal⟩
      refine ⟨htimer, hresult, hready', fun u => ?_⟩
      rw [htotal u]
      dsimp only [setThread]
      by_cases hu : u = t
      · subst hu
        rw [update_self, if_neg hnot, if_pos (List.mem_cons_self ..),
          Counters.total_add, hcpi, hperiod, Nat.add_zero]
      · rw [update_of_ne hu, hcpi, hperiod]
        simp [hu]
    rw [RobSmtTimer.dispatchLoop, dispatchLoop]
    by_cases htry : w.timer.mayDispatch t = true ∧ dispatched_from = none
    · obtain ⟨hmay, rfl⟩ := htry
      rw [if_pos ⟨hmay, rfl⟩, ofTimer_bind]
      refine .bind (dispatchThread_tries cfg h hmay next_event) ?_
      rintro ⟨s₁, hasDispatched, e⟩ ⟨w₁, component, d, e'⟩ - ⟨htimer, hfrom, hfound, hcpi, hperiod,
        hready⟩
      dsimp only at htimer
      cases hfrom
      subst htimer
      obtain ⟨component, rfl⟩ := Option.ne_none_iff_exists'.mp hfound
      exact hrest w₁ component _ _ hready hcpi hperiod
    · obtain ⟨component, hwaits⟩ := dispatchThread_waits cfg h htry next_event
      rw [if_neg htry, hwaits]
      exact hrest w component _ _ h (fun _ => rfl) rfl

theorem doDispatch_charged [NeZero n] (cfg : SmtConfig n Reg K M) (h : Ready w) :
    Lockstep (fun a b => b.1.timer = a.1 ∧ b.2 = a.2 ∧ Ready b.1 ∧
        ∀ t, (b.1.threads t).cpi.total = (w.threads t).cpi.total + w.timer.period)
      (ofTimer (w.timer.doDispatch cfg)) (w.doDispatch cfg) := by
  have hloop := dispatchLoop_charged cfg (threadsFrom_nodup w.timer.dispatch_thread) h none ⊤
  rw [RobSmtTimer.doDispatch, doDispatch, ofTimer_bind]
  refine hloop.bind ?_
  rintro ⟨s₁, dispatched_from, next_event⟩ ⟨w₁, d, e⟩ - ⟨htimer, hresult, hready, htotal⟩
  cases hresult
  subst htimer
  refine .ok ⟨rfl, rfl, ⟨hready.braked, hready.stalled⟩, fun t => ?_⟩
  have hmem : t ∈ threadsFrom w.timer.dispatch_thread :=
    List.mem_map.mpr ⟨t - w.timer.dispatch_thread, List.mem_finRange _, add_sub_cancel _ _⟩
  rw [htotal t, if_pos hmem]

omit [DecidableEq Reg] in
theorem Ready.later (h : Ready w) {timer : RobSmtTimer n Reg K M}
    (hbraked : ∀ t, Braked (w.timer.view t) → Braked (timer.view t))
    (hstalled : ∀ t, Braked (w.timer.view t) →
      (w.timer.m_rob_threads t).frontend_stalled_until ≠ ⊤ →
      (timer.m_rob_threads t).frontend_stalled_until =
        (w.timer.m_rob_threads t).frontend_stalled_until)
    (hnow : w.timer.now ≤ timer.now) : Ready { w with timer := timer } := by
  refine ⟨fun t => hbraked t (h.braked t), fun t ht => h.stalled t ?_⟩
  by_cases htop : (w.timer.m_rob_threads t).frontend_stalled_until = ⊤
  · rw [htop]
    exact WithTop.coe_lt_top _
  · rw [hstalled t (h.braked t) htop] at ht
    exact lt_of_le_of_lt (time_le.mpr hnow) ht

theorem executeCycle_charged [NeZero n] (cfg : SmtConfig n Reg K M) (h : Ready w) :
    Lockstep (fun s w' => w'.timer = s ∧
        ∀ t, (w'.threads t).cpi.total = (w.threads t).cpi.total + w.timer.period)
      (ofTimer (w.timer.executeCycle cfg)) (w.executeCycle cfg) := by
  rw [RobSmtTimer.executeCycle, executeCycle]
  simp only [ofTimer_bind]
  refine (doDispatch_charged cfg h).bind ?_
  rintro ⟨s₁, next_dispatch⟩ ⟨w₁, e⟩ - ⟨htimer, hresult, -, htotal⟩
  cases hresult
  subst htimer
  exact .bind_same fun issued _ => .ok ⟨rfl, htotal⟩

theorem executeCycle_ready [NeZero n] (hinv : SmtInv cfg.decoder w.timer) (h : Ready w)
    (hw' : w.executeCycle cfg = .ok w') : Ready w' := by
  obtain ⟨⟨w₁, t₁⟩, hdispatch, hw'⟩ := of_bind_ok hw'
  obtain ⟨⟨s₂, t₂⟩, hissue, hw'⟩ := of_bind_ok hw'
  obtain ⟨⟨s₁, e⟩, hplain, htimer, -, hready, -⟩ := (doDispatch_charged cfg h).of_ok hdispatch
  subst htimer
  have hinv₁ := doDispatch_ok hinv (eq_ok_of_ofTimer hplain)
  have hissue : w₁.timer.doIssue cfg = .ok (s₂, t₂) := eq_ok_of_ofTimer hissue
  have hinv₂ := doIssue_ok hinv₁ hissue
  have hcalm := fun t : Fin n =>
    (doIssue_calm (t := t) hinv₁ hissue).trans (commits_calm (List.finRange n) hinv₂)
  have hpaused : Paused w₁.timer ((List.finRange n).foldl (commit cfg) s₂) := by
    refine Paused.trans ?_ (commits_paused _)
    obtain ⟨⟨s₃, thread_num, t₃⟩, hloop, hnext⟩ := of_bind_ok hissue
    have hissued := issueThreads_paused hloop
    cases hnext
    exact ⟨hissued.now, hissued.period⟩
  have hnow := hpaused.now
  cases hw'
  have hrest : ∀ (s : RobSmtTimer n Reg K M) (t : Fin n),
      s.m_rob_threads = ((List.finRange n).foldl (commit cfg) s₂).m_rob_threads →
      Calm w₁.timer s t := fun s t hs => (hcalm t).within rfl (by rw [hs])
  refine hready.later (fun t => (hrest _ t ?_).braked) (fun t => (hrest _ t ?_).stalled) ?_
  · rfl
  · rfl
  · dsimp only [doCommit]
    omega

/-! ### Runs -/

structure Sound (cfg : SmtConfig n Reg K M) (w : SmtCpiTimer n Reg K M) : Prop where
  inv : SmtInv cfg.decoder w.timer
  ready : Ready w

omit [DecidableEq Reg] in
theorem Sound.init (h : Init cfg w) : Sound cfg w := by
  refine ⟨h.timer.inv, fun t => ⟨?_, fun hne => absurd ?_ hne⟩, fun t _ => ?_⟩
  · simp [RobTimer.unresolved, view, h.timer.threads t]
  · simp [RobTimer.unresolved, view, h.timer.threads t]
  · rw [h.stall t]
    exact Option.some_ne_none _

omit [DecidableEq Reg] in
theorem pushInstructions_front {s s' thread_id insts}
    (h : pushInstructions cfg thread_id insts s = .ok s') :
    s'.now = s.now ∧ ∀ t, (s'.m_rob_threads t).rob = (s.m_rob_threads t).rob ∧
      (s'.m_rob_threads t).frontend_stalled_until =
        (s.m_rob_threads t).frontend_stalled_until := by
  induction insts generalizing s with
  | nil =>
    cases h
    exact ⟨rfl, fun t => ⟨rfl, rfl⟩⟩
  | cons uop insts ih =>
    rw [pushInstructions] at h
    split at h
    case isTrue => exact ih h
    case isFalse =>
      dsimp only at h
      split at h
      case isTrue => cases h
      case isFalse =>
        obtain ⟨hnow, hfront⟩ := ih h
        refine ⟨hnow, fun t => ?_⟩
        obtain ⟨hrob, hstalled⟩ := hfront t
        rw [hrob, hstalled]
        by_cases ht : t = thread_id
        · subst ht
          simp [RobSmtTimer.setThread]
        · simp [RobSmtTimer.setThread, ht]

variable [NeZero n]

theorem exec_timer {call} (hcall : call ≠ .executeCycle) (h : w.exec cfg call = .ok w') :
    ∃ timer, w.timer.exec cfg call = .ok timer ∧ w' = { w with timer := timer } := by
  have hexec : w.exec cfg call =
      (ofTimer (w.timer.exec cfg call)).map fun timer => { w with timer := timer } := by
    cases call with
    | executeCycle => exact absurd rfl hcall
    | _ => rfl
  obtain ⟨timer, htimer, hw'⟩ := of_map_ok (hexec.symm.trans h)
  exact ⟨timer, eq_ok_of_ofTimer htimer, hw'.symm⟩

theorem Sound.step (h : Sound cfg w) (hstep : Step cfg w w') : Sound cfg w' := by
  obtain ⟨call, ha, hw'⟩ := hstep
  by_cases hcall : call = .executeCycle
  · subst hcall
    rw [exec] at hw'
    split at hw'
    case isTrue hcan =>
      obtain ⟨timer, hplain, htimer, -⟩ := (executeCycle_charged cfg h.ready).of_ok hw'
      refine ⟨?_, executeCycle_ready h.inv h.ready hw'⟩
      rw [htimer]
      exact executeCycle_ok h.inv (eq_ok_of_ofTimer hplain)
    case isFalse =>
      cases hw'
      exact h
  · obtain ⟨timer, htimer, rfl⟩ := exec_timer hcall hw'
    refine ⟨exec_ok h.inv ha htimer, ?_⟩
    have hcalm : (∀ t, Calm w.timer timer t) → w.timer.now ≤ timer.now →
        Ready { w with timer := timer } :=
      fun hcalm => h.ready.later (fun t => (hcalm t).braked) fun t => (hcalm t).stalled
    cases call with
    | executeCycle => exact absurd rfl hcall
    | pushInstructions thread_id insts =>
      obtain ⟨hnow, hfront⟩ := pushInstructions_front htimer
      exact h.ready.later (fun t hb => hb.view rfl (hfront t).1 (hfront t).2)
        (fun t _ _ => (hfront t).2) (Nat.le_of_eq hnow.symm)
    | returnLatency thread_id | setRunning thread_id running =>
      cases htimer
      exact hcalm (fun t => SmtFetching.setThread_calm rfl) (Nat.le_refl _)
    | synchronize thread_id time =>
      cases htimer
      exact hcalm (fun t => SmtFetching.setThread_calm rfl) (Nat.le_max_left ..)
    | notifyNumActiveThreadsChange | setPeriod period =>
      cases htimer
      exact hcalm (fun _ => .of_thread rfl) (Nat.le_refl _)

theorem sound (h : Reachable (Init cfg) (Step cfg) w) : Sound cfg w :=
  h.invariant (fun _ => Sound.init) fun _ _ hw hstep => hw.step hstep

theorem executeCycle_found (h : Reachable (Init cfg) (Step cfg) w) :
    ComponentFound (w.executeCycle cfg) := by
  have hfound := ComponentFound.ofTimer (w.timer.executeCycle cfg)
  have hcharged := executeCycle_charged cfg (sound h).ready
  exact ⟨fun hfail => hfound.cpiComponent (hcharged.of_error hfail),
    fun hfail => hfound.stall (hcharged.of_error hfail)⟩

/-- The stacks grow as the clock goes on in exactly the cycles that are not skipped over. -/
theorem executeCycle_adds_up_iff (h : Reachable (Init cfg) (Step cfg) w)
    (hw' : w.executeCycle cfg = .ok w') :
    (∀ t, (w'.threads t).cpi.total + w.timer.now = (w.threads t).cpi.total + w'.timer.now) ↔
      ¬ w.timer.Skips cfg := by
  obtain ⟨timer, hplain, htimer, htotal⟩ :=
    (executeCycle_charged cfg (sound h).ready).of_ok hw'
  have hnow := executeCycle_now_iff (eq_ok_of_ofTimer hplain)
  subst htimer
  rw [← hnow]
  constructor
  · intro hall
    have hzero := hall 0
    rw [htotal 0] at hzero
    omega
  · intro hpace t
    rw [htotal t, hpace]
    omega

end SmtCpiTimer

end Sniper.Timing.Rob
