import Mathlib.Data.List.Basic
import Sniper.Threads.ThreadManager

/-! # Start, exit, join and resumption

A thread returns from `stallThread` running, a joiner returns behind the exit of its thread and
is resumed once, and only stalled threads are resumed, in every run in which no thread is joined
before it has started and none goes on through `unblock`, which resumes it a second time.
-/
namespace Sniper.Threads
open Function

/-- What is observed is as it should be. -/
def Observed.Right : Observed → Prop
  | .resumed _ found => found = .STALLED
  | .stallReturned _ found => found = .RUNNING
  | .joinReturned _ _ found resumes => found = .IDLE ∧ ∀ n ∈ resumes, n = 1

namespace ThreadManager
variable {tm tm' : ThreadManager} {t u j : Nat} {host : Host} {which : ThreadCall}

/-- No thread is joined before it has started, and `unblock` does not resume. -/
def Orderly (tm : ThreadManager) : ThreadCall → Prop
  | .joinThread j => (tm.m_thread_state j).status ≠ .INITIALIZING
  | .unblock => False
  | _ => True

/-- The states of the orderly runs. -/
inductive Run : ThreadManager → Prop
  | new : Run new
  | createThread {tm : ThreadManager} (h : Run tm) (hlock : tm.m_thread_lock = none)
      (core_id : Option Nat) : Run (tm.createThread core_id)
  | call {tm tm' : ThreadManager} (h : Run tm) (t : Nat) (which : ThreadCall)
      (horderly : Orderly tm which) (hcall : tm.call t which = some tm') : Run tm'

/-! ### The parts of a state -/

section Fields
variable (tm) (f : JoinState → JoinState) (o : Observed)

@[simp] theorem setState_host : (tm.setState t f).host = tm.host := rfl

@[simp] theorem setState_self : (tm.setState t f).m_thread_state t = f (tm.m_thread_state t) :=
  update_self ..

theorem setState_of_ne (h : u ≠ t) :
    (tm.setState t f).m_thread_state u = tm.m_thread_state u := update_of_ne h ..

@[simp] theorem goto_state : (tm.goto t host).m_thread_state = tm.m_thread_state := rfl

@[simp] theorem goto_self : (tm.goto t host).host t = host := update_self ..

theorem goto_of_ne (h : u ≠ t) : (tm.goto t host).host u = tm.host u :=
  update_of_ne h ..

@[simp] theorem observe_host : (tm.observe o).host = tm.host := rfl

end Fields

/-! ### Where a thread may be -/

/-- The thread has started and not exited. -/
structure Alive (tm : ThreadManager) (t : Nat) : Prop where
  started : (tm.m_thread_state t).status ≠ .INITIALIZING
  here : (tm.m_thread_state t).status ≠ .IDLE

/-- The thread has exited. -/
structure Gone (tm : ThreadManager) (t : Nat) : Prop where
  created : t < tm.size
  idle : (tm.m_thread_state t).status = .IDLE

/-- A joiner goes on only when its thread has exited. -/
def Due (tm : ThreadManager) (after : After) : Prop :=
  ∀ j resumes, after = .join j resumes → resumes = 1 ∧ Gone tm j

/-- The thread is stalled for a reason. -/
structure Stalled (tm : ThreadManager) (t : Nat) (reason : StallType) : Prop where
  status : (tm.m_thread_state t).status = .STALLED
  reason : (tm.m_thread_state t).stalled_reason = reason

abbrev Runs (tm : ThreadManager) (t : Nat) : Prop := (tm.m_thread_state t).status = .RUNNING

/-- The state of a thread fits to where its host thread is. -/
inductive Fits (tm : ThreadManager) (t : Nat) : Host → Prop
  | notStarted (h : t < tm.size → (tm.m_thread_state t).status = .INITIALIZING) :
      Fits tm t .notStarted
  | running (h : Runs tm t) : Fits tm t .running
  | starting {w : Nat} {signalled : Bool} (h : Runs tm t) : Fits tm t (.starting w signalled)
  | joining {stage : Stage} {j : Nat} (hstage : stage ≠ .signalled)
      (hstalled : Stalled tm t .STALL_JOIN) (hwaiter : (tm.m_thread_state j).waiter = some t)
      (hj : Alive tm j) : Fits tm t (.stalling stage (.joinThread j 0))
  | joined {stage : Stage} {j : Nat} (hstage : stage ≠ .waiting) (h : Runs tm t)
      (hj : Gone tm j) : Fits tm t (.stalling stage (.joinThread j 1))
  | queued {stage : Stage} {reason : StallType} (hstage : stage ≠ .signalled)
      (hstalled : Stalled tm t reason) (hreason : reason ∈ serverReasons)
      (hqueued : tm.queued t = true) : Fits tm t (.stalling stage .server)
  | dequeued {stage : Stage} (hstage : stage ≠ .waiting) (h : Runs tm t)
      (hqueued : tm.queued t = false) : Fits tm t (.stalling stage .server)
  | unscheduled {stage : Stage} {after : After} (hstage : stage ≠ .signalled)
      (hstalled : Stalled tm t .STALL_UNSCHEDULED) (hcore : tm.m_core t = none)
      (hafter : Due tm after) : Fits tm t (.stalling stage (.reschedule after))
  | scheduled {stage : Stage} {after : After} (hstage : stage ≠ .waiting) (h : Runs tm t)
      (hafter : Due tm after) : Fits tm t (.stalling stage (.reschedule after))
  | rescheduling {after : After} (h : Runs tm t) (hafter : Due tm after) :
      Fits tm t (.rescheduling after)
  | starved {after : After} (hstalled : Stalled tm t .STALL_UNSCHEDULED)
      (hcore : tm.m_core t = none) (hafter : Due tm after) : Fits tm t (.rescheduling after)
  | blocked {reason : StallType} (hstalled : Stalled tm t reason)
      (hreason : reason ∉ .STALL_UNSCHEDULED :: serverReasons) : Fits tm t .blocked
  | unblocking (h : Runs tm t) : Fits tm t .unblocking
  | exited (h : (tm.m_thread_state t).status = .IDLE) : Fits tm t .exited

/-- The thread waits for another one to start, or to exit. -/
def Waits (tm : ThreadManager) (t j : Nat) : Prop :=
  tm.host t = .starting j false ∧ (tm.m_thread_state j).status = .INITIALIZING ∨
    ∃ stage, tm.host t = .stalling stage (.joinThread j 0)

structure Inv (tm : ThreadManager) : Prop where
  fits : ∀ t, Fits tm t (tm.host t)
  fresh : ∀ t, tm.size ≤ t →
    tm.host t = .notStarted ∧ (tm.m_thread_state t).status = .IDLE
  queued : ∀ t, tm.queued t = true → ∃ stage, tm.host t = .stalling stage .server
  waiter : ∀ j t, (tm.m_thread_state j).waiter = some t → Waits tm t j
  observed : ∀ o ∈ tm.observed, o.Right

/-! ### Threads that are not concerned -/

theorem Due.mono (hgone : ∀ j, Gone tm j → Gone tm' j) {after} (h : Due tm after) :
    Due tm' after := by
  intro j resumes heq
  obtain ⟨hone, hj⟩ := h j resumes heq
  exact ⟨hone, hgone j hj⟩

theorem Fits.frame (h : Fits tm u host) (hsize : u < tm'.size → u < tm.size)
    (hstate : (tm'.m_thread_state u).toThreadState = (tm.m_thread_state u).toThreadState)
    (hcore : Stalled tm u .STALL_UNSCHEDULED → tm.m_core u = none → tm'.m_core u = none)
    (hqueued : tm'.queued u = tm.queued u)
    (hjoin : ∀ j, (tm.m_thread_state j).waiter = some u → Alive tm j →
      (tm'.m_thread_state j).waiter = some u ∧ Alive tm' j)
    (hgone : ∀ j, Gone tm j → Gone tm' j) : Fits tm' u host := by
  have hstatus : (tm'.m_thread_state u).status = (tm.m_thread_state u).status :=
    congrArg ThreadState.status hstate
  have hreason : (tm'.m_thread_state u).stalled_reason = (tm.m_thread_state u).stalled_reason :=
    congrArg ThreadState.stalled_reason hstate
  have hstalled : ∀ {reason}, Stalled tm u reason → Stalled tm' u reason :=
    fun h => ⟨hstatus.trans h.status, hreason.trans h.reason⟩
  cases h with
  | notStarted h => exact .notStarted fun hlt => hstatus.trans (h (hsize hlt))
  | running h => exact .running (hstatus.trans h)
  | starting h => exact .starting (hstatus.trans h)
  | joining hstage h hwaiter hj =>
    obtain ⟨hwaiter', hj'⟩ := hjoin _ hwaiter hj
    exact .joining hstage (hstalled h) hwaiter' hj'
  | joined hstage h hj => exact .joined hstage (hstatus.trans h) (hgone _ hj)
  | queued hstage h hin hq => exact .queued hstage (hstalled h) hin (hqueued.trans hq)
  | dequeued hstage h hq => exact .dequeued hstage (hstatus.trans h) (hqueued.trans hq)
  | unscheduled hstage h hnone hafter =>
    exact .unscheduled hstage (hstalled h) (hcore h hnone) (hafter.mono hgone)
  | scheduled hstage h hafter => exact .scheduled hstage (hstatus.trans h) (hafter.mono hgone)
  | rescheduling h hafter => exact .rescheduling (hstatus.trans h) (hafter.mono hgone)
  | starved h hnone hafter => exact .starved (hstalled h) (hcore h hnone) (hafter.mono hgone)
  | blocked h hin => exact .blocked (hstalled h) hin
  | unblocking h => exact .unblocking (hstatus.trans h)
  | exited h => exact .exited (hstatus.trans h)

/-- Nothing about a thread differs. -/
structure Same (tm tm' : ThreadManager) (u : Nat) : Prop where
  size : u < tm'.size ↔ u < tm.size
  state : tm'.m_thread_state u = tm.m_thread_state u
  core : tm'.m_core u = tm.m_core u
  host : tm'.host u = tm.host u
  queued : tm'.queued u = tm.queued u

theorem Inv.of_changes (h : Inv tm) {S : Nat → Prop} (hgrow : tm.size ≤ tm'.size)
    (hsame : ∀ u, ¬ S u → Same tm tm' u)
    (hfresh : ∀ u, S u → u < tm'.size)
    (hfits : ∀ u, S u → Fits tm' u (tm'.host u))
    (hqueued : ∀ u, S u → tm'.queued u = true →
      ∃ stage, tm'.host u = .stalling stage .server)
    (hjoin : ∀ j, S j → ∀ u, ¬ S u → (tm.m_thread_state j).waiter = some u →
      Alive tm j → (tm'.m_thread_state j).waiter = some u ∧ Alive tm' j)
    (hgone : ∀ j, S j → Gone tm j → Gone tm' j)
    (hwaiter : ∀ j u, S j ∨ S u → (tm'.m_thread_state j).waiter = some u →
      Waits tm' u j)
    (hobserved : ∀ o ∈ tm'.observed, o.Right) : Inv tm' := by
  refine ⟨?_, ?_, ?_, ?_, hobserved⟩
  · intro u
    by_cases hu : S u
    · exact hfits u hu
    have hsame' := hsame u hu
    rw [hsame'.host]
    refine (h.fits u).frame hsame'.size.mp (by rw [hsame'.state])
      (fun _ hnone => hsame'.core.trans hnone) hsame'.queued ?_ ?_
    · intro j hj hlive
      by_cases hc : S j
      · exact hjoin j hc u hu hj hlive
      · have hstate := (hsame j hc).state
        exact ⟨by rw [hstate]; exact hj, by rw [hstate]; exact hlive.started,
          by rw [hstate]; exact hlive.here⟩
    · intro j hj
      by_cases hc : S j
      · exact hgone j hc hj
      · exact ⟨Nat.lt_of_lt_of_le hj.created hgrow, by rw [(hsame j hc).state]; exact hj.idle⟩
  · intro u hu
    have hc : ¬ S u := fun hc => Nat.not_lt.mpr hu (hfresh u hc)
    rw [(hsame u hc).host, (hsame u hc).state]
    exact h.fresh u (Nat.le_trans hgrow hu)
  · intro u hu
    by_cases hc : S u
    · exact hqueued u hc hu
    · rw [(hsame u hc).queued] at hu
      rw [(hsame u hc).host]
      exact h.queued u hu
  · intro j u hu
    by_cases hc : S j ∨ S u
    · exact hwaiter j u hc hu
    have hj := hsame j fun hj => hc (.inl hj)
    rw [hj.state] at hu
    unfold Waits
    rw [(hsame u fun hu => hc (.inr hu)).host, hj.state]
    exact h.waiter j u hu

/-- Only one thread differs, and not in its waiter. -/
structure Only (t : Nat) (tm tm' : ThreadManager) : Prop where
  size : tm'.size = tm.size
  state : ∀ u ≠ t, tm'.m_thread_state u = tm.m_thread_state u
  waiter : (tm'.m_thread_state t).waiter = (tm.m_thread_state t).waiter
  core : ∀ u ≠ t, tm'.m_core u = tm.m_core u
  host : ∀ u ≠ t, tm'.host u = tm.host u
  queued : ∀ u ≠ t, tm'.queued u = tm.queued u

theorem Only.waiter_eq (h : Only t tm tm') (j : Nat) :
    (tm'.m_thread_state j).waiter = (tm.m_thread_state j).waiter := by
  by_cases heq : j = t
  · rw [heq]
    exact h.waiter
  · rw [h.state j heq]

theorem Only.same (h : Only t tm tm') (hu : u ≠ t) : Same tm tm' u :=
  ⟨by rw [h.size], h.state u hu, h.core u hu, h.host u hu, h.queued u hu⟩

theorem Inv.only (h : Inv tm) (ht : t < tm.size) (honly : Only t tm tm') (hold : Alive tm t)
    (hnew : Alive tm' t) (hfits : Fits tm' t (tm'.host t))
    (hqueued : tm'.queued t = true → ∃ stage, tm'.host t = .stalling stage .server)
    (hwaits : ∀ j, (tm.m_thread_state j).waiter = some t → Waits tm' t j)
    (hobserved : ∀ o ∈ tm'.observed, o.Right) : Inv tm' := by
  refine h.of_changes (Nat.le_of_eq honly.size.symm) (fun u hu => honly.same hu) ?_ ?_ ?_ ?_ ?_ ?_
    hobserved
  · rintro u rfl
    rw [honly.size]
    exact ht
  · rintro u rfl
    exact hfits
  · rintro u rfl
    exact hqueued
  · rintro j rfl u _ hu _
    exact ⟨honly.waiter.trans hu, hnew⟩
  · rintro j rfl hj
    exact absurd hj.idle hold.here
  · intro j u hc hu
    rw [honly.waiter_eq] at hu
    by_cases heq : u = t
    · rw [heq] at hu ⊢
      exact hwaits j hu
    · rcases h.waiter j u hu with ⟨-, hinit⟩ | ⟨stage, hjoining⟩
      · have hj : j = t := hc.resolve_right heq
        exact absurd (hj ▸ hinit) hold.started
      · exact .inr ⟨stage, (honly.host u heq).trans hjoining⟩

theorem Only.trans {tm₁ tm₂} (h : Only t tm tm₁) (h' : Only t tm₁ tm₂) :
    Only t tm tm₂ :=
  ⟨h'.size.trans h.size, fun u hu => (h'.state u hu).trans (h.state u hu),
    h'.waiter.trans h.waiter, fun u hu => (h'.core u hu).trans (h.core u hu),
    fun u hu => (h'.host u hu).trans (h.host u hu),
    fun u hu => (h'.queued u hu).trans (h.queued u hu)⟩

theorem only_setState {f} (hf : ∀ s, (f s).waiter = s.waiter) :
    Only t tm (tm.setState t f) :=
  ⟨rfl, fun _ hu => setState_of_ne tm f hu, by rw [setState_self, hf], fun _ _ => rfl,
    fun _ _ => rfl, fun _ _ => rfl⟩

theorem only_goto (host : Host) : Only t tm (tm.goto t host) :=
  ⟨rfl, fun _ _ => rfl, rfl, fun _ _ => rfl, fun _ hu => goto_of_ne tm hu, fun _ _ => rfl⟩

theorem only_observe (o : Observed) : Only t tm (tm.observe o) :=
  ⟨rfl, fun _ _ => rfl, rfl, fun _ _ => rfl, fun _ _ => rfl, fun _ _ => rfl⟩

theorem only_core (core_id : Option Nat) :
    Only t tm { tm with m_core := update tm.m_core t core_id } :=
  ⟨rfl, fun _ _ => rfl, rfl, fun _ hu => update_of_ne hu .., fun _ _ => rfl,
    fun _ _ => rfl⟩

theorem only_queued (b : Bool) : Only t tm { tm with queued := update tm.queued t b } :=
  ⟨rfl, fun _ _ => rfl, rfl, fun _ _ => rfl, fun _ _ => rfl,
    fun _ hu => update_of_ne hu ..⟩

theorem only_lock (lock : Option Nat) : Only t tm { tm with m_thread_lock := lock } :=
  ⟨rfl, fun _ _ => rfl, rfl, fun _ _ => rfl, fun _ _ => rfl, fun _ _ => rfl⟩

theorem only_stallThread_async (reason : StallType) :
    Only t tm (tm.stallThread_async t reason) := only_setState fun _ => rfl

theorem only_stallThread (reason : StallType) (staller : Staller) :
    Only t tm (tm.stallThread t reason staller) :=
  ((only_stallThread_async reason).trans (only_goto _)).trans (only_lock _)

theorem only_resumeThread_async : Only t tm (tm.resumeThread_async t) :=
  ((only_observe _).trans (only_setState (f := fun s => { s with status := .RUNNING })
    fun _ => rfl)).trans (only_goto _)

theorem only_resumeThread : Only t tm (tm.resumeThread t) :=
  (only_goto _).trans only_resumeThread_async

/-! ### Resuming -/

theorem Alive.of_runs (h : Runs tm t) : Alive tm t := by
  constructor <;> rw [h] <;> decide

theorem Alive.of_stalled {reason} (h : Stalled tm t reason) : Alive tm t := by
  constructor <;> rw [h.status] <;> decide

theorem runs_resumeThread_async : Runs (tm.resumeThread_async t) t := by
  unfold resumeThread_async Runs
  simp

theorem runs_resumeThread : Runs (tm.resumeThread t) t := runs_resumeThread_async

theorem resumeThread_host : (tm.resumeThread t).host t = (tm.host t).signal.resumed := by
  unfold resumeThread resumeThread_async signal
  simp

theorem Inv.right_resumed (h : Inv tm) (hstalled : (tm.m_thread_state t).status = .STALLED) :
    ∀ o ∈ tm.observed ++ [.resumed t (tm.m_thread_state t).status], o.Right := by
  intro o ho
  rcases List.mem_append.mp ho with ho | ho
  · exact h.observed o ho
  · rw [List.mem_singleton.mp ho]
    exact hstalled

theorem Inv.waiter_ne (h : Inv tm) (hstart : ∀ w, tm.host t ≠ .starting w false)
    (hjoin : ∀ stage j, tm.host t ≠ .stalling stage (.joinThread j 0)) (j : Nat) :
    (tm.m_thread_state j).waiter ≠ some t := by
  intro hwaiter
  rcases h.waiter j t hwaiter with ⟨hstarting, -⟩ | ⟨stage, hjoining⟩
  · exact hstart j hstarting
  · exact hjoin stage j hjoining

theorem Inv.not_queued (h : Inv tm) (hhost : ∀ stage, tm.host t ≠ .stalling stage .server) :
    tm.queued t = false := by
  rw [← Bool.not_eq_true]
  intro hqueued
  obtain ⟨stage, hstage⟩ := h.queued t hqueued
  exact hhost stage hstage

theorem signal_stalling (stage : Stage) (staller : Staller) : ∃ stage' ≠ .waiting,
    (Host.stalling stage staller).signal = .stalling stage' staller := by
  cases stage with
  | advancing => exact ⟨.advancing, nofun, rfl⟩
  | waiting | signalled => exact ⟨.signalled, nofun, rfl⟩

theorem Inv.dequeue (h : Inv tm) (ht : t < tm.size) (hqueued : tm.queued t = true) :
    Inv { tm.resumeThread t with queued := update tm.queued t false } := by
  obtain ⟨stage, hhost⟩ := h.queued t hqueued
  have hfits := h.fits t
  have hnot := h.waiter_ne (t := t) (by rw [hhost]; exact nofun) (by rw [hhost]; exact nofun)
  rw [hhost] at hfits
  cases hfits with
  | dequeued _ _ hout =>
    rw [hqueued] at hout
    cases hout
  | queued hstage hstalled hreason _ =>
    obtain ⟨stage', hne, hsignal⟩ := signal_stalling stage .server
    have hhost' : (tm.resumeThread t).host t = .stalling stage' .server := by
      rw [resumeThread_host, hhost, hsignal]
      rfl
    have hself : update tm.queued t false t = false := update_self ..
    refine h.only ht (only_resumeThread.trans (only_queued false)) (.of_stalled hstalled)
      (.of_runs runs_resumeThread) ?_ ?_ (fun j hj => absurd hj (hnot j))
      (h.right_resumed hstalled.status)
    · dsimp only
      rw [hhost']
      exact .dequeued hne runs_resumeThread hself
    · intro hin
      dsimp only at hin
      rw [hself] at hin
      cases hin

theorem Fits.unscheduled_cases (h : Fits tm t host) (ht : t < tm.size)
    (hstalled : Stalled tm t .STALL_UNSCHEDULED) : ∃ after, Due tm after ∧
      (host = .rescheduling after ∨ ∃ stage, host = .stalling stage (.reschedule after)) := by
  have hstatus := hstalled.status
  have hreason := hstalled.reason
  cases h with
  | notStarted hinit => exact nomatch (hinit ht).symm.trans hstatus
  | running hruns | starting hruns | joined _ hruns | dequeued _ hruns
  | scheduled _ hruns | rescheduling hruns
  | unblocking hruns => exact nomatch hruns.symm.trans hstatus
  | joining _ hother => exact nomatch hother.reason.symm.trans hreason
  | queued _ hother hin =>
    rw [← hother.reason, hreason] at hin
    exact absurd hin (by decide)
  | unscheduled _ _ _ hdue => exact ⟨_, hdue, .inr ⟨_, rfl⟩⟩
  | starved _ _ hdue => exact ⟨_, hdue, .inl rfl⟩
  | blocked hother hout =>
    rw [← hother.reason, hreason] at hout
    exact absurd List.mem_cons_self hout
  | exited hidle => exact nomatch hidle.symm.trans hstatus

theorem Inv.moveThread (h : Inv tm) (ht : t < tm.size) (core_id : Option Nat) :
    Inv (tm.moveThread t core_id) := by
  unfold ThreadManager.moveThread
  dsimp only
  by_cases hresumes : core_id.isSome ∧ (tm.m_core t).isNone ∧
      (tm.m_thread_state t).status = .STALLED ∧
      (tm.m_thread_state t).stalled_reason = .STALL_UNSCHEDULED
  · rw [if_pos hresumes]
    obtain ⟨-, -, hstatus, hreason⟩ := hresumes
    have honly : Only t tm { tm.resumeThread t with
        m_core := update tm.m_core t core_id } :=
      only_resumeThread.trans (only_core core_id)
    have hgone : ∀ j, Gone tm j → Gone { tm.resumeThread t with
        m_core := update tm.m_core t core_id } j := by
      intro j hj
      have hne : j ≠ t := by
        intro heq
        rw [heq] at hj
        exact nomatch hj.idle.symm.trans hstatus
      refine ⟨hj.created, ?_⟩
      rw [honly.state j hne]
      exact hj.idle
    have hkeep := h.only ht honly (.of_stalled ⟨hstatus, hreason⟩) (.of_runs runs_resumeThread)
    have hright := h.right_resumed hstatus
    have hhost' : (tm.resumeThread t).host t = (tm.host t).signal.resumed := resumeThread_host
    obtain ⟨after, hdue, hhost | ⟨stage, hhost⟩⟩ :=
      (h.fits t).unscheduled_cases ht ⟨hstatus, hreason⟩
    all_goals
      have hnot := h.waiter_ne (t := t) (by rw [hhost]; exact nofun) (by rw [hhost]; exact nofun)
      have hout := h.not_queued (t := t) (by rw [hhost]; exact nofun)
      refine hkeep ?_ (fun hin => absurd (hout.symm.trans hin) nofun)
        (fun j hj => absurd hj (hnot j)) hright
    · rw [hhost', hhost]
      exact .rescheduling runs_resumeThread (hdue.mono hgone)
    · obtain ⟨stage', hne, hsignal⟩ := signal_stalling stage (.reschedule after)
      rw [hhost', hhost, hsignal]
      exact .scheduled hne runs_resumeThread (hdue.mono hgone)
  · rw [if_neg hresumes]
    refine ⟨?_, h.fresh, h.queued, h.waiter, h.observed⟩
    intro u
    refine (h.fits u).frame id rfl ?_ rfl (fun j hj hlive => ⟨hj, hlive.started, hlive.here⟩)
      fun j hj => ⟨hj.created, hj.idle⟩
    intro hstalled hnone
    dsimp only
    by_cases heq : u = t
    · rw [heq] at hstalled hnone ⊢
      rw [update_self]
      by_contra hsome
      exact hresumes ⟨Option.isSome_iff_ne_none.mpr hsome, by rw [hnone]; rfl, hstalled.status,
        hstalled.reason⟩
    · rw [update_of_ne heq]
      exact hnone

/-! ### Stalling -/

theorem stalled_stallThread (reason : StallType) (staller : Staller) :
    Stalled (tm.stallThread t reason staller) t reason := by
  unfold stallThread stallThread_async
  constructor <;> simp

theorem stallThread_host (reason : StallType) (staller : Staller) :
    (tm.stallThread t reason staller).host t = .stalling .advancing staller := goto_self _

theorem Only.gone (honly : Only t tm tm') (hold : Alive tm t) (j : Nat) (hj : Gone tm j) :
    Gone tm' j := by
  have hne : j ≠ t := fun heq => hold.here (heq ▸ hj.idle)
  exact ⟨by rw [honly.size]; exact hj.created, by rw [honly.state j hne]; exact hj.idle⟩

theorem Inv.runs (h : Inv tm) (hhost : tm.host t = .running) : Runs tm t := by
  have hfits := h.fits t
  rw [hhost] at hfits
  cases hfits with
  | running hruns => exact hruns

theorem Inv.enqueue (h : Inv tm) (ht : t < tm.size) (hhost : tm.host t = .running) {reason}
    (hreason : reason ∈ serverReasons) :
    Inv { tm.stallThread t reason .server with queued := update tm.queued t true } := by
  have hruns := h.runs hhost
  have hnot := h.waiter_ne (t := t) (by rw [hhost]; exact nofun) (by rw [hhost]; exact nofun)
  have hstalled : Stalled (tm.stallThread t reason .server) t reason :=
    stalled_stallThread reason .server
  have hhost' : (tm.stallThread t reason .server).host t = .stalling .advancing .server :=
    stallThread_host reason .server
  have hstalled' : Stalled { tm.stallThread t reason .server with
      queued := update tm.queued t true } t reason :=
    ⟨hstalled.status, hstalled.reason⟩
  refine h.only ht ((only_stallThread _ _).trans (only_queued true)) (.of_runs hruns)
    (.of_stalled hstalled') ?_ (fun _ => ⟨_, hhost'⟩) (fun j hj => absurd hj (hnot j)) h.observed
  dsimp only
  rw [hhost']
  exact .queued nofun hstalled' hreason (update_self ..)

/-- The thread is not where another one, a server or a joiner would find it. -/
structure Idles (tm : ThreadManager) (t : Nat) : Prop where
  waiter : ∀ j, (tm.m_thread_state j).waiter ≠ some t
  queued : tm.queued t = false

theorem Inv.idles (h : Inv tm) (hstart : ∀ w, tm.host t ≠ .starting w false)
    (hjoin : ∀ stage j, tm.host t ≠ .stalling stage (.joinThread j 0))
    (hserver : ∀ stage, tm.host t ≠ .stalling stage .server) : Idles tm t :=
  ⟨h.waiter_ne hstart hjoin, h.not_queued hserver⟩

theorem Inv.idles_running (h : Inv tm) (hhost : tm.host t = .running) : Idles tm t := by
  apply h.idles <;>
  · rw [hhost]
    exact nofun

theorem Inv.idle_only (h : Inv tm) (ht : t < tm.size) (honly : Only t tm tm')
    (hidles : Idles tm t) (hqueued : tm'.queued t = tm.queued t) (hold : Alive tm t)
    (hnew : Alive tm' t) (hfits : Fits tm' t (tm'.host t))
    (hobserved : ∀ o ∈ tm'.observed, o.Right) : Inv tm' :=
  h.only ht honly hold hnew hfits
    (fun hin => absurd ((hqueued.trans hidles.queued).symm.trans hin) nofun)
    (fun j hj => absurd hj (hidles.waiter j)) hobserved

theorem Inv.observed_append (h : Inv tm) {o} (ho : o.Right) :
    ∀ o' ∈ tm.observed ++ [o], o'.Right := by
  intro o' ho'
  rcases List.mem_append.mp ho' with ho' | ho'
  · exact h.observed o' ho'
  · rw [List.mem_singleton.mp ho']
    exact ho

theorem Inv.finish (h : Inv tm) (ht : t < tm.size) (hidles : Idles tm t) (hruns : Runs tm t) {after}
    (hdue : Due tm after) : Inv (tm.finish t after) := by
  cases after with
  | run =>
    refine h.idle_only ht (only_goto _) hidles rfl (.of_runs hruns) (.of_runs hruns) ?_ h.observed
    change Fits _ t ((tm.goto t .running).host t)
    rw [goto_self]
    exact .running hruns
  | join j resumes =>
    obtain ⟨hone, hj⟩ := hdue j resumes rfl
    refine h.idle_only ht ((only_observe _).trans (only_goto .running)) hidles rfl
      (.of_runs hruns) (.of_runs hruns) ?_ (h.observed_append ⟨hj.idle, ?_⟩)
    · change Fits _ t ((goto _ t .running).host t)
      rw [goto_self]
      exact .running hruns
    · intro n hn
      cases hn
      exact hone
  | runExit unblock =>
    refine h.idle_only ht (only_goto _) hidles rfl (.of_runs hruns) (.of_runs hruns) ?_ h.observed
    change Fits _ t ((goto _ t _).host t)
    rw [goto_self]
    cases unblock with
    | true => exact .unblocking hruns
    | false => exact .running hruns

theorem Inv.reschedule (h : Inv tm) (ht : t < tm.size) (hidles : Idles tm t) (halive : Alive tm t)
    (hcore : tm.m_core t ≠ none → Runs tm t) {after} (hdue : Due tm after) :
    Inv (tm.reschedule t after) := by
  unfold ThreadManager.reschedule
  cases hnone : tm.m_core t with
  | some core_id =>
    rw [hnone] at hcore
    exact h.finish ht hidles (hcore nofun) hdue
  | none =>
    have honly : Only t tm (tm.stallThread t .STALL_UNSCHEDULED (.reschedule after)) :=
      only_stallThread .STALL_UNSCHEDULED (.reschedule after)
    have hstalled : Stalled (tm.stallThread t .STALL_UNSCHEDULED (.reschedule after)) t
        .STALL_UNSCHEDULED := stalled_stallThread .STALL_UNSCHEDULED (.reschedule after)
    refine h.idle_only ht honly hidles rfl halive (.of_stalled hstalled) ?_ h.observed
    dsimp only
    rw [stallThread_host]
    exact .unscheduled nofun hstalled hnone (hdue.mono (honly.gone halive))

theorem Inv.stallReturns (h : Inv tm) (ht : t < tm.size) {stage staller}
    (hhost : tm.host t = .stalling stage staller) (hruns : Runs tm t) :
    Inv (tm.stallReturns t staller) := by
  have hfits := h.fits t
  rw [hhost] at hfits
  have hright := h.observed_append (o := .stallReturned t (tm.m_thread_state t).status) hruns
  unfold ThreadManager.stallReturns
  dsimp only
  obtain ⟨tm₁, htm₁⟩ : ∃ tm₁, { tm.observe (.stallReturned t (tm.m_thread_state t).status) with
      m_thread_lock := none } = tm₁ := ⟨_, rfl⟩
  have hinv : Inv tm₁ := by
    rw [← htm₁]
    refine ⟨?_, h.fresh, h.queued, h.waiter, hright⟩
    intro u
    exact (h.fits u).frame id rfl (fun _ hnone => hnone) rfl
      (fun j hj hlive => ⟨hj, hlive.started, hlive.here⟩) fun j hj => ⟨hj.created, hj.idle⟩
  have hhost₁ : tm₁.host t = .stalling stage staller := htm₁ ▸ hhost
  have hruns₁ : Runs tm₁ t := htm₁ ▸ hruns
  have ht₁ : t < tm₁.size := htm₁ ▸ ht
  have hfits := hinv.fits t
  rw [htm₁]
  rw [hhost₁] at hfits
  -- the thread goes on to its `reschedule`
  have hgoto : ∀ after, Idles tm₁ t → Due tm₁ after → Inv (tm₁.goto t (.rescheduling after)) := by
    intro after hidles hdue
    have honly : Only t tm₁ (tm₁.goto t (.rescheduling after)) := only_goto _
    refine hinv.idle_only ht₁ honly hidles rfl (.of_runs hruns₁) (.of_runs hruns₁) ?_ hinv.observed
    rw [goto_self]
    exact .rescheduling hruns₁ (hdue.mono (honly.gone (.of_runs hruns₁)))
  cases hfits with
  | joining _ hstalled | queued _ hstalled
  | unscheduled _ hstalled => exact nomatch hstalled.status.symm.trans hruns₁
  | joined _ _ hj =>
    refine hgoto _ (hinv.idles ?_ ?_ ?_) ?_
    · rw [hhost₁]
      exact nofun
    · rw [hhost₁]
      exact nofun
    · rw [hhost₁]
      exact nofun
    · intro j' resumes heq
      cases heq
      exact ⟨rfl, hj⟩
  | dequeued _ _ hout =>
    refine hgoto _ ⟨hinv.waiter_ne ?_ ?_, hout⟩ nofun
    all_goals
      rw [hhost₁]
      exact nofun
  | scheduled _ _ hdue =>
    refine hinv.reschedule ht₁ (hinv.idles ?_ ?_ ?_) (.of_runs hruns₁) (fun _ => hruns₁) hdue
    all_goals
      rw [hhost₁]
      exact nofun

theorem Inv.waits (h : Inv tm) (ht : t < tm.size) {staller}
    (hhost : tm.host t = .stalling .advancing staller) (hruns : ¬ Runs tm t) :
    Inv { tm.goto t (.stalling .waiting staller) with m_thread_lock := none } := by
  have hfits := h.fits t
  rw [hhost] at hfits
  have honly : Only t tm { tm.goto t (.stalling .waiting staller) with m_thread_lock := none } :=
    (only_goto _).trans (only_lock _)
  have hself : (tm.goto t (.stalling .waiting staller)).host t = .stalling .waiting staller :=
    goto_self _
  have hwaits : ∀ j, (tm.m_thread_state j).waiter = some t →
      Waits { tm.goto t (.stalling .waiting staller) with m_thread_lock := none } t j := by
    intro j hj
    rcases h.waiter j t hj with ⟨hstarting, -⟩ | ⟨stage, hjoining⟩
    · exact nomatch hstarting.symm.trans hhost
    · cases hjoining.symm.trans hhost
      exact .inr ⟨.waiting, hself⟩
  have hqueued : tm.queued t = true → ∃ stage, (tm.goto t (.stalling .waiting staller)).host t =
      .stalling stage .server := by
    intro hin
    obtain ⟨stage, hserver⟩ := h.queued t hin
    cases hserver.symm.trans hhost
    exact ⟨_, hself⟩
  have hkeep : Alive tm t → Fits { tm.goto t (.stalling .waiting staller) with
      m_thread_lock := none } t (.stalling .waiting staller) →
      Inv { tm.goto t (.stalling .waiting staller) with m_thread_lock := none } := by
    intro halive hfits
    refine h.only ht honly halive ⟨halive.started, halive.here⟩ ?_ hqueued hwaits h.observed
    dsimp only
    rw [hself]
    exact hfits
  cases hfits with
  | joining _ hstalled hwaiter hj =>
    exact hkeep (.of_stalled hstalled) (.joining nofun ⟨hstalled.status, hstalled.reason⟩ hwaiter
      ⟨hj.started, hj.here⟩)
  | joined _ hr | dequeued _ hr | scheduled _ hr => exact absurd hr hruns
  | queued _ hstalled hreason hin =>
    exact hkeep (.of_stalled hstalled) (.queued nofun ⟨hstalled.status, hstalled.reason⟩ hreason
      hin)
  | unscheduled _ hstalled hcore hdue =>
    exact hkeep (.of_stalled hstalled) (.unscheduled nofun ⟨hstalled.status, hstalled.reason⟩
      hcore (hdue.mono (honly.gone (.of_stalled hstalled))))

/-! ### System calls -/

theorem stalled_stallThread_async (reason : StallType) :
    Stalled (tm.stallThread_async t reason) t reason := by
  unfold stallThread_async
  constructor <;> simp

theorem Inv.runEnter (h : Inv tm) (ht : t < tm.size) (hidles : Idles tm t) (hruns : Runs tm t)
    {reason} (hreason : reason ∉ .STALL_UNSCHEDULED :: serverReasons) :
    Inv ((tm.stallThread_async t reason).goto t .blocked) := by
  have hasync : Stalled (tm.stallThread_async t reason) t reason := stalled_stallThread_async reason
  have hstalled : Stalled ((tm.stallThread_async t reason).goto t .blocked) t reason :=
    ⟨hasync.status, hasync.reason⟩
  refine h.idle_only ht ((only_stallThread_async reason).trans (only_goto _)) hidles rfl
    (.of_runs hruns) (.of_stalled hstalled) ?_ h.observed
  rw [goto_self]
  exact .blocked hstalled hreason

theorem Inv.runExit (h : Inv tm) (ht : t < tm.size) (hhost : tm.host t = .blocked)
    (unblock : Bool) :
    Inv ((tm.resumeThread_async t).goto t (.rescheduling (.runExit unblock))) := by
  have hidles : Idles tm t := by
    apply h.idles <;>
    · rw [hhost]
      exact nofun
  have hfits := h.fits t
  rw [hhost] at hfits
  cases hfits with
  | blocked hstalled =>
    have hruns : Runs ((tm.resumeThread_async t).goto t (.rescheduling (.runExit unblock))) t :=
      runs_resumeThread_async
    refine h.idle_only ht (only_resumeThread_async.trans (only_goto _)) hidles rfl
      (.of_stalled hstalled) (.of_runs hruns) ?_ (h.right_resumed hstalled.status)
    rw [goto_self]
    exact .rescheduling hruns nofun

/-! ### Start and exit -/

theorem Inv.createThread (h : Inv tm) (core_id : Option Nat) : Inv (tm.createThread core_id) := by
  have hfresh := h.fresh tm.size (Nat.le_refl _)
  have hstate : (tm.createThread core_id).m_thread_state tm.size =
      { tm.m_thread_state tm.size with status := .INITIALIZING, waiter := none } :=
    update_self ..
  refine h.of_changes (S := (· = tm.size)) (Nat.le_succ _) ?_ ?_ ?_ ?_ ?_ ?_ ?_ h.observed
  · intro u hu
    refine ⟨?_, update_of_ne hu .., update_of_ne hu ..,
      update_of_ne hu .., rfl⟩
    exact ⟨fun hlt => Nat.lt_of_le_of_ne (Nat.le_of_lt_succ hlt) hu, Nat.lt_succ_of_lt⟩
  · rintro u rfl
    exact Nat.lt_succ_self _
  · rintro u rfl
    rw [show (tm.createThread core_id).host tm.size = _ from update_self ..]
    exact .notStarted fun _ => by rw [hstate]
  · rintro u rfl hu
    obtain ⟨stage, hstage⟩ := h.queued _ hu
    exact nomatch hfresh.1.symm.trans hstage
  · rintro j rfl u _ _ hlive
    exact absurd hfresh.2 hlive.here
  · rintro j rfl hj
    exact absurd hj.created (Nat.lt_irrefl _)
  · intro j u hc hu
    by_cases hj : j = tm.size
    · rw [hj, hstate] at hu
      cases hu
    · have hu' : (tm.m_thread_state j).waiter = some tm.size := by
        rw [← hc.resolve_left hj, ← hu]
        exact congrArg JoinState.waiter (update_of_ne hj ..).symm
      rcases h.waiter j _ hu' with ⟨hstarting, -⟩ | ⟨stage, hjoining⟩
      · exact nomatch hfresh.1.symm.trans hstarting
      · exact nomatch hfresh.1.symm.trans hjoining

theorem Inv.unwaited (h : Inv tm) (ht : t < tm.size) (honly : Only t tm tm') (hidles : Idles tm t)
    (hw : (tm.m_thread_state t).waiter = none) (hhere : (tm.m_thread_state t).status ≠ .IDLE)
    (hqueued : tm'.queued t = tm.queued t) (hfits : Fits tm' t (tm'.host t))
    (hobserved : ∀ o ∈ tm'.observed, o.Right) : Inv tm' := by
  refine h.of_changes (S := (· = t)) (Nat.le_of_eq honly.size.symm) (fun u hu => honly.same hu)
    ?_ ?_ ?_ ?_ ?_ ?_ hobserved
  · rintro u rfl
    exact honly.size ▸ ht
  · rintro u rfl
    exact hfits
  · rintro u rfl hu
    exact absurd ((hqueued.trans hidles.queued).symm.trans hu) nofun
  · rintro j rfl u _ hu
    exact nomatch hw.symm.trans hu
  · rintro j rfl hj
    exact absurd hj.idle hhere
  · intro j u hc hu
    rw [honly.waiter_eq] at hu
    rcases hc with rfl | rfl
    · exact nomatch hw.symm.trans hu
    · exact absurd hu (hidles.waiter j)

theorem Waits.unique {i} (h : Waits tm t i) (h' : Waits tm t j) : i = j := by
  rcases h with ⟨hi, -⟩ | ⟨stage, hi⟩
  · rcases h' with ⟨hj, -⟩ | ⟨stage, hj⟩
    · cases hi.symm.trans hj
      rfl
    · exact nomatch hi.symm.trans hj
  · rcases h' with ⟨hj, -⟩ | ⟨stage, hj⟩
    · exact nomatch hi.symm.trans hj
    · cases hi.symm.trans hj
      rfl

theorem Inv.wakes (h : Inv tm) (ht : t < tm.size) (hidles : Idles tm t) {w}
    (hw : (tm.m_thread_state t).waiter = some w) (hhere : (tm.m_thread_state t).status ≠ .IDLE)
    (hsame : ∀ u, u ≠ t → u ≠ w → tm'.m_thread_state u = tm.m_thread_state u ∧
      tm'.m_core u = tm.m_core u ∧ tm'.host u = tm.host u)
    (hnone : (tm'.m_thread_state t).waiter = none)
    (hwaiter : (tm'.m_thread_state w).waiter = (tm.m_thread_state w).waiter)
    (hfits : Fits tm' t (tm'.host t)) (hfits' : Fits tm' w (tm'.host w))
    (hlive : Alive tm w) (hlive' : Alive tm' w) (hsize : tm'.size = tm.size)
    (hqueued : tm'.queued = tm.queued) (hobserved : ∀ o ∈ tm'.observed, o.Right) : Inv tm' := by
  have hwaits := h.waiter t w hw
  refine h.of_changes (S := fun u => u = t ∨ u = w) (Nat.le_of_eq hsize.symm) ?_ ?_ ?_ ?_ ?_ ?_
    ?_ hobserved
  · intro u hu
    obtain ⟨hut, huw⟩ := not_or.mp hu
    obtain ⟨hstate, hcore, hhost⟩ := hsame u hut huw
    exact ⟨by rw [hsize], hstate, hcore, hhost, by rw [hqueued]⟩
  · rintro u (rfl | rfl) <;> rw [hsize]
    · exact ht
    · by_contra hle
      exact hlive.here (h.fresh u (Nat.le_of_not_lt hle)).2
  · rintro u (rfl | rfl)
    · exact hfits
    · exact hfits'
  · rintro u (rfl | rfl) hu <;> rw [hqueued] at hu
    · exact absurd (hidles.queued.symm.trans hu) nofun
    · obtain ⟨stage, hserver⟩ := h.queued u hu
      rcases hwaits with ⟨hstarting, -⟩ | ⟨stage', hjoining⟩
      · exact nomatch hstarting.symm.trans hserver
      · exact nomatch hjoining.symm.trans hserver
  · rintro j (rfl | rfl) u hu hju _
    · exact absurd (.inr (Option.some.inj (hju.symm.trans hw))) hu
    · exact ⟨hwaiter.trans hju, hlive'⟩
  · rintro j (rfl | rfl) hj
    · exact absurd hj.idle hhere
    · exact absurd hj.idle hlive.here
  · intro j u hc hu
    by_cases hjt : j = t
    · rw [hjt, hnone] at hu
      cases hu
    have hold : (tm.m_thread_state j).waiter = some u := by
      by_cases hjw : j = w
      · rw [← hu, hjw, hwaiter]
      · rw [← hu, (hsame j hjt hjw).1]
    by_cases hut : u = t
    · exact absurd hold (hut ▸ hidles.waiter j)
    by_cases huw : u = w
    · exact absurd (hwaits.unique (huw ▸ h.waiter j u hold)) (Ne.symm hjt)
    have hjw : j = w := (hc.resolve_right fun hc => hc.elim hut huw).resolve_left hjt
    rcases h.waiter j u hold with ⟨-, hinit⟩ | ⟨stage, hjoining⟩
    · exact absurd (hjw ▸ hinit) hlive.started
    · exact .inr ⟨stage, (hsame u hut huw).2.2.trans hjoining⟩

theorem Inv.onThreadStart (h : Inv tm) (ht : t < tm.size) (hhost : tm.host t = .notStarted) :
    Inv (tm.onThreadStart t) := by
  have hinit : (tm.m_thread_state t).status = .INITIALIZING := by
    have hfits := h.fits t
    rw [hhost] at hfits
    cases hfits with
    | notStarted hinit => exact hinit ht
  have hidles : Idles tm t := by
    apply h.idles <;>
    · rw [hhost]
      exact nofun
  unfold ThreadManager.onThreadStart
  dsimp only
  generalize hf : (fun s : JoinState => if (tm.m_core t).isSome = true then
    { s with status := .RUNNING }
      else { s with status := .STALLED, stalled_reason := .STALL_UNSCHEDULED }) = f
  have hwaiter : ∀ s, (f s).waiter = s.waiter := by
    intro s
    rw [← hf]
    dsimp only
    split <;> rfl
  have hstarted : ∀ tm' : ThreadManager, (tm'.m_thread_state t).toThreadState =
      (f (tm.m_thread_state t)).toThreadState → tm'.m_core t = tm.m_core t →
      Alive tm' t ∧ Fits tm' t (.rescheduling .run) := by
    intro tm' hstate hcore
    have hstatus := congrArg ThreadState.status hstate
    have hreason := congrArg ThreadState.stalled_reason hstate
    rw [← hf] at hstatus hreason
    dsimp only at hstatus hreason
    cases hnone : tm.m_core t with
    | some core_id =>
      rw [hnone, if_pos Option.isSome_some] at hstatus
      exact ⟨.of_runs hstatus, .rescheduling hstatus nofun⟩
    | none =>
      rw [hnone, if_neg (by simp)] at hstatus hreason
      exact ⟨.of_stalled ⟨hstatus, hreason⟩, .starved ⟨hstatus, hreason⟩ (hcore.trans hnone) nofun⟩
  have hgo : ((tm.setState t f).goto t (.rescheduling .run)).m_thread_state t =
      f (tm.m_thread_state t) := setState_self ..
  rw [hgo, hwaiter]
  cases hw : (tm.m_thread_state t).waiter with
  | none =>
    dsimp only
    obtain ⟨halive, hfits⟩ := hstarted ((tm.setState t f).goto t (.rescheduling .run))
      (congrArg JoinState.toThreadState hgo) rfl
    have honly : Only t tm ((tm.setState t f).goto t (.rescheduling .run)) :=
      (only_setState hwaiter).trans (only_goto _)
    refine h.unwaited ht honly hidles hw (by rw [hinit]; exact nofun) rfl ?_ h.observed
    rw [goto_self]
    exact hfits
  | some w =>
    dsimp only
    have hstarting : tm.host w = .starting t false := by
      rcases h.waiter t w hw with ⟨hstarting, -⟩ | ⟨stage, hjoining⟩
      · exact hstarting
      · have hfits := h.fits w
        rw [hjoining] at hfits
        cases hfits with
        | joining _ _ _ hlive => exact absurd hinit hlive.started
    have hne : w ≠ t := by
      rintro rfl
      exact nomatch hhost.symm.trans hstarting
    have hwruns : Runs tm w := by
      have hfits := h.fits w
      rw [hstarting] at hfits
      cases hfits with
      | starting hruns => exact hruns
    obtain ⟨tm', htm'⟩ : ∃ tm', (((tm.setState t f).goto t (.rescheduling .run)).signal w).setState
        t (fun s => { s with waiter := none }) = tm' := ⟨_, rfl⟩
    have hstate : tm'.m_thread_state t = { f (tm.m_thread_state t) with waiter := none } := by
      rw [← htm', setState_self]
      exact congrArg (fun s : JoinState => { s with waiter := none }) (setState_self ..)
    have hothers : ∀ u ≠ t, tm'.m_thread_state u = tm.m_thread_state u := by
      intro u hu
      rw [← htm', setState_of_ne _ _ hu]
      exact setState_of_ne _ _ hu
    have hhostT : tm'.host t = .rescheduling .run := by
      rw [← htm', setState_host]
      exact (goto_of_ne _ hne.symm).trans (goto_self _)
    have hhostW : tm'.host w = .starting t true := by
      rw [← htm', setState_host]
      refine (goto_self _).trans ?_
      rw [goto_of_ne _ hne]
      exact congrArg Host.signal hstarting
    have hhosts : ∀ u, u ≠ t → u ≠ w → tm'.host u = tm.host u := by
      intro u hu hu'
      rw [← htm', setState_host]
      exact (goto_of_ne _ hu').trans (goto_of_ne _ hu)
    obtain ⟨hsize, hcore, hqueued, hobserved⟩ : tm'.size = tm.size ∧ tm'.m_core = tm.m_core ∧
        tm'.queued = tm.queued ∧ tm'.observed = tm.observed := by
      rw [← htm']
      exact ⟨rfl, rfl, rfl, rfl⟩
    rw [htm']
    obtain ⟨halive, hfits⟩ := hstarted tm' (by rw [hstate]) (by rw [hcore])
    have hwruns' : Runs tm' w := by
      unfold Runs
      rw [hothers w hne]
      exact hwruns
    refine h.wakes ht hidles hw (by rw [hinit]; exact nofun)
      (fun u hut huw => ⟨hothers u hut, by rw [hcore], hhosts u hut huw⟩) (by rw [hstate])
      (by rw [hothers w hne]) ?_ ?_ (.of_runs hwruns) (.of_runs hwruns') hsize hqueued
      (hobserved ▸ h.observed)
    · rw [hhostT]
      exact hfits
    · rw [hhostW]
      exact .starting hwruns'

theorem Inv.onThreadExit (h : Inv tm) (ht : t < tm.size) (hhost : tm.host t = .running)
    (hexit : tm.onThreadExit t = some tm') : Inv tm' := by
  have hidles := h.idles_running hhost
  have hruns := h.runs hhost
  unfold ThreadManager.onThreadExit at hexit
  split at hexit
  · cases hexit
  dsimp only at hexit
  have htm' := Option.some.inj hexit
  unfold wakeUpWaiter at htm'
  have hgo : ((tm.setState t fun s => { s with status := .IDLE }).goto t
      .exited).m_thread_state t = { tm.m_thread_state t with status := .IDLE } :=
    update_self ..
  rw [hgo] at htm'
  dsimp only at htm'
  cases hw : (tm.m_thread_state t).waiter with
  | none =>
    rw [hw] at htm'
    dsimp only at htm'
    have honly : Only t tm tm' := by
      rw [← htm']
      exact ((only_setState (f := fun s => { s with status := .IDLE }) fun _ => rfl).trans
        (only_goto .exited)).trans (only_core none)
    have hidle : (tm'.m_thread_state t).status = .IDLE := by
      rw [← htm']
      exact congrArg (fun s : JoinState => s.status) hgo
    have hexited : tm'.host t = .exited := by
      rw [← htm']
      exact goto_self _
    refine h.unwaited ht honly hidles hw (by rw [hruns]; exact nofun)
      (by rw [← htm']; rfl) ?_ (htm' ▸ h.observed)
    rw [hexited]
    exact .exited hidle
  | some w =>
    rw [hw] at htm'
    dsimp only at htm'
    obtain ⟨stage, hjoining⟩ : ∃ stage, tm.host w = .stalling stage (.joinThread t 0) := by
      rcases h.waiter t w hw with ⟨-, hinit⟩ | hjoining
      · exact nomatch hruns.symm.trans hinit
      · exact hjoining
    have hne : w ≠ t := by
      rintro rfl
      exact nomatch hhost.symm.trans hjoining
    have hstalled : Stalled tm w .STALL_JOIN := by
      have hfits := h.fits w
      rw [hjoining] at hfits
      cases hfits with
      | joining _ hstalled => exact hstalled
    obtain ⟨stage', hstage, hsignal⟩ := signal_stalling stage (.joinThread t 0)
    obtain ⟨tm₁, htm₁⟩ : ∃ tm₁, (tm.setState t fun s => { s with status := .IDLE }).goto t
        .exited = tm₁ := ⟨_, rfl⟩
    rw [htm₁] at hgo htm'
    have hothers₁ : ∀ u ≠ t, tm₁.m_thread_state u = tm.m_thread_state u := by
      intro u hu
      rw [← htm₁]
      exact update_of_ne hu ..
    have hhosts₁ : ∀ u ≠ t, tm₁.host u = tm.host u := by
      intro u hu
      rw [← htm₁]
      exact goto_of_ne _ hu
    have hresumed : Only w tm₁ (tm₁.resumeThread w) := only_resumeThread
    have hstate : tm'.m_thread_state t =
        { tm.m_thread_state t with status := .IDLE, waiter := none } := by
      rw [← htm']
      dsimp only
      rw [setState_self, hresumed.state t hne.symm, hgo]
    have hothers : ∀ u, u ≠ t → u ≠ w → tm'.m_thread_state u = tm.m_thread_state u := by
      intro u hu hu'
      rw [← htm']
      dsimp only
      rw [setState_of_ne _ _ hu, hresumed.state u hu', hothers₁ u hu]
    have hwaiter : (tm'.m_thread_state w).waiter = (tm.m_thread_state w).waiter := by
      rw [← htm']
      dsimp only
      rw [setState_of_ne _ _ hne, hresumed.waiter_eq, hothers₁ w hne]
    have hwruns : Runs tm' w := by
      unfold Runs
      rw [← htm']
      dsimp only
      rw [setState_of_ne _ _ hne]
      exact runs_resumeThread
    have hhostT : tm'.host t = .exited := by
      rw [← htm']
      refine (hresumed.host t hne.symm).trans ?_
      rw [← htm₁]
      exact goto_self _
    have hhostW : tm'.host w = .stalling stage' (.joinThread t 1) := by
      rw [← htm']
      refine resumeThread_host.trans ?_
      rw [hhosts₁ w hne, hjoining, hsignal]
      rfl
    have hhosts : ∀ u, u ≠ t → u ≠ w → tm'.host u = tm.host u := by
      intro u hu hu'
      rw [← htm']
      exact (hresumed.host u hu').trans (hhosts₁ u hu)
    have hcore : ∀ u ≠ t, tm'.m_core u = tm.m_core u := by
      intro u hu
      rw [← htm']
      refine (update_of_ne hu ..).trans ?_
      rw [← htm₁]
      rfl
    obtain ⟨hsize, hqueued⟩ : tm'.size = tm.size ∧ tm'.queued = tm.queued := by
      rw [← htm', ← htm₁]
      exact ⟨rfl, rfl⟩
    have hobserved : ∀ o ∈ tm'.observed, o.Right := by
      have hlist : tm'.observed = tm.observed ++ [.resumed w (tm.m_thread_state w).status] := by
        rw [← hothers₁ w hne, ← htm', ← htm₁]
        rfl
      rw [hlist]
      exact h.right_resumed hstalled.status
    refine h.wakes ht hidles hw (by rw [hruns]; exact nofun)
      (fun u hut huw => ⟨hothers u hut huw, hcore u hut, hhosts u hut huw⟩) (by rw [hstate])
      hwaiter ?_ ?_ (.of_stalled hstalled) (.of_runs hwruns) hsize hqueued hobserved
    · rw [hhostT]
      exact .exited (by rw [hstate])
    · rw [hhostW]
      exact .joined hstage hwruns ⟨hsize ▸ ht, by rw [hstate]⟩

/-! ### Joining and waiting for a start -/

theorem Inv.becomes_waiter (h : Inv tm) (ht : t < tm.size) (hj : j < tm.size) (hne : j ≠ t)
    (hidles : Idles tm t) (hruns : Runs tm t) (hnone : (tm.m_thread_state j).waiter = none)
    (hstate : tm'.m_thread_state j = { tm.m_thread_state j with waiter := some t })
    (hothers : ∀ u, u ≠ t → u ≠ j → tm'.m_thread_state u = tm.m_thread_state u)
    (hwaiter : (tm'.m_thread_state t).waiter = (tm.m_thread_state t).waiter)
    (halive : Alive tm' t) (hhosts : ∀ u ≠ t, tm'.host u = tm.host u)
    (hfits : Fits tm' t (tm'.host t)) (hwaits : Waits tm' t j)
    (hrest : tm'.size = tm.size ∧ tm'.m_core = tm.m_core ∧ tm'.queued = tm.queued ∧
      tm'.observed = tm.observed) : Inv tm' := by
  obtain ⟨hsize, hcore, hqueued, hobserved⟩ := hrest
  have hstatus : (tm'.m_thread_state j).status = (tm.m_thread_state j).status := by rw [hstate]
  have hwaiters : ∀ i ≠ j, (tm'.m_thread_state i).waiter = (tm.m_thread_state i).waiter := by
    intro i hi
    by_cases hit : i = t
    · rw [hit]
      exact hwaiter
    · rw [hothers i hit hi]
  refine h.of_changes (S := fun u => u = t ∨ u = j) (Nat.le_of_eq hsize.symm) ?_ ?_ ?_ ?_ ?_ ?_
    ?_ (hobserved ▸ h.observed)
  · intro u hu
    obtain ⟨hut, huj⟩ := not_or.mp hu
    exact ⟨by rw [hsize], hothers u hut huj, by rw [hcore], hhosts u hut, by rw [hqueued]⟩
  · rintro u (rfl | rfl)
    · exact hsize ▸ ht
    · exact hsize ▸ hj
  · rintro u (rfl | rfl)
    · exact hfits
    · rw [hhosts u hne]
      refine (h.fits u).frame (fun hlt => hsize ▸ hlt) (by rw [hstate])
        (fun _ hcore' => by rw [hcore]; exact hcore') (by rw [hqueued]) ?_ ?_
      · intro i hi hlive
        have hij : i ≠ u := by
          rintro rfl
          exact nomatch hnone.symm.trans hi
        refine ⟨(hwaiters i hij).trans hi, ?_⟩
        by_cases hit : i = t
        · exact hit ▸ halive
        · exact ⟨by rw [hothers i hit hij]; exact hlive.started,
            by rw [hothers i hit hij]; exact hlive.here⟩
      · intro i hi
        have hit : i ≠ t := by
          rintro rfl
          exact nomatch hruns.symm.trans hi.idle
        refine ⟨hsize ▸ hi.created, ?_⟩
        by_cases hij : i = u
        · rw [hij, hstatus]
          exact hij ▸ hi.idle
        · rw [hothers i hit hij]
          exact hi.idle
  · rintro u (rfl | rfl) hu
    · rw [hqueued] at hu
      exact absurd (hidles.queued.symm.trans hu) nofun
    · rw [hqueued] at hu
      rw [hhosts u hne]
      exact h.queued u hu
  · rintro i (rfl | rfl) u hu hiu hlive
    · exact ⟨hwaiter.trans hiu, halive⟩
    · exact nomatch hnone.symm.trans hiu
  · rintro i (rfl | rfl) hi
    · exact nomatch hruns.symm.trans hi.idle
    · exact ⟨hsize ▸ hi.created, hstatus.trans hi.idle⟩
  · intro i u _ hu
    by_cases hij : i = j
    · rw [hij, hstate] at hu
      cases hu
      rw [hij]
      exact hwaits
    rw [hwaiters i hij] at hu
    have hut : u ≠ t := by
      rintro rfl
      exact hidles.waiter i hu
    rcases h.waiter i u hu with ⟨hstart, hinit⟩ | ⟨stage, hjoining⟩
    · have hit : i ≠ t := by
        rintro rfl
        exact nomatch hruns.symm.trans hinit
      refine .inl ⟨(hhosts u hut).trans hstart, ?_⟩
      rw [hothers i hit hij]
      exact hinit
    · exact .inr ⟨stage, (hhosts u hut).trans hjoining⟩

theorem Inv.joinThread (h : Inv tm) (ht : t < tm.size) (hhost : tm.host t = .running)
    (hj : j < tm.size) (hne : j ≠ t)
    (hstarted : (tm.m_thread_state j).status ≠ .INITIALIZING)
    (hjoin : tm.joinThread t j = some tm') : Inv tm' := by
  have hidles := h.idles_running hhost
  have hruns := h.runs hhost
  unfold ThreadManager.joinThread at hjoin
  dsimp only at hjoin
  split at hjoin
  · next hidle =>
    cases hjoin
    refine h.idle_only ht (only_observe _) hidles rfl (.of_runs hruns) (.of_runs hruns) ?_
      (h.observed_append ⟨hidle, nofun⟩)
    rw [observe_host, hhost]
    exact .running hruns
  · next hhere =>
    split at hjoin
    · cases hjoin
    · next hnone =>
      have hnone : (tm.m_thread_state j).waiter = none := by simpa using hnone
      have htm' := Option.some.inj hjoin
      obtain ⟨tm₁, htm₁⟩ : ∃ tm₁, tm.setState j (fun s => { s with waiter := some t }) = tm₁ :=
        ⟨_, rfl⟩
      rw [htm₁] at htm'
      have honly : Only t tm₁ tm' := by
        rw [← htm']
        exact only_stallThread _ _
      have hothers₁ : ∀ u ≠ j, tm₁.m_thread_state u = tm.m_thread_state u := by
        intro u hu
        rw [← htm₁]
        exact setState_of_ne _ _ hu
      have hstate : tm'.m_thread_state j = { tm.m_thread_state j with waiter := some t } := by
        rw [honly.state j hne, ← htm₁, setState_self]
      have hstalled : Stalled tm' t .STALL_JOIN := by
        rw [← htm']
        exact stalled_stallThread _ _
      have hself : tm'.host t = .stalling .advancing (.joinThread j 0) := by
        rw [← htm']
        exact stallThread_host _ _
      refine h.becomes_waiter ht hj hne hidles hruns hnone hstate ?_ ?_ (.of_stalled hstalled) ?_
        ?_ (.inr ⟨_, hself⟩) ?_
      · intro u hut huj
        rw [honly.state u hut, hothers₁ u huj]
      · rw [honly.waiter, hothers₁ t hne.symm]
      · intro u hut
        rw [honly.host u hut, ← htm₁]
        rfl
      · rw [hself]
        exact .joining nofun hstalled (by rw [hstate])
          ⟨by rw [hstate]; exact hstarted, by rw [hstate]; exact hhere⟩
      · rw [← htm', ← htm₁]
        exact ⟨rfl, rfl, rfl, rfl⟩

theorem Inv.waitForThreadStart (h : Inv tm) (ht : t < tm.size) (hhost : tm.host t = .running)
    (hj : j < tm.size) (hwait : tm.waitForThreadStart t j = some tm') : Inv tm' := by
  have hidles := h.idles_running hhost
  have hruns := h.runs hhost
  unfold ThreadManager.waitForThreadStart at hwait
  dsimp only at hwait
  split at hwait
  · next hinit =>
    split at hwait
    · cases hwait
    · next hnone =>
      have hnone : (tm.m_thread_state j).waiter = none := by simpa using hnone
      have hne : j ≠ t := by
        rintro rfl
        exact nomatch hruns.symm.trans hinit
      have htm' := Option.some.inj hwait
      have hstate : tm'.m_thread_state j = { tm.m_thread_state j with waiter := some t } := by
        rw [← htm']
        exact update_self ..
      have hothers : ∀ u ≠ j, tm'.m_thread_state u = tm.m_thread_state u := by
        intro u hu
        rw [← htm']
        exact update_of_ne hu ..
      have hself : tm'.host t = .starting j false := by
        rw [← htm']
        exact goto_self _
      have hruns' : Runs tm' t := by
        unfold Runs
        rw [hothers t hne.symm]
        exact hruns
      refine h.becomes_waiter ht hj hne hidles hruns hnone hstate (fun u _ hu => hothers u hu) ?_
        (.of_runs hruns') ?_ ?_ (.inl ⟨hself, by rw [hstate]; exact hinit⟩) ?_
      · rw [hothers t hne.symm]
      · intro u hu
        rw [← htm']
        exact goto_of_ne _ hu
      · rw [hself]
        exact .starting hruns'
      · rw [← htm']
        exact ⟨rfl, rfl, rfl, rfl⟩
  · cases hwait
    exact h

/-! ### Runs -/

theorem inv_new : Inv new :=
  ⟨fun _ => .notStarted fun h => absurd h (Nat.not_lt_zero _), fun _ _ => ⟨rfl, rfl⟩, nofun, nofun,
    nofun⟩

theorem Inv.hostCall (h : Inv tm) (ht : t < tm.size) (horderly : Orderly tm which)
    (hcall : tm.hostCall t which (tm.host t) = some tm') : Inv tm' := by
  have hfits := h.fits t
  have hidles : (∀ w, tm.host t ≠ .starting w false) →
      (∀ stage j, tm.host t ≠ .stalling stage (.joinThread j 0)) →
      (∀ stage, tm.host t ≠ .stalling stage .server) → Idles tm t := h.idles
  cases hhost : tm.host t with
  | notStarted =>
    rw [hhost] at hcall
    cases which with
    | onThreadStart =>
      cases hcall
      exact h.onThreadStart ht hhost
    | _ => cases hcall
  | running =>
    rw [hhost] at hcall hfits hidles
    have hidles := hidles nofun nofun nofun
    cases hfits with
    | running hruns =>
      cases which with
      | onThreadExit => exact h.onThreadExit ht hhost hcall
      | joinThread j =>
        unfold ThreadManager.hostCall at hcall
        dsimp only at hcall
        split at hcall
        · next hj => exact h.joinThread ht hhost hj.1 hj.2 horderly hcall
        · cases hcall
      | waitForThreadStart w =>
        unfold ThreadManager.hostCall at hcall
        dsimp only at hcall
        split at hcall
        · next hw => exact h.waitForThreadStart ht hhost hw hcall
        · cases hcall
      | stallThread reason =>
        unfold ThreadManager.hostCall at hcall
        dsimp only at hcall
        split at hcall
        · next hreason =>
          cases hcall
          exact h.enqueue ht hhost hreason
        · cases hcall
      | runEnter pause =>
        cases hcall
        refine h.runEnter ht hidles hruns ?_
        cases pause <;> decide
      | reschedule =>
        cases hcall
        refine h.idle_only ht (only_goto _) hidles rfl (.of_runs hruns) (.of_runs hruns) ?_
          h.observed
        rw [goto_self]
        exact .rescheduling hruns nofun
      | _ => cases hcall
  | starting w signalled =>
    rw [hhost] at hcall hfits hidles
    cases hfits with
    | starting hruns =>
      cases which with
      | wake =>
        cases signalled with
        | true =>
          cases hcall
          refine h.idle_only ht (only_goto _) (hidles nofun nofun nofun) rfl (.of_runs hruns)
            (.of_runs hruns) ?_ h.observed
          rw [goto_self]
          exact .running hruns
        | false => cases hcall
      | _ => cases signalled <;> cases hcall
  | stalling stage staller =>
    rw [hhost] at hcall hfits
    cases which with
    | wake =>
      cases stage with
      | signalled =>
        cases hcall
        have hruns : Runs tm t := by
          cases hfits with
          | joining hstage | queued hstage | unscheduled hstage => exact absurd rfl hstage
          | joined _ hruns | dequeued _ hruns | scheduled _ hruns => exact hruns
        exact h.stallReturns ht hhost hruns
      | _ => cases hcall
    | _ => cases stage <;> cases hcall
  | rescheduling after =>
    rw [hhost] at hcall hfits hidles
    have hidles := hidles nofun nofun nofun
    cases which with
    | reschedule =>
      cases hcall
      cases hfits with
      | rescheduling hruns hdue =>
        exact h.reschedule ht hidles (.of_runs hruns) (fun _ => hruns) hdue
      | starved hstalled hcore hdue =>
        exact h.reschedule ht hidles (.of_stalled hstalled) (fun hsome => absurd hcore hsome) hdue
    | _ => cases hcall
  | blocked =>
    rw [hhost] at hcall
    cases which with
    | runExit unblock =>
      cases hcall
      exact h.runExit ht hhost unblock
    | _ => cases hcall
  | unblocking =>
    rw [hhost] at hcall
    cases which with
    | unblock => exact horderly.elim
    | _ => cases hcall
  | exited =>
    rw [hhost] at hcall
    cases which <;> cases hcall

theorem Inv.call (h : Inv tm) (horderly : Orderly tm which)
    (hcall : tm.call t which = some tm') : Inv tm' := by
  unfold ThreadManager.call at hcall
  split at hcall
  · cases hcall
  · next hle =>
    have ht : t < tm.size := Nat.lt_of_not_le hle
    split at hcall
    · split at hcall
      · next hqueued =>
        cases hcall
        exact h.dequeue ht hqueued
      · cases hcall
    · cases hcall
      exact h.moveThread ht _
    · next hhost =>
      split at hcall
      · split at hcall
        · next hruns =>
          cases hcall
          exact h.stallReturns ht hhost hruns
        · next hruns =>
          cases hcall
          exact h.waits ht hhost hruns
      · cases hcall
    · split at hcall
      · cases hcall
      · exact h.hostCall ht horderly hcall

theorem Run.inv (h : Run tm) : Inv tm := by
  induction h with
  | new => exact inv_new
  | createThread _ _ core_id ih => exact ih.createThread core_id
  | call _ t which horderly hcall ih => exact ih.call horderly hcall

/-- In an orderly run every thread that is resumed was stalled, `stallThread` returns to a running
thread, and `joinThread` returns when the thread has exited, to a joiner that was resumed once. -/
theorem run_right (h : Run tm) : ∀ o ∈ tm.observed, o.Right :=
  h.inv.observed

/-- Two threads that have just been created. -/
def sample : ThreadManager := (new.createThread (some 0)).createThread (some 1)

theorem run_right_sample : ∃ tm, sample.calls [(0, .onThreadStart), (1, .onThreadStart),
      (0, .reschedule), (1, .reschedule), (0, .joinThread 1), (0, .advanced), (1, .onThreadExit),
      (0, .wake), (0, .reschedule)] = some tm ∧
    tm.observed = [.resumed 0 .STALLED, .stallReturned 0 .RUNNING,
      .joinReturned 0 1 .IDLE (some 1)] ∧ ∀ o ∈ tm.observed, o.Right := by
  have hcreated : Run sample := (Run.new.createThread rfl (some 0)).createThread rfl (some 1)
  have hfirst : Run _ := hcreated.call 0 .onThreadStart trivial rfl
  have hsecond : Run _ := hfirst.call 1 .onThreadStart trivial rfl
  have hrunning : Run _ :=
    (hsecond.call 0 .reschedule trivial rfl).call 1 .reschedule trivial rfl
  have hjoining : Run _ := hrunning.call 0 (.joinThread 1) nofun rfl
  have hwaiting : Run _ := hjoining.call 0 .advanced trivial rfl
  have hexited : Run _ := hwaiting.call 1 .onThreadExit trivial rfl
  have hreturned : Run _ := (hexited.call 0 .wake trivial rfl).call 0 .reschedule trivial rfl
  exact ⟨_, rfl, rfl, run_right hreturned⟩

/-- **Nobody waits for what is over.** A thread in `joinThread` is the one waiter of a thread that
is still there, and nobody else's; one that the server has stalled is in a queue of the server. -/
theorem stalled_will_be_woken (h : Run tm) (t : Nat) :
    (∀ stage j, tm.host t = .stalling stage (.joinThread j 0) →
      (tm.m_thread_state j).waiter = some t ∧ Alive tm j ∧
        ∀ i, (tm.m_thread_state i).waiter = some t → i = j) ∧
    ∀ stage, tm.host t = .stalling stage .server → ¬ Runs tm t → tm.queued t = true := by
  have hinv := h.inv
  have hfits := hinv.fits t
  refine ⟨fun stage j hhost => ?_, fun stage hhost hstalled => ?_⟩
  · rw [hhost] at hfits
    cases hfits with
    | joining hstage hstalled hwaiter hj =>
      exact ⟨hwaiter, hj, fun i hi => (hinv.waiter i t hi).unique (hinv.waiter j t hwaiter)⟩
  · rw [hhost] at hfits
    cases hfits with
    | queued hstage hstalled hreason hqueued => exact hqueued
    | dequeued hstage hruns hqueued => exact absurd hruns hstalled

/-- A joiner that is there before its thread has started is woken by the start, still stalled,
and returns. A thread behind a blocking system call is resumed twice, the second time while it
runs. -/
theorem join_and_unblock :
    (sample.calls [(0, .onThreadStart), (0, .reschedule), (0, .joinThread 1), (0, .advanced),
      (1, .onThreadStart), (0, .wake), (0, .reschedule)]).map (·.observed) =
      some [.stallReturned 0 .STALLED, .joinReturned 0 1 .RUNNING (some 0)] ∧
    (sample.calls [(0, .onThreadStart), (0, .reschedule), (0, .runEnter false),
      (0, .runExit true), (0, .reschedule), (0, .unblock)]).map (·.observed) =
      some [.resumed 0 .STALLED, .resumed 0 .RUNNING] := by
  decide

end ThreadManager
end Sniper.Threads
