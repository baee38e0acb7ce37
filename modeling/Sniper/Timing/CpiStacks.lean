import Sniper.Timing.IntervalCpi
import Sniper.Timing.SmtCpi
import Sniper.Timing.WindowForm

/-! # CPI stacks add up

The components of all three timers add up to the time that passes, but for a single thread on
`RobSmtTimer`: it skips cycles, and a cycle that is skipped to is charged as one period.
-/
namespace Sniper.Timing.Rob
open Lib.Simulation Timing.Interval

/-- The stacks of `RobTimer` grow by the latency and those of `IntervalTimer` by the cycles that
`simulate` returns; those of the threads of `RobSmtTimer` grow as the clock goes on in exactly the
cycles that do not skip. -/
theorem cpi_stacks_add_up {n : Nat} [NeZero n] {Reg C K M : Type} [DecidableEq Reg] :
    (∀ (cfg : Config Reg K M) fuel insts (w : CpiTimer Reg K M),
      ComponentFound (w.simulate cfg fuel insts) ∧
      ∀ w' latency, w.simulate cfg fuel insts = .ok (w', latency) →
        w'.cpi.total = w.cpi.total + latency) ∧
    (∀ cfg : CpiConfig Reg C, cfg.ConstantFrequency →
      ∀ fuel insts t cpi instructions latency t' cpi',
        IntervalTimer.simulateCpi cfg fuel insts 0 0 t cpi =
          .ok ((instructions, latency, t'), cpi') →
        cpi'.total = cpi.total + latency * cfg.period) ∧
    ∀ (cfg : SmtConfig n Reg K M) w,
      Reachable (SmtCpiTimer.Init cfg) (SmtCpiTimer.Step cfg) w →
      ComponentFound (w.executeCycle cfg) ∧
      ∀ w', w.executeCycle cfg = .ok w' →
        ((∀ t, (w'.threads t).cpi.total + w.timer.now =
          (w.threads t).cpi.total + w'.timer.now) ↔ ¬ w.timer.Skips cfg) := by
  refine ⟨fun cfg fuel insts w => ⟨CpiTimer.simulate_found .., fun w' latency h => ?_⟩,
    fun cfg hfrequency fuel insts t cpi instructions latency t' cpi' h => ?_,
    fun cfg w h => ⟨SmtCpiTimer.executeCycle_found h, fun w' hw' => ?_⟩⟩
  · exact CpiTimer.simulate_total h
  · obtain ⟨a, -, hresult, htotal⟩ := (IntervalTimer.simulateCpi_charged hfrequency).of_ok h
    rw [← hresult, Nat.zero_mul, Nat.add_zero] at htotal
    exact htotal
  · exact SmtCpiTimer.executeCycle_adds_up_iff h hw'

/-! ### On small cores -/

/-- A core with one hardware thread and one place in its reorder buffer. -/
def lone : SmtConfig 1 Nat Unit Unit :=
  { small with
    dispatchWidth := 1
    windowSize := 1
    m_num_threads := 1
    windowRepartition := false
    simultaneousIssue := false
    cores := fun _ => small.accessMemory }

open scoped Lib.Sizes

def lone.start : SmtCpiTimer 1 Nat Unit Unit where
  timer :=
    { m_rob_threads := fun _ =>
        ⟨false, 0, [], [], 0, 0, false, 0, fun _ => none, ⟨[], none⟩, [], []⟩
      currentWindowSize := 1
      dispatch_thread := 0
      issue_thread := 0
      now := 0
      period := 10
      last_store_done := 0
      load_queue := ⟨[(0, 0)], 0⟩
      store_queue := ⟨[(0, 0)], 0⟩
      m_rs_entries_used := 0
      contention := ()
      memory := () }
  threads _ := ⟨some .SMT, ∅⟩

theorem lone.init : SmtCpiTimer.Init lone lone.start :=
  ⟨⟨fun _ => rfl, rfl, rfl, rfl, by simp [lone.start], rfl, by simp [lone, small]⟩,
    fun _ => rfl, fun _ => rfl⟩

/-- A micro-op of ten cycles, and some more. -/
def lone.waiting : List (DynamicMicroOp Nat) :=
  [small.uop .execute [] [1] false 10, small.plain, small.plain, small.plain]

def lone.feed (cycles : Nat) : List (SmtCall 1 Nat) :=
  .setRunning 0 true :: .pushInstructions 0 lone.waiting :: List.replicate cycles .executeCycle

theorem lone.allowed (cycles : Nat) :
    ∀ call ∈ lone.feed cycles, RobSmtTimer.Allowed lone call := by
  intro call hcall
  simp only [lone.feed, List.mem_cons, List.mem_replicate] at hcall
  obtain rfl | rfl | ⟨-, rfl⟩ := hcall
  · trivial
  · have hallowed : ∀ uop ∈ lone.waiting, Allowed small (.enter uop) := by
      simp [lone.waiting, small.plain]
    exact hallowed
  · trivial

theorem lone.reachable {cycles w}
    (hrun : (lone.feed cycles).foldlM (SmtCpiTimer.exec lone) lone.start = .ok w) :
    Reachable (SmtCpiTimer.Init lone) (SmtCpiTimer.Step lone) w :=
  Reachable.foldlM (fun call hcall _ _ hstep => ⟨call, lone.allowed cycles call hcall, hstep⟩)
    (.init lone.init) hrun

/-- The interval timer of the small core, with micro-ops made at its frequency. -/
def timed : CpiConfig Nat Unit := { IntervalTimer.sample with getPeriod := fun _ => 10 }

/-- A run of each timer. The lone thread is charged ten for the cycle from 10 to 20, which does not
skip. -/
theorem cpi_stacks_add_up_small :
    (∃ w : CpiTimer Nat Unit Unit,
      CpiTimer.simulate (narrow 4) 10 small.blocked ⟨small.start, none, ∅⟩ = .ok (w, 40) ∧
      w.cpi.total = 0 + 40) ∧
    (∃ t cpi, IntervalTimer.simulateCpi timed 8 [IntervalTimer.sample.uop 1] 0 0
        (.new IntervalTimer.sample 1 1 ()) ∅ = .ok ((1, 1, t), cpi) ∧
      cpi.total = 0 + 1 * 10) ∧
    ∃ w w' : SmtCpiTimer 1 Nat Unit Unit, w.executeCycle lone = .ok w' ∧ w'.timer.now = 20 ∧
      ¬ w.timer.Skips lone := by
  refine ⟨?_, ?_, ?_⟩
  · have hrun : ∃ p ∈ (CpiTimer.simulate (narrow 4) 10 small.blocked
        ⟨small.start, none, ∅⟩).toOption, p.2 = 40 := by decide +kernel
    obtain ⟨⟨w, latency⟩, hw, rfl⟩ := exists_of_toOption hrun
    exact ⟨w, hw, ((cpi_stacks_add_up (n := 1) (C := Unit)).1 (narrow 4) _ _ _).2 w 40 hw⟩
  · have hrun : ∃ p ∈ (IntervalTimer.simulateCpi timed 8 [IntervalTimer.sample.uop 1] 0 0
        (.new IntervalTimer.sample 1 1 ()) ∅).toOption, p.1.1 = 1 ∧ p.1.2.1 = 1 := by
      decide +kernel
    obtain ⟨⟨⟨instructions, latency, t⟩, cpi⟩, hw, rfl, rfl⟩ := exists_of_toOption hrun
    refine ⟨t, cpi, hw, ?_⟩
    exact (cpi_stacks_add_up (n := 1) (K := Unit) (M := Unit)).2.1 timed (fun _ => rfl) _ _ _ _
      _ _ _ _ hw
  · have hrun : ∃ w ∈ ((lone.feed 1).foldlM (SmtCpiTimer.exec lone) lone.start).toOption,
        ∃ w' ∈ (w.executeCycle lone).toOption, w'.timer.now = 20 ∧ w.timer.now = 10 ∧
          (w'.threads 0).cpi.total = (w.threads 0).cpi.total + 10 := by decide +kernel
    obtain ⟨w, hw, hcycle⟩ := exists_of_toOption hrun
    obtain ⟨w', hw', hnow', hnow, htotal⟩ := exists_of_toOption hcycle
    refine ⟨w, w', hw', hnow', ?_⟩
    refine ((cpi_stacks_add_up (n := 1) (C := Unit)).2.2 lone w (lone.reachable hw)).2 w' hw'
      |>.mp fun t => ?_
    rw [Fin.eq_zero t, hnow, hnow', htotal]

/-- In the third cycle the lone thread waits for its micro-op of ten cycles: the clock goes on by
a hundred, and the thread is charged ten. -/
theorem cpi_stack_skipped : ∃ w w' : SmtCpiTimer 1 Nat Unit Unit,
    SmtCpiTimer.Init lone lone.start ∧
    (∀ call ∈ lone.feed 2, RobSmtTimer.Allowed lone call) ∧
    (lone.feed 2).foldlM (SmtCpiTimer.exec lone) lone.start = .ok w ∧
    w.executeCycle lone = .ok w' ∧ w'.timer.now = w.timer.now + 100 ∧
    (w'.threads 0).cpi.total = (w.threads 0).cpi.total + 10 := by
  have hrun : ∃ w ∈ ((lone.feed 2).foldlM (SmtCpiTimer.exec lone) lone.start).toOption,
      ∃ w' ∈ (w.executeCycle lone).toOption, w'.timer.now = w.timer.now + 100 ∧
        (w'.threads 0).cpi.total = (w.threads 0).cpi.total + 10 := by decide +kernel
  obtain ⟨w, hw, hcycle⟩ := exists_of_toOption hrun
  obtain ⟨w', hw', hnow, htotal⟩ := exists_of_toOption hcycle
  exact ⟨w, w', lone.init, lone.allowed 2, hw, hw', hnow, htotal⟩

end Sniper.Timing.Rob
