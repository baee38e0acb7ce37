import Mathlib.Algebra.GroupWithZero.Nat
import Mathlib.Algebra.Ring.Int.Defs

/-! # Periodic sampling

`PeriodicSampling` decides in each callback of `SamplingManager::periodic` whether to fast-forward
or to simulate in detail. Times are 64-bit numbers of femtoseconds. The instruction rates that are
set for the fast-forward model have no influence on the schedule and are left out. -/
namespace Sniper.Sampling

/-! ### Times -/

def add (a b : ℕ) : ℕ := (a + b) % 2 ^ 64
def sub (a b : ℕ) : ℕ := (a + 2 ^ 64 - b) % 2 ^ 64
def mul (a b : ℕ) : ℕ := a * b % 2 ^ 64

/-- `SubsecondTime::NS` of a number of the configuration. -/
def ns (n : Int) : ℕ := (n * 1000000 % 2 ^ 64).toNat

theorem add_eq {a b} (h : a + b < 2 ^ 64) : add a b = a + b := Nat.mod_eq_of_lt h

theorem sub_eq {a b} (hb : b ≤ a) (ha : a < 2 ^ 64) : sub a b = a - b := by
  unfold sub
  omega

/-! ### Configuration -/

/-- The section `sampling/periodic`, in nanoseconds. -/
structure Config where
  detailed_interval : Int
  fastforward_interval : Int
  fastforward_sync_interval : Int
  warmup_interval : Int
  detailed_warmup_interval : Int
  random_placement : Bool
  random_start : Bool
  num_historic_cpi_intervals : ℕ

inductive Fault where
  /-- "fastforward_sync_interval must be between 0 and max(fastforward_interval,
  warmup_interval)" -/
  | syncInterval
  /-- "Expected num_intervals to be >= 1" -/
  | numIntervals
  /-- "Should not finish detailed simulation before detailed warmup is complete." -/
  | detailedWarmup
  /-- "No fastforwarding to be done" -/
  | noFastForward
  | divisionByZero

/-- The fields that only the constructor sets. -/
structure Intervals where
  m_detailed_interval : ℕ
  m_fastforward_interval : ℕ
  m_fastforward_sync_interval : ℕ
  m_warmup_interval : ℕ
  m_detailed_warmup_interval : ℕ
  m_random_placement : Bool

structure PeriodicSampling extends Intervals where
  m_random_offset : ℕ
  m_random_start : Bool
  m_periodic_last : ℕ
  m_fastforward_time_remaining : ℕ
  m_warmup_time_remaining : ℕ
  m_detailed_warmup_time_remaining : ℕ

/-- The constructor; `random` is what `m_prng.next()` returns. -/
def PeriodicSampling.new (cfg : Config) (random : ℕ) : Except Fault PeriodicSampling :=
  let fastforward := ns cfg.fastforward_interval
  let sync := ns cfg.fastforward_sync_interval
  let warmup := ns cfg.warmup_interval
  if ¬ (sync > 0 ∧ sync ≤ max fastforward warmup) then .error .syncInterval
  else if cfg.num_historic_cpi_intervals = 0 then .error .numIntervals
  else
    .ok
      { m_detailed_interval := ns cfg.detailed_interval
        m_fastforward_interval := fastforward
        m_fastforward_sync_interval := sync
        m_warmup_interval := warmup
        m_detailed_warmup_interval := ns cfg.detailed_warmup_interval
        m_random_placement := cfg.random_placement
        m_random_offset :=
          if cfg.random_start then mul (add fastforward warmup) (random % 100) / 100 else 0
        m_random_start := cfg.random_start
        m_periodic_last := 0
        m_fastforward_time_remaining := 0
        m_warmup_time_remaining := 0
        m_detailed_warmup_time_remaining := 0 }

/-! ### Callbacks -/

/-- The fields of `SamplingManager` that the algorithm changes. -/
structure SamplingManager where
  m_fastforward : Bool
  m_warmup : Bool
  m_target_ffend : ℕ

def SamplingManager.enableFastForward (target : ℕ) (warmup : Bool) : SamplingManager :=
  ⟨true, warmup, target⟩

def SamplingManager.disableFastForward (manager : SamplingManager) : SamplingManager :=
  { manager with m_fastforward := false, m_warmup := false }

structure State where
  sampling : PeriodicSampling
  manager : SamplingManager

def State.initial (sampling : PeriodicSampling) : State := ⟨sampling, ⟨false, false, 0⟩⟩

/-- `stepFastForward`: whether the phase is over. -/
def stepFastForward (s : State) (time : ℕ) : Bool × State :=
  let p := s.sampling
  if p.m_fastforward_time_remaining > 0 then
    let time_to_fastforward := min p.m_fastforward_time_remaining p.m_fastforward_sync_interval
    (false,
      { sampling :=
          { p with
            m_fastforward_time_remaining :=
              if p.m_fastforward_time_remaining < time_to_fastforward then 0
              else sub p.m_fastforward_time_remaining time_to_fastforward }
        manager := .enableFastForward (add time time_to_fastforward) false })
  else if p.m_warmup_time_remaining > 0 then
    let time_to_warmup := min p.m_warmup_time_remaining p.m_fastforward_sync_interval
    (false,
      { sampling :=
          { p with
            m_warmup_time_remaining :=
              if p.m_warmup_time_remaining < time_to_warmup then 0
              else sub p.m_warmup_time_remaining time_to_warmup }
        manager := .enableFastForward (add time time_to_warmup) true })
  else (true, s)

/-- A callback: its time and what `m_prng.next()` returns in it. -/
structure Call where
  time : ℕ
  random : ℕ

/-- The remaining times and the offset at the end of a detailed interval. -/
def PeriodicSampling.plan (p : PeriodicSampling) (random : ℕ) : Except Fault PeriodicSampling :=
  if p.m_random_placement then
    let cycle := add p.m_fastforward_interval p.m_warmup_interval
    if cycle = 0 then .error .divisionByZero
    else
      let offset := mul random p.m_fastforward_sync_interval % cycle
      .ok
        { p with
          m_fastforward_time_remaining := add (sub cycle p.m_random_offset) offset
          m_random_offset := offset
          m_warmup_time_remaining := p.m_warmup_interval }
  else
    .ok
      { p with
        m_fastforward_time_remaining := p.m_fastforward_interval
        m_warmup_time_remaining := p.m_warmup_interval }

/-- Whether the detailed interval is over. -/
def PeriodicSampling.detailedOver (p : PeriodicSampling) (time : ℕ) : Bool :=
  !p.m_random_start && decide (time > add p.m_periodic_last p.m_detailed_interval)

def callbackDetailed (s : State) (call : Call) : Except Fault State :=
  let p := s.sampling
  if p.m_random_start then
    if call.time < p.m_random_offset then .ok s
    else
      .ok { s with sampling := { p with m_periodic_last := call.time, m_random_start := false } }
  else if p.detailedOver call.time then
    if p.m_detailed_warmup_time_remaining ≠ 0 then .error .detailedWarmup
    else do
      let p ← p.plan call.random
      let (done, s) := stepFastForward { s with sampling := p } call.time
      if done then .error .noFastForward
      else .ok { s with sampling := { s.sampling with m_periodic_last := call.time } }
  else if p.m_detailed_warmup_time_remaining > 0 ∧
      call.time > add p.m_periodic_last p.m_detailed_warmup_interval then
    .ok { s with sampling := { p with m_detailed_warmup_time_remaining := 0 } }
  else .ok s

def callbackFastForward (s : State) (call : Call) : State :=
  match stepFastForward s call.time with
  | (false, s) => s
  | (true, s) =>
    let p := s.sampling
    { manager := s.manager.disableFastForward
      sampling :=
        { p with
          m_periodic_last := call.time
          m_detailed_warmup_time_remaining :=
            if p.m_detailed_warmup_interval > 0 then p.m_detailed_warmup_interval
            else p.m_detailed_warmup_time_remaining } }

/-- `SamplingManager::periodic`. -/
def periodic (s : State) (call : Call) : Except Fault State :=
  if s.manager.m_fastforward then .ok (callbackFastForward s call)
  else callbackDetailed s call

end Sniper.Sampling
