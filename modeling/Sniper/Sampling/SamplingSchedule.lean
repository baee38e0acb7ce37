import Mathlib.Tactic.Linarith
import Sniper.Lib.Simulation
import Sniper.Sampling.PeriodicSampling

/-! # The schedule of periodic sampling

A run of callbacks together with an account of what was requested of the fast-forward mode. The
requests of a phase, from the end of a detailed interval to the next one, add up to the length of
the cycle, less the old offset of the detailed interval and with the new one. -/
namespace Sniper.Sampling
open Lib.Simulation

/-! ### Steps of a fast-forward phase -/

/-- The steps that a remaining time takes. -/
def stepsOf (sync remaining : ℕ) : ℕ := (remaining + sync - 1) / sync

theorem stepsOf_sub_min {sync remaining} (hs : 0 < sync) (hr : 0 < remaining) :
    stepsOf sync (remaining - min remaining sync) + 1 = stepsOf sync remaining := by
  unfold stepsOf
  by_cases hle : remaining ≤ sync
  · rw [min_eq_left hle, Nat.sub_self, Nat.div_eq_of_lt (by omega),
      Nat.div_eq_of_lt_le (k := 1) (by omega) (by omega)]
  · rw [min_eq_right (by omega), ← Nat.add_div_right _ hs]
    congr 1
    omega

/-- What is left to request in the phase. -/
def State.remaining (s : State) : ℕ :=
  s.sampling.m_fastforward_time_remaining + s.sampling.m_warmup_time_remaining

def State.steps (s : State) : ℕ :=
  stepsOf s.sampling.m_fastforward_sync_interval s.sampling.m_fastforward_time_remaining +
    stepsOf s.sampling.m_fastforward_sync_interval s.sampling.m_warmup_time_remaining

/-- A step that requests `d`. -/
structure Requests (time d : ℕ) (s t : State) : Prop where
  pos : 0 < d
  le : d ≤ s.sampling.m_fastforward_sync_interval
  target : t.manager.m_target_ffend = add time d
  fastforward : t.manager.m_fastforward = true
  remaining : t.remaining + d = s.remaining
  steps : t.steps + 1 = s.steps
  intervals : t.sampling.toIntervals = s.sampling.toIntervals
  offset : t.sampling.m_random_offset = s.sampling.m_random_offset

theorem stepFastForward_cases {s} (hsync : 0 < s.sampling.m_fastforward_sync_interval)
    (hlt : s.remaining < 2 ^ 64) (time : ℕ) :
    (s.remaining = 0 ∧ stepFastForward s time = (true, s)) ∨
      ∃ d t, stepFastForward s time = (false, t) ∧ Requests time d s t := by
  rcases hstep : stepFastForward s time with ⟨done, t⟩
  by_cases hff : s.sampling.m_fastforward_time_remaining > 0
  · right
    rw [stepFastForward, if_pos hff] at hstep
    cases hstep
    have hmin := min_le_left s.sampling.m_fastforward_time_remaining
      s.sampling.m_fastforward_sync_interval
    have hsub : sub s.sampling.m_fastforward_time_remaining
        (min s.sampling.m_fastforward_time_remaining s.sampling.m_fastforward_sync_interval) = _ :=
      sub_eq hmin (by unfold State.remaining at hlt; omega)
    refine ⟨_, _, rfl, lt_min hff hsync, min_le_right _ _, rfl, rfl, ?_, ?_, rfl, rfl⟩
    · simp only [State.remaining, if_neg (not_lt.mpr hmin), hsub]
      omega
    · have := stepsOf_sub_min hsync hff
      simp only [State.steps, if_neg (not_lt.mpr hmin), hsub]
      omega
  · by_cases hw : s.sampling.m_warmup_time_remaining > 0
    · right
      rw [stepFastForward, if_neg hff, if_pos hw] at hstep
      cases hstep
      have hmin := min_le_left s.sampling.m_warmup_time_remaining
        s.sampling.m_fastforward_sync_interval
      have hsub : sub s.sampling.m_warmup_time_remaining
          (min s.sampling.m_warmup_time_remaining s.sampling.m_fastforward_sync_interval) = _ :=
        sub_eq hmin (by unfold State.remaining at hlt; omega)
      refine ⟨_, _, rfl, lt_min hw hsync, min_le_right _ _, rfl, rfl, ?_, ?_, rfl, rfl⟩
      · simp only [State.remaining, if_neg (not_lt.mpr hmin), hsub]
        omega
      · have := stepsOf_sub_min hsync hw
        simp only [State.steps, if_neg (not_lt.mpr hmin), hsub]
        omega
    · left
      rw [stepFastForward, if_neg hff, if_neg hw] at hstep
      exact ⟨by unfold State.remaining; omega, hstep.symm⟩

/-! ### Runs with their account -/

structure Request where
  time : ℕ
  target : ℕ

/-- A fast-forward phase: the offsets of the detailed interval before and after it, and the sum
of its requests. -/
structure Phase where
  oldOffset : ℕ
  newOffset : ℕ
  requested : ℕ

structure Run where
  state : State
  requests : List Request
  /-- The sum of the requests since the phase began, and the offset before it. -/
  current : ℕ
  oldOffset : ℕ
  phases : List Phase

def Run.initial (p : PeriodicSampling) : Run := ⟨.initial p, [], 0, 0, []⟩

/-- The account behind a callback at `time` that leads to the state `t`. -/
def Run.next (r : Run) (time : ℕ) (t : State) : Run :=
  let before := r.state.manager.m_fastforward
  let request : Request := ⟨time, t.manager.m_target_ffend⟩
  if t.manager.m_fastforward then
    { r with
      state := t
      requests := r.requests ++ [request]
      current := (if before then r.current else 0) + (request.target - request.time)
      oldOffset := if before then r.oldOffset else r.state.sampling.m_random_offset }
  else
    { r with
      state := t
      phases :=
        if before then r.phases ++ [⟨r.oldOffset, t.sampling.m_random_offset, r.current⟩]
        else r.phases }

/-- The callbacks that stay clear of the defects: no target overflows, and the detailed interval
does not end while its warm-up is pending. -/
def Allowed (s : State) (call : Call) : Prop :=
  call.time + s.sampling.m_fastforward_sync_interval < 2 ^ 64 ∧
    (s.manager.m_fastforward = false → s.sampling.detailedOver call.time →
      s.sampling.m_detailed_warmup_time_remaining = 0)

def Run.callback (r : Run) (call : Call) : Except Fault Run := do
  let t ← periodic r.state call
  .ok (r.next call.time t)

def Step (r r' : Run) : Prop := ∃ call, Allowed r.state call ∧ r.callback call = .ok r'

def Intervals.cycle (iv : Intervals) : ℕ := iv.m_fastforward_interval + iv.m_warmup_interval

/-- The configurations whose phases have the length that they should: random placement adds the
warm-up interval a second time. -/
structure Fits (iv : Intervals) : Prop where
  placement : iv.m_random_placement = false ∨ iv.m_warmup_interval = 0
  fits : 2 * iv.cycle < 2 ^ 64

/-- What a phase between two detailed intervals should request. -/
def expected (iv : Intervals) (phase : Phase) : ℕ :=
  if iv.m_random_placement then iv.cycle - phase.oldOffset + phase.newOffset else iv.cycle

/-- From the state at most `n` callbacks are made before the fast-forward phase ends. -/
def EndsWithin : ℕ → State → Prop
  | 0, s => s.manager.m_fastforward = false
  | n + 1, s => s.manager.m_fastforward = false ∨
      ∀ call t, periodic s call = .ok t → EndsWithin n t

/-- The schedule that is kept: of each request, of each phase, and of all phases so far. -/
structure OnSchedule (iv : Intervals) (r : Run) : Prop where
  requests : ∀ q ∈ r.requests,
    q.time < q.target ∧ q.target ≤ q.time + iv.m_fastforward_sync_interval
  ends : ∃ n, EndsWithin n r.state
  phases : ∀ phase ∈ r.phases, phase.requested = expected iv phase
  total : (r.phases.map (·.requested)).sum < (r.phases.length + 1) * iv.cycle ∧
    r.phases.length * iv.cycle < (r.phases.map (·.requested)).sum + iv.cycle

/-! ### What a callback does -/

/-- A detailed interval is over: the phase is planned and its first request made. -/
structure Enters (call : Call) (s t : State) : Prop where
  ended : s.sampling.detailedOver call.time
  plan : ∃ p d, s.sampling.plan call.random = .ok p ∧
    Requests call.time d { s with sampling := p } t

/-- The mode, the intervals and the offset stay, or the phase ends. -/
structure Detailed (s t : State) : Prop where
  fastforward : t.manager.m_fastforward = false
  intervals : t.sampling.toIntervals = s.sampling.toIntervals
  offset : t.sampling.m_random_offset = s.sampling.m_random_offset

/-- What the schedule needs of the intervals. -/
structure Accepted (iv : Intervals) : Prop where
  sync : 0 < iv.m_fastforward_sync_interval
  le : iv.m_fastforward_sync_interval ≤ max iv.m_fastforward_interval iv.m_warmup_interval
  fits : Fits iv

theorem Accepted.cycle_pos {iv} (h : Accepted iv) : 0 < iv.cycle := by
  have := h.sync
  have := h.le
  unfold Intervals.cycle
  omega

theorem exists_plan {p : PeriodicSampling} (ha : Accepted p.toIntervals)
    (hoffset : p.m_random_offset < p.cycle) (random : ℕ) :
    ∃ q, p.plan random = .ok q ∧ q.toIntervals = p.toIntervals ∧ q.m_random_offset < p.cycle ∧
      q.m_fastforward_time_remaining + q.m_warmup_time_remaining + p.m_random_offset =
        p.cycle + q.m_random_offset ∧
      (p.m_random_placement = false → q.m_random_offset = p.m_random_offset) := by
  have hfits := ha.fits.fits
  have hpos := ha.cycle_pos
  rcases hp : p.plan random with e | q
  · rw [PeriodicSampling.plan] at hp
    split at hp
    · have hcycle : add p.m_fastforward_interval p.m_warmup_interval = p.cycle :=
        add_eq (by unfold Intervals.cycle at hfits; omega)
      simp only [hcycle, if_neg hpos.ne'] at hp
      cases hp
    · cases hp
  · refine ⟨q, rfl, ?_⟩
    rw [PeriodicSampling.plan] at hp
    split at hp
    · rename_i hrandom
      have hwarmup : p.m_warmup_interval = 0 := by
        rcases ha.fits.placement with h | h
        · exact absurd hrandom (by simp [h])
        · exact h
      have hcycle : add p.m_fastforward_interval p.m_warmup_interval = p.cycle :=
        add_eq (by unfold Intervals.cycle at hfits; omega)
      simp only [hcycle, if_neg hpos.ne'] at hp
      cases hp
      have hnew := Nat.mod_lt (mul random p.m_fastforward_sync_interval) hpos
      have hrest : add (sub p.cycle p.m_random_offset)
          (mul random p.m_fastforward_sync_interval % p.cycle) =
          p.cycle - p.m_random_offset + mul random p.m_fastforward_sync_interval % p.cycle := by
        rw [sub_eq hoffset.le (by omega), add_eq (by omega)]
      refine ⟨rfl, hnew, ?_, fun h => absurd hrandom (by simp [h])⟩
      simp only [hrest, hwarmup]
      omega
    · cases hp
      refine ⟨rfl, hoffset, ?_, fun _ => rfl⟩
      simp only [Intervals.cycle]

theorem callbackFastForward_cases {s} (hsync : 0 < s.sampling.m_fastforward_sync_interval)
    (hlt : s.remaining < 2 ^ 64) (call : Call) :
    (∃ d, Requests call.time d s (callbackFastForward s call)) ∨
      (s.remaining = 0 ∧ Detailed s (callbackFastForward s call)) := by
  rcases stepFastForward_cases hsync hlt call.time with ⟨hrem, hstep⟩ | ⟨d, t, hstep, hreq⟩
  · right
    rw [callbackFastForward, hstep]
    exact ⟨hrem, rfl, rfl, rfl⟩
  · left
    rw [callbackFastForward, hstep]
    exact ⟨d, hreq⟩

theorem callbackDetailed_cases {s : State} (ha : Accepted s.sampling.toIntervals)
    (hoffset : s.sampling.m_random_offset < s.sampling.cycle)
    (hmode : s.manager.m_fastforward = false) {call} (hallowed : Allowed s call) :
    ∃ t, callbackDetailed s call = .ok t ∧ (Enters call s t ∨ Detailed s t) := by
  rw [callbackDetailed]
  split
  · split
    · exact ⟨s, rfl, .inr ⟨hmode, rfl, rfl⟩⟩
    · exact ⟨_, rfl, .inr ⟨hmode, rfl, rfl⟩⟩
  · split
    · rename_i hover
      have hdone := hallowed.2 hmode hover
      obtain ⟨p, hp, hiv, hnew, hrem, -⟩ := exists_plan ha hoffset call.random
      have hfull : (State.mk p s.manager).remaining =
          p.m_fastforward_time_remaining + p.m_warmup_time_remaining := rfl
      have hsmall : (State.mk p s.manager).remaining < 2 ^ 64 := by
        have := ha.fits.fits
        omega
      have hsync : 0 < p.m_fastforward_sync_interval := by
        rw [hiv]
        exact ha.sync
      rw [if_neg (by simp [hdone]), hp]
      rcases stepFastForward_cases (s := ⟨p, s.manager⟩) hsync hsmall call.time with
        ⟨hzero, -⟩ | ⟨d, u, hstep, hreq⟩
      · omega
      · refine ⟨_, by simp only [bind, Except.bind, hstep]; rfl, .inl ⟨hover, p, d, hp, ?_⟩⟩
        exact ⟨hreq.pos, hreq.le, hreq.target, hreq.fastforward, hreq.remaining, hreq.steps,
          hreq.intervals, hreq.offset⟩
    · split
      · exact ⟨_, rfl, .inr ⟨hmode, rfl, rfl⟩⟩
      · exact ⟨s, rfl, .inr ⟨hmode, rfl, rfl⟩⟩

/-! ### A phase ends -/

theorem endsWithin_of_steps {n s} (hsync : 0 < s.sampling.m_fastforward_sync_interval)
    (hlt : s.remaining < 2 ^ 64) (hn : s.steps < n) : EndsWithin n s := by
  induction n generalizing s with
  | zero => omega
  | succ n ih =>
    cases hmode : s.manager.m_fastforward with
    | false => exact .inl hmode
    | true =>
      refine .inr fun call t ht => ?_
      rw [periodic, if_pos hmode] at ht
      cases ht
      rcases callbackFastForward_cases hsync hlt call with ⟨d, hreq⟩ | ⟨-, hdone⟩
      · have := hreq.remaining
        have := hreq.steps
        exact ih (by rw [hreq.intervals]; exact hsync) (by omega) (by omega)
      · cases n with
        | zero => exact hdone.fastforward
        | succ n => exact .inl hdone.fastforward

/-! ### The account -/

/-- What each callback keeps; `start` is the offset that the constructor chose. -/
structure Balanced (iv : Intervals) (start : ℕ) (r : Run) : Prop where
  intervals : r.state.sampling.toIntervals = iv
  offset : r.state.sampling.m_random_offset < iv.cycle
  current : r.state.manager.m_fastforward = true →
    r.current + r.state.remaining + r.oldOffset = iv.cycle + r.state.sampling.m_random_offset ∧
      r.oldOffset < iv.cycle ∧
      (iv.m_random_placement = false → r.state.sampling.m_random_offset = r.oldOffset)
  requests : ∀ q ∈ r.requests,
    q.time < q.target ∧ q.target ≤ q.time + iv.m_fastforward_sync_interval
  phases : ∀ phase ∈ r.phases, phase.requested = expected iv phase
  total : (r.phases.map (·.requested)).sum + start = r.phases.length * iv.cycle +
    if r.state.manager.m_fastforward then r.oldOffset else r.state.sampling.m_random_offset

section Balance
variable {iv : Intervals} {start : ℕ} {r : Run} {call : Call} {t : State}

theorem Balanced.remaining_lt (h : Balanced iv start r) (hfits : Fits iv)
    (hmode : r.state.manager.m_fastforward = true) : r.state.remaining < 2 ^ 64 := by
  obtain ⟨hcurrent, -⟩ := h.current hmode
  have := h.offset
  have := hfits.fits
  omega

theorem Requests.request {s time d} (h : Requests time d s t) (hiv : s.sampling.toIntervals = iv)
    (hfit : time + iv.m_fastforward_sync_interval < 2 ^ 64) :
    t.manager.m_target_ffend = time + d ∧ d ≤ iv.m_fastforward_sync_interval := by
  have hle := h.le
  rw [hiv] at hle
  exact ⟨by rw [h.target, add_eq (by omega)], hle⟩

theorem requests_concat (h : Balanced iv start r) {time d} (hpos : 0 < d)
    (hle : d ≤ iv.m_fastforward_sync_interval) :
    ∀ q ∈ r.requests ++ [(⟨time, time + d⟩ : Request)],
      q.time < q.target ∧ q.target ≤ q.time + iv.m_fastforward_sync_interval := by
  intro q hq
  rcases List.mem_append.mp hq with hq | hq
  · exact h.requests q hq
  · rw [List.mem_singleton.mp hq]
    exact ⟨Nat.lt_add_of_pos_right hpos, Nat.add_le_add_left hle _⟩

theorem Balanced.continue (h : Balanced iv start r) (hallowed : Allowed r.state call)
    (hmode : r.state.manager.m_fastforward = true) {d} (hreq : Requests call.time d r.state t) :
    Balanced iv start (r.next call.time t) := by
  have hfit := hallowed.1
  rw [h.intervals] at hfit
  obtain ⟨htarget, hle⟩ := hreq.request h.intervals hfit
  obtain ⟨hcurrent, hold, hsame⟩ := h.current hmode
  have hrem := hreq.remaining
  have hoffset := hreq.offset
  simp only [Run.next, hreq.fastforward, hmode, if_true]
  refine ⟨hreq.intervals.trans h.intervals, hoffset ▸ h.offset, fun _ => ?_, ?_, h.phases, ?_⟩
  · refine ⟨?_, hold, fun hp => hoffset ▸ hsame hp⟩
    simp only [htarget]
    omega
  · rw [htarget]
    exact requests_concat h hreq.pos hle
  · simpa [hreq.fastforward, hmode] using h.total

theorem Balanced.enter (h : Balanced iv start r) (ha : Accepted iv)
    (hallowed : Allowed r.state call) (hmode : r.state.manager.m_fastforward = false)
    (henter : Enters call r.state t) : Balanced iv start (r.next call.time t) := by
  have hfit := hallowed.1
  rw [h.intervals] at hfit
  obtain ⟨p, d, hp, hreq⟩ := henter.plan
  have ha' : Accepted r.state.sampling.toIntervals := by rwa [h.intervals]
  have hcycle : r.state.sampling.cycle = iv.cycle := congrArg Intervals.cycle h.intervals
  obtain ⟨q, hq, hiv, hnew, hplan, hsame⟩ := exists_plan ha' (hcycle ▸ h.offset) call.random
  obtain rfl : q = p := by
    rw [hp] at hq
    exact (Except.ok.inj hq).symm
  rw [hcycle] at hnew hplan
  obtain ⟨htarget, hle⟩ := hreq.request (hiv.trans h.intervals) hfit
  have hrem := hreq.remaining
  have hoffset : t.sampling.m_random_offset = q.m_random_offset := hreq.offset
  simp only [Run.next, hreq.fastforward, hmode, if_true, Bool.false_eq_true, if_false]
  refine ⟨hreq.intervals.trans (hiv.trans h.intervals), hoffset ▸ hnew, fun _ => ?_, ?_, h.phases,
    ?_⟩
  · refine ⟨?_, h.offset, fun hp => ?_⟩
    · have hfull : (State.mk q r.state.manager).remaining =
          q.m_fastforward_time_remaining + q.m_warmup_time_remaining := rfl
      simp only [htarget, hoffset]
      omega
    · rw [hoffset]
      exact hsame (by rw [h.intervals]; exact hp)
  · rw [htarget]
    exact requests_concat h hreq.pos hle
  · simpa [hreq.fastforward, hmode] using h.total

theorem Balanced.finish (h : Balanced iv start r)
    (hmode : r.state.manager.m_fastforward = true) (hrem : r.state.remaining = 0)
    (hdone : Detailed r.state t) : Balanced iv start (r.next call.time t) := by
  obtain ⟨hcurrent, hold, hsame⟩ := h.current hmode
  have htotal := h.total
  rw [if_pos hmode] at htotal
  have hoffset := hdone.offset
  simp only [Run.next, hdone.fastforward, hmode, if_true, Bool.false_eq_true, if_false]
  refine ⟨hdone.intervals.trans h.intervals, hoffset ▸ h.offset, ?_, h.requests, ?_, ?_⟩
  · intro hff
    rw [hdone.fastforward] at hff
    cases hff
  · intro phase hphase
    rcases List.mem_append.mp hphase with hphase | hphase
    · exact h.phases phase hphase
    · rw [List.mem_singleton.mp hphase, expected]
      split
      · simp only [hoffset]
        omega
      · rename_i hp
        have := hsame (by simpa using hp)
        simp only
        omega
  · simp only [List.map_append, List.sum_append, List.map_cons, List.map_nil, List.sum_cons,
      List.sum_nil, List.length_append, List.length_cons, List.length_nil, hdone.fastforward,
      Bool.false_eq_true, if_false, hoffset]
    linarith

theorem Balanced.stay (h : Balanced iv start r)
    (hmode : r.state.manager.m_fastforward = false) (hdone : Detailed r.state t) :
    Balanced iv start (r.next call.time t) := by
  have hoffset := hdone.offset
  simp only [Run.next, hdone.fastforward, hmode, Bool.false_eq_true, if_false]
  refine ⟨hdone.intervals.trans h.intervals, hoffset ▸ h.offset, ?_, h.requests, h.phases, ?_⟩
  · intro hff
    rw [hdone.fastforward] at hff
    cases hff
  · simpa [hdone.fastforward, hmode, hoffset] using h.total

theorem Balanced.callback (h : Balanced iv start r) (ha : Accepted iv)
    (hallowed : Allowed r.state call) :
    ∃ r', r.callback call = .ok r' ∧ Balanced iv start r' := by
  suffices h' : ∃ t, periodic r.state call = .ok t ∧ Balanced iv start (r.next call.time t) by
    obtain ⟨t, ht, hnext⟩ := h'
    exact ⟨_, bind_eq_of_ok ht rfl, hnext⟩
  rw [periodic]
  cases hmode : r.state.manager.m_fastforward with
  | true =>
    have hsync : 0 < r.state.sampling.m_fastforward_sync_interval := by
      rw [h.intervals]
      exact ha.sync
    refine ⟨_, if_pos rfl, ?_⟩
    rcases callbackFastForward_cases hsync (h.remaining_lt ha.fits hmode) call with
      ⟨d, hreq⟩ | ⟨hrem, hdone⟩
    · exact h.continue hallowed hmode hreq
    · exact h.finish hmode hrem hdone
  | false =>
    obtain ⟨t, ht, hcase⟩ := callbackDetailed_cases (by rwa [h.intervals])
      (by rw [h.intervals]; exact h.offset) hmode hallowed
    refine ⟨t, (if_neg (by simp)).trans ht, ?_⟩
    rcases hcase with henter | hdone
    · exact h.enter ha hallowed hmode henter
    · exact h.stay hmode hdone

end Balance

/-! ### The schedule -/

section Schedule
variable {cfg : Config} {random : ℕ} {p : PeriodicSampling}

theorem accepted_of_new (h : PeriodicSampling.new cfg random = .ok p)
    (hfits : Fits p.toIntervals) : Accepted p.toIntervals := by
  rw [PeriodicSampling.new] at h
  split at h
  · cases h
  · rename_i hsync
    split at h
    · cases h
    · cases h
      obtain ⟨hpos, hle⟩ := not_not.mp hsync
      exact ⟨hpos, hle, hfits⟩

theorem offset_of_new (h : PeriodicSampling.new cfg random = .ok p)
    (ha : Accepted p.toIntervals) : p.m_random_offset < p.cycle := by
  have hpos := ha.cycle_pos
  have hfits := ha.fits.fits
  rw [PeriodicSampling.new] at h
  split at h
  · cases h
  · split at h
    · cases h
    · cases h
      simp only [Intervals.cycle] at hpos hfits ⊢
      split
      · rw [add_eq (by omega)]
        have hpercent : random % 100 < 100 := Nat.mod_lt _ (by omega)
        rw [mul]
        have hlt := Nat.mul_lt_mul_of_pos_left hpercent hpos
        omega
      · exact hpos

theorem balanced_initial (h : PeriodicSampling.new cfg random = .ok p)
    (ha : Accepted p.toIntervals) :
    Balanced p.toIntervals p.m_random_offset (.initial p) :=
  ⟨rfl, offset_of_new h ha, nofun, by simp [Run.initial], by simp [Run.initial],
    by simp [Run.initial, State.initial]⟩

theorem Balanced.onSchedule {iv start r} (h : Balanced iv start r) (ha : Accepted iv)
    (hstart : start < iv.cycle) : OnSchedule iv r := by
  have htotal := h.total
  have hend : (if r.state.manager.m_fastforward then r.oldOffset
      else r.state.sampling.m_random_offset) < iv.cycle := by
    split
    · rename_i hmode
      exact (h.current hmode).2.1
    · exact h.offset
  refine ⟨h.requests, ?_, h.phases, ?_, ?_⟩
  · cases hmode : r.state.manager.m_fastforward with
    | false => exact ⟨0, hmode⟩
    | true =>
      refine ⟨_, endsWithin_of_steps ?_ (h.remaining_lt ha.fits hmode) (Nat.lt_succ_self _)⟩
      rw [h.intervals]
      exact ha.sync
  · rw [add_mul, one_mul]
    omega
  · omega

/-- While the callbacks stay clear of the defects, none raises an assertion, and the schedule is
kept. -/
theorem schedule_kept (cfg : Config) (random : ℕ)
    (hnew : PeriodicSampling.new cfg random = .ok p)
    (hfits : Fits p.toIntervals) {r : Run} (hr : Reachable (· = .initial p) Step r) :
    OnSchedule p.toIntervals r ∧ ∀ call, Allowed r.state call → ∃ r', r.callback call = .ok r' := by
  have ha := accepted_of_new hnew hfits
  have hbalanced : Balanced p.toIntervals p.m_random_offset r := by
    refine hr.invariant (fun s hs => hs ▸ balanced_initial hnew ha) fun s t hs hst => ?_
    obtain ⟨call, hallowed, hcall⟩ := hst
    obtain ⟨t', ht', hnext⟩ := hs.callback ha hallowed
    rw [hcall] at ht'
    cases ht'
    exact hnext
  refine ⟨hbalanced.onSchedule ha (offset_of_new hnew ha), fun call hallowed => ?_⟩
  obtain ⟨r', hr', -⟩ := hbalanced.callback ha hallowed
  exact ⟨r', hr'⟩

end Schedule

/-! ### Runs -/

/-- 10 ns in detail, 5 of them warm-up, after 20 ns of fast-forwarding. -/
def detailedWarmup : Config :=
  { detailed_interval := 10, fastforward_interval := 20, fastforward_sync_interval := 20,
    warmup_interval := 0, detailed_warmup_interval := 5, random_placement := false,
    random_start := false, num_historic_cpi_intervals := 1 }

/-- 10 ns of fast-forwarding and 10 ns of warm-up around detailed intervals at random places. -/
def randomPlacement : Config :=
  { detailed_interval := 10, fastforward_interval := 10, fastforward_sync_interval := 10,
    warmup_interval := 10, detailed_warmup_interval := 0, random_placement := true,
    random_start := false, num_historic_cpi_intervals := 1 }

/-- The callbacks of a run, `random` being what the generator returns in each. -/
def runOf (cfg : Config) (random : ℕ) (times : List ℕ) : Except Fault Run := do
  let p ← PeriodicSampling.new cfg random
  times.foldlM (fun r time => r.callback ⟨time * 1000000, random⟩) (.initial p)

/-- Two phases, and between them a detailed interval whose warm-up is over at 38 ns. -/
theorem schedule_kept_twoPhases : ∃ p r, PeriodicSampling.new detailedWarmup 0 = .ok p ∧
    runOf detailedWarmup 0 [11, 31, 38, 42, 62] = .ok r ∧
    r.requests = [⟨11000000, 31000000⟩, ⟨42000000, 62000000⟩] ∧ r.phases.length = 2 ∧
    OnSchedule p.toIntervals r := by
  refine ⟨_, _, rfl, rfl, rfl, rfl, (schedule_kept detailedWarmup 0 rfl ⟨.inl rfl, by decide⟩ ?_).1⟩
  exact .step (.step (.step (.step (.step (.init rfl)
    ⟨⟨11000000, 0⟩, ⟨by decide, fun _ _ => rfl⟩, rfl⟩)
    ⟨⟨31000000, 0⟩, ⟨by decide, nofun⟩, rfl⟩)
    ⟨⟨38000000, 0⟩, ⟨by decide, by decide⟩, rfl⟩)
    ⟨⟨42000000, 0⟩, ⟨by decide, fun _ _ => rfl⟩, rfl⟩)
    ⟨⟨62000000, 0⟩, ⟨by decide, nofun⟩, rfl⟩

/-- The next callback comes 11 ns after the detailed mode was entered again, and with random
placement the first phase requests 40 ns instead of 30. -/
theorem schedule_broken :
    runOf detailedWarmup 0 [11, 31, 42] = .error .detailedWarmup ∧
    ∃ p r, PeriodicSampling.new randomPlacement 1 = .ok p ∧
      runOf randomPlacement 1 [11, 21, 31, 41, 51] = .ok r ∧
      r.phases = [⟨0, 10000000, 40000000⟩] ∧
      expected p.toIntervals ⟨0, 10000000, 40000000⟩ = 30000000 :=
  ⟨by rfl, _, _, rfl, rfl, rfl, rfl⟩

end Sniper.Sampling
