import Sniper.Timing.RobFrontEnd
import Sniper.Timing.SmtForwarding

/-! # The front ends of an SMT core

Each hardware thread has a front end of its own. What `tryDispatch` does to it is what the loop of
the front end does, with the window and the reservation stations that the threads share; the other
threads and the other stages leave it alone.
-/
namespace Sniper.Timing.Rob
open Lib.Simulation

variable {n : Nat} {Reg K M : Type}

/-! ### The next micro-op of a thread -/

theorem linkValid_tags {lowest x deps} {rob rob' : List (RobEntry Reg)} {dtr dtr' t t'}
    (h : linkValid lowest x deps rob dtr t = .ok (rob', dtr', t')) :
    rob'.map RobEntry.tag = rob.map RobEntry.tag := by
  induction deps generalizing rob dtr t with
  | nil =>
    cases h
    rfl
  | cons d deps ih =>
    rw [linkValid] at h
    split at h
    case isTrue =>
      split at h
      · exact ih h
      · cases h
    case isFalse =>
      obtain ⟨p, -, h⟩ := of_bind_ok h
      split at h
      case isTrue =>
        refine (ih h).trans ?_
        rw [updateEntry, List.map_map]
        refine List.map_congr_left fun q _ => ?_
        dsimp only [Function.comp]
        split <;> rfl
      case isFalse =>
        split at h
        · exact ih h
        · cases h

theorem setAddress_uop [DecidableEq Reg] {decoder registers rob lowest} {e e' : RobEntry Reg}
    (h : setAddress decoder registers rob lowest e = .ok e') : e'.uop = e.uop := by
  rw [setAddress] at h
  split at h
  case isTrue =>
    obtain ⟨e₁, hread, h⟩ := of_bind_ok h
    have hrest := (readAddress_ok hread).rest
    split at h
    case isTrue =>
      cases h
      rw [hrest]
    case isFalse =>
      cases h
      rw [hrest]
  case isFalse =>
    cases h
    rfl

theorem setDependencies_tags [DecidableEq Reg] {cfg} {v v' : RobTimer Reg K M} {e e' : RobEntry Reg}
    (h : setDependencies cfg v e = .ok (v', e')) :
    e'.fetch = e.fetch ∧ v'.rob.map RobEntry.tag = v.rob.map RobEntry.tag ∧
    v' = { v with
      rob := v'.rob
      registerDependencies := v'.registerDependencies
      memoryDependencies := v'.memoryDependencies } := by
  obtain ⟨e₁, haddr, h⟩ := of_bind_ok h
  obtain ⟨⟨registers, uop₁⟩, hreg, h⟩ := of_bind_ok h
  obtain ⟨⟨memory, uop₂⟩, hmem, h⟩ := of_bind_ok h
  obtain ⟨uop₃, hforward, h⟩ := of_bind_ok h
  obtain ⟨⟨rob, dtr, readyMax⟩, hlink, h⟩ := of_bind_ok h
  obtain ⟨uop₄, hremove, h⟩ := of_bind_ok h
  cases h
  refine ⟨?_, linkValid_tags hlink, rfl⟩
  have hrewired := (((Rewired.setRegisters hreg).trans (.setMemory hmem)).trans
    (.forward hforward)).trans (.removeAll hremove)
  exact hrewired.fetch.trans (congrArg Fetch.of (setAddress_uop haddr))

namespace Dispatch
variable {cfg : Config Reg K M} {d d₁ d' : Dispatch Reg K M} [DecidableEq Reg]

/-- The front end, with what it has done so far. -/
def front (d : Dispatch Reg K M) (trace : List FrontEvent) : FrontEnd where
  waiting := d.prerob.map RobEntry.fetch
  frontend_stalled_until := d.timer.frontend_stalled_until
  in_icache_miss := d.timer.in_icache_miss
  cpiFrontEnd := none
  trace := trace

def fetched (d : Dispatch Reg K M) (fetch : Fetch) : Dispatch Reg K M :=
  { d with timer := d.timer.fetched fetch }

/-- All that the thread has in the reorder buffer is dispatched. -/
def Filled (d : Dispatch Reg K M) : Prop := d.timer.m_num_in_rob = d.timer.rob.length

/-- What dispatching one micro-op does to the front end. -/
structure Nexted (d d₁ : Dispatch Reg K M) (e : RobEntry Reg) (prerob : List (RobEntry Reg)) :
    Prop where
  prerob : d₁.prerob = prerob
  num_in_rob : d₁.timer.m_num_in_rob = d.timer.m_num_in_rob + 1
  rs_entries : d₁.timer.m_rs_entries_used = d.timer.m_rs_entries_used + 1
  uops : d₁.uops_dispatched = d.uops_dispatched + 1
  now : d₁.timer.now = d.timer.now
  period : d₁.timer.period = d.timer.period
  stalled : d₁.timer.frontend_stalled_until = d.timer.frontend_stalled_until
  icache : d₁.timer.in_icache_miss = d.timer.in_icache_miss
  filled : d.Filled → d₁.Filled
  unresolved : d.Filled → d₁.timer.unresolved ≤
    d.timer.unresolved + if e.fetch.mispredicted then 1 else 0

theorem next_nexted {e prerob} (h : d.next cfg e prerob = .ok d₁) : Nexted d d₁ e prerob := by
  obtain ⟨⟨v, e'⟩, hset, h⟩ := of_bind_ok h
  cases h
  obtain ⟨hfetch, htags, hv⟩ := setDependencies_tags hset
  have hnum : v.m_num_in_rob = d.timer.m_num_in_rob := by rw [hv]
  have hlength : v.rob.length = d.timer.rob.length := by
    simpa using congrArg List.length htags
  refine ⟨rfl, congrArg (· + 1) hnum, ?_, rfl, ?_, ?_, ?_, ?_, fun hfilled => ?_,
    fun hfilled => ?_⟩
  · show v.m_rs_entries_used + 1 = _
    rw [hv]
  · show v.now = _
    rw [hv]
  · show v.period = _
    rw [hv]
  · show v.frontend_stalled_until = _
    rw [hv]
  · show v.in_icache_miss = _
    rw [hv]
  · rw [Filled] at hfilled ⊢
    simp [hnum, hlength, hfilled]
  · rw [Filled] at hfilled
    have hall : d.timer.unresolved = v.rob.countP RobEntry.unresolved := by
      rw [RobTimer.unresolved_eq, hfilled, ← List.length_map (f := RobEntry.tag),
        List.take_length, ← htags, List.countP_map]
      rfl
    have hlast : ∀ x : RobEntry Reg, x.fetch = e.fetch →
        [x].countP RobEntry.unresolved ≤ if e.fetch.mispredicted then 1 else 0 := by
      intro x hx
      rw [List.countP_singleton, RobEntry.unresolved, hx]
      cases e.fetch.mispredicted with
      | true =>
        rw [if_pos rfl]
        split <;> omega
      | false => simp
    rw [hall, RobTimer.unresolved, hnum, hfilled, ← hlength]
    rw [List.take_of_length_le (by simp), List.countP_append]
    exact Nat.add_le_add_left (hlast _ hfetch) _

/-- What the loop of `tryDispatch` does with a micro-op. -/
inductive Round (cfg : Config Reg K M) (window : Nat) (d d' : Dispatch Reg K M)
    (e : RobEntry Reg) (prerob : List (RobEntry Reg)) (width : Nat) : Prop
  | stall (hmiss : e.fetch.iCacheMiss ∧ d.timer.in_icache_miss = false)
      (hd' : d' = { d with timer := { d.timer with
        frontend_stalled_until :=
          ((d.timer.now + e.fetch.iCacheLatency * d.timer.period : Nat) : Time)
        in_icache_miss := true } })
  | full (hmiss : ¬ (e.fetch.iCacheMiss ∧ d.timer.in_icache_miss = false))
      (hfull : d.timer.m_rs_entries_used = cfg.rsEntries) (hd' : d' = d.fetched e.fetch)
  | mispredicted (hmiss : ¬ (e.fetch.iCacheMiss ∧ d.timer.in_icache_miss = false))
      (hfull : d.timer.m_rs_entries_used ≠ cfg.rsEntries) (hbranch : e.fetch.mispredicted = true)
      (d₁ : Dispatch Reg K M) (hnext : Nexted (d.fetched e.fetch) d₁ e prerob)
      (hd' : d' = { d₁ with timer := { d₁.timer with frontend_stalled_until := ⊤ } })
  | next (hmiss : ¬ (e.fetch.iCacheMiss ∧ d.timer.in_icache_miss = false))
      (hfull : d.timer.m_rs_entries_used ≠ cfg.rsEntries) (hbranch : e.fetch.mispredicted = false)
      (d₁ : Dispatch Reg K M) (hnext : Nexted (d.fetched e.fetch) d₁ e prerob)
      (hd' : dispatchThread cfg window width d₁ = .ok d')

end Dispatch

section Loop
variable {cfg : Config Reg K M} {window width : Nat} {d d' : Dispatch Reg K M} [DecidableEq Reg]

theorem dispatchThread_zero (h : dispatchThread cfg window 0 d = .ok d') : d' = d := by
  rw [dispatchThread.eq_def] at h
  dsimp only at h
  split at h
  · cases h
    rfl
  · split at h
    · cases h
    · cases h
      rfl

theorem dispatchThread_succ (h : dispatchThread cfg window (width + 1) d = .ok d') :
    window ≤ d.timer.m_num_in_rob ∧ d' = d ∨
    d.timer.m_num_in_rob < window ∧ ∃ e prerob, d.prerob = e :: prerob ∧
      Dispatch.Round cfg window d d' e prerob width := by
  rw [dispatchThread.eq_def] at h
  dsimp only at h
  split at h
  case isTrue hwindow =>
    cases h
    exact .inl ⟨hwindow, rfl⟩
  case isFalse hwindow =>
    refine .inr ⟨Nat.lt_of_not_le hwindow, ?_⟩
    split at h
    case h_1 => cases h
    case h_2 e prerob hprerob =>
      refine ⟨e, prerob, hprerob, ?_⟩
      have hfetched : (if e.uop.iCacheHitWhere ≠ .L1I then
          { d with timer := { d.timer with in_icache_miss := false } } else d) =
          d.fetched e.fetch := by
        rw [Dispatch.fetched, ← fetched_eq]
        split <;> rfl
      rw [hfetched] at h
      split at h
      case isTrue hmiss =>
        cases h
        exact .stall hmiss rfl
      case isFalse hmiss =>
        split at h
        case isTrue hfull =>
          cases h
          exact .full hmiss hfull rfl
        case isFalse hfull =>
          obtain ⟨d₁, hnext, h⟩ := of_bind_ok h
          have hnexted := Dispatch.next_nexted hnext
          split at h
          case isTrue hbranch =>
            cases h
            exact .mispredicted hmiss hfull hbranch d₁ hnexted rfl
          case isFalse hbranch =>
            exact .next hmiss hfull (Bool.not_eq_true _ ▸ hbranch) d₁ hnexted h

theorem dispatchThread_frontEnd (trace : List FrontEvent)
    (h : dispatchThread cfg window width d = .ok d') :
    d'.front (frontEnd window cfg.rsEntries d.timer.now d.timer.period width
        d.timer.m_num_in_rob d.timer.m_rs_entries_used (d.front trace)).trace =
      { frontEnd window cfg.rsEntries d.timer.now d.timer.period width d.timer.m_num_in_rob
        d.timer.m_rs_entries_used (d.front trace) with cpiFrontEnd := none } := by
  induction width generalizing d trace with
  | zero =>
    rw [frontEnd_zero, dispatchThread_zero h]
    rfl
  | succ width ih =>
    rw [frontEnd.eq_def]
    dsimp only
    obtain ⟨hwindow, rfl⟩ | ⟨hwindow, e, prerob, hprerob, hround⟩ := dispatchThread_succ h
    · rw [if_pos hwindow]
      rfl
    · rw [if_neg (Nat.not_le.mpr hwindow)]
      have hwaiting : (d.front trace).waiting = e.fetch :: prerob.map RobEntry.fetch := by
        rw [Dispatch.front, hprerob]
        rfl
      split
      case h_1 hnil => cases hwaiting.symm.trans hnil
      case h_2 fetch waiting hcons =>
        obtain ⟨rfl, rfl⟩ := List.cons.inj (hwaiting.symm.trans hcons)
        have hfetched : (if e.fetch.iCacheMiss then
            { d.front trace with in_icache_miss := false } else d.front trace) =
            (d.fetched e.fetch).front trace := by
          by_cases hmiss : e.fetch.iCacheMiss
          all_goals simp [hmiss, Dispatch.front, Dispatch.fetched, RobTimer.fetched]
        have hflag : (d.front trace).in_icache_miss = d.timer.in_icache_miss := rfl
        rw [hfetched, hflag]
        cases hround with
        | stall hmiss hd' =>
          rw [if_pos hmiss, hd']
          rfl
        | full hmiss hfull hd' =>
          rw [if_neg hmiss, if_pos hfull, hd']
          rfl
        | mispredicted hmiss hfull hbranch d₁ hnext hd' =>
          rw [if_neg hmiss, if_neg hfull, if_pos hbranch, hd', ← hnext.prerob]
          simp only [Dispatch.front, hnext.icache]
        | next hmiss hfull hbranch d₁ hnext hd' =>
          rw [if_neg hmiss, if_neg hfull, if_neg (by simp [hbranch])]
          have hrest := ih (trace ++ [.dispatched e.fetch d.timer.now]) hd'
          have hfront : d₁.front (trace ++ [.dispatched e.fetch d.timer.now]) =
              { (d.fetched e.fetch).front (trace ++ [.dispatched e.fetch d.timer.now]) with
                waiting := prerob.map RobEntry.fetch } := by
            simp only [Dispatch.front, hnext.prerob, hnext.stalled, hnext.icache]
          rw [hnext.now, hnext.period, hnext.num_in_rob, hnext.rs_entries, hfront] at hrest
          exact hrest

theorem dispatchThread_braked (hfilled : d.Filled) (hzero : d.timer.unresolved = 0)
    (h : dispatchThread cfg window width d = .ok d') : d'.Filled ∧ Braked d'.timer := by
  have hbraked : ∀ {v : RobTimer Reg K M}, v.unresolved = 0 → Braked v :=
    fun hzero => ⟨by omega, fun hne => absurd hzero hne⟩
  induction width generalizing d with
  | zero => exact dispatchThread_zero h ▸ ⟨hfilled, hbraked hzero⟩
  | succ width ih =>
    obtain ⟨-, rfl⟩ | ⟨-, e, prerob, -, hround⟩ := dispatchThread_succ h
    · exact ⟨hfilled, hbraked hzero⟩
    · have hzero₁ : (d.fetched e.fetch).timer.unresolved = 0 := hzero
      cases hround with
      | stall hmiss hd' | full hmiss hfull hd' => exact hd' ▸ ⟨hfilled, hbraked hzero⟩
      | mispredicted hmiss hfull hbranch d₁ hnext hd' =>
        have hone := hnext.unresolved hfilled
        rw [if_pos hbranch, hzero₁] at hone
        rw [hd']
        exact ⟨hnext.filled hfilled, hone, fun _ => rfl⟩
      | next hmiss hfull hbranch d₁ hnext hd' =>
        have hnone := hnext.unresolved hfilled
        rw [if_neg (by simp [hbranch]), hzero₁] at hnone
        exact ih (hnext.filled hfilled) (Nat.le_zero.mp hnone) hd'

theorem dispatchThread_count (h : dispatchThread cfg window width d = .ok d') :
    d.uops_dispatched ≤ d'.uops_dispatched ∧
    d'.timer.m_rs_entries_used + d.uops_dispatched =
      d.timer.m_rs_entries_used + d'.uops_dispatched := by
  induction width generalizing d with
  | zero => exact dispatchThread_zero h ▸ ⟨Nat.le_refl _, rfl⟩
  | succ width ih =>
    obtain ⟨-, rfl⟩ | ⟨-, e, prerob, -, hround⟩ := dispatchThread_succ h
    · exact ⟨Nat.le_refl _, rfl⟩
    · cases hround with
      | stall hmiss hd' | full hmiss hfull hd' => exact hd' ▸ ⟨Nat.le_refl _, rfl⟩
      | mispredicted hmiss hfull hbranch d₁ hnext hd' =>
        have huops : d₁.uops_dispatched = d.uops_dispatched + 1 := hnext.uops
        have hrs : d₁.timer.m_rs_entries_used = d.timer.m_rs_entries_used + 1 := hnext.rs_entries
        rw [hd']
        dsimp only
        omega
      | next hmiss hfull hbranch d₁ hnext hd' =>
        have huops : d₁.uops_dispatched = d.uops_dispatched + 1 := hnext.uops
        have hrs : d₁.timer.m_rs_entries_used = d.timer.m_rs_entries_used + 1 := hnext.rs_entries
        obtain ⟨hle, heq⟩ := ih hd'
        omega

end Loop

/-! ### The core -/

theorem Braked.view {v : RobTimer Reg K M} (h : Braked v) (hnum : v.m_num_in_rob = v.rob.length)
    {s : RobSmtTimer n Reg K M} {t} (hrob : (s.m_rob_threads t).rob = v.rob)
    (hstalled : (s.m_rob_threads t).frontend_stalled_until = v.frontend_stalled_until) :
    Braked (s.view t) := by
  have hunresolved : (s.view t).unresolved = v.unresolved := by
    simp only [RobTimer.unresolved, RobSmtTimer.view, hrob, hnum]
  exact ⟨hunresolved ▸ h.one, fun hne => hstalled.trans (h.stalled (hunresolved ▸ hne))⟩

namespace RobSmtTimer
variable {cfg : SmtConfig n Reg K M} {s s' s'' : RobSmtTimer n Reg K M} {t : Fin n}

/-- The front end of a thread, with what it has done so far. -/
def front (s : RobSmtTimer n Reg K M) (t : Fin n) (trace : List FrontEvent) : FrontEnd where
  waiting := (s.m_rob_threads t).prerob.map RobEntry.fetch
  frontend_stalled_until := (s.m_rob_threads t).frontend_stalled_until
  in_icache_miss := (s.m_rob_threads t).in_icache_miss
  cpiFrontEnd := none
  trace := trace

/-- The loop of the front end, from the state of the core. -/
def frontEnd (cfg : SmtConfig n Reg K M) (s : RobSmtTimer n Reg K M) (t : Fin n)
    (trace : List FrontEvent) : FrontEnd :=
  Rob.frontEnd s.currentWindowSize cfg.rsEntries s.now s.period cfg.dispatchWidth
    (s.m_rob_threads t).rob.length s.m_rs_entries_used (s.front t trace)

/-- What a dispatch from a thread does to the front ends. -/
structure Tried (cfg : SmtConfig n Reg K M) (s s' : RobSmtTimer n Reg K M) (t : Fin n)
    (hasDispatched : Bool) : Prop where
  front : ∀ trace, s'.front t (s.frontEnd cfg t trace).trace =
    { s.frontEnd cfg t trace with cpiFrontEnd := none }
  others : ∀ u, u ≠ t → s'.m_rob_threads u = s.m_rob_threads u
  running : (s'.m_rob_threads t).running = (s.m_rob_threads t).running
  clock : (s'.m_rob_threads t).now = (s.m_rob_threads t).now
  now : s'.now = s.now
  period : s'.period = s.period
  window : s'.currentWindowSize = s.currentWindowSize
  rs_entries : hasDispatched = false → s'.m_rs_entries_used = s.m_rs_entries_used
  braked : (s.m_rob_threads t).frontend_stalled_until ≠ ⊤ → Braked (s.view t) → Braked (s'.view t)

theorem tryDispatch_tried [DecidableEq Reg] {next_event next_event' hasDispatched}
    (h : s.tryDispatch cfg t next_event = .ok (s', hasDispatched, next_event')) :
    Tried cfg s s' t hasDispatched := by
  obtain ⟨d, hloop, h⟩ := of_bind_ok h
  cases h
  refine ⟨fun trace => ?_, fun u hu => ?_, ?_, ?_, rfl, rfl, rfl, fun hnone => ?_,
    fun hne hbraked => ?_⟩
  · have hfront := dispatchThread_frontEnd trace hloop
    refine Eq.trans ?_ hfront
    simp only [RobSmtTimer.front, Dispatch.front, setThread, put, Function.update_self]
    rfl
  · simp [setThread, put, hu]
  · simp [setThread, put]
  · simp [setThread, put]
  · have hcount := (dispatchThread_count hloop).2
    have huops : d.uops_dispatched = 0 := by simpa using hnone
    rw [huops] at hcount
    exact hcount
  · have hzero : (s.view t).unresolved = 0 := by
      by_contra hpos
      exact hne (hbraked.stalled hpos)
    obtain ⟨hfilled, hd⟩ := dispatchThread_braked (by exact rfl) hzero hloop
    refine hd.view hfilled ?_ ?_
    · simp [setThread, put]
    · simp [setThread, put]

/-- Nothing is done to the front end of a thread; a branch may be resolved. -/
structure Calm (s s' : RobSmtTimer n Reg K M) (t : Fin n) : Prop where
  prerob : (s'.m_rob_threads t).prerob = (s.m_rob_threads t).prerob
  icache : (s'.m_rob_threads t).in_icache_miss = (s.m_rob_threads t).in_icache_miss
  braked : Braked (s.view t) → Braked (s'.view t)
  stalled : Braked (s.view t) → (s.m_rob_threads t).frontend_stalled_until ≠ ⊤ →
    (s'.m_rob_threads t).frontend_stalled_until = (s.m_rob_threads t).frontend_stalled_until

namespace Calm

theorem trans (h : Calm s s' t) (h' : Calm s' s'' t) : Calm s s'' t := by
  refine ⟨h'.prerob.trans h.prerob, h'.icache.trans h.icache, fun hb => h'.braked (h.braked hb),
    fun hb hne => ?_⟩
  have heq := h.stalled hb hne
  exact (h'.stalled (h.braked hb) (heq ▸ hne)).trans heq

theorem of_eq (hrob : (s'.m_rob_threads t).rob = (s.m_rob_threads t).rob)
    (hprerob : (s'.m_rob_threads t).prerob = (s.m_rob_threads t).prerob)
    (hstalled : (s'.m_rob_threads t).frontend_stalled_until =
      (s.m_rob_threads t).frontend_stalled_until)
    (hicache : (s'.m_rob_threads t).in_icache_miss = (s.m_rob_threads t).in_icache_miss) :
    Calm s s' t := by
  exact ⟨hprerob, hicache, fun hb => hb.view rfl hrob hstalled, fun _ _ => hstalled⟩

theorem of_thread (h : s'.m_rob_threads t = s.m_rob_threads t) : Calm s s' t :=
  of_eq (by rw [h]) (by rw [h]) (by rw [h]) (by rw [h])

theorem within (h : Calm s s' t) {s₀ s₁ : RobSmtTimer n Reg K M}
    (hs : s.m_rob_threads t = s₀.m_rob_threads t)
    (hs' : s₁.m_rob_threads t = s'.m_rob_threads t) : Calm s₀ s₁ t :=
  ((of_thread hs).trans h).trans (of_thread hs')

theorem of_quiet {v : RobTimer Reg K M} (h : Quiet (s.view t) v)
    (hnum : v.m_num_in_rob = v.rob.length) (hrob : (s'.m_rob_threads t).rob = v.rob)
    (hprerob : (s'.m_rob_threads t).prerob = (s.m_rob_threads t).prerob)
    (hstalled : (s'.m_rob_threads t).frontend_stalled_until = v.frontend_stalled_until)
    (hicache : (s'.m_rob_threads t).in_icache_miss = v.in_icache_miss) : Calm s s' t := by
  exact ⟨hprerob, hicache.trans h.icache, fun hb => (h.braked hb).view hnum hrob hstalled,
    fun hb hne => hstalled.trans (h.stalled hb hne)⟩

end Calm

section Stages

theorem tryIssue_calm [DecidableEq Reg] (h : SmtInv cfg.decoder s)
    {u next_event next_event' hasIssued}
    (hs : s.tryIssue cfg u next_event = .ok (s', hasIssued, next_event')) :
    Calm s s' t := by
  obtain ⟨⟨v, thread_next_event⟩, hloop, hs⟩ := of_bind_ok hs
  cases hs
  by_cases ht : t = u
  · subst ht
    have hnumbered : Numbered (s.view t).rob := by
      obtain ⟨cfg', base, rs, hinv⟩ := (h t).inv.loose
      exact hinv.numbered
    have hquiet : Quiet (s.view t) v :=
      issueLoop_quiet hnumbered (Nat.le_of_eq (Nat.zero_add _)) hloop
    obtain ⟨-, hlength, hnum, -⟩ :=
      (h t).inv.loose.issueLoop (Nat.le_of_eq (Nat.zero_add _)) hloop
    refine Calm.of_quiet hquiet ?_ ?_ ?_ ?_ ?_
    · rw [hnum, hlength]
      rfl
    all_goals simp [setThread, put]
  · exact .of_thread (by simp [setThread, put, ht])

theorem issueThreads_calm [DecidableEq Reg] {threads} (h : SmtInv cfg.decoder s)
    {thread_first thread_num next_event next_event'}
    (hs : issueThreads cfg thread_first threads s next_event = .ok (s', thread_num, next_event')) :
    Calm s s' t := by
  induction threads generalizing s next_event with
  | nil =>
    cases hs
    exact .of_thread rfl
  | cons u threads ih =>
    rw [issueThreads] at hs
    split at hs
    case isTrue =>
      obtain ⟨⟨s₁, hasIssued, next_event₁⟩, hissue, hs⟩ := of_bind_ok hs
      have hcalm : Calm s s₁ t := tryIssue_calm h hissue
      dsimp only at hs
      split at hs
      case isTrue =>
        cases hs
        exact hcalm
      case isFalse => exact hcalm.trans (ih (tryIssue_ok h hissue).1 hs)
    case isFalse => exact ih h hs

theorem commit_calm (h : SmtInv cfg.decoder s) (u : Fin n) : Calm s (s.commit cfg u) t := by
  by_cases ht : t = u
  · subst ht
    have hwaiting : ∀ e ∈ (s.m_rob_threads t).rob.drop (s.view t).m_num_in_rob, e.done = ⊤ := by
      intro e he
      have hnil : (s.m_rob_threads t).rob.drop (s.view t).m_num_in_rob = [] := List.drop_length
      rw [hnil] at he
      cases he
    have hquiet : Quiet (s.view t)
        (commitLoop (cfg.thread t) (s.view t) (s.m_rob_threads t).rob 0) :=
      commitLoop_quiet hwaiting 0
    refine Calm.of_quiet hquiet (Loose.commitLoop (h t).inv.loose rfl 0).2.1 ?_ ?_ ?_ ?_
    all_goals simp [commit, setThread, put]
  · exact .of_thread (by simp [commit, setThread, put, ht])

theorem commits_calm (threads : List (Fin n)) (h : SmtInv cfg.decoder s) :
    Calm s (threads.foldl (commit cfg) s) t := by
  induction threads generalizing s with
  | nil => exact .of_thread rfl
  | cons u threads ih => exact (commit_calm h u).trans (ih (commit_ok h u).1)

variable [NeZero n]

theorem doIssue_calm [DecidableEq Reg] (h : SmtInv cfg.decoder s) {t'}
    (hs : s.doIssue cfg = .ok (s', t')) :
    Calm s s' t := by
  have hports : ∀ contention, SmtInv cfg.decoder { s with contention := contention } :=
    fun _ => h.tick rfl (Nat.le_refl _)
  obtain ⟨⟨s₁, thread_num, t₁⟩, hloop, hs⟩ := of_bind_ok hs
  cases hs
  exact (issueThreads_calm (hports _) hloop).within rfl rfl

end Stages

end RobSmtTimer

end Sniper.Timing.Rob
