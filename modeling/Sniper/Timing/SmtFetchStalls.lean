import Mathlib.Algebra.Group.Fin.Basic
import Sniper.Timing.FetchStalls
import Sniper.Timing.SmtFrontEnd

/-! # The stalls of an SMT core for instruction cache misses

As for `RobTimer`: a thread stalls once for each of its micro-ops that missed, in every run in
which no thread returns from a miss while the reservation stations are full.
-/
namespace Sniper.Timing.Rob
open Lib.Simulation Function

variable {n : Nat} {Reg K M : Type}

/-- The fetches of the micro-ops that a call gives to a thread; squashed ones are left out. -/
def SmtCall.fetches (t : Fin n) : SmtCall n Reg → List Fetch
  | .pushInstructions thread_id insts =>
    if t = thread_id then (insts.filter fun uop => !uop.squashed).map Fetch.of else []
  | _ => []

/-- A core with the micro-ops that have entered its threads and what their front ends have done. -/
structure SmtFetching (n : Nat) (Reg K M : Type) where
  timer : RobSmtTimer n Reg K M
  entered : Fin n → List Fetch
  trace : Fin n → List FrontEvent

namespace RobSmtTimer
/-- A thread that may dispatch returns from a miss to full reservation stations. -/
def returnsToFull (cfg : SmtConfig n Reg K M) (s : RobSmtTimer n Reg K M) : Bool :=
  s.canExecute cfg && decide (s.m_rs_entries_used = cfg.rsEntries) &&
    (List.finRange n).any fun t => s.mayDispatch t && (s.m_rob_threads t).in_icache_miss

/-- What the front ends do in the loop of `doDispatch`. -/
def traceLoop [DecidableEq Reg] (cfg : SmtConfig n Reg K M) : List (Fin n) → RobSmtTimer n Reg K M →
    Option (Fin n) → Time → (Fin n → List FrontEvent) → Fin n → List FrontEvent
  | [], _, _, _, trace => trace
  | thread_num :: rest, s, dispatched_from, next_event, trace =>
    if s.mayDispatch thread_num ∧ dispatched_from = none then
      match s.tryDispatch cfg thread_num next_event with
      | .error _ => trace
      | .ok (s', hasDispatched, next_event) =>
        traceLoop cfg rest s' (if hasDispatched then some thread_num else none) next_event
          (update trace thread_num (s.frontEnd cfg thread_num (trace thread_num)).trace)
    else traceLoop cfg rest s dispatched_from next_event trace

end RobSmtTimer

namespace SmtFetching
variable [DecidableEq Reg] [NeZero n]

def exec (cfg : SmtConfig n Reg K M) (w : SmtFetching n Reg K M) (call : SmtCall n Reg) :
    Except Stop (SmtFetching n Reg K M) :=
  (w.timer.exec cfg call).map fun timer =>
    { timer := timer
      entered := fun t => w.entered t ++ call.fetches t
      trace := match call with
        | .executeCycle =>
          if w.timer.canExecute cfg then
            RobSmtTimer.traceLoop cfg (RobSmtTimer.threadsFrom w.timer.dispatch_thread) w.timer none
              ⊤ w.trace
          else w.trace
        | _ => w.trace }

structure Init (cfg : SmtConfig n Reg K M) (w : SmtFetching n Reg K M) : Prop where
  timer : RobSmtTimer.Init cfg w.timer
  entered : ∀ t, w.entered t = []
  trace : ∀ t, w.trace t = []

/-- A step at which no thread returns to full reservation stations. -/
def Step (cfg : SmtConfig n Reg K M) (w w' : SmtFetching n Reg K M) : Prop :=
  ∃ call, RobSmtTimer.Allowed cfg call ∧
    (call = .executeCycle → w.timer.returnsToFull cfg = false) ∧ w.exec cfg call = .ok w'

end SmtFetching

/-! ### The dispatch stage -/

namespace RobSmtTimer
theorem threadsFrom_nodup [NeZero n] (first : Fin n) : (threadsFrom first).Nodup :=
  (List.nodup_finRange n).map (add_right_injective first)

section Dispatch
variable {cfg : SmtConfig n Reg K M} {s s' : RobSmtTimer n Reg K M}
  {entered : Fin n → List Fetch} {trace : Fin n → List FrontEvent}

theorem Calm.once {t fetches events} (h : Calm s s' t) (hbraked : Braked (s.view t))
    (honce : StalledOnce fetches (s.front t events)) : StalledOnce fetches (s'.front t events) := by
  have hwait : StalledOnce (fetches ++ []) (s'.front t events) := by
    refine honce.wait ?_ h.icache rfl fun _ => h.stalled hbraked
    rw [List.append_nil]
    exact congrArg (List.map RobEntry.fetch) h.prerob
  rwa [List.append_nil] at hwait

theorem traceLoop_once [DecidableEq Reg] {threads} (hnodup : threads.Nodup)
    {dispatched_from dispatched_from' next_event next_event'} (hbraked : ∀ t, Braked (s.view t))
    (honce : ∀ t, StalledOnce (entered t) (s.front t (trace t)))
    (hroom : dispatched_from = none → s.m_rs_entries_used = cfg.rsEntries →
      ∀ t ∈ threads, s.mayDispatch t = true → (s.m_rob_threads t).in_icache_miss = false)
    (h : dispatchLoop cfg threads s dispatched_from next_event =
      .ok (s', dispatched_from', next_event')) :
    (∀ t, Braked (s'.view t)) ∧ ∀ t, StalledOnce (entered t)
      (s'.front t (traceLoop cfg threads s dispatched_from next_event trace t)) := by
  induction threads generalizing s dispatched_from next_event trace with
  | nil =>
    cases h
    exact ⟨hbraked, honce⟩
  | cons t threads ih =>
    obtain ⟨hnot, hnodup⟩ := List.nodup_cons.mp hnodup
    rw [dispatchLoop] at h
    rw [traceLoop]
    split at h
    case isFalse hskip =>
      rw [if_neg hskip]
      exact ih hnodup hbraked honce
        (fun hnone hfull u hu => hroom hnone hfull u (.tail _ hu)) h
    case isTrue htry =>
      rw [if_pos htry]
      obtain ⟨⟨s₁, hasDispatched, next_event₁⟩, hdispatch, h⟩ := of_bind_ok h
      have htried := tryDispatch_tried hdispatch
      have hmay := htry.1
      simp only [mayDispatch, Bool.and_eq_true, decide_eq_true_eq] at hmay
      obtain ⟨⟨⟨hstalled, -⟩, -⟩, -⟩ := hmay
      simp only [hdispatch]
      refine ih hnodup (fun u => ?_) (fun u => ?_) (fun hnone hfull u hu hmay => ?_) h
      · by_cases hu : u = t
        · subst hu
          refine htried.braked (fun htop => ?_) (hbraked u)
          rw [htop] at hstalled
          exact time_ne_top s.now (top_le_iff.mp hstalled)
        · exact (Calm.of_thread (htried.others u hu)).braked (hbraked u)
      · by_cases hu : u = t
        · subst hu
          rw [update_self, htried.front]
          have hfront : StalledOnce (entered u) (s.frontEnd cfg u (trace u)) := by
            refine (honce u).frontEnd hstalled fun hflag _ hfull => ?_
            have hflag : (s.m_rob_threads u).in_icache_miss = true := hflag
            rw [hroom htry.2 hfull u (.head _) htry.1] at hflag
            exact Bool.false_ne_true hflag
          obtain ⟨dispatched, events, hentered, hserved, hrest⟩ := hfront
          exact ⟨dispatched, events, hentered, hserved, hrest⟩
        · rw [update_of_ne hu]
          exact (Calm.of_thread (htried.others u hu)).once (hbraked u) (honce u)
      · have hut : u ≠ t := fun heq => hnot (heq ▸ hu)
        cases hasDispatched with
        | true => cases hnone
        | false =>
          rw [htried.rs_entries rfl] at hfull
          rw [htried.others u hut]
          refine hroom htry.2 hfull u (.tail _ hu) ?_
          rw [mayDispatch, htried.others u hut, htried.now, htried.window] at hmay
          exact hmay

end Dispatch
end RobSmtTimer

/-! ### Runs -/

namespace SmtFetching
open RobSmtTimer
variable {cfg : SmtConfig n Reg K M} {w w' : SmtFetching n Reg K M}

structure Sound (cfg : SmtConfig n Reg K M) (w : SmtFetching n Reg K M) : Prop where
  inv : SmtInv cfg.decoder w.timer
  braked : ∀ t, Braked (w.timer.view t)
  once : ∀ t, StalledOnce (w.entered t) (w.timer.front t (w.trace t))

theorem Sound.init (h : Init cfg w) : Sound cfg w := by
  refine ⟨h.timer.inv, fun t => ⟨?_, fun hne => absurd ?_ hne⟩, fun t => ⟨[], [], ?_, .nil, ?_⟩⟩
  · simp [RobTimer.unresolved, view, h.timer.threads t]
  · simp [RobTimer.unresolved, view, h.timer.threads t]
  · simp [front, h.timer.threads t, h.entered t]
  · simp [front, h.timer.threads t, h.trace t]

theorem Sound.calm (h : Sound cfg w) (hinv : SmtInv cfg.decoder w'.timer)
    (hcalm : ∀ t, Calm w.timer w'.timer t) (hentered : w'.entered = w.entered)
    (htrace : w'.trace = w.trace) : Sound cfg w' := by
  refine ⟨hinv, fun t => (hcalm t).braked (h.braked t), fun t => ?_⟩
  rw [hentered, htrace]
  exact (hcalm t).once (h.braked t) (h.once t)

theorem setThread_calm {s : RobSmtTimer n Reg K M} {t u running now clock s'}
    (hs' : s' = { s.setThread u
      { s.m_rob_threads u with running := running, now := clock } with now := now }) :
    Calm s s' t := by
  subst hs'
  by_cases ht : t = u
  · subst ht
    exact .of_eq (by simp [setThread]) (by simp [setThread]) (by simp [setThread])
      (by simp [setThread])
  · exact .of_thread (by simp [setThread, ht])

theorem pushInstructions_once {s s' : RobSmtTimer n Reg K M} {thread_id : Fin n}
    {insts : List (DynamicMicroOp Reg)} {entered : Fin n → List Fetch}
    {trace : Fin n → List FrontEvent} (hbraked : ∀ t, Braked (s.view t))
    (honce : ∀ t, StalledOnce (entered t) (s.front t (trace t)))
    (hs : pushInstructions cfg thread_id insts s = .ok s') :
    (∀ t, Braked (s'.view t)) ∧ ∀ t, StalledOnce
      (entered t ++ (SmtCall.pushInstructions thread_id insts).fetches t)
      (s'.front t (trace t)) := by
  induction insts generalizing s entered with
  | nil =>
    cases hs
    refine ⟨hbraked, fun t => ?_⟩
    simpa [SmtCall.fetches] using honce t
  | cons uop insts ih =>
    rw [pushInstructions] at hs
    split at hs
    case isTrue hsquashed =>
      obtain ⟨hbraked', honce'⟩ := ih hbraked honce hs
      refine ⟨hbraked', fun t => ?_⟩
      simpa [SmtCall.fetches, hsquashed] using honce' t
    case isFalse hsquashed =>
      dsimp only at hs
      split at hs
      case isTrue => cases hs
      case isFalse =>
        have hstep : ∀ t, (if t = thread_id then [Fetch.of uop] else []) ++
            (SmtCall.pushInstructions thread_id insts).fetches t =
            (SmtCall.pushInstructions thread_id (uop :: insts)).fetches t := by
          intro t
          by_cases ht : t = thread_id
          · simp [SmtCall.fetches, ht, hsquashed]
          · simp [SmtCall.fetches, ht]
        have hrest : (∀ t, Braked (s'.view t)) ∧ ∀ t, StalledOnce
            ((entered t ++ if t = thread_id then [Fetch.of uop] else []) ++
              (SmtCall.pushInstructions thread_id insts).fetches t)
            (s'.front t (trace t)) := by
          refine ih (fun t => ?_) (fun t => ?_) hs
          · by_cases ht : t = thread_id
            · subst ht
              exact (hbraked t).view rfl (by simp [setThread]; rfl) (by simp [setThread]; rfl)
            · exact (Calm.of_thread (by simp [setThread, ht])).braked (hbraked t)
          · by_cases ht : t = thread_id
            · subst ht
              rw [if_pos rfl]
              refine (honce t).wait ?_ ?_ rfl fun _ _ => ?_
              · simp [front, setThread]
                rfl
              all_goals simp [front, setThread]
            · rw [if_neg ht, List.append_nil]
              exact (Calm.of_thread (by simp [setThread, ht])).once (hbraked t) (honce t)
        refine ⟨hrest.1, fun t => ?_⟩
        rw [← hstep, ← List.append_assoc]
        exact hrest.2 t

variable [DecidableEq Reg] [NeZero n]

theorem Sound.step (h : Sound cfg w) (hstep : Step cfg w w') : Sound cfg w' := by
  obtain ⟨call, ha, hfull, hw'⟩ := hstep
  obtain ⟨timer, htimer, rfl⟩ := of_map_ok hw'
  have hinv' := exec_ok h.inv ha htimer
  have hnone : w.entered = fun t => w.entered t ++ [] := by
    funext t
    rw [List.append_nil]
  cases call with
  | pushInstructions thread_id insts =>
    obtain ⟨hbraked, honce⟩ := pushInstructions_once h.braked h.once htimer
    exact ⟨hinv', hbraked, honce⟩
  | executeCycle =>
    rw [RobSmtTimer.exec] at htimer
    split at htimer
    case isFalse hcannot =>
      cases htimer
      exact h.calm hinv' (fun _ => .of_thread rfl) hnone.symm (if_neg hcannot)
    case isTrue hcan =>
      obtain ⟨⟨s₁, t₁⟩, hdispatch, hrest⟩ := of_bind_ok htimer
      obtain ⟨⟨s₂, t₂⟩, hissue, hlast⟩ := of_bind_ok hrest
      have hinv₁ := doDispatch_ok h.inv hdispatch
      have hinv₂ := doIssue_ok hinv₁ hissue
      obtain ⟨⟨s₀, dispatched_from, t₀⟩, hloop, hnext⟩ := of_bind_ok hdispatch
      cases hnext
      obtain ⟨hbraked, honce⟩ := traceLoop_once (threadsFrom_nodup _) h.braked h.once
        (fun _ hrs t _ hmay => by
          have hfull := hfull rfl
          refine Bool.eq_false_iff.mpr fun hflag => ?_
          have hany : ((List.finRange n).any fun t =>
              w.timer.mayDispatch t && (w.timer.m_rob_threads t).in_icache_miss) = true :=
            List.any_eq_true.mpr ⟨t, List.mem_finRange t, by simp [hmay, hflag]⟩
          rw [returnsToFull, hcan, hany, decide_eq_true hrs] at hfull
          cases hfull) hloop
      cases hlast
      have hcalm := fun t : Fin n =>
        (doIssue_calm (t := t) hinv₁ hissue).trans (commits_calm (List.finRange n) hinv₂)
      refine ⟨hinv', fun t => ?_, fun t => ?_⟩
      · refine Calm.braked ((hcalm t).within ?_ ?_) (hbraked t)
        · rfl
        · rfl
      · simp only [SmtCall.fetches, List.append_nil, hcan, if_true]
        refine Calm.once ((hcalm t).within ?_ ?_) (hbraked t) (honce t)
        · rfl
        · rfl
  | returnLatency thread_id | synchronize thread_id time | setRunning thread_id running =>
    cases htimer
    exact h.calm hinv' (fun t => setThread_calm rfl) hnone.symm rfl
  | notifyNumActiveThreadsChange | setPeriod period =>
    cases htimer
    exact h.calm hinv' (fun _ => .of_thread rfl) hnone.symm rfl

theorem stalledOnce (h : Reachable (Init cfg) (Step cfg) w) (t : Fin n) :
    StalledOnce (w.entered t) (w.timer.front t (w.trace t)) := by
  have hsound : Sound cfg w :=
    h.invariant (fun _ => Sound.init) fun _ _ hw hstep => hw.step hstep
  exact hsound.once t

end SmtFetching

/-- An instruction cache miss stalls the front end once, on either timer, along every run in which
the reservation stations are not full when the front end returns from a miss. -/
theorem icache_miss_stalls_once [DecidableEq Reg] [NeZero n] :
    (∀ (cfg : Config Reg K M) (w : Fetching Reg K M),
      Reachable (Fetching.Init cfg) (Fetching.Step cfg) w →
      StalledOnce w.entered (w.timer.front w.trace)) ∧
    ∀ (cfg : SmtConfig n Reg K M) (w : SmtFetching n Reg K M),
      Reachable (SmtFetching.Init cfg) (SmtFetching.Step cfg) w → ∀ t,
      StalledOnce (w.entered t) (w.timer.front t (w.trace t)) :=
  ⟨fun _ _ h => Fetching.stalledOnce h, fun _ _ h t => SmtFetching.stalledOnce h t⟩

/-! ### On small cores -/

/-- A micro-op whose instruction comes from behind the first-level cache, a cycle later. -/
def small.missed : DynamicMicroOp Nat :=
  { small.plain with iCacheHitWhere := .elsewhere 0, iCacheLatency := 1 }

/-- A long micro-op, one that needs its result, and one that missed. -/
def small.blocked : List (DynamicMicroOp Nat) :=
  [small.uop .execute [] [1] false 10, small.uop .execute [1] [2] false 1, small.missed,
    small.plain]

theorem small.blocked_allowed : ∀ uop ∈ small.blocked, Allowed small (.enter uop) := by
  have hmissed : Allowed small (.enter small.missed) := ⟨⟨nofun, nofun⟩, rfl⟩
  simp [small.blocked, hmissed, small.plain]

/-- A core that dispatches one micro-op in a cycle, with so many reservation stations. -/
def narrow (rsEntries : Nat) : Config Nat Unit Unit :=
  { small with dispatchWidth := 1, rsEntries := rsEntries }

def narrowPair (rsEntries : Nat) : SmtConfig 2 Nat Unit Unit :=
  { pair with dispatchWidth := 1, rsEntries := rsEntries }

def narrow.start : Fetching Nat Unit Unit := ⟨small.start, [], []⟩

def narrowPair.start : SmtFetching 2 Nat Unit Unit := ⟨pair.start, fun _ => [], fun _ => []⟩

theorem narrow.init (rsEntries : Nat) : Fetching.Init (narrow rsEntries) narrow.start :=
  ⟨⟨rfl, rfl, rfl, rfl, by decide, rfl, rfl, rfl, rfl, fun _ => rfl, rfl, rfl,
    by simp [narrow, small]⟩, rfl, rfl⟩

theorem narrowPair.init (rsEntries : Nat) :
    SmtFetching.Init (narrowPair rsEntries) narrowPair.start :=
  ⟨⟨fun _ => rfl, by simp [narrowPair.start, pair.start, narrowPair, pair, wide, small], rfl, rfl,
    by decide, rfl, by simp [narrowPair, pair, wide, small]⟩, fun _ => rfl, fun _ => rfl⟩

theorem narrowPair.allowed (rsEntries : Nat) : ∀ call ∈ pair.feed small.blocked 6,
    RobSmtTimer.Allowed (narrowPair rsEntries) call := by
  intro call hcall
  simp only [pair.feed, List.mem_cons, List.mem_replicate] at hcall
  obtain rfl | rfl | ⟨-, rfl⟩ := hcall
  · trivial
  · exact small.blocked_allowed
  · trivial

/-- A step, unless a front end returns to full reservation stations. -/
def narrow.checked (rsEntries : Nat) (w : Fetching Nat Unit Unit) (call : Call Nat) :
    Except Stop (Fetching Nat Unit Unit) :=
  if w.timer.returnsToFull (narrow rsEntries) then .error .assertion
  else w.exec (narrow rsEntries) call

open scoped Lib.Sizes

def narrowPair.checked (rsEntries : Nat) (w : SmtFetching 2 Nat Unit Unit)
    (call : SmtCall 2 Nat) : Except Stop (SmtFetching 2 Nat Unit Unit) :=
  if w.timer.returnsToFull (narrowPair rsEntries) then .error .assertion
  else w.exec (narrowPair rsEntries) call

/-- With four reservation stations, the micro-op that missed is dispatched after one stall. -/
theorem icache_miss_stalls_once_blocked :
    (∃ w : Fetching Nat Unit Unit, w.trace.countP FrontEvent.isStall = 1 ∧
      w.timer.m_num_in_rob = 3 ∧ StalledOnce w.entered (w.timer.front w.trace)) ∧
    ∃ w : SmtFetching 2 Nat Unit Unit, (w.trace 0).countP FrontEvent.isStall = 1 ∧
      (w.timer.m_rob_threads 0).rob.length = 3 ∧
      StalledOnce (w.entered 0) (w.timer.front 0 (w.trace 0)) := by
  constructor
  · have hrun : ∃ w ∈ ((small.feed small.blocked 6).foldlM (narrow.checked 4)
        narrow.start).toOption, w.trace.countP FrontEvent.isStall = 1 ∧
        w.timer.m_num_in_rob = 3 := by decide +kernel
    obtain ⟨w, hw, hstalls, hnum⟩ := exists_of_toOption hrun
    refine ⟨w, hstalls, hnum, (icache_miss_stalls_once (n := 2)).1 (narrow 4) w
      (Reachable.foldlM (fun call hcall w w' hstep => ?_) (.init (narrow.init 4)) hw)⟩
    rw [narrow.checked] at hstep
    split at hstep
    case isTrue => cases hstep
    case isFalse hroom =>
      exact ⟨call, small.feed_allowed _ small.blocked_allowed 6 call hcall,
        fun _ => Bool.not_eq_true _ ▸ hroom, hstep⟩
  · have hrun : ∃ w ∈ ((pair.feed small.blocked 6).foldlM (narrowPair.checked 4)
        narrowPair.start).toOption, (w.trace 0).countP FrontEvent.isStall = 1 ∧
        (w.timer.m_rob_threads 0).rob.length = 3 := by decide +kernel
    obtain ⟨w, hw, hstalls, hnum⟩ := exists_of_toOption hrun
    refine ⟨w, hstalls, hnum, icache_miss_stalls_once.2 (narrowPair 4) w
      (Reachable.foldlM (fun call hcall w w' hstep => ?_) (.init (narrowPair.init 4)) hw) 0⟩
    rw [narrowPair.checked] at hstep
    split at hstep
    case isTrue => cases hstep
    case isFalse hroom =>
      exact ⟨call, narrowPair.allowed 4 call hcall, fun _ => Bool.not_eq_true _ ▸ hroom, hstep⟩

/-- With one, it is occupied when the front end returns, and there is a second stall. -/
theorem icache_miss_stalls_twice :
    (∃ w, Fetching.Init (narrow 1) narrow.start ∧
      (∀ call ∈ small.feed small.blocked 6, Allowed (narrow 1) call) ∧
      (small.feed small.blocked 6).foldlM (Fetching.exec (narrow 1)) narrow.start = .ok w ∧
      ¬ StalledOnce w.entered (w.timer.front w.trace)) ∧
    ∃ w, SmtFetching.Init (narrowPair 1) narrowPair.start ∧
      (∀ call ∈ pair.feed small.blocked 6, RobSmtTimer.Allowed (narrowPair 1) call) ∧
      (pair.feed small.blocked 6).foldlM (SmtFetching.exec (narrowPair 1)) narrowPair.start =
        .ok w ∧
      ¬ StalledOnce (w.entered 0) (w.timer.front 0 (w.trace 0)) := by
  constructor
  · have hrun : ∃ w ∈ ((small.feed small.blocked 6).foldlM (Fetching.exec (narrow 1))
        narrow.start).toOption, w.trace.countP FrontEvent.isStall = 2 ∧
        (w.entered.countP fun fetch => decide fetch.iCacheMiss) = 1 := by decide +kernel
    obtain ⟨w, hw, hstalls, hmisses⟩ := exists_of_toOption hrun
    refine ⟨w, narrow.init 1, small.feed_allowed _ small.blocked_allowed 6, hw, fun honce => ?_⟩
    have hle : w.trace.countP FrontEvent.isStall ≤ _ := honce.stalls_le
    omega
  · have hrun : ∃ w ∈ ((pair.feed small.blocked 6).foldlM (SmtFetching.exec (narrowPair 1))
        narrowPair.start).toOption, (w.trace 0).countP FrontEvent.isStall = 2 ∧
        ((w.entered 0).countP fun fetch => decide fetch.iCacheMiss) = 1 := by decide +kernel
    obtain ⟨w, hw, hstalls, hmisses⟩ := exists_of_toOption hrun
    refine ⟨w, narrowPair.init 1, narrowPair.allowed 1, hw, fun honce => ?_⟩
    have hle : (w.trace 0).countP FrontEvent.isStall ≤ _ := honce.stalls_le
    omega

end Sniper.Timing.Rob
