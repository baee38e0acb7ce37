import Sniper.Lib.Simulation
import Sniper.Threads.TraceManager

/-! # The applications of the trace manager

The threads of an application are counted exactly in every run. Its runs are counted exactly as
long as the last live thread of an application is not aborted, which two threads that end it
together, or a thread that ends it after it was asked to stop, bring about; a restart finds its
trace file unless the application was created by a fork; and a thread that ends its application
goes on as long as no new thread moves the array that it walks.
-/
namespace Sniper.Threads
open Lib.Simulation Function

/-! ### Counting behind a change -/

theorem countP_modify {α : Type} {p f} (h : ∀ x, p (f x) = p x) (l : List α) (i : Nat) :
    (l.modify i f).countP p = l.countP p := by
  induction l generalizing i with
  | nil => simp
  | cons x l ih =>
    cases i with
    | zero => simp [List.countP_cons, h]
    | succ i => simp [List.countP_cons, ih]

theorem countP_modify_drop {α : Type} {p f} {l : List α} {i x} (hx : l[i]? = some x)
    (hp : p x = true) (hf : p (f x) = false) :
    (l.modify i f).countP p + 1 = l.countP p := by
  induction l generalizing i with
  | nil => cases hx
  | cons y l ih =>
    cases i with
    | zero =>
      cases hx
      simp [hp, hf]
    | succ i =>
      have hrest := ih hx
      simp only [List.modify_succ_cons, List.countP_cons]
      omega

theorem countP_modify_at {α : Type} {p f} {l : List α} {i x} (hx : l[i]? = some x)
    (hf : p (f x) = p x) : (l.modify i f).countP p = l.countP p := by
  induction l generalizing i with
  | nil => simp
  | cons y l ih =>
    cases i with
    | zero =>
      cases hx
      simp [List.countP_cons, hf]
    | succ i =>
      have hrest := ih hx
      simp only [List.modify_succ_cons, List.countP_cons, hrest]

theorem forall_mem_modify {α : Type} {p : α → Prop} {f : α → α} {l : List α}
    (h : ∀ x ∈ l, p x) (hf : ∀ x, p x → p (f x)) (i : Nat) : ∀ x ∈ l.modify i f, p x := by
  intro x hx
  obtain ⟨j, hj, rfl⟩ := List.getElem_of_mem hx
  rw [List.getElem_modify]
  rw [List.length_modify] at hj
  have hold := h _ (List.getElem_mem hj)
  split
  · exact hf _ hold
  · exact hold

/-- The applications whose exit hook was called, one entry a call. -/
def exits (hooks : List Hook) : List Nat :=
  hooks.filterMap fun
    | .HOOK_APPLICATION_EXIT app_id => some app_id
    | .HOOK_APPLICATION_START _ => none

theorem exits_append (hooks hooks' : List Hook) :
    exits (hooks ++ hooks') = exits hooks ++ exits hooks' := List.filterMap_append

namespace TraceManager
variable {cfg : TraceInput} {tm tm' : TraceManager} {ends : List Nat} {k d a index : Nat}
  {thread : TraceThread} {time : SubsecondTime} {aborted : Bool}

/-- The threads of an application that are not stopped. -/
def live (tm : TraceManager) (app_id : Nat) : Nat :=
  tm.m_threads.countP fun thread => !thread.m_stopped && thread.appId = app_id

/-- The threads that are not stopped. -/
def running (tm : TraceManager) : Nat := tm.m_threads.countP fun thread => !thread.m_stopped

/-! ### The runs that end -/

/-- The thread for which a call makes `signalDone`, and whether it is aborted. -/
def signalled (tm : TraceManager) (index : Nat) (which : TraceCall) :
    Option (TraceThread × Bool) :=
  match tm.m_threads[index]? with
  | none => none
  | some thread =>
    match which, thread.phase with
    | .signalDone, .leaving aborted => some (thread, aborted)
    | .endNext, .ending other true => (tm.m_threads[other]?).map fun it => (it, true)
    | _, _ => none

/-- The application whose last live thread becomes stopped in a call, and whether that thread is
aborted. -/
def ended (tm : TraceManager) (index : Nat) (which : TraceCall) : Option (Nat × Bool) :=
  match tm.signalled index which with
  | some (thread, aborted) =>
    if !thread.m_stopped && tm.live thread.appId = 1 then some (thread.appId, aborted) else none
  | none => none

/-- The runs that end in a call before `stop` was called. -/
def endedRuns (tm : TraceManager) (index : Nat) (which : TraceCall) : List Nat :=
  if tm.m_done = 0 then ((tm.ended index which).map (·.1)).toList else []

/-- The application is restarted when it ends: another one has not completed a run. -/
def Restarts (cfg : TraceInput) (tm : TraceManager) (app_id : Nat) : Prop :=
  cfg.restart_apps = true ∧ cfg.stop_with_first_app = false ∧
    ∃ b < tm.m_num_apps, b ≠ app_id ∧ (tm.m_app_info b).num_runs = 0

/-- A new thread invalidates no iterator: where it moves the array, nobody is in the loop of
`endApplication`. -/
def Still (cfg : TraceInput) (tm : TraceManager) : Prop :=
  cfg.reallocates tm.m_threads.length = true →
    ∀ thread ∈ tm.m_threads, thread.phase.isEnding = false

instance : Decidable (Still cfg tm) :=
  inferInstanceAs (Decidable (_ → ∀ thread ∈ tm.m_threads, _))

/-- The last live thread of an application is not aborted before `stop` was called, an application
that is restarted has a trace file, and no new thread invalidates an iterator. -/
structure Regular (cfg : TraceInput) (tm : TraceManager) (index : Nat) (which : TraceCall) :
    Prop where
  unaborted : ∀ app_id aborted, tm.ended index which = some (app_id, aborted) → tm.m_done = 0 →
    aborted = false
  restarts : ∀ app_id, tm.ended index which = some (app_id, false) → Restarts cfg tm app_id →
    app_id < tm.m_tracefiles.length ∧ Still cfg tm
  creates : which = .createThread ∨ which = .createApplication → Still cfg tm

/-- The states of the runs whose calls are all regular, with the runs of applications that
ended. -/
inductive Run (cfg : TraceInput) : List Nat → TraceManager → Prop
  | init {tm : TraceManager} (h : init cfg = .ok tm) : Run cfg [] tm
  | call {ends : List Nat} {tm tm' : TraceManager} (h : Run cfg ends tm) (index : Nat)
      (time : SubsecondTime) (which : TraceCall) (hregular : Regular cfg tm index which)
      (hcall : tm.call cfg index time which = .ok tm') :
      Run cfg (ends ++ tm.endedRuns index which) tm'

/-! ### What is counted -/

/-- The threads of the first `k` applications are counted; `d` of them are still counted as
running. -/
structure Counted (k d : Nat) (tm : TraceManager) : Prop where
  num_threads : ∀ a < k, (tm.m_app_info a).num_threads = tm.live a
  apps : ∀ thread ∈ tm.m_threads, thread.appId < k
  bound : k ≤ tm.m_num_apps
  num_threads_running : tm.m_num_threads_running = tm.running + d
  valid : ∀ thread ∈ tm.m_threads, thread.phase ≠ .dangling

/-- The runs are counted. -/
structure Accounted (ends : List Nat) (tm : TraceManager) : Prop where
  exits : ∃ late, exits tm.hooks = ends ++ late ∧ (tm.m_done = 0 → late = [])
  apps : ∀ a ∈ Threads.exits tm.hooks, a < tm.m_num_apps
  num_runs : ∀ a, (tm.m_app_info a).num_runs = (Threads.exits tm.hooks).count a
  num_apps_nonfinish : tm.m_num_apps_nonfinish =
    (List.range tm.m_num_apps).countP fun a => decide (a ∉ Threads.exits tm.hooks)
  unfinished : tm.m_done = 0 → 0 < tm.m_num_apps → 0 < tm.m_num_apps_nonfinish
  files : tm.m_responsefiles.length = tm.m_tracefiles.length

/-- Nothing of the account of the runs differs. -/
structure SameRuns (tm tm' : TraceManager) : Prop where
  exits : exits tm'.hooks = exits tm.hooks
  num_runs : ∀ a, (tm'.m_app_info a).num_runs = (tm.m_app_info a).num_runs
  num_apps : tm'.m_num_apps = tm.m_num_apps
  num_apps_nonfinish : tm'.m_num_apps_nonfinish = tm.m_num_apps_nonfinish
  done : tm'.m_done = tm.m_done
  tracefiles : tm'.m_tracefiles = tm.m_tracefiles
  responsefiles : tm'.m_responsefiles = tm.m_responsefiles

theorem Accounted.congr (h : Accounted ends tm) (hsame : SameRuns tm tm') :
    Accounted ends tm' := by
  refine ⟨?_, ?_, ?_, ?_, ?_, ?_⟩
  · rw [hsame.exits, hsame.done]
    exact h.exits
  · rw [hsame.exits, hsame.num_apps]
    exact h.apps
  · intro a
    rw [hsame.exits, hsame.num_runs]
    exact h.num_runs a
  · rw [hsame.exits, hsame.num_apps, hsame.num_apps_nonfinish]
    exact h.num_apps_nonfinish
  · rw [hsame.done, hsame.num_apps, hsame.num_apps_nonfinish]
    exact h.unfinished
  · rw [hsame.tracefiles, hsame.responsefiles]
    exact h.files

/-! ### Changes to a thread that count for nothing -/

theorem Counted.modifyThread (h : Counted k d tm) (index : Nat) {f}
    (happ : ∀ thread, (f thread).appId = thread.appId)
    (hstopped : ∀ thread, (f thread).m_stopped = thread.m_stopped)
    (hphase : ∀ thread, thread.phase ≠ .dangling → (f thread).phase ≠ .dangling) :
    Counted k d (tm.modifyThread index f) := by
  refine ⟨?_, ?_, h.bound, ?_, forall_mem_modify h.valid hphase index⟩
  · intro a ha
    have hlive : (tm.modifyThread index f).live a = tm.live a :=
      countP_modify (fun thread => by rw [happ, hstopped]) _ _
    rw [hlive]
    exact h.num_threads a ha
  · exact forall_mem_modify h.apps (fun thread ha => (happ thread).symm ▸ ha) index
  · have hrunning : (tm.modifyThread index f).running = tm.running :=
      countP_modify (fun thread => by rw [hstopped]) _ _
    rw [hrunning]
    exact h.num_threads_running

theorem sameRuns_modifyThread (tm : TraceManager) (index : Nat) (f : TraceThread → TraceThread) :
    SameRuns tm (tm.modifyThread index f) := ⟨rfl, fun _ => rfl, rfl, rfl, rfl, rfl, rfl⟩

theorem Counted.goto (h : Counted k d tm) (index : Nat) {phase : Phase} (hphase : phase ≠ .dangling) :
    Counted k d (goto index phase tm) :=
  h.modifyThread index (fun _ => rfl) (fun _ => rfl) fun _ _ => hphase

theorem Counted.stop (h : Counted k d tm) : Counted k d tm.stop := by
  have hcount : ∀ p : TraceThread → Bool, (∀ thread, p { thread with m_stop := true } = p thread) →
      tm.stop.m_threads.countP p = tm.m_threads.countP p := by
    intro p hp
    unfold TraceManager.stop
    rw [List.countP_map]
    exact List.countP_congr fun thread _ => by rw [Function.comp_apply, hp]
  refine ⟨?_, ?_, h.bound, ?_, List.forall_mem_map.mpr h.valid⟩
  · intro a ha
    have hlive : tm.stop.live a = tm.live a := hcount _ fun _ => rfl
    rw [hlive]
    exact h.num_threads a ha
  · exact List.forall_mem_map.mpr h.apps
  · have hrunning : tm.stop.running = tm.running := hcount _ fun _ => rfl
    rw [hrunning]
    exact h.num_threads_running

/-! ### New threads -/

theorem countP_pushBack {p : TraceThread → Bool} (hp : ∀ thread, p thread.invalidate = p thread)
    (threads : List TraceThread) :
    (pushBack cfg threads thread).countP p = threads.countP p + [thread].countP p := by
  have hmap : (threads.map TraceThread.invalidate).countP p = threads.countP p := by
    rw [List.countP_map]
    exact List.countP_congr fun thread _ => by rw [Function.comp_apply, hp]
  unfold pushBack
  split
  · rw [List.countP_append, hmap]
  · rw [List.countP_append]

theorem forall_mem_pushBack {p : TraceThread → Prop} {threads : List TraceThread}
    (h : ∀ thread ∈ threads, p thread)
    (hp : cfg.reallocates threads.length = true → ∀ thread ∈ threads, p thread.invalidate)
    (hnew : p thread) : ∀ other ∈ pushBack cfg threads thread, p other := by
  unfold pushBack
  refine List.forall_mem_append.mpr ⟨?_, List.forall_mem_singleton.mpr hnew⟩
  split
  · next hmoves => exact List.forall_mem_map.mpr (hp hmoves)
  · exact h

theorem invalidate_still {other : TraceThread} (h : other.phase.isEnding = false) :
    other.invalidate = other := by
  unfold TraceThread.invalidate
  split
  · next hphase =>
    rw [hphase] at h
    cases h
  · rfl

theorem invalidate_appId (other : TraceThread) : other.invalidate.appId = other.appId := by
  unfold TraceThread.invalidate
  split <;> rfl

theorem invalidate_m_stopped (other : TraceThread) :
    other.invalidate.m_stopped = other.m_stopped := by
  unfold TraceThread.invalidate
  split <;> rfl

theorem newThread_ok {first init_fifo} (h : tm.newThread cfg a first init_fifo time = .ok tm') :
    a < tm.m_num_apps ∧
    ∃ info hooks thread, thread.appId = a ∧ thread.m_stopped = false ∧ thread.phase = .running ∧
      info.num_threads = (if first then 1 else (tm.m_app_info a).num_threads + 1) ∧
      info.num_runs = (tm.m_app_info a).num_runs ∧ exits hooks = exits tm.hooks ∧
      tm' = { tm with
        m_app_info := update tm.m_app_info a info
        hooks := hooks
        m_num_threads_running := tm.m_num_threads_running + 1
        m_threads := pushBack cfg tm.m_threads thread } := by
  unfold newThread at h
  split at h
  · cases h
  · next hlt =>
    obtain ⟨files, -, rfl⟩ := of_map_ok h
    refine ⟨Nat.lt_of_not_le hlt, _, _, _, ?_, ?_, ?_, ?_, ?_, ?_, rfl⟩
    · rfl
    · rfl
    · rfl
    · cases first <;> rfl
    · cases first <;> rfl
    · cases first
      · rfl
      · exact (exits_append _ _).trans (List.append_nil _)

theorem newThread_total {first init_fifo} (ha : a < tm.m_num_apps)
    (hfiles : tm.m_responsefiles.length = tm.m_tracefiles.length)
    (hfile : first = true → init_fifo = false → a < tm.m_tracefiles.length) :
    ∃ tm', tm.newThread cfg a first init_fifo time = .ok tm' := by
  have hthread : ∀ n, ∃ files, tm.threadFiles cfg a n first init_fifo = .ok files := by
    intro n
    unfold threadFiles
    split
    · exact ⟨_, rfl⟩
    · next hfifo =>
      split
      · next hfirst =>
        have hlt := hfile hfirst (by simpa using hfifo)
        rw [List.getElem?_eq_getElem hlt, List.getElem?_eq_getElem (hfiles ▸ hlt)]
        exact ⟨_, rfl⟩
      · exact ⟨_, rfl⟩
  unfold newThread
  rw [if_neg (Nat.not_le.mpr ha)]
  dsimp only
  obtain ⟨files, hfiles⟩ := hthread (if first = true then 0 else (tm.m_app_info a).thread_count)
  rw [hfiles]
  exact ⟨_, rfl⟩

theorem sameRuns_newThread {first init_fifo} (h : tm.newThread cfg a first init_fifo time = .ok tm') :
    SameRuns tm tm' := by
  obtain ⟨-, info, hooks, thread, -, -, -, -, hruns, hexits, rfl⟩ := newThread_ok h
  refine ⟨hexits, ?_, rfl, rfl, rfl, rfl, rfl⟩
  intro b
  by_cases hb : b = a
  · subst hb
    rw [← hruns]
    exact congrArg AppInfo.num_runs (update_self ..)
  · exact congrArg AppInfo.num_runs (update_of_ne hb ..)

theorem Counted.newThread {k' first init_fifo} (h : Counted k d tm)
    (hcall : tm.newThread cfg a first init_fifo time = .ok tm')
    (hcount : (if first then 1 else (tm.m_app_info a).num_threads + 1) = tm.live a + 1)
    (hk : ∀ b, b < k' ↔ b < k ∨ b = a) (hstill : Still cfg tm) : Counted k' d tm' := by
  obtain ⟨ha, info, hooks, thread, happ, hstopped, hphase, hthreads, -, -, rfl⟩ :=
    newThread_ok hcall
  have hbound : k' ≤ tm.m_num_apps := by
    by_contra hlt
    rcases (hk tm.m_num_apps).mp (Nat.lt_of_not_le hlt) with hlow | heq
    · exact absurd h.bound (Nat.not_le.mpr hlow)
    · omega
  have hvalid : ∀ other ∈ pushBack cfg tm.m_threads thread, other.phase ≠ .dangling :=
    forall_mem_pushBack h.valid (fun hmoves other hother =>
      (invalidate_still (hstill hmoves other hother)).symm ▸ h.valid other hother) (hphase ▸ nofun)
  refine ⟨?_, ?_, hbound, ?_, hvalid⟩
  · intro b hb
    unfold live
    dsimp only
    rw [countP_pushBack fun other => by rw [invalidate_appId, invalidate_m_stopped]]
    by_cases heq : b = a
    · subst heq
      have hone : [thread].countP (fun thread => !thread.m_stopped && thread.appId = b) = 1 := by
        simp [happ, hstopped]
      rw [update_self, hthreads, hcount, hone]
      rfl
    · have hnone : [thread].countP (fun thread => !thread.m_stopped && thread.appId = b) = 0 := by
        simp [happ, hstopped, Ne.symm heq]
      rw [update_of_ne heq, hnone]
      exact h.num_threads b (((hk b).mp hb).resolve_right heq)
  · have hold : ∀ other ∈ tm.m_threads, other.appId < k' :=
      fun other hother => (hk _).mpr (.inl (h.apps other hother))
    exact forall_mem_pushBack hold (fun _ other hother => (invalidate_appId other).symm ▸ hold other hother)
      ((hk _).mpr (.inr happ))
  · have hone : List.countP (fun thread : TraceThread => !thread.m_stopped) [thread] = 1 := by
      simp [hstopped]
    have hrunning := h.num_threads_running
    unfold TraceManager.running at hrunning ⊢
    dsimp only
    rw [countP_pushBack fun other => by rw [invalidate_m_stopped], hone]
    omega

theorem Counted.createThread (h : Counted k d tm) (ha : a < k) (hstill : Still cfg tm)
    (hcall : tm.createThread cfg a time = .ok tm') : Counted k d tm' := by
  refine h.newThread hcall ?_ ?_ hstill
  · rw [if_neg Bool.false_ne_true, h.num_threads a ha]
  · intro b
    exact ⟨.inl, fun hb => hb.elim id fun heq => heq ▸ ha⟩

theorem Counted.restart (h : Counted k d tm) (ha : a < k) (hlive : tm.live a = 0)
    (hstill : Still cfg tm) {init_fifo}
    (hcall : tm.newThread cfg a true init_fifo time = .ok tm') : Counted k d tm' := by
  refine h.newThread hcall ?_ ?_ hstill
  · rw [if_pos rfl, hlive]
  · intro b
    exact ⟨.inl, fun hb => hb.elim id fun heq => heq ▸ ha⟩

theorem Counted.live_eq_zero (h : Counted k d tm) (ha : k ≤ a) : tm.live a = 0 := by
  unfold live
  rw [List.countP_eq_zero]
  intro thread hthread
  have happ := h.apps thread hthread
  simp only [Bool.and_eq_true, decide_eq_true_eq, not_and]
  intro _
  omega

theorem Counted.start {init_fifo} (h : Counted k d tm) (hstill : Still cfg tm)
    (hcall : tm.newThread cfg k true init_fifo time = .ok tm') : Counted (k + 1) d tm' := by
  refine h.newThread hcall ?_ ?_ hstill
  · rw [if_pos rfl, h.live_eq_zero (Nat.le_refl k)]
  · intro b
    exact Nat.lt_succ_iff_lt_or_eq

theorem Accounted.createApplication (h : Accounted ends tm) :
    Accounted ends { tm with
      m_num_apps := tm.m_num_apps + 1
      m_num_apps_nonfinish := tm.m_num_apps_nonfinish + 1
      m_app_info := update tm.m_app_info tm.m_num_apps {} } := by
  have hnew : tm.m_num_apps ∉ Threads.exits tm.hooks := by
    intro hmem
    exact Nat.lt_irrefl _ (h.apps _ hmem)
  refine ⟨h.exits, ?_, ?_, ?_, fun _ _ => Nat.succ_pos _, h.files⟩
  · intro b hb
    exact Nat.lt_succ_of_lt (h.apps b hb)
  · intro b
    dsimp only
    by_cases heq : b = tm.m_num_apps
    · rw [heq, update_self, List.count_eq_zero_of_not_mem hnew]
    · rw [update_of_ne heq]
      exact h.num_runs b
  · rw [List.range_succ, List.countP_append, ← h.num_apps_nonfinish]
    simp [hnew]

/-! ### A run ends -/

theorem countP_range_concat (l : List Nat) (a n : Nat) :
    (List.range n).countP (fun b => decide (b ∉ l)) =
      (List.range n).countP (fun b => decide (b ∉ l ++ [a])) +
        if a < n ∧ a ∉ l then 1 else 0 := by
  induction n with
  | zero => simp
  | succ n ih =>
    rw [List.range_succ, List.countP_append, List.countP_append, ih]
    simp only [List.countP_cons, List.countP_nil, List.mem_append, List.mem_singleton,
      decide_eq_true_eq, not_or, Nat.zero_add]
    by_cases heq : n = a
    · subst heq
      by_cases hn : n ∈ l <;> simp [hn]
    · have hlt : a < n + 1 ↔ a < n := by omega
      simp only [heq, not_false_eq_true, and_true, hlt]
      omega

/-- The account of the runs when one of them is counted, up to what `stop` and a restart do. -/
theorem Accounted.complete (h : Accounted ends tm) (ha : a < tm.m_num_apps)
    {threads done' nonfinish info} (hruns : info.num_runs = (tm.m_app_info a).num_runs + 1)
    (hnonfinish : nonfinish = if info.num_runs = 1 then tm.m_num_apps_nonfinish - 1
      else tm.m_num_apps_nonfinish) (hdone : done' = tm.m_done ∧ nonfinish ≠ 0 ∨ 0 < done') :
    Accounted (ends ++ if tm.m_done = 0 then [a] else []) { tm with
      m_app_info := update tm.m_app_info a info
      hooks := tm.hooks ++ [.HOOK_APPLICATION_EXIT a]
      m_num_apps_nonfinish := nonfinish
      m_threads := threads
      m_done := done' } := by
  have hexits : Threads.exits (tm.hooks ++ [.HOOK_APPLICATION_EXIT a]) =
      Threads.exits tm.hooks ++ [a] := exits_append _ _
  refine ⟨?_, ?_, ?_, ?_, ?_, h.files⟩
  · obtain ⟨late, hlate, hstopped⟩ := h.exits
    dsimp only
    rw [hexits, hlate]
    by_cases hzero : tm.m_done = 0
    · refine ⟨[], ?_, fun _ => rfl⟩
      rw [if_pos hzero, hstopped hzero, List.append_nil, List.append_nil]
    · refine ⟨late ++ [a], ?_, fun hdone' => by omega⟩
      rw [if_neg hzero, List.append_nil, List.append_assoc]
  · intro b hb
    rw [hexits] at hb
    rcases List.mem_append.mp hb with hb | hb
    · exact h.apps b hb
    · rw [List.mem_singleton.mp hb]
      exact ha
  · intro b
    dsimp only
    rw [hexits, List.count_append]
    by_cases heq : b = a
    · subst heq
      rw [update_self, hruns, h.num_runs, List.count_singleton_self]
    · rw [update_of_ne heq, h.num_runs, List.count_singleton,
        if_neg (by simpa using Ne.symm heq)]
      rfl
  · rw [hexits, hnonfinish, h.num_apps_nonfinish, countP_range_concat _ a, hruns, h.num_runs]
    by_cases hmem : a ∈ Threads.exits tm.hooks
    · have hpos := List.count_pos_iff.mpr hmem
      rw [if_neg (by omega), if_neg (fun hand => hand.2 hmem)]
      rfl
    · rw [List.count_eq_zero_of_not_mem hmem, if_pos rfl, if_pos ⟨ha, hmem⟩, Nat.add_sub_cancel]
  · intro hzero hpos
    dsimp only at hzero ⊢
    omega

theorem Accounted.exists_unfinished (h : Accounted ends tm) (ha : a < tm.m_num_apps) {nonfinish}
    (hnonfinish : nonfinish = if (tm.m_app_info a).num_runs + 1 = 1 then
      tm.m_num_apps_nonfinish - 1 else tm.m_num_apps_nonfinish) (hne : nonfinish ≠ 0) :
    ∃ b < tm.m_num_apps, b ≠ a ∧ (tm.m_app_info b).num_runs = 0 := by
  have hcount : 0 < (List.range tm.m_num_apps).countP
      fun b => decide (b ∉ Threads.exits tm.hooks ++ [a]) := by
    have hsplit := countP_range_concat (Threads.exits tm.hooks) a tm.m_num_apps
    have hzero := h.num_runs a
    rw [← h.num_apps_nonfinish] at hsplit
    by_cases hmem : a ∈ Threads.exits tm.hooks
    · have hpos := List.count_pos_iff.mpr hmem
      rw [if_neg fun hand => hand.2 hmem] at hsplit
      rw [if_neg (by omega)] at hnonfinish
      omega
    · rw [List.count_eq_zero_of_not_mem hmem] at hzero
      rw [if_pos ⟨ha, hmem⟩] at hsplit
      rw [if_pos (by omega)] at hnonfinish
      omega
  obtain ⟨b, hb, hnew⟩ := List.countP_pos_iff.mp hcount
  have hnew := of_decide_eq_true hnew
  rw [List.mem_append, List.mem_singleton, not_or] at hnew
  refine ⟨b, List.mem_range.mp hb, hnew.2, ?_⟩
  rw [h.num_runs, List.count_eq_zero_of_not_mem hnew.1]

/-- What a call keeps. -/
structure Inv (ends : List Nat) (d : Nat) (tm : TraceManager) : Prop where
  counted : Counted tm.m_num_apps d tm
  accounted : Accounted ends tm

theorem Inv.restart (h : Inv ends d tm) (ha : a < tm.m_num_apps) (hlive : tm.live a = 0)
    (hfile : a < tm.m_tracefiles.length) (hstill : Still cfg tm) :
    ∃ tm', tm.newThread cfg a true false time = .ok tm' ∧ Inv ends d tm' := by
  obtain ⟨tm', hnew⟩ : ∃ tm', tm.newThread cfg a true false time = .ok tm' :=
    newThread_total ha h.accounted.files fun _ _ => hfile
  have hsame := sameRuns_newThread hnew
  refine ⟨tm', hnew, ?_, h.accounted.congr hsame⟩
  rw [hsame.num_apps]
  exact h.counted.restart ha hlive hstill hnew

theorem runDone_total (h : Inv ends d tm) (ha : a < tm.m_num_apps) (hlive : tm.live a = 0)
    (hfile : Restarts cfg tm a → a < tm.m_tracefiles.length ∧ Still cfg tm) :
    ∃ tm', tm.runDone cfg a time = .ok tm' ∧
      Inv (ends ++ if tm.m_done = 0 then [a] else []) d tm' := by
  have hcounted : ∀ hooks nonfinish, Counted tm.m_num_apps d { tm with
      m_app_info := update tm.m_app_info a
        { tm.m_app_info a with num_runs := (tm.m_app_info a).num_runs + 1 }
      hooks := hooks
      m_num_apps_nonfinish := nonfinish } := by
    intro hooks nonfinish
    refine ⟨?_, h.counted.apps, Nat.le_refl _, h.counted.num_threads_running, h.counted.valid⟩
    intro b hb
    refine Eq.trans ?_ (h.counted.num_threads b hb)
    dsimp only
    by_cases heq : b = a
    · subst heq
      rw [update_self]
    · rw [update_of_ne heq]
  unfold runDone
  dsimp only
  generalize hnonfinish : (if (tm.m_app_info a).num_runs + 1 = 1 then
    tm.m_num_apps_nonfinish - 1 else tm.m_num_apps_nonfinish) = nonfinish
  by_cases hfirst : cfg.stop_with_first_app = true
  · rw [if_pos hfirst]
    exact ⟨_, rfl, (hcounted _ _).stop,
      h.accounted.complete ha rfl hnonfinish.symm (.inr (Nat.succ_pos _))⟩
  rw [if_neg hfirst]
  by_cases hne : nonfinish = 0
  · rw [if_pos hne]
    exact ⟨_, rfl, (hcounted _ _).stop,
      h.accounted.complete ha rfl hnonfinish.symm (.inr (Nat.succ_pos _))⟩
  rw [if_neg hne]
  have haccounted : Accounted (ends ++ if tm.m_done = 0 then [a] else []) { tm with
      m_app_info := update tm.m_app_info a
        { tm.m_app_info a with num_runs := (tm.m_app_info a).num_runs + 1 }
      hooks := tm.hooks ++ [.HOOK_APPLICATION_EXIT a]
      m_num_apps_nonfinish := nonfinish } :=
    h.accounted.complete ha rfl hnonfinish.symm (.inl ⟨rfl, hne⟩)
  by_cases hrestart : cfg.restart_apps = true
  · rw [if_pos hrestart]
    obtain ⟨hlt, hstill⟩ := hfile ⟨hrestart, Bool.eq_false_iff.mpr hfirst,
      h.accounted.exists_unfinished ha hnonfinish.symm hne⟩
    have hinv := Inv.mk (hcounted _ _) haccounted
    exact hinv.restart ha hlive hlt hstill
  · rw [if_neg hrestart]
    exact ⟨_, rfl, hcounted _ _, haccounted⟩

/-! ### `signalDone` -/

/-- A thread becomes stopped. -/
def stopThread (tm : TraceManager) (index : Nat) (app_id : Nat) : TraceManager :=
  { tm with
    m_threads := tm.m_threads.modify index fun thread => { thread with m_stopped := true }
    m_app_info := update tm.m_app_info app_id
      { tm.m_app_info app_id with num_threads := (tm.m_app_info app_id).num_threads - 1 } }

theorem stopThread_forall {p : TraceThread → Prop} (h : ∀ other ∈ tm.m_threads, p other)
    (hp : ∀ other, p other → p { other with m_stopped := true }) :
    ∀ other ∈ (tm.stopThread index a).m_threads, p other :=
  forall_mem_modify h hp index

theorem sameRuns_stopThread (tm : TraceManager) (index a : Nat) :
    SameRuns tm (tm.stopThread index a) := by
  refine ⟨rfl, ?_, rfl, rfl, rfl, rfl, rfl⟩
  intro b
  unfold stopThread
  dsimp only
  by_cases heq : b = a
  · subst heq
    rw [update_self]
  · rw [update_of_ne heq]

theorem Counted.stopThread (h : Counted k d tm) (hget : tm.m_threads[index]? = some thread)
    (hlive : thread.m_stopped = false) :
    Counted k (d + 1) (tm.stopThread index thread.appId) := by
  refine ⟨?_, stopThread_forall h.apps fun _ ha => ha, h.bound, ?_,
    stopThread_forall h.valid fun _ hvalid => hvalid⟩
  · intro b hb
    have hcount := h.num_threads b hb
    unfold live TraceManager.stopThread
    dsimp only
    by_cases heq : b = thread.appId
    · have hdrop := countP_modify_drop (p := fun thread : TraceThread =>
          !thread.m_stopped && thread.appId = b)
        (f := fun thread => { thread with m_stopped := true }) hget (by simp [hlive, heq]) rfl
      rw [← heq, update_self, hcount]
      unfold live
      dsimp only at hdrop ⊢
      omega
    · have hsame := countP_modify_at (p := fun thread : TraceThread =>
          !thread.m_stopped && thread.appId = b)
        (f := fun thread => { thread with m_stopped := true }) hget (by simp [Ne.symm heq])
      rw [update_of_ne heq, hcount, hsame]
      rfl
  · have hdrop := countP_modify_drop (p := fun thread : TraceThread => !thread.m_stopped)
      (f := fun thread => { thread with m_stopped := true }) hget (by simp [hlive]) rfl
    have hrunning := h.num_threads_running
    unfold running at hrunning ⊢
    unfold TraceManager.stopThread
    dsimp only at hdrop hrunning ⊢
    omega

/-- The runs that end when `signalDone` is called for a thread. -/
def endedBy (tm : TraceManager) (thread : TraceThread) : List Nat :=
  if tm.m_done = 0 ∧ thread.m_stopped = false ∧ tm.live thread.appId = 1 then [thread.appId]
  else []

theorem signalDone_total (h : Inv ends 0 tm) (hget : tm.m_threads[index]? = some thread)
    (hregular : thread.m_stopped = false → tm.live thread.appId = 1 →
      (tm.m_done = 0 → aborted = false) ∧ (aborted = false → Restarts cfg tm thread.appId →
        thread.appId < tm.m_tracefiles.length ∧ Still cfg tm)) :
    ∃ tm', tm.signalDone cfg index thread time aborted = .ok tm' ∧
      Inv (ends ++ tm.endedBy thread) 0 tm' := by
  have hmem : thread ∈ tm.m_threads := List.mem_of_getElem? hget
  have happ := h.counted.apps thread hmem
  unfold signalDone endedBy
  by_cases hstopped : thread.m_stopped = true
  · rw [if_pos hstopped, if_neg (by simp [hstopped]), List.append_nil]
    exact ⟨tm, rfl, h⟩
  have hstopped : thread.m_stopped = false := Bool.eq_false_iff.mpr hstopped
  rw [if_neg (by simp [hstopped])]
  have hcounted := h.counted.stopThread hget hstopped
  have hbefore := h.counted.num_threads thread.appId happ
  have hpos : 0 < tm.live thread.appId := by
    refine List.countP_pos_iff.mpr ⟨thread, hmem, ?_⟩
    simp [hstopped]
  have hlive := hcounted.num_threads thread.appId happ
  have hself : ((tm.stopThread index thread.appId).m_app_info thread.appId).num_threads =
      (tm.m_app_info thread.appId).num_threads - 1 := by
    unfold stopThread
    dsimp only
    rw [update_self]
  rw [hself] at hlive
  have hsame := sameRuns_stopThread tm index thread.appId
  have hstays : Still cfg tm → Still cfg (tm.stopThread index thread.appId) := by
    intro hstill hmoves
    unfold stopThread at hmoves
    rw [List.length_modify] at hmoves
    exact stopThread_forall (hstill hmoves) fun _ hphase => hphase
  change ∃ tm', (if !aborted && (tm.m_app_info thread.appId).num_threads - 1 = 0 then
    (tm.stopThread index thread.appId).runDone cfg thread.appId time
      else .ok (tm.stopThread index thread.appId)).map _ = .ok tm' ∧ _
  generalize tm.stopThread index thread.appId = tm₁ at hcounted hlive hsame hstays ⊢
  have hinv : Inv ends 1 tm₁ := ⟨by rw [hsame.num_apps]; exact hcounted, h.accounted.congr hsame⟩
  -- the call goes on with one thread too many counted as running
  have hfinish : ∀ {ends' : List Nat} {tm₂ : TraceManager}, Inv ends' 1 tm₂ →
      Inv ends' 0 { tm₂ with m_num_threads_running := tm₂.m_num_threads_running - 1 } := by
    intro ends' tm₂ h₂
    refine ⟨⟨h₂.counted.num_threads, h₂.counted.apps, h₂.counted.bound, ?_, h₂.counted.valid⟩,
      h₂.accounted.congr ⟨rfl, fun _ => rfl, rfl, rfl, rfl, rfl, rfl⟩⟩
    have hrunning := h₂.counted.num_threads_running
    unfold running at hrunning ⊢
    dsimp only
    omega
  by_cases hlast : tm.live thread.appId = 1
  · have hzero : (tm.m_app_info thread.appId).num_threads - 1 = 0 := by omega
    obtain ⟨hunaborted, hfile⟩ := hregular hstopped hlast
    cases aborted with
    | false =>
      have hlive₁ : tm₁.live thread.appId = 0 := by omega
      have hfile₁ : Restarts cfg tm₁ thread.appId →
          thread.appId < tm₁.m_tracefiles.length ∧ Still cfg tm₁ := by
        intro ⟨hrestart, hfirst, b, hb, hne, hruns⟩
        rw [hsame.tracefiles]
        refine (hfile rfl ⟨hrestart, hfirst, b, hsame.num_apps ▸ hb, hne, ?_⟩).imp_right hstays
        rw [← hsame.num_runs]
        exact hruns
      obtain ⟨tm₂, hdone, h₂⟩ : ∃ tm₂, tm₁.runDone cfg thread.appId time = .ok tm₂ ∧ _ :=
        runDone_total hinv (by rw [hsame.num_apps]; exact happ) hlive₁ hfile₁
      rw [hsame.done] at h₂
      have hends : (if tm.m_done = 0 ∧ thread.m_stopped = false ∧ tm.live thread.appId = 1 then
          [thread.appId] else []) = if tm.m_done = 0 then [thread.appId] else [] := by
        simp [hstopped, hlast]
      rw [hends, if_pos (by simp [hzero]), hdone]
      exact ⟨_, rfl, hfinish h₂⟩
    | true =>
      have hstop : tm.m_done ≠ 0 := fun hzero => Bool.noConfusion (hunaborted hzero)
      rw [if_neg (by simp), if_neg fun hand => hstop hand.1, List.append_nil]
      exact ⟨_, rfl, hfinish hinv⟩
  · have hne : (tm.m_app_info thread.appId).num_threads - 1 ≠ 0 := by omega
    rw [if_neg (by simp [hne]), if_neg fun hand => hlast hand.2.2, List.append_nil]
    exact ⟨_, rfl, hfinish hinv⟩

/-! ### Calls -/

theorem Inv.goto (h : Inv ends d tm) (index : Nat) {phase : Phase} (hphase : phase ≠ .dangling) :
    Inv ends d (goto index phase tm) :=
  ⟨h.counted.goto index hphase, h.accounted.congr (sameRuns_modifyThread _ _ _)⟩

theorem Inv.ask (h : Inv ends d tm) (index : Nat) :
    Inv ends d (tm.modifyThread index fun it => { it with m_stop := true }) :=
  ⟨h.counted.modifyThread index (fun _ => rfl) (fun _ => rfl) fun _ hphase => hphase,
    h.accounted.congr (sameRuns_modifyThread _ _ _)⟩

theorem createThread_total (h : Inv ends d tm) (ha : a < tm.m_num_apps) (hstill : Still cfg tm) :
    ∃ tm', tm.createThread cfg a time = .ok tm' ∧ Inv ends d tm' := by
  obtain ⟨tm', hnew⟩ : ∃ tm', tm.createThread cfg a time = .ok tm' :=
    newThread_total ha h.accounted.files nofun
  have hsame := sameRuns_newThread hnew
  refine ⟨tm', hnew, ?_, h.accounted.congr hsame⟩
  rw [hsame.num_apps]
  exact h.counted.createThread ha hstill hnew

theorem createApplication_total (h : Inv ends d tm) (hstill : Still cfg tm) :
    ∃ tm', tm.createApplication cfg time = .ok tm' ∧ Inv ends d tm' := by
  have haccounted := h.accounted.createApplication
  have hcounted : Counted tm.m_num_apps d { tm with
      m_num_apps := tm.m_num_apps + 1
      m_num_apps_nonfinish := tm.m_num_apps_nonfinish + 1
      m_app_info := update tm.m_app_info tm.m_num_apps {} } := by
    refine ⟨?_, h.counted.apps, Nat.le_succ _, h.counted.num_threads_running, h.counted.valid⟩
    intro b hb
    refine Eq.trans ?_ (h.counted.num_threads b hb)
    exact congrArg AppInfo.num_threads (update_of_ne (by omega) ..)
  obtain ⟨tm', hnew⟩ : ∃ tm', tm.createApplication cfg time = .ok tm' :=
    newThread_total (Nat.lt_succ_self _) haccounted.files nofun
  have hsame := sameRuns_newThread hnew
  refine ⟨tm', hnew, ?_, haccounted.congr hsame⟩
  rw [hsame.num_apps]
  exact hcounted.start hstill hnew

theorem endedRuns_eq (which : TraceCall) : tm.endedRuns index which =
    match tm.signalled index which with
    | some (thread, _) => tm.endedBy thread
    | none => [] := by
  unfold endedRuns ended endedBy
  cases tm.signalled index which with
  | none => simp
  | some s =>
    obtain ⟨thread, aborted⟩ := s
    by_cases hlast : thread.m_stopped = false ∧ tm.live thread.appId = 1
    · simp [hlast]
    · by_cases hzero : tm.m_done = 0 <;> simp [hlast, hzero]

theorem Regular.signalled {which} (h : Regular cfg tm index which) (thread : TraceThread)
    (aborted : Bool) (hsignalled : tm.signalled index which = some (thread, aborted))
    (hstopped : thread.m_stopped = false) (hlast : tm.live thread.appId = 1) :
    (tm.m_done = 0 → aborted = false) ∧ (aborted = false → Restarts cfg tm thread.appId →
      thread.appId < tm.m_tracefiles.length ∧ Still cfg tm) := by
  have hended : tm.ended index which = some (thread.appId, aborted) := by
    unfold ended
    rw [hsignalled]
    simp [hstopped, hlast]
  exact ⟨h.unaborted _ _ hended, fun hnot => h.restarts _ (hnot ▸ hended)⟩

theorem call_total {which} (h : Inv ends 0 tm) (hregular : Regular cfg tm index which) :
    tm.call cfg index time which = .error .notCalled ∨
      ∃ tm', tm.call cfg index time which = .ok tm' ∧
        Inv (ends ++ tm.endedRuns index which) 0 tm' := by
  rw [endedRuns_eq]
  have hsignalled := hregular.signalled
  unfold call signalled at *
  cases hget : tm.m_threads[index]? with
  | none => exact .inl rfl
  | some thread =>
    rw [hget] at hsignalled
    dsimp only at hsignalled ⊢
    have happ := h.counted.apps thread (List.mem_of_getElem? hget)
    cases hphase : thread.phase with
    | running =>
      cases which with
      | createThread =>
        rw [List.append_nil]
        exact .inr (createThread_total h happ (hregular.creates (.inl rfl)))
      | createApplication =>
        rw [List.append_nil]
        exact .inr (createApplication_total h (hregular.creates (.inr rfl)))
      | endApplication | leave =>
        rw [List.append_nil]
        exact .inr ⟨_, rfl, h.goto index nofun⟩
      | endNext | signalDone => exact .inl rfl
    | ending other asked =>
      rw [hphase] at hsignalled
      cases which with
      | endNext =>
        right
        unfold endNext
        cases asked with
        | false =>
          dsimp only
          rw [List.append_nil]
          cases tm.m_threads[other]? with
          | none => exact ⟨_, rfl, h.goto index nofun⟩
          | some it =>
            dsimp only
            rw [if_neg Bool.false_ne_true]
            split
            · exact ⟨_, rfl, (h.ask other).goto index nofun⟩
            · exact ⟨_, rfl, h.goto index nofun⟩
        | true =>
          dsimp only at hsignalled ⊢
          cases hother : tm.m_threads[other]? with
          | none =>
            dsimp only [Option.map]
            rw [List.append_nil]
            exact ⟨_, rfl, h.goto index nofun⟩
          | some it =>
            rw [hother] at hsignalled
            obtain ⟨tm', hdone, hinv⟩ : ∃ tm', tm.signalDone cfg other it time true = .ok tm' ∧
              Inv (ends ++ tm.endedBy it) 0 tm' :=
                signalDone_total h hother (hsignalled it true rfl)
            dsimp only
            rw [if_pos rfl, hdone]
            exact ⟨_, rfl, hinv.goto index nofun⟩
      | createThread | createApplication | endApplication | leave | signalDone => exact .inl rfl
    | leaving aborted =>
      rw [hphase] at hsignalled
      cases which with
      | signalDone =>
        right
        obtain ⟨tm', hdone, hinv⟩ : ∃ tm',
            tm.signalDone cfg index thread time aborted = .ok tm' ∧
              Inv (ends ++ tm.endedBy thread) 0 tm' :=
          signalDone_total h hget (hsignalled thread aborted rfl)
        dsimp only
        rw [hdone]
        exact ⟨_, rfl, hinv.goto index nofun⟩
      | createThread | createApplication | endApplication | leave | endNext => exact .inl rfl
    | dangling => exact absurd hphase (h.counted.valid thread (List.mem_of_getElem? hget))
    | done => cases which <;> exact .inl rfl

/-! ### Runs -/

theorem accounted_new (cfg : TraceInput) : Accounted [] (new cfg) := by
  have hfiles : (new cfg).m_responsefiles.length = (new cfg).m_tracefiles.length := by
    unfold new TraceInput.setupTraceFiles
    split <;> simp
  refine ⟨⟨[], rfl, fun _ => rfl⟩, nofun, fun _ => rfl, ?_, fun _ h => h, hfiles⟩
  exact (List.countP_eq_length.mpr fun a _ => by simp [new, Threads.exits]).trans
    List.length_range |>.symm

theorem length_tracefiles (cfg : TraceInput) : (new cfg).m_tracefiles.length = cfg.num_apps := by
  unfold new TraceInput.setupTraceFiles
  split <;> simp

theorem init_total (cfg : TraceInput) : ∃ tm, init cfg = .ok tm ∧ Inv [] 0 tm := by
  have hprefix : ∀ k ≤ cfg.num_apps, ∃ tm, (List.range k).foldlM (initApp cfg) (new cfg) = .ok tm ∧
      SameRuns (new cfg) tm ∧ Counted k 0 tm ∧ ∀ thread ∈ tm.m_threads, thread.phase = .running := by
    intro k hk
    induction k with
    | zero =>
      refine ⟨new cfg, rfl, ⟨rfl, fun _ => rfl, rfl, rfl, rfl, rfl, rfl⟩, ?_, nofun⟩
      exact ⟨nofun, nofun, Nat.zero_le _, rfl, nofun⟩
    | succ k ih =>
      obtain ⟨tm, htm, hsame, hcounted, hrunning⟩ := ih (Nat.le_of_succ_le hk)
      have hnone : ∀ thread ∈ tm.m_threads, thread.phase.isEnding = false :=
        fun thread hthread => hrunning thread hthread ▸ rfl
      have haccounted := (accounted_new cfg).congr hsame
      obtain ⟨tm', hnew⟩ : ∃ tm', tm.newThread cfg k true false 0 = .ok tm' := by
        refine newThread_total ?_ haccounted.files fun _ _ => ?_
        · rw [hsame.num_apps]
          exact hk
        · rw [hsame.tracefiles, length_tracefiles]
          exact hk
      have hsame' := sameRuns_newThread hnew
      refine ⟨tm', ?_, ?_, hcounted.start (fun _ => hnone) hnew, ?_⟩
      · rw [List.range_succ, List.foldlM_append, htm]
        exact (bind_pure _).trans hnew
      · exact ⟨hsame'.exits.trans hsame.exits,
          fun a => (hsame'.num_runs a).trans (hsame.num_runs a),
          hsame'.num_apps.trans hsame.num_apps,
          hsame'.num_apps_nonfinish.trans hsame.num_apps_nonfinish,
          hsame'.done.trans hsame.done, hsame'.tracefiles.trans hsame.tracefiles,
          hsame'.responsefiles.trans hsame.responsefiles⟩
      · obtain ⟨-, info, hooks, thread, -, -, hphase, -, -, -, rfl⟩ := newThread_ok hnew
        exact forall_mem_pushBack hrunning (fun _ other hother =>
          (invalidate_still (hnone other hother)).symm ▸ hrunning other hother) hphase
  obtain ⟨tm, htm, hsame, hcounted, -⟩ := hprefix cfg.num_apps (Nat.le_refl _)
  exact ⟨tm, htm, hsame.num_apps ▸ hcounted, (accounted_new cfg).congr hsame⟩

theorem run_inv (h : Run cfg ends tm) : Inv ends 0 tm := by
  induction h with
  | init hinit =>
    obtain ⟨tm', htm', hinv⟩ := init_total cfg
    rw [hinit] at htm'
    cases htm'
    exact hinv
  | call _ index time which hregular hcall ih =>
    rcases call_total ih hregular with hnot | ⟨tm', htm', hinv⟩
    · rw [hnot] at hcall
      cases hcall
    · rw [htm'] at hcall
      cases hcall
      exact hinv

/-- What is counted of the applications, after runs of them have ended: their live threads, and
each run that ended before `stop` was called once, in its number of runs and by a call of the
exit hook. `late` are the runs that ended afterwards. -/
structure Lifecycle (ends : List Nat) (tm : TraceManager) : Prop where
  num_threads : ∀ a < tm.m_num_apps, (tm.m_app_info a).num_threads = tm.live a
  num_threads_running : tm.m_num_threads_running = tm.running
  exits : ∃ late, exits tm.hooks = ends ++ late ∧ (tm.m_done = 0 → late = []) ∧
    ∀ a, (tm.m_app_info a).num_runs = ends.count a + late.count a
  num_apps_nonfinish : tm.m_done = 0 →
    tm.m_num_apps_nonfinish = (List.range tm.m_num_apps).countP fun a => decide (a ∉ ends)
  stopped : 0 < tm.m_num_apps → (∀ a < tm.m_num_apps, a ∈ ends) → 0 < tm.m_done

theorem Inv.lifecycle (h : Inv ends 0 tm) : Lifecycle ends tm := by
  obtain ⟨late, hlate, hdone⟩ := h.accounted.exits
  have hnonfinish : tm.m_done = 0 →
      tm.m_num_apps_nonfinish = (List.range tm.m_num_apps).countP fun a => decide (a ∉ ends) := by
    intro hzero
    rw [h.accounted.num_apps_nonfinish, hlate, hdone hzero, List.append_nil]
  refine ⟨h.counted.num_threads, h.counted.num_threads_running, ⟨late, hlate, hdone, ?_⟩,
    hnonfinish, ?_⟩
  · intro a
    rw [h.accounted.num_runs, hlate, List.count_append]
  · intro hsome hall
    by_contra hzero
    have hzero : tm.m_done = 0 := Nat.eq_zero_of_not_pos hzero
    have hpos := h.accounted.unfinished hzero hsome
    rw [hnonfinish hzero] at hpos
    obtain ⟨a, ha, hnew⟩ := List.countP_pos_iff.mp hpos
    exact of_decide_eq_true hnew (hall a (List.mem_range.mp ha))

/-- In a run of regular calls every run of an application is counted once, and every call
returns. -/
theorem run_lifecycle (h : Run cfg ends tm) : Lifecycle ends tm ∧
    ∀ index time which, Regular cfg tm index which → ∀ fault,
      tm.call cfg index time which = .error fault → fault = .notCalled := by
  have hinv := run_inv h
  refine ⟨hinv.lifecycle, ?_⟩
  intro index time which hregular fault hfault
  rcases call_total hinv hregular with hnot | ⟨tm', htm', -⟩
  · rw [hnot] at hfault
    cases hfault
    rfl
  · rw [htm'] at hfault
    cases hfault

/-- The applications of a machine that restarts them. A vector that is full grows to twice its
size. -/
def sample (num_apps : Nat) : TraceInput :=
  ⟨false, true, num_apps, "", fun _ => "app.sift", fun size => size &&& (size - 1) = 0⟩

theorem Regular.of_none {which} (hended : tm.ended index which = none)
    (hcreates : which = .createThread ∨ which = .createApplication → Still cfg tm) :
    Regular cfg tm index which :=
  ⟨fun _ _ h => (nomatch hended.symm.trans h), fun _ h => (nomatch hended.symm.trans h), hcreates⟩

/-- The first of two applications creates a thread and ends: the new thread is stopped in its
place, and the run is counted when the first thread leaves. The application is restarted. -/
theorem run_lifecycle_sample : ∃ tm, calls (sample 2) [(0, .createThread), (0, .endApplication),
      (0, .endNext), (0, .endNext), (0, .endNext), (0, .endNext), (0, .endNext), (0, .leave),
      (0, .signalDone)] ((init (sample 2)).toOption.getD (new (sample 2))) = .ok tm ∧
    Lifecycle [0] tm ∧
    ∀ index time which, Regular (sample 2) tm index which → ∀ fault,
      tm.call (sample 2) index time which = .error fault → fault = .notCalled := by
  have hstart : Run (sample 2) [] _ := .init rfl
  have hcreated : Run (sample 2) [] _ := hstart.call 0 0 .createThread
    (.of_none rfl fun _ => by decide) rfl
  have hending : Run (sample 2) [] _ := hcreated.call 0 0 .endApplication (.of_none rfl nofun) rfl
  have hself : Run (sample 2) [] _ := hending.call 0 0 .endNext (.of_none rfl nofun) rfl
  have hother : Run (sample 2) [] _ := hself.call 0 0 .endNext (.of_none rfl nofun) rfl
  have hasked : Run (sample 2) [] _ := hother.call 0 0 .endNext (.of_none rfl nofun) rfl
  have hstopped : Run (sample 2) [] _ := hasked.call 0 0 .endNext (.of_none rfl nofun) rfl
  have hended : Run (sample 2) [] _ := hstopped.call 0 0 .endNext (.of_none rfl nofun) rfl
  have hleft : Run (sample 2) [] _ := hended.call 0 0 .leave (.of_none rfl nofun) rfl
  refine ⟨_, rfl, run_lifecycle (hleft.call 0 0 .signalDone ⟨?_, ?_, nofun⟩ rfl)⟩
  · intro app_id aborted h _
    cases h
    rfl
  · intro app_id h _
    cases h
    exact ⟨by decide, by decide⟩

/-- Two threads of an application end it, the second after the first has asked it to stop: the
run is never counted. An application that was created by a fork ends and has no trace file to be
restarted from. A thread is created while another one ends their application: the array of the
threads is moved, and the loop goes on in the old one. -/
theorem run_uncounted :
    ((init (sample 1)).bind (calls (sample 1)
      [(0, .createThread), (0, .endApplication), (0, .endNext), (0, .endNext),
        (1, .endApplication), (0, .endNext), (1, .endNext), (1, .endNext), (0, .endNext),
        (1, .endNext), (1, .endNext), (0, .leave), (0, .signalDone), (1, .leave),
        (1, .signalDone)])).map (fun tm => (tm.m_threads.map fun thread => thread.phase,
          tm.live 0, (tm.m_app_info 0).num_runs, exits tm.hooks, tm.m_done)) =
      .ok ([.done, .done], 0, 0, [], 0) ∧
    ((init (sample 1)).bind (calls (sample 1)
      [(0, .createApplication), (1, .leave), (1, .signalDone)])).map (fun tm => tm.m_done) =
      .error .tracefile ∧
    ((init (sample 1)).bind (calls (sample 1)
      [(0, .createThread), (0, .endApplication), (1, .createThread), (0, .endNext)])).map
        (fun tm => tm.m_done) = .error .iterator := by
  decide

end TraceManager
end Sniper.Threads
