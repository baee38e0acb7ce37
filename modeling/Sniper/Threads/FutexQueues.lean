import Sniper.Threads.SyscallServer

/-! # One queue for each stalled thread

The places where a sleeping or waiting thread can be, the branches of a futex call, and the
invariant of the system call server, kept by every call and by the walk over the timeouts.
-/
namespace Sniper.Threads.Syscall
open Lib.Parking Lib.Simulation

variable {T V A : Type} [DecidableEq V]

/-! ## Who waits where -/

variable [DecidableEq A]

inductive Place (A : Type) where
  | sleeping
  | futex (a : A)
  deriving DecidableEq

namespace Server
variable (s : Server T A)

def waiters : Place A → List (Waiter T)
  | .sleeping => s.m_sleeping
  | .futex a => s.m_futexes a

def waiting (p : Place A) : List T := (s.waiters p).map (·.thread_id)

def setWaiters (p : Place A) (q : List (Waiter T)) : Server T A :=
  match p with
  | .sleeping => { s with m_sleeping := q }
  | .futex a => s.setFutex a q

@[simp] theorem waiters_setWaiters (p p' : Place A) (q : List (Waiter T)) :
    (s.setWaiters p q).waiters p' = if p' = p then q else s.waiters p' := by
  cases p with
  | sleeping => cases p' <;> simp [setWaiters, waiters]
  | futex a =>
    cases p' with
    | sleeping => simp [setWaiters, waiters, setFutex]
    | futex a' =>
      by_cases h : a' = a
      · subst h; simp [setWaiters, waiters, setFutex]
      · simp [setWaiters, waiters, setFutex, h]

@[simp] theorem tm_setWaiters (p : Place A) (q : List (Waiter T)) :
    (s.setWaiters p q).tm = s.tm := by cases p <;> rfl

omit [DecidableEq A] in
@[simp] theorem waiters_resumeThread [DecidableEq T] (t : T) (thread_by : Option T)
    (time : SubsecondTime)
    (msg : Bool) (p : Place A) :
    (s.resumeThread t thread_by time msg).waiters p = s.waiters p := by cases p <;> rfl

theorem waiting_setWaiters (p : Place A) (q : List (Waiter T)) :
    (s.setWaiters p q).waiting = Function.update s.waiting p (q.map (·.thread_id)) := by
  funext p'
  by_cases h : p' = p
  · subst h; simp [waiting]
  · simp [waiting, h]

omit [DecidableEq A] in
theorem not_stalled_of_running {s : Server T A} {t} (h : s.Running t) : ¬ s.Stalled t :=
  fun hst => by
    rw [Server.Stalled, ThreadState.StalledFor, h] at hst
    cases hst.1

end Server

/-! ## The branches of `handleFutexCall` -/

variable [DecidableEq T]

/-- The mask of a waiting call. -/
def waitMask (cmd : Cmd) (args : FutexArgs V) : CInt :=
  if cmd = .FUTEX_WAIT_BITSET then args.val3 else FUTEX_BITSET_MATCH_ANY

/-- A call that returned or stalled its thread, by its command. -/
inductive Handled (va2pa : T → V → A) (fuel : Nat) (s : Server T A) (t : T) (args : FutexArgs V)
    (reads : Reads) (time : SubsecondTime) (reply : Reply) (s' : Server T A) : Prop
  | wait (cmd : Cmd) (hc : cmd = .FUTEX_WAIT ∨ cmd = .FUTEX_WAIT_BITSET)
      (hop : Cmd.ofOp args.op = some cmd)
      (h : s.futexWait (va2pa t args.uaddr) t args.val reads.act_val (waitMask cmd args) time
        (Server.timeoutTime cmd args.timeout time) = (reply, s'))
  | wake (hop : Cmd.ofOp args.op = some .FUTEX_WAKE ∨ Cmd.ofOp args.op = some .FUTEX_WAKE_BITSET)
      (h : s.futexWake (va2pa t args.uaddr) t args.val FUTEX_BITSET_MATCH_ANY reads.executed
        time = (reply, s'))
  | wakeOp (hop : Cmd.ofOp args.op = some .FUTEX_WAKE_OP)
      (h : s.futexWakeOp (va2pa t args.uaddr) (va2pa t args.uaddr2) t args.val args.val2 args.val3
        reads.oldval reads.executed time = .ok (reply, s'))
  | requeue (hop : Cmd.ofOp args.op = some .FUTEX_CMP_REQUEUE) (ha : args.uaddr ≠ args.uaddr2)
      (h : s.futexCmpRequeue fuel (va2pa t args.uaddr) (va2pa t args.uaddr2) t args.val args.val3
        reads.act_val time = some (reply, s'))

theorem handled_of_ok {va2pa : T → V → A} {fuel : Nat} {s : Server T A} {t : T}
    {args : FutexArgs V} {reads : Reads} {time : SubsecondTime} {reply : Reply}
    {s' : Server T A} (h : s.handleFutexCall va2pa fuel t args reads time = .ok (reply, s')) :
    Handled va2pa fuel s t args reads time reply s' := by
  rw [Server.handleFutexCall] at h
  cases hop : Cmd.ofOp args.op with
  | none => rw [hop] at h; cases h
  | some cmd =>
    rw [hop] at h
    cases cmd with
    | FUTEX_WAIT => exact .wait .FUTEX_WAIT (.inl rfl) hop (Except.ok.inj h)
    | FUTEX_WAIT_BITSET => exact .wait .FUTEX_WAIT_BITSET (.inr rfl) hop (Except.ok.inj h)
    | FUTEX_WAKE => exact .wake (.inl hop) (Except.ok.inj h)
    | FUTEX_WAKE_BITSET => exact .wake (.inr hop) (Except.ok.inj h)
    | FUTEX_WAKE_OP =>
      dsimp only at h
      split at h
      case h_1 => cases h
      case h_2 hr => cases h; exact .wakeOp hop hr
    | FUTEX_CMP_REQUEUE =>
      dsimp only at h
      split at h
      case isTrue => cases h
      case isFalse ha =>
        split at h
        case h_1 => cases h
        case h_2 hr => cases h; exact .requeue hop ha hr

/-! ## The invariant -/

/-- The discipline between two statements of the server; `hand` is a thread that was taken
out of a queue and not yet resumed or queued again. -/
structure Inv (s : Server T A) (hand : Option T) : Prop where
  parked : Parked s.waiting fun t => s.Stalled t ∧ hand ≠ some t
  held : ∀ t, hand = some t → s.Stalled t
  resumed : ∀ r ∈ s.tm.resumed, r.found.StalledFor reasons

namespace Inv
variable {s : Server T A}

omit [DecidableEq T] in
theorem take (hs : Inv s none) {p l₁ l₂ w} (hp : s.waiters p = l₁ ++ w :: l₂) :
    Inv (s.setWaiters p (l₁ ++ l₂)) (some w.thread_id) := by
  have hq : s.waiting p = l₁.map (·.thread_id) ++ w.thread_id :: l₂.map (·.thread_id) := by
    simp [Server.waiting, hp]
  refine ⟨?_, fun t ht => ?_, by rw [Server.tm_setWaiters]; exact hs.resumed⟩
  · rw [Server.waiting_setWaiters, List.map_append]
    refine (hs.parked.leave hq).congr fun t => ?_
    simp only [Server.Stalled, Server.tm_setWaiters]
    grind
  · cases ht
    have hw : w.thread_id ∈ s.waiting p := by rw [hq]; simp
    have hst := ((hs.parked.stalled_iff _).mpr ⟨p, hw⟩).1
    rwa [Server.Stalled, Server.tm_setWaiters]

omit [DecidableEq A] in
theorem resume {w} (hs : Inv s (some w)) (thread_by : Option T) (time : SubsecondTime) (msg : Bool) :
    Inv (s.resumeThread w thread_by time msg) none := by
  refine ⟨?_, nofun, fun r hr => ?_⟩
  · refine hs.parked.congr fun t => ?_
    simp only [Server.Stalled, Server.resumeThread, Manager.stalledFor_resumeThread]
    grind
  · rcases List.mem_append.mp hr with hr | hr
    · exact hs.resumed r hr
    · rw [List.mem_singleton.mp hr]
      exact hs.held w rfl

omit [DecidableEq T] in
theorem push {w} (hs : Inv s (some w.thread_id)) (p : Place A) :
    Inv (s.setWaiters p (s.waiters p ++ [w])) none := by
  have hw := hs.held w.thread_id rfl
  refine ⟨?_, nofun, by rw [Server.tm_setWaiters]; exact hs.resumed⟩
  rw [Server.waiting_setWaiters, List.map_append]
  refine (hs.parked.enter p (x := w.thread_id) fun h => h.2 rfl).congr fun t => ?_
  simp only [Server.Stalled, Server.tm_setWaiters]
  rw [Server.Stalled] at hw
  grind

omit [DecidableEq A] in
theorem stall (hs : Inv s none) {t} (ht : ¬ s.Stalled t) (reason : StallType)
    (hr : reason ∈ reasons) : Inv (s.stallThread t reason) (some t) := by
  have hst : ∀ u, (s.stallThread t reason).Stalled u ↔ u = t ∨ s.Stalled u := fun u =>
    Manager.stalledFor_stallThread hr t u
  refine ⟨?_, fun u hu => ?_, hs.resumed⟩
  · refine hs.parked.congr fun u => ?_
    grind
  · cases hu
    exact (hst t).mpr (.inl rfl)

theorem takeFirst_resume (hs : Inv s none) {p f w rest}
    (h : takeFirst f (s.waiters p) = some (w, rest)) (thread_by : Option T) (time : SubsecondTime)
    (msg : Bool) :
    Inv ((s.setWaiters p rest).resumeThread w.thread_id thread_by time msg) none := by
  obtain ⟨l₁, l₂, hp, rfl, -, -⟩ := takeFirst_some h
  exact (hs.take hp).resume thread_by time msg

theorem wakeLoop (hs : Inv s none) (a : A) (t : T) (mask : CInt) (time : SubsecondTime)
    (left : Nat) : Inv (Server.wakeLoop a t mask time left s).2 none := by
  induction left generalizing s with
  | zero => exact hs
  | succ left ih =>
    rw [Server.wakeLoop, Server.dequeueWaiter]
    cases h : takeFirst (meets mask) (s.m_futexes a) with
    | none => exact hs
    | some r => exact ih (hs.takeFirst_resume (p := .futex a) h (some t) time true)

omit [DecidableEq T] in
theorem requeueWaiter (hs : Inv s none) (a requeue : A) :
    Inv (s.requeueWaiter a requeue).2 none := by
  rw [Server.requeueWaiter]
  cases h : s.m_futexes a with
  | nil => exact hs
  | cons w rest =>
    exact (hs.take (p := .futex a) (show _ = [] ++ w :: rest from h)).push (.futex requeue)

omit [DecidableEq T] in
theorem requeueLoop {s'} (hs : Inv s none) {a requeue fuel}
    (h : Server.requeueLoop a requeue fuel s = some s') : Inv s' none := by
  induction fuel generalizing s with
  | zero => cases h
  | succ fuel ih =>
    have hnext := hs.requeueWaiter a requeue
    rw [Server.requeueLoop] at h
    split at h
    case h_1 heq => cases h; rwa [heq] at hnext
    case h_2 heq => rw [heq] at hnext; exact ih hnext h

theorem enqueueWaiter (hs : Inv s none) {t} (ht : ¬ s.Stalled t) (a : A) (mask : CInt)
    (timeout_time : SubsecondTime) : Inv (s.enqueueWaiter a t mask timeout_time) none :=
  (hs.stall ht StallType.STALL_FUTEX (by decide)).push (w := ⟨t, mask, timeout_time⟩)
    (.futex a)

theorem handleSleepCall (hs : Inv s none) {t} (ht : ¬ s.Stalled t) (wake_time : SubsecondTime) :
    Inv (s.handleSleepCall t wake_time) none :=
  (hs.stall ht StallType.STALL_SLEEP (by decide)).push (w := ⟨t, 0, wake_time⟩) .sleeping

theorem wakeSleeping (hs : Inv s none) (time : SubsecondTime) :
    Inv (s.wakeSleeping time) none := by
  rw [Server.wakeSleeping]
  split
  case h_1 => exact hs
  case h_2 h => exact hs.takeFirst_resume (p := .sleeping) h _ time false

theorem wakeTimedOut (hs : Inv s none) (time : SubsecondTime) (a : A) :
    Inv (Server.wakeTimedOut time s a) none := by
  rw [Server.wakeTimedOut]
  split
  case h_1 => exact hs
  case h_2 h => exact hs.takeFirst_resume (p := .futex a) h none time false

theorem foldl_wakeTimedOut (hs : Inv s none) (order : List A) (time : SubsecondTime) :
    Inv (order.foldl (Server.wakeTimedOut time) s) none := by
  induction order generalizing s with
  | nil => exact hs
  | cons a order ih => exact ih (hs.wakeTimedOut time a)

theorem futexWait (hs : Inv s none) {t} (ht : ¬ s.Stalled t) (a : A) (val act_val mask : CInt)
    (curr_time timeout_time : SubsecondTime) :
    Inv (s.futexWait a t val act_val mask curr_time timeout_time).2 none := by
  rw [Server.futexWait]
  split
  case isTrue => exact hs
  case isFalse => exact hs.enqueueWaiter ht a mask timeout_time

theorem futexWakeOp {s'} (hs : Inv s none) {a a2 t nr_wake nr_wake2 op oldval executed time reply}
    (h : s.futexWakeOp a a2 t nr_wake nr_wake2 op oldval executed time = .ok (reply, s')) :
    Inv s' none := by
  rw [Server.futexWakeOp] at h
  obtain ⟨⟨newval, op_ret⟩, -, h⟩ := of_bind_ok h
  have hfirst := hs.wakeLoop a t FUTEX_BITSET_MATCH_ANY
    (time + s.applyRescheduleCost executed true) (rounds nr_wake)
  cases op_ret with
  | false =>
    cases h
    exact hfirst
  | true =>
    cases h
    exact hfirst.wakeLoop a2 t _ _ _

theorem futexCmpRequeue {s'} (hs : Inv s none) {fuel a a2 t val val3 act_val time reply}
    (h : s.futexCmpRequeue fuel a a2 t val val3 act_val time = some (reply, s')) :
    Inv s' none := by
  rw [Server.futexCmpRequeue] at h
  split at h
  case isTrue => cases h; exact hs
  case isFalse =>
    obtain ⟨s₂, hs₂, he⟩ := Option.map_eq_some_iff.mp h
    cases he
    exact (hs.wakeLoop a t _ _ _).requeueLoop hs₂

theorem handleFutexCall {va2pa : T → V → A} {fuel : Nat} {t : T} {args : FutexArgs V}
    {reads : Reads} {time : SubsecondTime} {reply : Reply} {s' : Server T A} (hs : Inv s none)
    (ht : ¬ s.Stalled t)
    (h : s.handleFutexCall va2pa fuel t args reads time = .ok (reply, s')) : Inv s' none := by
  cases handled_of_ok h with
  | wait cmd hc hop h =>
    have hinv := hs.futexWait ht (va2pa t args.uaddr) args.val reads.act_val
      (waitMask cmd args) time (Server.timeoutTime cmd args.timeout time)
    rwa [h] at hinv
  | wake hop h =>
    have hinv := hs.wakeLoop (va2pa t args.uaddr) t FUTEX_BITSET_MATCH_ANY
      (time + s.applyRescheduleCost reads.executed true) (rounds args.val)
    cases h
    exact hinv
  | wakeOp hop h => exact hs.futexWakeOp h
  | requeue hop ha h => exact hs.futexCmpRequeue h

end Inv

theorem step_inv {va2pa : T → V → A} {s s' : Server T A} (hs : Inv s none)
    (h : Step va2pa s s') : Inv s' none := by
  cases h with
  | sleep t wake_time ht => exact hs.handleSleepCall (Server.not_stalled_of_running ht) wake_time
  | futex fuel t args reads time ht h =>
    exact hs.handleFutexCall (Server.not_stalled_of_running ht) h
  | periodic order time hn ho => exact (hs.wakeSleeping time).foldl_wakeTimedOut order time
  | elsewhere t state ht hstate =>
    refine ⟨hs.parked.congr fun u => ?_, nofun, hs.resumed⟩
    by_cases hu : u = t
    · subst hu
      rw [Server.Stalled] at ht
      simp [Server.Stalled, hstate, ht]
    · simp [Server.Stalled, hu]

omit [DecidableEq T] [DecidableEq A] in
theorem init_inv {s : Server T A} (h : Init s) : Inv s none := by
  have hw : ∀ p, s.waiting p = [] := by
    intro p
    cases p with
    | sleeping => rw [Server.waiting, Server.waiters, h.sleeping]; rfl
    | futex a => rw [Server.waiting, Server.waiters, h.futexes]; rfl
  refine ⟨.empty hw fun t ht => h.free t ht.1, nofun, fun r hr => ?_⟩
  rw [h.resumed] at hr
  cases hr

theorem runs_inv {va2pa : T → V → A} {s : Server T A} (h : Runs va2pa s) : Inv s none :=
  Reachable.invariant (P := fun s => Inv s none) (fun _ => init_inv) (fun _ _ => step_inv) h

end Sniper.Threads.Syscall
