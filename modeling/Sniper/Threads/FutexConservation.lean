import Sniper.Threads.FutexQueues

/-! # Futex waiters are conserved

What each loop of the system call server does to the queue it walks, the order in which
waiters are served, and the conservation of waiters over whole runs.
-/
namespace Sniper.Threads.Syscall
open Lib.Parking Lib.Simulation Function

variable {T V A : Type} [DecidableEq V]

/-! ## What the loops do to the queues -/

variable [DecidableEq A]

/-- The calls of `resumeThread` between two states. -/
def Resumes (s s' : Server T A) (woken : List (Waiter T)) : Prop :=
  ∃ log, s'.tm.resumed = s.tm.resumed ++ log ∧
    log.map (·.thread_id) = woken.map (·.thread_id)

/-- Waking up to `n` waiters of one futex: the first ones whose mask matches, in the order of
the queue, and fewer only when none of them is left. -/
structure Wakes (s : Server T A) (a : A) (mask : CInt) (n : Nat) (woken : List (Waiter T))
    (s' : Server T A) : Prop where
  first : woken = ((s.m_futexes a).filter (meets mask)).take n
  left : (s'.m_futexes a).filter (meets mask) =
    ((s.m_futexes a).filter (meets mask)).drop n
  passed : (s'.m_futexes a).filter (fun w => !meets mask w) =
    (s.m_futexes a).filter (fun w => !meets mask w)
  atMost : woken.length ≤ n
  fewer : woken.length < n → ∀ w ∈ s'.m_futexes a, meets mask w = false
  order : (s'.m_futexes a).Sublist (s.m_futexes a)
  other : ∀ a', a' ≠ a → s'.m_futexes a' = s.m_futexes a'
  sleeping : s'.m_sleeping = s.m_sleeping
  resumes : Resumes s s' woken

theorem length_take_le_first {q woken : List (Waiter T)} {n} (h : woken = q.take n) :
    woken.length ≤ n := by
  rw [h, List.length_take]
  exact Nat.min_le_left n _

theorem noneLeft {q q' woken : List (Waiter T)} {mask n}
    (hfirst : woken = (q.filter (meets mask)).take n)
    (hleft : q'.filter (meets mask) = (q.filter (meets mask)).drop n) (hlt : woken.length < n) :
    ∀ w ∈ q', meets mask w = false := by
  have hall : (q.filter (meets mask)).length ≤ n := by
    rw [hfirst, List.length_take] at hlt
    omega
  rw [List.drop_eq_nil_of_le hall] at hleft
  intro w hw
  simpa using List.filter_eq_nil_iff.mp hleft w hw

theorem wakeLoop_spec [DecidableEq T] (s : Server T A) (a : A) (t : T) (mask : CInt)
    (time : SubsecondTime)
    (n : Nat) : ∃ woken, (Server.wakeLoop a t mask time n s).1 = woken.length ∧
      Wakes s a mask n woken (Server.wakeLoop a t mask time n s).2 := by
  suffices h : ∃ woken, (Server.wakeLoop a t mask time n s).1 = woken.length ∧
      woken = ((s.m_futexes a).filter (meets mask)).take n ∧
      ((Server.wakeLoop a t mask time n s).2.m_futexes a).filter (meets mask) =
        ((s.m_futexes a).filter (meets mask)).drop n ∧
      ((Server.wakeLoop a t mask time n s).2.m_futexes a).filter (fun w => !meets mask w) =
        (s.m_futexes a).filter (fun w => !meets mask w) ∧
      ((Server.wakeLoop a t mask time n s).2.m_futexes a).Sublist (s.m_futexes a) ∧
      (∀ a', a' ≠ a → (Server.wakeLoop a t mask time n s).2.m_futexes a' = s.m_futexes a') ∧
      (Server.wakeLoop a t mask time n s).2.m_sleeping = s.m_sleeping ∧
      Resumes s (Server.wakeLoop a t mask time n s).2 woken by
    obtain ⟨woken, hlen, hfirst, hleft, hpassed, horder, hother, hsleep, hres⟩ := h
    exact ⟨woken, hlen, hfirst, hleft, hpassed, length_take_le_first hfirst,
      noneLeft hfirst hleft, horder, hother, hsleep, hres⟩
  induction n generalizing s with
  | zero =>
    exact ⟨[], rfl, by simp, rfl, rfl, .refl _, fun _ _ => rfl, rfl, [],
      by simp [Server.wakeLoop], rfl⟩
  | succ n ih =>
    rw [Server.wakeLoop, Server.dequeueWaiter]
    cases h : takeFirst (meets mask) (s.m_futexes a) with
    | none =>
      have hnone := takeFirst_none h
      have hfilter : (s.m_futexes a).filter (meets mask) = [] := by
        rw [List.filter_eq_nil_iff]
        intro w hw
        rw [hnone w hw]
        exact Bool.false_ne_true
      exact ⟨[], rfl, by rw [hfilter]; rfl, by rw [hfilter]; rfl, rfl, .refl _, fun _ _ => rfl,
        rfl, [], by simp, rfl⟩
    | some r =>
      obtain ⟨w, rest⟩ := r
      obtain ⟨l₁, l₂, hq, rfl, hw, hbefore⟩ := takeFirst_some h
      obtain ⟨woken, hlen, hfirst, hleft, hpassed, horder, hother, hsleep, log, hlog, hthreads⟩ :=
        ih ((s.setFutex a (l₁ ++ l₂)).resumeThread w.thread_id (some t) time true)
      have hrest : ((s.setFutex a (l₁ ++ l₂)).resumeThread w.thread_id (some t) time
          true).m_futexes a = l₁ ++ l₂ := by simp [Server.resumeThread, Server.setFutex]
      rw [hrest] at hfirst hleft hpassed horder
      have hl₁ : l₁.filter (meets mask) = [] := by
        rw [List.filter_eq_nil_iff]
        intro v hv
        rw [hbefore v hv]
        exact Bool.false_ne_true
      have hfilter : (s.m_futexes a).filter (meets mask) = w :: (l₁ ++ l₂).filter (meets mask) := by
        rw [hq, List.filter_append, List.filter_append, hl₁, List.filter_cons_of_pos hw]; rfl
      have hkeep : (s.m_futexes a).filter (fun v => !meets mask v) =
          (l₁ ++ l₂).filter (fun v => !meets mask v) := by
        rw [hq, List.filter_append, List.filter_append, List.filter_cons_of_neg (by simp [hw])]
      refine ⟨w :: woken, congrArg (· + 1) hlen, ?_, ?_, hpassed.trans hkeep.symm, ?_,
        fun a' ha' => ?_, hsleep, ?_⟩
      · rw [hfirst, hfilter, List.take_succ_cons]
      · rw [hleft, hfilter, List.drop_succ_cons]
      · refine horder.trans ?_
        rw [hq]
        exact (List.Sublist.refl l₁).append (List.sublist_cons_self w l₂)
      · rw [hother a' ha']
        simp [Server.resumeThread, Server.setFutex, ha']
      · refine ⟨⟨w.thread_id, some t, time, true, s.tm.m_thread_state w.thread_id⟩ :: log, ?_,
          congrArg (w.thread_id :: ·) hthreads⟩
        rw [hlog, Server.resumeThread, Manager.resumeThread, List.append_assoc]
        rfl

/-- Every waiter of one futex goes to the end of another one as it is. -/
structure Requeues (s : Server T A) (a requeue : A) (s' : Server T A) : Prop where
  source : s'.m_futexes a = []
  target : s'.m_futexes requeue = s.m_futexes requeue ++ s.m_futexes a
  other : ∀ a', a' ≠ a → a' ≠ requeue → s'.m_futexes a' = s.m_futexes a'
  sleeping : s'.m_sleeping = s.m_sleeping
  tm : s'.tm = s.tm

theorem Requeues.moved {s s' a requeue} (h : Requeues s a requeue s') (p : Place A) (w : Waiter T)
    (hw : w ∈ s'.waiters p) : ∃ p', w ∈ s.waiters p' := by
  cases p with
  | sleeping => exact ⟨.sleeping, by rwa [Server.waiters, h.sleeping] at hw⟩
  | futex x =>
    change w ∈ s'.m_futexes x at hw
    by_cases hx : x = requeue
    · subst hx
      rw [h.target] at hw
      rcases List.mem_append.mp hw with hw | hw
      · exact ⟨.futex x, hw⟩
      · exact ⟨.futex a, hw⟩
    · by_cases hxa : x = a
      · subst hxa
        rw [h.source] at hw
        cases hw
      · rw [h.other x hxa hx] at hw
        exact ⟨.futex x, hw⟩

section Requeue
variable {a requeue : A}

theorem requeueWaiter_cons {s : Server T A} (ha : a ≠ requeue) {w : Waiter T} {rest}
    (h : s.m_futexes a = w :: rest) :
    s.requeueWaiter a requeue = (some w.thread_id,
      (s.setFutex a rest).setFutex requeue (s.m_futexes requeue ++ [w])) := by
  simp [Server.requeueWaiter, h, Server.setFutex, ha.symm]

theorem requeueLoop_spec (ha : a ≠ requeue) {fuel : Nat} {s s' : Server T A}
    (h : Server.requeueLoop a requeue fuel s = some s') : Requeues s a requeue s' := by
  induction fuel generalizing s with
  | zero => cases h
  | succ fuel ih =>
    rw [Server.requeueLoop] at h
    cases hq : s.m_futexes a with
    | nil =>
      simp only [Server.requeueWaiter, hq] at h
      cases h
      exact ⟨hq, by rw [hq, List.append_nil], fun _ _ _ => rfl, rfl, rfl⟩
    | cons w rest =>
      rw [requeueWaiter_cons ha hq] at h
      obtain ⟨hsource, htarget, hother, hsleep, htm⟩ := ih h
      refine ⟨hsource, ?_, fun a' h1 h2 => ?_, hsleep, htm⟩
      · rw [htarget, hq]
        simp [Server.setFutex, ha]
      · rw [hother a' h1 h2]
        simp [Server.setFutex, h1, h2]

theorem requeueLoop_returns (ha : a ≠ requeue) {fuel} {s : Server T A}
    (hf : (s.m_futexes a).length < fuel) :
    ∃ s', ∀ fuel', fuel ≤ fuel' → Server.requeueLoop a requeue fuel' s = some s' := by
  induction fuel generalizing s with
  | zero => cases hf
  | succ fuel ih =>
    cases hq : s.m_futexes a with
    | nil =>
      refine ⟨s, fun fuel' hle => ?_⟩
      obtain ⟨k, rfl⟩ := Nat.exists_eq_add_of_le' hle
      rw [← Nat.add_assoc, Server.requeueLoop, Server.requeueWaiter, hq]
    | cons w rest =>
      have hlen : (((s.setFutex a rest).setFutex requeue (s.m_futexes requeue ++ [w])).m_futexes
          a).length < fuel := by
        rw [hq] at hf
        simpa [Server.setFutex, ha] using hf
      obtain ⟨s', hs'⟩ := ih hlen
      refine ⟨s', fun fuel' hle => ?_⟩
      obtain ⟨k, rfl⟩ := Nat.exists_eq_add_of_le' hle
      rw [← Nat.add_assoc, Server.requeueLoop, requeueWaiter_cons ha hq]
      exact hs' _ (Nat.le_add_left fuel k)

theorem requeueLoop_total (ha : a ≠ requeue) (s : Server T A) :
    ∃ n s', ∀ fuel, n ≤ fuel → Server.requeueLoop a requeue fuel s = some s' :=
  ⟨_, requeueLoop_returns ha (Nat.lt_succ_self _)⟩

end Requeue

/-- A queue loses nobody, or one waiter whose timeout has passed. -/
def Loses (time : SubsecondTime) (q q' : List (Waiter T)) : Prop :=
  q' = q ∨ ∃ l₁ w l₂, q = l₁ ++ w :: l₂ ∧ q' = l₁ ++ l₂ ∧ w.timeout ≤ time

/-- What one walk over the timeouts does: whoever it resumes waited with a timeout that has
passed. -/
structure Times (s : Server T A) (time : SubsecondTime) (s' : Server T A) : Prop where
  loses : ∀ p, Loses time (s.waiters p) (s'.waiters p)
  resumes : ∃ log, s'.tm.resumed = s.tm.resumed ++ log ∧ ∀ r ∈ log, r.time = time ∧
    r.msg = false ∧ ∃ p, ∃ w ∈ s.waiters p, w.thread_id = r.thread_id ∧ w.timeout ≤ time

theorem Loses.subset {time : SubsecondTime} {q q' : List (Waiter T)} (h : Loses time q q')
    {w : Waiter T} (hw : w ∈ q') : w ∈ q := by
  rcases h with rfl | ⟨l₁, v, l₂, rfl, rfl, -⟩
  · exact hw
  · rcases List.mem_append.mp hw with hw | hw
    · exact List.mem_append_left _ hw
    · exact List.mem_append_right _ (List.mem_cons_of_mem v hw)

namespace Times
variable {s s₁ s₂ : Server T A} {time : SubsecondTime}

omit [DecidableEq A] in
theorem refl (s : Server T A) (time : SubsecondTime) : Times s time s :=
  ⟨fun _ => .inl rfl, [], by simp, nofun⟩

omit [DecidableEq A] in
theorem trans (h₁ : Times s time s₁) (h₂ : Times s₁ time s₂)
    (hp : ∀ p, s₁.waiters p = s.waiters p ∨ s₂.waiters p = s₁.waiters p) : Times s time s₂ := by
  refine ⟨fun p => ?_, ?_⟩
  · rcases hp p with h | h
    · rw [← h]; exact h₂.loses p
    · rw [h]; exact h₁.loses p
  · obtain ⟨log₁, hlog₁, hr₁⟩ := h₁.resumes
    obtain ⟨log₂, hlog₂, hr₂⟩ := h₂.resumes
    refine ⟨log₁ ++ log₂, by rw [hlog₂, hlog₁, List.append_assoc], fun r hr => ?_⟩
    rcases List.mem_append.mp hr with hr | hr
    · exact hr₁ r hr
    · obtain ⟨htime, hmsg, p, w, hw, hid, hle⟩ := hr₂ r hr
      exact ⟨htime, hmsg, p, w, (h₁.loses p).subset hw, hid, hle⟩

variable [DecidableEq T]

theorem takeFirst {p w rest}
    (h : takeFirst (fun w => decide (w.timeout ≤ time)) (s.waiters p) = some (w, rest))
    (thread_by : Option T) :
    Times s time ((s.setWaiters p rest).resumeThread w.thread_id thread_by time false) := by
  obtain ⟨l₁, l₂, hq, rfl, hw, -⟩ := takeFirst_some h
  have hw' : w.timeout ≤ time := by simpa using hw
  refine ⟨fun p' => ?_, ⟨[⟨w.thread_id, thread_by, time, false,
    s.tm.m_thread_state w.thread_id⟩], ?_, fun r hr => ?_⟩⟩
  · rw [Server.waiters_resumeThread, Server.waiters_setWaiters]
    split
    case isTrue heq => rw [heq]; exact .inr ⟨l₁, w, l₂, hq, rfl, hw'⟩
    case isFalse => exact .inl rfl
  · simp [Server.resumeThread, Manager.resumeThread]
  · rw [List.mem_singleton.mp hr]
    exact ⟨rfl, rfl, p, w, by rw [hq]; simp, rfl, hw'⟩

theorem wakeSleeping (s : Server T A) (time : SubsecondTime) :
    Times s time (s.wakeSleeping time) ∧
      ∀ a, (s.wakeSleeping time).m_futexes a = s.m_futexes a := by
  rw [Server.wakeSleeping]
  split
  case h_1 => exact ⟨refl s time, fun _ => rfl⟩
  case h_2 h => exact ⟨takeFirst (p := .sleeping) h _, fun _ => rfl⟩

theorem wakeTimedOut (s : Server T A) (time : SubsecondTime) (a : A) :
    Times s time (Server.wakeTimedOut time s a) ∧
      ∀ p, p ≠ .futex a → (Server.wakeTimedOut time s a).waiters p = s.waiters p := by
  rw [Server.wakeTimedOut]
  split
  case h_1 => exact ⟨refl s time, fun _ _ => rfl⟩
  case h_2 w rest h =>
    refine ⟨takeFirst (p := .futex a) h none, fun p hp => ?_⟩
    have hset := s.waiters_setWaiters (.futex a) p rest
    rw [if_neg hp] at hset
    exact hset

theorem walk {order : List A} (hn : order.Nodup) (s : Server T A) (time : SubsecondTime) :
    Times s time (order.foldl (Server.wakeTimedOut time) s) ∧
      ∀ p, (∀ a ∈ order, p ≠ .futex a) →
        (order.foldl (Server.wakeTimedOut time) s).waiters p = s.waiters p := by
  induction order generalizing s with
  | nil => exact ⟨refl s time, fun _ _ => rfl⟩
  | cons a order ih =>
    obtain ⟨ha, hn⟩ := List.nodup_cons.mp hn
    obtain ⟨h₁, hframe₁⟩ := wakeTimedOut s time a
    obtain ⟨h₂, hframe₂⟩ := ih hn (Server.wakeTimedOut time s a)
    refine ⟨h₁.trans h₂ fun p => ?_, fun p hp => ?_⟩
    · by_cases hp : p = .futex a
      · right
        refine hframe₂ p fun a' ha' h => ha ?_
        rw [hp] at h
        cases h
        exact ha'
      · exact .inl (hframe₁ p hp)
    · rw [List.foldl_cons, hframe₂ p fun a' ha' => hp a' (List.mem_cons_of_mem a ha'),
        hframe₁ p (hp a List.mem_cons_self)]

theorem futexPeriodic {order : List A} (hn : order.Nodup) (s : Server T A)
    (time : SubsecondTime) : Times s time (s.futexPeriodic order time) := by
  obtain ⟨h₁, hframe₁⟩ := wakeSleeping s time
  obtain ⟨h₂, hframe₂⟩ := walk hn (s.wakeSleeping time) time
  refine h₁.trans h₂ fun p => ?_
  cases p with
  | sleeping => exact .inr (hframe₂ .sleeping fun _ _ => nofun)
  | futex a => exact .inl (hframe₁ a)

end Times

/-! ## Conservation -/

/-- What a futex call that did not end in an assertion does, by its command. -/
structure FutexEffect (va2pa : T → V → A) (s : Server T A) (t : T) (args : FutexArgs V)
    (reads : Reads) (time : SubsecondTime) (reply : Reply) (s' : Server T A) : Prop where
  wait : ∀ cmd, Cmd.ofOp args.op = some cmd → cmd = .FUTEX_WAIT ∨ cmd = .FUTEX_WAIT_BITSET →
    if args.val = reads.act_val then
      (∀ p, s'.waiters p = if p = .futex (va2pa t args.uaddr) then
        s.waiters p ++ [⟨t, waitMask cmd args, Server.timeoutTime cmd args.timeout time⟩]
        else s.waiters p) ∧ s'.Stalled t ∧ s'.tm.resumed = s.tm.resumed
    else s' = s
  wake : Cmd.ofOp args.op = some .FUTEX_WAKE ∨ Cmd.ofOp args.op = some .FUTEX_WAKE_BITSET →
    ∃ woken, Wakes s (va2pa t args.uaddr) FUTEX_BITSET_MATCH_ANY (rounds args.val) woken s' ∧
      reply.map Prod.fst = some (woken.length : Int)
  wakeOp : Cmd.ofOp args.op = some .FUTEX_WAKE_OP → ∃ newval op_ret s₁ woken woken₂,
    futexDoOp args.val3 reads.oldval = .ok (newval, op_ret) ∧
    Wakes s (va2pa t args.uaddr) FUTEX_BITSET_MATCH_ANY (rounds args.val) woken s₁ ∧
    Wakes s₁ (va2pa t args.uaddr2) FUTEX_BITSET_MATCH_ANY
      (if op_ret then rounds args.val2 else 0) woken₂ s' ∧
    reply.map Prod.fst = some (woken.length + woken₂.length : Int)
  requeue : Cmd.ofOp args.op = some .FUTEX_CMP_REQUEUE →
    if args.val3 = reads.act_val then
      ∃ s₁ woken, Wakes s (va2pa t args.uaddr) FUTEX_BITSET_MATCH_ANY (rounds args.val) woken s₁ ∧
        Requeues s₁ (va2pa t args.uaddr) (va2pa t args.uaddr2) s' ∧
        reply = some ((woken.length : Int), time)
    else s' = s

theorem wait_effect [DecidableEq T] {s s' : Server T A}
    {a t val act_val mask time timeout_time reply}
    (h : s.futexWait a t val act_val mask time timeout_time = (reply, s')) :
    if val = act_val then
      (∀ p, s'.waiters p = if p = .futex a then s.waiters p ++ [⟨t, mask, timeout_time⟩]
        else s.waiters p) ∧ s'.Stalled t ∧ s'.tm.resumed = s.tm.resumed
    else s' = s := by
  rw [Server.futexWait] at h
  by_cases hv : val = act_val
  · rw [if_neg (not_not.mpr hv)] at h
    rw [if_pos hv]
    cases h
    refine ⟨fun p => ?_, (Manager.stalledFor_stallThread (by decide) t t).mpr (.inl rfl), rfl⟩
    have hset := s.waiters_setWaiters (.futex a) p (s.m_futexes a ++ [⟨t, mask, timeout_time⟩])
    have hstall : (s.enqueueWaiter a t mask timeout_time).waiters p =
        (s.setWaiters (.futex a) (s.m_futexes a ++ [⟨t, mask, timeout_time⟩])).waiters p := by
      cases p <;> rfl
    rw [hstall, hset]
    split
    case isTrue hp => rw [hp]; rfl
    case isFalse => rfl
  · rw [if_pos hv] at h
    rw [if_neg hv]
    cases h
    rfl

theorem wakeOp_effect [DecidableEq T] {s s' : Server T A}
    {a a2 t nr_wake nr_wake2 op oldval executed time}
    {reply : Reply}
    (h : s.futexWakeOp a a2 t nr_wake nr_wake2 op oldval executed time = .ok (reply, s')) :
    ∃ newval op_ret s₁ woken woken₂, futexDoOp op oldval = .ok (newval, op_ret) ∧
      Wakes s a FUTEX_BITSET_MATCH_ANY (rounds nr_wake) woken s₁ ∧
      Wakes s₁ a2 FUTEX_BITSET_MATCH_ANY (if op_ret then rounds nr_wake2 else 0) woken₂ s' ∧
      reply.map Prod.fst = some (woken.length + woken₂.length : Int) := by
  rw [Server.futexWakeOp] at h
  obtain ⟨⟨newval, op_ret⟩, hop, h⟩ := of_bind_ok h
  obtain ⟨woken, hlen, hw⟩ := wakeLoop_spec s a t FUTEX_BITSET_MATCH_ANY
    (time + s.applyRescheduleCost executed true) (rounds nr_wake)
  obtain ⟨woken₂, hlen₂, hw₂⟩ := wakeLoop_spec (Server.wakeLoop a t FUTEX_BITSET_MATCH_ANY
    (time + s.applyRescheduleCost executed true) (rounds nr_wake) s).2 a2 t
    FUTEX_BITSET_MATCH_ANY (time + s.applyRescheduleCost executed true)
    (if op_ret then rounds nr_wake2 else 0)
  cases op_ret with
  | false =>
    cases h
    refine ⟨newval, false, _, woken, woken₂, hop, hw, hw₂, ?_⟩
    rw [← hlen, ← hlen₂]
    rfl
  | true =>
    cases h
    refine ⟨newval, true, _, woken, woken₂, hop, hw, hw₂, ?_⟩
    rw [← hlen, ← hlen₂]
    rfl

theorem requeue_effect [DecidableEq T] {s s' : Server T A} {fuel : Nat} {a a2 : A} (ha : a ≠ a2)
    {t : T}
    {val val3 act_val : CInt} {time : SubsecondTime} {reply : Reply}
    (h : s.futexCmpRequeue fuel a a2 t val val3 act_val time = some (reply, s')) :
    if val3 = act_val then
      ∃ s₁ woken, Wakes s a FUTEX_BITSET_MATCH_ANY (rounds val) woken s₁ ∧
        Requeues s₁ a a2 s' ∧ reply = some ((woken.length : Int), time)
    else s' = s := by
  rw [Server.futexCmpRequeue] at h
  by_cases hv : val3 = act_val
  · rw [if_neg (not_not.mpr hv)] at h
    rw [if_pos hv]
    obtain ⟨woken, hlen, hw⟩ := wakeLoop_spec s a t FUTEX_BITSET_MATCH_ANY time (rounds val)
    obtain ⟨s₂, hs₂, he⟩ := Option.map_eq_some_iff.mp h
    cases he
    exact ⟨_, woken, hw, requeueLoop_spec ha hs₂, by rw [hlen]⟩
  · rw [if_pos hv] at h
    rw [if_neg hv]
    cases h
    rfl

theorem futex_effect [DecidableEq T] {va2pa : T → V → A} (hva : ∀ t, Injective (va2pa t))
    {fuel : Nat}
    {s s' : Server T A} {t : T} {args : FutexArgs V} {reads : Reads} {time : SubsecondTime}
    {reply : Reply} (h : s.handleFutexCall va2pa fuel t args reads time = .ok (reply, s')) :
    FutexEffect va2pa s t args reads time reply s' := by
  cases handled_of_ok h with
  | wait cmd hc hop h =>
    refine ⟨fun cmd' hop' _ => ?_, fun hop' => ?_, fun hop' => ?_, fun hop' => ?_⟩
    · rw [hop] at hop'
      cases hop'
      exact wait_effect h
    all_goals
      rw [hop] at hop'
      rcases hc with rfl | rfl <;> simp at hop'
  | wake hop h =>
    refine ⟨fun cmd' hop' hc => ?_, fun _ => ?_, fun hop' => ?_, fun hop' => ?_⟩
    · rw [hop'] at hop
      rcases hc with rfl | rfl <;> simp at hop
    · obtain ⟨woken, hlen, hw⟩ := wakeLoop_spec s (va2pa t args.uaddr) t FUTEX_BITSET_MATCH_ANY
        (time + s.applyRescheduleCost reads.executed true) (rounds args.val)
      cases h
      exact ⟨woken, hw, by rw [← hlen]; rfl⟩
    all_goals
      rw [hop'] at hop
      simp at hop
  | wakeOp hop h =>
    refine ⟨fun cmd' hop' hc => ?_, fun hop' => ?_, fun _ => wakeOp_effect h, fun hop' => ?_⟩
    · rw [hop] at hop'
      cases hop'
      simp at hc
    all_goals
      rw [hop] at hop'
      simp at hop'
  | requeue hop ha h =>
    refine ⟨fun cmd' hop' hc => ?_, fun hop' => ?_, fun hop' => ?_, fun _ =>
      requeue_effect (fun he => ha (hva t he)) h⟩
    · rw [hop] at hop'
      cases hop'
      simp at hc
    all_goals
      rw [hop] at hop'
      simp at hop'

/-! ### Order of arrival -/

omit [DecidableEq A] in
theorem Inv.waiters_nodup {s : Server T A} (hs : Inv s none) (p : Place A) :
    (s.waiters p).Nodup :=
  List.Nodup.of_map _ (hs.parked.nodup p)

omit [DecidableEq A] in
/-- A waiter whose thread is still stalled after the queues shrank, and perhaps moved, is
still where it was before they moved. -/
theorem Inv.still {s s₁ s' : Server T A} (hs : Inv s none) (hs' : Inv s' none)
    (hshrink : ∀ p, s₁.waiters p ⊆ s.waiters p)
    (hmove : ∀ p w, w ∈ s'.waiters p → ∃ p', w ∈ s₁.waiters p') {p} {a : Waiter T}
    (ha : a ∈ s.waiters p) (hst : s'.Stalled a.thread_id) : a ∈ s₁.waiters p := by
  obtain ⟨p', hp'⟩ := (hs'.parked.stalled_iff _).mp ⟨hst, nofun⟩
  obtain ⟨w, hw, hid⟩ := List.mem_map.mp hp'
  obtain ⟨q, hq⟩ := hmove p' w hw
  have hwq := hshrink q hq
  have hplace := hs.parked.place q p a.thread_id (hid ▸ List.mem_map_of_mem hwq)
    (List.mem_map_of_mem ha)
  subst hplace
  have hwa : w = a := List.inj_on_of_nodup_map (hs.parked.nodup q) hwq ha hid
  exact hwa ▸ hq

theorem Wakes.ahead {s s' : Server T A} {y mask n woken} (h : Wakes s y mask n woken s') {x a b}
    (hn : (s.m_futexes x).Nodup) (hab : Ahead a b (s.m_futexes x)) (hm : meets mask a = true)
    (ha : a ∈ s'.m_futexes x) : Ahead a b (s'.m_futexes x) := by
  by_cases hxy : x = y
  · subst hxy
    refine hab.sublist h.order hn ha ?_
    cases hb : meets mask b with
    | false =>
      have hb' : b ∈ (s'.m_futexes x).filter fun w => !meets mask w := by
        rw [h.passed]
        exact List.mem_filter.mpr ⟨hab.mem_right, by simp [hb]⟩
      exact (List.mem_filter.mp hb').1
    | true =>
      have hadrop : a ∈ ((s.m_futexes x).filter (meets mask)).drop n := by
        rw [← h.left]
        exact List.mem_filter.mpr ⟨ha, hm⟩
      have hfilter : Ahead a b ((s.m_futexes x).filter (meets mask)) := by
        have := List.Sublist.filter (meets mask) hab
        rwa [List.filter_cons_of_pos hm, List.filter_cons_of_pos hb, List.filter_nil] at this
      rw [← List.take_append_drop n ((s.m_futexes x).filter (meets mask))] at hfilter
      have hnd := hn.filter (meets mask)
      rw [← List.take_append_drop n ((s.m_futexes x).filter (meets mask))] at hnd
      have hatake : a ∉ ((s.m_futexes x).filter (meets mask)).take n := fun ht =>
        List.disjoint_of_nodup_append hnd ht hadrop
      have hbdrop := (hfilter.of_append hatake).mem_right
      rw [← h.left] at hbdrop
      exact (List.mem_filter.mp hbdrop).1
  · rw [h.other x hxy]
    exact hab

theorem Wakes.shrink {s s' : Server T A} {y mask n woken} (h : Wakes s y mask n woken s')
    (p : Place A) :
    (s'.waiters p).Sublist (s.waiters p) := by
  cases p with
  | sleeping => rw [Server.waiters, h.sleeping]; exact .refl _
  | futex a =>
    by_cases ha : a = y
    · subst ha; exact h.order
    · rw [Server.waiters, h.other a ha]; exact .refl _

theorem Loses.sublist {time} {q q' : List (Waiter T)} (h : Loses time q q') :
    q'.Sublist q := by
  rcases h with rfl | ⟨l₁, w, l₂, rfl, rfl, -⟩
  · exact .refl _
  · exact (List.Sublist.refl l₁).append (List.sublist_cons_self w l₂)

theorem meets_any {w : Waiter T} (h : w.mask ≠ 0) : meets FUTEX_BITSET_MATCH_ANY w = true := by
  have hand : FUTEX_BITSET_MATCH_ANY &&& w.mask = w.mask := BitVec.allOnes_and
  rw [meets, hand]
  exact decide_eq_true h

variable [DecidableEq T]

/-- A step after which `a` is still stalled, and which is no walk over the timeouts that
wakes `b`. -/
structure Patient (va2pa : T → V → A) (a b : Waiter T) (s s' : Server T A) : Prop where
  step : Step va2pa s s'
  ahead : s'.Stalled a.thread_id
  behind : (∃ order time, s' = s.futexPeriodic order time) → s'.Stalled b.thread_id

theorem ahead_step {va2pa : T → V → A} (hva : ∀ t, Injective (va2pa t))
    {s s' : Server T A} (hs : Inv s none) {a b : Waiter T} (ha : a.mask ≠ 0)
    (h : Patient va2pa a b s s') {x : A} (hab : Ahead a b (s.m_futexes x)) :
    ∃ x', Ahead a b (s'.m_futexes x') := by
  have hs' := step_inv hs h.step
  have hn := hs.waiters_nodup (.futex x)
  have hax : a ∈ s.waiters (.futex x) := hab.mem_left
  have hm := meets_any ha
  have hst := h.ahead
  cases h.step with
  | sleep t wake_time ht | elsewhere => exact ⟨x, hab⟩
  | periodic order time hnodup ho =>
    have htimes := Times.futexPeriodic hnodup s time
    have hshrink : ∀ p, (s.futexPeriodic order time).waiters p ⊆ s.waiters p := fun p w hw =>
      (htimes.loses p).subset hw
    have hbst := h.behind ⟨order, time, rfl⟩
    have hbx : b ∈ s.waiters (.futex x) := hab.mem_right
    exact ⟨x, hab.sublist (htimes.loses (.futex x)).sublist hn
      (hs.still hs' hshrink (fun p w hw => ⟨p, hw⟩) hax hst)
      (hs.still hs' hshrink (fun p w hw => ⟨p, hw⟩) hbx hbst)⟩
  | futex fuel t args reads time ht h =>
    cases handled_of_ok h with
    | wait cmd hc hop h =>
      have heffect := wait_effect h
      split at heffect
      case isTrue =>
        have hq := heffect.1 (.futex x)
        refine ⟨x, ?_⟩
        change Ahead a b (s'.waiters (.futex x))
        rw [hq]
        split
        case isTrue => exact hab.append _
        case isFalse => exact hab
      case isFalse => rw [heffect]; exact ⟨x, hab⟩
    | wake hop h =>
      obtain ⟨woken, -, hw⟩ := wakeLoop_spec s (va2pa t args.uaddr) t FUTEX_BITSET_MATCH_ANY
        (time + s.applyRescheduleCost reads.executed true) (rounds args.val)
      cases h
      exact ⟨x, hw.ahead hn hab hm (hs.still hs' (fun p => (hw.shrink p).subset)
        (fun p w hw => ⟨p, hw⟩) hax hst)⟩
    | wakeOp hop h =>
      obtain ⟨_, _, s₁, woken, woken₂, -, hw, hw₂, -⟩ := wakeOp_effect h
      have hmem₂ := hs.still hs' (fun p => ((hw₂.shrink p).trans (hw.shrink p)).subset)
        (fun p w hw => ⟨p, hw⟩) hax hst
      have hmem₁ : a ∈ s₁.m_futexes x := (hw₂.shrink (.futex x)).subset hmem₂
      have hn₁ := hn.sublist (hw.shrink (.futex x))
      exact ⟨x, hw₂.ahead hn₁ (hw.ahead hn hab hm hmem₁) hm hmem₂⟩
    | requeue hop hne h =>
      have hne' : va2pa t args.uaddr ≠ va2pa t args.uaddr2 := fun he => hne (hva t he)
      have heffect := requeue_effect hne' h
      split at heffect
      case isFalse => rw [heffect]; exact ⟨x, hab⟩
      case isTrue =>
        obtain ⟨s₁, woken, hw, hr, -⟩ := heffect
        have hmem₁ := hs.still hs' (fun p => (hw.shrink p).subset) hr.moved hax hst
        have hab₁ := hw.ahead hn hab hm hmem₁
        by_cases hsource : x = va2pa t args.uaddr
        · exact ⟨va2pa t args.uaddr2, by rw [hr.target]; exact (hsource ▸ hab₁).prepend _⟩
        · by_cases htarget : x = va2pa t args.uaddr2
          · subst htarget
            exact ⟨_, by rw [hr.target]; exact hab₁.append _⟩
          · exact ⟨x, by rw [hr.other x hsource htarget]; exact hab₁⟩

/-! ### The theorem -/

/-- What holds of the server in every state, of each call and each walk over the timeouts
there, and of the way on. -/
structure Conservation (va2pa : T → V → A) (s : Server T A) : Prop where
  parked : ∀ t, s.Stalled t → ∃! p, t ∈ s.waiting p
  once : ∀ p, (s.waiting p).Nodup
  running : ∀ t p, s.Running t → t ∉ s.waiting p
  resumed : ∀ r ∈ s.tm.resumed, r.found.StalledFor reasons
  sleep : ∀ t wake_time, s.Running t → (s.handleSleepCall t wake_time).Stalled t ∧
    ∀ p, (s.handleSleepCall t wake_time).waiters p =
      if p = .sleeping then s.waiters p ++ [⟨t, 0, wake_time⟩] else s.waiters p
  futex : ∀ fuel t args reads time reply s', s.Running t →
    s.handleFutexCall va2pa fuel t args reads time = .ok (reply, s') →
      FutexEffect va2pa s t args reads time reply s'
  requeueReturns : ∀ t args reads time, Cmd.ofOp args.op = some .FUTEX_CMP_REQUEUE →
    args.uaddr ≠ args.uaddr2 → ∃ reply s' n, ∀ fuel, n ≤ fuel →
      s.handleFutexCall va2pa fuel t args reads time = .ok (reply, s')
  periodic : ∀ order time, order.Nodup → Times s time (s.futexPeriodic order time)
  order : ∀ x a b s', Ahead a b (s.m_futexes x) → a.mask ≠ 0 →
    Relation.ReflTransGen (Patient va2pa a b) s s' → ∃ x', Ahead a b (s'.m_futexes x')

theorem requeue_returns {va2pa} (hva : ∀ t, Injective (va2pa t)) (s : Server T A) (t : T)
    (args : FutexArgs V) (reads : Reads) (time : SubsecondTime)
    (hop : Cmd.ofOp args.op = some .FUTEX_CMP_REQUEUE) (hne : args.uaddr ≠ args.uaddr2) :
    ∃ reply s' n, ∀ fuel, n ≤ fuel →
      s.handleFutexCall va2pa fuel t args reads time = .ok (reply, s') := by
  have hne' : va2pa t args.uaddr ≠ va2pa t args.uaddr2 := fun he => hne (hva t he)
  by_cases hv : args.val3 = reads.act_val
  · obtain ⟨n, s₂, hs₂⟩ := requeueLoop_total hne' (Server.wakeLoop
      (va2pa t args.uaddr) t FUTEX_BITSET_MATCH_ANY time (rounds args.val) s).2
    refine ⟨some (((Server.wakeLoop (va2pa t args.uaddr) t FUTEX_BITSET_MATCH_ANY time
      (rounds args.val) s).1 : Int), time), s₂, n, fun fuel hfuel => ?_⟩
    simp only [Server.handleFutexCall, hop, if_neg hne, Server.futexCmpRequeue,
      if_neg (not_not.mpr hv), hs₂ fuel hfuel, Option.map_some]
  · refine ⟨some (-EWOULDBLOCK, time), s, 0, fun fuel _ => ?_⟩
    simp only [Server.handleFutexCall, hop, if_neg hne, Server.futexCmpRequeue]
    rw [if_pos hv]

/-- **Conservation of waiters**: with physical addresses that tell the words apart, in every run
of the server a thread it stalled waits in exactly one queue, is woken or requeued in the order
of arrival, and by the clock only when its timeout has passed. -/
theorem waiters_conserved {va2pa : T → V → A} (hva : ∀ t, Injective (va2pa t))
    {s : Server T A} (h : Runs va2pa s) : Conservation va2pa s where
  parked t ht := (runs_inv h).parked.existsUnique ⟨ht, nofun⟩
  once := (runs_inv h).parked.nodup
  running t p ht := (runs_inv h).parked.not_mem (fun hst =>
    Server.not_stalled_of_running ht hst.1) p
  resumed := (runs_inv h).resumed
  sleep t wake_time ht := by
    refine ⟨(Manager.stalledFor_stallThread (by decide) t t).mpr (.inl rfl), fun p => ?_⟩
    cases p with
    | sleeping => rw [if_pos rfl]; rfl
    | futex a => rw [if_neg (by simp)]; rfl
  futex _ _ _ _ _ _ _ _ h := futex_effect hva h
  requeueReturns := requeue_returns hva s
  periodic _ time hn := Times.futexPeriodic hn s time
  order x a b s' hab ha hrun := by
    have hreach : Runs va2pa s' ∧ ∃ x', Ahead a b (s'.m_futexes x') := by
      induction hrun with
      | refl => exact ⟨h, x, hab⟩
      | tail _ hst ih =>
        obtain ⟨hr, x', hx'⟩ := ih
        exact ⟨hr.step hst.step, ahead_step hva (runs_inv hr) ha hst hx'⟩
    exact hreach.2

/-- Running threads, and nobody waits. -/
def idle : Server Nat Nat where
  m_sleeping := []
  m_futexes _ := []
  m_reschedule_cost := 0
  tm := ⟨fun _ => ⟨.RUNNING, .STALL_FUTEX⟩, []⟩

/-- Threads 1 and 2 wait for the futex at address 0, in this order and without a timeout. -/
def twoWaiters : Server Nat Nat :=
  (idle.enqueueWaiter 0 1 FUTEX_BITSET_MATCH_ANY MaxTime).enqueueWaiter 0 2
    FUTEX_BITSET_MATCH_ANY MaxTime

theorem twoWaiters_runs : Runs (fun (_ : Nat) (v : Nat) => v) twoWaiters := by
  have h0 : Runs (fun (_ : Nat) (v : Nat) => v) idle :=
    .init ⟨rfl, fun _ => rfl, fun _ h => (nomatch h.1), rfl⟩
  have h1 := h0.step (.futex 0 1 ⟨0, 0, 0, none, 0, 0, 0⟩ ⟨0, 0, true⟩ 0 rfl rfl)
  exact h1.step (.futex 0 2 ⟨0, 0, 0, none, 0, 0, 0⟩ ⟨0, 0, true⟩ 0 rfl rfl)

theorem waiters_conserved_twoWaiters :
    twoWaiters.waiting (.futex 0) = [1, 2] ∧ twoWaiters.Stalled 1 ∧ twoWaiters.Stalled 2 ∧
      Conservation (fun (_ : Nat) (v : Nat) => v) twoWaiters :=
  ⟨rfl, ⟨rfl, by decide⟩, ⟨rfl, by decide⟩, waiters_conserved (fun _ _ _ h => h) twoWaiters_runs⟩

end Sniper.Threads.Syscall
