import Sniper.Threads.FutexConservation

/-! # Which waiters a wake with a bitset wakes

A wake with the mask of its call takes the first waiters that share a bit with it. The code
passes the mask that matches every waiter, so that the two agree on the queues whose first waiters
all share a bit with the mask of the call.
-/
namespace Sniper.Threads.Syscall

variable {T V A : Type} [DecidableEq V]

/-- The mask of a waking call. -/
def wakeMask (cmd : Cmd) (args : FutexArgs V) : CInt :=
  if cmd = .FUTEX_WAKE_BITSET then args.val3 else FUTEX_BITSET_MATCH_ANY

/-- The call wakes the first waiters of its futex that share a bit with the mask, as many as it
asks for, and returns their number. -/
def AnswersWake [DecidableEq T] [DecidableEq A] (va2pa : T → V → A) (fuel : Nat) (s : Server T A)
    (t : T) (args : FutexArgs V)
    (reads : Reads) (curr_time : SubsecondTime) (mask : CInt) : Prop :=
  ∃ (woken : List (Waiter T)) (time : SubsecondTime) (s' : Server T A),
    s.handleFutexCall va2pa fuel t args reads curr_time =
      .ok (some ((woken.length : Nat), time), s') ∧
    Wakes s (va2pa t args.uaddr) mask (rounds args.val) woken s'

/-! ### Two masks -/

theorem meets_any_of_meets {mask : CInt} {w : Waiter T} (h : meets mask w = true) :
    meets FUTEX_BITSET_MATCH_ANY w = true := by
  refine meets_any fun h0 => ?_
  have hne : mask &&& w.mask ≠ 0 := of_decide_eq_true h
  rw [h0] at hne
  exact hne BitVec.and_zero

theorem take_drop_filter {α : Type} {p} {l : List α} {n} (h : ∀ a ∈ l.take n, p a = true) :
    (l.filter p).take n = l.take n ∧ (l.filter p).drop n = (l.drop n).filter p := by
  have hsplit : l.filter p = l.take n ++ (l.drop n).filter p := by
    nth_rewrite 1 [← List.take_append_drop n l]
    rw [List.filter_append, List.filter_eq_self.mpr h]
  rw [hsplit]
  by_cases hlen : l.length ≤ n
  · rw [List.drop_eq_nil_of_le hlen, List.take_of_length_le hlen, List.filter_nil,
      List.append_nil]
    exact ⟨List.take_of_length_le hlen, List.drop_eq_nil_of_le hlen⟩
  · have htake : (l.take n).length = n := by
      rw [List.length_take]
      omega
    exact ⟨List.take_left' htake, List.drop_left' htake⟩

section
variable {s s' : Server T A} {a : A} {mask : CInt} {n : Nat} {woken woken' : List (Waiter T)}

theorem filter_meets (mask : CInt) (q : List (Waiter T)) :
    q.filter (meets mask) = (q.filter (meets FUTEX_BITSET_MATCH_ANY)).filter (meets mask) := by
  rw [List.filter_filter]
  refine List.filter_congr fun w _ => ?_
  cases hw : meets mask w with
  | true => rw [meets_any_of_meets hw]; rfl
  | false => rfl

theorem Wakes.narrow (h : Wakes s a FUTEX_BITSET_MATCH_ANY n woken s')
    (hfirst : ∀ w ∈ ((s.m_futexes a).filter (meets FUTEX_BITSET_MATCH_ANY)).take n,
      meets mask w = true) : Wakes s a mask n woken s' := by
  obtain ⟨htake, hdrop⟩ := take_drop_filter hfirst
  rw [← filter_meets] at htake hdrop
  have hwoken : woken = ((s.m_futexes a).filter (meets mask)).take n := h.first.trans htake.symm
  have hleft : (s'.m_futexes a).filter (meets mask) =
      ((s.m_futexes a).filter (meets mask)).drop n := by
    rw [filter_meets, h.left, hdrop]
  -- as many waiters stay as before among those that the mask does not find
  have hcount (f : Waiter T → Bool) (q : List (Waiter T)) : (q.filter f).length +
      (q.filter (fun w => !f w)).length = q.length := by
    have hsplit : q.length = q.countP f + _ := List.length_eq_countP_add_countP f
    rw [← List.countP_eq_length_filter, ← List.countP_eq_length_filter, hsplit]
    simp
  have hlen : ((s'.m_futexes a).filter (fun w => !meets mask w)).length =
      ((s.m_futexes a).filter (fun w => !meets mask w)).length := by
    have hall := congrArg List.length h.left
    have hfirst' := congrArg List.length htake
    have hleft' := congrArg List.length hleft
    have hpassed' := congrArg List.length h.passed
    have h₁ := hcount (meets mask) (s'.m_futexes a)
    have h₂ := hcount (meets mask) (s.m_futexes a)
    have h₃ := hcount (meets FUTEX_BITSET_MATCH_ANY) (s'.m_futexes a)
    have h₄ := hcount (meets FUTEX_BITSET_MATCH_ANY) (s.m_futexes a)
    simp only [List.length_take, List.length_drop] at hall hfirst' hleft'
    omega
  exact ⟨hwoken, hleft, (h.order.filter _).eq_of_length hlen, h.atMost,
    noneLeft hwoken hleft, h.order, h.other, h.sleeping, h.resumes⟩

/-- Two wakes that leave the same queue: no waiter that the narrower mask does not find is among
the first that the wider one finds. -/
theorem Wakes.agree (h : Wakes s a FUTEX_BITSET_MATCH_ANY n woken s')
    (h' : Wakes s a mask n woken' s') :
    ∀ w ∈ ((s.m_futexes a).filter (meets FUTEX_BITSET_MATCH_ANY)).take n,
      meets mask w = true := by
  have hsplit (q : List (Waiter T)) : q.countP (fun w => !meets mask w) =
      (q.filter (meets FUTEX_BITSET_MATCH_ANY)).countP (fun w => !meets mask w) +
      (q.filter (fun w => !meets FUTEX_BITSET_MATCH_ANY w)).countP (fun w => !meets mask w) := by
    rw [List.countP_eq_countP_filter_add q _ (meets FUTEX_BITSET_MATCH_ANY)]
  have hbefore := hsplit (s.m_futexes a)
  have hafter := hsplit (s'.m_futexes a)
  rw [h.left, h.passed] at hafter
  rw [← List.take_append_drop n ((s.m_futexes a).filter _), List.countP_append] at hbefore
  have hpassed := congrArg List.length h'.passed
  rw [← List.countP_eq_length_filter, ← List.countP_eq_length_filter] at hpassed
  have hzero : (((s.m_futexes a).filter (meets FUTEX_BITSET_MATCH_ANY)).take n).countP
      (fun w => !meets mask w) = 0 := by
    omega
  intro w hw
  simpa using List.countP_eq_zero.mp hzero w hw

end

/-! ### The call -/

variable [DecidableEq T] [DecidableEq A]

theorem handleFutexCall_wake {va2pa fuel} (s : Server T A) {t} {args : FutexArgs V}
    {reads curr_time cmd} (hop : Cmd.ofOp args.op = some cmd)
    (hwake : cmd = .FUTEX_WAKE ∨ cmd = .FUTEX_WAKE_BITSET) :
    ∃ woken time s', s.handleFutexCall va2pa fuel t args reads curr_time =
        .ok (some ((woken.length : Nat), time), s') ∧
      Wakes s (va2pa t args.uaddr) FUTEX_BITSET_MATCH_ANY (rounds args.val) woken s' := by
  obtain ⟨woken, hlen, hwakes⟩ := wakeLoop_spec s (va2pa t args.uaddr) t FUTEX_BITSET_MATCH_ANY
    (curr_time + s.applyRescheduleCost reads.executed true) (rounds args.val)
  refine ⟨woken, curr_time + s.applyRescheduleCost reads.executed (0 < woken.length), _, ?_, hwakes⟩
  rw [Server.handleFutexCall, hop, ← hlen]
  rcases hwake with rfl | rfl <;> rfl

/-- A call answers with the waiters that its mask asks for exactly when the first of the waiters
with any mask at all share a bit with it. -/
theorem wake_bitset_iff (va2pa : T → V → A) (fuel : Nat) (s : Server T A) (t : T)
    (args : FutexArgs V) (reads : Reads) (curr_time : SubsecondTime) (cmd : Cmd)
    (hop : Cmd.ofOp args.op = some cmd)
    (hwake : cmd = .FUTEX_WAKE ∨ cmd = .FUTEX_WAKE_BITSET) :
    AnswersWake va2pa fuel s t args reads curr_time (wakeMask cmd args) ↔
      (cmd = .FUTEX_WAKE_BITSET →
        ∀ w ∈ ((s.m_futexes (va2pa t args.uaddr)).filter (meets FUTEX_BITSET_MATCH_ANY)).take
          (rounds args.val), meets args.val3 w = true) := by
  obtain ⟨woken, time, s', hcall, hwakes⟩ := handleFutexCall_wake s hop hwake
  constructor
  · rintro ⟨woken', time', s'', hcall', hwakes'⟩ rfl
    obtain ⟨-, rfl⟩ := Prod.mk.inj (Except.ok.inj (hcall.symm.trans hcall'))
    exact hwakes.agree hwakes'
  · intro hfirst
    refine ⟨woken, time, s', hcall, ?_⟩
    rcases hwake with rfl | rfl
    · exact hwakes
    · exact hwakes.narrow (hfirst rfl)

/-! ### Disjoint masks -/

/-- Thread 1 waits for the first bit of the futex at address 0, and thread 2 for the second. -/
def twoBits : Server Nat Nat :=
  (idle.enqueueWaiter 0 1 1 MaxTime).enqueueWaiter 0 2 2 MaxTime

/-- `FUTEX_WAKE_BITSET` for one waiter, with a mask. -/
def wakeOne (mask : CInt) : FutexArgs Nat := ⟨0, 10, 1, none, 0, 0, mask⟩

theorem twoBits_runs : Runs (fun (_ : Nat) (v : Nat) => v) twoBits := by
  have h0 : Runs (fun (_ : Nat) (v : Nat) => v) idle :=
    .init ⟨rfl, fun _ => rfl, fun _ h => (nomatch h.1), rfl⟩
  have h1 := h0.step (.futex 0 1 ⟨0, 9, 0, none, 0, 0, 1⟩ ⟨0, 0, true⟩ 0 rfl rfl)
  exact h1.step (.futex 0 2 ⟨0, 9, 0, none, 0, 0, 2⟩ ⟨0, 0, true⟩ 0 rfl rfl)

/-- The first waiter has the bit of the mask. -/
theorem wake_bitset_first :
    AnswersWake (fun (_ : Nat) (v : Nat) => v) 0 twoBits 3 (wakeOne 1) ⟨0, 0, true⟩ 0 1 :=
  (wake_bitset_iff (fun (_ : Nat) (v : Nat) => v) 0 twoBits 3 (wakeOne 1) ⟨0, 0, true⟩ 0
    .FUTEX_WAKE_BITSET rfl (.inr rfl)).mpr fun _ => by decide

/-- Asked for a waiter with the second bit, the server wakes thread 1. -/
theorem wake_bitset_second : Runs (fun (_ : Nat) (v : Nat) => v) twoBits ∧
    ¬ AnswersWake (fun (_ : Nat) (v : Nat) => v) 0 twoBits 3 (wakeOne 2) ⟨0, 0, true⟩ 0 2 := by
  refine ⟨twoBits_runs, ?_⟩
  intro ⟨woken, time, s', hcall, hwakes⟩
  have hs := (Prod.mk.inj (Except.ok.inj hcall)).2
  have hleft := hwakes.left
  rw [← hs] at hleft
  revert hleft
  decide

end Sniper.Threads.Syscall
