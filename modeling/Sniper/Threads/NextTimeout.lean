import Sniper.Threads.FutexConservation

/-! # The next timeout

`getNextTimeout` of the system call server, with which the barrier decides whether a thread is
left that time will wake. Each queue answers with its last timeout, which is the earliest one of
a queue in which they come in the opposite order only.
-/
namespace Sniper.Threads.Syscall

variable {T V A : Type} [DecidableEq V]

/-- The loop over one queue, of sleeping threads or of a futex. -/
def scanTimeouts (next : SubsecondTime) (queue : List (Waiter T)) : SubsecondTime :=
  queue.foldl (fun next w => if w.timeout < MaxTime then w.timeout else next) next

/-- `SimFutex::getNextTimeout`. -/
def futexNextTimeout (queue : List (Waiter T)) : SubsecondTime := scanTimeouts MaxTime queue

/-- `SyscallServer::getNextTimeout`; `order` is the order in which the futexes are walked. -/
def Server.getNextTimeout (s : Server T A) (order : List A) : SubsecondTime :=
  order.foldl (fun next a =>
    let t := futexNextTimeout (s.m_futexes a)
    if t < next then t else next) (scanTimeouts MaxTime s.m_sleeping)

/-- A waiter with a timeout. -/
def timed (w : Waiter T) : Bool := w.timeout < MaxTime

/-- The timeouts of the sleeping threads and of the waiters of all futexes, and `MaxTime`. -/
def timeouts (s : Server T A) : Set SubsecondTime :=
  {t | t = MaxTime ∨ ∃ p, ∃ w ∈ s.waiters p, w.timeout = t}

/-! ### One queue -/

theorem le_MaxTime (t : SubsecondTime) : t ≤ MaxTime := by
  exact Nat.le_of_lt_succ t.toNat_lt

theorem scanTimeouts_eq (next : SubsecondTime) (queue : List (Waiter T)) :
    scanTimeouts next queue = (((queue.filter timed).getLast?).map (·.timeout)).getD next := by
  induction queue generalizing next with
  | nil => rfl
  | cons w queue ih =>
    rw [scanTimeouts, List.foldl_cons, ← scanTimeouts, ih]
    by_cases hw : w.timeout < MaxTime
    · rw [if_pos hw, List.filter_cons_of_pos (by simpa [timed] using hw), List.getLast?_cons]
      cases (queue.filter timed).getLast? <;> rfl
    · rw [if_neg hw, List.filter_cons_of_neg (by simpa [timed] using hw)]

theorem scanTimeouts_mem (queue : List (Waiter T)) :
    scanTimeouts MaxTime queue = MaxTime ∨
      ∃ w ∈ queue, w.timeout = scanTimeouts MaxTime queue := by
  rw [scanTimeouts_eq]
  cases h : (queue.filter timed).getLast? with
  | none => exact .inl rfl
  | some w => exact .inr ⟨w, (List.mem_filter.mp (List.mem_of_getLast? h)).1, rfl⟩

/-! ### All queues -/

theorem foldl_least {f : A → SubsecondTime} (order : List A) (next : SubsecondTime) :
    IsLeast {t | t = next ∨ ∃ a ∈ order, f a = t}
      (order.foldl (fun next a => if f a < next then f a else next) next) := by
  induction order generalizing next with
  | nil =>
    refine ⟨.inl rfl, ?_⟩
    rintro t (rfl | ⟨a, ha, -⟩)
    · exact UInt64.le_refl _
    · cases ha
  | cons a order ih =>
    rw [List.foldl_cons]
    obtain ⟨hmem, hleast⟩ := ih (if f a < next then f a else next)
    have hstart := hleast (.inl rfl)
    constructor
    · rcases hmem with hmem | ⟨b, hb, hmem⟩
      · rw [hmem]
        split
        · exact .inr ⟨a, List.mem_cons_self .., rfl⟩
        · exact .inl rfl
      · exact .inr ⟨b, List.mem_cons_of_mem _ hb, hmem⟩
    · have hboth : (if f a < next then f a else next) ≤ next ∧
          (if f a < next then f a else next) ≤ f a := by
        split
        case isTrue hlt => exact ⟨UInt64.le_of_lt hlt, UInt64.le_refl _⟩
        case isFalse hlt => exact ⟨UInt64.le_refl _, UInt64.not_lt.mp hlt⟩
      rintro t (rfl | ⟨b, hb, rfl⟩)
      · exact UInt64.le_trans hstart hboth.1
      · rcases List.mem_cons.mp hb with rfl | hb
        · exact UInt64.le_trans hstart hboth.2
        · exact hleast (.inr ⟨b, hb, rfl⟩)

theorem getNextTimeout_least (s : Server T A) {order : List A}
    (ho : ∀ a, s.m_futexes a ≠ [] → a ∈ order) :
    (∃ p, s.getNextTimeout order = scanTimeouts MaxTime (s.waiters p)) ∧
      ∀ p, s.getNextTimeout order ≤ scanTimeouts MaxTime (s.waiters p) := by
  obtain ⟨hmem, hleast⟩ := foldl_least (f := fun a => futexNextTimeout (s.m_futexes a)) order
    (scanTimeouts MaxTime s.m_sleeping)
  refine ⟨?_, fun p => ?_⟩
  · rcases hmem with hmem | ⟨a, -, hmem⟩
    · exact ⟨.sleeping, hmem⟩
    · exact ⟨.futex a, hmem.symm⟩
  · cases p with
    | sleeping => exact hleast (.inl rfl)
    | futex a =>
      by_cases ha : s.m_futexes a = []
      · rw [Server.waiters, ha]
        exact le_MaxTime _
      · exact hleast (.inr ⟨a, ho a ha, rfl⟩)

/-- The earliest timeout is returned exactly when it is the last one of a queue, the waiters
without a timeout apart. -/
theorem getNextTimeout_least_iff (s : Server T A) (order : List A)
    (ho : ∀ a, s.m_futexes a ≠ [] → a ∈ order) :
    IsLeast (timeouts s) (s.getNextTimeout order) ↔
      ∀ p, ∀ w ∈ s.waiters p, w.timeout < MaxTime →
        ∃ p', ∃ w' ∈ ((s.waiters p').filter timed).getLast?, w'.timeout ≤ w.timeout := by
  obtain ⟨⟨p, hp⟩, hle⟩ := getNextTimeout_least s ho
  constructor
  · rintro ⟨-, hleast⟩ q w hw ht
    have hnext := hleast (.inr ⟨q, w, hw, rfl⟩)
    rw [hp, scanTimeouts_eq] at hnext
    cases hlast : ((s.waiters p).filter timed).getLast? with
    | none =>
      rw [hlast] at hnext
      exact absurd ht (UInt64.not_lt.mpr hnext)
    | some w' =>
      rw [hlast] at hnext
      exact ⟨p, w', hlast, hnext⟩
  · intro hearly
    constructor
    · rcases scanTimeouts_mem (s.waiters p) with hmax | ⟨w, hw, ht⟩
      · exact .inl (hp.trans hmax)
      · exact .inr ⟨p, w, hw, ht.trans hp.symm⟩
    · rintro t (rfl | ⟨q, w, hw, rfl⟩)
      · exact le_MaxTime _
      · by_cases ht : w.timeout < MaxTime
        · obtain ⟨p', w', hlast, hw'⟩ := hearly q w hw ht
          refine UInt64.le_trans (hle p') ?_
          rw [scanTimeouts_eq, Option.mem_def.mp hlast]
          exact hw'
        · exact UInt64.le_trans (le_MaxTime _) (UInt64.not_lt.mp ht)

/-- Threads 1 and 2 sleep, each until its time. -/
def twoSleepers (first second : SubsecondTime) : Server Nat Nat :=
  (idle.handleSleepCall 1 first).handleSleepCall 2 second

theorem twoSleepers_runs (first second : SubsecondTime) :
    Runs (fun (_ : Nat) (v : Nat) => v) (twoSleepers first second) := by
  have h0 : Runs (fun (_ : Nat) (v : Nat) => v) idle :=
    .init ⟨rfl, fun _ => rfl, fun _ h => (nomatch h.1), rfl⟩
  exact (h0.step (.sleep 1 first rfl)).step (.sleep 2 second rfl)

/-- The thread that went to sleep last wakes first. -/
theorem getNextTimeout_least_second :
    IsLeast (timeouts (twoSleepers 20 10)) ((twoSleepers 20 10).getNextTimeout []) :=
  (getNextTimeout_least_iff (twoSleepers 20 10) [] (fun _ h => absurd rfl h)).mpr fun p w hw _ => by
    refine ⟨.sleeping, ⟨2, 0, 10⟩, by decide, ?_⟩
    cases p with
    | sleeping =>
      have hall : ∀ w ∈ (twoSleepers 20 10).m_sleeping, (10 : SubsecondTime) ≤ w.timeout := by
        decide
      exact hall w hw
    | futex a => cases hw

/-- The later timeout of the thread that went to sleep last hides the earlier one. -/
theorem getNextTimeout_hides : Runs (fun (_ : Nat) (v : Nat) => v) (twoSleepers 10 20) ∧
    ¬ IsLeast (timeouts (twoSleepers 10 20)) ((twoSleepers 10 20).getNextTimeout []) := by
  refine ⟨twoSleepers_runs 10 20, fun h => ?_⟩
  have hle := h.2 (.inr ⟨.sleeping, ⟨1, 0, 10⟩, List.mem_cons_self .., rfl⟩)
  revert hle
  decide

end Sniper.Threads.Syscall
