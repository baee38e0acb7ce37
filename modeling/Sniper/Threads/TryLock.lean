import Sniper.Threads.SyncDiscipline

/-! # Try-locks

A try-lock asks `isLocked`, which does not count a mutex of the caller as locked, and then calls
`lock`, which queues the caller behind any owner.
-/
namespace Sniper.Threads.Sync

variable {T M C : Type} [DecidableEq T] [DecidableEq M] [DecidableEq C]

/-- What a try-lock that returns leaves: nobody is stalled or queued, and the mutex was free and is
the caller's now, or nothing has changed. -/
structure Tried (t : T) (m : M) (got : Bool) (s s' : Server T M C) : Prop where
  threads : s'.tm = s.tm
  queues : ∀ m', (s'.mutex m').m_waiting = (s.mutex m').m_waiting
  locked : got = true → (s.mutex m).m_owner = none ∧ (s'.mutex m).m_owner = some t
  refused : got = false → s' = s

/-- The call returns to the thread. -/
def TryReturns (s : Server T M C) (t : T) (m : M) (time : SubsecondTime) : Prop :=
  ∃ time_end got s', s.call time (.mutexLock t m true) = .ok (some (time_end, got), s') ∧
    Tried t m got s s'

theorem call_tryLock_refused {s : Server T M C} {m o} (ho : (s.mutex m).m_owner = some o) {t}
    (hne : o ≠ t) (time : SubsecondTime) :
    s.call time (.mutexLock t m true) = .ok (some (time, false), s) := by
  have hlocked : s.isLocked m t = true := by
    rw [Server.isLocked, ho]
    exact decide_eq_true hne
  simp only [Server.call, hlocked, Bool.and_self, if_true]

theorem call_tryLock {s : Server T M C} {m t} (h : s.isLocked m t = false) (time : SubsecondTime) :
    s.call time (.mutexLock t m true) =
      .ok ((s.lock m t time).1.map fun time_end => (time_end + s.m_reschedule_cost, true),
        (s.lock m t time).2) := by
  simp only [Server.call, h, Bool.and_false, Bool.false_eq_true, if_false]

omit [DecidableEq T] [DecidableEq M] [DecidableEq C] in
theorem tried_refl (t : T) (m : M) (s : Server T M C) : Tried t m false s s where
  threads := rfl
  queues _ := rfl
  locked := nofun
  refused _ := rfl

omit [DecidableEq T] [DecidableEq C] in
theorem tried_setMutex {s : Server T M C} {m} (ho : (s.mutex m).m_owner = none) (t : T) :
    Tried t m true s (s.setMutex m { s.mutex m with m_owner := some t }) where
  threads := rfl
  queues m' := by
    by_cases hm : m' = m
    · subst hm
      simp [Server.mutex, Server.setMutex]
    · simp [Server.mutex, Server.setMutex, hm]
  locked _ := ⟨ho, by simp [Server.mutex, Server.setMutex]⟩
  refused := nofun

/-- **A try-lock returns unless the caller owns the mutex already**, in every state of the
server. -/
theorem tryLock_returns_iff (s : Server T M C) (t : T) (m : M) (time : SubsecondTime) :
    TryReturns s t m time ↔ (s.mutex m).m_owner ≠ some t := by
  constructor
  · rintro ⟨time_end, got, s', hcall, -⟩ ho
    have hfree : s.isLocked m t = false := by
      rw [Server.isLocked, ho]
      exact decide_eq_false (not_not.mpr rfl)
    rw [call_tryLock hfree, Server.lock, ho] at hcall
    cases hcall
  · intro hne
    cases ho : (s.mutex m).m_owner with
    | none =>
      have hfree : s.isLocked m t = false := by rw [Server.isLocked, ho]
      refine ⟨time + s.m_reschedule_cost, true, _, ?_, tried_setMutex ho t⟩
      rw [call_tryLock hfree, Server.lock, ho]
      rfl
    | some o =>
      have hother : o ≠ t := fun h => hne (by rw [ho, h])
      exact ⟨time, false, s, call_tryLock_refused ho hother time, tried_refl t m s⟩

/-- The owner of a contended mutex waits behind the others for itself. -/
theorem tryLock_deadlocks : Runs contended ∧ ¬ TryReturns contended.server 0 () 0 ∧
    ∃ s', contended.server.call 0 (.mutexLock 0 () true) = .ok (none, s') ∧ s'.Stalled 0 ∧
      (s'.mutex ()).m_owner = some 0 ∧ (s'.mutex ()).m_waiting = [1, 0] := by
  refine ⟨contended_runs, ?_, _, rfl, ⟨rfl, by decide⟩, rfl, rfl⟩
  rintro ⟨time_end, got, s', hcall, -⟩
  cases hcall

end Sniper.Threads.Sync
