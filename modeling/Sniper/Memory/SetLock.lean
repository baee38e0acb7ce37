import Sniper.Lib.LockOrder
import Sniper.Lib.Simulation

/-! # The set lock

`_SetLock` has one lock for each sharing core. Shared access is the lock of the own core,
exclusive access all locks, taken one after the other. Each acquire and release of a lock is one
step of a thread; several threads may use one core id. -/
namespace Sniper.Memory.SetLock
open Lib.Simulation Function

/-- The arguments of the constructor. -/
structure Parameters where
  core_offset : ℕ
  num_sharers : ℕ

inductive Action where
  | acquire (lock : ℕ)
  | release (lock : ℕ)

section Operations
variable (p : Parameters) (core_id : ℕ)

def acquire_exclusive : List Action := (List.range p.num_sharers).map .acquire

def release_exclusive : List Action := (List.range p.num_sharers).map .release

def acquire_shared : List Action := [.acquire (core_id - p.core_offset)]

def release_shared : List Action := [.release (core_id - p.core_offset)]

def upgrade : List Action := release_shared p core_id ++ acquire_exclusive p

def downgrade : List Action :=
  ((List.range p.num_sharers).filter (· ≠ core_id - p.core_offset)).map .release

end Operations

/-- The access that a thread has when it has nothing left to do. -/
inductive Access where
  | none
  | shared (core_id : ℕ)
  | exclusive

structure Thread where
  access : Access
  todo : List Action

inductive Call where
  | acquire_exclusive
  | release_exclusive
  | acquire_shared (core_id : ℕ)
  | release_shared
  | upgrade
  | downgrade (core_id : ℕ)

/-- What the assertions of `acquire_shared` say of a core id. -/
def Parameters.Shares (p : Parameters) (core_id : ℕ) : Prop :=
  p.core_offset ≤ core_id ∧ core_id < p.core_offset + p.num_sharers

instance (p : Parameters) (core_id : ℕ) : Decidable (p.Shares core_id) :=
  inferInstanceAs (Decidable (_ ∧ _))

theorem Parameters.Shares.lock_lt {p : Parameters} {core_id} (h : p.Shares core_id) :
    core_id - p.core_offset < p.num_sharers := by
  have := h.1
  have := h.2
  omega

/-- The calls in matching pairs: each access is acquired before it is released or changed, and the
shared one is released under the core id that acquired it. -/
def begin_ (p : Parameters) : Access → Call → Option Thread
  | .none, .acquire_exclusive => some ⟨.exclusive, acquire_exclusive p⟩
  | .none, .acquire_shared core_id =>
    if p.Shares core_id then some ⟨.shared core_id, acquire_shared p core_id⟩ else none
  | .shared core_id, .release_shared => some ⟨.none, release_shared p core_id⟩
  | .shared core_id, .upgrade => some ⟨.exclusive, upgrade p core_id⟩
  | .exclusive, .release_exclusive => some ⟨.none, release_exclusive p⟩
  | .exclusive, .downgrade core_id =>
    if p.Shares core_id then some ⟨.shared core_id, downgrade p core_id⟩ else none
  | _, _ => none

variable {T : Type}

/-- The owner of each lock, and the threads. -/
structure State (T : Type) where
  locks : ℕ → Option T
  threads : T → Thread

def State.initial : State T := ⟨fun _ => none, fun _ => ⟨.none, []⟩⟩

inductive Event (T : Type) where
  | call (t : T) (c : Call)
  | act (t : T)

inductive Stuck where
  | notCalled
  | blocked

section Steps
variable [DecidableEq T]

def State.setThread (s : State T) (t : T) (thread : Thread) : State T :=
  { s with threads := update s.threads t thread }

def perform (p : Parameters) (s : State T) : Event T → Except Stuck (State T)
  | .call t c =>
    match (s.threads t).todo, begin_ p (s.threads t).access c with
    | [], some thread => .ok (s.setThread t thread)
    | _, _ => .error .notCalled
  | .act t =>
    match (s.threads t).todo with
    | [] => .error .notCalled
    | .acquire lock :: todo =>
      if s.locks lock = none then
        .ok { s.setThread t { s.threads t with todo := todo } with
          locks := update s.locks lock (some t) }
      else .error .blocked
    | .release lock :: todo =>
      .ok { s.setThread t { s.threads t with todo := todo } with
        locks := update s.locks lock none }

def Step (p : Parameters) (s s' : State T) : Prop := ∃ e, perform p s e = .ok s'

end Steps

/-! ### What is promised -/

section Promises
variable (s : State T) (t : T)

def InExclusive : Prop := s.threads t = ⟨.exclusive, []⟩

def InShared (core_id : ℕ) : Prop := s.threads t = ⟨.shared core_id, []⟩

def Holds (lock : ℕ) : Prop := s.locks lock = some t

/-- The lock that the next step of the thread acquires. -/
def wants : Option ℕ :=
  match (s.threads t).todo with
  | .acquire lock :: _ => some lock
  | _ => none

def Blocked : Prop := Lib.LockOrder.Blocked s.locks (wants s) t

end Promises

structure Promised (p : Parameters) (s : State T) : Prop where
  /-- A thread in exclusive mode excludes all others, which do not even hold a lock. -/
  excludes : ∀ t u, InExclusive s t → u ≠ t →
    ¬ InExclusive s u ∧ (∀ core_id, ¬ InShared s u core_id) ∧ ∀ lock, ¬ Holds s u lock
  /-- In shared mode, also behind `downgrade`, a thread holds just its own lock. -/
  shares : ∀ t core_id, InShared s t core_id →
    ∀ lock, Holds s t lock ↔ lock = core_id - p.core_offset
  /-- Where a thread is blocked, some thread that is not idle can go on. -/
  proceeds : ∀ t, Blocked s t → ∃ u, s.threads u ≠ ⟨.none, []⟩ ∧ ¬ Blocked s u

/-! ### The locks that a thread holds -/

/-- How far a thread is, and the locks that it holds there. -/
inductive Shape (p : Parameters) : Access → List Action → (ℕ → Prop) → Prop
  | releasing (locks : List ℕ) (hnodup : locks.Nodup) (hlt : ∀ l ∈ locks, l < p.num_sharers) :
    Shape p .none (locks.map .release) (· ∈ locks)
  | sharing (core_id : ℕ) (locks : List ℕ) (hnodup : ((core_id - p.core_offset) :: locks).Nodup)
    (hlt : ∀ l ∈ locks, l < p.num_sharers) (hcore : p.Shares core_id) :
    Shape p (.shared core_id) (locks.map .release) (· ∈ (core_id - p.core_offset) :: locks)
  | entering (core_id : ℕ) (hcore : p.Shares core_id) :
    Shape p (.shared core_id) [.acquire (core_id - p.core_offset)] (fun _ => False)
  | acquiring (i : ℕ) (hle : i ≤ p.num_sharers) :
    Shape p .exclusive ((List.range' i (p.num_sharers - i)).map .acquire) (· < i)
  | upgrading (core_id : ℕ) (hcore : p.Shares core_id) :
    Shape p .exclusive (.release (core_id - p.core_offset) :: acquire_exclusive p)
      (· = core_id - p.core_offset)

namespace Shape
variable {p : Parameters} {access : Access} {actions todo : List Action} {held : ℕ → Prop}

theorem acquire_exclusive_eq :
    acquire_exclusive p = (List.range' 0 (p.num_sharers - 0)).map .acquire := by
  rw [acquire_exclusive, List.range_eq_range', Nat.sub_zero]

theorem held_lt (h : Shape p access actions held) {l} (hl : held l) : l < p.num_sharers := by
  cases h with
  | releasing locks hnodup hlt => exact hlt l hl
  | sharing core_id locks hnodup hlt hcore =>
    rcases List.mem_cons.mp hl with rfl | hl
    · exact hcore.lock_lt
    · exact hlt l hl
  | entering core_id hcore => exact hl.elim
  | acquiring i hle => exact Nat.lt_of_lt_of_le hl hle
  | upgrading core_id hcore =>
    obtain rfl := hl
    exact hcore.lock_lt

theorem exclusive_idle (h : Shape p .exclusive [] held) : ∀ l, held l ↔ l < p.num_sharers := by
  generalize htodo : ([] : List Action) = actions at h
  cases h with
  | acquiring i hle =>
    have hlen := congrArg List.length htodo
    simp only [List.length_nil, List.length_map, List.length_range'] at hlen
    intro l
    simp only
    omega
  | upgrading core_id hcore => cases htodo

theorem shared_idle {core_id} (h : Shape p (.shared core_id) [] held) :
    p.Shares core_id ∧ ∀ l, held l ↔ l = core_id - p.core_offset := by
  generalize htodo : ([] : List Action) = actions at h
  cases h with
  | sharing _ locks hnodup hlt hcore =>
    obtain rfl := List.map_eq_nil_iff.mp htodo.symm
    exact ⟨hcore, fun l => List.mem_singleton⟩
  | entering _ hcore => cases htodo

theorem none_idle (h : Shape p .none [] held) (l : ℕ) : ¬ held l := by
  generalize htodo : ([] : List Action) = actions at h
  cases h with
  | releasing locks hnodup hlt =>
    obtain rfl := List.map_eq_nil_iff.mp htodo.symm
    exact List.not_mem_nil

theorem acquire_lock {l} (h : Shape p access (.acquire l :: todo) held) :
    (∀ j, held j → j < l) ∧ l < p.num_sharers ∧
      ∃ held', Shape p access todo held' ∧ ∀ j, held' j ↔ j = l ∨ held j := by
  generalize htodo : Action.acquire l :: todo = actions at h
  cases h with
  | releasing locks hnodup hlt
  | sharing core_id locks hnodup hlt hcore => cases locks <;> simp at htodo
  | entering core_id hcore =>
    obtain ⟨rfl, rfl⟩ := htodo
    exact ⟨fun j hj => hj.elim, hcore.lock_lt, _,
      sharing core_id [] (List.nodup_singleton _) (fun _ h => nomatch h) hcore,
      fun j => by simp⟩
  | acquiring i hle =>
    obtain ⟨k, hk⟩ | hzero : (∃ k, p.num_sharers - i = k + 1) ∨ p.num_sharers - i = 0 := by
      rcases p.num_sharers - i with - | k
      · exact .inr rfl
      · exact .inl ⟨k, rfl⟩
    · rw [hk, List.range'_succ, List.map_cons] at htodo
      obtain ⟨rfl, rfl⟩ := htodo
      have hrest : k = p.num_sharers - (l + 1) := by omega
      rw [hrest]
      refine ⟨fun j hj => hj, by omega, _, acquiring (l + 1) (by omega), fun j => ?_⟩
      omega
    · rw [hzero] at htodo
      cases htodo
  | upgrading core_id hcore => cases htodo

theorem release_lock {l} (h : Shape p access (.release l :: todo) held) :
    held l ∧ ∃ held', Shape p access todo held' ∧ ∀ j, held' j ↔ j ≠ l ∧ held j := by
  generalize htodo : Action.release l :: todo = actions at h
  cases h with
  | releasing locks hnodup hlt =>
    cases locks with
    | nil => cases htodo
    | cons first locks =>
      obtain ⟨rfl, rfl⟩ := htodo
      obtain ⟨hnotMem, hnodup⟩ := List.nodup_cons.mp hnodup
      refine ⟨List.mem_cons_self, _, releasing locks hnodup
        (fun l hl => hlt l (List.mem_cons_of_mem _ hl)), fun j => ?_⟩
      grind
  | sharing core_id locks hnodup hlt hcore =>
    cases locks with
    | nil => cases htodo
    | cons first locks =>
      obtain ⟨rfl, rfl⟩ := htodo
      have hrest : ((core_id - p.core_offset) :: locks).Nodup := by grind
      refine ⟨by simp, _, sharing core_id locks hrest
        (fun l hl => hlt l (List.mem_cons_of_mem _ hl)) hcore, fun j => ?_⟩
      grind
  | entering core_id hcore => cases htodo
  | acquiring i hle => cases hk : p.num_sharers - i <;> simp [hk, List.range'_succ] at htodo
  | upgrading core_id hcore =>
    obtain ⟨rfl, rfl⟩ := htodo
    rw [acquire_exclusive_eq]
    refine ⟨rfl, _, acquiring 0 (Nat.zero_le _), fun j => ?_⟩
    omega

theorem call {c} {thread : Thread} (h : Shape p access [] held)
    (hcall : begin_ p access c = some thread) :
    ∃ held', Shape p thread.access thread.todo held' ∧ ∀ j, held' j ↔ held j := by
  cases access with
  | none =>
    have hnone := h.none_idle
    cases c with
    | acquire_exclusive =>
      obtain rfl := Option.some.inj hcall
      simp only [acquire_exclusive_eq]
      exact ⟨_, acquiring 0 (Nat.zero_le _), fun j => iff_of_false (Nat.not_lt_zero j) (hnone j)⟩
    | acquire_shared core_id =>
      obtain ⟨hcore, hthread⟩ := Option.ite_none_right_eq_some.mp hcall
      obtain rfl := Option.some.inj hthread
      exact ⟨_, entering core_id hcore, fun j => iff_of_false id (hnone j)⟩
    | _ => cases hcall
  | shared core_id =>
    obtain ⟨hcore, hheld⟩ := h.shared_idle
    cases c with
    | release_shared =>
      obtain rfl := Option.some.inj hcall
      refine ⟨_, releasing [core_id - p.core_offset] (List.nodup_singleton _) ?_, fun j => ?_⟩
      · simpa only [List.mem_singleton, forall_eq] using hcore.lock_lt
      · rw [hheld, List.mem_singleton]
    | upgrade =>
      obtain rfl := Option.some.inj hcall
      exact ⟨_, upgrading core_id hcore, fun j => (hheld j).symm⟩
    | _ => cases hcall
  | exclusive =>
    have hheld := h.exclusive_idle
    cases c with
    | release_exclusive =>
      obtain rfl := Option.some.inj hcall
      refine ⟨_, releasing (List.range p.num_sharers) List.nodup_range
        (fun l hl => List.mem_range.mp hl), fun j => ?_⟩
      rw [hheld, List.mem_range]
    | downgrade core_id =>
      obtain ⟨hcore, hthread⟩ := Option.ite_none_right_eq_some.mp hcall
      obtain rfl := Option.some.inj hthread
      have := hcore.lock_lt
      refine ⟨_, sharing core_id _ ?_ (fun l hl => ?_) hcore, fun j => ?_⟩
      · rw [List.nodup_cons]
        exact ⟨by simp, List.nodup_range.filter _⟩
      · exact List.mem_range.mp (List.mem_of_mem_filter hl)
      · rw [hheld, List.mem_cons, List.mem_filter, List.mem_range, decide_eq_true_eq]
        omega
    | _ => cases hcall

end Shape

/-- The thread is at some place, and the locks that it holds are those of the place. -/
def Placed (p : Parameters) (s : State T) (t : T) : Prop :=
  ∃ held, Shape p (s.threads t).access (s.threads t).todo held ∧ ∀ l, Holds s t l ↔ held l

theorem Placed.congr {p} {s s' : State T} {t} (h : Placed p s t)
    (hthread : s'.threads t = s.threads t) (hlocks : ∀ l, Holds s' t l ↔ Holds s t l) :
    Placed p s' t := by
  obtain ⟨held, hshape, hheld⟩ := h
  exact ⟨held, by rwa [hthread], fun l => (hlocks l).trans (hheld l)⟩

/-! ### Every step keeps the threads placed -/

section Invariant
variable [DecidableEq T] {p : Parameters} {s s' : State T} {t : T}

@[simp] theorem setThread_self (thread : Thread) :
    (s.setThread t thread).threads t = thread :=
  update_self ..

@[simp] theorem setThread_of_ne {u} (thread : Thread) (hne : u ≠ t) :
    (s.setThread t thread).threads u = s.threads u :=
  update_of_ne hne ..

theorem perform_call {c} (h : perform p s (.call t c) = .ok s') :
    (s.threads t).todo = [] ∧ ∃ thread, begin_ p (s.threads t).access c = some thread ∧
      s' = s.setThread t thread := by
  simp only [perform] at h
  split at h
  · rename_i thread htodo hcall
    exact ⟨htodo, thread, hcall, (Except.ok.inj h).symm⟩
  · cases h

theorem perform_act (h : perform p s (.act t) = .ok s') :
    ∃ l todo, s'.threads = update s.threads t { s.threads t with todo := todo } ∧
      (((s.threads t).todo = .acquire l :: todo ∧ s.locks l = none ∧
        s'.locks = update s.locks l (some t)) ∨
      ((s.threads t).todo = .release l :: todo ∧
        s'.locks = update s.locks l none)) := by
  simp only [perform] at h
  split at h
  · cases h
  · rename_i l todo htodo
    split at h
    · rename_i hfree
      cases h
      exact ⟨l, todo, rfl, .inl ⟨htodo, hfree, rfl⟩⟩
    · cases h
  · rename_i l todo htodo
    cases h
    exact ⟨l, todo, rfl, .inr ⟨htodo, rfl⟩⟩

theorem placed_call {c} (h : ∀ u, Placed p s u) (hstep : perform p s (.call t c) = .ok s') (u : T) :
    Placed p s' u := by
  obtain ⟨htodo, thread, hcall, rfl⟩ := perform_call hstep
  rcases eq_or_ne u t with rfl | hne
  · obtain ⟨held, hshape, hheld⟩ := h u
    rw [htodo] at hshape
    obtain ⟨held', hshape, hsame⟩ := hshape.call hcall
    exact ⟨held', by rwa [setThread_self], fun l => (hheld l).trans (hsame l).symm⟩
  · exact (h u).congr (setThread_of_ne thread hne) fun l => Iff.rfl

theorem placed_act (h : ∀ u, Placed p s u) (hstep : perform p s (.act t) = .ok s') (u : T) :
    Placed p s' u := by
  obtain ⟨l, todo, hthreads, hcases⟩ := perform_act hstep
  obtain ⟨held, hshape, hheld⟩ := h t
  have hself : s'.threads t = { s.threads t with todo := todo } := by
    rw [hthreads, update_self]
  rcases hcases with ⟨htodo, hfree, hlocks⟩ | ⟨htodo, hlocks⟩
  · rw [htodo] at hshape
    obtain ⟨-, -, held', hshape, hmore⟩ := hshape.acquire_lock
    rcases eq_or_ne u t with rfl | hne
    · refine ⟨held', by rwa [hself], fun j => ?_⟩
      rw [hmore, ← hheld, Holds, hlocks, Holds]
      rcases eq_or_ne j l with rfl | hj
      · simp
      · simp [hj]
    · refine (h u).congr (by rw [hthreads, update_of_ne hne]) fun j => ?_
      rw [Holds, Holds, hlocks]
      rcases eq_or_ne j l with rfl | hj
      · simp [hfree, hne.symm]
      · rw [update_of_ne hj]
  · rw [htodo] at hshape
    obtain ⟨hown, held', hshape, hless⟩ := hshape.release_lock
    rcases eq_or_ne u t with rfl | hne
    · refine ⟨held', by rwa [hself], fun j => ?_⟩
      rw [hless, ← hheld, Holds, hlocks, Holds]
      rcases eq_or_ne j l with rfl | hj
      · simp
      · simp [hj]
    · refine (h u).congr (by rw [hthreads, update_of_ne hne]) fun j => ?_
      rw [Holds, Holds, hlocks]
      rcases eq_or_ne j l with rfl | hj
      · have htaken : s.locks j = some t := (hheld j).mpr hown
        simp [htaken, hne.symm]
      · rw [update_of_ne hj]

theorem placed (h : Reachable (· = State.initial) (Step p) s) (t : T) : Placed p s t := by
  refine h.invariant (P := fun s => ∀ t, Placed p s t) ?_ ?_ t
  · rintro _ rfl t
    refine ⟨_, .releasing [] List.nodup_nil (fun _ h => nomatch h), fun l => ?_⟩
    simp [Holds, State.initial]
  · rintro s s' hs ⟨e, hstep⟩
    cases e with
    | call t c => exact placed_call hs hstep
    | act t => exact placed_act hs hstep

end Invariant

/-! ### From the places to the promises -/

section Consequences
variable {p : Parameters} {s : State T} (h : ∀ t, Placed p s t)
include h

theorem exclusive_holds {t} (hin : InExclusive s t) {l} :
    Holds s t l ↔ l < p.num_sharers := by
  obtain ⟨held, hshape, hheld⟩ := h t
  rw [hin] at hshape
  rw [hheld, hshape.exclusive_idle]

theorem shared_holds {t core_id} (hin : InShared s t core_id) :
    p.Shares core_id ∧ ∀ l, Holds s t l ↔ l = core_id - p.core_offset := by
  obtain ⟨held, hshape, hheld⟩ := h t
  rw [hin] at hshape
  obtain ⟨hcore, hown⟩ := hshape.shared_idle
  exact ⟨hcore, fun l => by rw [hheld, hown]⟩

theorem holds_lt {t l} (hhold : Holds s t l) : l < p.num_sharers := by
  obtain ⟨held, hshape, hheld⟩ := h t
  exact hshape.held_lt ((hheld l).mp hhold)

theorem wants_order {t l} (hwants : wants s t = some l) :
    l < p.num_sharers ∧ ∀ j, Holds s t j → j < l := by
  obtain ⟨held, hshape, hheld⟩ := h t
  unfold wants at hwants
  split at hwants
  · rename_i first todo htodo
    obtain rfl := Option.some.inj hwants
    rw [htodo] at hshape
    obtain ⟨hlower, hlt, -⟩ := hshape.acquire_lock
    exact ⟨hlt, fun j hj => hlower j ((hheld j).mp hj)⟩
  · cases hwants

theorem holder_not_idle {t l} (hhold : Holds s t l) : s.threads t ≠ ⟨.none, []⟩ := by
  intro hidle
  obtain ⟨held, hshape, hheld⟩ := h t
  rw [hidle] at hshape
  exact hshape.none_idle l ((hheld l).mp hhold)

theorem Promised.of_placed (hn : 0 < p.num_sharers) : Promised p s where
  excludes t u hin hne := by
    have hholds : ∀ l < p.num_sharers, s.locks l = some t := fun l hl =>
      (exclusive_holds h hin).mpr hl
    have hother : ∀ l < p.num_sharers, ¬ Holds s u l := fun l hl hu =>
      hne (Option.some.inj (hu.symm.trans (hholds l hl)))
    refine ⟨fun hex => ?_, fun core_id hsh => ?_, fun l hl => ?_⟩
    · exact hother 0 hn ((exclusive_holds h hex).mpr hn)
    · obtain ⟨hcore, hown⟩ := shared_holds h hsh
      exact hother (core_id - p.core_offset) hcore.lock_lt ((hown _).mpr rfl)
    · exact hother l (holds_lt h hl) hl
  shares t core_id hin := (shared_holds h hin).2
  proceeds t hblocked := by
    obtain ⟨u, i, hu, hfree⟩ := Lib.LockOrder.exists_not_blocked
      (fun t i hi => (wants_order h hi).1) (fun i u j hu hj => (wants_order h hj).2 i hu) hblocked
    exact ⟨u, holder_not_idle h hu, hfree⟩

end Consequences

theorem reachable_of_run [DecidableEq T] {p s} (events : List (Event T))
    (hrun : events.foldlM (perform p) State.initial = .ok s) :
    Reachable (· = State.initial) (Step p) s := by
  have hinitial : Reachable (· = State.initial) (Step p) (State.initial : State T) := .init rfl
  exact hinitial.foldlM (fun e _ _ _ hstep => ⟨e, hstep⟩) hrun

/-- With a sharer at least, the lock excludes, a downgrade leaves just the own lock, and no state
is a deadlock. -/
theorem set_lock_promised [DecidableEq T] {p : Parameters} {s : State T}
    (hn : 0 < p.num_sharers) (h : Reachable (· = State.initial) (Step p) s) : Promised p s :=
  .of_placed (placed h) hn

/-- A sharer, and a thread that waits for it with exclusive access. -/
def waiting : List (Event (Fin 2)) :=
  [.call 0 (.acquire_shared 3), .act 0, .call 1 .acquire_exclusive]

theorem set_lock_promised_waiting : ∃ s, waiting.foldlM (perform ⟨3, 2⟩) State.initial = .ok s ∧
    Blocked s 1 ∧ Promised ⟨3, 2⟩ s := by
  refine ⟨_, rfl, ⟨0, rfl, nofun⟩, ?_⟩
  exact set_lock_promised Nat.two_pos (reachable_of_run waiting rfl)

/-- Without sharers there is no lock, and exclusive access excludes nobody. -/
theorem no_sharers_exclude_nobody : ∃ s : State (Fin 2),
    Reachable (· = State.initial) (Step ⟨0, 0⟩) s ∧ ¬ Promised ⟨0, 0⟩ s := by
  refine ⟨_, reachable_of_run [.call 0 .acquire_exclusive, .call 1 .acquire_exclusive] rfl,
    fun h => ?_⟩
  exact (h.excludes 0 1 rfl (by decide)).1 rfl

end Sniper.Memory.SetLock
