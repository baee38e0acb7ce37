import Sniper.Lib.Ring
import Sniper.Lib.Simulation

/-! # The blocking queue

`MTCircularQueue`: a thread that runs holds the queue's lock, until its call is done or it waits
on a condition variable. A signal wakes one of the threads that wait on it, any one, and a woken
thread takes the lock again before it looks at the queue. -/
namespace Sniper.Threads.BlockingQueue
open Lib Lib.Simulation Function

/-! ### CircularQueue -/

structure CircularQueue (V : Type) where
  m_size : ℕ
  m_first : ℕ
  m_last : ℕ
  m_queue : ℕ → V

namespace CircularQueue
variable {V : Type}

/-- The size is a 32-bit word, and one more than the argument. -/
def new [Inhabited V] (size : ℕ) : CircularQueue V where
  m_size := (size + 1) % 2 ^ 32
  m_first := 0
  m_last := 0
  m_queue := fun _ => default

variable (q : CircularQueue V)

def full : Bool := (q.m_first + 1) % q.m_size = q.m_last

def empty : Bool := q.m_first = q.m_last

/-- No result stands for the assertion. -/
def push (t : V) : Option (CircularQueue V) :=
  if q.full then none
  else some { q with
    m_queue := update q.m_queue q.m_first t
    m_first := (q.m_first + 1) % q.m_size }

def pop : Option (V × CircularQueue V) :=
  if q.empty then none
  else some (q.m_queue q.m_last, { q with m_last := (q.m_last + 1) % q.m_size })

end CircularQueue

/-! ### The elements of the ring -/

namespace CircularQueue
variable {V : Type} {q : CircularQueue V}

/-- The elements, the next one to pop first. -/
def contents (q : CircularQueue V) : List V :=
  (Ring.cells q.m_size q.m_last q.m_first).map q.m_queue

structure Valid (q : CircularQueue V) : Prop where
  first_lt : q.m_first < q.m_size
  last_lt : q.m_last < q.m_size

theorem length_contents (q : CircularQueue V) :
    q.contents.length = (Ring.cells q.m_size q.m_last q.m_first).length :=
  List.length_map _

theorem empty_iff (h : q.Valid) : q.empty = true ↔ q.contents.length = 0 := by
  rw [length_contents, Ring.length_eq_zero_iff h.last_lt h.first_lt, empty, decide_eq_true_eq]

theorem full_iff (h : q.Valid) : q.full = true ↔ q.m_size - 1 - q.contents.length = 0 := by
  have hlt := Ring.length_lt h.last_lt h.first_lt
  rw [full, decide_eq_true_eq, ← Ring.length_eq_iff_next h.last_lt h.first_lt, length_contents]
  omega

theorem push_spec (h : q.Valid) (hfull : q.full = false) (t : V) :
    ∃ q', q.push t = some q' ∧ q'.Valid ∧ q'.m_size = q.m_size ∧
      q'.contents = q.contents ++ [t] := by
  have hroom : (q.m_first + 1) % q.m_size ≠ q.m_last := by simpa [full] using hfull
  refine ⟨_, if_neg (by simp [hfull]), ⟨Ring.next_lt h.first_lt, h.last_lt⟩, rfl, ?_⟩
  simp only [contents]
  rw [Ring.cells_fill h.last_lt h.first_lt hroom, List.map_append, List.map_singleton,
    update_self]
  congr 1
  refine List.map_congr_left fun i hi => update_of_ne ?_ ..
  rintro rfl
  exact Ring.first_notMem h.last_lt h.first_lt hi

theorem pop_spec (h : q.Valid) (hempty : q.empty = false) :
    ∃ t q', q.pop = some (t, q') ∧ q'.Valid ∧ q'.m_size = q.m_size ∧
      q.contents = t :: q'.contents := by
  have hfilled : q.m_first ≠ q.m_last := by simpa [empty] using hempty
  refine ⟨_, _, if_neg (by simp [hempty]), ⟨h.first_lt, Ring.next_lt h.last_lt⟩, rfl, ?_⟩
  rw [contents, Ring.cells_empty h.last_lt h.first_lt hfilled, List.map_cons]
  rfl

end CircularQueue

/-! ### MTCircularQueue and its threads -/

inductive Call (V : Type) where
  | push_wait (t : V)
  | pop_wait

inductive Condition where
  | m_full
  | m_empty
  deriving DecidableEq

def Condition.other : Condition → Condition
  | .m_full => .m_empty
  | .m_empty => .m_full

/-- The condition variable that the call waits on. -/
def Call.condition {V : Type} : Call V → Condition
  | .push_wait _ => .m_full
  | .pop_wait => .m_empty

inductive Thread (V : Type) where
  | idle
  | entering (c : Call V)
  | waiting (c : Call V)
  | woken (c : Call V)

namespace Thread
variable {V : Type}

/-- The call of a thread that only needs the queue's lock. -/
def ready : Thread V → Option (Call V)
  | .entering c => some c
  | .woken c => some c
  | _ => none

def waitsOn (cond : Condition) : Thread V → Bool
  | .waiting c => c.condition = cond
  | _ => false

/-- The thread is about to do what others wait for on the condition variable: it has been woken
from it, or it begins its call. -/
def comesFor (cond : Condition) : Thread V → Bool
  | .entering c => c.condition = cond
  | .woken c => c.condition = cond
  | _ => false

end Thread

/-- The queue, the threads by number, and what has been pushed and popped. -/
structure State (V : Type) where
  queue : CircularQueue V
  threads : List (Thread V)
  pushed : List V
  popped : List V

inductive Stuck where
  | notReady
  | notWaiting
  | assertion
  | divisionByZero

inductive Event (V : Type) where
  | call (thread : ℕ) (c : Call V)
  /-- The thread gets the lock. Where it signals, `chosen` is the waiter that wakes. -/
  | run (thread : ℕ) (chosen : ℕ)

section Steps
variable {V : Type}

def State.initial [Inhabited V] (size threads : ℕ) : State V where
  queue := .new size
  threads := List.replicate threads .idle
  pushed := []
  popped := []

def signal (cond : Condition) (threads : List (Thread V)) (chosen : ℕ) :
    Except Stuck (List (Thread V)) :=
  if threads.any (·.waitsOn cond) then
    match threads[chosen]? with
    | some (.waiting c) =>
      if c.condition = cond then .ok (threads.set chosen (.woken c)) else .error .notWaiting
    | _ => .error .notWaiting
  else .ok threads

def push_locked (s : State V) (chosen : ℕ) (t : V) : Except Stuck (State V) :=
  let wasEmpty := s.queue.empty
  match s.queue.push t with
  | none => .error .assertion
  | some queue =>
    (if wasEmpty then signal .m_empty s.threads chosen else .ok s.threads).map fun threads =>
      { s with queue := queue, threads := threads, pushed := s.pushed ++ [t] }

def pop_locked (s : State V) (chosen : ℕ) : Except Stuck (State V) :=
  let wasFull := s.queue.full
  match s.queue.pop with
  | none => .error .assertion
  | some (t, queue) =>
    (if wasFull then signal .m_full s.threads chosen else .ok s.threads).map fun threads =>
      { s with queue := queue, threads := threads, popped := s.popped ++ [t] }

/-- From the lock to the end of the call, or to the wait. -/
def push_wait (s : State V) (thread chosen : ℕ) (t : V) : Except Stuck (State V) :=
  if s.queue.full then
    .ok { s with threads := s.threads.set thread (.waiting (.push_wait t)) }
  else push_locked { s with threads := s.threads.set thread .idle } chosen t

def pop_wait (s : State V) (thread chosen : ℕ) : Except Stuck (State V) :=
  if s.queue.empty then
    .ok { s with threads := s.threads.set thread (.waiting .pop_wait) }
  else pop_locked { s with threads := s.threads.set thread .idle } chosen

def perform (s : State V) : Event V → Except Stuck (State V)
  | .call thread c =>
    match s.threads[thread]? with
    | some .idle => .ok { s with threads := s.threads.set thread (.entering c) }
    | _ => .error .notReady
  | .run thread chosen =>
    if s.queue.m_size = 0 then .error .divisionByZero
    else
      match (s.threads[thread]?).bind Thread.ready with
      | some (.push_wait t) => push_wait s thread chosen t
      | some .pop_wait => pop_wait s thread chosen
      | none => .error .notReady

def Step (s s' : State V) : Prop := ∃ e, perform s e = .ok s'

end Steps

/-! ### Wake-ups -/

section Wakeups
variable {V : Type}

/-- What the waiters on the condition variable test. -/
def CircularQueue.blocks (q : CircularQueue V) : Condition → Bool
  | .m_full => q.full
  | .m_empty => q.empty

/-- How many calls can go on before the waiters' test succeeds: the free places for producers, the
elements for consumers. -/
def CircularQueue.available (q : CircularQueue V) : Condition → ℕ
  | .m_full => q.m_size - 1 - q.contents.length
  | .m_empty => q.contents.length

def waiters (cond : Condition) (threads : List (Thread V)) : ℕ :=
  threads.countP (·.waitsOn cond)

def pending (cond : Condition) (threads : List (Thread V)) : ℕ :=
  threads.countP (·.comesFor cond)

/-- Where a thread waits although the queue would let it go on, a wake-up is pending or another
thread is about to go on. -/
def NoLostWakeup (s : State V) : Prop :=
  ∀ cond, s.queue.blocks cond = false → (∃ t ∈ s.threads, t.waitsOn cond) →
    ∃ t ∈ s.threads, t.comesFor cond

def InOrder (s : State V) : Prop := s.pushed = s.popped ++ s.queue.contents

/-- Where a call goes on without a signal although threads of the other side wait, more of that
side are pending than can go on before the call. -/
def Covered (s : State V) : Event V → Prop
  | .call _ _ => True
  | .run thread _ => ∀ c, (s.threads[thread]?).bind Thread.ready = some c →
      s.queue.blocks c.condition = false → s.queue.blocks c.condition.other = false →
        0 < waiters c.condition.other s.threads →
          s.queue.available c.condition.other < pending c.condition.other s.threads

variable {s s' : State V} {cond : Condition} {threads threads' : List (Thread V)}

theorem blocks_iff {q : CircularQueue V} (h : q.Valid) (cond : Condition) :
    q.blocks cond = true ↔ q.available cond = 0 := by
  cases cond with
  | m_full => exact q.full_iff h
  | m_empty => exact q.empty_iff h

/-! #### Counts -/

theorem countP_set {p i t} (h : threads[i]? = some t) (t' : Thread V) :
    (threads.set i t').countP p + (if p t then 1 else 0) =
      threads.countP p + (if p t' then 1 else 0) := by
  obtain ⟨hlt, rfl⟩ := List.getElem?_eq_some_iff.mp h
  have := List.boole_getElem_le_countP (p := p) hlt
  rw [List.countP_set hlt]
  omega

variable (cond) in
theorem ready_counts {t : Thread V} {c : Call V} (h : t.ready = some c) :
    t.waitsOn cond = false ∧ t.comesFor cond = decide (c.condition = cond) := by
  cases t with
  | entering c' | woken c' =>
    obtain rfl := Option.some.inj h
    exact ⟨rfl, rfl⟩
  | _ => cases h

theorem exists_ready {t : Thread V} (h : t.comesFor cond = true) :
    ∃ c, t.ready = some c ∧ c.condition = cond := by
  cases t with
  | entering c | woken c => exact ⟨c, rfl, by simpa [Thread.comesFor] using h⟩
  | _ => cases h

theorem signal_cases {chosen} (h : signal cond threads chosen = .ok threads') :
    (waiters cond threads = 0 ∧ threads' = threads) ∨
      (waiters cond threads' + 1 = waiters cond threads ∧
        pending cond threads' = pending cond threads + 1 ∧
        waiters cond.other threads' = waiters cond.other threads ∧
        pending cond.other threads' = pending cond.other threads) := by
  rw [signal] at h
  split at h
  · split at h
    · rename_i c hchosen
      split at h
      · rename_i hcond
        obtain rfl := Except.ok.inj h
        right
        have hother : cond ≠ cond.other := by cases cond <;> nofun
        have hwait := fun cond => countP_set (p := (·.waitsOn cond)) hchosen (.woken c)
        have hcome := fun cond => countP_set (p := (·.comesFor cond)) hchosen (.woken c)
        have hw := hwait cond
        have hw' := hwait cond.other
        have hc := hcome cond
        have hc' := hcome cond.other
        simp only [Thread.waitsOn, Thread.comesFor, hcond, hother, decide_true, decide_false,
          if_true, Bool.false_eq_true, if_false, Nat.add_zero] at hw hw' hc hc'
        exact ⟨hw, hc, hw', hc'⟩
      · cases h
    · cases h
  · rename_i hnone
    left
    refine ⟨List.countP_eq_zero.mpr fun t ht hwaits => hnone ?_, (Except.ok.inj h).symm⟩
    exact List.any_eq_true.mpr ⟨t, ht, hwaits⟩

theorem exists_signal (cond : Condition) (threads : List (Thread V)) :
    ∃ chosen threads', signal cond threads chosen = .ok threads' := by
  by_cases hany : threads.any (·.waitsOn cond)
  · obtain ⟨t, ht, hwaits⟩ := List.any_eq_true.mp hany
    obtain ⟨i, hi, rfl⟩ := List.getElem_of_mem ht
    refine ⟨i, ?_⟩
    rw [signal, if_pos hany, List.getElem?_eq_getElem hi]
    cases ht : threads[i] with
    | waiting c =>
      rw [ht] at hwaits
      exact ⟨_, if_pos (by simpa [Thread.waitsOn] using hwaits)⟩
    | _ =>
      rw [ht] at hwaits
      cases hwaits
  · exact ⟨0, threads, if_neg hany⟩

/-! #### One thread with the lock -/

/-- What a thread does until it gives the lock back, seen from the condition variable that its
call waits on. -/
inductive Ran (s s' : State V) (thread chosen : ℕ) (c : Call V) : Prop
  | waits (hblocks : s.queue.blocks c.condition = true) (hqueue : s'.queue = s.queue)
    (hthreads : s'.threads = s.threads.set thread (.waiting c)) (horder : InOrder s → InOrder s')
  | goes (hblocks : s.queue.blocks c.condition = false)
    (hvalid : s'.queue.Valid) (hsize : s'.queue.m_size = s.queue.m_size)
    (htaken : s'.queue.available c.condition + 1 = s.queue.available c.condition)
    (hgiven : s'.queue.available c.condition.other =
      s.queue.available c.condition.other + 1)
    (hthreads : (if s.queue.blocks c.condition.other then
        signal c.condition.other (s.threads.set thread .idle) chosen
      else .ok (s.threads.set thread .idle)) = .ok s'.threads) (horder : InOrder s → InOrder s')

theorem push_wait_ran {thread chosen t} (hv : s.queue.Valid)
    (h : push_wait s thread chosen t = .ok s') : Ran s s' thread chosen (.push_wait t) := by
  rw [push_wait] at h
  split at h
  · rename_i hfull
    obtain rfl := Except.ok.inj h
    exact .waits hfull rfl rfl id
  · rename_i hfull
    rw [Bool.not_eq_true] at hfull
    obtain ⟨q', hpush, hvalid, hsize, hcontents⟩ :=
      CircularQueue.push_spec hv hfull t
    have hroom := (blocks_iff hv .m_full).not.mp (by simpa [CircularQueue.blocks] using hfull)
    simp only [push_locked, hpush] at h
    obtain ⟨threads, hthreads, rfl⟩ := of_map_ok h
    refine .goes hfull hvalid hsize ?_ ?_ hthreads fun horder => ?_
    · simp only [CircularQueue.available, Call.condition, hcontents, hsize, List.length_append,
        List.length_singleton] at hroom ⊢
      omega
    · simp only [CircularQueue.available, Call.condition, Condition.other, hcontents,
        List.length_append, List.length_singleton]
    · rw [InOrder] at horder ⊢
      simp only [horder, hcontents, List.append_assoc]

theorem pop_wait_ran {thread chosen} (hv : s.queue.Valid) (h : pop_wait s thread chosen = .ok s') :
    Ran s s' thread chosen .pop_wait := by
  rw [pop_wait] at h
  split at h
  · rename_i hempty
    obtain rfl := Except.ok.inj h
    exact .waits hempty rfl rfl id
  · rename_i hempty
    rw [Bool.not_eq_true] at hempty
    obtain ⟨t, q', hpop, hvalid, hsize, hcontents⟩ := CircularQueue.pop_spec hv hempty
    have hlt := Ring.length_lt hv.last_lt hv.first_lt
    rw [← CircularQueue.length_contents, hcontents, List.length_cons] at hlt
    simp only [pop_locked, hpop] at h
    obtain ⟨threads, hthreads, rfl⟩ := of_map_ok h
    refine .goes hempty hvalid hsize ?_ ?_ hthreads fun horder => ?_
    · simp only [CircularQueue.available, Call.condition, hcontents, List.length_cons]
    · simp only [CircularQueue.available, Call.condition, Condition.other, hcontents, hsize,
        List.length_cons]
      omega
    · rw [InOrder] at horder ⊢
      simp only [horder, hcontents, List.append_assoc, List.singleton_append]

theorem run_cases {thread chosen} (hv : s.queue.m_size ≠ 0 → s.queue.Valid)
    (h : perform s (.run thread chosen) = .ok s') :
    s.queue.m_size ≠ 0 ∧ ∃ t c, s.threads[thread]? = some t ∧ t.ready = some c ∧
      Ran s s' thread chosen c := by
  simp only [perform] at h
  split at h
  · cases h
  · rename_i hsize
    refine ⟨hsize, ?_⟩
    split at h
    · rename_i t hready
      obtain ⟨th, hth, hc⟩ := Option.bind_eq_some_iff.mp hready
      exact ⟨th, _, hth, hc, push_wait_ran (hv hsize) h⟩
    · rename_i hready
      obtain ⟨th, hth, hc⟩ := Option.bind_eq_some_iff.mp hready
      exact ⟨th, _, hth, hc, pop_wait_ran (hv hsize) h⟩
    · cases h

theorem call_cases {thread c} (h : perform s (.call thread c) = .ok s') :
    s.threads[thread]? = some .idle ∧
      s' = { s with threads := s.threads.set thread (.entering c) } := by
  simp only [perform] at h
  split at h
  · rename_i hidle
    exact ⟨hidle, (Except.ok.inj h).symm⟩
  · cases h

/-! #### What every run keeps -/

structure Kept (s : State V) : Prop where
  valid : s.queue.m_size ≠ 0 → s.queue.Valid
  stopped : s.queue.m_size = 0 → ∀ cond, waiters cond s.threads = 0
  order : InOrder s

variable (cond) in
theorem counts_call {thread c} (h : s.threads[thread]? = some .idle) :
    waiters cond (s.threads.set thread (.entering c)) = waiters cond s.threads ∧
      pending cond s.threads ≤ pending cond (s.threads.set thread (.entering c)) := by
  have hw := countP_set (p := (·.waitsOn cond)) h (.entering c)
  have hc := countP_set (p := (·.comesFor cond)) h (.entering c)
  simp only [Thread.waitsOn, Thread.comesFor, Bool.false_eq_true, if_false, Nat.add_zero] at hw hc
  exact ⟨hw, Nat.le.intro hc.symm⟩

theorem Kept.step (hk : Kept s) {e} (h : perform s e = .ok s') : Kept s' := by
  cases e with
  | call thread c =>
    obtain ⟨hidle, rfl⟩ := call_cases h
    exact ⟨hk.valid, fun hsize cond => (counts_call cond hidle).1.trans (hk.stopped hsize cond),
      hk.order⟩
  | run thread chosen =>
    obtain ⟨hsize, t, c, hthread, hready, hran⟩ := run_cases hk.valid h
    cases hran with
    | waits hblocks hqueue hthreads horder =>
      exact ⟨hqueue ▸ hk.valid, fun h => absurd h (by rwa [hqueue]), horder hk.order⟩
    | goes hblocks hvalid hsize' htaken hgiven hthreads horder =>
      exact ⟨fun _ => hvalid, fun h => absurd h (by rwa [hsize']), horder hk.order⟩

theorem kept_initial [Inhabited V] (size threads : ℕ) :
    Kept (State.initial (V := V) size threads) where
  valid hsize := ⟨Nat.pos_of_ne_zero hsize, Nat.pos_of_ne_zero hsize⟩
  stopped _ cond := by simp [waiters, State.initial, Thread.waitsOn, List.countP_replicate]
  order := by
    simp [InOrder, State.initial, CircularQueue.contents, CircularQueue.new, Ring.cells]

theorem kept [Inhabited V] {size threads} (h : Reachable (· = State.initial size threads) Step s) :
    Kept s :=
  h.invariant (fun _ hs => hs ▸ kept_initial size threads) fun _ _ hk ⟨_, hstep⟩ => hk.step hstep

theorem popped_in_order [Inhabited V] {size threads}
    (h : Reachable (· = State.initial size threads) Step s) :
    s.pushed = s.popped ++ s.queue.contents :=
  (kept h).order

/-! #### Enough wake-ups -/

/-- Where threads wait on a condition variable, as many come for it as can go on. -/
def Enough (s : State V) : Prop :=
  ∀ cond, 0 < waiters cond s.threads → s.queue.available cond ≤ pending cond s.threads

theorem NoLostWakeup.of_enough (hk : Kept s) (h : Enough s) : NoLostWakeup s := by
  intro cond hblocks hwaits
  have hwaiters : 0 < waiters cond s.threads := by
    obtain ⟨t, ht, hwaits⟩ := hwaits
    exact List.countP_pos_iff.mpr ⟨t, ht, hwaits⟩
  by_cases hsize : s.queue.m_size = 0
  · have := hk.stopped hsize cond
    omega
  · have havailable : s.queue.available cond ≠ 0 := by
      rw [Ne, ← blocks_iff (hk.valid hsize), hblocks]
      exact Bool.false_ne_true
    have := h cond hwaiters
    have hpending : 0 < pending cond s.threads := by omega
    exact List.countP_pos_iff.mp hpending

variable (cond) in
theorem counts_ran {thread} {t : Thread V} {c : Call V} (hthread : s.threads[thread]? = some t)
    (hready : t.ready = some c) (t' : Thread V) :
    waiters cond (s.threads.set thread t') =
        waiters cond s.threads + (if t'.waitsOn cond then 1 else 0) ∧
      pending cond (s.threads.set thread t') + (if c.condition = cond then 1 else 0) =
        pending cond s.threads + (if t'.comesFor cond then 1 else 0) := by
  obtain ⟨hnot, hcomes⟩ := ready_counts cond hready
  have hw := countP_set (p := (·.waitsOn cond)) hthread t'
  have hc := countP_set (p := (·.comesFor cond)) hthread t'
  simp only [hnot, hcomes, Bool.false_eq_true, if_false, Nat.add_zero, decide_eq_true_eq] at hw hc
  exact ⟨hw, hc⟩

theorem other_ne (cond : Condition) : cond ≠ cond.other := by cases cond <;> nofun

theorem eq_or_other (cond cond' : Condition) : cond' = cond ∨ cond' = cond.other := by
  cases cond <;> cases cond' <;> simp [Condition.other]

theorem other_other (cond : Condition) : cond.other.other = cond := by cases cond <;> rfl

theorem counts_goes {thread chosen t c} (hthread : s.threads[thread]? = some t)
    (hready : t.ready = some c) (hthreads : (if s.queue.blocks c.condition.other then
        signal c.condition.other (s.threads.set thread .idle) chosen
      else .ok (s.threads.set thread .idle)) = .ok threads') :
    (waiters c.condition threads' = waiters c.condition s.threads ∧
      pending c.condition threads' + 1 = pending c.condition s.threads) ∧
    (s.queue.blocks c.condition.other = true →
      waiters c.condition.other threads' = 0 ∨ 0 < pending c.condition.other threads') ∧
    (s.queue.blocks c.condition.other = false →
      waiters c.condition.other threads' = waiters c.condition.other s.threads ∧
      pending c.condition.other threads' = pending c.condition.other s.threads) := by
  obtain ⟨hw, hc⟩ := counts_ran c.condition hthread hready .idle
  obtain ⟨hw', hc'⟩ := counts_ran c.condition.other hthread hready .idle
  simp only [Thread.waitsOn, Thread.comesFor, other_ne, Bool.false_eq_true, if_true, if_false,
    Nat.add_zero] at hw hc hw' hc'
  split at hthreads
  · rename_i hblocks
    refine ⟨?_, fun _ => ?_, fun h => absurd (hblocks.symm.trans h) nofun⟩
    · rcases signal_cases hthreads with ⟨-, rfl⟩ | ⟨-, -, hsame⟩
      · exact ⟨hw, hc⟩
      · rw [other_other] at hsame
        exact ⟨hsame.1.trans hw, by rw [hsame.2, hc]⟩
    · rcases signal_cases hthreads with ⟨hnone, rfl⟩ | ⟨-, hwoken, -⟩
      · exact .inl hnone
      · exact .inr (hwoken ▸ Nat.succ_pos _)
  · rename_i hblocks
    obtain rfl := Except.ok.inj hthreads
    exact ⟨⟨hw, hc⟩, fun h => absurd h hblocks, fun _ => ⟨hw', hc'⟩⟩

theorem Enough.step (h : Enough s) (hk : Kept s) {e} (hcovered : Covered s e)
    (hstep : perform s e = .ok s') : Enough s' := by
  intro cond hwaiters
  cases e with
  | call thread c =>
    obtain ⟨hidle, rfl⟩ := call_cases hstep
    obtain ⟨hw, hc⟩ := counts_call cond (c := c) hidle
    exact Nat.le_trans (h cond (hw ▸ hwaiters)) hc
  | run thread chosen =>
    obtain ⟨hsize, t, c, hthread, hready, hran⟩ := run_cases hk.valid hstep
    have hv := hk.valid hsize
    cases hran with
    | waits hblocks hqueue hthreads horder =>
      obtain ⟨hw, hc⟩ := counts_ran cond hthread hready (.waiting c)
      rw [hthreads] at hwaiters ⊢
      rw [hqueue]
      by_cases hcond : c.condition = cond
      · rw [← hcond, (blocks_iff hv _).mp hblocks]
        exact Nat.zero_le _
      · simp only [Thread.waitsOn, Thread.comesFor, hcond, decide_false, Bool.false_eq_true,
          if_false, Nat.add_zero] at hw hc
        rw [hc]
        exact h cond (hw ▸ hwaiters)
    | goes hblocks hvalid hsize' htaken hgiven hthreads horder =>
      obtain ⟨⟨hw, hc⟩, hsignal, hsilent⟩ := counts_goes hthread hready hthreads
      rcases eq_or_other c.condition cond with rfl | rfl
      · have := h c.condition (hw ▸ hwaiters)
        omega
      · cases hother : s.queue.blocks c.condition.other with
        | true =>
          have := (blocks_iff hv _).mp hother
          rcases hsignal hother with hnone | hwoken <;> omega
        | false =>
          obtain ⟨hw', hc'⟩ := hsilent hother
          have hmore := hcovered c (by rw [hthread]; exact hready) hblocks hother (hw' ▸ hwaiters)
          omega

/-- The steps of a run that are covered. -/
def CoveredStep (s s' : State V) : Prop := ∃ e, Covered s e ∧ perform s e = .ok s'

/-- In a run whose steps are covered no wake-up is lost, and the elements come out in order. -/
theorem covered_no_lost_wakeup [Inhabited V] {size threads : ℕ}
    (h : Reachable (· = State.initial size threads) CoveredStep s) :
    NoLostWakeup s ∧ InOrder s := by
  have hinv : Kept s ∧ Enough s := by
    refine h.invariant (P := fun s => Kept s ∧ Enough s) ?_ ?_
    · rintro _ rfl
      refine ⟨kept_initial size threads, fun cond hwaiters => ?_⟩
      simp [waiters, State.initial, Thread.waitsOn, List.countP_replicate] at hwaiters
    · rintro s s' ⟨hk, henough⟩ ⟨e, hcovered, hstep⟩
      exact ⟨hk.step hstep, henough.step hk hcovered hstep⟩
  exact ⟨.of_enough hinv.1 hinv.2, hinv.1.order⟩

/-! #### A call that is not covered -/

theorem run_enabled {thread c} (hsize : s.queue.m_size ≠ 0) (hv : s.queue.Valid)
    (hready : (s.threads[thread]?).bind Thread.ready = some c) :
    ∃ chosen s', perform s (.run thread chosen) = .ok s' := by
  have hsignal := fun cond => exists_signal cond (s.threads.set thread .idle)
  simp only [perform, if_neg hsize, hready]
  cases c with
  | push_wait t =>
    simp only [push_wait]
    by_cases hfull : s.queue.full = true
    · exact ⟨0, _, if_pos hfull⟩
    · rw [Bool.not_eq_true] at hfull
      obtain ⟨q', hpush, -⟩ := CircularQueue.push_spec hv hfull t
      obtain ⟨chosen, threads', hthreads⟩ := hsignal .m_empty
      refine ⟨chosen, ?_⟩
      simp only [hfull, Bool.false_eq_true, if_false, push_locked, hpush, hthreads]
      split <;> exact ⟨_, rfl⟩
  | pop_wait =>
    simp only [pop_wait]
    by_cases hempty : s.queue.empty = true
    · exact ⟨0, _, if_pos hempty⟩
    · rw [Bool.not_eq_true] at hempty
      obtain ⟨t, q', hpop, -⟩ := CircularQueue.pop_spec hv hempty
      obtain ⟨chosen, threads', hthreads⟩ := hsignal .m_full
      refine ⟨chosen, ?_⟩
      simp only [hempty, Bool.false_eq_true, if_false, pop_locked, hpop, hthreads]
      split <;> exact ⟨_, rfl⟩

/-- Where more calls of a side can go on than come for it while others of that side wait, those
that come leave a state in which nobody wakes the rest. -/
theorem loses_wakeup (hv : s.queue.Valid) (hsize : s.queue.m_size ≠ 0)
    (hwaiters : 0 < waiters cond s.threads)
    (hfew : pending cond s.threads < s.queue.available cond) :
    ∃ s', Relation.ReflTransGen Step s s' ∧ ¬ NoLostWakeup s' := by
  generalize hn : pending cond s.threads = n at hfew
  induction n generalizing s with
  | zero =>
    refine ⟨s, .refl, fun h => ?_⟩
    have hblocks : s.queue.blocks cond = false := by
      rw [← Bool.not_eq_true, blocks_iff hv]
      omega
    obtain ⟨t, ht, hcomes⟩ := h cond hblocks (List.countP_pos_iff.mp hwaiters)
    exact List.countP_eq_zero.mp hn t ht hcomes
  | succ n ih =>
    have hpending : 0 < pending cond s.threads := by omega
    obtain ⟨t, ht, hcomes⟩ := List.countP_pos_iff.mp hpending
    obtain ⟨c, hready, rfl⟩ := exists_ready hcomes
    obtain ⟨thread, hlt, rfl⟩ := List.getElem_of_mem ht
    have hthread := List.getElem?_eq_getElem hlt
    obtain ⟨chosen, s', hstep⟩ := run_enabled hsize hv (by rw [hthread]; exact hready)
    obtain ⟨-, t, c', hthread', hready', hran⟩ := run_cases (fun _ => hv) hstep
    obtain rfl := Option.some.inj (hthread.symm.trans hthread')
    obtain rfl := Option.some.inj (hready.symm.trans hready')
    cases hran with
    | waits hblocks hqueue hthreads horder =>
      have := (blocks_iff hv _).mp hblocks
      omega
    | goes hblocks hvalid hsize' htaken hgiven hthreads horder =>
      obtain ⟨⟨hw, hc⟩, -⟩ := counts_goes hthread hready hthreads
      obtain ⟨s'', hrun, hlost⟩ := ih hvalid (by rwa [hsize']) (by omega) (by omega) (by omega)
      exact ⟨s'', .head ⟨_, hstep⟩ hrun, hlost⟩

theorem not_covered_loses_wakeup [Inhabited V] {size threads}
    (h : Reachable (· = State.initial size threads) Step s) {e} (hstep : perform s e = .ok s')
    (hnot : ¬ Covered s e) :
    ∃ s'', Relation.ReflTransGen Step s' s'' ∧ ¬ NoLostWakeup s'' := by
  have hk := kept h
  cases e with
  | call thread c => exact absurd trivial hnot
  | run thread chosen =>
    obtain ⟨hsize, t, c, hthread, hready, hran⟩ := run_cases hk.valid hstep
    simp only [Covered, hthread, Option.bind_some, hready, Option.some.injEq, forall_eq',
      not_forall, Nat.not_lt] at hnot
    obtain ⟨hgoes, hother, hwaiters, hfew⟩ := hnot
    cases hran with
    | waits hblocks hqueue hthreads horder => exact absurd (hblocks.symm.trans hgoes) nofun
    | goes hblocks hvalid hsize' htaken hgiven hthreads horder =>
      obtain ⟨-, -, hsilent⟩ := counts_goes hthread hready hthreads
      obtain ⟨hw, hc⟩ := hsilent hother
      exact loses_wakeup hvalid (by rwa [hsize']) (by rwa [hw]) (by omega)

end Wakeups

/-! #### Two runs of a queue for three -/

/-- A consumer waits, and a producer wakes it. -/
theorem covered_no_lost_wakeup_woken : ∃ s : State ℕ, s.threads = [.woken .pop_wait, .idle] ∧
    NoLostWakeup s ∧ InOrder s := by
  have hinit : Reachable (· = State.initial 3 2) CoveredStep (State.initial (V := ℕ) 3 2) :=
    .init rfl
  have hcalled := hinit.step ⟨.call 0 .pop_wait, trivial, rfl⟩
  have hwaits := hcalled.step ⟨.run 0 0, fun c hc hblocks => by (cases hc; cases hblocks), rfl⟩
  have hpushes := hwaits.step ⟨.call 1 (.push_wait 7), trivial, rfl⟩
  have hwakes := hpushes.step ⟨.run 1 0, fun c hc _ hblocks => by (cases hc; cases hblocks), rfl⟩
  exact ⟨_, rfl, covered_no_lost_wakeup hwakes⟩

/-- Two consumers wait, two elements are pushed, and the consumer that is woken takes one. -/
def twoWaiting : List (Event ℕ) :=
  [.call 0 .pop_wait, .run 0 0, .call 1 .pop_wait, .run 1 0, .call 2 (.push_wait 7), .run 2 0,
    .call 2 (.push_wait 8), .run 2 0, .run 0 0]

/-- An element is left, a consumer waits, and nobody comes for it. -/
theorem wakeup_lost : ∃ s : State ℕ,
    Reachable (· = State.initial 3 3) Step s ∧ ¬ NoLostWakeup s := by
  obtain ⟨s, hrun, hthreads, hblocks⟩ : ∃ s,
      twoWaiting.foldlM perform (State.initial 3 3) = .ok s ∧
        s.threads = [.idle, .waiting .pop_wait, .idle] ∧ s.queue.blocks .m_empty = false :=
    ⟨_, rfl, rfl, rfl⟩
  have hinit : Reachable (· = State.initial 3 3) Step (State.initial (V := ℕ) 3 3) := .init rfl
  refine ⟨s, hinit.foldlM (fun e _ _ _ h => ⟨e, h⟩) hrun, fun h => ?_⟩
  obtain ⟨t, ht, hcomes⟩ := h .m_empty hblocks ⟨.waiting .pop_wait, by simp [hthreads], rfl⟩
  simp only [hthreads, List.mem_cons, List.not_mem_nil, or_false] at ht
  rcases ht with rfl | rfl | rfl <;> cases hcomes

/-! ### The queue as a list

A reference to an element is its place in the array. Sums of places are 32-bit words. -/

namespace CircularQueue
variable {V : Type} (q : CircularQueue V)

def size : ℕ := (q.m_first + q.m_size + 2 ^ 32 - q.m_last) % 2 ^ 32 % q.m_size

/-- `at`, with its assertion. -/
def at_ (idx : ℕ) : Option ℕ :=
  if idx < q.size then some ((q.m_last + idx) % 2 ^ 32 % q.m_size) else none

def front : Option ℕ := if q.empty then none else some q.m_last

def back : Option ℕ :=
  if q.empty then none else some ((q.m_first + q.m_size - 1) % 2 ^ 32 % q.m_size)

/-- What an iterator visits from `begin` to `end`. -/
def iterate : List (Option ℕ) := (List.range q.size).map q.at_

/-- The reference that is returned, and the queue. -/
def next : Option (ℕ × CircularQueue V) :=
  if q.full then none
  else some (q.m_first, { q with m_first := (q.m_first + 1) % q.m_size })

def pushCircular (t : V) : Option (CircularQueue V) :=
  if q.full then q.pop.bind fun popped => popped.2.push t else q.push t

inductive Op (V : Type) where
  | push (t : V) | pushCircular (t : V) | next | pop
  /-- A write through the reference of `at`. -/
  | assign (idx : ℕ) (t : V)

def exec : Op V → Option (CircularQueue V)
  | .push t => q.push t
  | .pushCircular t => q.pushCircular t
  | .next => q.next.map (·.2)
  | .pop => q.pop.map (·.2)
  | .assign idx t => (q.at_ idx).map fun r => { q with m_queue := update q.m_queue r t }

def references : List ℕ := Ring.cells q.m_size q.m_last q.m_first

/-- The list: the elements with their references. -/
def elements : List (ℕ × V) := q.references.map fun r => (r, q.m_queue r)

/-- What is read off the queue is so of the list. -/
structure Agrees (n : ℕ) : Prop where
  size : q.size = q.references.length
  full : q.full ↔ q.references.length = n
  empty : q.empty ↔ q.references = []
  at_ : ∀ idx, q.at_ idx = q.references[idx]?
  front : q.front = q.references.head?
  back : q.back = q.references.getLast?
  iterate : q.iterate = q.references.map some

/-- The assertions, as the list has them. -/
def Allowed (n : ℕ) : Op V → Prop
  | .push _ | .next => q.references.length < n
  | .pushCircular _ => True
  | .pop => q.references ≠ []
  | .assign idx _ => idx < q.references.length

/-- The list is the old one with a new element, whose reference denotes no other one. -/
def Appended (old : List (ℕ × V)) (r : ℕ) (t : V) : Prop :=
  (∀ e ∈ old, e.1 ≠ r) ∧ q.elements = old ++ [(r, t)]

/-- What a call makes of the list. All other elements keep their references and values. -/
def Follows (n : ℕ) (q' : CircularQueue V) : Op V → Prop
  | .push t => ∃ r, q'.Appended q.elements r t
  | .next => ∃ r t, q.next = some (r, q') ∧ q'.Appended q.elements r t
  | .pushCircular t => ∃ r, q'.Appended
      (if q.references.length = n then q.elements.tail else q.elements) r t
  | .pop => ∃ r t, q.pop = some (t, q') ∧ q.elements = (r, t) :: q'.elements
  | .assign idx t => ∃ r, q.references[idx]? = some r ∧
      q'.elements = q.elements.map fun e => if e.1 = r then (r, t) else e

/-- In every state that calls with their assertions reach, the queue is the list. -/
def Refines (V : Type) [Inhabited V] (n : ℕ) : Prop :=
  ∀ q : CircularQueue V, Reachable (· = new n) (fun q q' => ∃ op, q.exec op = some q') q →
    q.m_size ≠ 0 ∧ q.Agrees n ∧
      ∀ op, (q.Allowed n op ↔ (q.exec op).isSome) ∧ ∀ q', q.exec op = some q' → q.Follows n q' op

section
variable {q} {n : ℕ}

theorem length_references (q : CircularQueue V) :
    q.references.length = (q.m_first + q.m_size - q.m_last) % q.m_size := by
  simp [references, Ring.cells]

theorem agrees (h : q.Valid) (hsize : q.m_size = n + 1) (hn : n < 2 ^ 31) : q.Agrees n := by
  have hfirst := h.first_lt
  have hlast := h.last_lt
  have hlt := Ring.length_lt hlast hfirst
  have hsum : (q.m_first + q.m_size + 2 ^ 32 - q.m_last) % 2 ^ 32 =
      q.m_first + q.m_size - q.m_last := by omega
  have hlen : q.size = q.references.length := by rw [length_references, size, hsum]
  have hempty : q.empty ↔ q.references = [] := by
    rw [empty_iff h, length_contents, List.length_eq_zero_iff, references]
  have hat : ∀ idx, q.at_ idx = q.references[idx]? := by
    intro idx
    rw [at_, hlen]
    split
    · next hidx =>
      rw [references] at hidx ⊢
      rw [Ring.cells_eq, List.getElem?_map, List.getElem?_range hidx, Option.map_some,
        Nat.mod_eq_of_lt (by omega : q.m_last + idx < 2 ^ 32)]
    · next hidx => exact (List.getElem?_eq_none (Nat.le_of_not_lt hidx)).symm
  refine ⟨hlen, ?_, hempty, hat, ?_, ?_, ?_⟩
  · rw [full_iff h, length_contents, references]
    omega
  · rw [front]
    split
    · next he => rw [hempty.mp he, List.head?_nil]
    · next he =>
      rw [references, Ring.cells_empty hlast hfirst (by simpa [empty] using he), List.head?_cons]
  · rw [back]
    split
    · next he => rw [hempty.mp he, List.getLast?_nil]
    · next he =>
      have hpos : 0 < q.references.length :=
        List.length_pos_iff.mpr fun hnil => he (hempty.mpr hnil)
      rw [List.getLast?_eq_getElem?, ← hat, at_, if_pos (by omega)]
      rw [references, Ring.length_cells hlast hfirst] at hpos ⊢
      split at hpos
      · next hle =>
        rw [if_pos hle, show q.m_last + (q.m_first - q.m_last - 1) = q.m_first - 1 by omega,
          show q.m_first + q.m_size - 1 = q.m_first - 1 + q.m_size by omega,
          Nat.mod_eq_of_lt (by omega : q.m_first - 1 + q.m_size < 2 ^ 32), Nat.add_mod_right,
          Nat.mod_eq_of_lt (by omega : q.m_first - 1 < 2 ^ 32)]
      · next hle =>
        rw [if_neg hle]
        congr 3
        omega
  · rw [iterate, hlen]
    refine List.ext_getElem? fun i => ?_
    rw [List.getElem?_map, List.getElem?_map]
    by_cases hi : i < q.references.length
    · simp [hat, hi]
    · simp [hi]

theorem first_notMem (h : q.Valid) : q.m_first ∉ q.references :=
  Ring.first_notMem h.last_lt h.first_lt

theorem appended (h : q.Valid) (hfull : q.full = false) {queue : ℕ → V}
    (hkept : ∀ r ∈ q.references, queue r = q.m_queue r) :
    Appended { q with m_first := (q.m_first + 1) % q.m_size, m_queue := queue } q.elements
      q.m_first (queue q.m_first) := by
  have hroom : (q.m_first + 1) % q.m_size ≠ q.m_last := by simpa [full] using hfull
  constructor
  · intro e he heq
    obtain ⟨r, hr, rfl⟩ := List.mem_map.mp he
    obtain rfl : r = q.m_first := heq
    exact first_notMem h hr
  · simp only [elements, references]
    rw [Ring.cells_fill h.last_lt h.first_lt hroom, List.map_append, List.map_singleton]
    exact congrArg (· ++ _) (List.map_congr_left fun r hr => by rw [hkept r hr])

theorem filled_valid (h : q.Valid) (queue : ℕ → V) :
    Valid { q with m_first := (q.m_first + 1) % q.m_size, m_queue := queue } :=
  ⟨Ring.next_lt h.first_lt, h.last_lt⟩

theorem push_appended (h : q.Valid) (hfull : q.full = false) (t : V) : ∃ q', q.push t = some q' ∧
    q'.Valid ∧ q'.m_size = q.m_size ∧ ∃ r, q'.Appended q.elements r t := by
  refine ⟨_, if_neg (by simp [hfull]), filled_valid h _, rfl, q.m_first, ?_⟩
  have hkept : ∀ r ∈ q.references, update q.m_queue q.m_first t r = q.m_queue r := fun r hr =>
    update_of_ne (fun heq : r = q.m_first => first_notMem h (heq ▸ hr)) ..
  have happended := appended h hfull hkept
  rwa [update_self] at happended

theorem pop_elements (h : q.Valid) (hempty : q.empty = false) : ∃ t q', q.pop = some (t, q') ∧
    q'.Valid ∧ q'.m_size = q.m_size ∧ ∃ r, q.elements = (r, t) :: q'.elements := by
  have hfilled : q.m_first ≠ q.m_last := by simpa [empty] using hempty
  refine ⟨_, _, if_neg (by simp [hempty]), ⟨h.first_lt, Ring.next_lt h.last_lt⟩, rfl, q.m_last, ?_⟩
  simp only [elements, references]
  rw [Ring.cells_empty h.last_lt h.first_lt hfilled, List.map_cons]

theorem length_elements : q.elements.length = q.references.length := List.length_map _

theorem exec_spec (h : q.Valid) (hsize : q.m_size = n + 1) (hpos : 1 ≤ n) (hn : n < 2 ^ 31)
    (op : Op V) : (q.Allowed n op ∧ ∃ q', q.exec op = some q' ∧ q'.Valid ∧ q'.m_size = n + 1 ∧
      q.Follows n q' op) ∨ ¬q.Allowed n op ∧ q.exec op = none := by
  have hagrees := agrees h hsize hn
  have hle : q.references.length ≤ n := by
    have hlt := Ring.length_lt h.last_lt h.first_lt
    rw [references]
    omega
  have hroom : q.full = false ↔ q.references.length < n := by
    rw [← Bool.not_eq_true, hagrees.full]
    omega
  have hfilled : q.empty = false ↔ q.references ≠ [] := by
    rw [← Bool.not_eq_true, hagrees.empty]
  cases op with
  | push t =>
    by_cases hfull : q.full = false
    · obtain ⟨q', hq', hvalid, hsize', r, happended⟩ := push_appended h hfull t
      exact .inl ⟨hroom.mp hfull, q', hq', hvalid, hsize'.trans hsize, r, happended⟩
    · exact .inr ⟨mt hroom.mpr hfull, if_pos (by simpa using hfull)⟩
  | next =>
    by_cases hfull : q.full = false
    · have hnext : q.next = some (q.m_first, _) := if_neg (by simp [hfull])
      exact .inl ⟨hroom.mp hfull, _, congrArg (Option.map _) hnext, filled_valid h _, hsize,
        q.m_first, _, hnext, appended h hfull fun _ _ => rfl⟩
    · have hnext : q.next = none := if_pos (by simpa using hfull)
      exact .inr ⟨mt hroom.mpr hfull, congrArg (Option.map _) hnext⟩
  | pop =>
    by_cases hempty : q.empty = false
    · obtain ⟨t, q', hq', hvalid, hsize', r, helements⟩ := pop_elements h hempty
      exact .inl ⟨hfilled.mp hempty, q', congrArg (Option.map _) hq', hvalid, hsize'.trans hsize, r,
        t, hq', helements⟩
    · have hpop : q.pop = none := if_pos (by simpa using hempty)
      exact .inr ⟨mt hfilled.mpr hempty, congrArg (Option.map _) hpop⟩
  | pushCircular t =>
    refine .inl ⟨trivial, ?_⟩
    by_cases hfull : q.full = false
    · obtain ⟨q', hq', hvalid, hsize', r, happended⟩ := push_appended h hfull t
      refine ⟨q', ?_, hvalid, hsize'.trans hsize, r, ?_⟩
      · rw [exec, pushCircular, if_neg (by simp [hfull]), hq']
      · rwa [if_neg (Nat.ne_of_lt (hroom.mp hfull))]
    · -- The first element makes room.
      have hlen : q.references.length = n := hagrees.full.mp (by simpa using hfull)
      have hempty := hfilled.mpr fun hnil => by simp [hnil] at hlen; omega
      obtain ⟨t₀, q₀, hpop, hvalid₀, hsize₀, r₀, helements⟩ := pop_elements h hempty
      have hlen₀ : q₀.references.length + 1 = n := by
        rw [← hlen, ← length_elements, ← length_elements, helements, List.length_cons]
      have hfull₀ : q₀.full = false := by
        rw [← Bool.not_eq_true, (agrees hvalid₀ (hsize₀.trans hsize) hn).full]
        omega
      obtain ⟨q', hq', hvalid, hsize', r, happended⟩ := push_appended hvalid₀ hfull₀ t
      refine ⟨q', ?_, hvalid, (hsize'.trans hsize₀).trans hsize, r, ?_⟩
      · rw [exec, pushCircular, if_pos (by simpa using hfull), hpop, Option.bind_some, hq']
      · rwa [if_pos hlen, helements, List.tail_cons]
  | assign idx t =>
    have hat := hagrees.at_ idx
    by_cases hidx : idx < q.references.length
    · rw [List.getElem?_eq_getElem hidx] at hat
      refine .inl ⟨hidx, _, congrArg (Option.map _) hat, ⟨h.first_lt, h.last_lt⟩, hsize, _,
        List.getElem?_eq_getElem hidx, ?_⟩
      simp only [elements, List.map_map]
      refine List.map_congr_left fun r _ => ?_
      by_cases hr : r = q.references[idx]
      · simp [hr]
      · simp [hr]
    · rw [List.getElem?_eq_none (Nat.le_of_not_lt hidx)] at hat
      exact .inr ⟨hidx, congrArg (Option.map _) hat⟩

theorem refines_of_lt [Inhabited V] (hpos : 1 ≤ n) (hn : n < 2 ^ 31) : Refines V n := by
  intro q h
  obtain ⟨hvalid, hsize⟩ : q.Valid ∧ q.m_size = n + 1 := by
    refine h.invariant (P := fun q : CircularQueue V => q.Valid ∧ q.m_size = n + 1) ?_ ?_
    · rintro _ rfl
      have hsize : (new n : CircularQueue V).m_size = n + 1 := Nat.mod_eq_of_lt (by omega)
      exact ⟨⟨hsize ▸ Nat.succ_pos n, hsize ▸ Nat.succ_pos n⟩, hsize⟩
    · rintro q q' ⟨hvalid, hsize⟩ ⟨op, hop⟩
      rcases exec_spec hvalid hsize hpos hn op with ⟨-, _, hq', hvalid', hsize', -⟩ | ⟨-, hnone⟩
      · obtain rfl := Option.some.inj (hq'.symm.trans hop)
        exact ⟨hvalid', hsize'⟩
      · exact nomatch hnone.symm.trans hop
  refine ⟨by omega, agrees hvalid hsize hn, fun op => ?_⟩
  rcases exec_spec hvalid hsize hpos hn op with ⟨hall, _, hq', -, -, hfollows⟩ | ⟨hnot, hnone⟩
  · refine ⟨⟨fun _ => hq' ▸ rfl, fun _ => hall⟩, fun q' h => ?_⟩
    obtain rfl := Option.some.inj (hq'.symm.trans h)
    exact hfollows
  · rw [hnone]
    exact ⟨⟨fun hall => absurd hall hnot, nofun⟩, nofun⟩

/-- So long a queue comes to a size that is cut off. -/
theorem not_refines [Inhabited V] (hn : 2 ^ 31 ≤ n) (hword : n < 2 ^ 32) : ¬Refines V n := by
  intro h
  have hzero : (n + 1) % 2 ^ 32 ≠ 0 := (h _ (.init rfl)).1
  have hnew : (new n : CircularQueue V) = ⟨n + 1, 0, 0, fun _ => default⟩ := by
    rw [new, Nat.mod_eq_of_lt (by omega)]
  have hreach : ∀ k ≤ 2 ^ 32 - (n + 1), Reachable (· = new n)
      (fun q q' => ∃ op, q.exec op = some q') (⟨n + 1, k, 0, fun _ => default⟩ : CircularQueue V) := by
    intro k
    induction k with
    | zero => exact fun _ => .init hnew.symm
    | succ k ih =>
      intro hk
      have hmod : (k + 1) % (n + 1) = k + 1 := Nat.mod_eq_of_lt (by omega)
      exact (ih (by omega)).step ⟨.next, by simp [exec, next, full, hmod]⟩
  obtain ⟨k, hk⟩ : ∃ k, k + (n + 1) = 2 ^ 32 := ⟨2 ^ 32 - (n + 1), by omega⟩
  have hlen := (h _ (hreach k (by omega))).2.1.size
  rw [length_references, size] at hlen
  dsimp only at hlen
  rw [show k + (n + 1) + 2 ^ 32 - 0 = 2 ^ 32 + 2 ^ 32 by omega, Nat.add_mod_right, Nat.mod_self,
    Nat.zero_mod, Nat.sub_zero, Nat.add_mod_right, Nat.mod_eq_of_lt (by omega)] at hlen
  omega

/-- The queue is a bounded list just when its size is so small that no sum of places is cut off. -/
theorem refines_iff [Inhabited V] (hpos : 1 ≤ n) (hword : n < 2 ^ 32) :
    Refines V n ↔ n < 2 ^ 31 := by
  refine ⟨fun h => ?_, refines_of_lt hpos⟩
  by_contra hn
  exact not_refines (Nat.le_of_not_lt hn) hword h

theorem refines_63 : Refines ℕ 63 := (refines_iff (by decide) (by decide)).mpr (by decide)

theorem not_refines_half_word : ¬Refines ℕ (2 ^ 31) := not_refines (Nat.le_refl _) (by decide)

end
end CircularQueue

end Sniper.Threads.BlockingQueue
