import Sniper.Lib.Parking
import Sniper.Threads.SyncServer

/-! # One queue for each stalled thread

The places where a thread can wait, and the invariant of the synchronization server: kept
by each queue operation between taking a thread out and resuming it or queueing it again,
and so by every call.
-/
namespace Sniper.Threads.Sync
open Lib.Parking Lib.Simulation Function

variable {T M C : Type}

/-! ## Who waits where -/

inductive Place (M C : Type) where
  | mutex (m : M)
  | cond (c : C)
  | barrier (b : Nat)
  deriving DecidableEq

namespace Server
variable (s : Server T M C)

def waiting : Place M C → List T
  | .mutex m => (s.mutex m).m_waiting
  | .cond c => (s.cond c).map (·.m_thread_id)
  | .barrier b => (s.barrier b).m_waiting

@[simp] theorem mutex_setMutex [DecidableEq M] (m m' : M) (mu : SimMutex T) :
    (s.setMutex m mu).mutex m' = if m' = m then mu else s.mutex m' := by
  by_cases h : m' = m
  · subst h; simp [mutex, setMutex]
  · simp [mutex, setMutex, h]

@[simp] theorem cond_setCond [DecidableEq C] (c c' : C) (q : List (CondWaiter T M)) :
    (s.setCond c q).cond c' = if c' = c then q else s.cond c' := by
  by_cases h : c' = c
  · subst h; simp [cond, setCond]
  · simp [cond, setCond, h]

theorem barrier_setBarrier {b} (hb : b < s.m_barriers.length) (b' : Nat) (bar : SimBarrier T) :
    (s.setBarrier b bar).barrier b' = if b' = b then bar else s.barrier b' := by
  by_cases h : b' = b
  · subst h; simp [barrier, setBarrier, hb]
  · simp [barrier, setBarrier, h, List.getElem?_set_ne (Ne.symm h)]

theorem barrier_of_le {b} (hb : s.m_barriers.length ≤ b) : s.barrier b = ⟨[], 0⟩ := by
  simp [barrier, List.getElem?_eq_none hb]

theorem barrier_append (b : Nat) (bar : SimBarrier T) :
    ({ s with m_barriers := s.m_barriers ++ [bar] } : Server T M C).barrier b =
      if b = s.m_barriers.length then bar else s.barrier b := by
  rcases Nat.lt_trichotomy b s.m_barriers.length with hlt | rfl | hlt
  · simp [barrier, List.getElem?_append_left hlt, Nat.ne_of_lt hlt]
  · simp [barrier]
  · rw [if_neg (Nat.ne_of_gt hlt), s.barrier_of_le (Nat.le_of_lt hlt), barrier_of_le]
    simpa only [List.length_append, List.length_singleton] using Nat.succ_le_of_lt hlt

variable (m : M) (mu : SimMutex T) (c : C) (q : List (CondWaiter T M)) (b : Nat)
  (bar : SimBarrier T) (t t' : T) (reason : StallType) (time : SubsecondTime)

@[simp] theorem barriers_setBarrier :
    (s.setBarrier b bar).m_barriers.length = s.m_barriers.length := by simp [setBarrier]
@[simp] theorem mutex_stallThread [DecidableEq T] :
    (s.stallThread t reason).mutex m = s.mutex m := rfl
@[simp] theorem barrier_stallThread [DecidableEq T] :
    (s.stallThread t reason).barrier b = s.barrier b := rfl
@[simp] theorem mutex_resumeThread [DecidableEq T] :
    (s.resumeThread t t' time).mutex m = s.mutex m := rfl
@[simp] theorem barrier_resumeThread [DecidableEq T] :
    (s.resumeThread t t' time).barrier b = s.barrier b := rfl

variable [DecidableEq M] [DecidableEq C]

theorem waiting_setMutex :
    (s.setMutex m mu).waiting = update s.waiting (.mutex m) mu.m_waiting := by
  funext p
  cases p with
  | mutex m' =>
    by_cases h : m' = m
    · subst h; simp [waiting]
    · simp [waiting, h]
  | cond | barrier => rfl

theorem waiting_setCond :
    (s.setCond c q).waiting = update s.waiting (.cond c) (q.map (·.m_thread_id)) := by
  funext p
  cases p with
  | cond c' =>
    by_cases h : c' = c
    · subst h; simp [waiting]
    · simp [waiting, h]
  | mutex | barrier => rfl

theorem waiting_setBarrier (hb : b < s.m_barriers.length) :
    (s.setBarrier b bar).waiting = update s.waiting (.barrier b) bar.m_waiting := by
  funext p
  cases p with
  | barrier b' =>
    by_cases h : b' = b
    · subst h; simp [waiting, barrier_setBarrier s hb]
    · simp [waiting, barrier_setBarrier s hb, h]
  | mutex | cond => rfl

end Server

/-! ## The invariant -/

/-- The discipline between two statements of the server; `hand` is a thread that was taken
out of a queue and not yet resumed or queued again. -/
structure Inv (s : Server T M C) (hand : Option T) : Prop where
  parked : Parked s.waiting fun t => s.Stalled t ∧ hand ≠ some t
  held : ∀ t, hand = some t → s.Stalled t
  owner : ∀ m t, (s.mutex m).m_owner = some t → t ∉ (s.mutex m).m_waiting
  owned : ∀ m, (s.mutex m).m_waiting ≠ [] → (s.mutex m).m_owner ≠ none
  apart : ∀ c w, w ∈ s.cond c → (s.mutex w.m_mutex).m_owner ≠ some w.m_thread_id
  resumed : ∀ r ∈ s.tm.resumed, r.found.StalledFor reasons

namespace Inv
variable {s : Server T M C} {hand : Option T}

theorem free (hs : Inv s hand) {t} (ht : ¬ s.Stalled t ∨ hand = some t) (p : Place M C) :
    t ∉ s.waiting p := by
  refine hs.parked.not_mem (fun h => ?_) p
  rcases ht with ht | ht
  · exact ht h.1
  · exact h.2 ht

variable [DecidableEq M] [DecidableEq C]

theorem setMutex (hs : Inv s hand) {hand' m mu}
    (hparked : Parked (update s.waiting (.mutex m) mu.m_waiting) fun t =>
      s.Stalled t ∧ hand' ≠ some t)
    (hheld : ∀ t, hand' = some t → s.Stalled t)
    (howner : ∀ t, mu.m_owner = some t → t ∉ mu.m_waiting)
    (howned : mu.m_waiting ≠ [] → mu.m_owner ≠ none)
    (hapart : ∀ c w, w ∈ s.cond c → w.m_mutex = m → mu.m_owner ≠ some w.m_thread_id) :
    Inv (s.setMutex m mu) hand' := by
  refine ⟨?_, hheld, fun m' t ho => ?_, fun m' hq => ?_, fun c w hc => ?_, hs.resumed⟩
  · rw [Server.waiting_setMutex]
    exact hparked
  · rw [Server.mutex_setMutex] at ho ⊢
    split at ho
    case isTrue h => rw [if_pos h]; exact howner t ho
    case isFalse h => rw [if_neg h]; exact hs.owner m' t ho
  · rw [Server.mutex_setMutex] at hq ⊢
    split at hq
    case isTrue h => rw [if_pos h]; exact howned hq
    case isFalse h => rw [if_neg h]; exact hs.owned m' hq
  · rw [Server.mutex_setMutex]
    split
    case isTrue h => exact hapart c w hc h
    case isFalse h => exact hs.apart c w hc

theorem parked_self (hs : Inv s hand) (p : Place M C) :
    Parked (update s.waiting p (s.waiting p)) fun t => s.Stalled t ∧ hand ≠ some t := by
  rw [update_eq_self]
  exact hs.parked

theorem take (hs : Inv s hand) (m : M) {t} (ht : ¬ s.Stalled t ∨ hand = some t) :
    Inv (s.setMutex m { s.mutex m with m_owner := some t }) hand := by
  refine hs.setMutex (hs.parked_self (.mutex m)) hs.held (fun t' ho => ?_)
    (fun _ => Option.some_ne_none t) fun c w hc _ ho => ?_
  · cases ho
    exact hs.free ht (.mutex m)
  · have hin : w.m_thread_id ∈ s.waiting (.cond c) := List.mem_map_of_mem hc
    cases ho
    exact hs.free ht (.cond c) hin

theorem release (hs : Inv s hand) {m} (hm : (s.mutex m).m_waiting = []) :
    Inv (s.setMutex m { s.mutex m with m_owner := none }) hand :=
  hs.setMutex (hs.parked_self (.mutex m)) hs.held nofun (fun hq => absurd hm hq) nofun

theorem parked_leave (hs : Inv s none) {p w rest} (hp : s.waiting p = w :: rest) :
    Parked (update s.waiting p rest) fun t => s.Stalled t ∧ some w ≠ some t :=
  (Parked.leave hs.parked (show _ = [] ++ w :: rest from hp)).congr fun t => by simp [and_comm, eq_comm]

omit [DecidableEq M] [DecidableEq C] in
theorem stalled_of_mem (hs : Inv s none) {p w} (hw : w ∈ s.waiting p) :
    s.Stalled w :=
  ((hs.parked.stalled_iff w).mpr ⟨p, hw⟩).1

theorem pass (hs : Inv s none) {m w rest} (hm : (s.mutex m).m_waiting = w :: rest) :
    Inv (s.setMutex m ⟨some w, rest⟩) (some w) := by
  have hp : s.waiting (.mutex m) = w :: rest := hm
  have hwm : w ∈ s.waiting (.mutex m) := by rw [hp]; exact List.mem_cons_self
  have hnd := hs.parked.nodup (.mutex m)
  rw [hp] at hnd
  refine hs.setMutex (hs.parked_leave hp) (fun t ht => ?_) (fun t ho => ?_)
    (fun _ => Option.some_ne_none w) fun c v hc _ ho => ?_
  · cases ht
    exact hs.stalled_of_mem hwm
  · cases ho
    exact (List.nodup_cons.mp hnd).1
  · have hin : v.m_thread_id ∈ s.waiting (.cond c) := List.mem_map_of_mem hc
    cases ho
    cases hs.parked.place _ _ _ hin hwm

theorem setCond (hs : Inv s hand) {hand' c q}
    (hparked : Parked (update s.waiting (.cond c) (q.map (·.m_thread_id))) fun t =>
      s.Stalled t ∧ hand' ≠ some t)
    (hheld : ∀ t, hand' = some t → s.Stalled t)
    (hapart : ∀ w ∈ q, (s.mutex w.m_mutex).m_owner ≠ some w.m_thread_id) :
    Inv (s.setCond c q) hand' := by
  refine ⟨?_, hheld, hs.owner, hs.owned, fun c' w hw => ?_, hs.resumed⟩
  · rw [Server.waiting_setCond]
    exact hparked
  · rw [Server.cond_setCond] at hw
    split at hw
    case isTrue => exact hapart w hw
    case isFalse => exact hs.apart c' w hw

theorem popCond (hs : Inv s none) {c w rest} (hc : s.cond c = w :: rest) :
    Inv (s.setCond c rest) (some w.m_thread_id) := by
  have hp : s.waiting (.cond c) = w.m_thread_id :: rest.map (·.m_thread_id) := by
    simp [Server.waiting, hc]
  refine hs.setCond (hs.parked_leave hp) (fun t ht => ?_) fun v hv => hs.apart c v ?_
  · cases ht
    exact hs.stalled_of_mem (show _ ∈ s.waiting (.cond c) by rw [hp]; exact List.mem_cons_self)
  · rw [hc]
    exact List.mem_cons_of_mem w hv

theorem popBarrier (hs : Inv s none) {b count w rest} (hb : s.barrier b = ⟨w :: rest, count⟩) :
    Inv (s.setBarrier b ⟨rest, count⟩) (some w) := by
  have hp : s.waiting (.barrier b) = w :: rest := by simp [Server.waiting, hb]
  have hlt : b < s.m_barriers.length := by
    by_contra hlt
    rw [s.barrier_of_le (Nat.not_lt.mp hlt)] at hb
    cases hb
  refine ⟨?_, fun t ht => ?_, hs.owner, hs.owned, hs.apart, hs.resumed⟩
  · rw [Server.waiting_setBarrier s b _ hlt]
    exact hs.parked_leave hp
  · cases ht
    exact hs.stalled_of_mem (show _ ∈ s.waiting (.barrier b) by rw [hp]; exact List.mem_cons_self)

omit [DecidableEq M] [DecidableEq C] in
theorem resume [DecidableEq T] {w} (hs : Inv s (some w)) (thread_by : T) (time : SubsecondTime) :
    Inv (s.resumeThread w thread_by time) none := by
  refine ⟨?_, nofun, hs.owner, hs.owned, hs.apart, fun r hr => ?_⟩
  · refine hs.parked.congr fun t => ?_
    simp only [Server.Stalled, Server.resumeThread, Manager.stalledFor_resumeThread]
    grind
  · rcases List.mem_append.mp hr with hr | hr
    · exact hs.resumed r hr
    · rw [List.mem_singleton.mp hr]
      exact hs.held w rfl

omit [DecidableEq M] [DecidableEq C] in
theorem stall [DecidableEq T] (hs : Inv s none) {t} (ht : ¬ s.Stalled t) (reason : StallType)
    (hr : reason ∈ reasons) : Inv (s.stallThread t reason) (some t) := by
  have hst : ∀ u, (s.stallThread t reason).Stalled u ↔ u = t ∨ s.Stalled u := fun u =>
    Manager.stalledFor_stallThread hr t u
  refine ⟨?_, fun u hu => ?_, hs.owner, hs.owned, hs.apart, hs.resumed⟩
  · refine hs.parked.congr fun u => ?_
    grind
  · cases hu
    exact (hst t).mpr (.inl rfl)

theorem parked_enter {w} (hs : Inv s (some w)) (p : Place M C) :
    Parked (update s.waiting p (s.waiting p ++ [w]))
      fun t => s.Stalled t ∧ none ≠ some t := by
  have hw := hs.held w rfl
  refine (hs.parked.enter p fun h => h.2 rfl).congr fun t => ?_
  grind

theorem pushMutex {w} (hs : Inv s (some w)) {m} (ho : (s.mutex m).m_owner ≠ none)
    (hw : (s.mutex m).m_owner ≠ some w) :
    Inv (s.setMutex m { s.mutex m with m_waiting := (s.mutex m).m_waiting ++ [w] }) none := by
  refine hs.setMutex (hs.parked_enter (.mutex m)) nofun (fun t hm hin => ?_) (fun _ => ho)
    fun c v hc h hv => hs.apart c v hc (h ▸ hv)
  rcases List.mem_append.mp hin with hin | hin
  · exact hs.owner m t hm hin
  · rw [List.mem_singleton.mp hin] at hm
    exact hw hm

theorem pushCond {w} (hs : Inv s (some w)) (c : C) {m} (hw : (s.mutex m).m_owner ≠ some w) :
    Inv (s.setCond c (s.cond c ++ [⟨w, m⟩])) none := by
  refine hs.setCond ?_ nofun fun v hv => ?_
  · rw [List.map_append]
    exact hs.parked_enter (.cond c)
  · rcases List.mem_append.mp hv with hv | hv
    · exact hs.apart c v hv
    · rw [List.mem_singleton.mp hv]
      exact hw

theorem pushBarrier {w} (hs : Inv s (some w)) {b} (hb : b < s.m_barriers.length) :
    Inv (s.setBarrier b ⟨(s.barrier b).m_waiting ++ [w], (s.barrier b).m_count⟩) none := by
  refine ⟨?_, nofun, hs.owner, hs.owned, hs.apart, hs.resumed⟩
  rw [Server.waiting_setBarrier s b _ hb]
  exact hs.parked_enter (.barrier b)

theorem touchMutex (hs : Inv s hand) (m : M) : Inv (s.setMutex m (s.mutex m)) hand :=
  hs.setMutex (hs.parked_self (.mutex m)) hs.held (hs.owner m) (hs.owned m)
    fun c w hc h => h ▸ hs.apart c w hc

theorem touchCond (hs : Inv s hand) (c : C) : Inv (s.setCond c (s.cond c)) hand :=
  hs.setCond (hs.parked_self (.cond c)) hs.held (hs.apart c)

omit [DecidableEq M] [DecidableEq C] in
theorem newBarrier (hs : Inv s hand) (count : UInt32) :
    Inv { s with m_barriers := s.m_barriers ++ [⟨[], count⟩] } hand := by
  have hw : Server.waiting { s with m_barriers := s.m_barriers ++ [⟨[], count⟩] } =
      s.waiting := by
    funext p
    cases p with
    | mutex | cond => rfl
    | barrier b =>
      change (Server.barrier _ b).m_waiting = (s.barrier b).m_waiting
      rw [Server.barrier_append]
      split
      case isTrue h => rw [h, s.barrier_of_le (Nat.le_refl _)]
      case isFalse => rfl
  exact ⟨by rw [hw]; exact hs.parked, hs.held, hs.owner, hs.owned, hs.apart, hs.resumed⟩

/-! ### Functions -/

variable [DecidableEq T]

theorem lock_async {w} (hs : Inv s (some w)) {m} (hw : (s.mutex m).m_owner ≠ some w) (thread_by : T)
    (time : SubsecondTime) : Inv (s.lock_async m w thread_by time).2 none := by
  rw [Server.lock_async]
  cases ho : (s.mutex m).m_owner with
  | none => exact (hs.take m (.inr rfl)).resume thread_by time
  | some o =>
    rw [ho] at hw
    exact hs.pushMutex (by rw [ho]; exact Option.some_ne_none o) (by rwa [ho])

theorem lock (hs : Inv s none) {t} (ht : ¬ s.Stalled t) {m} (hw : (s.mutex m).m_owner ≠ some t)
    (time : SubsecondTime) : Inv (s.lock m t time).2 none := by
  rw [Server.lock]
  cases ho : (s.mutex m).m_owner with
  | none => exact hs.take m (.inl ht)
  | some o =>
    rw [ho] at hw
    have hst := hs.stall ht StallType.STALL_MUTEX (by decide)
    exact hst.pushMutex (by rw [Server.mutex_stallThread, ho]; exact Option.some_ne_none o)
      (by rwa [Server.mutex_stallThread, ho])

theorem unlock (hs : Inv s none) {t m time o s'} (h : s.unlock m t time = .ok (o, s')) :
    Inv s' none ∧ (¬ s.Stalled t → ¬ s'.Stalled t ∧ (s'.mutex m).m_owner ≠ some t) := by
  rw [Server.unlock] at h
  split at h
  case isFalse => cases h
  case isTrue =>
    cases hq : (s.mutex m).m_waiting with
    | nil =>
      rw [hq] at h
      cases h
      exact ⟨hs.release hq, fun ht => ⟨ht, by simp⟩⟩
    | cons w rest =>
      rw [hq] at h
      cases h
      refine ⟨(hs.pass hq).resume t _, fun ht => ⟨fun hst => ?_, fun howner => ?_⟩⟩
      · exact ht (Manager.stalledFor_resumeThread w t _ _ _ |>.mp hst).2
      · have hw : w ∈ s.waiting (.mutex m) := by rw [Server.waiting, hq]; exact List.mem_cons_self
        rw [Server.mutex_resumeThread, Server.mutex_setMutex, if_pos rfl] at howner
        cases howner
        exact ht (hs.stalled_of_mem hw)

theorem condWait (hs : Inv s none) {t} (ht : ¬ s.Stalled t) {c m time s'}
    (h : s.condWait c t time m = .ok s') : Inv s' none := by
  rw [Server.condWait] at h
  obtain ⟨r, hu, h⟩ := of_bind_ok h
  cases h
  obtain ⟨hs₁, hfree⟩ := hs.unlock hu
  obtain ⟨ht₁, ho₁⟩ := hfree ht
  exact (hs₁.stall ht₁ StallType.STALL_COND (by decide)).pushCond c ho₁

theorem wakeCond (hs : Inv s none) {c w rest} (hc : s.cond c = w :: rest) (t : T)
    (time : SubsecondTime) :
    Inv ((s.setCond c rest).lock_async w.m_mutex w.m_thread_id t time).2 none :=
  (hs.popCond hc).lock_async (hs.apart c w (by rw [hc]; exact List.mem_cons_self)) t time

theorem condSignal (hs : Inv s none) (c : C) (t : T) (time : SubsecondTime) :
    Inv (s.condSignal c t time).2 none := by
  rw [Server.condSignal]
  cases hc : s.cond c with
  | nil => exact hs
  | cons w rest => exact hs.wakeCond hc t time

theorem broadcastLoop (hs : Inv s none) (c : C) (t : T) (time : SubsecondTime) (left : Nat) :
    Inv (Server.broadcastLoop c t time left s) none := by
  induction left generalizing s with
  | zero => exact hs
  | succ left ih =>
    rw [Server.broadcastLoop]
    cases hc : s.cond c with
    | nil => exact hs
    | cons w rest => exact ih (hs.wakeCond hc t time)

theorem releaseLoop (hs : Inv s none) (b : Nat) (t : T) (time : SubsecondTime) (left : Nat) :
    Inv (Server.releaseLoop b t time left s) none := by
  induction left generalizing s with
  | zero => exact hs
  | succ left ih =>
    rw [Server.releaseLoop]
    split
    case h_1 => exact hs
    case h_2 hb => exact ih ((hs.popBarrier hb).resume t time)

theorem barrierWait (hs : Inv s none) {t} (ht : ¬ s.Stalled t) {b} (hb : b < s.m_barriers.length)
    (time : SubsecondTime) : Inv (s.barrierWait b t time).2 none := by
  rw [Server.barrierWait]
  split
  case isTrue => exact hs.releaseLoop b t time _
  case isFalse => exact (hs.stall ht StallType.STALL_BARRIER (by decide)).pushBarrier hb

end Inv

theorem Server.not_stalled_of_running {s : Server T M C} {t} (h : s.Running t) :
    ¬ s.Stalled t := fun hst => by
  rw [Server.Stalled, ThreadState.StalledFor, h] at hst
  cases hst.1

theorem call_inv [DecidableEq T] [DecidableEq M] [DecidableEq C] {s s' : Server T M C}
    (hs : Inv s none) {c} (ha : s.Allowed c) {time reply}
    (h : s.call time c = .ok (reply, s')) : Inv s' none := by
  have ht := Server.not_stalled_of_running ha.running
  cases c with
  | mutexInit t m => cases h; exact hs.touchMutex m
  | mutexLock t m tryLock =>
    rw [Server.call] at h
    split at h
    case isTrue => cases h; exact hs
    case isFalse => cases h; exact hs.lock ht (ha.lock t m tryLock rfl) time
  | mutexUnlock t m =>
    rw [Server.call] at h
    split at h
    case isFalse => cases h
    case isTrue =>
      obtain ⟨⟨o, s₁⟩, hu, h⟩ := of_bind_ok h
      cases h
      exact (hs.unlock hu).1
  | condInit t c => cases h; exact hs.touchCond c
  | condWait t c m =>
    obtain ⟨s₁, hw, h⟩ := of_bind_ok h
    cases h
    exact hs.condWait ht hw
  | condSignal t c => cases h; exact hs.condSignal c t time
  | condBroadcast t c => cases h; exact hs.broadcastLoop c t time _
  | barrierInit t count => cases h; exact hs.newBarrier count
  | barrierWait t b =>
    rw [Server.call] at h
    split at h
    case isFalse => cases h
    case isTrue hb => cases h; exact hs.barrierWait ht hb time

end Sniper.Threads.Sync
