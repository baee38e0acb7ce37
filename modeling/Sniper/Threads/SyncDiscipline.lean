import Sniper.Threads.SyncInvariant

/-! # Wake-up discipline of the synchronization server

What each call does to a mutex, a condition or a barrier, the count of arrivals in a
barrier's generation, and the discipline over whole runs.
-/
namespace Sniper.Threads.Sync
open Lib.Parking Lib.Simulation

variable {T M C : Type}

/-! ## What a call does to one object -/

/-- New waiters line up at the end, and an owner stays. -/
def Grows (mu mu' : SimMutex T) : Prop :=
  (∃ new, mu'.m_waiting = mu.m_waiting ++ new) ∧
    (mu.m_owner ≠ none → mu'.m_owner = mu.m_owner)

/-- The front waiter becomes the owner. -/
def Passes (mu mu' : SimMutex T) : Prop :=
  ∃ w rest, mu.m_waiting = w :: rest ∧ mu' = ⟨some w, rest⟩

/-- The last owner leaves a mutex nobody waits for. -/
def Frees (mu mu' : SimMutex T) : Prop := mu.m_waiting = [] ∧ mu' = ⟨none, []⟩

/-- A woken waiter has its mutex and runs, or waits for that mutex. -/
def Moved (s : Server T M C) (w : CondWaiter T M) : Prop :=
  (s.mutex w.m_mutex).m_owner = some w.m_thread_id ∧ s.Running w.m_thread_id ∨
    w.m_thread_id ∈ (s.mutex w.m_mutex).m_waiting

theorem Grows.refl (mu : SimMutex T) : Grows mu mu :=
  ⟨⟨[], (List.append_nil _).symm⟩, fun _ => rfl⟩

theorem Grows.trans {a b c : SimMutex T} (hab : Grows a b) (hbc : Grows b c) : Grows a c := by
  obtain ⟨⟨n₁, h₁⟩, ho₁⟩ := hab
  obtain ⟨⟨n₂, h₂⟩, ho₂⟩ := hbc
  refine ⟨⟨n₁ ++ n₂, by rw [h₂, h₁, List.append_assoc]⟩, fun ho => ?_⟩
  have hb : b.m_owner ≠ none := by rwa [ho₁ ho]
  rw [ho₂ hb, ho₁ ho]

/-- What waking one condition waiter leaves in place: every queue but that condition's, and
who runs. -/
structure Woke (s s' : Server T M C) : Prop where
  mutex : ∀ m, Grows (s.mutex m) (s'.mutex m)
  barriers : s'.m_barriers = s.m_barriers
  running : ∀ t, s.Running t → s'.Running t

namespace Woke
variable {s s' s'' : Server T M C}

theorem refl (s : Server T M C) : Woke s s := ⟨fun _ => .refl _, rfl, fun _ h => h⟩

theorem trans (h : Woke s s') (h' : Woke s' s'') : Woke s s'' :=
  ⟨fun m => (h.mutex m).trans (h'.mutex m), h'.barriers.trans h.barriers,
    fun t ht => h'.running t (h.running t ht)⟩

theorem moved (h : Woke s s') {w} (hw : Moved s w) : Moved s' w := by
  obtain ⟨⟨new, hq⟩, ho⟩ := h.mutex w.m_mutex
  rcases hw with ⟨hown, hrun⟩ | hin
  · left
    refine ⟨?_, h.running _ hrun⟩
    rw [ho (by rw [hown]; exact Option.some_ne_none _), hown]
  · right
    rw [hq]
    exact List.mem_append_left new hin

end Woke

namespace Server
variable (s : Server T M C) [DecidableEq T]

theorem running_resumeThread (w t : T) (time : SubsecondTime) :
    (s.resumeThread w t time).Running w ∧
      ∀ u, s.Running u → (s.resumeThread w t time).Running u := by
  refine ⟨by simp [Running, resumeThread, Manager.resumeThread], fun u hu => ?_⟩
  by_cases h : u = w
  · subst h; simp [Running, resumeThread, Manager.resumeThread]
  · simpa [Running, resumeThread, Manager.resumeThread, h] using hu

theorem lock_async_woke [DecidableEq M] (w : CondWaiter T M) (t : T) (time : SubsecondTime) :
    Woke s (s.lock_async w.m_mutex w.m_thread_id t time).2 ∧
      Moved (s.lock_async w.m_mutex w.m_thread_id t time).2 w ∧
      ∀ c, (s.lock_async w.m_mutex w.m_thread_id t time).2.cond c = s.cond c := by
  rw [lock_async]
  cases ho : (s.mutex w.m_mutex).m_owner with
  | none =>
    obtain ⟨hrun, hkeep⟩ := (s.setMutex w.m_mutex { s.mutex w.m_mutex with
      m_owner := some w.m_thread_id }).running_resumeThread w.m_thread_id t time
    refine ⟨⟨fun m => ?_, rfl, fun u hu => hkeep u hu⟩, .inl ⟨by simp, hrun⟩,
      fun _ => rfl⟩
    rw [mutex_resumeThread, mutex_setMutex]
    split
    case isTrue h => subst h; exact ⟨⟨[], (List.append_nil _).symm⟩, fun h => absurd ho h⟩
    case isFalse => exact .refl _
  | some o =>
    refine ⟨⟨fun m => ?_, rfl, fun u hu => hu⟩, .inr (by simp), fun _ => rfl⟩
    rw [mutex_setMutex]
    split
    case isTrue h => subst h; exact ⟨⟨[w.m_thread_id], rfl⟩, fun _ => rfl⟩
    case isFalse => exact .refl _

theorem condSignal_spec [DecidableEq M] [DecidableEq C] (c : C) (t : T) (time : SubsecondTime) :
    Woke s (s.condSignal c t time).2 ∧
      (∀ c', c' ≠ c → (s.condSignal c t time).2.cond c' = s.cond c') ∧
      (s.condSignal c t time).2.cond c = (s.cond c).tail ∧
      ∀ w ∈ (s.cond c).head?, Moved (s.condSignal c t time).2 w := by
  rw [condSignal]
  cases hc : s.cond c with
  | nil => exact ⟨.refl s, fun _ _ => rfl, hc, by simp⟩
  | cons w rest =>
    obtain ⟨hwoke, hmoved, hcond⟩ := (s.setCond c rest).lock_async_woke w t time
    refine ⟨⟨hwoke.mutex, hwoke.barriers, hwoke.running⟩, fun c' hc' => ?_, ?_, fun v hv => ?_⟩
    · rw [hcond, cond_setCond, if_neg hc']
    · rw [hcond, cond_setCond, if_pos rfl, List.tail_cons]
    · cases hv
      exact hmoved

theorem broadcastLoop_spec [DecidableEq M] [DecidableEq C] (s : Server T M C) (c : C) (t : T)
    (time : SubsecondTime) {left}
    (hl : (s.cond c).length ≤ left) :
    Woke s (broadcastLoop c t time left s) ∧
      (∀ c', c' ≠ c → (broadcastLoop c t time left s).cond c' = s.cond c') ∧
      (broadcastLoop c t time left s).cond c = [] ∧
      ∀ w ∈ s.cond c, Moved (broadcastLoop c t time left s) w := by
  induction left generalizing s with
  | zero =>
    have hc : s.cond c = [] := List.length_eq_zero_iff.mp (Nat.le_zero.mp hl)
    exact ⟨.refl s, fun _ _ => rfl, hc, by simp [hc]⟩
  | succ left ih =>
    rw [broadcastLoop]
    cases hc : s.cond c with
    | nil => exact ⟨.refl s, fun _ _ => rfl, hc, by simp⟩
    | cons w rest =>
      obtain ⟨hwoke, hmoved, hcond⟩ := (s.setCond c rest).lock_async_woke w t time
      have hrest : ((s.setCond c rest).lock_async w.m_mutex w.m_thread_id t time).2.cond c =
          rest := by rw [hcond, cond_setCond, if_pos rfl]
      have hlen : rest.length ≤ left := by rw [hc] at hl; simpa using hl
      obtain ⟨hwoke', hother, hempty, hall⟩ := ih _ (by rwa [hrest])
      have hfirst : Woke s ((s.setCond c rest).lock_async w.m_mutex w.m_thread_id t time).2 :=
        ⟨hwoke.mutex, hwoke.barriers, hwoke.running⟩
      refine ⟨hfirst.trans hwoke', fun c' hc' => ?_, hempty, fun v hv => ?_⟩
      · rw [hother c' hc', hcond, cond_setCond, if_neg hc']
      · rcases List.mem_cons.mp hv with rfl | hv
        · exact hwoke'.moved hmoved
        · exact hall v (by rwa [hrest])

theorem releaseLoop_spec (t : T) (time : SubsecondTime) {b left} (s : Server T M C)
    (hb : b < s.m_barriers.length) (hl : (s.barrier b).m_waiting.length ≤ left) :
    (∀ m, (releaseLoop b t time left s).mutex m = s.mutex m) ∧
      (∀ c, (releaseLoop b t time left s).cond c = s.cond c) ∧
      (releaseLoop b t time left s).m_barriers.length = s.m_barriers.length ∧
      (∀ b', (releaseLoop b t time left s).barrier b' =
        if b' = b then ⟨[], (s.barrier b).m_count⟩ else s.barrier b') ∧
      (∀ w ∈ (s.barrier b).m_waiting, (releaseLoop b t time left s).Running w) ∧
      ∀ u, s.Running u → (releaseLoop b t time left s).Running u := by
  have hnone : ∀ s : Server T M C, (s.barrier b).m_waiting = [] → ∀ b',
      s.barrier b' = if b' = b then ⟨[], (s.barrier b).m_count⟩ else s.barrier b' := by
    intro s hw b'
    split
    case isTrue h => rw [h, ← hw]
    case isFalse => rfl
  induction left generalizing s with
  | zero =>
    have hw := List.length_eq_zero_iff.mp (Nat.le_zero.mp hl)
    exact ⟨fun _ => rfl, fun _ => rfl, rfl, hnone s hw, by simp [hw], fun _ h => h⟩
  | succ left ih =>
    rw [releaseLoop]
    split
    case h_1 count hbar =>
      have hw : (s.barrier b).m_waiting = [] := by rw [hbar]
      exact ⟨fun _ => rfl, fun _ => rfl, rfl, hnone s hw, by simp [hw], fun _ h => h⟩
    case h_2 w rest count hbar =>
      have hset := s.barrier_setBarrier hb
      obtain ⟨hrun, hkeep⟩ := (s.setBarrier b ⟨rest, count⟩).running_resumeThread w t time
      have hrest : ((s.setBarrier b ⟨rest, count⟩).resumeThread w t time).barrier b =
          ⟨rest, count⟩ := by rw [barrier_resumeThread, hset, if_pos rfl]
      have hlen : rest.length ≤ left := by rw [hbar] at hl; simpa using hl
      obtain ⟨hm, hc, hlength, hbarrier, hall, hrunning⟩ :=
        ih ((s.setBarrier b ⟨rest, count⟩).resumeThread w t time)
          (by simpa [resumeThread] using hb) (by rwa [hrest])
      refine ⟨hm, hc, hlength.trans (by simp [resumeThread]), fun b' => ?_, fun v hv => ?_,
        fun u hu => hrunning u (hkeep u hu)⟩
      · rw [hbarrier, hrest, hbar]
        split
        case isTrue => rfl
        case isFalse h => rw [barrier_resumeThread, hset, if_neg h]
      · rw [hbar] at hv
        rcases List.mem_cons.mp hv with rfl | hv
        · exact hrunning v hrun
        · exact hall v (by rwa [hrest])

end Server
/-! ## Runs keep the discipline -/

/-- One call, seen from the objects: mutexes are served in order, a signal moves one waiter
and a broadcast all, a barrier opens when the number of arrivals reaches a multiple of its
count, and otherwise keeps the thread that arrives. -/
structure CallEffect (s : System T M C) (c : Call T M C) (s' : Server T M C) : Prop where
  fifo : ∀ m, Grows (s.server.mutex m) (s'.mutex m) ∨ Passes (s.server.mutex m) (s'.mutex m) ∨
    Frees (s.server.mutex m) (s'.mutex m)
  signal : ∀ t v, c = .condSignal t v →
    (∀ v', v' ≠ v → s'.cond v' = s.server.cond v') ∧ s'.cond v = (s.server.cond v).tail ∧
      ∀ w ∈ (s.server.cond v).head?, Moved s' w
  broadcast : ∀ t v, c = .condBroadcast t v →
    (∀ v', v' ≠ v → s'.cond v' = s.server.cond v') ∧ s'.cond v = [] ∧
      ∀ w ∈ s.server.cond v, Moved s' w
  created : s'.m_barriers.length = s.server.m_barriers.length ∨ ∃ t count,
    c = .barrierInit t count ∧ s'.m_barriers = s.server.m_barriers ++ [⟨[], count⟩]
  quiet : ∀ b, b < s.server.m_barriers.length → (∀ t, c ≠ .barrierWait t b) →
    s'.barrier b = s.server.barrier b
  arrive : ∀ t b, c = .barrierWait t b →
    if (s.server.barrier b).m_count.toNat ∣ s.arrived b + 1 then
      s'.barrier b = ⟨[], (s.server.barrier b).m_count⟩ ∧ s'.Running t ∧
        ∀ w ∈ (s.server.barrier b).m_waiting, s'.Running w
    else
      s'.barrier b = ⟨(s.server.barrier b).m_waiting ++ [t], (s.server.barrier b).m_count⟩ ∧
        s'.Stalled t ∧ s'.tm.resumed = s.server.tm.resumed

/-- The waiters of a barrier are the arrivals of its current generation. -/
structure SystemInv (s : System T M C) : Prop where
  server : Inv s.server none
  count : ∀ b, b < s.server.m_barriers.length → (s.server.barrier b).m_count.toNat ≠ 0
  generation : ∀ b, b < s.server.m_barriers.length →
    (s.server.barrier b).m_waiting.length = s.arrived b % (s.server.barrier b).m_count.toNat
  unborn : ∀ b, s.server.m_barriers.length ≤ b → s.arrived b = 0

/-- `m_waiting.size() == m_count - 1` says that this arrival completes a generation. -/
theorem full_iff {n a} (hn : n ≠ 0) : a % n = n - 1 ↔ n ∣ a + 1 := by
  have hlt := Nat.mod_lt a (Nat.pos_of_ne_zero hn)
  rw [Nat.dvd_iff_mod_eq_zero, ← Nat.mod_add_mod]
  constructor
  · intro h
    rw [h, Nat.sub_add_cancel (Nat.pos_of_ne_zero hn), Nat.mod_self]
  · intro h
    by_contra hne
    rw [Nat.mod_eq_of_lt (by omega)] at h
    omega

theorem succ_mod_of_not_dvd {n a} (hn : n ≠ 0) (h : ¬ n ∣ a + 1) :
    (a + 1) % n = a % n + 1 := by
  have hlt := Nat.mod_lt a (Nat.pos_of_ne_zero hn)
  have hne := (full_iff hn).not.mpr h
  rw [← Nat.mod_add_mod, Nat.mod_eq_of_lt (by omega)]

theorem toNat_pred {n : UInt32} (hn : n.toNat ≠ 0) : (n - 1).toNat = n.toNat - 1 := by
  have h1 : (1 : UInt32) ≤ n := UInt32.le_iff_toNat_le.mpr (Nat.pos_of_ne_zero hn)
  rw [UInt32.toNat_sub_of_le _ _ h1]
  rfl

theorem SystemInv.full_iff {s : System T M C} (hs : SystemInv s) {b}
    (hb : b < s.server.m_barriers.length) :
    (s.server.barrier b).m_waiting.length = ((s.server.barrier b).m_count - 1).toNat ↔
      (s.server.barrier b).m_count.toNat ∣ s.arrived b + 1 := by
  have hc := hs.count b hb
  rw [toNat_pred hc, hs.generation b hb]
  exact Sync.full_iff hc

theorem grows_lock [DecidableEq T] [DecidableEq M] (s : Server T M C) (m m' : M) (t : T)
    (time : SubsecondTime) :
    Grows (s.mutex m') ((s.lock m t time).2.mutex m') := by
  rw [Server.lock]
  cases ho : (s.mutex m).m_owner with
  | none =>
    rw [Server.mutex_setMutex]
    split
    case isTrue h => subst h; exact ⟨⟨[], (List.append_nil _).symm⟩, fun h => absurd ho h⟩
    case isFalse => exact .refl _
  | some o =>
    rw [Server.mutex_stallThread, Server.mutex_setMutex]
    split
    case isTrue h => subst h; exact ⟨⟨[t], rfl⟩, fun _ => rfl⟩
    case isFalse => exact .refl _

theorem barriers_lock [DecidableEq T] [DecidableEq M] (s : Server T M C) (m : M) (t : T)
    (time : SubsecondTime) :
    (s.lock m t time).2.m_barriers = s.m_barriers := by
  rw [Server.lock]
  split <;> rfl

theorem unlock_spec [DecidableEq T] [DecidableEq M] [DecidableEq C] (s : Server T M C) {m t}
    (h : (s.mutex m).m_owner = some t)
    (time : SubsecondTime) : ∃ o s', s.unlock m t time = .ok (o, s') ∧
      (∀ m', Grows (s.mutex m') (s'.mutex m') ∨ Passes (s.mutex m') (s'.mutex m') ∨
        Frees (s.mutex m') (s'.mutex m')) ∧ s'.m_barriers = s.m_barriers := by
  rw [Server.unlock, if_pos h]
  cases hq : (s.mutex m).m_waiting with
  | nil =>
    refine ⟨_, _, rfl, fun m' => ?_, rfl⟩
    rw [Server.mutex_setMutex]
    split
    case isTrue h => subst h; exact .inr (.inr ⟨hq, by simp only [hq]⟩)
    case isFalse => exact .inl (.refl _)
  | cons w rest =>
    refine ⟨_, _, rfl, fun m' => ?_, rfl⟩
    rw [Server.mutex_resumeThread, Server.mutex_setMutex]
    split
    case isTrue h => subst h; exact .inr (.inl ⟨w, rest, hq, rfl⟩)
    case isFalse => exact .inl (.refl _)

theorem barrier_congr {s s' : Server T M C} (h : s'.m_barriers = s.m_barriers) (b : Nat) :
    s'.barrier b = s.barrier b := by rw [Server.barrier, Server.barrier, h]

theorem barrier_of_append {s s' : Server T M C} {bar} (h : s'.m_barriers = s.m_barriers ++ [bar])
    (b : Nat) :
    s'.barrier b = if b = s.m_barriers.length then bar else s.barrier b := by
  rw [← s.barrier_append]
  exact barrier_congr h b

theorem CallEffect.of_mutex {s : System T M C} {c} {s' : Server T M C}
    (hc : (∀ t v, c ≠ .condSignal t v) ∧ (∀ t v, c ≠ .condBroadcast t v) ∧
      ∀ t b, c ≠ .barrierWait t b)
    (hm : ∀ m, Grows (s.server.mutex m) (s'.mutex m) ∨ Passes (s.server.mutex m) (s'.mutex m) ∨
      Frees (s.server.mutex m) (s'.mutex m)) (hb : s'.m_barriers = s.server.m_barriers) :
    CallEffect s c s' where
  fifo := hm
  created := .inl (by rw [hb])
  signal t v h := absurd h (hc.1 t v)
  broadcast t v h := absurd h (hc.2.1 t v)
  quiet b _ _ := barrier_congr hb b
  arrive t b h := absurd h (hc.2.2 t b)

theorem call_effect [DecidableEq T] [DecidableEq M] [DecidableEq C] {s : System T M C}
    (hs : SystemInv s) {c} (ha : s.server.Allowed c)
    (time : SubsecondTime) :
    ∃ reply s', s.server.call time c = .ok (reply, s') ∧ CallEffect s c s' := by
  cases c with
  | mutexInit t m =>
    refine ⟨_, _, rfl, .of_mutex (by simp) (fun m' => .inl ?_) rfl⟩
    rw [Server.mutex_setMutex]
    split
    case isTrue h => rw [h]; exact .refl _
    case isFalse => exact .refl _
  | mutexLock t m tryLock =>
    rw [Server.call]
    split
    case isTrue => exact ⟨_, _, rfl, .of_mutex (by simp) (fun m' => .inl (.refl _)) rfl⟩
    case isFalse =>
      exact ⟨_, _, rfl, .of_mutex (by simp) (fun m' => .inl (grows_lock _ _ _ _ _))
        (barriers_lock _ _ _ _)⟩
  | mutexUnlock t m =>
    have ho := ha.unlock t m rfl
    have hsome : (s.server.m_mutexes m).isSome := by
      cases hm : s.server.m_mutexes m with
      | none => simp [Server.mutex, hm] at ho
      | some mu => rfl
    obtain ⟨o, s', hu, hfifo, hbar⟩ :=
      unlock_spec s.server ho (time + s.server.m_reschedule_cost)
    rw [Server.call, if_pos hsome, hu]
    exact ⟨_, _, rfl, .of_mutex (by simp) hfifo hbar⟩
  | condInit t c =>
    exact ⟨_, _, rfl, .of_mutex (by simp) (fun m' => .inl (.refl _)) rfl⟩
  | condWait t c m =>
    obtain ⟨o, s', hu, hfifo, hbar⟩ := unlock_spec s.server (ha.wait t c m rfl) time
    rw [Server.call, Server.condWait, hu]
    exact ⟨_, _, rfl, .of_mutex (by simp) hfifo hbar⟩
  | condSignal t c =>
    obtain ⟨hwoke, hspec⟩ := s.server.condSignal_spec c t time
    refine ⟨_, _, rfl, fun m => .inl (hwoke.mutex m), fun t' v h => ?_, by simp,
      .inl (congrArg List.length hwoke.barriers), fun b _ _ => barrier_congr hwoke.barriers b, by simp⟩
    cases h
    exact hspec
  | condBroadcast t c =>
    obtain ⟨hwoke, hspec⟩ :=
      Server.broadcastLoop_spec s.server c t time (Nat.le_refl _)
    refine ⟨_, _, rfl, fun m => .inl (hwoke.mutex m), by simp, fun t' v h => ?_,
      .inl (congrArg List.length hwoke.barriers), fun b _ _ => barrier_congr hwoke.barriers b, by simp⟩
    cases h
    exact hspec
  | barrierInit t count =>
    refine ⟨_, _, rfl, fun m => .inl (.refl _), by simp, by simp, .inr ⟨t, count, rfl, rfl⟩,
      fun b hb _ => ?_, by simp⟩
    rw [Server.barrier_append, if_neg (Nat.ne_of_lt hb)]
  | barrierWait t b =>
    have hb := ha.barrier t b rfl
    have hrun : s.server.Running t := ha.running
    rw [Server.call, if_pos hb, Server.barrierWait]
    by_cases hfull : (s.server.barrier b).m_waiting.length =
        ((s.server.barrier b).m_count - 1).toNat
    · rw [if_pos hfull]
      obtain ⟨hm, -, hlength, hbar, hall, hkeep⟩ := s.server.releaseLoop_spec t time hb (Nat.le_refl _)
      refine ⟨_, _, rfl, fun m => .inl (by rw [hm]; exact .refl _), by simp, by simp,
        .inl hlength, fun b' _ hne => ?_, fun t' b' h => ?_⟩
      · rw [hbar, if_neg]
        rintro rfl
        exact hne t rfl
      · cases h
        rw [if_pos ((hs.full_iff hb).mp hfull)]
        exact ⟨by rw [hbar, if_pos rfl], hkeep t hrun, hall⟩
    · rw [if_neg hfull]
      refine ⟨_, _, rfl, fun m => .inl (.refl _), by simp, by simp,
        .inl (Server.barriers_setBarrier _ _ _), fun b' _ hne => ?_, fun t' b' h => ?_⟩
      · rw [Server.barrier_stallThread, Server.barrier_setBarrier _ hb, if_neg]
        rintro rfl
        exact hne t rfl
      · cases h
        rw [if_neg ((hs.full_iff hb).not.mp hfull)]
        refine ⟨?_, (Manager.stalledFor_stallThread (by decide) t t).mpr (.inl rfl), rfl⟩
        rw [Server.barrier_stallThread, Server.barrier_setBarrier _ hb, if_pos rfl]

theorem init_inv {s : System T M C} (h : Init s) : SystemInv s := by
  have hmutex : ∀ m, s.server.mutex m = ⟨none, []⟩ := fun m => by
    simp [Server.mutex, h.mutexes m]
  have hcond : ∀ c, s.server.cond c = [] := fun c => by simp [Server.cond, h.conds c]
  have hwaiting : ∀ p, s.server.waiting p = [] := by
    intro p
    cases p with
    | mutex m => rw [Server.waiting, hmutex]
    | cond c => rw [Server.waiting, hcond]; rfl
    | barrier b => simp [Server.waiting, Server.barrier, h.barriers]
  refine ⟨⟨.empty hwaiting fun t ht => h.free t ht.1, by simp, fun m t ho => ?_, fun m hq => ?_,
    fun c w hc => ?_, fun r hr => ?_⟩, fun b hb => ?_, fun b hb => ?_, fun b _ => h.arrived b⟩
  · rw [hmutex] at ho; cases ho
  · rw [hmutex] at hq; exact absurd rfl hq
  · rw [hcond] at hc; cases hc
  · rw [h.resumed] at hr; cases hr
  all_goals rw [h.barriers] at hb; cases hb

theorem arrivals_eq_zero {c : Call T M C} {b} (h : ∀ t, c ≠ .barrierWait t b) :
    c.arrivals b = 0 := by
  cases c with
  | barrierWait t b' => exact if_neg fun hb => h t (by rw [hb])
  | mutexInit | mutexLock | mutexUnlock | condInit | condWait | condSignal | condBroadcast
  | barrierInit => rfl

theorem call_generation {s : System T M C} (hs : SystemInv s) {c : Call T M C} {s' : Server T M C}
    (he : CallEffect s c s') {b} (hb : b < s.server.m_barriers.length) :
    (s'.barrier b).m_count = (s.server.barrier b).m_count ∧
      (s'.barrier b).m_waiting.length =
        (s.arrived b + c.arrivals b) % (s.server.barrier b).m_count.toNat := by
  by_cases hc : ∃ t, c = .barrierWait t b
  · obtain ⟨t, rfl⟩ := hc
    have hn := hs.count b hb
    have harr : (Call.barrierWait t b : Call T M C).arrivals b = 1 := if_pos rfl
    have harrive := he.arrive t b rfl
    rw [harr]
    split at harrive
    case isTrue hdvd =>
      rw [harrive.1]
      exact ⟨rfl, (Nat.dvd_iff_mod_eq_zero.mp hdvd).symm⟩
    case isFalse hdvd =>
      rw [harrive.1]
      refine ⟨rfl, ?_⟩
      rw [List.length_append, hs.generation b hb, succ_mod_of_not_dvd hn hdvd]
      rfl
  · have hne : ∀ t, c ≠ .barrierWait t b := fun t h => hc ⟨t, h⟩
    rw [he.quiet b hb hne, arrivals_eq_zero hne]
    exact ⟨rfl, hs.generation b hb⟩

variable [DecidableEq T] [DecidableEq M] [DecidableEq C]

theorem step_inv {s s' : System T M C} (hs : SystemInv s) (h : Step s s') : SystemInv s' := by
  cases h with
  | elsewhere t state ht hstate =>
    refine ⟨⟨?_, nofun, hs.server.owner, hs.server.owned, hs.server.apart, hs.server.resumed⟩,
      hs.count, hs.generation, hs.unborn⟩
    refine hs.server.parked.congr fun u => ?_
    by_cases hu : u = t
    · subst hu
      rw [Server.Stalled] at ht
      simp [Server.Stalled, hstate, ht]
    · simp [Server.Stalled, hu]
  | @call c time reply s₁ ha h =>
    obtain ⟨_, _, hok, he⟩ := call_effect hs ha time
    rw [h] at hok
    cases hok
    have hinv := call_inv hs.server ha h
    rcases he.created with hlen | ⟨t, count, rfl, hnew⟩
    · refine ⟨hinv, fun b hb => ?_, fun b hb => ?_, fun b hb => ?_⟩
      · rw [(call_generation hs he (hlen ▸ hb)).1]
        exact hs.count b (hlen ▸ hb)
      · obtain ⟨hcount, hwait⟩ := call_generation hs he (hlen ▸ hb)
        rw [hcount]
        exact hwait
      · have hb' : s.server.m_barriers.length ≤ b := hlen ▸ hb
        have hne : ∀ t, c ≠ .barrierWait t b := fun t hc =>
          Nat.not_lt.mpr hb' (ha.barrier t b hc)
        change s.arrived b + c.arrivals b = 0
        rw [arrivals_eq_zero hne, hs.unborn b hb']
    · have hbar := barrier_of_append hnew
      have hlen : s₁.m_barriers.length = s.server.m_barriers.length + 1 := by rw [hnew]; simp
      have hold : ∀ b, b ≠ s.server.m_barriers.length → b < s₁.m_barriers.length →
          b < s.server.m_barriers.length := fun b hne hb => by omega
      refine ⟨hinv, fun b hb => ?_, fun b hb => ?_, fun b hb => ?_⟩
      · rw [hbar]
        split
        case isTrue => exact fun h0 => ha.count t count rfl (UInt32.toNat_inj.mp h0)
        case isFalse hne => exact hs.count b (hold b hne hb)
      · rw [hbar]
        split
        case isTrue heq =>
          change 0 = (s.arrived b + 0) % count.toNat
          rw [hs.unborn b (Nat.le_of_eq heq.symm), Nat.zero_add, Nat.zero_mod]
        case isFalse hne => exact hs.generation b (hold b hne hb)
      · have hb' : s.server.m_barriers.length + 1 ≤ b := hlen ▸ hb
        exact hs.unborn b (by omega)

theorem runs_inv {s : System T M C} (h : Runs s) : SystemInv s :=
  Reachable.invariant (P := SystemInv) (fun _ => init_inv) (fun _ _ => step_inv) h

/-! ## The wake-up discipline -/

/-- A step after which `a` does not own the mutex. -/
def WithoutOwner (m : M) (a : T) (s s' : System T M C) : Prop :=
  Step s s' ∧ (s'.server.mutex m).m_owner ≠ some a

/-- What holds of the server in every state, of each call there, and of the way on. -/
structure Discipline (s : System T M C) : Prop where
  parked : ∀ t, s.server.Stalled t → ∃! p, t ∈ s.server.waiting p
  once : ∀ p, (s.server.waiting p).Nodup
  running : ∀ t p, s.server.Running t → t ∉ s.server.waiting p
  owner : ∀ m t, (s.server.mutex m).m_owner = some t → t ∉ (s.server.mutex m).m_waiting
  owned : ∀ m, (s.server.mutex m).m_waiting ≠ [] → (s.server.mutex m).m_owner ≠ none
  resumed : ∀ r ∈ s.server.tm.resumed, r.found.StalledFor reasons
  generation : ∀ b, b < s.server.m_barriers.length → (s.server.barrier b).m_waiting.length =
    s.arrived b % (s.server.barrier b).m_count.toNat
  calls : ∀ c time, s.server.Allowed c →
    ∃ reply s', s.server.call time c = .ok (reply, s') ∧ CallEffect s c s'
  order : ∀ m a b s', Ahead a b (s.server.mutex m).m_waiting →
    Relation.ReflTransGen (WithoutOwner m a) s s' → Ahead a b (s'.server.mutex m).m_waiting

theorem ahead_step {s s' : System T M C} (hs : SystemInv s) {m a b} (h : WithoutOwner m a s s')
    (hab : Ahead a b (s.server.mutex m).m_waiting) :
    Ahead a b (s'.server.mutex m).m_waiting := by
  obtain ⟨hstep, ho⟩ := h
  cases hstep with
  | elsewhere => exact hab
  | call c time ha h =>
    obtain ⟨reply, s₁, hok, he⟩ := call_effect hs ha time
    rw [h] at hok
    cases hok
    rcases he.fifo m with ⟨⟨new, hq⟩, -⟩ | ⟨w, rest, hq, hmu⟩ | ⟨hq, -⟩
    · rw [hq]
      exact hab.append new
    · change (Server.mutex _ m).m_owner ≠ some a at ho
      rw [hmu] at ho ⊢
      rw [hq] at hab
      exact hab.tail fun h => ho (by rw [h])
    · rw [hq] at hab
      cases hab

/-- **Wake-up discipline**: in every run of the server a thread it stalled waits in exactly one
queue, mutexes are handed over in the order of arrival, every resumed thread was stalled by
the server, and barriers open with the arrival that completes a generation. -/
theorem sync_discipline {s : System T M C} (h : Runs s) : Discipline s where
  parked t ht := (runs_inv h).server.parked.existsUnique ⟨ht, nofun⟩
  once := (runs_inv h).server.parked.nodup
  running t p ht := (runs_inv h).server.free (.inl (Server.not_stalled_of_running ht)) p
  owner := (runs_inv h).server.owner
  owned := (runs_inv h).server.owned
  resumed := (runs_inv h).server.resumed
  generation := (runs_inv h).generation
  calls _ time ha := call_effect (runs_inv h) ha time
  order m a b s' hab hrun := by
    have hreach : Runs s' ∧ Ahead a b (s'.server.mutex m).m_waiting := by
      induction hrun with
      | refl => exact ⟨h, hab⟩
      | tail _ hst ih => exact ⟨ih.1.step hst.1, ahead_step (runs_inv ih.1) hst ih.2⟩
    exact hreach.2

/-- Two running threads and no object yet. -/
def start : System Nat Unit Unit where
  server := ⟨fun _ => none, fun _ => none, [], 0, ⟨fun _ => ⟨.RUNNING, .STALL_MUTEX⟩, []⟩⟩
  arrived _ := 0

/-- Thread 0 holds the mutex and thread 1 waits for it. -/
def contended : System Nat Unit Unit where
  server := ((start.server.lock () 0 0).2.lock () 1 0).2
  arrived _ := 0

theorem contended_runs : Runs contended := by
  have h0 : Runs start := .init ⟨fun _ => rfl, fun _ => rfl, rfl,
    fun _ h => (by cases h.1), rfl, fun _ => rfl⟩
  have h1 := h0.step (.call (.mutexLock 0 () false) 0 ⟨rfl, by simp [start, Server.mutex],
    by simp, by simp, by simp, by simp⟩ rfl)
  exact h1.step (.call (.mutexLock 1 () false) 0 ⟨rfl, by simp [start, Server.mutex,
    Server.setMutex], by simp, by simp, by simp, by simp⟩ rfl)

theorem sync_discipline_contended : contended.server.Stalled 1 ∧ Discipline contended :=
  ⟨⟨rfl, by decide⟩, sync_discipline contended_runs⟩

end Sniper.Threads.Sync
