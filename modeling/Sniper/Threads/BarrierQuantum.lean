import Sniper.Threads.BarrierRelease

/-! # The barrier moves when all have arrived

In detailed mode the barrier moves to the next quantum only when every running group master
waits in it. Arrival is read from the local clocks alone, so this needs that the clock of a
core outside the barrier is behind it; a run keeps that as long as the barrier is not enabled
again over the clocks of threads that were woken when it was disabled.
-/
namespace Sniper.Threads.Barrier
open Lib.Simulation

variable {n : Nat} {T : Type}

namespace Server
variable {s s' : Server n T}

/-- A core outside the barrier has a clock before it. -/
def Fresh (s : Server n T) : Prop :=
  ∀ c, s.m_barrier_acquire_list c = false → s.m_local_clock_list c < s.m_next_barrier_time

/-- A group master on which a thread runs, or on a sibling. -/
def RunningMaster (s : Server n T) (cores : Cores n T) (c : Fin n) : Prop :=
  s.m_core_group c = none ∧ s.isCoreRunning cores c = true

/-- Every running group master waits in the barrier, its clock at or beyond it. -/
def AllArrived (s : Server n T) (cores : Cores n T) : Prop :=
  ∀ c, s.RunningMaster cores c →
    s.m_barrier_acquire_list c = true ∧ s.m_next_barrier_time ≤ s.m_local_clock_list c

theorem runningMaster_congr {cores c} (hgroup : s'.m_core_group = s.m_core_group)
    (hff : s'.m_fastforward = s.m_fastforward) :
    s'.RunningMaster cores c ↔ s.RunningMaster cores c := by
  rw [RunningMaster, RunningMaster, isCoreRunning, isCoreRunning, hgroup, hff]

theorem clock_lt_of_le {a b c : SubsecondTime} (h : a < b) (hbc : b ≤ c) : a < c := by
  simp only [UInt64.lt_iff_toNat_lt, UInt64.le_iff_toNat_le] at *
  omega

theorem Fresh.mono (h : s.Fresh) (hnext : s.m_next_barrier_time ≤ s'.m_next_barrier_time)
    (hacquire : ∀ c, s'.m_barrier_acquire_list c = false → s.m_barrier_acquire_list c = false ∧
      s'.m_local_clock_list c = s.m_local_clock_list c) : s'.Fresh := by
  intro c hc
  obtain ⟨ha, hclock⟩ := hacquire c hc
  rw [hclock]
  exact clock_lt_of_le (h c ha) hnext

theorem Fresh.same (h : s.Fresh) (hsame : SameClocks s s') : s'.Fresh := by
  refine h.mono (by rw [hsame.next]; exact UInt64.le_refl _) fun c hc => ?_
  rw [hsame.acquire] at hc
  exact ⟨hc, by rw [hsame.clock]⟩

theorem Fresh.doRelease (h : s.Fresh) (n_left : Int) : (s.doRelease n_left).Fresh :=
  h.same (doRelease_same s n_left)

theorem Fresh.releaseThread [DecidableEq T] (h : s.Fresh) (t : T) : (s.releaseThread t).Fresh := by
  have hcleared : (s.clearClock t).Fresh := by
    refine h.mono (UInt64.le_refl _) fun c hc => ⟨hc, ?_⟩
    exact if_neg fun hd => absurd (hd.1.symm.trans hc) nofun
  exact hcleared.doRelease 1

theorem Fresh.enter (h : s.Fresh) (master : Fin n) (time : SubsecondTime) (t : T) :
    (s.enter master time t).Fresh := by
  refine h.mono (UInt64.le_refl _) fun c hc => ?_
  by_cases hcm : c = master
  · simp [Server.enter, hcm] at hc
  · simpa [Server.enter, hcm] using hc

theorem le_latestClock (s : Server n T) (next : SubsecondTime) : next ≤ s.latestClock next := by
  have hfold : ∀ (l : List (Fin n)) (next : SubsecondTime), next ≤ l.foldl (fun next core_id =>
      if next < s.m_local_clock_list core_id then s.m_local_clock_list core_id else next) next := by
    intro l
    induction l with
    | nil => exact fun next => UInt64.le_refl next
    | cons c l ih =>
      intro next
      rw [List.foldl_cons]
      refine UInt64.le_trans ?_ (ih _)
      split
      case isTrue hlt => exact UInt64.le_of_lt hlt
      case isFalse => exact UInt64.le_refl next
  exact hfold _ next

theorem Fresh.startRelease (h : s.Fresh) (hs : s.startRelease = .ok s') : s'.Fresh := by
  obtain ⟨-, next, rfl, hdetailed, hff⟩ := startRelease_ok hs
  refine h.mono ?_ fun c hc => ⟨hc, rfl⟩
  show s.m_next_barrier_time ≤ next
  cases hf : s.m_fastforward with
  | true => rw [hff hf]; exact s.le_latestClock _
  | false => rw [hdetailed hf]; exact UInt64.le_refl _

theorem Fresh.setFastForward (h : s.Fresh) (fastforward : Bool) (next : SubsecondTime) :
    (s.setFastForward fastforward next).Fresh := by
  rw [Server.setFastForward]
  split
  · refine h.mono ?_ fun c hc => ⟨hc, rfl⟩
    split
    case isTrue hlt => exact UInt64.le_of_lt hlt
    case isFalse => exact UInt64.le_refl _
  · exact h

theorem clock_of_reachedLoop {cores} (hff : s.m_fastforward = false) {l reached}
    (h : s.reachedLoop cores l reached = true) :
    ∀ c ∈ l, s.RunningMaster cores c → s.m_next_barrier_time ≤ s.m_local_clock_list c := by
  induction l generalizing reached with
  | nil => nofun
  | cons a l ih =>
    rw [reachedLoop, if_neg (by rw [hff]; nofun)] at h
    intro c hc hrun
    rcases List.mem_cons.mp hc with rfl | hc
    · rw [if_neg (not_not.mpr hrun.1), if_pos hrun.2] at h
      split at h
      case isTrue => cases h
      case isFalse hlt => exact UInt64.not_lt.mp hlt
    · split at h
      · exact ih h c hc hrun
      · split at h
        · split at h
          · cases h
          · exact ih h c hc hrun
        · exact ih h c hc hrun

theorem allArrived_of_reached {cores} (h : s.Fresh) (hff : s.m_fastforward = false)
    (hr : s.isBarrierReached cores = true) : s.AllArrived cores := by
  intro c hrun
  have hclock := clock_of_reachedLoop hff hr c (List.mem_finRange c) hrun
  refine ⟨?_, hclock⟩
  by_contra ha
  exact absurd (h c (Bool.not_eq_true _ ▸ ha)) (UInt64.not_lt.mpr hclock)

variable [DecidableEq T]

theorem Fresh.releaseRound (h : s.Fresh)
    (hle : s.m_next_barrier_time ≤ s.m_next_barrier_time + s.m_barrier_interval)
    (caller_id : Option T) : (s.releaseRound caller_id).server.Fresh := by
  rw [releaseRound_eq]
  intro c hc
  show s.m_local_clock_list c < s.m_next_barrier_time + s.m_barrier_interval
  rcases Bool.and_eq_false_iff.mp hc with hc | hdue
  · exact clock_lt_of_le (h c hc) hle
  · have hdue : s.advanceNext.due c = true := by simpa using hdue
    exact of_decide_eq_true (Bool.and_elim_left hdue)

theorem AllArrived.releaseRound {cores} (h : s.AllArrived cores) {caller_id}
    (hresumed : (s.releaseRound caller_id).core_resumed = false) :
    (s.releaseRound caller_id).server.AllArrived cores := by
  rw [releaseRound_eq] at hresumed ⊢
  intro c hrun
  have hdue : s.advanceNext.due c = false :=
    Bool.not_eq_true _ ▸ List.any_eq_false.mp hresumed c (List.mem_finRange c)
  have ha := (h c hrun).1
  refine ⟨?_, ?_⟩
  · show (s.m_barrier_acquire_list c && !s.advanceNext.due c) = true
    rw [ha, hdue]
    rfl
  · rcases Bool.and_eq_false_iff.mp hdue with hlt | hacq
    · exact UInt64.not_lt.mp (of_decide_eq_false hlt)
    · exact absurd (hacq.symm.trans ha) nofun

end Server

/-! ### Runs -/

namespace Machine
open Server

variable {hostCores : Int} {m m' : Machine n T}

/-- A call that keeps arrival readable from the clocks. The barrier is enabled again only
between two releases and when no core outside it has a clock at or beyond it; the hooks of a
release start no group master, move no thread that waits for a running one and do not leave
fast-forward mode; the barrier's time does not overflow. -/
def Disciplined (m : Machine n T) : Call n T → Prop
  | .setDisable disable =>
    disable = false → m.server.m_disable = true → m.phase = .idle ∧ m.server.Fresh
  | .environment cores => m.phase ≠ .idle →
      ∀ c, m.server.RunningMaster cores c → m.server.RunningMaster m.cores c
  | .setGroup core_id master_core_id => m.phase ≠ .idle →
      ∀ s, m.server.setGroup core_id master_core_id = .ok s →
        ∀ c, s.RunningMaster m.cores c → m.server.RunningMaster m.cores c
  | .threadMigrate thread_id => m.phase ≠ .idle →
      ∀ c, m.server.RunningMaster m.cores c → m.server.m_core_thread c ≠ some thread_id
  | .setFastForward fastforward next_barrier_time => m.phase ≠ .idle → fastforward = false →
      m.server.m_fastforward = false ∧ (next_barrier_time = MaxTime ∨
        next_barrier_time ≤ m.server.m_next_barrier_time)
  | .hooksReturn _ =>
    m.server.m_next_barrier_time.toNat + m.server.m_barrier_interval.toNat < 2 ^ 64
  | _ => True

/-- A step by a disciplined call. -/
def DisciplinedStep [DecidableEq T] (hostCores : Int) (m m' : Machine n T) : Prop :=
  ∃ call, m.Allowed call ∧ m.Disciplined call ∧ m.exec hostCores call = .ok m'

/-- The state after the constructor, with a positive quantum. -/
def Started (m : Machine n T) : Prop := m.Init ∧ 0 < m.server.m_barrier_interval

/-- With the barrier enabled, the cores outside it are behind it, and all have arrived while
the hooks run. -/
def Quantum (m : Machine n T) : Prop :=
  m.server.m_disable = false → m.server.Fresh ∧
    (m.phase ≠ .idle → m.server.m_fastforward = false → m.server.AllArrived m.cores)

theorem Started.quantum (h : m.Started) : m.Quantum := by
  intro _
  refine ⟨fun c _ => ?_, fun hp => absurd h.1.idle hp⟩
  rw [h.1.clocks, h.1.next]
  exact h.2

theorem quantum_of_idle (hp : m.phase = .idle) {s} (h : s.m_disable = false → s.Fresh) :
    Quantum { m with server := s } :=
  fun hen => ⟨h hen, fun hne => absurd hp hne⟩

theorem quantum_of_startRelease {s s' : Server n T} (h : s.Fresh)
    (hr : s.isBarrierReached m.cores = true) (hs : s.startRelease = .ok s') (phase : Phase n T) :
    Quantum { m with server := s', phase := phase } := by
  refine fun _ => ⟨h.startRelease hs, fun _ hff => ?_⟩
  obtain ⟨-, next, rfl, hdetailed, -⟩ := startRelease_ok hs
  have harrived := allArrived_of_reached h hff hr
  rw [hdetailed hff]
  exact harrived

theorem Quantum.signal (h : m.server.m_disable = false → m.server.Fresh) (hp : m.phase = .idle)
    (hs : m.signal = .ok m') : m'.Quantum := by
  rw [Machine.signal] at hs
  split at hs
  · cases hs
    exact quantum_of_idle hp h
  case isFalse hen =>
    have hfresh := h (Bool.not_eq_true _ ▸ hen)
    split at hs
    case isTrue hr =>
      obtain ⟨s, hstart, rfl⟩ := of_map_ok hs
      exact quantum_of_startRelease hfresh hr hstart _
    case isFalse =>
      cases hs
      exact quantum_of_idle hp h

theorem Quantum.threadStall [DecidableEq T] (h : m.Quantum) (hp : m.phase = .idle) (t : T)
    (hs : Machine.signal { m with server := m.server.releaseThread t } = .ok m') : m'.Quantum := by
  refine Quantum.signal (m := { m with server := m.server.releaseThread t }) (fun hen => ?_) hp hs
  have hsame := doRelease_same (m.server.clearClock t) 1
  exact (h (hsame.disable.symm.trans hen)).1.releaseThread t

theorem Quantum.synchronize (h : m.Quantum) (hp : m.phase = .idle) {core_id time}
    (hs : m.synchronize core_id time = .ok m') : m'.Quantum := by
  rw [Machine.synchronize] at hs
  split at hs
  · cases hs
    exact h
  case isFalse hen =>
    have hfresh := (h (Bool.not_eq_true _ ▸ hen)).1
    dsimp only at hs
    split at hs
    · cases hs
    case h_2 thread_me _ =>
      split at hs
      · cases hs
      · split at hs
        · cases hs
        · split at hs
          · cases hs
            exact h
          · have hentered := (hfresh.doRelease 1).enter (m.server.masterOf core_id) time thread_me
            split at hs
            case isTrue hr =>
              obtain ⟨s, hstart, rfl⟩ := of_map_ok hs
              exact quantum_of_startRelease hentered hr hstart _
            case isFalse =>
              cases hs
              exact quantum_of_idle hp fun _ => hentered

theorem leave_same (s : Server n T) (must_wait : Bool) (caller : Option (Fin n × T)) :
    SameClocks s (leave s must_wait caller) := by
  rcases caller with _ | ⟨me, t⟩
  · exact ⟨rfl, rfl, rfl, rfl, rfl, rfl, rfl, rfl⟩
  · cases must_wait <;> exact ⟨rfl, rfl, rfl, rfl, rfl, rfl, rfl, rfl⟩

theorem Quantum.hooksReturn [DecidableEq T] (h : m.Quantum) {shuffle}
    (hnowrap : m.server.m_next_barrier_time.toNat + m.server.m_barrier_interval.toNat < 2 ^ 64)
    (hs : m.hooksReturn hostCores shuffle = .ok m') : m'.Quantum := by
  have hle : m.server.m_next_barrier_time ≤
      m.server.m_next_barrier_time + m.server.m_barrier_interval := by
    rw [UInt64.le_iff_toNat_le, UInt64.toNat_add, Nat.mod_eq_of_lt hnowrap]
    exact Nat.le_add_right _ _
  rw [Machine.hooksReturn] at hs
  split at hs
  · cases hs
  case h_2 caller hp =>
    split at hs
    case isTrue hd =>
      cases hs
      exact fun hen => absurd (hd.symm.trans hen) nofun
    case isFalse hen =>
      obtain ⟨hfresh, harrived⟩ := h (Bool.not_eq_true _ ▸ hen)
      have hround := hfresh.releaseRound hle (caller.map Prod.snd)
      dsimp only at hs
      split at hs
      case isTrue hresumed =>
        cases hs
        refine fun _ => ⟨?_, fun hne => absurd rfl hne⟩
        have hshuffled : Fresh { (m.server.releaseRound (caller.map Prod.snd)).server with
            m_to_release :=
              shuffle (m.server.releaseRound (caller.map Prod.snd)).server.m_to_release } :=
          hround
        exact (hshuffled.doRelease _).same (leave_same _ _ _)
      case isFalse hresumed =>
        cases hs
        refine fun _ => ⟨hround, fun _ hff => ?_⟩
        have hff : m.server.m_fastforward = false := by
          rw [releaseRound_eq] at hff
          exact hff
        exact (harrived (by rw [hp]; nofun) hff).releaseRound (Bool.not_eq_true _ ▸ hresumed)

theorem Quantum.threadMigrate [DecidableEq T] (h : m.Quantum) {t}
    (hok : m.Disciplined (.threadMigrate t)) :
    Quantum { m with server := m.server.releaseThread t } := by
  intro hen
  have hsame := doRelease_same (m.server.clearClock t) 1
  obtain ⟨hfresh, harrived⟩ := h (hsame.disable.symm.trans hen)
  refine ⟨hfresh.releaseThread t, fun hp hff c hrun => ?_⟩
  have hrun := (runningMaster_congr hsame.group hsame.fastforward).mp hrun
  obtain ⟨ha, hclock⟩ := harrived hp (hsame.fastforward.symm.trans hff) c hrun
  rw [releaseThread, hsame.acquire, hsame.next, hsame.clock]
  refine ⟨ha, ?_⟩
  show m.server.m_next_barrier_time ≤ if _ then 0 else m.server.m_local_clock_list c
  rw [if_neg fun hd => hok hp c hrun hd.2]
  exact hclock

theorem Quantum.setGroup (h : m.Quantum) {core_id master}
    (hok : m.Disciplined (.setGroup core_id master)) {s}
    (hs : m.server.setGroup core_id master = .ok s) : Quantum { m with server := s } := by
  intro hen
  have hback := fun hp => hok hp s hs
  rw [Server.setGroup] at hs
  split at hs
  · cases hs
  · cases hs
    obtain ⟨hfresh, harrived⟩ := h hen
    exact ⟨hfresh, fun hp hff c hrun => harrived hp hff c (hback hp c hrun)⟩

theorem Quantum.setFastForward (h : m.Quantum) {fastforward next}
    (hok : m.Disciplined (.setFastForward fastforward next)) :
    Quantum { m with server := m.server.setFastForward fastforward next } := by
  intro hen
  have hfields : (m.server.setFastForward fastforward next).m_disable = m.server.m_disable ∧
      (m.server.setFastForward fastforward next).m_fastforward = fastforward := by
    rw [Server.setFastForward]
    split <;> exact ⟨rfl, rfl⟩
  obtain ⟨hfresh, harrived⟩ := h (hfields.1.symm.trans hen)
  refine ⟨hfresh.setFastForward fastforward next, fun hp hff => ?_⟩
  obtain rfl : fastforward = false := hfields.2.symm.trans hff
  obtain ⟨hdetailed, hnext⟩ := hok hp rfl
  -- the hooks stay in detailed mode, and there the call changes nothing
  have hsame : m.server.setFastForward false next = m.server := by
    rw [Server.setFastForward]
    split
    case isTrue hne =>
      rw [if_neg (UInt64.not_lt.mpr (hnext.resolve_left hne)), ← hdetailed]
    case isFalse => rw [← hdetailed]
  rw [hsame]
  exact harrived hp hdetailed

theorem Quantum.setDisable (h : m.Quantum) {disable} (hok : m.Disciplined (.setDisable disable)) :
    Quantum { m with server := m.server.setDisable disable } := by
  cases disable with
  | true => nofun
  | false =>
    intro _
    cases hd : m.server.m_disable with
    | true =>
      obtain ⟨hp, hfresh⟩ := hok rfl hd
      exact ⟨hfresh, fun hne => absurd hp hne⟩
    | false => exact h hd

theorem Quantum.step [DecidableEq T] (h : m.Quantum) (hst : DisciplinedStep hostCores m m') :
    m'.Quantum := by
  obtain ⟨call, hallow, hok, hs⟩ := hst
  cases call with
  | synchronize core_id time => exact h.synchronize hallow.1 hs
  | threadExit t | threadStall t => exact h.threadStall hallow t hs
  | threadMigrate t =>
    cases hs
    exact h.threadMigrate hok
  | setGroup core_id master =>
    obtain ⟨s, hset, rfl⟩ := of_map_ok hs
    exact h.setGroup hok hset
  | setFastForward fastforward next =>
    cases hs
    exact h.setFastForward hok
  | setDisable disable =>
    cases hs
    exact h.setDisable hok
  | environment cores =>
    cases hs
    intro hen
    obtain ⟨hfresh, harrived⟩ := h hen
    exact ⟨hfresh, fun hp hff c hrun => harrived hp hff c (hok hp c hrun)⟩
  | hooksReturn shuffle => exact h.hooksReturn hok hs

/-! ### Where the barrier moves -/

theorem signal_next (hff : m.server.m_fastforward = false) (hs : m.signal = .ok m') :
    m'.server.m_next_barrier_time = m.server.m_next_barrier_time := by
  rw [Machine.signal] at hs
  split at hs
  · cases hs; rfl
  · split at hs
    · obtain ⟨s, hstart, rfl⟩ := of_map_ok hs
      obtain ⟨-, next, rfl, hdetailed, -⟩ := startRelease_ok hstart
      exact hdetailed hff
    · cases hs; rfl

theorem synchronize_next (hff : m.server.m_fastforward = false) {core_id time}
    (hs : m.synchronize core_id time = .ok m') :
    m'.server.m_next_barrier_time = m.server.m_next_barrier_time := by
  rw [Machine.synchronize] at hs
  split at hs
  · cases hs; rfl
  · dsimp only at hs
    split at hs
    · cases hs
    · split at hs
      · cases hs
      · split at hs
        · cases hs
        · split at hs
          · cases hs; rfl
          · have hsame := doRelease_same m.server 1
            split at hs
            · obtain ⟨s, hstart, rfl⟩ := of_map_ok hs
              obtain ⟨-, next, rfl, hdetailed, -⟩ := startRelease_ok hstart
              exact (hdetailed (hsame.fastforward.trans hff)).trans hsame.next
            · cases hs
              exact hsame.next

variable [DecidableEq T]

theorem exec_next (hff : m.server.m_fastforward = false) {call}
    (hfast : ∀ b t, call ≠ .setFastForward b t) (hhooks : ∀ f, call ≠ .hooksReturn f)
    (hs : m.exec hostCores call = .ok m') :
    m'.server.m_next_barrier_time = m.server.m_next_barrier_time := by
  have hrelease : ∀ t, (m.server.releaseThread t).m_next_barrier_time =
      m.server.m_next_barrier_time ∧ (m.server.releaseThread t).m_fastforward = false := fun t =>
    have hsame := doRelease_same (m.server.clearClock t) 1
    ⟨hsame.next, hsame.fastforward.trans hff⟩
  cases call with
  | synchronize core_id time => exact synchronize_next hff hs
  | threadExit t | threadStall t => exact (signal_next (hrelease t).2 hs).trans (hrelease t).1
  | threadMigrate t => cases hs; exact (hrelease t).1
  | setGroup core_id master =>
    obtain ⟨s, hset, rfl⟩ := of_map_ok hs
    rw [setGroup] at hset
    split at hset
    · cases hset
    · cases hset; rfl
  | setFastForward b t => exact absurd rfl (hfast b t)
  | setDisable disable => cases hs; cases disable <;> rfl
  | environment cores => cases hs; rfl
  | hooksReturn f => exact absurd rfl (hhooks f)

/-- In a disciplined run the barrier moves in detailed mode only when every running group
master waits in it, with a clock at or beyond the place it moves from. -/
theorem all_arrived_of_advance (h : Reachable Started (DisciplinedStep hostCores) m)
    (hff : m.server.m_fastforward = false) (call : Call n T)
    (hcall : ∀ b t, call ≠ .setFastForward b t) (hs : m.exec hostCores call = .ok m')
    (hmove : m'.server.m_next_barrier_time ≠ m.server.m_next_barrier_time) :
    m.server.AllArrived m.cores := by
  have hinv : m.Quantum := h.invariant (fun _ => Started.quantum) fun _ _ h hst => h.step hst
  by_cases hhooks : ∀ f, call ≠ .hooksReturn f
  · exact absurd (exec_next hff hcall hhooks hs) hmove
  · obtain ⟨f, hf⟩ := not_forall.mp hhooks
    obtain rfl := not_not.mp hf
    have hs : m.hooksReturn hostCores f = .ok m' := hs
    rw [Machine.hooksReturn] at hs
    split at hs
    · cases hs
    case h_2 caller hp =>
      split at hs
      · cases hs
        exact absurd rfl hmove
      case isFalse hen =>
        exact (hinv (Bool.not_eq_true _ ▸ hen)).2 (by rw [hp]; nofun) hff

theorem all_arrived_of_advance_twoCores : ∃ m m' : Machine 2 (Fin 2),
    m.hooksReturn 2 id = .ok m' ∧ m'.server.m_next_barrier_time = 200 ∧
    m.server.AllArrived m.cores := by
  have h0 : Reachable Started (DisciplinedStep 2) (running 2) := .init ⟨running_init 2, by decide⟩
  have h1 := h0.step ⟨.synchronize 0 100, ⟨rfl, fun _ _ _ => nofun⟩, trivial, rfl⟩
  have h2 := h1.step ⟨.synchronize 1 100, ⟨rfl, by decide⟩, trivial, rfl⟩
  exact ⟨_, _, rfl, by decide,
    all_arrived_of_advance h2 rfl (.hooksReturn id) nofun rfl (by decide)⟩

/-- Disabled and enabled again, the barrier moves when core 1 arrives, while core 0 runs. -/
theorem advance_past_running_core : ∃ m m' : Machine 2 (Fin 2), Reachable Started (Step 2) m ∧
    m.server.m_disable = false ∧ m.server.m_fastforward = false ∧
    m.hooksReturn 2 id = .ok m' ∧
    m'.server.m_next_barrier_time ≠ m.server.m_next_barrier_time ∧
    ¬ m.server.AllArrived m.cores := by
  have h0 : Reachable Started (Step 2) (running 2) := .init ⟨running_init 2, by decide⟩
  have h1 := h0.step ⟨.synchronize 0 100, ⟨rfl, fun _ _ _ => nofun⟩, rfl⟩
  have h2 := h1.step ⟨.setDisable true, trivial, rfl⟩
  have h3 := h2.step ⟨.setDisable false, trivial, rfl⟩
  have h4 := h3.step ⟨.synchronize 1 100, ⟨rfl, by decide⟩, rfl⟩
  refine ⟨_, _, h4, rfl, rfl, rfl, by decide, fun hall => ?_⟩
  exact absurd (hall 0 ⟨by decide, by decide⟩).1 (by decide)

end Machine
end Sniper.Threads.Barrier
