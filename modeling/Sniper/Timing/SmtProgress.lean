import Sniper.Timing.SmtRelease

/-! # The SMT barrier makes progress

While `m_lock` is free and no thread is in the global barrier, a thread blocked in the barrier has
a running thread outside it.
-/
namespace Sniper.Timing.Smt
open Lib.Simulation Function

variable {k : Nat} {T C : Type}

namespace Timer
variable {s s' : Timer k T C}

/-! ### The invariant -/

/-- A running thread is not in the barrier. -/
def Outside (s : Timer k T C) : Prop :=
  ∃ f, (s.m_threads f).running = true ∧ (s.m_threads f).in_barrier = false

/-- One thread waits on the condition of each hardware thread in the barrier. -/
def Waits (s : Timer k T C) : Prop :=
  ∀ e, (s.m_threads e).waiting = if (s.m_threads e).in_barrier then 1 else 0

/-- What holds while `m_lock` is free. -/
structure Inv (s : Timer k T C) : Prop where
  waits : s.Waits
  small : s.counts.Small
  progress : s.in_sync = false → (∃ e, (s.m_threads e).in_barrier = true) → s.Outside
  once : s.executed ≤ 1
  fresh : s.execute_thread ≠ none → s.executed = 0

theorem Outside.woken {except} (h : s.Outside) (hw : Woken except s s') :
    s'.Outside := by
  obtain ⟨f, hrun, hout⟩ := h
  exact ⟨f, (hw.running f).trans hrun, hw.outside hout⟩

theorem Inv.woken {except} (h : Inv s) (hw : Woken except s s')
    (hex : s'.execute_thread = s.execute_thread) : Inv s' := by
  refine ⟨fun e => hw.waiting (h.waits e), hw.counts ▸ h.small, fun hsync hin => ?_,
    hw.executed ▸ h.once, fun hne => hw.executed ▸ h.fresh (hex ▸ hne)⟩
  obtain ⟨e, he⟩ := hin
  exact (h.progress (hw.in_sync ▸ hsync) ⟨e, hw.in_barrier he⟩).woken hw

theorem isBarrierReached_iff : s.isBarrierReached = true ↔ s.in_sync = false ∧
    (∀ e, (s.m_threads e).running = true → (s.m_threads e).in_barrier = true) ∧
    ∃ e, (s.m_threads e).in_barrier = true := by
  simp [isBarrierReached, and_assoc]

theorem outside_of_not_reached (h : ¬ s.isBarrierReached = true) (hsync : s.in_sync = false)
    (hin : ∃ e, (s.m_threads e).in_barrier = true) : s.Outside := by
  by_contra hout
  refine h (isBarrierReached_iff.mpr ⟨hsync, fun e he => ?_, hin⟩)
  by_contra hb
  exact hout ⟨e, he, Bool.not_eq_true _ ▸ hb⟩

/-! ### Releases -/

/-- What the thread on `e` needs to release the barrier when it goes on: a running thread, and
one outside the barrier unless it is itself outside. -/
def Resumable (s : Timer k T C) (e : Fin k) : Prop :=
  ∃ f, (s.m_threads f).running = true ∧
    ((s.m_threads f).in_barrier = false ∨ (s.m_threads e).in_barrier = false)

theorem inv_released {thread_id} (hwaits : s.Waits) (hsmall : s.counts.Small)
    (hw : Woken thread_id { s with executed := 0 } s') (hout : s'.Outside) : Inv s' := by
  have hzero : s'.executed = 0 := hw.executed
  exact ⟨fun e => hw.waiting (hwaits e), hw.counts ▸ hsmall, fun _ _ => hout,
    hzero ▸ Nat.zero_le 1, fun _ => hzero⟩

theorem release_all_inv (hwaits : s.Waits) (hsmall : s.counts.Small) {e} (hgo : s.Resumable e) :
    ∃ me s', s.barrierRelease true (some e) = some (me, s') ∧ Inv s' := by
  obtain ⟨g, hrun, hg⟩ := hgo
  obtain ⟨me, s', hs', hw, f, hf, hout⟩ :=
    barrierRelease_returns true (some e) (.inl rfl) hsmall ⟨g, hrun⟩
  refine ⟨me, s', hs', inv_released hwaits hsmall hw ?_⟩
  rcases hg with hg | he
  · exact ⟨g, (hw.running g).trans hrun, hw.outside hg⟩
  · rcases hout with hout | ⟨-, hid⟩
    · exact ⟨f, hf, hout⟩
    · cases hid
      exact ⟨e, hf, hw.outside he⟩

theorem signalBarrier_inv (hwaits : s.Waits) (hsmall : s.counts.Small) (honce : s.executed ≤ 1)
    (hfresh : s.execute_thread ≠ none → s.executed = 0)
    (hrun : s.in_sync = false → (∃ e, (s.m_threads e).in_barrier = true) →
      ∃ f, (s.m_threads f).running = true) :
    ∃ s', s.signalBarrier = .ok s' ∧ Inv s' := by
  rw [signalBarrier]
  split
  case isTrue hreached =>
    obtain ⟨hsync, hall, hin⟩ := isBarrierReached_iff.mp hreached
    obtain ⟨me, s', hs', hw, f, hf, hout⟩ :=
      barrierRelease_returns false none (.inr hall) hsmall (hrun hsync hin)
    rw [hs']
    exact ⟨s', rfl, inv_released hwaits hsmall hw ⟨f, hf, hout.resolve_right nofun⟩⟩
  case isFalse hreached =>
    exact ⟨s, rfl, hwaits, hsmall, outside_of_not_reached hreached, honce, hfresh⟩

/-! ### The executing thread -/

theorem Inv.proceed (h : Inv s) (client : Bool) {counts} (hcounts : counts.Small) (e : Fin k)
    (hgo : client = false → s.execute_thread = some e → s.Resumable e) :
    ∃ s', s.proceed client counts e = .ok s' ∧ Inv s' := by
  rw [Timer.proceed]
  split
  case isTrue hex =>
    cases client with
    | true =>
      have hzero : s.executed = 0 := h.fresh (hex ▸ Option.some_ne_none e)
      refine ⟨_, rfl, h.waits, hcounts, nofun, ?_, fun hne => absurd rfl hne⟩
      show s.executed + 1 ≤ 1
      omega
    | false =>
      let s₁ : Timer k T C :=
        { s with executed := s.executed + 1, counts := counts, execute_thread := none }
      obtain ⟨me, s', hs', hinv⟩ :=
        release_all_inv (s := s₁) (e := e) h.waits hcounts (hgo rfl hex)
      exact ⟨s', by simp only [s₁] at hs'; simp [hs'], hinv⟩
  case isFalse => exact ⟨s, rfl, h⟩

theorem Inv.resume (h : Inv s) (client : Bool) {counts} (hcounts : counts.Small) (e : Fin k)
    (hgo : client = false → s.execute_thread = some e → s.Resumable e) :
    ∃ s', s.resume client counts e = .ok s' ∧ Inv s' := by
  have hinv : Inv { s with woken := update s.woken e (s.woken e - 1) } :=
    ⟨h.waits, h.small, h.progress, h.once, h.fresh⟩
  exact hinv.proceed client hcounts e hgo

theorem Inv.syncReturn (h : Inv s) (e : Fin k) (hgo : s.Resumable e) :
    ∃ s', s.syncReturn e = .ok s' ∧ Inv s' := by
  let s₁ : Timer k T C := { s with in_sync := false, syncing := s.syncing.erase e }
  obtain ⟨me, s', hs', hinv⟩ := release_all_inv (s := s₁) (e := e) h.waits h.small hgo
  refine ⟨s', ?_, hinv⟩
  rw [Timer.syncReturn]
  simp only [s₁] at hs'
  simp [hs']

theorem setInBarrier_self (s : Timer k T C) (e : Fin k) (b : Bool) :
    (s.setInBarrier e b).m_threads e = { s.m_threads e with in_barrier := b } :=
  update_self e _ s.m_threads

theorem setInBarrier_other (s : Timer k T C) {e f} (b : Bool) (hf : f ≠ e) :
    (s.setInBarrier e b).m_threads f = s.m_threads f :=
  update_of_ne hf _ s.m_threads

theorem waitCond_self (s : Timer k T C) (e : Fin k) :
    (s.waitCond e).m_threads e =
      { s.m_threads e with waiting := (s.m_threads e).waiting + 1 } :=
  update_self e _ s.m_threads

theorem waitCond_other (s : Timer k T C) {e f} (hf : f ≠ e) :
    (s.waitCond e).m_threads f = s.m_threads f :=
  update_of_ne hf _ s.m_threads

/-- A thread has set its `in_barrier`, and does not wait yet. -/
structure Entered (s : Timer k T C) (e : Fin k) : Prop where
  inside : (s.m_threads e).in_barrier = true
  self : (s.m_threads e).waiting = 0
  others : ∀ f, f ≠ e → (s.m_threads f).waiting = if (s.m_threads f).in_barrier then 1 else 0
  small : s.counts.Small

theorem Inv.entered (h : Inv s) {e} (hout : (s.m_threads e).in_barrier = false) :
    Entered (s.setInBarrier e true) e := by
  have hself := setInBarrier_self s e true
  refine ⟨by rw [hself], ?_, fun f hf => ?_, h.small⟩
  · rw [hself]
    exact (h.waits e).trans (by rw [hout]; rfl)
  · rw [setInBarrier_other s true hf]
    exact h.waits f

theorem Entered.woken {e} (h : Entered s e) (hw : Woken (some e) { s with executed := 0 } s') :
    Entered s' e := by
  refine ⟨?_, ?_, fun f hf => hw.waiting (h.others f hf), hw.counts ▸ h.small⟩
  all_goals
    rcases hw.status e with ⟨hb, hwait⟩ | ⟨hne, -⟩
  · exact hb.trans h.inside
  · exact absurd rfl hne
  · exact hwait.trans h.self
  · exact absurd rfl hne

theorem Entered.waits_waitCond {e} (h : Entered s e) : (s.waitCond e).Waits := by
  intro f
  by_cases hf : f = e
  · rw [hf, waitCond_self]
    simp [h.inside, h.self]
  · rw [waitCond_other s hf]
    exact h.others f hf

theorem Entered.waits_leave {e} (h : Entered s e) : (s.setInBarrier e false).Waits := by
  intro f
  by_cases hf : f = e
  · rw [hf, setInBarrier_self]
    exact h.self
  · rw [setInBarrier_other s false hf]
    exact h.others f hf

theorem outside_waitCond (e : Fin k) (h : s.Outside) : (s.waitCond e).Outside := by
  obtain ⟨f, hrun, hout⟩ := h
  refine ⟨f, ?_⟩
  by_cases hf : f = e
  · subst hf
    rw [waitCond_self]
    exact ⟨hrun, hout⟩
  · rw [waitCond_other s hf]
    exact ⟨hrun, hout⟩

theorem running_setInBarrier (e : Fin k) (b : Bool) {f} (h : (s.m_threads f).running = true) :
    ((s.setInBarrier e b).m_threads f).running = true := by
  by_cases hf : f = e
  · subst hf
    rw [setInBarrier_self]
    exact h
  · rw [setInBarrier_other s b hf]
    exact h

theorem outside_leave {e f} (hrun : (s.m_threads f).running = true)
    (hf : (s.m_threads f).in_barrier = false ∨ f = e) : (s.setInBarrier e false).Outside := by
  refine ⟨f, running_setInBarrier e false hrun, ?_⟩
  by_cases hfe : f = e
  · rw [hfe, setInBarrier_self]
  · rw [setInBarrier_other s false hfe]
    exact hf.resolve_right hfe

/-- A call that returns, or stops at an assertion, and keeps the invariant. -/
def Progresses (x : Except Stop (Timer k T C)) : Prop :=
  x ≠ .error .diverges ∧ ∀ s', x = .ok s' → Inv s'

theorem progresses_of_ok {x : Except Stop (Timer k T C)} (h : ∃ s', x = .ok s' ∧ Inv s') :
    Progresses x := by
  obtain ⟨s', hs', hinv⟩ := h
  rw [hs']
  exact ⟨nofun, fun t ht => Except.ok.inj ht ▸ hinv⟩

theorem Inv.simulate (h : Inv s) (client : Bool) {counts} (hcounts : counts.Small) (e : Fin k)
    (hgo : 128 < s.counts.surplus e → s.enabled = true →
      (s.m_threads e).in_barrier = false ∧
      (s.in_sync = false → ∃ f, (s.m_threads f).running = true)) :
    Progresses (s.simulate client counts e) := by
  rw [Timer.simulate]
  split
  case isTrue => exact progresses_of_ok ⟨s, rfl, h⟩
  case isFalse hsurplus =>
    split
    case isTrue => exact progresses_of_ok ⟨s, rfl, h⟩
    case isFalse henabled =>
      obtain ⟨hout, hrun⟩ := hgo (UInt64.not_le.mp hsurplus) (Bool.not_eq_false _ ▸ henabled)
      split
      case isTrue => exact ⟨nofun, nofun⟩
      case isFalse =>
        dsimp only
        have hentered := h.entered hout
        split
        case isTrue hreached =>
          obtain ⟨hsync, hall, -⟩ := isBarrierReached_iff.mp hreached
          obtain ⟨g, hg⟩ := hrun hsync
          obtain ⟨me, s', hs', hw, f, hf, hpass⟩ := barrierRelease_returns false (some e)
            (.inr hall) h.small ⟨g, running_setInBarrier e true hg⟩
          have hentered' := hentered.woken hw
          have hzero : s'.executed = 0 := hw.executed
          rw [hs']
          cases me with
          | true =>
            have hout' : (s'.setInBarrier e false).Outside :=
              outside_leave hf (hpass.imp_right fun h => (Option.some.inj h.2).symm)
            have hinv : Inv (s'.setInBarrier e false) :=
              ⟨hentered'.waits_leave, hentered'.small, fun _ _ => hout',
                Nat.le_trans (Nat.le_of_eq hzero) (Nat.zero_le 1), fun _ => hzero⟩
            obtain ⟨g, hg, hgout⟩ := hout'
            exact progresses_of_ok
              (hinv.proceed client hcounts e fun _ _ => ⟨g, hg, .inl hgout⟩)
          | false =>
            have hout' : s'.Outside := ⟨f, hf, hpass.resolve_right fun h => nomatch h.1⟩
            exact progresses_of_ok ⟨_, rfl, hentered'.waits_waitCond, hentered'.small,
              fun _ _ => outside_waitCond e hout',
              Nat.le_trans (Nat.le_of_eq hzero) (Nat.zero_le 1), fun _ => hzero⟩
        case isFalse hreached =>
          refine progresses_of_ok ⟨_, rfl, hentered.waits_waitCond, h.small, fun hsync _ => ?_,
            h.once, h.fresh⟩
          exact outside_waitCond e
            (outside_of_not_reached hreached hsync ⟨e, hentered.inside⟩)

/-! ### Hooks -/

theorem Inv.run (h : Inv s) (e : Fin k) {thread} (hrun : thread.running = true)
    (hin : thread.in_barrier = (s.m_threads e).in_barrier)
    (hwait : thread.waiting = (s.m_threads e).waiting) : Inv (s.setThread e thread) := by
  have hself : (s.setThread e thread).m_threads e = thread := update_self e _ _
  have hother : ∀ f, f ≠ e → (s.setThread e thread).m_threads f = s.m_threads f :=
    fun f hf => update_of_ne hf _ _
  have hbarrier : ∀ f, ((s.setThread e thread).m_threads f).in_barrier =
      (s.m_threads f).in_barrier := by
    intro f
    by_cases hf : f = e
    · rw [hf, hself, hin]
    · rw [hother f hf]
  refine ⟨fun f => ?_, h.small, fun hsync hblocked => ?_, h.once, h.fresh⟩
  · rw [hbarrier f]
    by_cases hf : f = e
    · subst hf
      rw [hself, hwait]
      exact h.waits f
    · rw [hother f hf]
      exact h.waits f
  · obtain ⟨g, hg⟩ := hblocked
    obtain ⟨f, hf, hout⟩ := h.progress hsync ⟨g, (hbarrier g).symm.trans hg⟩
    refine ⟨f, ?_, (hbarrier f).trans hout⟩
    by_cases hfe : f = e
    · rw [hfe, hself, hrun]
    · rw [hother f hfe]
      exact hf

variable [DecidableEq T]

theorem Inv.threadStart (h : Inv s) (thread_id : T) : Inv (s.threadStart thread_id) := by
  rw [Timer.threadStart]
  split
  · exact h.run _ rfl rfl rfl
  · exact h

theorem Inv.threadResume (h : Inv s) (thread_id : T) : Inv (s.threadResume thread_id) := by
  rw [Timer.threadResume]
  split
  · exact h.run _ rfl rfl rfl
  · exact h

theorem Inv.threadStall (h : Inv s) (thread_id : T)
    (hgo : s.in_sync = false → (∃ e, (s.m_threads e).in_barrier = true) →
      ∃ f, s.findSmtThreadFromThread thread_id ≠ some f ∧ (s.m_threads f).running = true) :
    ∃ s', s.threadStall thread_id = .ok s' ∧ Inv s' := by
  rw [Timer.threadStall]
  split
  case h_1 e he =>
    have hself : (s.setRunning e false).m_threads e = { s.m_threads e with running := false } :=
      update_self e _ _
    have hother : ∀ f, f ≠ e → (s.setRunning e false).m_threads f = s.m_threads f :=
      fun f hf => update_of_ne hf _ _
    have hbarrier : ∀ f, ((s.setRunning e false).m_threads f).in_barrier =
        (s.m_threads f).in_barrier := by
      intro f
      by_cases hf : f = e
      · rw [hf, hself]
      · rw [hother f hf]
    refine signalBarrier_inv (fun f => ?_) h.small h.once h.fresh fun hsync hblocked => ?_
    · rw [hbarrier f]
      by_cases hf : f = e
      · subst hf
        rw [hself]
        exact h.waits f
      · rw [hother f hf]
        exact h.waits f
    · obtain ⟨g, hg⟩ := hblocked
      obtain ⟨f, hne, hf⟩ := hgo hsync ⟨g, (hbarrier g).symm.trans hg⟩
      refine ⟨f, ?_⟩
      rw [hother f fun hfe => hne (hfe ▸ he)]
      exact hf
  case h_2 he =>
    refine signalBarrier_inv h.waits h.small h.once h.fresh fun hsync hblocked => ?_
    obtain ⟨f, -, hf⟩ := hgo hsync hblocked
    exact ⟨f, hf⟩

omit [DecidableEq T] in
theorem Inv.disable (h : Inv s) : Inv s.disable := by
  have hinv : Inv { s with enabled := false } := ⟨h.waits, h.small, h.progress, h.once, h.fresh⟩
  have hstep : ∀ (l : List (Fin k)) (s : Timer k T C), Inv s →
      Inv (l.foldl (fun s e =>
        if (s.m_threads e).in_barrier then (s.setInBarrier e false).signalCond e else s) s) := by
    intro l
    induction l with
    | nil => exact fun _ h => h
    | cons e l ih =>
      intro s h
      refine ih _ ?_
      show Inv (if (s.m_threads e).in_barrier then (s.setInBarrier e false).signalCond e else s)
      split
      case isTrue hin =>
        refine h.woken (woken_signal nofun hin : Woken none _ _) ?_
        rw [signalCond]
        split <;> rfl
      case isFalse => exact h
  exact hstep _ _ hinv

/-! ### Migration -/

theorem depart_left (hwaits : s.Waits) {thread_id e}
    (he : s.findSmtThreadFromThread thread_id = some e) :
    ((s.depart thread_id).m_threads e).in_barrier = false ∧
    ((s.depart thread_id).m_threads e).waiting = 0 := by
  have hwait := hwaits e
  rw [depart, he]
  dsimp only
  split
  case isTrue hin =>
    rw [signal_self]
    have hin : (s.m_threads e).in_barrier = true := by simpa [setThread] using hin
    simp [setThread, hwait, hin]
  case isFalse hin =>
    have hin : (s.m_threads e).in_barrier = false := by simpa [setThread] using hin
    simp [setThread, hwait, hin]

theorem depart_stays {thread_id f} (hf : s.findSmtThreadFromThread thread_id ≠ some f) :
    (s.depart thread_id).m_threads f = s.m_threads f := by
  rw [depart]
  split
  case h_1 e he =>
    have hne : f ≠ e := fun h => hf (h ▸ he)
    dsimp only
    split
    · rw [signal_other _ hne]
      exact update_of_ne hne _ _
    · exact update_of_ne hne _ _
  case h_2 => rfl

theorem depart_rest (s : Timer k T C) (thread_id : T) :
    (s.depart thread_id).counts = s.counts ∧ (s.depart thread_id).core = s.core ∧
    (s.depart thread_id).in_sync = s.in_sync ∧ (s.depart thread_id).executed = s.executed ∧
    (s.depart thread_id).execute_thread = s.execute_thread := by
  rw [depart]
  split
  case h_1 =>
    dsimp only
    split
    · rw [signalCond]
      split <;> exact ⟨rfl, rfl, rfl, rfl, rfl⟩
    · exact ⟨rfl, rfl, rfl, rfl, rfl⟩
  case h_2 => exact ⟨rfl, rfl, rfl, rfl, rfl⟩

theorem waits_depart (hwaits : s.Waits) (thread_id : T) : (s.depart thread_id).Waits := by
  intro e
  by_cases he : s.findSmtThreadFromThread thread_id = some e
  · obtain ⟨hin, hwait⟩ := depart_left hwaits he
    rw [hin, hwait]
    rfl
  · rw [depart_stays he]
    exact hwaits e

variable [DecidableEq C]

omit [DecidableEq T] in
theorem arrive_status (s : Timer k T C) (thread_id : T) (core_id : Option C) (e : Fin k) :
    ((s.arrive thread_id core_id).m_threads e).in_barrier = (s.m_threads e).in_barrier ∧
    ((s.arrive thread_id core_id).m_threads e).waiting = (s.m_threads e).waiting ∧
    (((s.m_threads e).running = true ∨ s.findSmtThreadFromCore core_id = some e) →
      ((s.arrive thread_id core_id).m_threads e).running = true) := by
  rw [arrive]
  split
  case h_1 f hf =>
    by_cases he : e = f
    · subst he
      simp [setThread]
    · have hne : (s.findSmtThreadFromCore core_id) ≠ some e :=
        fun h => he (Option.some.inj (h.symm.trans hf))
      simp only [setThread, update_of_ne he, true_and]
      exact fun h => h.resolve_right hne
  case h_2 hnone => exact ⟨rfl, rfl, fun h => h.resolve_right (by simp [hnone])⟩

omit [DecidableEq T] in
theorem arrive_rest (s : Timer k T C) (thread_id : T) (core_id : Option C) :
    (s.arrive thread_id core_id).counts = s.counts ∧
    (s.arrive thread_id core_id).in_sync = s.in_sync ∧
    (s.arrive thread_id core_id).executed = s.executed ∧
    (s.arrive thread_id core_id).execute_thread = s.execute_thread := by
  rw [arrive]
  split <;> exact ⟨rfl, rfl, rfl, rfl⟩

theorem findSmtThreadFromCore_depart (s : Timer k T C) (thread_id : T) (core_id : Option C) :
    (s.depart thread_id).findSmtThreadFromCore core_id = s.findSmtThreadFromCore core_id := by
  rw [findSmtThreadFromCore, findSmtThreadFromCore, (depart_rest s thread_id).2.1]

theorem Inv.threadMigrate (h : Inv s) (thread_id : T) (core_id : Option C)
    (hgo : s.in_sync = false →
      (∃ e, s.findSmtThreadFromThread thread_id ≠ some e ∧ (s.m_threads e).in_barrier = true) →
      (∃ f, s.findSmtThreadFromThread thread_id ≠ some f ∧ (s.m_threads f).running = true ∧
        (s.m_threads f).in_barrier = false) ∨
      ∃ f, s.findSmtThreadFromCore core_id = some f ∧
        ((s.m_threads f).in_barrier = false ∨ s.findSmtThreadFromThread thread_id = some f)) :
    Inv (s.threadMigrate thread_id core_id) := by
  obtain ⟨hcounts, -, hsync, hexec, hthread⟩ := depart_rest s thread_id
  obtain ⟨hcounts', hsync', hexec', hthread'⟩ := arrive_rest (s.depart thread_id) thread_id core_id
  have hwaits := waits_depart h.waits thread_id
  have harrive := arrive_status (s.depart thread_id) thread_id core_id
  rw [Timer.threadMigrate]
  refine ⟨fun e => ?_, ?_, fun hs hblocked => ?_, ?_, fun hne => ?_⟩
  · obtain ⟨hin, hwait, -⟩ := harrive e
    rw [hin, hwait]
    exact hwaits e
  · rw [hcounts', hcounts]
    exact h.small
  · rw [hsync', hsync] at hs
    obtain ⟨e, he⟩ := hblocked
    rw [(harrive e).1] at he
    have hne : s.findSmtThreadFromThread thread_id ≠ some e := by
      intro hfind
      rw [(depart_left h.waits hfind).1] at he
      cases he
    rw [depart_stays hne] at he
    rcases hgo hs ⟨e, hne, he⟩ with ⟨f, hf, hrun, hout⟩ | ⟨f, hf, hout⟩
    · have hstays := depart_stays hf
      obtain ⟨hin, -, hrunning⟩ := harrive f
      exact ⟨f, hrunning (.inl (by rw [hstays]; exact hrun)), by rw [hin, hstays]; exact hout⟩
    · obtain ⟨hin, -, hrunning⟩ := harrive f
      refine ⟨f, hrunning (.inr ?_), ?_⟩
      · rw [findSmtThreadFromCore_depart]
        exact hf
      · rw [hin]
        by_cases hfind : s.findSmtThreadFromThread thread_id = some f
        · exact (depart_left h.waits hfind).1
        · rw [depart_stays hfind]
          exact hout.resolve_right hfind
  · rw [hexec', hexec]
    exact h.once
  · rw [hthread', hthread] at hne
    rw [hexec', hexec]
    exact h.fresh hne

/-! ### Runs -/

/-- The calls after which somebody goes on: a stalled thread leaves a running one while the barrier
is occupied, and a migrating one leaves or brings a running thread outside it. -/
def Orderly (client : Bool) (s : Timer k T C) : Call k T C → Prop
  | .simulate e _ => 128 < s.counts.surplus e → s.enabled = true →
    (s.m_threads e).in_barrier = false ∧
    (s.in_sync = false → ∃ f, (s.m_threads f).running = true)
  | .resume e _ => client = false → s.execute_thread = some e → s.Resumable e
  | .syncReturn e => s.Resumable e
  | .threadExit thread_id | .threadStall thread_id =>
    s.in_sync = false → (∃ e, (s.m_threads e).in_barrier = true) →
    ∃ f, s.findSmtThreadFromThread thread_id ≠ some f ∧ (s.m_threads f).running = true
  | .threadMigrate thread_id core_id => s.in_sync = false →
    (∃ e, s.findSmtThreadFromThread thread_id ≠ some e ∧ (s.m_threads e).in_barrier = true) →
    (∃ f, s.findSmtThreadFromThread thread_id ≠ some f ∧ (s.m_threads f).running = true ∧
      (s.m_threads f).in_barrier = false) ∨
    ∃ f, s.findSmtThreadFromCore core_id = some f ∧
      ((s.m_threads f).in_barrier = false ∨ s.findSmtThreadFromThread thread_id = some f)
  | _ => True

def OrderlyStep (client : Bool) (s s' : Timer k T C) : Prop :=
  ∃ call, s.Allowed call ∧ s.Orderly client call ∧ s.exec client call = .ok s'

theorem Inv.exec (h : Inv s) {client call} (hallowed : s.Allowed call)
    (horderly : s.Orderly client call) : Progresses (s.exec client call) := by
  cases call with
  | simulate e counts => exact h.simulate client hallowed e horderly
  | resume e counts => exact progresses_of_ok (h.resume client hallowed.2 e horderly)
  | syncReturn e => exact progresses_of_ok (h.syncReturn e horderly)
  | threadStart thread_id => exact progresses_of_ok ⟨_, rfl, h.threadStart thread_id⟩
  | threadExit thread_id
  | threadStall thread_id => exact progresses_of_ok (h.threadStall thread_id horderly)
  | threadResume thread_id => exact progresses_of_ok ⟨_, rfl, h.threadResume thread_id⟩
  | threadMigrate thread_id core_id =>
    exact progresses_of_ok ⟨_, rfl, h.threadMigrate thread_id core_id horderly⟩
  | enable => exact progresses_of_ok ⟨_, rfl, h.waits, h.small, h.progress, h.once, h.fresh⟩
  | disable => exact progresses_of_ok ⟨_, rfl, h.disable⟩
  | pushInstructions counts =>
    exact progresses_of_ok ⟨_, rfl, h.waits, hallowed, h.progress, h.once, h.fresh⟩

omit [DecidableEq T] [DecidableEq C] in
theorem Init.inv (h : Init s) : Inv s := by
  refine ⟨fun e => ?_, h.small, fun _ hin => ?_, ?_, fun _ => h.executed⟩
  · rw [h.threads e]
    rfl
  · obtain ⟨e, he⟩ := hin
    rw [h.threads e] at he
    cases he
  · rw [h.executed]
    exact Nat.zero_le 1

theorem runs_inv {client} (h : Reachable Init (OrderlyStep client) s) : Inv s := by
  refine h.invariant (fun _ hs => hs.inv) fun s t hs hst => ?_
  obtain ⟨call, hallowed, horderly, ht⟩ := hst
  exact (hs.exec hallowed horderly).2 t ht

/-- A blocked thread has a running thread outside the barrier, one thread executes in each
round, and every release returns. -/
theorem somebody_goes_on {client : Bool} (h : Reachable Init (OrderlyStep client) s) :
    (s.in_sync = false → (∃ e, 0 < (s.m_threads e).waiting) →
      ∃ f, (s.m_threads f).running = true ∧ (s.m_threads f).in_barrier = false) ∧
    s.executed ≤ 1 ∧
    ∀ call, s.Allowed call → s.Orderly client call → s.exec client call ≠ .error .diverges := by
  have hinv := runs_inv h
  refine ⟨fun hsync hblocked => ?_, hinv.once, fun call ha ho => (hinv.exec ha ho).1⟩
  obtain ⟨e, he⟩ := hblocked
  refine hinv.progress hsync ⟨e, ?_⟩
  by_contra hin
  rw [hinv.waits e, if_neg hin] at he
  exact Nat.lt_irrefl 0 he

/-- Hardware threads that all want more instructions. -/
def idle (k : Nat) : Timer k Nat Nat where
  m_threads _ := ⟨none, false, false, false, 0⟩
  core := Fin.val
  in_sync := false
  enabled := true
  execute_thread := (List.finRange k).head?
  counts := ⟨fun _ => 200, fun _ => false⟩
  woken _ := 0
  syncing := []
  executed := 0

theorem idle_small (k : Nat) : (idle k).counts.Small :=
  fun _ => (by decide : (200 : UInt64).toNat < 2 ^ 63)

theorem idle_init (h : k < 256) : (idle k).Init :=
  ⟨h, fun _ => rfl, rfl, rfl, idle_small k, fun _ => rfl, rfl, rfl⟩

theorem somebody_goes_on_twoThreads : ∃ s : Timer 2 Nat Nat,
    0 < (s.m_threads 0).waiting ∧
    (∃ f, (s.m_threads f).running = true ∧ (s.m_threads f).in_barrier = false) ∧
    s.exec true (.threadStall 7) ≠ .error .diverges := by
  have h0 : Reachable Init (OrderlyStep true) (idle 2) := .init (idle_init (by decide))
  have h1 := h0.step ⟨.threadMigrate 0 (some 0), trivial, fun _ h => absurd h (by decide), rfl⟩
  have h2 := h1.step ⟨.threadMigrate 1 (some 1), trivial, fun _ h => absurd h (by decide), rfl⟩
  have h3 := h2.step ⟨.simulate 0 (idle 2).counts, idle_small 2,
    fun _ _ => ⟨rfl, fun _ => ⟨1, by decide⟩⟩, rfl⟩
  obtain ⟨hgoes, -, hreturns⟩ := somebody_goes_on h3
  exact ⟨_, by decide, hgoes rfl ⟨0, by decide⟩, hreturns (.threadStall 7) trivial
    fun _ _ => ⟨1, by decide⟩⟩

/-- A thread is migrated while it is in the global barrier; and the last thread outside the barrier
is migrated away from a blocked one. -/
theorem migration_strands :
    (∃ (s : Timer 1 Nat Nat) (call : Call 1 Nat Nat), Reachable Init (Step true) s ∧
      s.Allowed call ∧ s.exec true call = .error .diverges) ∧
    ∃ s : Timer 2 Nat Nat, Reachable Init (Step true) s ∧ s.in_sync = false ∧
      0 < (s.m_threads 0).waiting ∧
      ¬ ∃ f, (s.m_threads f).running = true ∧ (s.m_threads f).in_barrier = false := by
  refine ⟨?_, ?_⟩
  · have h0 : Reachable Init (Step true) (idle 1) := .init (idle_init (by decide))
    have h1 := h0.step ⟨.threadMigrate 0 (some 0), trivial, rfl⟩
    have h2 := h1.step ⟨.simulate 0 (idle 1).counts, idle_small 1, rfl⟩
    have h3 := h2.step ⟨.threadMigrate 0 none, trivial, rfl⟩
    exact ⟨_, .syncReturn 0, h3, List.mem_singleton.mpr rfl, rfl⟩
  · have h0 : Reachable Init (Step true) (idle 2) := .init (idle_init (by decide))
    have h1 := h0.step ⟨.threadMigrate 0 (some 0), trivial, rfl⟩
    have h2 := h1.step ⟨.threadMigrate 1 (some 1), trivial, rfl⟩
    have h3 := h2.step ⟨.simulate 0 (idle 2).counts, idle_small 2, rfl⟩
    have h4 := h3.step ⟨.threadMigrate 1 none, trivial, rfl⟩
    exact ⟨_, h4, rfl, by decide, by decide⟩

end Timer
end Sniper.Timing.Smt
