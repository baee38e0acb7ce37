import Mathlib.Tactic.Ring
import Sniper.Timing.SmtTimer

/-! # The release of the SMT barrier

`barrierRelease` wakes threads of the core and returns as soon as it has counted a running
one; that thread then goes on, so with a thread of the core running a release always returns
and leaves somebody outside the barrier.
-/
namespace Sniper.Timing.Smt

variable {k : Nat} {T C : Type}

namespace Timer

/-! ### Wake-ups -/

/-- Some waiting threads other than `except` have been woken. -/
structure Woken (except : Option (Fin k)) (s s' : Timer k T C) : Prop where
  running : ∀ e, (s'.m_threads e).running = (s.m_threads e).running
  status : ∀ e,
    ((s'.m_threads e).in_barrier = (s.m_threads e).in_barrier ∧
      (s'.m_threads e).waiting = (s.m_threads e).waiting) ∨
    (except ≠ some e ∧ (s.m_threads e).in_barrier = true ∧
      (s'.m_threads e).in_barrier = false ∧
      (s'.m_threads e).waiting = (s.m_threads e).waiting - 1)
  counts : s'.counts = s.counts
  in_sync : s'.in_sync = s.in_sync
  executed : s'.executed = s.executed

variable {except : Option (Fin k)} {s s' s'' : Timer k T C}

theorem Woken.refl (s : Timer k T C) : Woken except s s :=
  ⟨fun _ => rfl, fun _ => .inl ⟨rfl, rfl⟩, rfl, rfl, rfl⟩

theorem Woken.trans (h : Woken except s s') (h' : Woken except s' s'') : Woken except s s'' := by
  refine ⟨fun e => (h'.running e).trans (h.running e), fun e => ?_, h'.counts.trans h.counts,
    h'.in_sync.trans h.in_sync, h'.executed.trans h.executed⟩
  rcases h.status e with ⟨hb, hw⟩ | ⟨hne, hb, hb', hw⟩
  · rw [← hb, ← hw]
    exact h'.status e
  · rcases h'.status e with ⟨hb₂, hw₂⟩ | ⟨-, hb₂, -, -⟩
    · exact .inr ⟨hne, hb, hb₂.trans hb', hw₂.trans hw⟩
    · rw [hb'] at hb₂
      cases hb₂

theorem Woken.in_barrier (h : Woken except s s') {e} (he : (s'.m_threads e).in_barrier = true) :
    (s.m_threads e).in_barrier = true := by
  rcases h.status e with ⟨hb, -⟩ | ⟨-, hb, -, -⟩
  · exact hb ▸ he
  · exact hb

theorem Woken.outside (h : Woken except s s') {e} (he : (s.m_threads e).in_barrier = false) :
    (s'.m_threads e).in_barrier = false := by
  rw [← Bool.not_eq_true]
  intro hb
  rw [h.in_barrier hb] at he
  cases he

theorem signal_self (s : Timer k T C) (e : Fin k) :
    ((s.setInBarrier e false).signalCond e).m_threads e =
      { s.m_threads e with in_barrier := false, waiting := (s.m_threads e).waiting - 1 } := by
  rw [signalCond]
  split
  case isTrue hw =>
    have hw : (s.m_threads e).waiting = 0 := by simpa [setInBarrier, setThread] using hw
    simp [setInBarrier, setThread, hw]
  case isFalse => simp [setInBarrier, setThread]

theorem signal_other (s : Timer k T C) {e f} (hf : f ≠ e) :
    ((s.setInBarrier e false).signalCond e).m_threads f = s.m_threads f := by
  rw [signalCond]
  split <;> simp [setInBarrier, setThread, hf]

theorem woken_signal {e} (hne : except ≠ some e) (hb : (s.m_threads e).in_barrier = true) :
    Woken except s ((s.setInBarrier e false).signalCond e) := by
  have hself := signal_self s e
  refine ⟨fun f => ?_, fun f => ?_, ?_, ?_, ?_⟩
  · by_cases hf : f = e
    · rw [hf, hself]
    · rw [signal_other s hf]
  · by_cases hf : f = e
    · subst hf
      rw [hself]
      exact .inr ⟨hne, hb, rfl, rfl⟩
    · rw [signal_other s hf]
      exact .inl ⟨rfl, rfl⟩
  all_goals
    rw [signalCond]
    split <;> rfl

theorem Woken.waiting (h : Woken except s s') {e}
    (hw : (s.m_threads e).waiting = if (s.m_threads e).in_barrier then 1 else 0) :
    (s'.m_threads e).waiting = if (s'.m_threads e).in_barrier then 1 else 0 := by
  rcases h.status e with ⟨hb, hw'⟩ | ⟨-, hb, hb', hw'⟩
  · rw [hw', hb, hw]
  · rw [hw', hb', hw, hb]
    rfl

/-! ### A release -/

/-- A running thread is let go on: it is outside the barrier, or it is the caller. -/
def Passing (thread_id : Option (Fin k)) (r : Release k T C) : Prop :=
  ∃ f, (r.timer.m_threads f).running = true ∧
    ((r.timer.m_threads f).in_barrier = false ∨ r.release_me = true ∧ thread_id = some f)

/-- What the loops of a release keep: threads are woken, and whoever is counted goes on. -/
structure Releases (thread_id : Option (Fin k)) (r r' : Release k T C) : Prop where
  woken : Woken thread_id r.timer r'.timer
  me : r.release_me = true → r'.release_me = true
  count : r.num_running ≤ r'.num_running
  quiet : r'.num_running = r.num_running → ∀ e, (r.timer.m_threads e).running = true →
    (r'.timer.m_threads e).in_barrier = (r.timer.m_threads e).in_barrier
  passing : (0 < r.num_running → Passing thread_id r) → 0 < r'.num_running → Passing thread_id r'

variable {thread_id : Option (Fin k)} {r r' r'' : Release k T C}

theorem Passing.woken (h : Passing thread_id r) (hw : Woken thread_id r.timer r'.timer)
    (hme : r.release_me = true → r'.release_me = true) : Passing thread_id r' := by
  obtain ⟨f, hrun, hf⟩ := h
  refine ⟨f, (hw.running f).trans hrun, ?_⟩
  rcases hf with hout | ⟨hr, hid⟩
  · exact .inl (hw.outside hout)
  · exact .inr ⟨hme hr, hid⟩

theorem Releases.refl (r : Release k T C) : Releases thread_id r r :=
  ⟨.refl _, id, Nat.le_refl _, fun _ _ _ => rfl, id⟩

theorem Releases.trans (h : Releases thread_id r r') (h' : Releases thread_id r' r'') :
    Releases thread_id r r'' := by
  refine ⟨h.woken.trans h'.woken, fun hr => h'.me (h.me hr), Nat.le_trans h.count h'.count,
    fun hn e he => ?_, fun hp => h'.passing (h.passing hp)⟩
  have h₁ := h.count
  have h₂ := h'.count
  have he' := (h.woken.running e).trans he
  exact (h'.quiet (by omega) e he').trans (h.quiet (by omega) e he)

theorem Woken.setExecute (h : Woken except s s') (e : Option (Fin k)) :
    Woken except s (s'.setExecute e) :=
  ⟨h.running, h.status, h.counts, h.in_sync, h.executed⟩

theorem Releases.setExecute (h : Releases thread_id r r') (e : Option (Fin k)) :
    Releases thread_id r { r' with timer := r'.timer.setExecute e } :=
  ⟨h.woken.setExecute e, h.me, h.count, h.quiet, h.passing⟩

theorem count_timer (r : Release k T C) (e : Fin k) : (r.count e).timer = r.timer := by
  rw [Release.count]
  split <;> rfl

theorem count_pos {e} (hrun : (r.timer.m_threads e).running = true) :
    0 < (r.count e).num_running := by
  rw [Release.count, if_pos hrun]
  exact Nat.succ_pos _

theorem wake_num_running (thread_id : Option (Fin k)) (r : Release k T C) (e : Fin k) :
    (r.wake thread_id e).num_running = r.num_running := by
  rw [Release.wake]
  split <;> rfl

theorem releases_count {e} (hb : (r.timer.m_threads e).in_barrier = false) :
    Releases thread_id r (r.count e) := by
  rw [Release.count]
  split
  case isTrue hrun =>
    exact ⟨.refl _, id, Nat.le_succ _, fun _ _ _ => rfl, fun _ _ => ⟨e, hrun, .inl hb⟩⟩
  case isFalse => exact .refl _

theorem woken_wake {e} (hb : (r.timer.m_threads e).in_barrier = true) :
    Woken thread_id r.timer (r.wake thread_id e).timer := by
  rw [Release.wake]
  split
  case isTrue => exact .refl _
  case isFalse hid => exact woken_signal hid hb

theorem wake_me (thread_id : Option (Fin k)) (r : Release k T C) (e : Fin k) :
    r.release_me = true → (r.wake thread_id e).release_me = true := by
  rw [Release.wake]
  split
  · exact fun _ => rfl
  · exact id

theorem releases_wake {e} (hb : (r.timer.m_threads e).in_barrier = true)
    (hrun : (r.timer.m_threads e).running = true) :
    Releases thread_id r
      (Release.wake { r with num_running := r.num_running + 1 } thread_id e) := by
  have hcount := wake_num_running thread_id { r with num_running := r.num_running + 1 } e
  refine ⟨woken_wake (r := { r with num_running := r.num_running + 1 }) hb,
    wake_me thread_id { r with num_running := r.num_running + 1 } e, ?_, fun hn => ?_,
    fun _ _ => ?_⟩
  · rw [hcount]
    exact Nat.le_succ _
  · rw [hcount] at hn
    exact absurd hn (Nat.succ_ne_self _)
  · rw [Release.wake]
    split
    case isTrue hid => exact ⟨e, hrun, .inr ⟨rfl, hid⟩⟩
    case isFalse hid =>
      have hself := signal_self r.timer e
      refine ⟨e, ?_, .inl ?_⟩
      · exact (congrArg SmtThread.running hself).trans hrun
      · exact congrArg SmtThread.in_barrier hself

theorem releases_wake_stalled {e} (hb : (r.timer.m_threads e).in_barrier = true)
    (hrun : (r.timer.m_threads e).running = false) : Releases thread_id r (r.wake thread_id e) := by
  have hcount := wake_num_running thread_id r e
  refine ⟨woken_wake hb, wake_me thread_id r e, Nat.le_of_eq hcount.symm, fun _ f hf => ?_,
    fun hp hpos => ?_⟩
  · have hne : f ≠ e := by
      rintro rfl
      rw [hrun] at hf
      cases hf
    rw [Release.wake]
    split
    · rfl
    · exact congrArg SmtThread.in_barrier (signal_other r.timer hne)
  · rw [hcount] at hpos
    exact (hp hpos).woken (woken_wake hb) (wake_me thread_id r e)

theorem releases_count_wake {e} (hb : (r.timer.m_threads e).in_barrier = true) :
    Releases thread_id r ((r.count e).wake thread_id e) := by
  rw [Release.count]
  split
  case isTrue hrun => exact releases_wake hb hrun
  case isFalse hrun => exact releases_wake_stalled hb (Bool.not_eq_true _ ▸ hrun)

theorem wantedLoop_releases (release_all : Bool) (thread_id : Option (Fin k)) {l}
    (hall : release_all = true ∨ ∀ e, (r.timer.m_threads e).running = true →
      (r.timer.m_threads e).in_barrier = true) :
    Releases thread_id r (wantedLoop release_all thread_id l r) ∧
    ∀ e ∈ l, (r.timer.m_threads e).running = true →
      0 < (wantedLoop release_all thread_id l r).num_running ∨
      ((wantedLoop release_all thread_id l r).timer.m_threads e).in_barrier = true := by
  induction l generalizing r with
  | nil => exact ⟨.refl _, nofun⟩
  | cons a l ih =>
    rw [wantedLoop]
    split
    case isTrue hout =>
      have hcount : Releases thread_id r (r.count a) := releases_count hout
      obtain ⟨hrest, hleft⟩ := ih (r := r.count a) (by rw [count_timer]; exact hall)
      refine ⟨hcount.trans hrest, fun e he hrun => ?_⟩
      rcases List.mem_cons.mp he with rfl | he
      · exact .inl (Nat.lt_of_lt_of_le (count_pos hrun) hrest.count)
      · exact hleft e he ((hcount.woken.running e).trans hrun)
    case isFalse hin =>
      have hin : (r.timer.m_threads a).in_barrier = true := Bool.not_eq_false _ ▸ hin
      split
      case isTrue =>
        obtain ⟨hrest, hleft⟩ := ih hall
        refine ⟨hrest, fun e he hrun => ?_⟩
        rcases List.mem_cons.mp he with rfl | he
        · -- unless the loop counted somebody, it left the thread where it was
          by_cases hpos : 0 < (wantedLoop release_all thread_id l r).num_running
          · exact .inl hpos
          · have hle := hrest.count
            exact .inr ((hrest.quiet (by omega) e hrun).trans hin)
        · exact hleft e he hrun
      case isFalse =>
        have hwake : Releases thread_id r ((r.count a).wake thread_id a) := releases_count_wake hin
        have hpos : (r.timer.m_threads a).running = true →
            0 < ((r.count a).wake thread_id a).num_running := by
          intro hrun
          rw [wake_num_running]
          exact count_pos hrun
        dsimp only
        split
        case isTrue hrelease =>
          obtain ⟨hrest, hleft⟩ := ih (r := (r.count a).wake thread_id a) (.inl hrelease)
          refine ⟨hwake.trans hrest, fun e he hrun => ?_⟩
          rcases List.mem_cons.mp he with rfl | he
          · exact .inl (Nat.lt_of_lt_of_le (hpos hrun) hrest.count)
          · exact hleft e he ((hwake.woken.running e).trans hrun)
        case isFalse hrelease =>
          refine ⟨hwake.setExecute _, fun e _ hrun => ?_⟩
          by_cases hnum : 0 < ((r.count a).wake thread_id a).num_running
          · exact .inl hnum
          · have hle := hwake.count
            have hin := hall.resolve_left hrelease e hrun
            exact .inr ((hwake.quiet (by omega) e hrun).trans hin)

theorem surplusLoop_releases (release_all : Bool) (thread_id : Option (Fin k)) (limit : UInt64)
    (l : List (Fin k)) (r : Release k T C) :
    Releases thread_id r (surplusLoop release_all thread_id limit l r) ∧
    (r.num_running < (surplusLoop release_all thread_id limit l r).num_running ∨
      surplusLoop release_all thread_id limit l r = r ∧
      ∀ e ∈ l, (r.timer.m_threads e).in_barrier = true → (r.timer.m_threads e).running = true →
        limit ≤ r.timer.counts.surplus e) := by
  induction l generalizing r with
  | nil => exact ⟨.refl _, .inr ⟨rfl, nofun⟩⟩
  | cons a l ih =>
    rw [surplusLoop]
    split
    case isTrue ha =>
      have hwake : Releases thread_id r
          (Release.wake { r with num_running := r.num_running + 1 } thread_id a) :=
        releases_wake ha.1 ha.2.1
      have hcount : r.num_running <
          (Release.wake { r with num_running := r.num_running + 1 } thread_id a).num_running := by
        rw [wake_num_running]
        exact Nat.lt_succ_self _
      dsimp only
      split
      · obtain ⟨hrest, -⟩ :=
          ih (Release.wake { r with num_running := r.num_running + 1 } thread_id a)
        exact ⟨hwake.trans hrest, .inl (Nat.lt_of_lt_of_le hcount hrest.count)⟩
      · exact ⟨hwake.setExecute _, .inl hcount⟩
    case isFalse ha =>
      obtain ⟨hrest, hfound⟩ := ih r
      refine ⟨hrest, hfound.imp_right fun h => ⟨h.1, fun e he hb hr => ?_⟩⟩
      rcases List.mem_cons.mp he with rfl | he
      · exact UInt64.not_lt.mp fun hlt => ha ⟨hb, hr, hlt⟩
      · exact h.2 e he hb hr

theorem forceLoop_of_pos (release_all : Bool) (rounds : Nat) (limit : UInt64)
    (h : 0 < r.num_running) : forceLoop release_all thread_id rounds limit r = some r := by
  have h : ¬ r.num_running = 0 := Nat.ne_of_gt h
  cases rounds with
  | zero | succ rounds => rw [forceLoop, if_neg h]

theorem forceLoop_releases (release_all : Bool) (thread_id : Option (Fin k)) (rounds : Nat)
    (limit : UInt64) (hlimit : limit.toNat * 2 ^ rounds = 2 ^ 64) (hrounds : 0 < rounds)
    (hsome : 0 < r.num_running ∨ ∃ e, (r.timer.m_threads e).in_barrier = true ∧
      (r.timer.m_threads e).running = true ∧ (r.timer.counts.surplus e).toNat < 2 ^ 63) :
    ∃ r', forceLoop release_all thread_id rounds limit r = some r' ∧
      Releases thread_id r r' ∧ 0 < r'.num_running := by
  induction rounds generalizing limit r with
  | zero => exact absurd hrounds (Nat.lt_irrefl 0)
  | succ rounds ih =>
    rw [forceLoop]
    split
    case isFalse hnum => exact ⟨r, rfl, .refl _, Nat.pos_of_ne_zero hnum⟩
    case isTrue hnum =>
      obtain ⟨e, hb, hrun, hsmall⟩ := hsome.resolve_left (by omega)
      obtain ⟨hround, hfound⟩ :=
        surplusLoop_releases release_all thread_id limit (List.finRange k) r
      rcases hfound with hfound | ⟨hsame, hnone⟩
      · have hpos := Nat.lt_of_le_of_lt (Nat.zero_le _) hfound
        exact ⟨_, forceLoop_of_pos _ _ _ hpos, hround, hpos⟩
      · rw [hsame]
        have hle := UInt64.le_iff_toNat_le.mp (hnone e (List.mem_finRange e) hb hrun)
        have hdouble : limit.toNat * 2 * 2 ^ rounds = 2 ^ 64 := by
          rw [← hlimit, Nat.pow_succ]
          ring
        have hrounds : 0 < rounds := by
          rcases Nat.eq_zero_or_pos rounds with rfl | h
          · omega
          · exact h
        refine ih _ ?_ hrounds (.inr ⟨e, hb, hrun, hsmall⟩)
        have hshift : (limit <<< 1).toNat = limit.toNat * 2 := by
          rw [UInt64.toNat_shiftLeft]
          show limit.toNat <<< 1 % 2 ^ 64 = _
          rw [Nat.shiftLeft_eq, Nat.mod_eq_of_lt (by omega)]
        rw [hshift]
        exact hdouble

theorem barrierRelease_returns (release_all : Bool) (thread_id : Option (Fin k))
    (hall : release_all = true ∨ ∀ e, (s.m_threads e).running = true →
      (s.m_threads e).in_barrier = true)
    (hsmall : s.counts.Small) (hrun : ∃ e, (s.m_threads e).running = true) :
    ∃ me s', s.barrierRelease release_all thread_id = some (me, s') ∧
      Woken thread_id { s with executed := 0 } s' ∧
      ∃ f, (s'.m_threads f).running = true ∧
        ((s'.m_threads f).in_barrier = false ∨ me = true ∧ thread_id = some f) := by
  obtain ⟨e, hrun⟩ := hrun
  let r₀ : Release k T C := ⟨{ s.setExecute thread_id with executed := 0 }, false, 0⟩
  obtain ⟨hwanted, hleft⟩ :=
    wantedLoop_releases release_all thread_id (r := r₀) (l := List.finRange k) hall
  obtain ⟨r, hforce, hforced, hpos⟩ := forceLoop_releases release_all thread_id 64 1 rfl
    (by decide) ((hleft e (List.mem_finRange e) hrun).imp_right fun hb =>
      ⟨e, hb, (hwanted.woken.running e).trans hrun, hwanted.woken.counts ▸ hsmall e⟩)
  have hreleases := hwanted.trans hforced
  refine ⟨r.release_me, r.timer, ?_, ?_, ?_⟩
  · rw [barrierRelease]
    dsimp only
    rw [hforce]
    rfl
  · have hw := hreleases.woken
    exact ⟨hw.running, hw.status, hw.counts, hw.in_sync, hw.executed⟩
  · exact hreleases.passing (fun h => absurd h (Nat.lt_irrefl 0)) hpos

end Timer
end Sniper.Timing.Smt
