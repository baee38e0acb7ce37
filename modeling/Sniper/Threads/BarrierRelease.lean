import Sniper.Threads.BarrierServer

/-! # What a release does

`doRelease` and the loop over the cores in `barrierRelease`, each described once, so that the
properties of the barrier do not unfold them.
-/
namespace Sniper.Threads.Barrier.Server
open Function

variable {n : Nat} {T : Type} {s : Server n T}

/-! ### `doRelease` -/

theorem doRelease_induction {P : Server n T → Prop} (n_left : Int) (h : P s)
    (hpop : ∀ (s : Server n T) l c, P s → s.m_to_release = l ++ [c] →
      P (signalCond { s with m_to_release := l } c)) : P (s.doRelease n_left) := by
  have hloop : ∀ size n_left (s : Server n T), P s → P (s.releaseLoop size n_left) := by
    intro size
    induction size with
    | zero => exact fun _ _ h => h
    | succ size ih =>
      intro n_left s h
      rw [releaseLoop]
      split
      · exact h
      · split
        · exact h
        · rename_i c hc
          obtain ⟨l, hl⟩ := List.getLast?_eq_some_iff.mp hc
          have hdrop : s.m_to_release.dropLast = l := by rw [hl, List.dropLast_concat]
          rw [hdrop]
          exact ih _ _ (hpop s l c h hl)
  exact hloop _ _ _ h

/-- The fields that decide who has arrived. -/
structure SameClocks (s s' : Server n T) : Prop where
  interval : s'.m_barrier_interval = s.m_barrier_interval
  next : s'.m_next_barrier_time = s.m_next_barrier_time
  clock : s'.m_local_clock_list = s.m_local_clock_list
  acquire : s'.m_barrier_acquire_list = s.m_barrier_acquire_list
  group : s'.m_core_group = s.m_core_group
  thread : s'.m_core_thread = s.m_core_thread
  fastforward : s'.m_fastforward = s.m_fastforward
  disable : s'.m_disable = s.m_disable

theorem doRelease_same (s : Server n T) (n_left : Int) : SameClocks s (s.doRelease n_left) :=
  doRelease_induction n_left ⟨rfl, rfl, rfl, rfl, rfl, rfl, rfl, rfl⟩
    fun _ _ _ h _ => ⟨h.interval, h.next, h.clock, h.acquire, h.group, h.thread, h.fastforward,
      h.disable⟩

theorem doRelease_of_nil (h : s.m_to_release = []) (n_left : Int) : s.doRelease n_left = s := by
  rw [doRelease, h]; rfl

theorem mem_cond_of_doRelease {n_left : Int} {c : Fin n} {t : T}
    (h : t ∈ (s.doRelease n_left).m_core_cond c) : t ∈ s.m_core_cond c := by
  refine doRelease_induction (P := fun s' => t ∈ s'.m_core_cond c → t ∈ s.m_core_cond c) n_left id
    (fun s' l d ih _ hd => ih ?_) h
  have hd : t ∈ update s'.m_core_cond d (s'.m_core_cond d).tail c := hd
  by_cases hc : c = d
  · subst hc
    rw [update_self] at hd
    exact List.mem_of_mem_tail hd
  · rwa [update_of_ne hc] at hd

/-! ### The loop over the cores -/

variable [DecidableEq T]

/-- The core is released, and its thread is not the caller. -/
def dueOther (s : Server n T) (caller_id : Option T) (c : Fin n) : Bool :=
  s.due c && !decide (s.m_core_thread c = caller_id)

/-- The thread of a released core is the caller. -/
def dueCaller (s : Server n T) (caller_id : Option T) (c : Fin n) : Bool :=
  s.due c && decide (s.m_core_thread c = caller_id)

theorem foldl_releaseCore {caller_id} {l : List (Fin n)} (hl : l.Nodup) (s : Server n T)
    (resumed must_wait : Bool) :
    l.foldl (releaseCore caller_id) ⟨s, resumed, must_wait⟩ =
      ⟨{ s with
          m_barrier_acquire_list := fun c =>
            s.m_barrier_acquire_list c && !(decide (c ∈ l) && s.due c)
          m_to_release := s.m_to_release ++ l.filter (s.dueOther caller_id) },
        resumed || l.any s.due, must_wait && !l.any (s.dueCaller caller_id)⟩ := by
  induction l generalizing s resumed must_wait with
  | nil => simp
  | cons a l ih =>
    obtain ⟨ha, hl⟩ := List.nodup_cons.mp hl
    -- releasing `a` changes nothing for the cores that come after it
    have hlater : ∀ (s' : Server n T), s'.m_local_clock_list = s.m_local_clock_list →
        s'.m_next_barrier_time = s.m_next_barrier_time → s'.m_core_thread = s.m_core_thread →
        s'.m_barrier_acquire_list = update s.m_barrier_acquire_list a false →
        ∀ c, c ≠ a → s'.due c = s.due c ∧ s'.dueOther caller_id c = s.dueOther caller_id c ∧
          s'.dueCaller caller_id c = s.dueCaller caller_id c := by
      intro s' h1 h2 h3 h4 c hc
      have hdue : s'.due c = s.due c := by
        simp only [due, h1, h2, h4, update_of_ne hc]
      exact ⟨hdue, by simp only [dueOther, hdue, h3], by simp only [dueCaller, hdue, h3]⟩
    have hne : ∀ c ∈ l, c ≠ a := fun c hc he => ha (he ▸ hc)
    rw [List.foldl_cons, releaseCore]
    split
    case isFalse hd =>
      rw [ih hl]
      have ho : s.dueOther caller_id a = false := by simp [dueOther, hd]
      have hc : s.dueCaller caller_id a = false := by simp [dueCaller, hd]
      simp only [List.filter_cons, ho, List.any_cons, hd, hc, Bool.false_or]
      congr 2
      funext c
      by_cases hca : c = a
      · subst hca; simp [hd]
      · simp [hca]
    case isTrue hd =>
      have hacq : ∀ (s' : Server n T),
          s'.m_barrier_acquire_list = update s.m_barrier_acquire_list a false →
          (∀ c, c ≠ a → s'.due c = s.due c) → (fun c => s'.m_barrier_acquire_list c &&
            !(decide (c ∈ l) && s'.due c)) = fun c =>
              s.m_barrier_acquire_list c && !(decide (c ∈ a :: l) && s.due c) := by
        intro s' h4 hs'
        funext c
        by_cases hca : c = a
        · subst hca; simp [h4, hd]
        · simp [h4, hca, hs' c hca]
      dsimp only
      split
      case isTrue ht =>
        rw [ih hl]
        have ho : s.dueOther caller_id a = false := by simp [dueOther, ht]
        have hc : s.dueCaller caller_id a = true := by simp [dueCaller, hd, ht]
        have hs' := hlater { s with
          m_barrier_acquire_list := update s.m_barrier_acquire_list a false }
          rfl rfl rfl rfl
        simp only [hacq _ rfl fun c hc => (hs' c hc).1, List.filter_cons, ho, List.any_cons, hd, hc,
          List.filter_congr fun c hc => (hs' c (hne c hc)).2.1]
        simp
      case isFalse ht =>
        rw [ih hl]
        have ho : s.dueOther caller_id a = true := by simp [dueOther, hd, ht]
        have hc : s.dueCaller caller_id a = false := by simp [dueCaller, ht]
        have hs' := hlater { s with
          m_barrier_acquire_list := update s.m_barrier_acquire_list a false
          m_to_release := s.m_to_release ++ [a] } rfl rfl rfl rfl
        have hany : l.any (dueCaller { s with
            m_barrier_acquire_list := update s.m_barrier_acquire_list a false
            m_to_release := s.m_to_release ++ [a] } caller_id) = l.any (s.dueCaller caller_id) := by
          rw [Bool.eq_iff_iff, List.any_eq_true, List.any_eq_true]
          exact exists_congr fun c => and_congr_right fun hc => by rw [(hs' c (hne c hc)).2.2]
        simp only [hacq _ rfl fun c hc => (hs' c hc).1, List.filter_cons, ho, List.any_cons, hd, hc,
          List.filter_congr fun c hc => (hs' c (hne c hc)).2.1, hany]
        simp

theorem count_filter_finRange (p : Fin n → Bool) (c : Fin n) :
    ((List.finRange n).filter p).count c = if p c then 1 else 0 := by
  rw [((List.nodup_finRange n).filter p).count]
  simp

theorem releaseRound_eq (s : Server n T) (caller_id : Option T) :
    s.releaseRound caller_id =
      ⟨{ s.advanceNext with
          m_barrier_acquire_list := fun c =>
            s.m_barrier_acquire_list c && !s.advanceNext.due c
          m_to_release :=
            s.m_to_release ++ (List.finRange n).filter (s.advanceNext.dueOther caller_id) },
        (List.finRange n).any s.advanceNext.due,
        !(List.finRange n).any (s.advanceNext.dueCaller caller_id)⟩ := by
  rw [releaseRound, foldl_releaseCore (List.nodup_finRange n)]
  simp only [List.mem_finRange, decide_true, Bool.true_and, Bool.false_or]
  rfl

omit [DecidableEq T] in
theorem startRelease_ok {s'} (h : s.startRelease = .ok s') :
    s.m_to_release = [] ∧ ∃ next, s' = startRound { s with m_next_barrier_time := next } ∧
      (s.m_fastforward = false → next = s.m_next_barrier_time) ∧
      (s.m_fastforward = true → next = s.latestClock s.m_next_barrier_time) := by
  rw [startRelease] at h
  split at h
  case isTrue => cases h
  case isFalse hl =>
    refine ⟨List.length_eq_zero_iff.mp (not_not.mp hl), ?_⟩
    split at h
    case isTrue hf =>
      cases h
      exact ⟨_, rfl, fun hff => absurd (hf.symm.trans hff) nofun, fun _ => rfl⟩
    case isFalse hf =>
      cases h
      exact ⟨s.m_next_barrier_time, rfl, fun _ => rfl, fun hff => absurd hff hf⟩

end Sniper.Threads.Barrier.Server
