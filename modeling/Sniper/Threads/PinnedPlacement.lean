import Mathlib.Data.ZMod.Basic
import Mathlib.Tactic.LinearCombination
import Mathlib.Tactic.Ring
import Sniper.Lib.Simulation

/-! # Placement of pinned threads

`SchedulerPinned` hands out cores in the order of a walk: ahead by the interleaving, and at the
end back to the next residue class. The walk comes to all cores just when the interleaving and the
number of cores less one are coprime.
-/
namespace Sniper.Threads.Placement
open Lib.Simulation Function Relation

structure SchedulerPinned where
  cores : Nat
  m_interleaving : Nat
  m_core_mask : Nat → Bool
  interleaving_pos : 0 < m_interleaving
  interleaving_le : m_interleaving ≤ cores
  allowed : ∃ c < cores, m_core_mask c

namespace SchedulerPinned
variable (s : SchedulerPinned)

/-- One turn of the loop of `getNextCore`. -/
def advance (core_id : Nat) : Nat :=
  let core_id := core_id + s.m_interleaving
  if s.cores ≤ core_id then (core_id % s.cores + 1) % s.m_interleaving else core_id

/-- `getNextCore` in so many turns, if it has returned by then. -/
def getNextCore : Nat → Nat → Option Nat
  | 0, _ => none
  | fuel + 1, core_id =>
    if s.m_core_mask (s.advance core_id) then some (s.advance core_id)
    else getNextCore fuel (s.advance core_id)

section
variable (m_core_thread_running : Nat → Option Nat)

/-- The core is allowed, and no thread runs on it. -/
def Free (core_id : Nat) : Prop := m_core_thread_running core_id = none ∧ s.m_core_mask core_id

instance (core_id : Nat) : Decidable (s.Free m_core_thread_running core_id) := instDecidableAnd

/-- The loop of `getFreeCore`. -/
def getFreeCoreLoop (core_first : Nat) : Nat → Nat → Option Nat
  | 0, _ => none
  | fuel + 1, core_next =>
    if s.Free m_core_thread_running core_next then some core_next
    else
      (s.getNextCore fuel core_next).bind fun core_next =>
        if core_next = core_first then some core_first
        else getFreeCoreLoop core_first fuel core_next

def getFreeCore (fuel core_first : Nat) : Option Nat :=
  s.getFreeCoreLoop m_core_thread_running core_first fuel core_first

/-- The core that the thread is pinned to, and `m_next_core` from then on. -/
def threadSetInitialAffinity (fuel m_next_core : Nat) : Option (Nat × Nat) := do
  let core_id ← s.getFreeCore m_core_thread_running fuel m_next_core
  let m_next_core ← s.getNextCore fuel core_id
  return (core_id, m_next_core)

end

/-- `getNextCore` returns the core. -/
def Next (c d : Nat) : Prop := ∃ fuel, s.getNextCore fuel c = some d

/-- A thread is placed, whatever runs. -/
def Step (m_next_core m_next_core' : Nat) : Prop :=
  ∃ running fuel core_id,
    s.threadSetInitialAffinity running fuel m_next_core = some (core_id, m_next_core')

/-- The walk comes to every allowed core, and a new thread gets a free one if there is one. -/
structure Places (m_core_thread_running : Nat → Option Nat) (m_next_core : Nat) : Prop where
  returns : ∀ c < s.cores, ∃ d, s.Next c d
  visits : ∀ c < s.cores, ∀ d < s.cores, s.m_core_mask d → TransGen s.Next c d
  pins : ∃ fuel core_id m_next_core',
    s.threadSetInitialAffinity m_core_thread_running fuel m_next_core =
        some (core_id, m_next_core') ∧
      s.m_core_mask core_id ∧
      ((∃ d < s.cores, s.Free m_core_thread_running d) → s.Free m_core_thread_running core_id)

/-! ### The walk -/

variable {s}

theorem advance_lt (c : Nat) : s.advance c < s.cores := by
  have hmod := Nat.mod_lt ((c + s.m_interleaving) % s.cores + 1) s.interleaving_pos
  have hle := s.interleaving_le
  unfold advance
  dsimp only
  split <;> omega

theorem iterate_lt {c} (hc : c < s.cores) (k : Nat) : s.advance^[k] c < s.cores := by
  induction k with
  | zero => exact hc
  | succ k =>
    rw [iterate_succ_apply']
    exact advance_lt _

/-- Seen modulo a divisor of the interleaving, only the end of a class is a change. -/
theorem cast_advance {g c} (hg : (s.m_interleaving : ZMod g) = 0) (hc : c < s.cores) :
    (s.advance c : ZMod g) =
      if s.cores ≤ c + s.m_interleaving then (c : ZMod g) + 1 - s.cores else c := by
  have hle := s.interleaving_le
  unfold advance
  dsimp only
  split
  case isFalse => simp [hg]
  case isTrue hend =>
    have hmod : (c + s.m_interleaving) % s.cores = c + s.m_interleaving - s.cores := by
      rw [Nat.mod_eq_sub_mod hend, Nat.mod_eq_of_lt (by omega)]
    have hdiv := congrArg (Nat.cast : Nat → ZMod g)
      (Nat.mod_add_div (c + s.m_interleaving - s.cores + 1) s.m_interleaving)
    push_cast [Nat.cast_sub hend, hg] at hdiv
    rw [hmod]
    linear_combination hdiv

/-- The walk comes to the end of a class, and to the first core of the next. -/
theorem exists_class {c} (hc : c < s.cores) : ∃ k, s.advance^[k + 1] c < s.m_interleaving ∧
    (s.advance^[k + 1] c : ZMod s.m_interleaving) = c + 1 - s.cores := by
  induction hleft : s.cores - c using Nat.strong_induction_on generalizing c with
  | _ left ih =>
    have hcast := cast_advance (ZMod.natCast_self _) hc
    by_cases hend : s.cores ≤ c + s.m_interleaving
    · refine ⟨0, ?_, hcast.trans (if_pos hend)⟩
      simp only [zero_add, iterate_one, advance, hend, if_true]
      exact Nat.mod_lt _ s.interleaving_pos
    · have hpos := s.interleaving_pos
      have hmid : s.advance c = c + s.m_interleaving := if_neg hend
      obtain ⟨k, hlt, hk⟩ := ih _ (by omega) (c := s.advance c) (by omega) rfl
      rw [hcast, if_neg hend] at hk
      exact ⟨k + 1, by rwa [iterate_succ_apply], by rwa [iterate_succ_apply]⟩

theorem exists_classes {c} (hc : c < s.cores) (i : Nat) :
    ∃ k, s.advance^[k + 1] c < s.m_interleaving ∧
      (s.advance^[k + 1] c : ZMod s.m_interleaving) = c + (i + 1) * (1 - s.cores) := by
  induction i with
  | zero =>
    obtain ⟨k, hlt, hk⟩ := exists_class hc
    exact ⟨k, hlt, by rw [hk]; push_cast; ring⟩
  | succ i ih =>
    obtain ⟨k, -, hk⟩ := ih
    obtain ⟨l, hlt, hl⟩ := exists_class (iterate_lt hc (k + 1))
    rw [← iterate_add_apply] at hlt hl
    refine ⟨l + 1 + k, hlt, ?_⟩
    rw [hk] at hl
    push_cast
    linear_combination hl

theorem iterate_class (j : Nat) {r} (h : r + j * s.m_interleaving < s.cores) :
    s.advance^[j] r = r + j * s.m_interleaving := by
  induction j with
  | zero => simp
  | succ j ih =>
    rw [Nat.succ_mul] at h ⊢
    rw [iterate_succ_apply', ih (by omega), advance, if_neg (by omega), Nat.add_assoc]

theorem exists_iterate (hcop : Nat.Coprime (s.cores - 1) s.m_interleaving) {c d}
    (hc : c < s.cores) (hd : d < s.cores) : ∃ k, s.advance^[k + 1] c = d := by
  have : NeZero s.m_interleaving := ⟨s.interleaving_pos.ne'⟩
  have hinv := ZMod.coe_mul_inv_eq_one (s.cores - 1) hcop
  rw [Nat.cast_sub (by omega), Nat.cast_one] at hinv
  -- So many classes ahead is the class of `d`.
  obtain ⟨i, hi⟩ : ∃ i : Nat, ((i : ZMod s.m_interleaving) + 1) =
      (c - d) * (s.cores - 1 : ZMod s.m_interleaving)⁻¹ :=
    ⟨((c - d) * (s.cores - 1 : ZMod s.m_interleaving)⁻¹ - 1).val, by
      rw [ZMod.natCast_zmod_val]; ring⟩
  obtain ⟨k, hlt, hk⟩ := exists_classes hc i
  have hr : (s.advance^[k + 1] c : ZMod s.m_interleaving) = d := by
    rw [hk, hi]
    linear_combination (d - c) * hinv
  have hr : s.advance^[k + 1] c = d % s.m_interleaving := by
    rw [← Nat.mod_eq_of_lt hlt]
    exact (ZMod.natCast_eq_natCast_iff' _ _ _).mp hr
  refine ⟨d / s.m_interleaving + k, ?_⟩
  rw [Nat.add_assoc, iterate_add_apply, hr, iterate_class, Nat.mod_add_div']
  rwa [Nat.mod_add_div']

/-! ### The allowed cores -/

theorem Next.spec {c d} (h : s.Next c d) : (∃ k, s.advance^[k + 1] c = d) ∧ s.m_core_mask d := by
  obtain ⟨fuel, h⟩ := h
  induction fuel generalizing c with
  | zero => cases h
  | succ fuel ih =>
    rw [getNextCore] at h
    split at h
    · next hmask =>
      obtain rfl := Option.some.inj h
      exact ⟨⟨0, rfl⟩, hmask⟩
    · obtain ⟨⟨k, hk⟩, hmask⟩ := ih h
      exact ⟨⟨k + 1, hk⟩, hmask⟩

theorem Next.lt {c d} (h : s.Next c d) : d < s.cores := by
  obtain ⟨⟨k, rfl⟩, -⟩ := h.spec
  rw [iterate_succ_apply']
  exact advance_lt _

theorem walk_lt {g} (hg : ∀ c < s.cores, s.Next c (g c)) {c} (hc : c < s.cores) (k : Nat) :
    g^[k] c < s.cores := by
  induction k with
  | zero => exact hc
  | succ k ih =>
    rw [iterate_succ_apply']
    exact (hg _ ih).lt

theorem next_of_masked {c d} (hc : ¬s.m_core_mask (s.advance c)) (h : s.Next (s.advance c) d) :
    s.Next c d := by
  obtain ⟨fuel, h⟩ := h
  exact ⟨fuel + 1, by rw [getNextCore, if_neg hc, h]⟩

theorem reaches_of_iterate {c d} (k : Nat) (h : s.advance^[k + 1] c = d) (hd : s.m_core_mask d) :
    TransGen s.Next c d := by
  induction k generalizing c with
  | zero => exact .single ⟨1, by rw [getNextCore, if_pos (by rwa [← h] at hd)]; exact congrArg _ h⟩
  | succ k ih =>
    have hrest := ih h
    by_cases hmask : s.m_core_mask (s.advance c)
    · exact .head ⟨1, by rw [getNextCore, if_pos hmask]⟩ hrest
    · obtain ⟨e, he, hrest⟩ := TransGen.head'_iff.mp hrest
      exact TransGen.head'_iff.mpr ⟨e, next_of_masked hmask he, hrest⟩

theorem visits_iff : (∀ c < s.cores, ∀ d < s.cores, s.m_core_mask d → TransGen s.Next c d) ↔
    Nat.Coprime (s.cores - 1) s.m_interleaving := by
  constructor
  · intro h
    obtain ⟨a, ha, hmask⟩ := s.allowed
    have hle := s.interleaving_le
    by_cases hone : s.cores = 1
    · rw [Nat.le_antisymm (hle.trans_eq hone) s.interleaving_pos]
      exact Nat.coprime_one_right _
    -- Modulo the common divisor the walk stands still.
    generalize hg : Nat.gcd (s.cores - 1) s.m_interleaving = g
    have hm : (s.m_interleaving : ZMod g) = 0 :=
      (ZMod.natCast_eq_zero_iff _ _).mpr (hg ▸ Nat.gcd_dvd_right _ _)
    have hn : ((s.cores - 1 : Nat) : ZMod g) = 0 :=
      (ZMod.natCast_eq_zero_iff _ _).mpr (hg ▸ Nat.gcd_dvd_left _ _)
    rw [Nat.cast_sub (by omega), Nat.cast_one] at hn
    have hstay : ∀ c < s.cores, (a : ZMod g) = c := by
      intro c hc
      have hiter : ∀ k, (s.advance^[k] c : ZMod g) = c := by
        intro k
        induction k with
        | zero => rfl
        | succ k ih =>
          rw [iterate_succ_apply', cast_advance hm (iterate_lt hc k), ih]
          split
          · linear_combination -hn
          · rfl
      have hreach : ∀ d, TransGen s.Next c d → ∃ k, s.advance^[k] c = d := by
        intro d hd
        induction hd with
        | single h => exact ⟨_, h.spec.1.choose_spec⟩
        | tail _ h ih =>
          obtain ⟨⟨l, hl⟩, -⟩ := h.spec
          obtain ⟨k, hk⟩ := ih
          exact ⟨l + 1 + k, by rw [iterate_add_apply, hk, hl]⟩
      obtain ⟨k, hk⟩ := hreach a (h c hc a ha hmask)
      rw [← hk, hiter]
    have hzero := (hstay 0 (by omega)).symm.trans (hstay 1 (by omega))
    refine hg.trans (Nat.dvd_one.mp ((ZMod.natCast_eq_zero_iff 1 g).mp ?_))
    simpa using hzero.symm
  · intro hcop c hc d hd hmask
    obtain ⟨k, hk⟩ := exists_iterate hcop hc hd
    exact reaches_of_iterate k hk hmask

theorem returns_of_coprime (hcop : Nat.Coprime (s.cores - 1) s.m_interleaving) (c)
    (hc : c < s.cores) : ∃ d, s.Next c d := by
  obtain ⟨a, ha, hmask⟩ := s.allowed
  obtain ⟨d, hd, -⟩ := TransGen.head'_iff.mp (visits_iff.mpr hcop c hc a ha hmask)
  exact ⟨d, hd⟩

theorem getNextCore_mono {fuel fuel' c d} (hle : fuel ≤ fuel') (h : s.getNextCore fuel c = some d) :
    s.getNextCore fuel' c = some d := by
  induction fuel generalizing c fuel' with
  | zero => cases h
  | succ fuel ih =>
    obtain ⟨fuel', rfl⟩ := Nat.exists_eq_add_of_le' (Nat.zero_lt_of_lt hle)
    rw [getNextCore] at h ⊢
    split at h
    · next hmask => rwa [if_pos hmask]
    · next hmask => rw [if_neg hmask, ih (Nat.le_of_succ_le_succ hle) h]

/-! ### Free cores -/

section Free
variable {running : Nat → Option Nat} {first : Nat}

theorem getFreeCoreLoop_mono {fuel fuel' c d} (hle : fuel ≤ fuel')
    (h : s.getFreeCoreLoop running first fuel c = some d) :
    s.getFreeCoreLoop running first fuel' c = some d := by
  induction fuel generalizing c fuel' with
  | zero => cases h
  | succ fuel ih =>
    obtain ⟨fuel', rfl⟩ := Nat.exists_eq_add_of_le' (Nat.zero_lt_of_lt hle)
    have hle := Nat.le_of_succ_le_succ hle
    rw [getFreeCoreLoop] at h ⊢
    split at h
    · next hfree => rwa [if_pos hfree]
    · next hfree =>
      obtain ⟨e, he, h⟩ := Option.bind_eq_some_iff.mp h
      rw [if_neg hfree, getNextCore_mono hle he, Option.bind_some]
      split at h
      · next hfirst => rwa [if_pos hfirst]
      · next hfirst => rw [if_neg hfirst, ih hle h]

theorem getFreeCoreLoop_none (hfirst : ¬s.m_core_mask first) (hfull : ∀ d < s.cores, ¬s.Free running d)
    (fuel : Nat) {c} (hc : c < s.cores) : s.getFreeCoreLoop running first fuel c = none := by
  induction fuel generalizing c with
  | zero => rfl
  | succ fuel ih =>
    rw [getFreeCoreLoop, if_neg (hfull c hc)]
    cases he : s.getNextCore fuel c with
    | none => rfl
    | some e =>
      have hnext : s.Next c e := ⟨fuel, he⟩
      have hne : e ≠ first := fun h => hfirst (h ▸ hnext.spec.2)
      rw [Option.bind_some, if_neg hne]
      exact ih hnext.lt

/-- The loop takes the allowed cores in turn, and stops at the first that is free, or back where it
began. -/
theorem getFreeCore_eq {g} (hg : ∀ c < s.cores, s.Next c (g c)) (hfirst : first < s.cores) {k}
    (hk : s.Free running (g^[k] first) ∨ 0 < k ∧ g^[k] first = first)
    (hbefore : ∀ j < k, ¬(s.Free running (g^[j] first) ∨ 0 < j ∧ g^[j] first = first)) :
    ∃ fuel, s.getFreeCore running fuel first = some (g^[k] first) := by
  have hlt := walk_lt hg hfirst
  have hloop : ∀ i j, j + i = k → (0 < j → g^[j] first ≠ first) →
      ∃ fuel, s.getFreeCoreLoop running first fuel (g^[j] first) = some (g^[k] first) := by
    intro i
    induction i with
    | zero =>
      intro j hj hne
      obtain rfl : j = k := hj
      exact ⟨1, by rw [getFreeCoreLoop, if_pos (hk.resolve_right fun h => hne h.1 h.2)]⟩
    | succ i ih =>
      intro j hj hne
      have hnot := hbefore j (by omega)
      obtain ⟨fuel, hnext⟩ := hg _ (hlt j)
      rw [← iterate_succ_apply' g] at hnext
      by_cases hback : g^[j + 1] first = first
      · -- Back at the first core, the walk has come to its end.
        have hend : j + 1 = k := by
          by_contra hne'
          exact hbefore (j + 1) (by omega) (.inr ⟨Nat.succ_pos j, hback⟩)
        refine ⟨fuel + 1, ?_⟩
        rw [getFreeCoreLoop, if_neg fun h => hnot (.inl h), hnext, Option.bind_some,
          if_pos hback, ← hend, hback]
      · obtain ⟨fuel', hrest⟩ := ih (j + 1) (by omega) fun _ => hback
        refine ⟨max fuel fuel' + 1, ?_⟩
        rw [getFreeCoreLoop, if_neg fun h => hnot (.inl h),
          getNextCore_mono (le_max_left _ _) hnext, Option.bind_some, if_neg hback]
        exact getFreeCoreLoop_mono (le_max_right _ _) hrest
  exact hloop k 0 (Nat.zero_add k) fun h => absurd h (Nat.lt_irrefl 0)

theorem pins_of_coprime (hcop : Nat.Coprime (s.cores - 1) s.m_interleaving) (hfirst : first < s.cores)
    (h : s.m_core_mask first ∨ ∃ c < s.cores, s.Free running c) :
    ∃ fuel c, s.getFreeCore running fuel first = some c ∧ c < s.cores ∧ s.m_core_mask c ∧
      ((∃ d < s.cores, s.Free running d) → s.Free running c) := by
  have hvisits := visits_iff.mpr hcop
  choose! g hg using returns_of_coprime hcop
  have hunique : ∀ c < s.cores, ∀ d, s.Next c d → d = g c := by
    rintro c hc d ⟨f, hf⟩
    obtain ⟨f', hf'⟩ := hg c hc
    have h := getNextCore_mono (le_max_left f f') hf
    rw [getNextCore_mono (le_max_right f f') hf'] at h
    exact (Option.some.inj h).symm
  -- Every allowed core comes in turn.
  have hturn : ∀ d < s.cores, s.m_core_mask d → ∃ k, g^[k + 1] first = d := by
    intro d hd hmask
    have hreach := hvisits first hfirst d hd hmask
    clear hd hmask h
    induction hreach using TransGen.head_induction_on with
    | single h => exact ⟨0, (hunique _ hfirst _ h).symm⟩
    | head h _ ih =>
      obtain ⟨k, hk⟩ := ih h.lt
      exact ⟨k + 1, by rw [iterate_succ_apply, ← hunique _ hfirst _ h, hk]⟩
  have hstop : ∃ k, s.Free running (g^[k] first) ∨ 0 < k ∧ g^[k] first = first := by
    obtain hmask | ⟨c, hc, hfree⟩ := h
    · obtain ⟨k, hk⟩ := hturn first hfirst hmask
      exact ⟨k + 1, .inr ⟨Nat.succ_pos k, hk⟩⟩
    · obtain ⟨k, hk⟩ := hturn c hc hfree.2
      exact ⟨k + 1, .inl (hk ▸ hfree)⟩
  classical
  have hk := Nat.find_spec hstop
  have hbefore := fun j => Nat.find_min hstop (m := j)
  generalize Nat.find hstop = k at hk hbefore
  obtain ⟨fuel, hfuel⟩ := getFreeCore_eq hg hfirst hk fun j => hbefore j
  have hstay := walk_lt hg hfirst
  refine ⟨fuel, _, hfuel, hstay k, ?_, ?_⟩
  · obtain hfree | ⟨hpos, -⟩ := hk
    · exact hfree.2
    · obtain ⟨j, rfl⟩ := Nat.exists_eq_add_of_le' hpos
      rw [iterate_succ_apply']
      exact (hg _ (hstay j)).spec.2
  · rintro ⟨d, hd, hfree⟩
    by_contra hnot
    obtain ⟨hpos, hback⟩ := hk.resolve_left hnot
    obtain ⟨i, hi⟩ := hturn d hd hfree.2
    have hperiod : g^[(i + 1) % k] first = d := by
      rw [IsPeriodicPt.iterate_mod_apply hback, hi]
    exact hbefore _ (Nat.mod_lt _ hpos) (.inl (hperiod ▸ hfree))

end Free

theorem next_core_lt {next} (h : Reachable (· = 0) s.Step next) : next < s.cores := by
  refine h.invariant (fun _ h => h ▸ s.interleaving_pos.trans_le s.interleaving_le) ?_
  rintro _ next' _ ⟨running, fuel, core_id, h⟩
  obtain ⟨c, -, h⟩ := Option.bind_eq_some_iff.mp h
  obtain ⟨d, hd, h⟩ := Option.bind_eq_some_iff.mp h
  obtain rfl : d = next' := congrArg Prod.snd (Option.some.inj h)
  exact Next.lt ⟨fuel, hd⟩

/-- Wherever the walk stands, a new thread is placed as it should be just when the walk comes to all
cores, and it stands at an allowed core or some allowed core is free. -/
theorem places_iff {next} (h : Reachable (· = 0) s.Step next) (running : Nat → Option Nat) :
    s.Places running next ↔ Nat.Coprime (s.cores - 1) s.m_interleaving ∧
      (s.m_core_mask next ∨ ∃ c < s.cores, s.Free running c) := by
  have hlt := next_core_lt h
  constructor
  · intro hplaces
    refine ⟨visits_iff.mp hplaces.visits, ?_⟩
    by_contra hnot
    simp only [not_or, not_exists, not_and] at hnot
    obtain ⟨fuel, c, _, hc, -⟩ := hplaces.pins
    obtain ⟨d, hd, -⟩ := Option.bind_eq_some_iff.mp hc
    rw [getFreeCore, getFreeCoreLoop_none hnot.1 hnot.2 fuel hlt] at hd
    cases hd
  · rintro ⟨hcop, hfree⟩
    have hreturns := returns_of_coprime hcop
    obtain ⟨fuel, c, hc, hclt, hmask, hbest⟩ := pins_of_coprime hcop hlt hfree
    obtain ⟨d, fuel', hd⟩ := hreturns c hclt
    refine ⟨hreturns, visits_iff.mpr hcop, max fuel fuel', c, d, ?_, hmask, hbest⟩
    have hc := getFreeCoreLoop_mono (le_max_left fuel fuel') hc
    simp [threadSetInitialAffinity, getFreeCore, hc, getNextCore_mono (le_max_right _ _) hd]

/-- Four cores, every second one in turn; core 1 is not allowed. -/
def four : SchedulerPinned := ⟨4, 2, fun c => c != 1, by decide, by decide, 0, by decide⟩

/-- The walk stands at core 2, and core 3 is the only one that is free. -/
theorem places_four : four.Places (fun c => if c = 3 then none else some c) 2 := by
  have hreach : Reachable (· = 0) four.Step 2 :=
    .step (.init rfl) ⟨fun _ => none, 2, 0, by decide⟩
  exact (places_iff hreach _).mpr ⟨by decide, .inr ⟨3, by decide, by decide⟩⟩

/-- Three cores, every second one in turn. -/
def three : SchedulerPinned := ⟨3, 2, fun _ => true, by decide, by decide, 0, by decide⟩

/-- The walk never comes to the one core that is free, and a thread is pinned to a busy one. -/
theorem three_cores_miss_one :
    let running c := if c = 1 then none else some c
    three.Free running 1 ∧ ¬three.Free running 0 ∧
      three.threadSetInitialAffinity running 4 0 = some (0, 2) := by
  decide

end SchedulerPinned
end Sniper.Threads.Placement
