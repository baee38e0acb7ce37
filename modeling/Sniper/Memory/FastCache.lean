import Mathlib.Data.UInt
import Mathlib.Order.Interval.Finset.Fin
import Sniper.Lib.Simulation

/-! # The cache of the fast memory model

`FastNehalem::Cache` keeps a time stamp beside each tag and replaces the oldest. The time stamps are
those of the last accesses, so the tags of a set are the ones accessed most recently; but an entry
that has not been filled yet has tag 0, and an access to tag 0 hits there.
-/
namespace Sniper.Memory.FastNehalem
open Function

/-! ### The code -/

inductive MemOp where
  | READ | READ_EX | WRITE
  deriving DecidableEq

/-- A set of `n + 1` ways. -/
structure CacheSet (n : Nat) where
  m_tags : Fin (n + 1) → UInt64
  m_lru : Fin (n + 1) → UInt64
  m_lru_max : UInt64

variable {n : Nat}

namespace CacheSet

/-- A set of a new vector. -/
def initial : CacheSet n := ⟨fun _ => 0, fun _ => 0, 0⟩

variable (s : CacheSet n)

/-- The entry gets the tag, and the next time stamp. -/
def stamp (idx : Fin (n + 1)) (tag : UInt64) : CacheSet n where
  m_tags := update s.m_tags idx tag
  m_lru := update s.m_lru idx (s.m_lru_max + 1)
  m_lru_max := s.m_lru_max + 1

/-- The loop that finds the replacement. -/
def oldest (m_lru : Fin (n + 1) → UInt64) : List (Fin (n + 1)) → UInt64 × Fin (n + 1) → Fin (n + 1)
  | [], (_, idx_min) => idx_min
  | idx :: rest, (lru_min, idx_min) =>
    if m_lru idx < lru_min then oldest m_lru rest (m_lru idx, idx)
    else oldest m_lru rest (lru_min, idx_min)

open scoped Lib.Sizes

def find (tag : UInt64) : Bool × CacheSet n :=
  match (List.finRange (n + 1)).find? fun idx => s.m_tags idx = tag with
  | some idx =>
    (true, { s with
      m_lru := update s.m_lru idx (s.m_lru_max + 1), m_lru_max := s.m_lru_max + 1 })
  | none => (false, s.stamp (oldest s.m_lru (List.finRange (n + 1)) (-1, 0)) tag)

end CacheSet

structure Cache (n : Nat) where
  m_latency : UInt64
  m_sets_mask : UInt64
  m_sets : UInt64 → CacheSet n
  m_loads : UInt64
  m_stores : UInt64
  m_load_misses : UInt64
  m_store_misses : UInt64

namespace Cache

/-- The constructor, for a power of two. -/
def initial (latency m_num_sets : UInt64) : Cache n :=
  ⟨latency, m_num_sets - 1, fun _ => .initial, 0, 0, 0, 0⟩

/-- `access`, with what the next level does. -/
def access {S : Type} (next : MemOp → UInt64 → S → UInt64 × S) (mem_op_type : MemOp)
    (tag : UInt64) (c : Cache n) (m_next_level : S) : UInt64 × Cache n × S :=
  let c := if mem_op_type = .WRITE then { c with m_stores := c.m_stores + 1 }
    else { c with m_loads := c.m_loads + 1 }
  let (hit, set) := (c.m_sets (tag &&& c.m_sets_mask)).find tag
  let c := { c with m_sets := update c.m_sets (tag &&& c.m_sets_mask) set }
  if hit then (c.m_latency, c, m_next_level)
  else
    let c := if mem_op_type = .WRITE then { c with m_store_misses := c.m_store_misses + 1 }
      else { c with m_load_misses := c.m_load_misses + 1 }
    let (latency, m_next_level) := next mem_op_type tag m_next_level
    (latency, c, m_next_level)

end Cache

/-! ### What a cache of the most recent tags does -/

/-- The tag was accessed, and since then fewer than `assoc` others were. The history has the latest
access first. -/
def Recent (assoc : Nat) (history : List UInt64) (tag : UInt64) : Prop :=
  tag ∈ history ∧ (history.takeWhile (· ≠ tag)).toFinset.card < assoc

/-- The accesses to the set of a tag. -/
def setHistory (m_sets_mask : UInt64) (before : List (MemOp × UInt64)) (tag : UInt64) :
    List UInt64 :=
  (before.map (·.2)).reverse.filter fun tag' => tag' &&& m_sets_mask = tag &&& m_sets_mask

/-- A next level that takes note of the accesses. -/
def note (mem_op_type : MemOp) (tag : UInt64) (log : List (MemOp × UInt64)) :
    UInt64 × List (MemOp × UInt64) := (0, log ++ [(mem_op_type, tag)])

/-- The cache after some accesses, from the start. -/
def after (latency m_num_sets : UInt64) (before : List (MemOp × UInt64)) : Cache n :=
  before.foldl (fun c access => (c.access note access.1 access.2 []).2.1) (.initial latency m_num_sets)

/-- After some accesses, an access hits just if its tag is recent, and else the next level is
accessed once. -/
def AccessesRight (n : Nat) (latency m_num_sets : UInt64) (before : List (MemOp × UInt64))
    (mem_op_type : MemOp) (tag : UInt64) : Prop :=
  let history := setHistory (m_num_sets - 1) before tag
  let answer := (after (n := n) latency m_num_sets before).access note mem_op_type tag []
  (Recent (n + 1) history tag → answer.1 = latency ∧ answer.2.2 = []) ∧
    (¬ Recent (n + 1) history tag → answer.2.2 = [(mem_op_type, tag)])

/-! ### Last accesses -/

section LastTime
variable {history : List UInt64} {tag tag' : UInt64}

/-- When the tag was accessed last, counted from 1 on; 0 is never. -/
def lastTime (history : List UInt64) (tag : UInt64) : Nat :=
  (history.dropWhile (· ≠ tag)).length

theorem lastTime_cons (a : UInt64) : lastTime (a :: history) tag =
    if a = tag then history.length + 1 else lastTime history tag := by
  by_cases h : a = tag <;> simp [lastTime, h]

theorem lastTime_le : lastTime history tag ≤ history.length :=
  (List.dropWhile_sublist _).length_le

theorem lastTime_pos : 0 < lastTime history tag ↔ tag ∈ history := by
  induction history with
  | nil => simp [lastTime]
  | cons a history ih =>
    rw [lastTime_cons]
    by_cases h : a = tag
    · simp [h]
    · simp [h, ih, Ne.symm h]

theorem mem_takeWhile_iff : tag' ∈ history.takeWhile (· ≠ tag) ↔
    lastTime history tag < lastTime history tag' := by
  induction history with
  | nil => simp [lastTime]
  | cons a history ih =>
    have hle : lastTime history tag' ≤ history.length := lastTime_le
    have hle' : lastTime history tag ≤ history.length := lastTime_le
    rw [lastTime_cons, lastTime_cons, List.takeWhile_cons]
    by_cases h : a = tag
    · rw [if_neg (by simpa using h), if_pos h]
      refine iff_of_false List.not_mem_nil ?_
      split <;> omega
    · rw [if_pos (by simpa using h), if_neg h, List.mem_cons, ih]
      by_cases h' : a = tag'
      · rw [if_pos h']
        exact iff_of_true (.inl h'.symm) (by omega)
      · rw [if_neg h']
        exact or_iff_right (Ne.symm h')

theorem lastTime_inj (hmem : tag ∈ history) (h : lastTime history tag = lastTime history tag') :
    tag = tag' := by
  induction history with
  | nil => cases hmem
  | cons a history ih =>
    have hle : lastTime history tag' ≤ history.length := lastTime_le
    have hle' : lastTime history tag ≤ history.length := lastTime_le
    rw [lastTime_cons, lastTime_cons] at h
    by_cases ha : a = tag
    · by_cases ha' : a = tag'
      · exact ha.symm.trans ha'
      · rw [if_pos ha, if_neg ha'] at h
        omega
    · by_cases ha' : a = tag'
      · rw [if_neg ha, if_pos ha'] at h
        omega
      · rw [if_neg ha, if_neg ha'] at h
        exact ih ((List.mem_cons.mp hmem).resolve_left (Ne.symm ha)) h

end LastTime

/-! ### A set and its history -/

/-- The filled entries come first. They hold the tags accessed last, with the times of the last
accesses; only when all are filled there may be other tags, and those are older. -/
structure Represents (s : CacheSet n) (history : List UInt64) : Prop where
  max : s.m_lru_max.toNat = history.length
  suffix : ∀ i j, i ≤ j → s.m_lru i = 0 → s.m_lru j = 0
  empty : ∀ i, s.m_lru i = 0 → s.m_tags i = 0
  stamp : ∀ i, s.m_lru i ≠ 0 → (s.m_lru i).toNat = lastTime history (s.m_tags i)
  distinct : ∀ i j, s.m_lru i ≠ 0 → s.m_lru j ≠ 0 → s.m_tags i = s.m_tags j → i = j
  absent : ∀ tag ∈ history, (∀ i, s.m_lru i ≠ 0 → s.m_tags i ≠ tag) →
    ∀ i, s.m_lru i ≠ 0 ∧ lastTime history tag < (s.m_lru i).toNat

/-- The entry is the first one to be filled, or all are filled and it is the oldest. -/
def Victim (s : CacheSet n) (r : Fin (n + 1)) : Prop :=
  (s.m_lru r = 0 ∧ ∀ j < r, s.m_lru j ≠ 0) ∨ ∀ j, s.m_lru j ≠ 0 ∧ s.m_lru r ≤ s.m_lru j

theorem initial_represents : Represents (CacheSet.initial (n := n)) [] where
  max := rfl
  suffix _ _ _ _ := rfl
  empty _ _ := rfl
  stamp _ h := absurd rfl h
  distinct _ _ h := absurd rfl h
  absent := nofun

section Sets
variable {s : CacheSet n} {history : List UInt64} {tag : UInt64}

def Present (s : CacheSet n) (tag : UInt64) : Prop := ∃ i, s.m_lru i ≠ 0 ∧ s.m_tags i = tag

theorem Represents.mem (h : Represents s history) (hp : Present s tag) : tag ∈ history := by
  obtain ⟨i, hi, rfl⟩ := hp
  rw [← lastTime_pos, ← h.stamp i hi]
  exact Nat.pos_of_ne_zero fun h0 => hi (UInt64.toNat_inj.mp h0)

theorem Represents.present_iff (h : Represents s history) :
    Present s tag ↔ Recent (n + 1) history tag := by
  constructor
  · intro hp
    obtain ⟨i, hi, rfl⟩ := hp
    refine ⟨h.mem ⟨i, hi, rfl⟩, ?_⟩
    -- whatever was accessed later is in another entry
    have hsub : (history.takeWhile (· ≠ s.m_tags i)).toFinset ⊆
        (Finset.univ.erase i).image s.m_tags := by
      intro tag' hmem
      have hlater := mem_takeWhile_iff.mp (List.mem_toFinset.mp hmem)
      by_contra hnot
      have habs := h.absent tag' (lastTime_pos.mp (Nat.zero_lt_of_lt hlater)) (fun j hj heq => ?_) i
      · rw [h.stamp i hi] at habs
        omega
      · refine hnot (Finset.mem_image.mpr ⟨j, Finset.mem_erase.mpr ⟨?_, Finset.mem_univ j⟩, heq⟩)
        rintro rfl
        rw [heq] at hlater
        exact lt_irrefl _ hlater
    have hcard := (Finset.card_le_card hsub).trans Finset.card_image_le
    rw [Finset.card_erase_of_mem (Finset.mem_univ i), Finset.card_univ, Fintype.card_fin] at hcard
    omega
  · rintro ⟨hmem, hcard⟩
    by_contra hnot
    have habs := h.absent tag hmem fun i hi heq => hnot ⟨i, hi, heq⟩
    have hsub : Finset.univ.image s.m_tags ⊆ (history.takeWhile (· ≠ tag)).toFinset := by
      intro tag' hmem'
      obtain ⟨i, -, rfl⟩ := Finset.mem_image.mp hmem'
      rw [List.mem_toFinset, mem_takeWhile_iff, ← h.stamp i (habs i).1]
      exact (habs i).2
    have hall := Finset.card_le_card hsub
    rw [Finset.card_image_of_injective _ fun i j heq =>
      h.distinct i j (habs i).1 (habs j).1 heq, Finset.card_univ, Fintype.card_fin] at hall
    omega

theorem Represents.next (h : Represents s history) (hcount : history.length + 1 < 2 ^ 64) :
    (s.m_lru_max + 1).toNat = history.length + 1 := by
  rw [UInt64.toNat_add, h.max]
  exact Nat.mod_eq_of_lt hcount

theorem Represents.put (h : Represents s history) (hcount : history.length + 1 < 2 ^ 64) {r}
    (hplace : (s.m_lru r ≠ 0 ∧ s.m_tags r = tag) ∨ Victim s r)
    (honly : ∀ i, s.m_lru i ≠ 0 → s.m_tags i = tag → i = r) :
    Represents (s.stamp r tag) (tag :: history) := by
  have hnext := h.next hcount
  have hself : (s.stamp r tag).m_lru r = s.m_lru_max + 1 := update_self ..
  have hself' : (s.stamp r tag).m_tags r = tag := update_self ..
  have hother : ∀ i, i ≠ r → (s.stamp r tag).m_lru i = s.m_lru i ∧
      (s.stamp r tag).m_tags i = s.m_tags i :=
    fun i hi => ⟨update_of_ne hi _ _, update_of_ne hi _ _⟩
  have hfilled : (s.stamp r tag).m_lru r ≠ 0 := by
    intro h0
    rw [hself] at h0
    rw [h0] at hnext
    exact absurd hnext (by simp)
  constructor
  case max => exact hnext
  case suffix =>
    intro i j hij hi
    have hir : i ≠ r := fun heq => hfilled (heq ▸ hi)
    rw [(hother i hir).1] at hi
    have hj := h.suffix i j hij hi
    have hjr : j ≠ r := by
      rintro rfl
      rcases hplace with ⟨hr, -⟩ | ⟨-, hfirst⟩ | hall
      · exact hr hj
      · exact hfirst i (lt_of_le_of_ne hij hir) hi
      · exact (hall j).1 hj
    rw [(hother j hjr).1, hj]
  case empty =>
    intro i hi
    have hir : i ≠ r := fun heq => hfilled (heq ▸ hi)
    rw [(hother i hir).1] at hi
    rw [(hother i hir).2, h.empty i hi]
  case stamp =>
    intro i hi
    rw [lastTime_cons]
    by_cases hir : i = r
    · rw [hir, hself, hself', if_pos rfl, hnext]
    · rw [(hother i hir).1] at hi ⊢
      rw [(hother i hir).2, if_neg fun heq => hir (honly i hi heq.symm), h.stamp i hi]
  case distinct =>
    intro i j hi hj heq
    by_cases hir : i = r <;> by_cases hjr : j = r
    · rw [hir, hjr]
    · rw [hir, hself', (hother j hjr).2] at heq
      rw [(hother j hjr).1] at hj
      exact absurd (honly j hj heq.symm) hjr
    · rw [hjr, hself', (hother i hir).2] at heq
      rw [(hother i hir).1] at hi
      exact absurd (honly i hi heq) hir
    · rw [(hother i hir).2, (hother j hjr).2] at heq
      rw [(hother i hir).1] at hi
      rw [(hother j hjr).1] at hj
      exact h.distinct i j hi hj heq
  case absent =>
    intro tag' hmem hnot i
    have hne : tag ≠ tag' := fun heq => hnot r hfilled (hself'.trans heq)
    have hold := (List.mem_cons.mp hmem).resolve_left hne.symm
    rw [lastTime_cons, if_neg hne]
    by_cases hir : i = r
    · rw [hir]
      refine ⟨hfilled, ?_⟩
      rw [hself, hnext]
      exact Nat.lt_succ_of_le lastTime_le
    · rw [(hother i hir).1]
      by_cases hp : ∃ k, s.m_lru k ≠ 0 ∧ s.m_tags k = tag'
      · -- the tag has just been replaced, so it was the oldest
        obtain ⟨k, hk, hktag⟩ := hp
        obtain rfl : k = r := by
          by_contra hkr
          refine hnot k ?_ ?_
          · rw [(hother k hkr).1]
            exact hk
          · rw [(hother k hkr).2, hktag]
        rcases hplace with ⟨-, hr⟩ | ⟨hr, -⟩ | hall
        · exact absurd (hr.symm.trans hktag) hne
        · exact absurd hr hk
        · refine ⟨(hall i).1, lt_of_le_of_ne ?_ fun heq => hir ?_⟩
          · rw [← hktag, ← h.stamp k hk]
            exact UInt64.le_iff_toNat_le.mp (hall i).2
          · rw [h.stamp i (hall i).1] at heq
            exact h.distinct i k (hall i).1 hk ((lastTime_inj hold heq).symm.trans hktag.symm)
      · exact h.absent tag' hold (fun k hk heq => hp ⟨k, hk, heq⟩) i

/-! ### The loops -/

/-- The loop comes out with its start, or with the first entry of the least time stamp. -/
theorem oldest_spec (m_lru : Fin (n + 1) → UInt64) (l : List (Fin (n + 1)))
    (hsorted : l.Pairwise (· < ·)) (lru_min : UInt64) (idx_min : Fin (n + 1)) :
    (CacheSet.oldest m_lru l (lru_min, idx_min) = idx_min ∧ ∀ j ∈ l, lru_min ≤ m_lru j) ∨
    ∃ r ∈ l, CacheSet.oldest m_lru l (lru_min, idx_min) = r ∧ m_lru r < lru_min ∧
      ∀ j ∈ l, m_lru r ≤ m_lru j ∧ (j < r → m_lru r < m_lru j) := by
  induction l generalizing lru_min idx_min with
  | nil => exact .inl ⟨rfl, nofun⟩
  | cons idx rest ih =>
    obtain ⟨hfirst, hrest⟩ := List.pairwise_cons.mp hsorted
    rw [CacheSet.oldest]
    split
    · next hlt =>
      refine .inr ?_
      rcases ih hrest (m_lru idx) idx with ⟨heq, hall⟩ | ⟨r, hr, heq, hr', hall⟩
      · refine ⟨idx, List.mem_cons_self, heq, hlt, List.forall_mem_cons.mpr
          ⟨⟨UInt64.le_refl _, fun hj => absurd hj (lt_irrefl _)⟩, fun j hj => ⟨hall j hj, ?_⟩⟩⟩
        exact fun hji => absurd (hfirst j hj) (not_lt_of_gt hji)
      · refine ⟨r, List.mem_cons_of_mem _ hr, heq, UInt64.lt_trans hr' hlt,
          List.forall_mem_cons.mpr ⟨⟨UInt64.le_of_lt hr', fun _ => hr'⟩, hall⟩⟩
    · next hge =>
      have hle : lru_min ≤ m_lru idx := UInt64.not_lt.mp hge
      rcases ih hrest lru_min idx_min with ⟨heq, hall⟩ | ⟨r, hr, heq, hr', hall⟩
      · exact .inl ⟨heq, List.forall_mem_cons.mpr ⟨hle, hall⟩⟩
      · have hlt := UInt64.lt_of_lt_of_le hr' hle
        exact .inr ⟨r, List.mem_cons_of_mem _ hr, heq, hr',
          List.forall_mem_cons.mpr ⟨⟨UInt64.le_of_lt hlt, fun _ => hlt⟩, hall⟩⟩

theorem oldest_victim (s : CacheSet n) :
    Victim s (CacheSet.oldest s.m_lru (List.finRange (n + 1)) (-1, 0)) := by
  have hmax : ∀ x : UInt64, x ≤ -1 := by
    intro x
    exact Nat.le_of_lt_succ x.toNat_lt
  obtain ⟨hle, hfirst⟩ : (∀ j, s.m_lru (CacheSet.oldest s.m_lru (List.finRange (n + 1)) (-1, 0)) ≤
      s.m_lru j) ∧ ∀ j, j < CacheSet.oldest s.m_lru (List.finRange (n + 1)) (-1, 0) →
      s.m_lru (CacheSet.oldest s.m_lru (List.finRange (n + 1)) (-1, 0)) < s.m_lru j := by
    rcases oldest_spec s.m_lru _ (List.pairwise_lt_finRange (n + 1)) (-1) 0 with
      ⟨heq, hall⟩ | ⟨r, -, heq, -, hall⟩
    · rw [heq]
      refine ⟨fun j => UInt64.le_trans (hmax _) (hall j (List.mem_finRange j)), fun j hj => ?_⟩
      exact absurd hj (Nat.not_lt_zero _)
    · rw [heq]
      exact ⟨fun j => (hall j (List.mem_finRange j)).1, fun j => (hall j (List.mem_finRange j)).2⟩
  by_cases h0 : s.m_lru (CacheSet.oldest s.m_lru (List.finRange (n + 1)) (-1, 0)) = 0
  · refine .inl ⟨h0, fun j hj hj0 => ?_⟩
    have hlt := hfirst j hj
    rw [hj0, h0] at hlt
    exact UInt64.lt_irrefl _ hlt
  · refine .inr fun j => ⟨fun hj0 => h0 ?_, hle j⟩
    have hj := hle j
    rw [hj0] at hj
    exact UInt64.le_antisymm hj (UInt64.le_iff_toNat_le.mpr (Nat.zero_le _))

theorem find_cases (s : CacheSet n) (tag : UInt64) :
    (∃ idx, s.m_tags idx = tag ∧ (∀ j < idx, s.m_tags j ≠ tag) ∧
      s.find tag = (true, s.stamp idx tag)) ∨
    (∀ idx, s.m_tags idx ≠ tag) ∧
      s.find tag = (false, s.stamp (CacheSet.oldest s.m_lru (List.finRange (n + 1)) (-1, 0)) tag) := by
  rw [CacheSet.find]
  split
  · next idx hfound =>
    obtain ⟨htag, i, hi, rfl, hfirst⟩ := List.find?_eq_some_iff_getElem.mp hfound
    rw [decide_eq_true_eq] at htag
    refine .inl ⟨_, htag, fun j hj => ?_, ?_⟩
    · have hj' := hfirst j.val (by simpa [Fin.lt_def] using hj)
      simpa using hj'
    · rw [CacheSet.stamp, ← htag, update_eq_self]
  · next hnone =>
    refine .inr ⟨fun idx => ?_, rfl⟩
    simpa using List.find?_eq_none.mp hnone idx (List.mem_finRange idx)

theorem Represents.unfilled (h : Represents s history) {idx} (htag : s.m_tags idx = tag)
    (hfirst : ∀ j < idx, s.m_tags j ≠ tag) (h0 : s.m_lru idx = 0) :
    tag = 0 ∧ Victim s idx ∧ ¬ Present s tag := by
  have hzero : tag = 0 := htag.symm.trans (h.empty idx h0)
  refine ⟨hzero, .inl ⟨h0, fun j hj hj0 => hfirst j hj ((h.empty j hj0).trans hzero.symm)⟩, ?_⟩
  rintro ⟨i, hi, heq⟩
  rcases lt_or_ge i idx with hlt | hge
  · exact hfirst i hlt heq
  · exact hi (h.suffix idx i hge h0)

theorem Represents.find (h : Represents s history) (hcount : history.length + 1 < 2 ^ 64) :
    Represents (s.find tag).2 (tag :: history) := by
  rcases find_cases s tag with ⟨idx, htag, hfirst, heq⟩ | ⟨hnone, heq⟩
  · rw [heq]
    by_cases h0 : s.m_lru idx = 0
    · obtain ⟨-, hvictim, hnew⟩ := h.unfilled htag hfirst h0
      exact h.put hcount (.inr hvictim) fun i hi hti => absurd ⟨i, hi, hti⟩ hnew
    · exact h.put hcount (.inl ⟨h0, htag⟩) fun i hi hti => h.distinct i idx hi h0 (hti.trans htag.symm)
  · rw [heq]
    exact h.put hcount (.inr (oldest_victim s)) fun i _ hti => absurd hti (hnone i)

theorem Represents.exists_empty_iff (h : Represents s history) :
    (∃ i, s.m_lru i = 0) ↔ history.toFinset.card < n + 1 := by
  constructor
  · rintro ⟨i, hi⟩
    have hsub : history.toFinset ⊆ (Finset.univ.erase i).image s.m_tags := by
      intro tag hmem
      by_contra hnot
      refine (h.absent tag (List.mem_toFinset.mp hmem) (fun j hj heq => hnot ?_) i).1 hi
      exact Finset.mem_image.mpr
        ⟨j, Finset.mem_erase.mpr ⟨fun hji => hj (hji ▸ hi), Finset.mem_univ j⟩, heq⟩
    have hcard := (Finset.card_le_card hsub).trans Finset.card_image_le
    rw [Finset.card_erase_of_mem (Finset.mem_univ i), Finset.card_univ, Fintype.card_fin] at hcard
    omega
  · intro hcard
    by_contra hnot
    have hfull : ∀ i, s.m_lru i ≠ 0 := fun i hi => hnot ⟨i, hi⟩
    have hsub : Finset.univ.image s.m_tags ⊆ history.toFinset := by
      intro tag hmem
      obtain ⟨i, -, rfl⟩ := Finset.mem_image.mp hmem
      exact List.mem_toFinset.mpr (h.mem ⟨i, hfull i, rfl⟩)
    have hall := Finset.card_le_card hsub
    rw [Finset.card_image_of_injective _ fun i j heq => h.distinct i j (hfull i) (hfull j) heq,
      Finset.card_univ, Fintype.card_fin] at hall
    omega

theorem Represents.hit_iff (h : Represents s history) (tag : UInt64) : (s.find tag).1 = true ↔
    Recent (n + 1) history tag ∨ (tag = 0 ∧ history.toFinset.card < n + 1) := by
  rw [← h.present_iff, ← h.exists_empty_iff]
  rcases find_cases s tag with ⟨idx, htag, hfirst, heq⟩ | ⟨hnone, heq⟩
  · rw [heq]
    refine iff_of_true rfl ?_
    by_cases h0 : s.m_lru idx = 0
    · exact .inr ⟨(h.unfilled htag hfirst h0).1, idx, h0⟩
    · exact .inl ⟨idx, h0, htag⟩
  · rw [heq]
    refine iff_of_false Bool.false_ne_true ?_
    rintro (⟨i, -, hi⟩ | ⟨rfl, i, hi⟩)
    · exact hnone i hi
    · exact hnone i (h.empty i hi)

end Sets

/-! ### The cache -/

section Caches
variable {latency m_num_sets : UInt64} {before : List (MemOp × UInt64)} {mem_op_type : MemOp}
  {tag : UInt64}

theorem access_cache {S} (next : MemOp → UInt64 → S → UInt64 × S) (c : Cache n) (m_next_level : S) :
    (c.access next mem_op_type tag m_next_level).2.1.m_sets =
        update c.m_sets (tag &&& c.m_sets_mask)
          ((c.m_sets (tag &&& c.m_sets_mask)).find tag).2 ∧
      (c.access next mem_op_type tag m_next_level).2.1.m_sets_mask = c.m_sets_mask ∧
      (c.access next mem_op_type tag m_next_level).2.1.m_latency = c.m_latency := by
  cases mem_op_type <;> cases hhit : ((c.m_sets (tag &&& c.m_sets_mask)).find tag).1 <;>
    simp [Cache.access, hhit]

theorem access_note (mem_op_type : MemOp) (tag : UInt64) (c : Cache n) (log : List (MemOp × UInt64)) :
    (((c.m_sets (tag &&& c.m_sets_mask)).find tag).1 = true →
      (c.access note mem_op_type tag log).1 = c.m_latency ∧
        (c.access note mem_op_type tag log).2.2 = log) ∧
    (((c.m_sets (tag &&& c.m_sets_mask)).find tag).1 = false →
      (c.access note mem_op_type tag log).2.2 = log ++ [(mem_op_type, tag)]) := by
  cases mem_op_type <;> cases hhit : ((c.m_sets (tag &&& c.m_sets_mask)).find tag).1 <;>
    simp [Cache.access, hhit, note]

theorem after_append (access : MemOp × UInt64) :
    after (n := n) latency m_num_sets (before ++ [access]) =
      ((after latency m_num_sets before).access note access.1 access.2 []).2.1 := by
  rw [after, List.foldl_append]
  rfl

theorem setHistory_append (m_sets_mask : UInt64) (access : MemOp × UInt64) :
    setHistory m_sets_mask (before ++ [access]) tag =
      if access.2 &&& m_sets_mask = tag &&& m_sets_mask then
        access.2 :: setHistory m_sets_mask before tag
      else setHistory m_sets_mask before tag := by
  simp [setHistory, List.filter_cons]

theorem after_fields : (after (n := n) latency m_num_sets before).m_sets_mask = m_num_sets - 1 ∧
    (after (n := n) latency m_num_sets before).m_latency = latency := by
  induction before using List.reverseRecOn with
  | nil => exact ⟨rfl, rfl⟩
  | append_singleton before access ih =>
    rw [after_append, (access_cache ..).2.1, (access_cache ..).2.2]
    exact ih

theorem after_represents (hcount : (setHistory (m_num_sets - 1) before tag).length < 2 ^ 64) :
    Represents ((after (n := n) latency m_num_sets before).m_sets (tag &&& (m_num_sets - 1)))
      (setHistory (m_num_sets - 1) before tag) := by
  induction before using List.reverseRecOn with
  | nil => exact initial_represents
  | append_singleton before access ih =>
    rw [after_append, (access_cache ..).1, after_fields.1]
    rw [setHistory_append] at hcount ⊢
    split at hcount
    · next hset =>
      rw [if_pos hset, hset, update_self]
      exact (ih (Nat.lt_of_succ_lt hcount)).find hcount
    · next hset =>
      rw [if_neg hset, update_of_ne (Ne.symm hset)]
      exact ih hcount

/-- **An access that its set has not had too many before is right just if the tag is not 0, or is
recent, or the set is full.** -/
theorem fast_cache_lru_iff (n : Nat) (latency m_num_sets : UInt64)
    (before : List (MemOp × UInt64)) (mem_op_type : MemOp) (tag : UInt64)
    (hcount : (setHistory (m_num_sets - 1) before tag).length < 2 ^ 64) :
    AccessesRight n latency m_num_sets before mem_op_type tag ↔
      (tag ≠ 0 ∨ Recent (n + 1) (setHistory (m_num_sets - 1) before tag) tag ∨
        n + 1 ≤ (setHistory (m_num_sets - 1) before tag).toFinset.card) := by
  have hrepresents : Represents ((after (n := n) latency m_num_sets before).m_sets
      (tag &&& (m_num_sets - 1))) _ := after_represents hcount
  have hnote := access_note mem_op_type tag
    (after (n := n) latency m_num_sets before) []
  rw [after_fields.1, after_fields.2] at hnote
  have hhit := hrepresents.hit_iff tag
  rw [AccessesRight]
  cases hfound : (((after (n := n) latency m_num_sets before).m_sets
      (tag &&& (m_num_sets - 1))).find tag).1 with
  | true =>
    have hlog := hnote.1 hfound
    by_cases hrecent : Recent (n + 1) (setHistory (m_num_sets - 1) before tag) tag
    · exact iff_of_true ⟨fun _ => hlog, fun hnot => absurd hrecent hnot⟩ (.inr (.inl hrecent))
    · obtain ⟨hzero, hroom⟩ := (hhit.mp hfound).resolve_left hrecent
      refine iff_of_false (fun hright => ?_) ?_
      · exact absurd (hlog.2.symm.trans (hright.2 hrecent)) (List.cons_ne_nil _ _).symm
      · rintro (hne | hrecent' | hfull)
        · exact hne hzero
        · exact hrecent hrecent'
        · omega
  | false =>
    have hmiss : ¬ (Recent (n + 1) (setHistory (m_num_sets - 1) before tag) tag ∨
        tag = 0 ∧ (setHistory (m_num_sets - 1) before tag).toFinset.card < n + 1) := by
      intro hor
      rw [hhit.mpr hor] at hfound
      cases hfound
    refine iff_of_true ⟨fun hrecent => absurd (.inl hrecent) hmiss, fun _ => hnote.2 hfound⟩ ?_
    by_cases hzero : tag = 0
    · exact .inr (.inr (Nat.le_of_not_lt fun hlt => hmiss (.inr ⟨hzero, hlt⟩)))
    · exact .inl hzero

/-- Two ways and four sets: a tag that was accessed before two others is gone. -/
theorem fast_cache_lru_iff_evicted :
    AccessesRight 1 4 4 [(.READ, 5), (.READ, 9), (.READ, 6), (.WRITE, 13)] .READ 5 :=
  (fast_cache_lru_iff 1 4 4 _ .READ 5 (by decide)).mpr (.inl (by decide))

theorem first_access_hits :
    ((Cache.initial 4 4 : Cache 1).access note .READ 0 []).2.2 = [] ∧
      ¬ Recent 2 (setHistory (4 - 1) [] 0) 0 ∧ ¬ AccessesRight 1 4 4 [] .READ 0 := by
  have hnot : ¬ Recent 2 (setHistory (4 - 1) [] 0) 0 := fun h => absurd h.1 List.not_mem_nil
  refine ⟨rfl, hnot, fun hright => ?_⟩
  exact absurd (hright.2 hnot) (by decide)

end Caches

end Sniper.Memory.FastNehalem
