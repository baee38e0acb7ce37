import Mathlib.Data.Finset.Card
import Mathlib.Order.Bounds.Basic

/-! # Servers

A number of servers that each serve one request at a time, over any linear order of times. A
request that comes while a server is free begins at once, and else when the first of them becomes
free. -/

namespace Sniper.Lib.Servers
open Function
variable {T : Type} [LinearOrder T]

structure Service (T : Type) where
  unit : Nat
  start : T
  finish : T

def Service.ActiveAt (x : Service T) (s : T) : Prop := x.start ≤ s ∧ s < x.finish

instance (x : Service T) (s : T) : Decidable (x.ActiveAt s) :=
  inferInstanceAs (Decidable (_ ∧ _))

/-- How many requests are in service. -/
def active (log : List (Service T)) (s : T) : Nat := log.countP fun x => decide (x.ActiveAt s)

/-- The log of `n` servers with the time at which each becomes free; no request comes before
`now` any more. -/
structure Serves (n : Nat) (log : List (Service T)) (free : Nat → T) (now : T) : Prop where
  unit_lt : ∀ x ∈ log, x.unit < n
  finish_le : ∀ x ∈ log, x.finish ≤ free x.unit
  alone : log.Pairwise fun x y => x.unit = y.unit → ∀ s, x.ActiveAt s → ¬ y.ActiveAt s
  busy : ∀ u < n, ∀ s, now ≤ s → s < free u → ∃ x ∈ log, x.unit = u ∧ x.ActiveAt s

section Log
variable {n : Nat} {log : List (Service T)} {free : Nat → T} {now s : T}

/-- The servers that serve a request. -/
def units (log : List (Service T)) (s : T) : List Nat :=
  (log.filter fun x => decide (x.ActiveAt s)).map (·.unit)

theorem length_units (log : List (Service T)) (s : T) : (units log s).length = active log s := by
  rw [units, List.length_map, active, List.countP_eq_length_filter]

theorem mem_units {u} : u ∈ units log s ↔ ∃ x ∈ log, x.unit = u ∧ x.ActiveAt s := by
  simp only [units, List.mem_map, List.mem_filter, decide_eq_true_eq]
  constructor
  · intro ⟨x, ⟨hx, hactive⟩, hu⟩
    exact ⟨x, hx, hu, hactive⟩
  · intro ⟨x, hx, hu, hactive⟩
    exact ⟨x, ⟨hx, hactive⟩, hu⟩

theorem Serves.nodup (h : Serves n log free now) (s : T) : (units log s).Nodup := by
  rw [units, List.Nodup, List.pairwise_map]
  refine (h.alone.filter _).imp_of_mem ?_
  intro x y hx hy halone heq
  have hactive : x.ActiveAt s := by simpa using (List.mem_filter.mp hx).2
  exact halone heq s hactive (by simpa using (List.mem_filter.mp hy).2)

theorem Serves.active_le (h : Serves n log free now) (s : T) : active log s ≤ n := by
  rw [← length_units]
  have hsub : units log s ⊆ List.range n := by
    intro u hu
    obtain ⟨x, hx, rfl, -⟩ := mem_units.mp hu
    exact List.mem_range.mpr (h.unit_lt x hx)
  have hle := (h.nodup s).subperm hsub
  simpa using hle.length_le

/-- From the last request on, the servers that are not free yet are those that serve. -/
theorem Serves.active_eq (h : Serves n log free now) (hs : now ≤ s) :
    active log s = (List.range n).countP fun u => decide (s < free u) := by
  have hperm : (units log s).Perm ((List.range n).filter fun u => decide (s < free u)) := by
    refine (List.perm_ext_iff_of_nodup (h.nodup s) (List.nodup_range.filter _)).mpr fun u => ?_
    rw [mem_units, List.mem_filter, List.mem_range, decide_eq_true_eq]
    constructor
    · rintro ⟨x, hx, rfl, hactive⟩
      exact ⟨h.unit_lt x hx, hactive.2.trans_le (h.finish_le x hx)⟩
    · exact fun ⟨hu, hlt⟩ => h.busy u hu s hs hlt
  rw [← length_units, hperm.length_eq, List.countP_eq_length_filter]

theorem Serves.active_lt_iff (h : Serves n log free now) (hs : now ≤ s) :
    active log s < n ↔ ∃ u < n, free u ≤ s := by
  have hlt := @List.countP_lt_length_iff _ (List.range n) fun u => decide (s < free u)
  simpa [← h.active_eq hs] using hlt

end Log

/-! ### The next request -/

/-- The server that takes a request which comes at `t`: one that is free, or the first that
becomes free. -/
def Chosen (n : Nat) (free : Nat → T) (t : T) (u : Nat) : Prop :=
  u < n ∧ (free u ≤ t ∨ ∀ v < n, free u ≤ free v)

section Next
variable {n u : Nat} {log : List (Service T)} {free : Nat → T} {now t finish : T}

theorem Serves.isLeast (h : Serves n log free now) (hnow : now ≤ t) (hu : Chosen n free t u) :
    IsLeast {s | t ≤ s ∧ active log s < n} (max t (free u)) := by
  have hnext := h.active_lt_iff (hnow.trans (le_max_left t (free u)))
  refine ⟨⟨le_max_left .., hnext.mpr ⟨u, hu.1, le_max_right ..⟩⟩, ?_⟩
  intro s ⟨hs, hactive⟩
  obtain ⟨v, hv, hfree⟩ := (h.active_lt_iff (hnow.trans hs)).mp hactive
  exact max_le hs (hu.2.elim (·.trans hs) fun hmin => (hmin v hv).trans hfree)

theorem Serves.accept (h : Serves n log free now) (hnow : now ≤ t) (hu : u < n)
    (hfinish : max t (free u) ≤ finish) :
    Serves n (⟨u, max t (free u), finish⟩ :: log) (update free u finish) t := by
  have hfree : free u ≤ finish := (le_max_right ..).trans hfinish
  refine ⟨?_, ?_, ?_, ?_⟩
  · rintro x (- | ⟨-, hx⟩)
    · exact hu
    · exact h.unit_lt x hx
  · rintro x (- | ⟨-, hx⟩)
    · rw [update_self]
    · by_cases heq : x.unit = u
      · have hle := h.finish_le x hx
        rw [heq] at hle ⊢
        rw [update_self]
        exact hle.trans hfree
      · rw [update_of_ne heq]
        exact h.finish_le x hx
  · refine List.pairwise_cons.mpr ⟨?_, h.alone⟩
    intro x hx heq s hnew hold
    -- what the server served before had finished
    have hle := h.finish_le x hx
    rw [← heq] at hle
    exact absurd ((le_max_right t _).trans hnew.1) (hold.2.trans_le hle).not_ge
  · intro v hv s hs hlt
    by_cases hold : s < free v
    · obtain ⟨x, hx, hv', hactive⟩ := h.busy v hv s (hnow.trans hs) hold
      exact ⟨x, List.mem_cons_of_mem _ hx, hv', hactive⟩
    · have heq : v = u := by
        by_contra hne
        rw [update_of_ne hne] at hlt
        exact hold hlt
      subst heq
      rw [update_self] at hlt
      exact ⟨_, List.mem_cons_self, rfl, max_le hs (le_of_not_gt hold), hlt⟩

end Next

end Sniper.Lib.Servers
