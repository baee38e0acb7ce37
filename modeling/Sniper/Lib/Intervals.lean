import Mathlib.Data.List.Pairwise
import Mathlib.Order.Interval.Set.Basic

/-! # Lists of intervals

Half-open intervals over a linear order, in increasing order and disjoint, as a list of what
is still free. Taking a part out of one of them leaves at most two pieces. -/

namespace Sniper.Lib.Intervals
variable {T : Type} [LinearOrder T]

structure Ordered (l : List (T × T)) : Prop where
  lt : ∀ i ∈ l, i.1 < i.2
  sorted : l.Pairwise fun i j => i.2 ≤ j.1

/-- What the intervals hold. -/
def points (l : List (T × T)) : Set T := {x | ∃ i ∈ l, x ∈ Set.Ico i.1 i.2}

/-- What stays of an interval without `[a, b)`, as far as a piece is worth keeping. -/
def pieces (keep : T × T → Bool) (i : T × T) (a b : T) : List (T × T) :=
  [(i.1, a), (b, i.2)].filter keep

section Ordered
variable {l before after inner : List (T × T)} {i j : T × T} {x : T}

theorem Ordered.pairwise_lt (h : Ordered l) : l.Pairwise fun i j => i.1 < j.1 :=
  h.sorted.imp_of_mem fun hi _ hle => (h.lt _ hi).trans_le hle

theorem Ordered.sublist {l'} (h : Ordered l) (hsub : List.Sublist l' l) :
    Ordered l' :=
  ⟨fun i hi => h.lt i (hsub.subset hi), h.sorted.sublist hsub⟩

theorem Ordered.replace (h : Ordered (before ++ i :: after)) (hinner : Ordered inner)
    (hinside : ∀ j ∈ inner, i.1 ≤ j.1 ∧ j.2 ≤ i.2) : Ordered (before ++ (inner ++ after)) := by
  obtain ⟨hbefore, hrest, hcross⟩ := List.pairwise_append.mp h.sorted
  obtain ⟨hi, hafter⟩ := List.pairwise_cons.mp hrest
  constructor
  · intro j hj
    simp only [List.mem_append] at hj
    obtain hj | hj | hj := hj
    · exact h.lt j (List.mem_append_left _ hj)
    · exact hinner.lt j hj
    · exact h.lt j (List.mem_append_right _ (List.mem_cons_of_mem _ hj))
  · refine List.pairwise_append.mpr ⟨hbefore, List.pairwise_append.mpr
      ⟨hinner.sorted, hafter, fun j hj k hk => (hinside j hj).2.trans (hi k hk)⟩, ?_⟩
    intro j hj k hk
    obtain hk | hk := List.mem_append.mp hk
    · exact (hcross j hj i List.mem_cons_self).trans (hinside k hk).1
    · exact hcross j hj k (List.mem_cons_of_mem _ hk)

theorem points_mono {l'} (h : l' ⊆ l) : points l' ⊆ points l := by
  intro x hx
  obtain ⟨i, hi, hx⟩ := hx
  exact ⟨i, h hi, hx⟩

end Ordered

section Pieces
variable {keep : T × T → Bool} {before after : List (T × T)} {i : T × T} {a b : T}

omit [LinearOrder T] in
theorem mem_pieces {j} :
    j ∈ pieces keep i a b ↔ (j = (i.1, a) ∨ j = (b, i.2)) ∧ keep j = true := by
  simp [pieces]

omit [LinearOrder T] in
theorem length_pieces_le : (pieces keep i a b).length ≤ 2 := List.length_filter_le ..

theorem pieces_inside (ha : i.1 ≤ a) (hab : a ≤ b) (hb : b ≤ i.2) {j} (hj : j ∈ pieces keep i a b) :
    i.1 ≤ j.1 ∧ j.2 ≤ i.2 := by
  obtain ⟨rfl | rfl, -⟩ := mem_pieces.mp hj
  · exact ⟨le_rfl, hab.trans hb⟩
  · exact ⟨ha.trans hab, le_rfl⟩

theorem ordered_pieces (hab : a ≤ b) (hkeep : ∀ j ∈ pieces keep i a b, j.1 < j.2) :
    Ordered (pieces keep i a b) := by
  refine ⟨hkeep, List.Pairwise.filter _ ?_⟩
  simpa using hab

theorem Ordered.pieces (h : Ordered (before ++ i :: after)) (ha : i.1 ≤ a) (hab : a ≤ b)
    (hb : b ≤ i.2) (hkeep : ∀ j ∈ pieces keep i a b, j.1 < j.2) :
    Ordered (before ++ (Intervals.pieces keep i a b ++ after)) :=
  h.replace (ordered_pieces hab hkeep) fun _ => pieces_inside ha hab hb

theorem points_pieces (h : Ordered (before ++ i :: after)) (ha : i.1 ≤ a) (hab : a ≤ b)
    (hb : b ≤ i.2) : points (before ++ (Intervals.pieces keep i a b ++ after)) ⊆
      points (before ++ i :: after) \ Set.Ico a b := by
  obtain ⟨-, hrest, hcross⟩ := List.pairwise_append.mp h.sorted
  intro x hx
  obtain ⟨j, hj, hxj⟩ := hx
  simp only [List.mem_append] at hj
  obtain hj | hj | hj := hj
  · have hle := hcross j hj i List.mem_cons_self
    exact ⟨⟨j, List.mem_append_left _ hj, hxj⟩, fun hxa =>
      (hxj.2.trans_le (hle.trans (ha.trans hxa.1))).false⟩
  · have hinside := pieces_inside ha hab hb hj
    refine ⟨⟨i, List.mem_append_right _ List.mem_cons_self, hinside.1.trans hxj.1,
      hxj.2.trans_le hinside.2⟩, fun hxa => ?_⟩
    obtain ⟨rfl | rfl, -⟩ := mem_pieces.mp hj
    · exact (hxj.2.trans_le hxa.1).false
    · exact (hxa.2.trans_le hxj.1).false
  · have hle := List.rel_of_pairwise_cons hrest hj
    exact ⟨⟨j, List.mem_append_right _ (List.mem_cons_of_mem _ hj), hxj⟩, fun hxa =>
      (hxa.2.trans_le (hb.trans (hle.trans hxj.1))).false⟩

end Pieces
end Sniper.Lib.Intervals
