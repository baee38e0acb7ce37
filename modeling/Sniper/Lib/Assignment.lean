import Mathlib.Data.List.Nodup
import Mathlib.Data.List.Perm.Subperm

/-! # Assignments

Requests that each get a place of their own, one that they allow. Places are given out in
stages: requests that all allow the same places get those that are still free.
-/
namespace Sniper.Lib

variable {R P : Type*} {allows : R → P → Prop} {requests more : List R} {places free : List P}

structure Assigned (allows : R → P → Prop) (requests : List R) (places : List P) : Prop where
  distinct : places.Nodup
  allowed : List.Forall₂ allows requests places

def Assignable (allows : R → P → Prop) (requests : List R) : Prop :=
  ∃ places, Assigned allows requests places

theorem Assignable.perm {requests'} (h : Assignable allows requests) (hp : requests.Perm requests') :
    Assignable allows requests' := by
  obtain ⟨places, hdistinct, hallowed⟩ := h
  obtain ⟨places', hplaces, hperm⟩ := List.perm_comp_forall₂ hp.symm hallowed
  exact ⟨places', hperm.nodup_iff.mpr hdistinct, hplaces⟩

theorem Assignable.length_le (h : Assignable allows requests) (free : List P)
    (honly : ∀ r ∈ requests, ∀ p, allows r p → p ∈ free) : requests.length ≤ free.length := by
  obtain ⟨places, hdistinct, hallowed⟩ := h
  rw [hallowed.length_eq]
  refine (hdistinct.subperm fun p hp => ?_).length_le
  obtain ⟨⟨i, hi⟩, rfl⟩ := List.mem_iff_get.mp hp
  have hr : i < requests.length := by
    rw [hallowed.length_eq]
    exact hi
  exact honly _ (List.get_mem _ ⟨i, hr⟩) _ (hallowed.get hr hi)

theorem length_le_filter [DecidableEq P] (places : List P) (hfree : free.Nodup) :
    free.length ≤ (free.filter (fun p => p ∉ places)).length +
      (places.filter (fun p => p ∈ free)).length := by
  have hsplit : free.length = (free.filter (fun p => p ∈ places)).length +
      (free.filter (fun p => p ∉ places)).length := by
    rw [← List.countP_eq_length_filter, ← List.countP_eq_length_filter]
    simpa using List.length_eq_countP_add_countP (fun p => decide (p ∈ places))
  have htaken : (free.filter (fun p => p ∈ places)).length ≤
      (places.filter (fun p => p ∈ free)).length := by
    refine ((hfree.filter _).subperm fun p hp => ?_).length_le
    obtain ⟨hpf, hpp⟩ := List.mem_filter.mp hp
    exact List.mem_filter.mpr ⟨of_decide_eq_true hpp, decide_eq_true hpf⟩
  omega

theorem Assigned.extend [DecidableEq P] (h : Assigned allows requests places)
    (more : List R) (free : List P) (hall : ∀ r ∈ more, ∀ p ∈ free, allows r p) (hfree : free.Nodup)
    (hroom : more.length + (places.filter (fun p => p ∈ free)).length ≤ free.length) :
    ∃ given, given.length = more.length ∧ given ⊆ free ∧
      Assigned allows (requests ++ more) (places ++ given) := by
  have hlen := length_le_filter places hfree
  have hgiven : ((free.filter (fun p => p ∉ places)).take more.length).length = more.length := by
    rw [List.length_take]
    omega
  have hsub : (free.filter (fun p => p ∉ places)).take more.length ⊆
      free.filter (fun p => p ∉ places) := List.take_subset _ _
  refine ⟨(free.filter (fun p => p ∉ places)).take more.length, hgiven, fun p hp => ?_, ?_, ?_⟩
  · exact (List.mem_filter.mp (hsub hp)).1
  · refine List.nodup_append'.mpr ⟨h.distinct, (hfree.filter _).sublist (List.take_sublist _ _), ?_⟩
    intro p hp hpg
    exact of_decide_eq_true (List.mem_filter.mp (hsub hpg)).2 hp
  · refine List.rel_append h.allowed ?_
    rw [List.forall₂_iff_get]
    refine ⟨hgiven.symm, fun i hi hg => ?_⟩
    exact hall _ (List.get_mem ..) _ (List.mem_filter.mp (hsub (List.get_mem ..))).1

end Sniper.Lib
