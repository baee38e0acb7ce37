import Mathlib.Algebra.GroupWithZero.Nat
import Mathlib.Data.List.Nodup
import Mathlib.Data.List.Perm.Subperm

/-! # Attribution

A log of events that each have at most one owner, and owners that claim positions of it. When
everybody claims only what is his, and nothing twice, the claims fit into the log.
-/
namespace Sniper.Lib.Attribution
variable {α : Type} {log more : List (Option α)} {a : α} {claims : List Nat} {position : Nat}

/-- The positions claimed are the owner's, each claimed once. -/
structure Claimed (log : List (Option α)) (a : α) (claims : List Nat) : Prop where
  nodup : claims.Nodup
  owned : ∀ i ∈ claims, log[i]? = some (some a)

/-- Everything from the position on is the owner's. -/
def OwnedFrom (log : List (Option α)) (a : α) (position : Nat) : Prop :=
  ∀ i, position ≤ i → i < log.length → log[i]? = some (some a)

theorem claimed_nil : Claimed log a [] := ⟨List.nodup_nil, nofun⟩

theorem lt_length_of_owned {i} (h : log[i]? = some (some a)) : i < log.length := by
  obtain ⟨hi, _⟩ := List.getElem?_eq_some_iff.mp h
  exact hi

theorem Claimed.lt_length (h : Claimed log a claims) : ∀ i ∈ claims, i < log.length :=
  fun i hi => lt_length_of_owned (h.owned i hi)

theorem Claimed.append_log (h : Claimed log a claims) : Claimed (log ++ more) a claims := by
  refine ⟨h.nodup, fun i hi => ?_⟩
  rw [List.getElem?_append_left (h.lt_length i hi)]
  exact h.owned i hi

theorem ownedFrom_length : OwnedFrom log a log.length :=
  fun _ hle hlt => absurd hlt (Nat.not_lt.mpr hle)

theorem OwnedFrom.append_log (h : OwnedFrom log a position) (hmore : ∀ x ∈ more, x = some a) :
    OwnedFrom (log ++ more) a position := by
  intro i hle hlt
  by_cases hi : i < log.length
  · rw [List.getElem?_append_left hi]
    exact h i hle hi
  · rw [List.length_append] at hlt
    have hin : i - log.length < more.length := by omega
    rw [List.getElem?_append_right (Nat.not_lt.mp hi), List.getElem?_eq_getElem hin,
      hmore _ (List.getElem_mem hin)]

theorem Claimed.extend (h : Claimed log a claims) (hbefore : ∀ i ∈ claims, i < position)
    (hfrom : OwnedFrom log a position) :
    Claimed log a (claims ++ List.range' position (log.length - position)) := by
  refine ⟨List.nodup_append'.mpr ⟨h.nodup, List.nodup_range', fun i hi hrange => ?_⟩,
    fun i hi => ?_⟩
  · have hle := (List.mem_range'_1.mp hrange).1
    exact absurd (hbefore i hi) (Nat.not_lt.mpr hle)
  · rcases List.mem_append.mp hi with hi | hi
    · exact h.owned i hi
    · obtain ⟨hle, hlt⟩ := List.mem_range'_1.mp hi
      exact hfrom i hle (by omega)

theorem sum_length_le {owners : List α} {claim : α → List Nat} (hnodup : owners.Nodup)
    (h : ∀ a ∈ owners, Claimed log a (claim a)) :
    (owners.map fun a => (claim a).length).sum ≤ log.length := by
  have hall : (owners.flatMap claim).Nodup := by
    refine List.nodup_flatMap.mpr ⟨fun a ha => (h a ha).nodup, ?_⟩
    refine hnodup.imp_of_mem fun {a b} ha hb hne i hia hib => hne ?_
    have howner := ((h a ha).owned i hia).symm.trans ((h b hb).owned i hib)
    exact Option.some.inj (Option.some.inj howner)
  have hsub : owners.flatMap claim ⊆ List.range log.length := by
    intro i hi
    obtain ⟨a, ha, hia⟩ := List.mem_flatMap.mp hi
    exact List.mem_range.mpr ((h a ha).lt_length i hia)
  have hle := (hall.subperm hsub).length_le
  rw [List.length_flatMap, List.length_range] at hle
  exact hle

end Sniper.Lib.Attribution
