import Mathlib.Data.List.Sort

/-! # Multimaps

A list of pairs in the order of their keys; pairs with one key stand in the order in which they
were inserted. -/
namespace Sniper.Lib.Multimap

variable {K V : Type} [LinearOrder K] {entry : K × V} {entries : List (K × V)} {k : K}

def Ordered (entries : List (K × V)) : Prop := entries.Pairwise fun a b => a.1 ≤ b.1

/-- The new pair comes after those with the same key. -/
def insert (entry : K × V) (entries : List (K × V)) : List (K × V) :=
  entries.orderedInsert (fun a b => a.1 < b.1) entry

theorem insert_perm : (insert entry entries).Perm (entry :: entries) :=
  List.perm_orderedInsert _ _ _

theorem mem_insert {other} :
    other ∈ insert entry entries ↔ other = entry ∨ other ∈ entries :=
  List.mem_orderedInsert _

theorem Ordered.insert (h : Ordered entries) : Ordered (insert entry entries) := by
  induction entries with
  | nil => exact List.pairwise_singleton _ _
  | cons head rest ih =>
    obtain ⟨hhead, hrest⟩ := List.pairwise_cons.mp h
    unfold Multimap.insert
    rw [List.orderedInsert_cons]
    split
    case isTrue hlt =>
      refine List.pairwise_cons.mpr ⟨fun other hmem => ?_, h⟩
      rcases List.mem_cons.mp hmem with rfl | hother
      · exact hlt.le
      · exact hlt.le.trans (hhead other hother)
    case isFalse hle =>
      refine List.pairwise_cons.mpr ⟨fun other hmem => ?_, ih hrest⟩
      rcases mem_insert.mp hmem with rfl | hother
      · exact not_lt.mp hle
      · exact hhead other hother

theorem Ordered.filter_of_le (h : Ordered (entry :: entries)) (hle : k ≤ entry.1) :
    (entry :: entries).filter (fun other => k ≤ other.1) = entry :: entries := by
  refine List.filter_eq_self.mpr fun other hmem => decide_eq_true ?_
  rcases List.mem_cons.mp hmem with rfl | hother
  · exact hle
  · exact hle.trans ((List.pairwise_cons.mp h).1 other hother)

end Sniper.Lib.Multimap
