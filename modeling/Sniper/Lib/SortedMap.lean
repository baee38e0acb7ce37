import Mathlib.Data.List.Nodup
import Mathlib.Order.Lattice

/-! # Sorted maps

A map as a list of pairs in the strict order of their keys.
-/
namespace Sniper.Lib.SortedMap

variable {K V : Type} [LinearOrder K] {m : List (K × V)} {e e' : K × V} {k : K} {v : V}

def Sorted (m : List (K × V)) : Prop := m.Pairwise fun a b => a.1 < b.1

/-- The map with `v` at `k`, whatever it had there. -/
def assign (k : K) (v : V) : List (K × V) → List (K × V)
  | [] => [(k, v)]
  | e :: m =>
    if k < e.1 then (k, v) :: e :: m else if k = e.1 then (k, v) :: m else e :: assign k v m

/-- The map without `k`. -/
def erase (k : K) (m : List (K × V)) : List (K × V) := m.filter fun e => e.1 ≠ k

/-- What the map has at `k`. -/
def find (k : K) (m : List (K × V)) : Option V := (m.find? fun e => e.1 = k).map Prod.snd

/-- The first pair with a key above `k`. -/
def upper_bound (k : K) (m : List (K × V)) : Option (K × V) := m.find? fun e => k < e.1

theorem mem_erase : e ∈ erase k m ↔ e ∈ m ∧ e.1 ≠ k := by
  unfold erase
  rw [List.mem_filter, decide_eq_true_iff]

theorem Sorted.erase (h : Sorted m) (k : K) : Sorted (erase k m) := h.sublist List.filter_sublist

theorem Sorted.mem_assign (h : Sorted m) : e ∈ assign k v m ↔ e = (k, v) ∨ e ∈ m ∧ e.1 ≠ k := by
  induction m with
  | nil => simp [assign]
  | cons head m ih =>
    obtain ⟨hhead, htail⟩ := List.pairwise_cons.mp h
    unfold assign
    split
    case isTrue hlt =>
      -- All keys are above.
      have hne : ∀ other ∈ head :: m, other.1 ≠ k := by
        intro other hother
        rcases List.mem_cons.mp hother with rfl | hmem
        · exact hlt.ne'
        · exact (hlt.trans (hhead other hmem)).ne'
      rw [List.mem_cons]
      exact or_congr_right ⟨fun hmem => ⟨hmem, hne e hmem⟩, And.left⟩
    case isFalse hle =>
      split
      case isTrue heq =>
        subst heq
        rw [List.mem_cons, List.mem_cons]
        refine or_congr_right ⟨fun hmem => ⟨.inr hmem, (hhead e hmem).ne'⟩, ?_⟩
        rintro ⟨rfl | hmem, hne⟩
        · exact absurd rfl hne
        · exact hmem
      case isFalse hne =>
        rw [List.mem_cons, List.mem_cons, ih htail]
        constructor
        · rintro (rfl | rfl | ⟨hmem, hother⟩)
          · exact .inr ⟨.inl rfl, Ne.symm hne⟩
          · exact .inl rfl
          · exact .inr ⟨.inr hmem, hother⟩
        · rintro (rfl | ⟨rfl | hmem, hother⟩)
          · exact .inr (.inl rfl)
          · exact .inl rfl
          · exact .inr (.inr ⟨hmem, hother⟩)

theorem Sorted.assign (h : Sorted m) (k : K) (v : V) : Sorted (assign k v m) := by
  induction m with
  | nil => exact List.pairwise_singleton _ _
  | cons head m ih =>
    obtain ⟨hhead, htail⟩ := List.pairwise_cons.mp h
    unfold SortedMap.assign
    split
    case isTrue hlt =>
      refine List.pairwise_cons.mpr ⟨fun other hother => ?_, h⟩
      rcases List.mem_cons.mp hother with rfl | hmem
      · exact hlt
      · exact hlt.trans (hhead other hmem)
    case isFalse hle =>
      split
      case isTrue heq =>
        subst heq
        exact List.pairwise_cons.mpr ⟨hhead, htail⟩
      case isFalse hne =>
        refine List.pairwise_cons.mpr ⟨fun other hother => ?_, ih htail⟩
        rcases (Sorted.mem_assign htail).mp hother with rfl | ⟨hmem, _⟩
        · exact (not_lt.mp hle).lt_of_ne (Ne.symm hne)
        · exact hhead other hmem

theorem Sorted.eq_of_key (h : Sorted m) (he : e ∈ m) (he' : e' ∈ m) (hkey : e.1 = e'.1) :
    e = e' := by
  have hnodup : (m.map Prod.fst).Nodup := List.pairwise_map.mpr (h.imp fun hlt => hlt.ne)
  exact List.inj_on_of_nodup_map hnodup he he' hkey

theorem Sorted.find_eq_some_iff (h : Sorted m) : find k m = some v ↔ (k, v) ∈ m := by
  unfold find
  rw [Option.map_eq_some_iff]
  constructor
  · rintro ⟨e, he, rfl⟩
    have hkey : e.1 = k := by simpa using List.find?_some he
    exact hkey ▸ List.mem_of_find?_eq_some he
  · intro hmem
    cases hfound : m.find? fun e => e.1 = k with
    | none =>
      have hne := List.find?_eq_none.mp hfound (k, v) hmem
      simp at hne
    | some e =>
      have hkey : e.1 = k := by simpa using List.find?_some hfound
      have heq := h.eq_of_key (List.mem_of_find?_eq_some hfound) hmem hkey
      exact ⟨e, rfl, by rw [heq]⟩

theorem find_eq_none_iff : find k m = none ↔ ∀ e ∈ m, e.1 ≠ k := by
  unfold find
  rw [Option.map_eq_none_iff, List.find?_eq_none]
  exact forall₂_congr fun e _ => by rw [decide_eq_true_iff]

theorem Sorted.upper_bound_eq_some_iff (h : Sorted m) :
    upper_bound k m = some e ↔ e ∈ m ∧ k < e.1 ∧ ∀ other ∈ m, k < other.1 → e.1 ≤ other.1 := by
  unfold upper_bound
  induction m with
  | nil => simp
  | cons head m ih =>
    obtain ⟨hhead, htail⟩ := List.pairwise_cons.mp h
    by_cases hlt : k < head.1
    case pos =>
      rw [List.find?_cons, decide_eq_true hlt]
      dsimp only
      rw [Option.some_inj]
      constructor
      · rintro rfl
        refine ⟨List.mem_cons_self, hlt, fun other hother _ => ?_⟩
        rcases List.mem_cons.mp hother with rfl | hmem
        · exact le_rfl
        · exact (hhead other hmem).le
      · rintro ⟨hmem, _, hfirst⟩
        rcases List.mem_cons.mp hmem with rfl | hmem
        · rfl
        · exact absurd (hhead e hmem) (hfirst head List.mem_cons_self hlt).not_gt
    case neg =>
      rw [List.find?_cons, decide_eq_false hlt]
      dsimp only
      rw [ih htail]
      constructor
      · rintro ⟨hmem, hkey, hfirst⟩
        refine ⟨List.mem_cons_of_mem _ hmem, hkey, fun other hother hlt' => ?_⟩
        rcases List.mem_cons.mp hother with rfl | hother
        · exact absurd hlt' hlt
        · exact hfirst other hother hlt'
      · rintro ⟨hmem, hkey, hfirst⟩
        rcases List.mem_cons.mp hmem with rfl | hmem
        · exact absurd hkey hlt
        · exact ⟨hmem, hkey, fun other hother => hfirst other (List.mem_cons_of_mem _ hother)⟩

theorem upper_bound_eq_none_iff : upper_bound k m = none ↔ ∀ e ∈ m, e.1 ≤ k := by
  unfold upper_bound
  rw [List.find?_eq_none]
  exact forall₂_congr fun e _ => by rw [decide_eq_true_iff, not_lt]

/-! ## Other values -/

section Map
variable {W : Type} (f : K → V → W)

/-- The values in another form. -/
def mapValues (m : List (K × V)) : List (K × W) := m.map fun e => (e.1, f e.1 e.2)

theorem upper_bound_mapValues :
    upper_bound k (mapValues f m) = (upper_bound k m).map fun e => (e.1, f e.1 e.2) :=
  List.find?_map ..

theorem erase_mapValues : erase k (mapValues f m) = mapValues f (erase k m) := List.filter_map

theorem assign_mapValues : assign k (f k v) (mapValues f m) = mapValues f (assign k v m) := by
  induction m with
  | nil => rfl
  | cons e m ih =>
    unfold mapValues at ih ⊢
    rw [List.map_cons]
    unfold assign
    dsimp only
    split
    · rfl
    · split
      · rfl
      · rw [ih]
        rfl

end Map

end Sniper.Lib.SortedMap
