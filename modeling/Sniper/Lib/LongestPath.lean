import Mathlib.Algebra.GroupWithZero.Nat
import Mathlib.Order.Bounds.Basic
import Mathlib.Order.MinMax

/-! # Longest paths in one sweep

The nodes are numbers, and edges lead to smaller ones. Marks are what the paths to a node sum up
to, and a node whose mark is zero has not been reached. One sweep from the largest number down
passes the marks along the edges, resets them, and returns the largest. Marks are cut to what a
mark can hold; where no sum is cut, the largest mark is the largest sum.
-/
namespace Sniper.Lib.LongestPath
open Function

variable {edges : Nat → List Nat} {weight cut : Nat → Nat} {marks : Nat → Nat} {ds : List Nat}

/-- A path whose first node is one of those given. -/
inductive Path (edges : Nat → List Nat) : List Nat → List Nat → Prop
  | nil (ds : List Nat) : Path edges ds []
  | cons {ds path : List Nat} {d : Nat} : d ∈ ds → Path edges (edges d) path →
      Path edges ds (d :: path)

def pathSum (weight : Nat → Nat) (path : List Nat) : Nat := (path.map weight).sum

@[simp] theorem pathSum_cons (d : Nat) (path : List Nat) :
    pathSum weight (d :: path) = weight d + pathSum weight path := by
  rfl

/-- What the paths sum up to. -/
def lengths (edges : Nat → List Nat) (weight : Nat → Nat) (ds : List Nat) : Set Nat :=
  {t | ∃ path, Path edges ds path ∧ pathSum weight path = t}

/-- The first node has a weight, if there is one. -/
def Seen (weight : Nat → Nat) : List Nat → Prop
  | [] => True
  | d :: _ => 0 < weight d

/-! ### Marks -/

/-- The nodes get their marks one after the other. -/
def raise (value : Nat → (Nat → Nat) → Nat) : List Nat → (Nat → Nat) → Nat → Nat
  | [], marks => marks
  | d :: rest, marks => raise value rest (update marks d (value d marks))

/-- The nodes that paths start with. -/
def start (weight cut : Nat → Nat) (ds : List Nat) : Nat → Nat :=
  raise (fun d _ => cut (weight d)) ds fun _ => 0

/-- The mark of a node is passed along its edges. -/
def relax (weight cut : Nat → Nat) (s : Nat) (ds : List Nat) (marks : Nat → Nat) : Nat → Nat :=
  raise (fun d marks => max (cut (weight d + marks s)) (marks d)) ds marks

/-- From the node `first + n - 1` down to `first`. -/
def sweep (edges : Nat → List Nat) (weight cut : Nat → Nat) (first : Nat) :
    Nat → (Nat → Nat) → Nat → Nat × (Nat → Nat)
  | 0, marks, best => (best, marks)
  | n + 1, marks, best =>
    if marks (first + n) ≠ 0 then
      sweep edges weight cut first n
        (update (relax weight cut (first + n) (edges (first + n)) marks) (first + n) 0)
        (max best (marks (first + n)))
    else sweep edges weight cut first n marks best

theorem start_eq (x : Nat) :
    start weight cut ds x = if x ∈ ds then cut (weight x) else 0 := by
  have hraise (marks : Nat → Nat) : raise (fun d _ => cut (weight d)) ds marks x =
      if x ∈ ds then cut (weight x) else marks x := by
    induction ds generalizing marks with
    | nil => rfl
    | cons d ds ih =>
      rw [raise, ih]
      by_cases hrest : x ∈ ds
      · rw [if_pos hrest, if_pos (List.mem_cons_of_mem d hrest)]
      · rw [if_neg hrest]
        by_cases hd : x = d
        · rw [hd, update_self, if_pos (List.mem_cons_self ..)]
        · rw [update_of_ne hd, if_neg (by simp [hd, hrest])]
  exact hraise _

theorem relax_eq {s} (hs : s ∉ ds) (marks : Nat → Nat) (x : Nat) :
    relax weight cut s ds marks x =
      if x ∈ ds then max (cut (weight x + marks s)) (marks x) else marks x := by
  induction ds generalizing marks with
  | nil => rfl
  | cons d ds ih =>
    obtain ⟨hne, hs⟩ := not_or.mp (List.mem_cons.not.mp hs)
    have hstep := ih hs (update marks d (max (cut (weight d + marks s)) (marks d)))
    rw [update_of_ne hne] at hstep
    refine hstep.trans ?_
    by_cases hd : x = d
    · subst hd
      rw [update_self, if_pos (List.mem_cons_self ..)]
      split
      · exact max_eq_right (le_max_left _ _)
      · rfl
    · rw [update_of_ne hd]
      by_cases hrest : x ∈ ds
      · rw [if_pos hrest, if_pos (List.mem_cons_of_mem d hrest)]
      · rw [if_neg hrest, if_neg (by simp [hd, hrest])]

/-! ### The sweep -/

section
variable {first n best : Nat}

/-- Only nodes that are still to be visited are marked. -/
def Ahead (first n : Nat) (marks : Nat → Nat) : Prop :=
  ∀ s, marks s ≠ 0 → first ≤ s ∧ s < first + n

/-- The sums that the marks lead to. -/
def reachable (edges : Nat → List Nat) (weight : Nat → Nat) (marks : Nat → Nat) (best : Nat) :
    Set Nat :=
  {t | t = best ∨ ∃ s path, marks s ≠ 0 ∧ Path edges (edges s) path ∧
    marks s + pathSum weight path = t}

theorem Ahead.visit (weight cut : Nat → Nat) (h : Ahead first (n + 1) marks)
    (hds : ∀ d ∈ ds, first ≤ d ∧ d < first + n) :
    Ahead first n (update (relax weight cut (first + n) ds marks) (first + n) 0) := by
  have hs : first + n ∉ ds := fun hmem => Nat.lt_irrefl _ (hds _ hmem).2
  intro s hne
  by_cases heq : s = first + n
  · rw [heq, update_self] at hne
    exact absurd rfl hne
  · rw [update_of_ne heq, relax_eq hs] at hne
    by_cases hmem : s ∈ ds
    · exact hds s hmem
    · rw [if_neg hmem] at hne
      have := h s hne
      omega

theorem Ahead.skip (h : Ahead first (n + 1) marks) (hzero : marks (first + n) = 0) :
    Ahead first n marks := by
  intro s hne
  have hs : s ≠ first + n := fun heq => hne (heq ▸ hzero)
  have := h s hne
  omega

theorem sweep_clean (weight cut : Nat → Nat) (best : Nat) (h : Ahead first n marks)
    (hedges : ∀ s, first ≤ s → s < first + n → ∀ d ∈ edges s, first ≤ d ∧ d < s) :
    (sweep edges weight cut first n marks best).2 = fun _ => 0 := by
  induction n generalizing marks best with
  | zero =>
    funext s
    by_contra hne
    have := h s hne
    omega
  | succ n ih =>
    have hbelow : ∀ s, first ≤ s → s < first + n → ∀ d ∈ edges s, first ≤ d ∧ d < s :=
      fun s hlow hhigh => hedges s hlow (by omega)
    rw [sweep]
    split
    case isTrue => exact ih _ (h.visit weight cut (hedges (first + n) (by omega) (by omega))) hbelow
    case isFalse hzero => exact ih best (h.skip (not_not.mp hzero)) hbelow

theorem reachable_visit {s} (hs : s ∉ edges s) (hmark : marks s ≠ 0)
    (hcut : ∀ t ∈ reachable edges weight marks best, cut t = t) {t} :
    (t ∈ reachable edges weight
        (update (relax weight cut s (edges s) marks) s 0) (max best (marks s)) →
      t ∈ reachable edges weight marks best) ∧
    (t ∈ reachable edges weight marks best → ∃ t' ∈ reachable edges weight
      (update (relax weight cut s (edges s) marks) s 0) (max best (marks s)), t ≤ t') := by
  have hrelax (x : Nat) : relax weight cut s (edges s) marks x =
      if x ∈ edges s then max (weight x + marks s) (marks x) else marks x := by
    rw [relax_eq hs]
    split
    · next hx =>
      have hsum : marks s + pathSum weight [x] = weight x + marks s := Nat.add_comm ..
      rw [hcut _ (.inr ⟨s, [x], hmark, .cons hx (.nil _), hsum⟩)]
    · rfl
  constructor
  · rintro (rfl | ⟨x, path, hne, hpath, rfl⟩)
    · rcases max_choice best (marks s) with h | h
      · exact .inl h
      · exact .inr ⟨s, [], hmark, .nil _, h.symm⟩
    · have hx : x ≠ s := by
        intro heq
        rw [heq, update_self] at hne
        exact hne rfl
      rw [update_of_ne hx, hrelax] at hne ⊢
      by_cases hmem : x ∈ edges s
      · rw [if_pos hmem] at hne ⊢
        rcases max_choice (weight x + marks s) (marks x) with h | h
        · refine .inr ⟨s, x :: path, hmark, .cons hmem hpath, ?_⟩
          rw [pathSum_cons, h]
          omega
        · rw [h] at hne ⊢
          exact .inr ⟨x, path, hne, hpath, rfl⟩
      · rw [if_neg hmem] at hne ⊢
        exact .inr ⟨x, path, hne, hpath, rfl⟩
  · rintro (rfl | ⟨x, path, hne, hpath, rfl⟩)
    · exact ⟨_, .inl rfl, le_max_left _ _⟩
    · by_cases hx : x = s
      · subst hx
        cases hpath with
        | nil => exact ⟨_, .inl rfl, le_max_right _ _⟩
        | @cons _ path d hd hpath =>
          -- the sum goes on at the next node of the path
          have hne' : d ≠ x := fun heq => hs (heq ▸ hd)
          refine ⟨_, .inr ⟨d, path, ?_, hpath, rfl⟩, ?_⟩
          · rw [update_of_ne hne', hrelax, if_pos hd]
            omega
          · rw [update_of_ne hne', hrelax, if_pos hd, pathSum_cons]
            omega
      · refine ⟨_, .inr ⟨x, path, ?_, hpath, rfl⟩, ?_⟩
        all_goals
          rw [update_of_ne hx, hrelax]
          split <;> omega

theorem sweep_greatest (best : Nat) (h : Ahead first n marks)
    (hedges : ∀ s, first ≤ s → s < first + n → ∀ d ∈ edges s, first ≤ d ∧ d < s)
    (hcut : ∀ t ∈ reachable edges weight marks best, cut t = t) :
    IsGreatest (reachable edges weight marks best)
      (sweep edges weight cut first n marks best).1 := by
  induction n generalizing marks best with
  | zero =>
    refine ⟨.inl rfl, ?_⟩
    rintro t (rfl | ⟨s, path, hne, -, -⟩)
    · exact Nat.le_refl _
    · have := h s hne
      omega
  | succ n ih =>
    have hbelow : ∀ s, first ≤ s → s < first + n → ∀ d ∈ edges s, first ≤ d ∧ d < s :=
      fun s hlow hhigh => hedges s hlow (by omega)
    have hlast := hedges (first + n) (by omega) (by omega)
    rw [sweep]
    split
    case isTrue hmark =>
      have hs : first + n ∉ edges (first + n) := fun hmem => Nat.lt_irrefl _ (hlast _ hmem).2
      have hrest := ih (max best (marks (first + n))) (h.visit weight cut hlast) hbelow
        fun t ht => hcut t ((reachable_visit hs hmark hcut).1 ht)
      refine ⟨(reachable_visit hs hmark hcut).1 hrest.1, fun t ht => ?_⟩
      obtain ⟨t', ht', hle⟩ := (reachable_visit hs hmark hcut).2 ht
      exact hle.trans (hrest.2 ht')
    case isFalse hzero => exact ih best (h.skip (not_not.mp hzero)) hbelow hcut

end

/-! ### From the start -/

theorem reachable_start (edges : Nat → List Nat) (hcut : ∀ d ∈ ds, cut (weight d) = weight d) :
    reachable edges weight (start weight cut ds) 0 =
      {t | ∃ path, Path edges ds path ∧ Seen weight path ∧ pathSum weight path = t} := by
  have hstart (x : Nat) : start weight cut ds x = if x ∈ ds then weight x else 0 := by
    rw [start_eq]
    split
    · next hx => exact hcut x hx
    · rfl
  ext t
  constructor
  · rintro (rfl | ⟨s, path, hne, hpath, rfl⟩)
    · exact ⟨[], .nil _, trivial, rfl⟩
    · rw [hstart] at hne ⊢
      by_cases hs : s ∈ ds
      · rw [if_pos hs] at hne ⊢
        exact ⟨s :: path, .cons hs hpath, Nat.pos_of_ne_zero hne, pathSum_cons s path⟩
      · rw [if_neg hs] at hne
        exact absurd rfl hne
  · rintro ⟨path, hpath, hseen, rfl⟩
    cases hpath with
    | nil => exact .inl rfl
    | @cons _ path d hd hpath =>
      refine .inr ⟨d, path, ?_, hpath, ?_⟩
      · rw [hstart, if_pos hd]
        exact Nat.ne_of_gt hseen
      · rw [hstart, if_pos hd, pathSum_cons]

theorem isGreatest_lengths_iff {v} (h : IsGreatest
      {t | ∃ path, Path edges ds path ∧ Seen weight path ∧ pathSum weight path = t} v) :
    IsGreatest (lengths edges weight ds) v ↔
      ∀ path, Path edges ds path → ∃ path', Path edges ds path' ∧ Seen weight path' ∧
        pathSum weight path ≤ pathSum weight path' := by
  obtain ⟨⟨longest, hlongest, hseen, rfl⟩, hupper⟩ := h
  constructor
  · rintro ⟨-, hall⟩ path hpath
    exact ⟨longest, hlongest, hseen, hall ⟨path, hpath, rfl⟩⟩
  · intro hbound
    refine ⟨⟨longest, hlongest, rfl⟩, ?_⟩
    rintro t ⟨path, hpath, rfl⟩
    obtain ⟨path', hpath', hseen', hle⟩ := hbound path hpath
    exact hle.trans (hupper ⟨path', hpath', hseen', rfl⟩)

end Sniper.Lib.LongestPath
