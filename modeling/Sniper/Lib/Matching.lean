import Mathlib.Logic.Function.Basic

/-! # Two maps that are each other's inverse

Two partial maps kept as separate tables, which name each other's entries: a place holds an
item exactly when the item is recorded at that place. Updates go through states in which one
place is a gap: its entry is stale, and no item is recorded there.
-/
namespace Sniper.Lib.Matching
open Function

variable {A B : Type*} {f : A → Option B} {g : B → Option A} {gap : Option A}

/-- The tables are inverse outside the gap, and nothing is recorded at the gap. -/
structure Matched (f : A → Option B) (g : B → Option A) (gap : Option A) : Prop where
  inverse : ∀ a b, gap ≠ some a → (f a = some b ↔ g b = some a)
  unrecorded : ∀ a b, gap = some a → g b ≠ some a

namespace Matched

theorem inverse_none (h : Matched f g none) (a : A) (b : B) : f a = some b ↔ g b = some a :=
  h.inverse a b nofun

theorem holds (h : Matched f g gap) {a b} (hb : g b = some a) : f a = some b := by
  by_cases ha : gap = some a
  · exact absurd hb (h.unrecorded a b ha)
  · exact (h.inverse a b ha).mpr hb

theorem erase [DecidableEq B] (h : Matched f g none) {a b} (ha : f a = some b) :
    Matched f (update g b none) (some a) := by
  refine ⟨fun x y hx => ?_, fun x y hx hy => ?_⟩
  · by_cases hy : y = b
    · subst hy
      rw [update_self]
      refine ⟨fun hxy => ?_, nofun⟩
      have hrec := (h.inverse_none x y).mp hxy
      rw [(h.inverse_none a y).mp ha] at hrec
      exact absurd hrec hx
    · rw [update_of_ne hy]
      exact h.inverse_none x y
  · obtain rfl := Option.some.inj hx
    by_cases hyb : y = b
    · rw [hyb, update_self] at hy
      cases hy
    · rw [update_of_ne hyb] at hy
      have hay := (h.inverse_none a y).mpr hy
      rw [ha] at hay
      exact hyb (Option.some.inj hay).symm

theorem close [DecidableEq A] {a} (h : Matched f g (some a)) :
    Matched (update f a none) g none := by
  refine ⟨fun x y _ => ?_, nofun⟩
  by_cases hx : x = a
  · subst hx
    rw [update_self]
    exact ⟨nofun, fun hy => absurd hy (h.unrecorded x y rfl)⟩
  · rw [update_of_ne hx]
    exact h.inverse x y (by simpa using Ne.symm hx)

variable [DecidableEq A] [DecidableEq B]

theorem release (h : Matched f g gap) {a b} (hb : g b = some a) :
    Matched (update f a none) (update g b none) gap := by
  refine ⟨fun x y hx => ?_, fun x y hx hy => ?_⟩
  · have hxy := h.inverse x y hx
    by_cases hxa : x = a
    · subst hxa
      rw [update_self]
      refine ⟨nofun, fun hy => ?_⟩
      by_cases hyb : y = b
      · rw [hyb, update_self] at hy
        cases hy
      · rw [update_of_ne hyb] at hy
        have hold := hxy.mpr hy
        rw [h.holds hb] at hold
        exact absurd (Option.some.inj hold).symm hyb
    · rw [update_of_ne hxa]
      by_cases hyb : y = b
      · rw [hyb, update_self]
        refine ⟨fun hf => ?_, nofun⟩
        rw [hyb] at hxy
        have hrec := hxy.mp hf
        rw [hb] at hrec
        exact absurd (Option.some.inj hrec).symm hxa
      · rw [update_of_ne hyb]
        exact hxy
  · by_cases hyb : y = b
    · rw [hyb, update_self] at hy
      cases hy
    · rw [update_of_ne hyb] at hy
      exact h.unrecorded x y hx hy

theorem assign (h : Matched f g gap) {a : A} {b : B} (hgap : gap ≠ some a) (ha : f a = none)
    (hb : g b = none) :
    Matched (update f a (some b)) (update g b (some a)) gap := by
  refine ⟨fun x y hx => ?_, fun x y hx hy => ?_⟩
  · have hxy := h.inverse x y hx
    by_cases hxa : x = a <;> by_cases hyb : y = b
    · subst hxa hyb
      simp
    · subst hxa
      rw [update_self, update_of_ne hyb]
      refine ⟨fun he => absurd (Option.some.inj he).symm hyb, fun hy => ?_⟩
      rw [ha] at hxy
      cases hxy.mpr hy
    · subst hyb
      rw [update_of_ne hxa, update_self]
      refine ⟨fun hf => ?_, fun he => absurd (Option.some.inj he).symm hxa⟩
      rw [hb] at hxy
      cases hxy.mp hf
    · rw [update_of_ne hxa, update_of_ne hyb]
      exact hxy
  · by_cases hyb : y = b
    · rw [hyb, update_self] at hy
      exact hgap (hx.trans hy.symm)
    · rw [update_of_ne hyb] at hy
      exact h.unrecorded x y hx hy

end Matched
end Sniper.Lib.Matching
