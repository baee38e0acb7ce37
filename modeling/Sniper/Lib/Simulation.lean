import Mathlib.Algebra.GroupWithZero.Nat
import Mathlib.Order.Lattice.Nat

/-! # Fallible computations and transition systems

When one fallible computation refines another, and when a property holds along the runs of
a transition system or is carried from one system to another.
-/
namespace Sniper.Lib.Simulation

/-! ## Fallible computations -/

universe u
variable {ε : Type*} {α β γ δ : Type u}

theorem of_map_ok {f : α → γ} {x : Except ε α} {c : γ} (h : x.map f = .ok c) :
    ∃ a, x = .ok a ∧ f a = c := by
  cases x with
  | error e => cases h
  | ok a => exact ⟨a, rfl, Except.ok.inj h⟩

theorem of_bind_ok {x : Except ε α} {f : α → Except ε γ} {c : γ}
    (h : x >>= f = .ok c) : ∃ a, x = .ok a ∧ f a = .ok c := by
  cases x with
  | error e => cases h
  | ok a => exact ⟨a, rfl, h⟩

theorem bind_eq_of_ok {x : Except ε α} {f : α → Except ε γ} {a : α} {y : Except ε γ}
    (hx : x = .ok a) (hf : f a = y) : x >>= f = y := by
  rw [hx]
  exact hf

/-- What is done to the result can be done at the end of the rest. -/
theorem bind_eq_map_bind {h : γ → δ} {x : Except ε α} {f : α → Except ε δ} {g : α → Except ε γ}
    (hfg : ∀ a, f a = (g a).map h) : x >>= f = (x >>= g).map h := by
  cases x with
  | error e => rfl
  | ok a => exact hfg a

theorem exists_bind_ok {x : Except ε α} {f : α → Except ε γ} {a : α} (hx : x = .ok a)
    (hf : ∃ c, f a = .ok c) : ∃ c, x >>= f = .ok c := by
  rw [hx]
  exact hf

theorem bind_ne_error {x : Except ε α} {f : α → Except ε γ} {e : ε} (hx : x ≠ .error e)
    (hf : ∀ a, x = .ok a → f a ≠ .error e) : x >>= f ≠ .error e := by
  cases x with
  | error e' => exact fun h => hx (Except.error.inj h ▸ rfl)
  | ok a => exact hf a rfl

theorem map_ne_error {x : Except ε α} {f : α → γ} {e : ε} (hx : x ≠ .error e) :
    x.map f ≠ .error e := by
  cases x with
  | error e' => exact fun h => hx (Except.error.inj h ▸ rfl)
  | ok a => nofun

theorem exists_of_toOption {α : Type*} {ε : Type*} {x : Except ε α} {P : α → Prop}
    (h : ∃ a ∈ x.toOption, P a) : ∃ a, x = .ok a ∧ P a := by
  obtain ⟨a, ha, hP⟩ := h
  cases x with
  | error e => cases ha
  | ok a' =>
    cases ha
    exact ⟨a, rfl, hP⟩

/-- Both computations give related results or both fail; the first one may also fail where
`escape` holds. -/
inductive Refines (escape : Prop) (R : α → β → Prop) : Except ε α → Except ε β → Prop
  | ok {a b} (h : R a b) : Refines escape R (.ok a) (.ok b)
  | error {e e'} : Refines escape R (.error e) (.error e')
  | escape {e y} (h : escape) : Refines escape R (.error e) y

namespace Refines
variable {escape : Prop} {R : α → β → Prop}

theorem bind {S : γ → δ → Prop} {x : Except ε α} {y : Except ε β} {f : α → Except ε γ}
    {g : β → Except ε δ} (h : Refines escape R x y)
    (hfg : ∀ a b, x = .ok a → y = .ok b → R a b → Refines escape S (f a) (g b)) :
    Refines escape S (x >>= f) (y >>= g) := by
  cases h with
  | ok h => exact hfg _ _ rfl rfl h
  | error => exact .error
  | escape h => exact .escape h

theorem bind_same {S : γ → δ → Prop} {x : Except ε α} {f : α → Except ε γ} {g : α → Except ε δ}
    (hfg : ∀ a, x = .ok a → Refines escape S (f a) (g a)) :
    Refines escape S (x >>= f) (x >>= g) := by
  cases x with
  | error e => exact .error
  | ok a => exact hfg a rfl

theorem mono {escape' : Prop} {R' : α → β → Prop} {x : Except ε α} {y : Except ε β}
    (h : Refines escape R x y) (he : escape → escape') (hR : ∀ a b, R a b → R' a b) :
    Refines escape' R' x y := by
  cases h with
  | ok h => exact .ok (hR _ _ h)
  | error => exact .error
  | escape h => exact .escape (he h)

theorem of_error {R' x e e'} (h : Refines escape R x (.error e : Except ε β)) :
    Refines escape R' x (.error e' : Except ε δ) := by
  cases h with
  | error => exact .error
  | escape h => exact .escape h

theorem of_ok {x : Except ε α} {y : Except ε β} {a : α} (h : Refines escape R x y)
    (hx : x = .ok a) : ∃ b, y = .ok b ∧ R a b := by
  cases h with
  | ok h => cases hx; exact ⟨_, rfl, h⟩
  | error | escape _ => cases hx

theorem of_spec_ok {x : Except ε α} {y : Except ε β} {b : β} (h : Refines escape R x y)
    (hy : y = .ok b) (he : ¬ escape) : ∃ a, x = .ok a ∧ R a b := by
  cases h with
  | ok h => cases hy; exact ⟨_, rfl, h⟩
  | error => cases hy
  | escape h => exact absurd h he

end Refines

theorem foldlM_history {σ ι : Type} {f : σ → ι → Except ε σ} {P : σ → List ι → Prop}
    (hstep : ∀ s seen i t, P s seen → f s i = .ok t → P t (seen ++ [i])) {l : List ι} {s t : σ}
    (h : P s []) (hrun : l.foldlM f s = .ok t) : P t l := by
  suffices hall : ∀ seen s, P s seen → l.foldlM f s = .ok t → P t (seen ++ l) by
    simpa using hall [] s h hrun
  clear h hrun
  induction l with
  | nil =>
    intro seen s h hrun
    cases hrun
    simpa using h
  | cons i l ih =>
    intro seen s h hrun
    rw [List.foldlM_cons] at hrun
    obtain ⟨s₁, hs₁, hrun⟩ := of_bind_ok hrun
    simpa using ih _ s₁ (hstep s seen i s₁ h hs₁) hrun

/-! ## Transition systems -/

variable {σ τ : Type*}

/-- The states of the runs that start in `init`. -/
inductive Reachable (init : σ → Prop) (step : σ → σ → Prop) : σ → Prop
  | init {s} (h : init s) : Reachable init step s
  | step {s t} (h : Reachable init step s) (hst : step s t) : Reachable init step t

namespace Reachable
variable {init : σ → Prop} {step : σ → σ → Prop}

theorem invariant {P : σ → Prop} (h0 : ∀ s, init s → P s)
    (hstep : ∀ s t, P s → step s t → P t) {s : σ} (h : Reachable init step s) : P s := by
  induction h with
  | init h => exact h0 _ h
  | step _ hst ih => exact hstep _ _ ih hst

theorem mono {step' : σ → σ → Prop} (hs : ∀ s t, step s t → step' s t) {s : σ}
    (h : Reachable init step s) : Reachable init step' s :=
  h.invariant (fun _ => .init) fun _ _ ih hst => .step ih (hs _ _ hst)

theorem foldlM {ι : Type*} {ε : Type*} {σ : Type u} {init : σ → Prop} {step : σ → σ → Prop}
    {f : σ → ι → Except ε σ} {l : List ι} (hstep : ∀ i ∈ l, ∀ s t, f s i = .ok t → step s t)
    {s t : σ} (h : Reachable init step s) (hrun : l.foldlM f s = .ok t) :
    Reachable init step t := by
  induction l generalizing s with
  | nil =>
    cases hrun
    exact h
  | cons i l ih =>
    rw [List.foldlM_cons] at hrun
    obtain ⟨s₁, hs₁, hrun⟩ := of_bind_ok hrun
    exact ih (fun j hj => hstep j (List.mem_cons_of_mem _ hj))
      (h.step (hstep i (List.mem_cons_self ..) s s₁ hs₁)) hrun

end Reachable
end Sniper.Lib.Simulation

/-! ## Sizes -/
namespace Sniper.Lib.Sizes

/-- At this priority it is the instance found, whatever else a module imports. -/
scoped instance (priority := 2000) neZeroSucc (n : Nat) : NeZero (n + 1) := ⟨n.succ_ne_zero⟩

scoped instance (priority := 3000) neZeroOne : NeZero 1 := neZeroSucc 0
scoped instance (priority := 3000) neZeroTwo : NeZero 2 := neZeroSucc 1
scoped instance (priority := 3000) neZeroThree : NeZero 3 := neZeroSucc 2

end Sniper.Lib.Sizes
