import Mathlib.Algebra.BigOperators.Group.List.Basic
import Mathlib.Algebra.GroupWithZero.Nat
import Mathlib.Data.List.AList

/-! # Metering

Counters that are only added to, and computations that are metered: the metered one does what the
other one does and keeps accounts beside.
-/
namespace Sniper.Lib.Metering

/-- Counters by key. One that has not been added to is zero. -/
abbrev Counters (κ : Type*) := AList fun _ : κ => Nat

namespace Counters
variable {κ : Type*} [DecidableEq κ]

def get (counters : Counters κ) (k : κ) : Nat := (counters.lookup k).getD 0

def add (counters : Counters κ) (k : κ) (amount : Nat) : Counters κ :=
  counters.insert k (counters.get k + amount)

/-- The sum of all counters. -/
def total (counters : Counters κ) : Nat := (counters.entries.map fun entry => entry.2).sum

theorem total_add (counters : Counters κ) (k : κ) (amount : Nat) :
    (counters.add k amount).total = counters.total + amount := by
  have hentries : (counters.add k amount).entries =
      ⟨k, counters.get k + amount⟩ :: List.kerase k counters.entries := AList.entries_insert
  rw [total, hentries, List.map_cons, List.sum_cons]
  by_cases hk : k ∈ counters.entries.keys
  · obtain ⟨value, before, after, -, hsplit, herase⟩ := List.exists_of_kerase hk
    have hmem : Sigma.mk k value ∈ counters.entries := by
      rw [hsplit]
      exact List.mem_append_right _ (List.mem_cons_self ..)
    have hget : counters.get k = value := by
      rw [get, AList.mem_lookup_iff.mpr hmem]
      rfl
    rw [herase, hget, total, hsplit]
    simp only [List.map_append, List.map_cons, List.sum_append, List.sum_cons]
    omega
  · have hnone : counters.lookup k = none := AList.lookup_eq_none.mpr hk
    rw [List.kerase_of_notMem_keys hk, get, hnone, total, Option.getD_none, Nat.zero_add,
      Nat.add_comm]

end Counters

/-! ## Computations -/

universe u
variable {ε : Type*} {α β γ δ : Type u}

/-- Both computations fail alike, or their results are related. -/
inductive Lockstep (R : α → β → Prop) : Except ε α → Except ε β → Prop
  | ok {a b} (h : R a b) : Lockstep R (.ok a) (.ok b)
  | error (e) : Lockstep R (.error e) (.error e)

namespace Lockstep
variable {R : α → β → Prop} {S : γ → δ → Prop}

theorem bind {x : Except ε α} {y : Except ε β} {f : α → Except ε γ} {g : β → Except ε δ}
    (h : Lockstep R x y) (hfg : ∀ a b, x = .ok a → R a b → Lockstep S (f a) (g b)) :
    Lockstep S (x >>= f) (y >>= g) := by
  cases h with
  | ok h => exact hfg _ _ rfl h
  | error e => exact .error e

theorem bind_same {x : Except ε α} {f : α → Except ε γ} {g : α → Except ε δ}
    (hfg : ∀ a, x = .ok a → Lockstep S (f a) (g a)) : Lockstep S (x >>= f) (x >>= g) := by
  cases x with
  | error e => exact .error e
  | ok a => exact hfg a rfl

theorem ite {c : Prop} [Decidable c] {x x' : Except ε α} {y y' : Except ε β}
    (h : c → Lockstep R x y) (h' : ¬ c → Lockstep R x' y') :
    Lockstep R (if c then x else x') (if c then y else y') := by
  split
  case isTrue hc => exact h hc
  case isFalse hc => exact h' hc

theorem mono {R' : α → β → Prop} {x : Except ε α} {y : Except ε β} (h : Lockstep R x y)
    (hR : ∀ a b, R a b → R' a b) : Lockstep R' x y := by
  cases h with
  | ok h => exact .ok (hR _ _ h)
  | error e => exact .error e

theorem of_ok {x : Except ε α} {y : Except ε β} {b : β} (h : Lockstep R x y) (hy : y = .ok b) :
    ∃ a, x = .ok a ∧ R a b := by
  cases h with
  | ok h =>
    cases hy
    exact ⟨_, rfl, h⟩
  | error e => cases hy

theorem of_error {x : Except ε α} {y : Except ε β} {e : ε} (h : Lockstep R x y)
    (hy : y = .error e) : x = .error e := by
  cases h with
  | ok h => cases hy
  | error e =>
    cases hy
    rfl

end Lockstep

end Sniper.Lib.Metering
