import Mathlib.Order.Basic

/-! # Logs

A ring that holds the last entries of a log, and the positions of a log that come right after a
value.
-/
namespace Sniper.Lib.Log

section Ring
variable {α : Type} {size n p : Nat} {blank x : α} {P Q : Nat → α → Prop} {ring : List α}

/-- The ring holds entries as `P` says, of the last positions below `n`, and is blank elsewhere. -/
structure Holds (size : Nat) (blank : α) (P : Nat → α → Prop) (n : Nat) (ring : List α) : Prop where
  length : ring.length = size
  held : ∀ p < n, n ≤ p + size → ∃ x, ring[p % size]? = some x ∧ P p x
  unused : ∀ i < size, n ≤ i → ring[i]? = some blank

theorem holds_blank : Holds size blank P 0 (List.replicate size blank) := by
  refine ⟨List.length_replicate, fun p hp => absurd hp p.not_lt_zero, fun i hi _ => ?_⟩
  rw [List.getElem?_replicate, if_pos hi]

theorem mod_ne (hlt : p < n) (hsize : n < p + size) : p % size ≠ n % size := by
  intro heq
  have hdvd : size ∣ n - p := Nat.dvd_of_mod_eq_zero (Nat.sub_mod_eq_zero_of_mod_eq heq.symm)
  have hle := Nat.le_of_dvd (by omega) hdvd
  omega

theorem Holds.mono (h : Holds size blank P n ring) (hPQ : ∀ p < n, ∀ x, P p x → Q p x) :
    Holds size blank Q n ring := by
  refine ⟨h.length, fun p hp hsize => ?_, h.unused⟩
  obtain ⟨x, hget, hx⟩ := h.held p hp hsize
  exact ⟨x, hget, hPQ p hp x hx⟩

theorem Holds.push (h : Holds size blank P n ring) (hpos : 0 < size) (hx : P n x) :
    Holds size blank P (n + 1) (ring.set (n % size) x) := by
  have hplace : n % size < ring.length := h.length.symm ▸ Nat.mod_lt n hpos
  refine ⟨(List.length_set ..).trans h.length, fun p hp hsize => ?_, fun i hi hn => ?_⟩
  · rcases Nat.lt_succ_iff_lt_or_eq.mp hp with hlt | rfl
    · obtain ⟨y, hget, hy⟩ := h.held p hlt (by omega)
      refine ⟨y, ?_, hy⟩
      rw [List.getElem?_set_ne (mod_ne hlt (by omega)).symm]
      exact hget
    · exact ⟨x, List.getElem?_set_self hplace, hx⟩
  · have hne : n % size ≠ i := by
      rw [Nat.mod_eq_of_lt (by omega)]
      omega
    rw [List.getElem?_set_ne hne]
    exact h.unused i hi (by omega)

theorem mod_succ (hpos : 0 < size) :
    (n + 1) % size = (if n % size + 1 = size then 0 else n % size + 1) ∧
      (n + 1) / size = if n % size + 1 = size then n / size + 1 else n / size := by
  have hplace := Nat.mod_lt n hpos
  have hn := Nat.div_add_mod n size
  split
  case isTrue hwrap =>
    have hsucc : n + 1 = size * (n / size + 1) := by
      rw [Nat.mul_succ]
      omega
    rw [hsucc]
    exact ⟨Nat.mul_mod_right .., Nat.mul_div_cancel_left _ hpos⟩
  case isFalse hwrap =>
    have hsucc : n + 1 = n % size + 1 + size * (n / size) := by omega
    have hlt : n % size + 1 < size := by omega
    constructor
    · rw [hsucc, Nat.add_mul_mod_self_left]
      exact Nat.mod_eq_of_lt hlt
    · rw [hsucc, Nat.add_mul_div_left _ _ hpos, Nat.div_eq_of_lt hlt, Nat.zero_add]

theorem set_cases {list : List α} {i j y} (h : (list.set i x)[j]? = some y) :
    i = j ∧ y = x ∨ i ≠ j ∧ list[j]? = some y := by
  by_cases hij : i = j
  · subst hij
    rw [List.getElem?_set_self'] at h
    obtain ⟨_, _, rfl⟩ := Option.map_eq_some_iff.mp h
    exact .inl ⟨rfl, rfl⟩
  · exact .inr ⟨hij, by rwa [List.getElem?_set_ne hij] at h⟩

end Ring

section Following
variable {α : Type} [DecidableEq α] {log more : List α} {x : α} {n p : Nat} {older : List Nat}

/-- The positions below `n` that come right after `x` in the log, the latest first. -/
def following (log : List α) (x : α) : Nat → List Nat
  | 0 => []
  | n + 1 =>
    if 0 < n ∧ log[n - 1]? = some x then n :: following log x n else following log x n

theorem following_append (hn : n ≤ log.length) :
    following (log ++ more) x n = following log x n := by
  induction n with
  | zero => rfl
  | succ n ih =>
    unfold following
    rw [ih (by omega), List.getElem?_append_left (by omega)]

theorem following_concat (y : α) : following (log ++ [y]) x (log.length + 1) =
    if log.getLast? = some x then log.length :: following log x log.length
    else following log x log.length := by
  have hlast : (0 < log.length ∧ (log ++ [y])[log.length - 1]? = some x) ↔
      log.getLast? = some x := by
    rcases log.eq_nil_or_concat with rfl | ⟨front, z, rfl⟩
    · simp
    · simp
  rw [following, following_append (Nat.le_refl _)]
  simp only [hlast]

theorem following_cons (h : following log x n = p :: older) :
    0 < p ∧ p < n ∧ log[p - 1]? = some x ∧ older = following log x p := by
  induction n with
  | zero => exact absurd h (List.cons_ne_nil p older).symm
  | succ n ih =>
    unfold following at h
    split at h
    case isTrue hx =>
      obtain ⟨rfl, rfl⟩ := List.cons.inj h
      exact ⟨hx.1, n.lt_succ_self, hx.2, rfl⟩
    case isFalse =>
      obtain ⟨hpos, hlt, hx, hold⟩ := ih h
      exact ⟨hpos, Nat.lt_succ_of_lt hlt, hx, hold⟩

end Following

end Sniper.Lib.Log
