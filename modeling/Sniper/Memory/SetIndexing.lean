import Sniper.Memory.AddressHash

/-! # What the set of a block says about the block

When two blocks in one set always agree modulo a power of two: for the plain remainders when it
divides the number of sets, and for the others hardly ever. -/

namespace Sniper.Memory.AddressHash

/-- Two blocks in one set agree modulo `locks`. -/
def Determines (locks bound : Nat) (m_hash : hash_t) (n log : Nat) : Prop :=
  ∀ x < bound, ∀ y < bound, ∀ i, setOf m_hash n log x = some i → setOf m_hash n log y = some i →
    x ≡ y [MOD locks]

/-- When they do. -/
def Nests (locks : Nat) (m_hash : hash_t) (n : Nat) : Prop :=
  match m_hash with
  | .HASH_MASK | .HASH_MOD | .HASH_RNG1_MOD | .HASH_RNG2_MOD => locks ∣ n
  | .HASH_MER_MOD => locks ∣ n - 1
  | .HASH_XOR_MOD => locks = 1
  | .HASH_PRIME_DIS => locks = 1 ∨ n = 2 ^ n.log2 + 3 ∧ locks ∣ 2 ^ n.log2

section Remainders
variable {locks bound n log x i : Nat}

theorem rem_eq_some {a b} (hb : b ≠ 0) : rem a b = some (a % b) := if_neg hb

theorem modEq_of_dvd (hdvd : locks ∣ n) {a b} (h : a % n = b % n) : a ≡ b [MOD locks] :=
  (show a ≡ b [MOD n] from h).of_dvd hdvd

/-! ### Pseudo-random numbers -/

theorem rng_next_eq (state : Nat) :
    rng_next state = ((RNG_A * state + RNG_C) % 2 ^ 48 / 2 ^ 16,
      (RNG_A * state + RNG_C) % 2 ^ 48) := by
  have hmask : ∀ a : Nat, a % 2 ^ 64 &&& RNG_M = a % 2 ^ 48 := by
    intro a
    rw [RNG_M, Nat.and_two_pow_sub_one_eq_mod]
    exact Nat.mod_mod_of_dvd a (by decide)
  unfold rng_next
  dsimp only
  rw [hmask, Nat.shiftRight_eq_div_pow]

theorem rng_linear (a s x : Nat) :
    (a * (x * 2 ^ 16) + s) % 2 ^ 48 / 2 ^ 16 = (a * x + s / 2 ^ 16) % 2 ^ 32 := by
  rw [show (2 : Nat) ^ 48 = 2 ^ 16 * 2 ^ 32 by decide, Nat.mod_mul_right_div_self, ← mul_assoc,
    add_comm, Nat.add_mul_div_right _ _ (by decide), add_comm]

theorem rng_seed_modEq (x : Nat) : rng_seed x ≡ x * 2 ^ 16 + 0x330E [MOD 2 ^ 48] := by
  unfold rng_seed
  rw [Nat.shiftLeft_eq]
  exact (Nat.mod_modEq _ _).of_dvd (by decide)

theorem rng1_eq : ∃ a c, Odd a ∧ ∀ x, (rng_next (rng_seed x)).1 = (a * x + c) % 2 ^ 32 := by
  refine ⟨RNG_A, (RNG_A * 0x330E + RNG_C) / 2 ^ 16, by decide, fun x => ?_⟩
  have hstate : RNG_A * rng_seed x + RNG_C ≡
      RNG_A * (x * 2 ^ 16) + (RNG_A * 0x330E + RNG_C) [MOD 2 ^ 48] := by
    rw [← add_assoc, ← mul_add]
    exact ((rng_seed_modEq x).mul_left _).add_right _
  rw [rng_next_eq, ← rng_linear]
  exact congrArg (· / 2 ^ 16) hstate

theorem rng2_eq : ∃ a c, Odd a ∧
    ∀ x, (rng_next (rng_next (rng_seed x)).2).1 = (a * x + c) % 2 ^ 32 := by
  refine ⟨RNG_A * RNG_A, (RNG_A * (RNG_A * 0x330E + RNG_C) + RNG_C) / 2 ^ 16, by decide,
    fun x => ?_⟩
  have hstate : RNG_A * ((RNG_A * rng_seed x + RNG_C) % 2 ^ 48) + RNG_C ≡
      RNG_A * RNG_A * (x * 2 ^ 16) + (RNG_A * (RNG_A * 0x330E + RNG_C) + RNG_C) [MOD 2 ^ 48] := by
    have hfirst : (RNG_A * rng_seed x + RNG_C) % 2 ^ 48 ≡
        RNG_A * (x * 2 ^ 16) + (RNG_A * 0x330E + RNG_C) [MOD 2 ^ 48] := by
      refine (Nat.mod_modEq _ _).trans ?_
      rw [← add_assoc, ← mul_add]
      exact ((rng_seed_modEq x).mul_left _).add_right _
    rw [← add_assoc, mul_assoc, ← mul_add]
    exact (hfirst.mul_left _).add_right _
  rw [rng_next_eq, rng_next_eq, ← rng_linear]
  exact congrArg (· / 2 ^ 16) hstate

theorem linear_determines {a c s} (ha : Odd a) (hs : s ≤ 32) (hn : n ≠ 0) (hlt : n < 2 ^ 32)
    (hbound : 2 ^ 32 ≤ bound) :
    (∀ x < bound, ∀ y < bound, ∀ i, rem ((a * x + c) % 2 ^ 32) n = some i →
      rem ((a * y + c) % 2 ^ 32) n = some i → x ≡ y [MOD 2 ^ s]) ↔ 2 ^ s ∣ n := by
  have hcop : ∀ t : Nat, Nat.Coprime (2 ^ t) a := fun t => (Nat.coprime_two_left.mpr ha).pow_left t
  constructor
  · intro h
    -- the blocks whose numbers are zero and `n`
    obtain ⟨b, -, hb⟩ := Nat.exists_mul_mod_eq_one_of_coprime (hcop 32).symm (by decide)
    have hblock : ∀ t < 2 ^ 32, ∃ x < 2 ^ 32, (a * x + c) % 2 ^ 32 = t := by
      intro t ht
      refine ⟨b * (t + (2 ^ 32 - c % 2 ^ 32)) % 2 ^ 32, Nat.mod_lt _ (by decide), ?_⟩
      have hunit : a * b ≡ 1 [MOD 2 ^ 32] := hb
      have hcancel : t + (2 ^ 32 - c % 2 ^ 32) + c ≡ t [MOD 2 ^ 32] := by
        unfold Nat.ModEq
        omega
      have hlin : a * (b * (t + (2 ^ 32 - c % 2 ^ 32)) % 2 ^ 32) + c ≡ t [MOD 2 ^ 32] := by
        refine ((((Nat.mod_modEq _ _).mul_left a).trans ?_).add_right c).trans hcancel
        have hmul := hunit.mul_right (t + (2 ^ 32 - c % 2 ^ 32))
        rwa [mul_assoc, one_mul] at hmul
      rw [Nat.ModEq, Nat.mod_eq_of_lt ht] at hlin
      exact hlin
    obtain ⟨x, hx, hxt⟩ := hblock 0 (by decide)
    obtain ⟨y, hy, hyt⟩ := hblock n hlt
    have hxy := h x (hx.trans_le hbound) y (hy.trans_le hbound) 0
      (by rw [hxt, rem_eq_some hn, Nat.zero_mod]) (by rw [hyt, rem_eq_some hn, Nat.mod_self])
    have hnum : (a * x + c) % 2 ^ 32 ≡ (a * y + c) % 2 ^ 32 [MOD 2 ^ s] := by
      have hdvd : 2 ^ s ∣ 2 ^ 32 := Nat.pow_dvd_pow 2 hs
      exact (((Nat.mod_modEq _ _).of_dvd hdvd).trans ((hxy.mul_left a).add_right c)).trans
        ((Nat.mod_modEq _ _).of_dvd hdvd).symm
    rw [hxt, hyt] at hnum
    exact (Nat.modEq_zero_iff_dvd.mp hnum.symm)
  · intro hdvd x _ y _ i hx hy
    rw [rem_eq_some hn, Option.some.injEq] at hx hy
    have hnum := modEq_of_dvd hdvd (hx.trans hy.symm)
    have hpow : 2 ^ s ∣ 2 ^ 32 := Nat.pow_dvd_pow 2 hs
    have hlin : a * x + c ≡ a * y + c [MOD 2 ^ s] :=
      (((Nat.mod_modEq _ _).of_dvd hpow).symm.trans hnum).trans ((Nat.mod_modEq _ _).of_dvd hpow)
    exact (Nat.ModEq.add_right_cancel' c hlin).cancel_left_of_coprime (hcop s)

/-! ### Parity -/

theorem two_pow_eq_one {s y} (h : x ≡ y [MOD 2 ^ s]) (hpar : x % 2 ≠ y % 2) : 2 ^ s = 1 := by
  cases s with
  | zero => rfl
  | succ s => exact absurd (h.of_dvd (Dvd.intro_left _ (Nat.pow_succ ..).symm)) hpar

theorem even_two_pow {k} (hk : k ≠ 0) : 2 ^ k % 2 = 0 := by
  obtain ⟨j, rfl⟩ := Nat.exists_eq_succ_of_ne_zero hk
  rw [Nat.pow_succ, Nat.mul_mod_left]

/-! ### Exclusive or -/

theorem setOf_xor (hn : n ≠ 0) (x : Nat) :
    setOf .HASH_XOR_MOD n log x = some ((x % n) ^^^ (x / 2 ^ log % n)) := by
  simp only [setOf, rem_eq_some hn, Nat.shiftRight_eq_div_pow, Option.bind_eq_bind,
    Option.bind_some]
  rfl

theorem exists_xor_same (hn : 0 < n) : ∃ x ≤ 3 * n, ∃ y ≤ 3 * n, x % 2 ≠ y % 2 ∧
    (x % n) ^^^ (x / 2 ^ n.log2 % n) = (y % n) ^^^ (y / 2 ^ n.log2 % n) := by
  have hlow := Nat.log2_self_le hn.ne'
  have hhigh := Nat.lt_log2_self (n := n)
  rw [Nat.pow_succ] at hhigh
  obtain hzero | hk := Nat.eq_zero_or_pos n.log2
  · rw [hzero] at hhigh
    have hone : n = 1 := by omega
    subst hone
    exact ⟨0, by decide, 1, by decide, by decide, by decide⟩
  have heven := even_two_pow hk.ne'
  obtain hpar | hpar := Nat.mod_two_eq_zero_or_one n
  · -- `n` itself, and one
    have htwo : 2 ^ 1 ≤ 2 ^ n.log2 := Nat.pow_le_pow_right two_pos hk
    have hquot : n / 2 ^ n.log2 = 1 := Nat.div_eq_of_lt_le (by omega) (by omega)
    refine ⟨n, by omega, 1, by omega, by omega, ?_⟩
    rw [Nat.mod_self, hquot, Nat.div_eq_of_lt (by omega), Nat.mod_eq_of_lt (by omega : 1 < n),
      Nat.zero_mod, Nat.zero_xor, Nat.xor_zero]
  · by_cases hthree : n = 3
    · subst hthree
      exact ⟨0, by decide, 5, by decide, by decide, by decide⟩
    -- a block two runs of `2 ^ k` further on
    have hfour : 2 ^ 2 ≤ 2 ^ n.log2 := by
      refine Nat.pow_le_pow_right two_pos ?_
      by_contra hless
      have hone : n.log2 = 1 := by omega
      rw [hone] at hhigh hlow
      omega
    have hquot : 2 ^ n.log2 * 2 / 2 ^ n.log2 = 2 := Nat.mul_div_cancel_left _ (by omega)
    have hmod : 2 ^ n.log2 * 2 % n = 2 ^ n.log2 * 2 - n := by
      rw [Nat.mod_eq_sub_mod hhigh.le, Nat.mod_eq_of_lt (by omega)]
    have hlt : (2 ^ n.log2 * 2 - n) ^^^ 2 < 2 ^ n.log2 :=
      Nat.xor_lt_two_pow (by omega) (by omega)
    refine ⟨2 ^ n.log2 * 2, by omega, (2 ^ n.log2 * 2 - n) ^^^ 2, by omega, ?_, ?_⟩
    · have hsum : ((2 ^ n.log2 * 2 - n) ^^^ 2) % 2 ^ 1 =
          (2 ^ n.log2 * 2 - n) % 2 ^ 1 ^^^ 2 % 2 ^ 1 := Nat.xor_mod_two_pow
      have hodd : (2 ^ n.log2 * 2 - n) % 2 = 1 := by omega
      rw [pow_one, hodd] at hsum
      rw [hsum, Nat.mul_mod_left]
      decide
    · rw [hmod, hquot, Nat.mod_eq_of_lt (by omega : 2 < n), Nat.div_eq_of_lt hlt, Nat.zero_mod,
        Nat.xor_zero, Nat.mod_eq_of_lt (by omega)]

/-! ### Prime displacement -/

theorem setOf_prime (hn : n ≠ 0) (hlt : 3 * (x / 2 ^ log) + x % n < 2 ^ 64) :
    setOf .HASH_PRIME_DIS n log x =
      some (((2 ^ log + 3) * (x / 2 ^ log) + x % 2 ^ log) % n) := by
  simp only [setOf, rem_eq_some hn, Nat.shiftRight_eq_div_pow, Option.bind_eq_bind,
    Option.bind_some]
  rw [Nat.mod_eq_of_lt hlt, Nat.add_mod_mod]
  have hdiv := Nat.div_add_mod x (2 ^ log)
  rw [add_mul]
  congr 2
  omega

theorem prime_same (hn : 0 < n) (hlt : n < 2 ^ 32) {turns r y q} (hr : r < 2 ^ n.log2)
    (hturns : turns ≤ 3) (hy : y < 2 ^ n.log2) (heq : (2 ^ n.log2 + 3) * turns + r = n * q + y) :
    ∃ i, setOf .HASH_PRIME_DIS n n.log2 (2 ^ n.log2 * turns + r) = some i ∧
      setOf .HASH_PRIME_DIS n n.log2 y = some i := by
  have hlow := Nat.log2_self_le hn.ne'
  have hpos := Nat.two_pow_pos n.log2
  have hquot : (2 ^ n.log2 * turns + r) / 2 ^ n.log2 = turns := by
    rw [Nat.mul_add_div hpos, Nat.div_eq_of_lt hr, add_zero]
  have hmod : (2 ^ n.log2 * turns + r) % 2 ^ n.log2 = r := by
    rw [Nat.mul_add_mod, Nat.mod_eq_of_lt hr]
  have hrest := Nat.mod_lt (2 ^ n.log2 * turns + r) hn
  have hyn : y < n := hy.trans_le hlow
  refine ⟨y, ?_, ?_⟩
  · rw [setOf_prime hn.ne' (by rw [hquot]; omega), hquot, hmod, heq, Nat.mul_add_mod,
      Nat.mod_eq_of_lt hyn]
  · rw [setOf_prime hn.ne' (by rw [Nat.div_eq_of_lt hy, Nat.mod_eq_of_lt hyn]; omega),
      Nat.div_eq_of_lt hy, mul_zero, zero_add, Nat.mod_eq_of_lt hy, Nat.mod_eq_of_lt hyn]

theorem exists_prime_same (hn : 0 < n) (hlt : n < 2 ^ 32) (hne : n ≠ 2 ^ n.log2 + 3) :
    ∃ x ≤ 3 * n, ∃ y ≤ 3 * n, x % 2 ≠ y % 2 ∧ ∃ i,
      setOf .HASH_PRIME_DIS n n.log2 x = some i ∧ setOf .HASH_PRIME_DIS n n.log2 y = some i := by
  have hlow := Nat.log2_self_le hn.ne'
  have hhigh := Nat.lt_log2_self (n := n)
  rw [Nat.pow_succ] at hhigh
  -- what makes two blocks a pair
  have hpair : ∀ turns r y q, r < 2 ^ n.log2 → turns ≤ 3 → y < 2 ^ n.log2 →
      (2 ^ n.log2 + 3) * turns + r = n * q + y → 2 ^ n.log2 * turns + r ≤ 3 * n →
      (2 ^ n.log2 * turns + r) % 2 ≠ y % 2 → ∃ x ≤ 3 * n, ∃ y ≤ 3 * n, x % 2 ≠ y % 2 ∧ ∃ i,
        setOf .HASH_PRIME_DIS n n.log2 x = some i ∧ setOf .HASH_PRIME_DIS n n.log2 y = some i :=
    fun turns r y q hr hturns hy heq hle hpar =>
      ⟨_, hle, y, by omega, hpar, prime_same hn hlt hr hturns hy heq⟩
  obtain hzero | hk := Nat.eq_zero_or_pos n.log2
  · rw [hzero] at hhigh
    have hone : n = 1 := by omega
    subst hone
    exact ⟨0, by decide, 1, by decide, by decide, 0, by decide, by decide⟩
  have heven := even_two_pow hk.ne'
  have htwo : 2 ^ 1 ≤ 2 ^ n.log2 := Nat.pow_le_pow_right two_pos hk
  obtain hpar | hpar := Nat.mod_two_eq_zero_or_one n
  · obtain hone | hmore := eq_or_ne n.log2 1
    · rw [hone] at hhigh hlow
      have htwosets : n = 2 := by omega
      subst htwosets
      exact ⟨0, by decide, 3, by decide, by decide, 0, by decide, by decide⟩
    · have hfour : 2 ^ 2 ≤ 2 ^ n.log2 := Nat.pow_le_pow_right two_pos (by omega)
      exact hpair 1 (n - 2 ^ n.log2) 3 1 (by omega) (by omega) (by omega) (by omega) (by omega)
        (by omega)
  · obtain hone | hmore : n = 2 ^ n.log2 + 1 ∨ 2 ^ n.log2 + 5 ≤ n := by omega
    · exact hpair 1 (2 ^ n.log2 - 1) 0 2 (by omega) (by omega) (by omega) (by omega) (by omega)
        (by omega)
    · obtain hfive | hseven : n = 2 ^ n.log2 + 5 ∨ 2 ^ n.log2 + 7 ≤ n := by omega
      · exact hpair 3 0 (2 ^ n.log2 - 1) 2 (by omega) (by omega) (by omega) (by omega) (by omega)
          (by omega)
      · exact hpair 2 0 (2 ^ n.log2 * 2 + 6 - n) 1 (by omega) (by omega) (by omega) (by omega)
          (by omega) (by omega)

/-- With three sets more than a power of two, only the low bits of a block count. -/
theorem prime_determines {k} (hlt : n < 2 ^ 32) (hk : n.log2 = k) (hn : n = 2 ^ k + 3)
    (hdvd : locks ∣ 2 ^ k) {y} (hx : x < 2 ^ 64) (hy : y < 2 ^ 64)
    (hxi : setOf .HASH_PRIME_DIS n n.log2 x = some i)
    (hyi : setOf .HASH_PRIME_DIS n n.log2 y = some i) : x ≡ y [MOD locks] := by
  have hpow := Nat.two_pow_pos k
  have hpos : n ≠ 0 := by omega
  have hhigh := Nat.lt_log2_self (n := n)
  rw [hk, Nat.pow_succ] at hhigh
  have hfour : 2 ^ 2 ≤ 2 ^ k := by
    refine Nat.pow_le_pow_right two_pos ?_
    by_contra hless
    have hsmall : 2 ^ k ≤ 2 ^ 1 := Nat.pow_le_pow_right two_pos (by omega)
    omega
  have hset : ∀ z < 2 ^ 64, setOf .HASH_PRIME_DIS n k z = some (z % 2 ^ k) := by
    intro z hz
    have hrest := Nat.mod_lt z (Nat.pos_of_ne_zero hpos)
    have hquot : z / 2 ^ k ≤ z / 4 := Nat.div_le_div_left hfour (by decide)
    have hsum : 3 * (z / 2 ^ k) + z % n < 2 ^ 64 := by omega
    rw [setOf_prime hpos hsum, ← hn, Nat.mul_add_mod, Nat.mod_eq_of_lt (by omega)]
  rw [hk, hset x hx] at hxi
  rw [hk, hset y hy] at hyi
  exact modEq_of_dvd hdvd ((Option.some.inj hxi).trans (Option.some.inj hyi).symm)

/-! ### All hashes -/

theorem mod_determines (hn : n ≠ 0) (hbound : n < bound) :
    (∀ x < bound, ∀ y < bound, ∀ i, rem x n = some i → rem y n = some i → x ≡ y [MOD locks]) ↔
      locks ∣ n := by
  constructor
  · intro h
    have hzero := h 0 (n.zero_le.trans_lt hbound) n hbound 0
      (by rw [rem_eq_some hn, Nat.zero_mod]) (by rw [rem_eq_some hn, Nat.mod_self])
    exact Nat.modEq_zero_iff_dvd.mp hzero.symm
  · intro hdvd x _ y _ i hx hy
    rw [rem_eq_some hn, Option.some.injEq] at hx hy
    exact modEq_of_dvd hdvd (hx.trans hy.symm)

theorem determines_iff {m_hash s} (hn : 0 < n) (hlt : n < 2 ^ 32) (hs : s ≤ 32)
    (hthree : 3 * n < bound) (hlow : 2 ^ 32 ≤ bound) (hhigh : bound ≤ 2 ^ 64)
    (hmask : m_hash = .HASH_MASK → n = 2 ^ n.log2) :
    Determines (2 ^ s) bound m_hash n n.log2 ↔ Nests (2 ^ s) m_hash n := by
  cases m_hash with
  | HASH_MASK =>
    have hrem : ∀ x, setOf .HASH_MASK n n.log2 x = rem x n := by
      intro x
      rw [rem_eq_some hn.ne', setOf]
      congr 1
      rw [hmask rfl, Nat.and_two_pow_sub_one_eq_mod]
    unfold Determines
    simp only [hrem]
    exact mod_determines hn.ne' (by omega)
  | HASH_MOD => exact mod_determines hn.ne' (by omega)
  | HASH_RNG1_MOD =>
    obtain ⟨a, c, ha, hrng⟩ := rng1_eq
    unfold Determines setOf
    simp only [hrng]
    exact linear_determines ha hs hn.ne' hlt hlow
  | HASH_RNG2_MOD =>
    obtain ⟨a, c, ha, hrng⟩ := rng2_eq
    unfold Determines setOf
    simp only [hrng]
    exact linear_determines ha hs hn.ne' hlt hlow
  | HASH_PRIME_DIS =>
    constructor
    · intro h
      obtain hne | heq := ne_or_eq n (2 ^ n.log2 + 3)
      · obtain ⟨x, hx, y, hy, hpar, i, hxi, hyi⟩ := exists_prime_same hn hlt hne
        exact .inl (two_pow_eq_one (h x (by omega) y (by omega) i hxi hyi) hpar)
      · have hpos := Nat.two_pow_pos n.log2
        obtain ⟨i, hxi, hyi⟩ : ∃ i,
            setOf .HASH_PRIME_DIS n n.log2 (2 ^ n.log2 * 1 + 0) = some i ∧
              setOf .HASH_PRIME_DIS n n.log2 0 = some i :=
          prime_same hn hlt hpos (by decide) hpos (q := 1) (by omega)
        have hmod := h _ (by omega) 0 (by omega) i hxi hyi
        rw [mul_one, add_zero] at hmod
        exact .inr ⟨heq, Nat.modEq_zero_iff_dvd.mp hmod⟩
    · rintro (hone | ⟨heq, hdvd⟩) x hx y hy i hxi hyi
      · rw [hone]
        exact Nat.modEq_one
      · exact prime_determines hlt rfl heq hdvd (hx.trans_le hhigh) (hy.trans_le hhigh) hxi hyi
  | HASH_XOR_MOD =>
    constructor
    · intro h
      obtain ⟨x, hx, y, hy, hpar, hsame⟩ := exists_xor_same hn
      exact two_pow_eq_one (h x (by omega) y (by omega) _ (setOf_xor hn.ne' x)
        (by rw [setOf_xor hn.ne' y, hsame])) hpar
    · intro hone x _ y _ i _ _
      rw [show 2 ^ s = 1 from hone]
      exact Nat.modEq_one
  | HASH_MER_MOD =>
    obtain hone | hmore := eq_or_ne n 1
    · subst hone
      exact iff_of_true (fun x _ y _ i hx _ => by cases hx) (dvd_zero _)
    · exact mod_determines (by omega) (by omega)

end Remainders
end Sniper.Memory.AddressHash
