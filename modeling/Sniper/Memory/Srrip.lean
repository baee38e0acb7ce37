import Sniper.Memory.ReplacementPolicies

/-! # Re-reference interval prediction

`CacheSetSRRIP`, with and without query-based selection. Each round looks at as many ways as
there are, from the replacement pointer on, and then ages all ways; a way that is refused is
looked at twice. The histograms are left out. -/

namespace Sniper.Memory.Replacement
open SetAssoc Function

/-- `CacheSetSRRIP`, what its constructor sets. -/
structure SRRIPConfig where
  m_rrip_numbits : Nat
  m_num_attempts : UInt8
  numbits_pos : 0 < m_rrip_numbits
  numbits_le : m_rrip_numbits ≤ 8
  attempts_pos : 0 < m_num_attempts.toNat

namespace SRRIPConfig
variable (cfg : SRRIPConfig)

def m_rrip_max : UInt8 := UInt8.ofNat (1 <<< cfg.m_rrip_numbits - 1)

def m_rrip_insert : UInt8 := cfg.m_rrip_max - 1

end SRRIPConfig

structure SRRIP (n : Nat) where
  m_rrip_bits : Bits n
  m_replacement_pointer : Pointer n

namespace SRRIP
open LRU (isInLowerLevelCache)

variable {n : Nat} {V : Type}

/-- How a round ends: with a way and the attempt that took it, or without one. -/
inductive Round (n : Nat) where
  | found (index : Fin (n + 1)) (s : SRRIP n) (attempt : Nat)
  | rest (s : SRRIP n) (attempt : Nat)

/-- The inner loop, with the number of iterations left. -/
def search (cfg : SRRIPConfig) (cntlr : Option (Block V → Bool)) (blocks : Blocks n V) :
    Nat → SRRIP n → Nat → Except Stop (Round n)
  | 0, s, attempt => .ok (.rest s attempt)
  | left + 1, s, attempt =>
    let index := s.m_replacement_pointer.way
    if cfg.m_rrip_max ≤ s.m_rrip_bits index then do
      let qbs_reject ← if attempt + 1 < cfg.m_num_attempts.toNat then
        isInLowerLevelCache cntlr (blocks index) else pure false
      if qbs_reject then
        search cfg cntlr blocks left
          { s with m_rrip_bits := update s.m_rrip_bits index 0 } (attempt + 1)
      else if isValidReplacement blocks index then
        return .found index ⟨update s.m_rrip_bits index cfg.m_rrip_insert,
          s.m_replacement_pointer.advance⟩ attempt
      else throw (.error "SRRIP selected an invalid replacement candidate")
    else
      search cfg cntlr blocks left
        { s with m_replacement_pointer := s.m_replacement_pointer.advance } attempt

/-- All counters go up, unless they are at the maximum. -/
def age (cfg : SRRIPConfig) (bits : Bits n) : Bits n := fun i =>
  if bits i < cfg.m_rrip_max then bits i + 1 else bits i

/-- The outer loop, with the number of rounds left. -/
def rounds (cfg : SRRIPConfig) (cntlr : Option (Block V → Bool)) (blocks : Blocks n V) :
    Nat → SRRIP n → Nat → Except Stop (Fin (n + 1) × SRRIP n × Nat)
  | 0, _, _ => .error (.error "Error finding replacement index")
  | left + 1, s, attempt => do
    match ← search cfg cntlr blocks (n + 1) s attempt with
    | .found index s attempt => return (index, s, attempt)
    | .rest s attempt =>
      rounds cfg cntlr blocks left { s with m_rrip_bits := age cfg s.m_rrip_bits } attempt

/-- `getReplacementIndex`, with the number of the attempt. -/
def getReplacementIndex (cfg : SRRIPConfig) (cntlr : Option (Block V → Bool)) (blocks : Blocks n V)
    (s : SRRIP n) : Except Stop (Fin (n + 1) × SRRIP n × Nat) :=
  match firstInvalid blocks with
  | some i =>
    .ok (i, { s with m_rrip_bits := update s.m_rrip_bits i cfg.m_rrip_insert }, 0)
  | none => rounds cfg cntlr blocks (cfg.m_rrip_max.toNat + 1) s 0

def updateReplacementIndex (s : SRRIP n) (accessed_index : Fin (n + 1)) : SRRIP n :=
  if 0 < s.m_rrip_bits accessed_index then
    { s with m_rrip_bits :=
        update s.m_rrip_bits accessed_index (s.m_rrip_bits accessed_index - 1) }
  else s

/-! ### Counters -/

theorem toNat_rrip_max (cfg : SRRIPConfig) :
    cfg.m_rrip_max.toNat = 2 ^ cfg.m_rrip_numbits - 1 ∧ 0 < cfg.m_rrip_max.toNat := by
  have hle : 2 ^ cfg.m_rrip_numbits ≤ 2 ^ 8 := Nat.pow_le_pow_right Nat.zero_lt_two cfg.numbits_le
  have hge : 2 ^ 1 ≤ 2 ^ cfg.m_rrip_numbits := Nat.pow_le_pow_right Nat.zero_lt_two cfg.numbits_pos
  have heq : cfg.m_rrip_max.toNat = 2 ^ cfg.m_rrip_numbits - 1 := by
    rw [SRRIPConfig.m_rrip_max, UInt8.toNat_ofNat', Nat.one_shiftLeft]
    exact Nat.mod_eq_of_lt (by omega)
  exact ⟨heq, by omega⟩

/-- No counter is above the maximum. -/
def Bounded (cfg : SRRIPConfig) (bits : Bits n) : Prop :=
  ∀ i, (bits i).toNat ≤ cfg.m_rrip_max.toNat

theorem Bounded.update {cfg bits} (h : Bounded cfg bits) (i : Fin (n + 1)) {counter}
    (hcounter : counter.toNat ≤ cfg.m_rrip_max.toNat) :
    Bounded cfg (update bits i counter) := by
  intro j
  by_cases heq : j = i
  · rw [heq, update_self]
    exact hcounter
  · rw [update_of_ne heq]
    exact h j

theorem toNat_rrip_insert (cfg : SRRIPConfig) :
    cfg.m_rrip_insert.toNat ≤ cfg.m_rrip_max.toNat := by
  have hpos := (toNat_rrip_max cfg).2
  have hone : (1 : UInt8) ≤ cfg.m_rrip_max := UInt8.le_iff_toNat_le.mpr hpos
  rw [SRRIPConfig.m_rrip_insert, UInt8.toNat_sub_of_le _ _ hone]
  exact Nat.sub_le ..

theorem toNat_age (cfg : SRRIPConfig) (bits : Bits n) (i : Fin (n + 1)) :
    (age cfg bits i).toNat = if (bits i).toNat < cfg.m_rrip_max.toNat then (bits i).toNat + 1
      else (bits i).toNat := by
  unfold age
  by_cases hlt : bits i < cfg.m_rrip_max
  · have hlt' := UInt8.lt_iff_toNat_lt.mp hlt
    have hbyte := cfg.m_rrip_max.toNat_lt
    rw [if_pos hlt, if_pos hlt', UInt8.toNat_add]
    exact Nat.mod_eq_of_lt (by simp; omega)
  · rw [if_neg hlt, if_neg (mt UInt8.lt_iff_toNat_lt.mpr hlt)]

theorem Bounded.age {cfg : SRRIPConfig} {bits : Bits n} (h : Bounded cfg bits) :
    Bounded cfg (age cfg bits) := by
  intro i
  have hi := h i
  rw [toNat_age]
  split_ifs <;> omega

/-! ### The replacement pointer -/

theorem toNat_advance (p : Pointer n) :
    p.advance.1.toNat = (p.1.toNat + 1) % min (n + 1) 256 := by
  have hbyte := p.1.toNat_lt
  rw [Pointer.advance, UInt8.toNat_ofNat']
  by_cases hle : n + 1 ≤ 256
  · rw [min_eq_left hle]
    exact Nat.mod_eq_of_lt ((Nat.mod_lt _ n.succ_pos).trans_le hle)
  · rw [min_eq_right (by omega), Nat.mod_eq_of_lt (by omega : p.1.toNat + 1 < n + 1)]

theorem toNat_iterate_advance (p : Pointer n) (k : Nat) :
    (Pointer.advance^[k] p).1.toNat = (p.1.toNat + k) % min (n + 1) 256 := by
  induction k with
  | zero =>
    have hlt : p.1.toNat < min (n + 1) 256 := lt_min p.2 p.1.toNat_lt
    exact (Nat.mod_eq_of_lt hlt).symm
  | succ k ih => rw [Function.iterate_succ_apply', toNat_advance, ih, Nat.mod_add_mod, add_assoc]

theorem iterate_advance_injOn (p : Pointer n) :
    Set.InjOn (fun k => (Pointer.advance^[k] p).way) {k | k < min (n + 1) 256} := by
  intro k hk k' hk' heq
  have hval := congrArg Fin.val heq
  change (Pointer.advance^[k] p).1.toNat = (Pointer.advance^[k'] p).1.toNat at hval
  rw [toNat_iterate_advance, toNat_iterate_advance] at hval
  exact (Nat.ModEq.add_left_cancel' p.1.toNat hval).eq_of_lt_of_lt hk hk'

/-! ### A round -/

/-- The ways with a counter below a bound. -/
def low (bits : Bits n) (bound : Nat) : Finset (Fin (n + 1)) :=
  Finset.univ.filter fun way => (bits way).toNat < bound

theorem mem_low {bits : Bits n} {bound : Nat} {way : Fin (n + 1)} :
    way ∈ low bits bound ↔ (bits way).toNat < bound := by
  simp [low]

theorem card_low_update (bits : Bits n) (bound : Nat) (i : Fin (n + 1)) (counter : UInt8) :
    (low (update bits i counter) bound).card ≤ (low bits bound).card + 1 := by
  have hsub : low (update bits i counter) bound ⊆ Insert.insert i (low bits bound) := by
    intro way hway
    rw [Finset.mem_insert]
    by_cases heq : way = i
    · exact .inl heq
    · rw [mem_low, update_of_ne heq] at hway
      exact .inr (mem_low.mpr hway)
  exact (Finset.card_le_card hsub).trans (Finset.card_insert_le ..)

/-- A way that may be taken: it is accepted, or the attempts are used up. -/
def Taken (cfg : SRRIPConfig) (query : Block V → Bool) (blocks : Blocks n V) (index : Fin (n + 1))
    (attempt : Nat) : Prop :=
  query (blocks index) = true → attempt + 1 = cfg.m_num_attempts.toNat

/-- A round takes a way, or refuses some and passes the others, with counters below the
maximum. -/
inductive RoundSpec (cfg : SRRIPConfig) (query : Block V → Bool) (blocks : Blocks n V) (left : Nat)
    (s : SRRIP n) (attempt : Nat) : Round n → Prop
  | found {index s' attempt'} (hbits : Bounded cfg s'.m_rrip_bits)
      (htaken : Taken cfg query blocks index attempt') :
      RoundSpec cfg query blocks left s attempt (.found index s' attempt')
  | rest {s'} (refused passed : Nat) (hbits : Bounded cfg s'.m_rrip_bits)
      (hleft : left = refused + passed)
      (hattempt : attempt + refused + 1 ≤ cfg.m_num_attempts.toNat)
      (hdown : ∀ way, (s'.m_rrip_bits way).toNat ≤ (s.m_rrip_bits way).toNat)
      (hlow : ∀ bound, (low s'.m_rrip_bits bound).card ≤ (low s.m_rrip_bits bound).card + refused)
      (hpassed : ∀ k < passed, (Pointer.advance^[k] s.m_replacement_pointer).way ∈
        low s'.m_rrip_bits cfg.m_rrip_max.toNat) :
      RoundSpec cfg query blocks left s attempt (.rest s' (attempt + refused))

section RoundSpec
variable {cfg : SRRIPConfig} {query : Block V → Bool} {blocks : Blocks n V} {left attempt : Nat}
  {s : SRRIP n} {round : Round n}

theorem RoundSpec.refuse {i} (h : RoundSpec cfg query blocks left
      { s with m_rrip_bits := update s.m_rrip_bits i 0 } (attempt + 1) round) :
    RoundSpec cfg query blocks (left + 1) s attempt round := by
  cases h with
  | found hbits htaken => exact .found hbits htaken
  | rest refused passed hbits hleft hattempt hdown hlow hpassed =>
    rw [add_assoc, add_comm 1 refused]
    refine .rest (refused + 1) passed hbits (by omega) (by omega) ?_ ?_ hpassed
    · intro way
      refine (hdown way).trans ?_
      dsimp only
      by_cases heq : way = i
      · rw [heq, update_self]
        exact Nat.zero_le _
      · rw [update_of_ne heq]
    · intro bound
      have hupdate := card_low_update s.m_rrip_bits bound i 0
      have := hlow bound
      dsimp only at this
      omega

theorem RoundSpec.pass (hlt : (s.m_rrip_bits s.m_replacement_pointer.way).toNat <
      cfg.m_rrip_max.toNat)
    (h : RoundSpec cfg query blocks left
      { s with m_replacement_pointer := s.m_replacement_pointer.advance } attempt round) :
    RoundSpec cfg query blocks (left + 1) s attempt round := by
  cases h with
  | found hbits htaken => exact .found hbits htaken
  | rest refused passed hbits hleft hattempt hdown hlow hpassed =>
    refine .rest refused (passed + 1) hbits (by omega) hattempt hdown hlow ?_
    intro k hk
    cases k with
    | zero => exact mem_low.mpr ((hdown _).trans_lt hlt)
    | succ k =>
      exact hpassed k (by omega)

end RoundSpec

theorem search_spec {cfg : SRRIPConfig} {query : Block V → Bool} {blocks : Blocks n V}
    (hready : ∀ i, isValidReplacement blocks i = true) (left : Nat) (s : SRRIP n) (attempt : Nat)
    (hbits : Bounded cfg s.m_rrip_bits) (hattempt : attempt + 1 ≤ cfg.m_num_attempts.toNat) :
    ∃ round, search cfg (some query) blocks left s attempt = .ok round ∧
      RoundSpec cfg query blocks left s attempt round := by
  induction left generalizing s attempt with
  | zero =>
    exact ⟨_, rfl, .rest 0 0 hbits rfl hattempt (fun _ => le_rfl)
      (fun _ => le_rfl) (fun k hk => absurd hk k.not_lt_zero)⟩
  | succ left ih =>
    rw [search]
    have haccept : Taken cfg query blocks s.m_replacement_pointer.way attempt →
        RoundSpec cfg query blocks (left + 1) s attempt (.found s.m_replacement_pointer.way
          ⟨update s.m_rrip_bits s.m_replacement_pointer.way cfg.m_rrip_insert,
            s.m_replacement_pointer.advance⟩ attempt) :=
      .found (hbits.update _ (toNat_rrip_insert cfg))
    by_cases hmax : cfg.m_rrip_max ≤ s.m_rrip_bits s.m_replacement_pointer.way
    · rw [if_pos hmax]
      by_cases hmore : attempt + 1 < cfg.m_num_attempts.toNat
      · rw [if_pos hmore]
        cases hquery : query (blocks s.m_replacement_pointer.way) with
        | true =>
          obtain ⟨round, hround, hspec⟩ := ih { s with
            m_rrip_bits := update s.m_rrip_bits s.m_replacement_pointer.way 0 }
            (attempt + 1) (hbits.update _ (Nat.zero_le _)) hmore
          refine ⟨round, ?_, ?_⟩
          · simp only [isInLowerLevelCache, hquery]
            exact hround
          · exact hspec.refuse
        | false =>
          refine ⟨_, ?_, haccept fun htrue => by cases hquery.symm.trans htrue⟩
          simp only [isInLowerLevelCache, hquery, hready]
          rfl
      · rw [if_neg hmore]
        refine ⟨_, ?_, haccept fun _ => by omega⟩
        simp only [hready]
        rfl
    · rw [if_neg hmax]
      obtain ⟨round, hround, hspec⟩ := ih { s with
        m_replacement_pointer := s.m_replacement_pointer.advance } attempt hbits hattempt
      exact ⟨round, hround, hspec.pass (UInt8.lt_iff_toNat_lt.mp (UInt8.not_le.mp hmax))⟩

/-! ### All rounds -/

theorem low_age_subset {cfg : SRRIPConfig} {bits : Bits n} {bound : Nat}
    (hlt : bound < cfg.m_rrip_max.toNat) : low (age cfg bits) (bound + 1) ⊆ low bits bound := by
  intro way hway
  rw [mem_low, toNat_age] at hway
  rw [mem_low]
  split_ifs at hway <;> omega

theorem passed_le {bits : Bits n} {p : Pointer n} {bound passed : Nat}
    (hpassed : ∀ k < passed, (Pointer.advance^[k] p).way ∈ low bits bound) :
    min passed (min (n + 1) 256) ≤ (low bits bound).card := by
  have hcard := Finset.card_le_card_of_injOn (s := Finset.range (min passed (min (n + 1) 256)))
    (t := low bits bound) (fun k => (Pointer.advance^[k] p).way)
    (fun k hk => hpassed k (by simp at hk; omega))
    ((iterate_advance_injOn p).mono fun k hk => by simp at hk ⊢; omega)
  rwa [Finset.card_range] at hcard

theorem rounds_spec {cfg : SRRIPConfig} {query : Block V → Bool} {blocks : Blocks n V}
    (hready : ∀ i, isValidReplacement blocks i = true)
    (hfew : cfg.m_num_attempts.toNat ≤ (n + 2) / 2) (left bound : Nat) {s : SRRIP n} {attempt : Nat}
    (hround : bound + left = cfg.m_rrip_max.toNat) (hbits : Bounded cfg s.m_rrip_bits)
    (hlow : (low s.m_rrip_bits bound).card ≤ attempt)
    (hattempt : attempt + 1 ≤ cfg.m_num_attempts.toNat) :
    ∃ index s' attempt', rounds cfg (some query) blocks (left + 1) s attempt =
        .ok (index, s', attempt') ∧
      Bounded cfg s'.m_rrip_bits ∧ Taken cfg query blocks index attempt' := by
  induction left generalizing bound s attempt with
  | zero =>
    obtain ⟨round, hsearch, hspec⟩ := search_spec hready (n + 1) s attempt hbits hattempt
    rw [rounds, hsearch]
    cases hspec with
    | found hbits' htaken => exact ⟨_, _, _, rfl, hbits', htaken⟩
    | rest refused passed hbits' hleft hattempt' hdown hlow' hpassed =>
      have hbyte := cfg.m_num_attempts.toNat_lt
      have hcard := passed_le hpassed
      have hafter := hlow' cfg.m_rrip_max.toNat
      rw [Nat.add_zero] at hround
      rw [hround] at hlow
      omega
  | succ left ih =>
    obtain ⟨round, hsearch, hspec⟩ := search_spec hready (n + 1) s attempt hbits hattempt
    rw [rounds, hsearch]
    cases hspec with
    | found hbits' htaken => exact ⟨_, _, _, rfl, hbits', htaken⟩
    | @rest s' refused passed hbits' hleft hattempt' hdown hlow' hpassed =>
      refine ih (bound + 1) (by omega) hbits'.age ?_ hattempt'
      have hsub : low (age cfg s'.m_rrip_bits) (bound + 1) ⊆ low s'.m_rrip_bits bound :=
        low_age_subset (by omega)
      exact ((Finset.card_le_card hsub).trans (hlow' bound)).trans
        (Nat.add_le_add_right hlow refused)

/-! ### Too many attempts -/

theorem search_refused {cfg : SRRIPConfig} {query : Block V → Bool} {blocks : Blocks n V}
    (hquery : ∀ block, query block = true) (left : Nat) {s : SRRIP n} {attempt : Nat}
    (hmany : attempt + (if cfg.m_rrip_max ≤ s.m_rrip_bits s.m_replacement_pointer.way then
      (left + 1) / 2 else left / 2) < cfg.m_num_attempts.toNat) :
    ∃ s' attempt', search cfg (some query) blocks left s attempt = .ok (.rest s' attempt') := by
  induction left generalizing s attempt with
  | zero => exact ⟨_, _, rfl⟩
  | succ left ih =>
    rw [search]
    by_cases hmax : cfg.m_rrip_max ≤ s.m_rrip_bits s.m_replacement_pointer.way
    · rw [if_pos hmax] at hmany
      rw [if_pos hmax, if_pos (by omega)]
      simp only [isInLowerLevelCache, hquery]
      refine ih ?_
      have hpos := (toNat_rrip_max cfg).2
      have hzero : ¬ cfg.m_rrip_max ≤ update s.m_rrip_bits s.m_replacement_pointer.way 0
          s.m_replacement_pointer.way := by
        rw [update_self, UInt8.le_iff_toNat_le]
        exact Nat.not_le.mpr hpos
      rw [if_neg hzero]
      omega
    · rw [if_neg hmax] at hmany
      rw [if_neg hmax]
      refine ih ?_
      split_ifs <;> omega

theorem search_passes {cfg : SRRIPConfig} {query : Block V → Bool} {blocks : Blocks n V}
    (left : Nat) (s : SRRIP n) (attempt : Nat)
    (hlt : ∀ i, (s.m_rrip_bits i).toNat < cfg.m_rrip_max.toNat) :
    ∃ p, search cfg (some query) blocks left s attempt =
      .ok (.rest { s with m_replacement_pointer := p } attempt) := by
  induction left generalizing s with
  | zero => exact ⟨_, rfl⟩
  | succ left ih =>
    rw [search]
    rw [if_neg (UInt8.not_le.mpr (UInt8.lt_iff_toNat_lt.mpr (hlt _)))]
    exact ih _ hlt

theorem rounds_refused {cfg : SRRIPConfig} {query : Block V → Bool} {blocks : Blocks n V}
    (hquery : ∀ block, query block = true) (hmany : (n + 2) / 2 < cfg.m_num_attempts.toNat)
    (left bound : Nat) {s : SRRIP n} (hround : bound + left = cfg.m_rrip_max.toNat)
    (hbits : ∀ i, (s.m_rrip_bits i).toNat = bound) :
    rounds cfg (some query) blocks (left + 1) s 0 =
      .error (.error "Error finding replacement index") := by
  induction left generalizing bound s with
  | zero =>
    obtain ⟨s', attempt', hsearch⟩ : ∃ s' attempt',
        search cfg (some query) blocks (n + 1) s 0 = .ok (.rest s' attempt') :=
      search_refused hquery (n + 1) (by split_ifs <;> omega)
    rw [rounds, hsearch]
    rfl
  | succ left ih =>
    have hlt : ∀ i, (s.m_rrip_bits i).toNat < cfg.m_rrip_max.toNat := fun i => by
      have := hbits i
      omega
    obtain ⟨p, hsearch⟩ : ∃ p, search cfg (some query) blocks (n + 1) s 0 =
        .ok (.rest { s with m_replacement_pointer := p } 0) := search_passes (n + 1) s 0 hlt
    rw [rounds, hsearch]
    refine ih (bound + 1) (by omega) fun i => ?_
    rw [toNat_age, if_pos (hlt i), hbits]

/-! ### The victim -/

theorem getReplacementIndex_valid {cfg : SRRIPConfig} {cntlr : Option (Block V → Bool)}
    {blocks : Blocks n V} (hvalid : ∀ i, (blocks i).isValid = true) (s : SRRIP n) :
    getReplacementIndex cfg cntlr blocks s =
      rounds cfg cntlr blocks (cfg.m_rrip_max.toNat + 1) s 0 := by
  rw [getReplacementIndex, firstInvalid_none.mpr hvalid]

/-- A full set always has a victim exactly if the attempts are no more than half of the ways,
rounded up: a refusal puts the counter back and takes one iteration of the round. -/
theorem victim_found_iff [Inhabited V] (cfg : SRRIPConfig) (n : Nat) :
    (∀ (blocks : Blocks n V) (query : Block V → Bool) (s : SRRIP n),
      (∀ i, (blocks i).isValid = true) → (∀ i, isValidReplacement blocks i = true) →
      Bounded cfg s.m_rrip_bits →
      ∃ index s' attempt, getReplacementIndex cfg (some query) blocks s =
          .ok (index, s', attempt) ∧
        Bounded cfg s'.m_rrip_bits ∧ Taken cfg query blocks index attempt) ↔
    cfg.m_num_attempts.toNat ≤ (n + 2) / 2 := by
  constructor
  · intro hfound
    by_contra hmany
    let block : Block V := ⟨0, .MODIFIED, false, default⟩
    obtain ⟨index, s', attempt, hok, -, -⟩ := hfound (fun _ => block) (fun _ => true)
      ⟨fun _ => 0, .start n⟩ (fun _ => rfl) (fun _ => rfl) (fun _ => Nat.zero_le _)
    rw [getReplacementIndex_valid (fun _ => rfl),
      rounds_refused (fun _ => rfl) (Nat.not_le.mp hmany) _ 0 (Nat.zero_add _) (fun _ => rfl)] at hok
    cases hok
  · intro hfew blocks query s hvalid hready hbits
    rw [getReplacementIndex_valid hvalid]
    have hlow : low s.m_rrip_bits 0 = ∅ :=
      Finset.filter_false_of_mem fun _ _ => Nat.not_lt_zero _
    exact rounds_spec hready hfew _ 0 (Nat.zero_add _) hbits (by rw [hlow, Finset.card_empty])
      (by rw [Nat.zero_add]; exact cfg.attempts_pos)

/-- One way, one bit, two attempts, and every line is held by a lower level. -/
theorem victim_not_found :
    getReplacementIndex ⟨1, 2, by decide, by decide, by decide⟩ (some fun _ => true)
      (fun _ : Fin 1 => (⟨0, .MODIFIED, false, ()⟩ : Block Unit)) ⟨fun _ => 0, .start 0⟩ =
    .error (.error "Error finding replacement index") := by
  rfl

end SRRIP
end Sniper.Memory.Replacement
