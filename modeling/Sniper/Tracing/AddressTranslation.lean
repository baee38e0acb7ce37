import Sniper.Lib.Shuffle

/-! # Address translation of trace threads

`TraceThread::va2pa` puts the application in the upper 16 bits of an address. With address
randomization the lower 24 bits of the page number go byte by byte through a table that the
constructor shuffles. The table is an array over bytes; what it held before the constructor ran
is a parameter. -/
namespace Sniper.Tracing.Translation
open Lib.Shuffle Function

abbrev Byte := BitVec 8
abbrev Word := BitVec 64

/-- The random generator: `rng_seed` and `rng_next`. -/
structure Generator (σ : Type) where
  seed : Word → σ
  next : σ → Word × σ

/-- `rng_seed` and `rng_next` of `rng.h`. -/
def drand48 : Generator Word where
  seed seed := (seed <<< 16) + 0x330E
  next state :=
    let state := (0x5DEECE66D * state + 0xB) &&& ((1 <<< 48) - 1)
    (state >>> 16, state)

def pa_core_shift : Nat := 48
def pa_core_size : Nat := 16
def pa_va_mask : Word := ~~~(((1 <<< pa_core_size) - 1) <<< pa_core_shift)
def va_page_shift : Nat := 12
def va_page_mask : Word := (1 <<< va_page_shift) - 1

variable {σ : Type} (rng : Generator σ)

/-! ### The randomization table -/

/-- The loop of the constructor at `i`, over what `rng_next` returned. -/
def shuffleStep (table : Byte → Byte) (i : Nat) (random : Word) : Byte → Byte :=
  let j := BitVec.ofNat 8 (random.toNat % (i + 1))
  let table := update table (BitVec.ofNat 8 i) (table j)
  update table j (BitVec.ofNat 8 i)

/-- `count` rounds of the loop from `i` on. -/
def shuffle : (count i : Nat) → σ → (Byte → Byte) → Byte → Byte
  | 0, _, _, table => table
  | count + 1, i, state, table =>
    let (random, state) := rng.next state
    shuffle count (i + 1) state (shuffleStep table i random)

/-- `m_address_randomization_table` behind the constructor. -/
def randomizationTable (uninitialized : Byte → Byte) (app_id : Word) : Byte → Byte :=
  shuffle rng 255 1 (rng.seed app_id) (update uninitialized 0 0)

/-! ### The mapping -/

/-- The fields of a `TraceThread` that `va2pa` reads. -/
structure TraceThread where
  m_trace_has_pa : Bool
  /-- `va2pa` of the trace. -/
  trace : Word → Word
  m_address_randomization : Bool
  m_appid_from_coreid : Bool
  m_address_randomization_table : Byte → Byte
  coreId : Word
  appId : Word

def TraceThread.new (address_randomization sequential : Bool) (uninitialized : Byte → Byte)
    (app_id coreId : Word) : TraceThread where
  m_trace_has_pa := false
  trace := fun _ => 0
  m_address_randomization := address_randomization
  m_appid_from_coreid := sequential
  m_address_randomization_table :=
    if address_randomization then randomizationTable rng uninitialized app_id else uninitialized
  coreId := coreId
  appId := app_id

/-- The bytes of the page number, lowest first. -/
def remapAddress (table : Byte → Byte) (va_page : Word) : Word :=
  va_page.extractLsb' 24 40 ++ table (va_page.extractLsb' 16 8) ++
    table (va_page.extractLsb' 8 8) ++ table (va_page.extractLsb' 0 8)

/-- An address with the application in its upper bits. -/
def TraceThread.constructed (t : TraceThread) (va : Word) : Word :=
  let haddr := if t.m_appid_from_coreid then t.coreId else t.appId
  if t.m_address_randomization then
    (haddr <<< pa_core_shift) |||
      (remapAddress t.m_address_randomization_table (va >>> va_page_shift) <<< va_page_shift) |||
      (va &&& va_page_mask)
  else (haddr <<< pa_core_shift) ||| (va &&& pa_va_mask)

/-- The physical address, and whether `noMapping` is set. -/
def TraceThread.va2pa (t : TraceThread) (va : Word) : Word × Bool :=
  if t.m_trace_has_pa then
    let pa := t.trace va
    if pa ≠ 0 then (pa, false) else (t.constructed va, true)
  else (t.constructed va, false)

/-! ### The fields of an address -/

/-- The bits that the unrandomized mapping gives to the application. -/
def upper (va : Word) : BitVec 16 := va.extractLsb' 48 16

def offset (va : Word) : BitVec 12 := va.extractLsb' 0 12

/-- The bits of the page number that are not remapped, below the upper ones. -/
def high (va : Word) : BitVec 12 := va.extractLsb' 36 12

/-- A byte of the page number. -/
def pageByte (va : Word) (k : Nat) : Byte := va.extractLsb' (12 + 8 * k) 8

theorem word_ext {x y} (hupper : upper x = upper y) (hhigh : high x = high y)
    (hbyte : ∀ k < 3, pageByte x k = pageByte y k) (hoffset : offset x = offset y) : x = y := by
  apply BitVec.eq_of_getLsbD_eq
  intro i hi
  by_cases h0 : i < 12
  · have := congrArg (·.getLsbD i) hoffset
    simpa [offset, h0] using this
  by_cases h1 : i < 36
  · have := congrArg (·.getLsbD ((i - 12) % 8)) (hbyte ((i - 12) / 8) (by omega))
    have hlt : (i - 12) % 8 < 8 := Nat.mod_lt _ (by omega)
    have hi' : 12 + 8 * ((i - 12) / 8) + (i - 12) % 8 = i := by omega
    simpa [pageByte, hlt, hi'] using this
  by_cases h2 : i < 48
  · have := congrArg (·.getLsbD (i - 36)) hhigh
    have hi' : 36 + (i - 36) = i := by omega
    simpa [high, show i - 36 < 12 by omega, hi'] using this
  · have := congrArg (·.getLsbD (i - 48)) hupper
    have hi' : 48 + (i - 48) = i := by omega
    simpa [upper, show i - 48 < 16 by omega, hi'] using this

section Fields
variable (table : Byte → Byte) (haddr va : Word)

abbrev randomized : Word :=
  (haddr <<< pa_core_shift) ||| (remapAddress table (va >>> va_page_shift) <<< va_page_shift) |||
    (va &&& va_page_mask)

/-- The mapping without randomization. -/
abbrev unrandomized : Word := (haddr <<< pa_core_shift) ||| (va &&& pa_va_mask)

theorem getLsbD_va_page_mask (i : Nat) : va_page_mask.getLsbD i = decide (i < 12) := by
  rw [show va_page_mask = (BitVec.allOnes 12).setWidth 64 by decide, BitVec.getLsbD_setWidth,
    BitVec.getLsbD_allOnes]
  by_cases h : i < 12
  · simp [h, show i < 64 by omega]
  · simp [h]

theorem getLsbD_pa_va_mask (i : Nat) : pa_va_mask.getLsbD i = decide (i < 48) := by
  rw [show pa_va_mask = (BitVec.allOnes 48).setWidth 64 by decide, BitVec.getLsbD_setWidth,
    BitVec.getLsbD_allOnes]
  by_cases h : i < 48
  · simp [h, show i < 64 by omega]
  · simp [h]

theorem getLsbD_remapAddress (page : Word) {i} (hi : i < 64) :
    (remapAddress table page).getLsbD i =
      if i < 24 then (table (page.extractLsb' (8 * (i / 8)) 8)).getLsbD (i % 8)
      else page.getLsbD i := by
  unfold remapAddress
  simp only [BitVec.getLsbD_append]
  by_cases h0 : i < 8
  · simp [h0, show i < 24 by omega, show i / 8 = 0 by omega, Nat.mod_eq_of_lt h0]
  by_cases h1 : i < 16
  · simp [h0, show i < 24 by omega, show i / 8 = 1 by omega, show i % 8 = i - 8 by omega,
      show i - 8 < 8 by omega]
  by_cases h2 : i < 24
  · simp [h0, h2, show i / 8 = 2 by omega, show i % 8 = i - 8 - 8 by omega,
      show ¬ i - 8 < 8 by omega, show i - 8 - 8 < 8 by omega]
  · simp [h0, h2, show ¬ i - 8 < 8 by omega, show ¬ i - 8 - 8 < 8 by omega,
      show i - 8 - 8 - 8 < 40 by omega, show 24 + (i - 8 - 8 - 8) = i by omega]

theorem pageByte_shiftRight (k : Nat) :
    (va >>> 12).extractLsb' (8 * k) 8 = pageByte va k := by
  apply BitVec.eq_of_getLsbD_eq
  intro i hi
  simp only [pageByte, BitVec.getLsbD_extractLsb', BitVec.getLsbD_ushiftRight, hi, Nat.add_assoc]

theorem getLsbD_randomized {i} (hi : i < 64) :
    (randomized table haddr va).getLsbD i =
      if i < 12 then va.getLsbD i
      else if i < 36 then (table (pageByte va ((i - 12) / 8))).getLsbD ((i - 12) % 8)
      else if i < 48 then va.getLsbD i
      else (haddr.getLsbD (i - 48) || va.getLsbD i) := by
  simp only [BitVec.getLsbD_or, BitVec.getLsbD_shiftLeft, BitVec.getLsbD_and, pa_core_shift,
    getLsbD_va_page_mask, getLsbD_remapAddress table _ (show i - 12 < 64 by omega),
    pageByte_shiftRight, va_page_shift, BitVec.getLsbD_ushiftRight]
  by_cases h0 : i < 12
  · simp [h0, show i < 48 by omega]
  by_cases h1 : i < 36
  · simp [h0, h1, show i < 48 by omega, show i - 12 < 24 by omega, hi]
  by_cases h2 : i < 48
  all_goals simp [h0, h1, h2, show ¬ i - 12 < 24 by omega, hi, show 12 + (i - 12) = i by omega]

theorem getLsbD_unrandomized {i} (hi : i < 64) :
    (unrandomized haddr va).getLsbD i =
      if i < 48 then va.getLsbD i else haddr.getLsbD (i - 48) := by
  simp only [BitVec.getLsbD_or, BitVec.getLsbD_shiftLeft, BitVec.getLsbD_and, pa_core_shift,
    getLsbD_pa_va_mask]
  by_cases h : i < 48
  · simp [h]
  · simp [h, hi]

theorem upper_randomized :
    upper (randomized table haddr va) = haddr.setWidth 16 ||| upper va := by
  apply BitVec.eq_of_getLsbD_eq
  intro i hi
  simp only [upper, BitVec.getLsbD_extractLsb', BitVec.getLsbD_or, BitVec.getLsbD_setWidth, hi,
    getLsbD_randomized table haddr va (show 48 + i < 64 by omega)]
  simp [show ¬ 48 + i < 12 by omega, show ¬ 48 + i < 36 by omega]

theorem upper_unrandomized : upper (unrandomized haddr va) = haddr.setWidth 16 := by
  apply BitVec.eq_of_getLsbD_eq
  intro i hi
  simp only [upper, BitVec.getLsbD_extractLsb', BitVec.getLsbD_setWidth, hi,
    getLsbD_unrandomized haddr va (show 48 + i < 64 by omega)]
  simp

theorem high_randomized : high (randomized table haddr va) = high va := by
  apply BitVec.eq_of_getLsbD_eq
  intro i hi
  simp only [high, BitVec.getLsbD_extractLsb', hi,
    getLsbD_randomized table haddr va (show 36 + i < 64 by omega)]
  simp [show ¬ 36 + i < 12 by omega, show 36 + i < 48 by omega]

theorem high_unrandomized : high (unrandomized haddr va) = high va := by
  apply BitVec.eq_of_getLsbD_eq
  intro i hi
  simp only [high, BitVec.getLsbD_extractLsb', hi,
    getLsbD_unrandomized haddr va (show 36 + i < 64 by omega)]
  simp [show 36 + i < 48 by omega]

theorem pageByte_randomized {k} (hk : k < 3) :
    pageByte (randomized table haddr va) k = table (pageByte va k) := by
  apply BitVec.eq_of_getLsbD_eq
  intro i hi
  rw [pageByte, BitVec.getLsbD_extractLsb',
    getLsbD_randomized table haddr va (show 12 + 8 * k + i < 64 by omega)]
  simp only [hi, decide_true, Bool.true_and, show ¬ 12 + 8 * k + i < 12 by omega, if_false,
    show 12 + 8 * k + i < 36 by omega, if_true, show (12 + 8 * k + i - 12) / 8 = k by omega,
    show (12 + 8 * k + i - 12) % 8 = i by omega]

theorem pageByte_unrandomized {k} (hk : k < 3) :
    pageByte (unrandomized haddr va) k = pageByte va k := by
  apply BitVec.eq_of_getLsbD_eq
  intro i hi
  rw [pageByte, BitVec.getLsbD_extractLsb',
    getLsbD_unrandomized haddr va (show 12 + 8 * k + i < 64 by omega)]
  simp only [pageByte, BitVec.getLsbD_extractLsb', hi, show 12 + 8 * k + i < 48 by omega, if_true]

theorem offset_randomized : offset (randomized table haddr va) = offset va := by
  apply BitVec.eq_of_getLsbD_eq
  intro i hi
  simp only [offset, BitVec.getLsbD_extractLsb', hi,
    getLsbD_randomized table haddr va (show 0 + i < 64 by omega)]
  simp [hi]

theorem offset_unrandomized : offset (unrandomized haddr va) = offset va := by
  apply BitVec.eq_of_getLsbD_eq
  intro i hi
  simp only [offset, BitVec.getLsbD_extractLsb', hi,
    getLsbD_unrandomized haddr va (show 0 + i < 64 by omega)]
  simp [show i < 48 by omega]

end Fields

/-! ### The table is a permutation -/

/-- The indices that the loop has filled at `n`. -/
def filled (n : Nat) : Set Byte := { x | x.toNat < n }

theorem mem_filled {n x} : x ∈ filled n ↔ x.toNat < n := Iff.rfl

theorem toNat_ofNat {n} (hn : n < 256) : (BitVec.ofNat 8 n).toNat = n := by
  simpa using hn

theorem insert_filled {n} (hn : n < 256) :
    insert (BitVec.ofNat 8 n) (filled n) = filled (n + 1) := by
  ext x
  simp only [Set.mem_insert_iff, mem_filled, BitVec.toNat_eq, toNat_ofNat hn]
  omega

theorem notMem_filled {n} (hn : n < 256) : BitVec.ofNat 8 n ∉ filled n := by
  rw [mem_filled, toNat_ofNat hn]
  omega

theorem chosen_mem {n} (hn : n < 256) (random : Word) :
    BitVec.ofNat 8 (random.toNat % (n + 1)) ∈ insert (BitVec.ofNat 8 n) (filled n) := by
  have hlt : random.toNat % (n + 1) < n + 1 := Nat.mod_lt _ (by omega)
  rw [insert_filled hn, mem_filled, toNat_ofNat (by omega)]
  exact hlt

theorem shuffle_bijOn (count i : Nat) (state : σ) (table : Byte → Byte) (hle : i + count ≤ 256)
    (h : Set.BijOn table (filled i) (filled i)) :
    Set.BijOn (shuffle rng count i state table) (filled (i + count)) (filled (i + count)) := by
  induction count generalizing i state table with
  | zero => exact h
  | succ count ih =>
    have hi : i < 256 := by omega
    have hstep := insideOut_bijOn h (notMem_filled hi) (chosen_mem hi (rng.next state).1)
    rw [insert_filled hi] at hstep
    have := ih (i + 1) (rng.next state).2 _ (by omega) hstep
    rwa [show i + 1 + count = i + (count + 1) by omega] at this

theorem shuffle_eqOn (count i : Nat) (state : σ) (t t' : Byte → Byte) (hle : i + count ≤ 256)
    (h : Set.EqOn t t' (filled i)) :
    Set.EqOn (shuffle rng count i state t) (shuffle rng count i state t')
      (filled (i + count)) := by
  induction count generalizing i state t t' with
  | zero => exact h
  | succ count ih =>
    have hi : i < 256 := by omega
    have hstep := insideOut_eqOn h (chosen_mem hi (rng.next state).1)
    rw [insert_filled hi] at hstep
    have := ih (i + 1) (rng.next state).2 _ _ (by omega) hstep
    rwa [show i + 1 + count = i + (count + 1) by omega] at this

theorem filled_all : filled 256 = Set.univ := by
  ext x
  simpa [mem_filled] using x.isLt

theorem filled_one : filled 1 = {0} := by
  ext x
  simp [mem_filled, BitVec.toNat_eq]

theorem randomizationTable_bijective (uninitialized : Byte → Byte) (app_id : Word) :
    Bijective (randomizationTable rng uninitialized app_id) := by
  have hbij := shuffle_bijOn rng 255 1 (rng.seed app_id) (update uninitialized 0 0)
    (by omega) (by rw [filled_one]; simp [Set.bijOn_singleton])
  rw [show 1 + 255 = 256 by omega, filled_all] at hbij
  exact Set.bijOn_univ.mp hbij

theorem randomizationTable_congr (u u' : Byte → Byte) (app_id : Word) :
    randomizationTable rng u app_id = randomizationTable rng u' app_id := by
  have heq := shuffle_eqOn rng 255 1 (rng.seed app_id) (update u 0 0)
    (update u' 0 0) (by omega) (by rw [filled_one]; intro x hx; simp_all)
  rw [show 1 + 255 = 256 by omega, filled_all] at heq
  exact Set.eqOn_univ _ _ |>.mp heq

/-! ### Applications kept apart -/

theorem setWidth_injective {a b : Word} (ha : a.toNat < 2 ^ 16) (hb : b.toNat < 2 ^ 16)
    (h : a.setWidth 16 = b.setWidth 16) : a = b := by
  have := congrArg BitVec.toNat h
  rw [BitVec.toNat_setWidth, BitVec.toNat_setWidth, Nat.mod_eq_of_lt ha, Nat.mod_eq_of_lt hb]
    at this
  exact BitVec.eq_of_toNat_eq this

/-- Where the fields of the application agree, so do the tables and the addresses. -/
theorem randomized_injective {table} (ht : Injective table) {a b va vb}
    (hupper : upper va = upper vb) (h : randomized table a va = randomized table b vb) :
    va = vb := by
  refine word_ext hupper ?_ (fun k hk => ?_) ?_
  · simpa only [high_randomized] using congrArg high h
  · exact ht (by simpa only [pageByte_randomized _ _ _ hk] using congrArg (pageByte · k) h)
  · simpa only [offset_randomized] using congrArg offset h

theorem unrandomized_injective {a b va vb} (hupper : upper va = upper vb)
    (h : unrandomized a va = unrandomized b vb) : va = vb := by
  refine word_ext hupper ?_ (fun k hk => ?_) ?_
  · simpa only [high_unrandomized] using congrArg high h
  · simpa only [pageByte_unrandomized _ _ hk] using congrArg (pageByte · k) h
  · simpa only [offset_unrandomized] using congrArg offset h

theorem unrandomized_congr {a va vb} (hhigh : high va = high vb)
    (hbyte : ∀ k < 3, pageByte va k = pageByte vb k) (hoffset : offset va = offset vb) :
    unrandomized a va = unrandomized a vb := by
  refine word_ext ?_ ?_ (fun k hk => ?_) ?_
  · rw [upper_unrandomized, upper_unrandomized]
  · rw [high_unrandomized, high_unrandomized, hhigh]
  · rw [pageByte_unrandomized _ _ hk, pageByte_unrandomized _ _ hk, hbyte k hk]
  · rw [offset_unrandomized, offset_unrandomized, hoffset]

/-- An address with the given upper bits whose page bytes are all `c`. -/
def repeated (u : BitVec 16) (c : Byte) : Word :=
  u ++ (0 : BitVec 12) ++ c ++ c ++ c ++ (0 : BitVec 12)

theorem upper_repeated (u : BitVec 16) (c : Byte) : upper (repeated u c) = u := by
  apply BitVec.eq_of_getLsbD_eq
  intro i hi
  simp only [upper, repeated, BitVec.getLsbD_extractLsb', BitVec.getLsbD_append, hi]
  simp [show ¬ 48 + i < 12 by omega, show ¬ 48 + i - 12 < 8 by omega,
    show ¬ 48 + i - 12 - 8 < 8 by omega, show ¬ 48 + i - 12 - 8 - 8 < 8 by omega,
    show ¬ 48 + i - 12 - 8 - 8 - 8 < 12 by omega, show 48 + i - 12 - 8 - 8 - 8 - 12 = i by omega]

theorem high_repeated (u : BitVec 16) (c : Byte) : high (repeated u c) = 0 := by
  apply BitVec.eq_of_getLsbD_eq
  intro i hi
  simp only [high, repeated, BitVec.getLsbD_extractLsb', BitVec.getLsbD_append, hi]
  simp [show ¬ 36 + i < 12 by omega, show ¬ 36 + i - 12 < 8 by omega,
    show ¬ 36 + i - 12 - 8 < 8 by omega, show ¬ 36 + i - 12 - 8 - 8 < 8 by omega,
    show 36 + i - 12 - 8 - 8 - 8 < 12 by omega]

theorem offset_repeated (u : BitVec 16) (c : Byte) : offset (repeated u c) = 0 := by
  apply BitVec.eq_of_getLsbD_eq
  intro i hi
  simp only [offset, repeated, BitVec.getLsbD_extractLsb', BitVec.getLsbD_append, hi]
  simp [hi]

theorem pageByte_repeated (u : BitVec 16) (c : Byte) {k} (hk : k < 3) :
    pageByte (repeated u c) k = c := by
  apply BitVec.eq_of_getLsbD_eq
  intro i hi
  simp only [pageByte, repeated, BitVec.getLsbD_extractLsb', BitVec.getLsbD_append, hi,
    show ¬ 12 + 8 * k + i < 12 by omega]
  obtain rfl | rfl | rfl : k = 0 ∨ k = 1 ∨ k = 2 := by omega
  · simp [show 12 + i - 12 = i by omega, hi]
  · simp [show ¬ 20 + i - 12 < 8 by omega, show 20 + i - 12 - 8 = i by omega, hi]
  · simp [show ¬ 28 + i - 12 < 8 by omega, show ¬ 28 + i - 12 - 8 < 8 by omega,
      show 28 + i - 12 - 8 - 8 = i by omega, hi]

theorem exists_collision {t t'} (ht : Surjective t') {a b u v}
    (h : a.setWidth 16 ||| u = b.setWidth 16 ||| v) :
    ∃ va vb, upper va = u ∧ upper vb = v ∧ randomized t a va = randomized t' b vb := by
  obtain ⟨c, hc⟩ := ht (t 0)
  refine ⟨repeated u 0, repeated v c, upper_repeated _ _, upper_repeated _ _, word_ext ?_ ?_ ?_ ?_⟩
  · rw [upper_randomized, upper_randomized, upper_repeated, upper_repeated, h]
  · rw [high_randomized, high_randomized, high_repeated, high_repeated]
  · intro k hk
    rw [pageByte_randomized _ _ _ hk, pageByte_randomized _ _ _ hk, pageByte_repeated _ _ hk,
      pageByte_repeated _ _ hk, hc]
  · rw [offset_randomized, offset_randomized, offset_repeated, offset_repeated]

section Threads
variable (u u' : Byte → Byte) (a b core core' : Word)

/-- A thread of an application, for traces without physical addresses and a scheduler that is
not sequential. -/
abbrev threadOf (randomization : Bool) : TraceThread :=
  .new rng randomization false u a core

theorem va2pa_randomized (va : Word) :
    (threadOf rng u a core true).va2pa va =
      (randomized (randomizationTable rng u a) a va, false) := by
  simp [TraceThread.va2pa, TraceThread.constructed, TraceThread.new]

theorem va2pa_unrandomized (va : Word) :
    (threadOf rng u a core false).va2pa va = (unrandomized a va, false) := by
  simp [TraceThread.va2pa, TraceThread.constructed, TraceThread.new]

theorem table_threadOf : (threadOf rng u a core true).m_address_randomization_table =
    randomizationTable rng u a := by
  simp [TraceThread.new]

/-- What `va2pa` promises to two applications, for addresses without upper bits and, last, for
addresses whose upper bits are `hva` and `hvb`. -/
structure KeepsApart (hva hvb : BitVec 16) : Prop where
  apart : ∀ randomization va vb, upper va = 0 → upper vb = 0 →
    ((threadOf rng u a core randomization).va2pa va =
      (threadOf rng u' b core' randomization).va2pa vb ↔ a = b ∧ va = vb)
  offset : ∀ randomization va,
    offset ((threadOf rng u a core randomization).va2pa va).1 = offset va
  permutation :
    Bijective (threadOf rng u a core true).m_address_randomization_table
  randomized : ∀ va vb, upper va = hva → upper vb = hvb →
    (threadOf rng u a core false).va2pa va ≠ (threadOf rng u' b core' false).va2pa vb →
    (threadOf rng u a core true).va2pa va ≠ (threadOf rng u' b core' true).va2pa vb

variable {a b}

theorem va2pa_eq_iff (ha : a.toNat < 2 ^ 16) (hb : b.toNat < 2 ^ 16) (randomization : Bool) {va vb}
    (hva : upper va = 0) (hvb : upper vb = 0) :
    (threadOf rng u a core randomization).va2pa va =
      (threadOf rng u' b core' randomization).va2pa vb ↔ a = b ∧ va = vb := by
  cases randomization with
  | false =>
    rw [va2pa_unrandomized, va2pa_unrandomized, Prod.mk.injEq, and_iff_left rfl]
    constructor
    · intro h
      have hab := congrArg upper h
      rw [upper_unrandomized, upper_unrandomized] at hab
      exact ⟨setWidth_injective ha hb hab, unrandomized_injective (hva.trans hvb.symm) h⟩
    · rintro ⟨rfl, rfl⟩
      rfl
  | true =>
    rw [va2pa_randomized, va2pa_randomized, Prod.mk.injEq, and_iff_left rfl]
    constructor
    · intro h
      have hab := congrArg upper h
      rw [upper_randomized, upper_randomized, hva, hvb] at hab
      simp only [BitVec.ofNat_eq_ofNat, BitVec.or_zero] at hab
      obtain rfl := setWidth_injective ha hb hab
      rw [randomizationTable_congr rng u' u] at h
      exact ⟨rfl, randomized_injective (randomizationTable_bijective rng u a).injective
        (hva.trans hvb.symm) h⟩
    · rintro ⟨rfl, rfl⟩
      rw [randomizationTable_congr rng u' u]

theorem offset_va2pa (randomization : Bool) (va : Word) :
    offset ((threadOf rng u a core randomization).va2pa va).1 = offset va := by
  cases randomization with
  | false => exact offset_unrandomized a va
  | true => exact offset_randomized _ a va

/-- The randomized mapping of one application keeps apart what the unrandomized one does. -/
theorem unrandomized_eq_of_randomized_eq {va vb} (h : randomized (randomizationTable rng u a) a va =
      randomized (randomizationTable rng u' a) a vb) :
    unrandomized a va = unrandomized a vb := by
  have ht := (randomizationTable_bijective rng u a).injective
  rw [randomizationTable_congr rng u' u] at h
  refine unrandomized_congr ?_ (fun k hk => ?_) ?_
  · simpa only [high_randomized] using congrArg high h
  · exact ht (by simpa only [pageByte_randomized _ _ _ hk] using congrArg (pageByte · k) h)
  · simpa only [offset_randomized] using congrArg offset h

/-- With randomization the upper bits of an address are not masked: what is kept apart is not
the application but its union with these bits. -/
theorem keepsApart_iff (ha : a.toNat < 2 ^ 16) (hb : b.toNat < 2 ^ 16) (hva hvb : BitVec 16) :
    KeepsApart rng u u' a b core core' hva hvb ↔
      (a = b ∨ a.setWidth 16 ||| hva ≠ b.setWidth 16 ||| hvb) := by
  constructor
  · intro h
    by_contra hcon
    obtain ⟨hab, hor⟩ := not_or.mp hcon
    obtain ⟨va, vb, hu, hv, heq⟩ := exists_collision
      (randomizationTable_bijective rng u' b).surjective (t := randomizationTable rng u a)
      (not_not.mp hor)
    refine h.randomized va vb hu hv (fun hplain => hab ?_) ?_
    · rw [va2pa_unrandomized, va2pa_unrandomized, Prod.mk.injEq] at hplain
      have := congrArg upper hplain.1
      rw [upper_unrandomized, upper_unrandomized] at this
      exact setWidth_injective ha hb this
    · rw [va2pa_randomized, va2pa_randomized, heq]
  · intro hcond
    refine ⟨fun randomization va vb => va2pa_eq_iff rng u u' core core' ha hb randomization,
      fun randomization va => offset_va2pa rng u core randomization va,
      by rw [table_threadOf]; exact randomizationTable_bijective rng u a,
      fun va vb hu hv hne heq => ?_⟩
    rw [va2pa_unrandomized, va2pa_unrandomized] at hne
    rw [va2pa_randomized, va2pa_randomized, Prod.mk.injEq] at heq
    obtain rfl | hor := hcond
    · exact hne (by rw [unrandomized_eq_of_randomized_eq rng u u' heq.1])
    · apply hor
      have := congrArg upper heq.1
      rwa [upper_randomized, upper_randomized, hu, hv] at this

/-- Applications 0 and 1, the first with an address whose bit 48 is set. -/
theorem keepsApart_iff_zero_one :
    KeepsApart drand48 (fun _ => 0) (fun _ => 0) 1 0 0 0 0 1 ↔
      ((1 : Word) = 0 ∨
        (1 : Word).setWidth 16 ||| (0 : BitVec 16) ≠ (0 : Word).setWidth 16 ||| 1) :=
  keepsApart_iff drand48 (fun _ => 0) (fun _ => 0) 0 0 (by decide) (by decide) 0 1

/-- An address of application 1 without upper bits and one of application 0 with bit 48 set. -/
theorem applications_share_address : ∃ va vb, upper va = 0 ∧ upper vb = 1 ∧
    (threadOf drand48 (fun _ => 0) 1 0 false).va2pa va ≠
      (threadOf drand48 (fun _ => 0) 0 0 false).va2pa vb ∧
    (threadOf drand48 (fun _ => 0) 1 0 true).va2pa va =
      (threadOf drand48 (fun _ => 0) 0 0 true).va2pa vb := by
  have hsurj := (randomizationTable_bijective drand48 (fun _ => 0) 0).surjective
  obtain ⟨va, vb, hu, hv, heq⟩ := exists_collision hsurj
    (t := randomizationTable drand48 (fun _ => 0) 1) (show (1 : Word).setWidth 16 ||| 0 =
      (0 : Word).setWidth 16 ||| 1 by decide)
  refine ⟨va, vb, hu, hv, fun hplain => ?_, ?_⟩
  · rw [va2pa_unrandomized, va2pa_unrandomized, Prod.mk.injEq] at hplain
    have := congrArg upper hplain.1
    rw [upper_unrandomized, upper_unrandomized] at this
    exact absurd this (by decide)
  · rw [va2pa_randomized, va2pa_randomized, heq]

end Threads

end Sniper.Tracing.Translation
