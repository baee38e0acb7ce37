import Mathlib.Data.List.Range
import Mathlib.Tactic.Ring

/-! # The cache lines of a memory access

`Core::initiateMemoryAccess` goes through the lines of an access one at a time. Addresses are the
64-bit words of the code, so the line after the last one of the address space is line 0 again.
-/
namespace Sniper.Memory.Core

/-- What is passed to `coreInitiateMemoryAccess` for a line; no buffer is `NULL`. -/
structure Piece where
  curr_addr_aligned : UInt64
  curr_offset : UInt32
  data_buf : Option Nat
  curr_size : UInt32

/-- The locals that the loop reads. -/
structure Access where
  begin_addr : UInt64
  end_addr : UInt64
  cache_block_size : UInt32

namespace Access

def aligned (a : Access) (addr : UInt64) : UInt64 := addr - addr % a.cache_block_size.toUInt64

def begin_addr_aligned (a : Access) : UInt64 := a.aligned a.begin_addr

def end_addr_aligned (a : Access) : UInt64 := a.aligned a.end_addr

def curr_offset (a : Access) (curr_addr_aligned : UInt64) : UInt32 :=
  if curr_addr_aligned = a.begin_addr_aligned then
    (a.begin_addr % a.cache_block_size.toUInt64).toUInt32
  else 0

def curr_size (a : Access) (curr_addr_aligned : UInt64) : UInt32 :=
  let curr_offset := a.curr_offset curr_addr_aligned
  if curr_addr_aligned = a.end_addr_aligned then
    (a.end_addr % a.cache_block_size.toUInt64 - curr_offset.toUInt64).toUInt32
  else a.cache_block_size - curr_offset

/-- The loop from a line on, for at most `fuel` tests of its condition. -/
def loop (a : Access) : Nat → UInt64 → Option Nat → Option (List Piece)
  | 0, _, _ => none
  | fuel + 1, curr_addr_aligned, curr_data_buffer_head =>
    if curr_addr_aligned ≤ a.end_addr_aligned then
      let next := curr_addr_aligned + a.cache_block_size.toUInt64
      let curr_size := a.curr_size curr_addr_aligned
      if curr_addr_aligned = a.end_addr_aligned ∧ curr_size = 0 then
        a.loop fuel next curr_data_buffer_head
      else
        (a.loop fuel next (curr_data_buffer_head.map (· + curr_size.toNat))).map
          (⟨curr_addr_aligned, a.curr_offset curr_addr_aligned, curr_data_buffer_head,
            curr_size⟩ :: ·)
    else some []

end Access

/-- The pieces of an access, in the order of the calls. -/
def initiateMemoryAccess (fuel : Nat) (address : UInt64) (data_buf : Option Nat)
    (data_size cache_block_size : UInt32) : Option (List Piece) :=
  if data_size ≤ 0 then some []
  else
    let a : Access := ⟨address, address + data_size.toUInt64, cache_block_size⟩
    a.loop fuel a.begin_addr_aligned data_buf

/-! ### What a split should be -/

def Piece.bytes (p : Piece) : List Nat :=
  List.range' (p.curr_addr_aligned.toNat + p.curr_offset.toNat) p.curr_size.toNat

/-- The pieces take `size` bytes from `address` on, each byte once, with the buffer beside them. -/
structure Exact (cache_block_size address size : Nat) (data_buf : Option Nat)
    (pieces : List Piece) : Prop where
  nonempty : ∀ p ∈ pieces, 0 < p.curr_size.toNat
  inside : ∀ p ∈ pieces, cache_block_size ∣ p.curr_addr_aligned.toNat ∧
    p.curr_offset.toNat + p.curr_size.toNat ≤ cache_block_size
  increasing : pieces.Pairwise fun p p' => p.curr_addr_aligned < p'.curr_addr_aligned
  covers : pieces.flatMap Piece.bytes = List.range' address size
  buffer : ∀ before p after, pieces = before ++ p :: after →
    p.data_buf = data_buf.map (· + (before.map fun p => p.curr_size.toNat).sum)

/-- The loop ends, and its pieces are the access. -/
def SplitsExactly (address : UInt64) (data_buf : Option Nat) (data_size cache_block_size : UInt32) :
    Prop :=
  ∃ fuel pieces, initiateMemoryAccess fuel address data_buf data_size cache_block_size =
      some pieces ∧
    Exact cache_block_size.toNat address.toNat data_size.toNat data_buf pieces

theorem Exact.nil {cache_block_size address data_buf} :
    Exact cache_block_size address 0 data_buf [] where
  nonempty := nofun
  inside := nofun
  increasing := .nil
  covers := rfl
  buffer := fun before p after h => absurd h.symm (by simp)

theorem Exact.cons {cache_block_size address size data_buf p pieces}
    (h : Exact cache_block_size (address + p.curr_size.toNat) (size - p.curr_size.toNat)
      (data_buf.map (· + p.curr_size.toNat)) pieces)
    (hstart : p.curr_addr_aligned.toNat + p.curr_offset.toNat = address)
    (hbuf : p.data_buf = data_buf) (hpos : 0 < p.curr_size.toNat) (hle : p.curr_size.toNat ≤ size)
    (hline : cache_block_size ∣ p.curr_addr_aligned.toNat)
    (hinside : p.curr_offset.toNat + p.curr_size.toNat ≤ cache_block_size)
    (hnext : ∀ p' ∈ pieces, p.curr_addr_aligned < p'.curr_addr_aligned) :
    Exact cache_block_size address size data_buf (p :: pieces) where
  nonempty := List.forall_mem_cons.mpr ⟨hpos, h.nonempty⟩
  inside := List.forall_mem_cons.mpr ⟨⟨hline, hinside⟩, h.inside⟩
  increasing := List.pairwise_cons.mpr ⟨hnext, h.increasing⟩
  covers := by
    rw [List.flatMap_cons, h.covers, Piece.bytes, hstart, List.range'_append_1,
      Nat.add_sub_cancel' hle]
  buffer := by
    intro before p' after heq
    cases before with
    | nil =>
      obtain ⟨rfl, -⟩ := List.cons.inj heq
      simp [hbuf]
    | cons q before =>
      obtain ⟨rfl, htail⟩ := List.cons.inj heq
      rw [h.buffer before p' after htail, Option.map_map]
      congr 1
      funext n
      simp only [Function.comp_apply, List.map_cons, List.sum_cons]
      omega

/-! ### The lines of an access -/

namespace Access
variable {a : Access} {k fuel : Nat} {curr_addr_aligned : UInt64}

theorem toNat_block : a.cache_block_size.toUInt64.toNat = a.cache_block_size.toNat :=
  UInt32.toNat_toUInt64 _

theorem aligned_toNat (addr : UInt64) : (a.aligned addr).toNat =
    addr.toNat - addr.toNat % a.cache_block_size.toNat := by
  have hmod : (addr % a.cache_block_size.toUInt64).toNat =
      addr.toNat % a.cache_block_size.toNat := by
    rw [UInt64.toNat_mod, toNat_block]
  have hle : addr % a.cache_block_size.toUInt64 ≤ addr := by
    exact Nat.mod_le _ _
  rw [aligned, UInt64.toNat_sub_of_le _ _ hle, hmod]

theorem aligned_add_mod (addr : UInt64) :
    (a.aligned addr).toNat + addr.toNat % a.cache_block_size.toNat = addr.toNat := by
  rw [aligned_toNat]
  exact Nat.sub_add_cancel (Nat.mod_le _ _)

theorem dvd_aligned (addr : UInt64) : a.cache_block_size.toNat ∣ (a.aligned addr).toNat := by
  rw [aligned_toNat]
  exact Nat.dvd_sub_mod _

/-- The place of the access in a line on its way. -/
def position (a : Access) (curr_addr_aligned : UInt64) : Nat :=
  max a.begin_addr.toNat curr_addr_aligned.toNat

theorem aligned_lt (hblock : 0 < a.cache_block_size.toNat) (addr : UInt64) :
    (a.aligned addr).toNat ≤ addr.toNat ∧
      addr.toNat < (a.aligned addr).toNat + a.cache_block_size.toNat := by
  have hmod := Nat.mod_lt addr.toNat hblock
  have haddr := a.aligned_add_mod addr
  omega

theorem next_le {i j B : Nat} (hi : B ∣ i) (hj : B ∣ j) (h : i < j) : i + B ≤ j := by
  obtain ⟨i, rfl⟩ := hi
  obtain ⟨j, rfl⟩ := hj
  exact Nat.mul_le_mul_left _ (Nat.lt_of_mul_lt_mul_left h)

/-- A line that the loop comes to. -/
structure IsLine (a : Access) (curr_addr_aligned : UInt64) : Prop where
  block : 0 < a.cache_block_size.toNat
  aligned : a.cache_block_size.toNat ∣ curr_addr_aligned.toNat
  from_begin : a.begin_addr_aligned.toNat ≤ curr_addr_aligned.toNat

theorem IsLine.position_lt (h : a.IsLine curr_addr_aligned) :
    a.position curr_addr_aligned < curr_addr_aligned.toNat + a.cache_block_size.toNat := by
  have hblock := h.block
  have hbegin := (aligned_lt h.block a.begin_addr).2
  have hfrom : (a.aligned a.begin_addr).toNat ≤ _ := h.from_begin
  unfold position
  omega

theorem IsLine.offset (h : a.IsLine curr_addr_aligned) :
    curr_addr_aligned.toNat + (a.curr_offset curr_addr_aligned).toNat =
      a.position curr_addr_aligned := by
  have hwidth := a.cache_block_size.toNat_lt
  have hbegin := aligned_lt h.block a.begin_addr
  unfold curr_offset position
  split
  case isTrue heq =>
    have hstart := a.aligned_add_mod a.begin_addr
    rw [heq, begin_addr_aligned, UInt64.toNat_toUInt32, UInt64.toNat_mod, toNat_block,
      Nat.mod_eq_of_lt (a := a.begin_addr.toNat % _) (by omega)]
    omega
  case isFalse hne =>
    have hlt := lt_of_le_of_ne h.from_begin fun heq => hne (UInt64.toNat_inj.mp heq.symm)
    have hnext := next_le (dvd_aligned _) h.aligned hlt
    change curr_addr_aligned.toNat + 0 = _
    omega

theorem IsLine.size (h : a.IsLine curr_addr_aligned)
    (hle : curr_addr_aligned.toNat ≤ a.end_addr_aligned.toNat)
    (haccess : a.begin_addr.toNat < a.end_addr.toNat) :
    a.position curr_addr_aligned + (a.curr_size curr_addr_aligned).toNat =
      min (curr_addr_aligned.toNat + a.cache_block_size.toNat) a.end_addr.toNat := by
  have hwidth := a.cache_block_size.toNat_lt
  have hoffset := h.offset
  have hposition := h.position_lt
  have hend := aligned_lt h.block a.end_addr
  have hmax : a.position curr_addr_aligned = max a.begin_addr.toNat curr_addr_aligned.toNat := rfl
  unfold curr_size
  split
  case isTrue heq =>
    have hlast := a.aligned_add_mod a.end_addr
    have hline : curr_addr_aligned.toNat = (a.aligned a.end_addr).toNat :=
      congrArg UInt64.toNat heq
    have hrest : (a.end_addr % a.cache_block_size.toUInt64).toNat =
        a.end_addr.toNat % a.cache_block_size.toNat := by
      rw [UInt64.toNat_mod, toNat_block]
    have hsub : (a.curr_offset curr_addr_aligned).toUInt64 ≤
        a.end_addr % a.cache_block_size.toUInt64 := by
      rw [UInt64.le_iff_toNat_le, hrest, UInt32.toNat_toUInt64]
      omega
    rw [UInt64.toNat_toUInt32, UInt64.toNat_sub_of_le _ _ hsub, hrest, UInt32.toNat_toUInt64,
      Nat.mod_eq_of_lt (a := _ - _) (by omega)]
    omega
  case isFalse hne =>
    have hlt := lt_of_le_of_ne hle fun heq => hne (UInt64.toNat_inj.mp heq)
    have hnext := next_le h.aligned (dvd_aligned _) hlt
    have hsub : a.curr_offset curr_addr_aligned ≤ a.cache_block_size := by
      rw [UInt32.le_iff_toNat_le]
      omega
    rw [UInt32.toNat_sub_of_le _ _ hsub]
    omega

theorem loop_stop (h : a.end_addr_aligned.toNat < curr_addr_aligned.toNat) (buf : Option Nat) :
    a.loop (fuel + 1) curr_addr_aligned buf = some [] := by
  exact if_neg (by rw [UInt64.le_iff_toNat_le]; omega)

theorem loop_piece (hle : curr_addr_aligned.toNat ≤ a.end_addr_aligned.toNat)
    (hsize : 0 < (a.curr_size curr_addr_aligned).toNat) (buf : Option Nat) :
    a.loop (fuel + 1) curr_addr_aligned buf =
      (a.loop fuel (curr_addr_aligned + a.cache_block_size.toUInt64)
        (buf.map (· + (a.curr_size curr_addr_aligned).toNat))).map
        (⟨curr_addr_aligned, a.curr_offset curr_addr_aligned, buf,
          a.curr_size curr_addr_aligned⟩ :: ·) := by
  have hne : ¬ (curr_addr_aligned = a.end_addr_aligned ∧ a.curr_size curr_addr_aligned = 0) := by
    rintro ⟨-, hzero⟩
    rw [hzero] at hsize
    exact absurd hsize (by decide)
  conv_lhs => unfold loop
  rw [if_pos (UInt64.le_iff_toNat_le.mpr hle)]
  exact if_neg hne

theorem next_toNat (h : curr_addr_aligned.toNat + a.cache_block_size.toNat < 2 ^ 64) :
    (curr_addr_aligned + a.cache_block_size.toUInt64).toNat =
      curr_addr_aligned.toNat + a.cache_block_size.toNat := by
  rw [UInt64.toNat_add, toNat_block, Nat.mod_eq_of_lt h]

theorem loop_last (hline : a.IsLine a.end_addr_aligned)
    (haccess : a.begin_addr.toNat < a.end_addr.toNat)
    (hroom : a.end_addr_aligned.toNat + a.cache_block_size.toNat < 2 ^ 64) (buf : Option Nat) :
    ∃ pieces, a.loop (fuel + 2) a.end_addr_aligned buf = some pieces ∧
      Exact a.cache_block_size.toNat (a.position a.end_addr_aligned)
        (a.end_addr.toNat - a.position a.end_addr_aligned) buf pieces ∧
      ∀ p ∈ pieces, a.end_addr_aligned ≤ p.curr_addr_aligned := by
  have hsize := hline.size le_rfl haccess
  have hoffset := hline.offset
  have hend : a.end_addr.toNat < a.end_addr_aligned.toNat + _ := (aligned_lt hline.block _).2
  have hstop : ∀ buf, a.loop (fuel + 1) (a.end_addr_aligned + a.cache_block_size.toUInt64) buf =
      some [] := loop_stop (by rw [next_toNat hroom]; exact Nat.lt_add_of_pos_right hline.block)
  rcases Nat.eq_zero_or_pos (a.curr_size a.end_addr_aligned).toNat with hzero | hpos
  · refine ⟨[], ?_, ?_, nofun⟩
    · unfold loop
      rw [if_pos (UInt64.le_refl _)]
      exact (if_pos ⟨rfl, UInt32.toNat_inj.mp hzero⟩).trans (hstop buf)
    · rw [show a.end_addr.toNat - a.position a.end_addr_aligned = 0 by omega]
      exact .nil
  · refine ⟨_, by rw [loop_piece le_rfl hpos, hstop]; rfl, ?_, ?_⟩
    · refine .cons (p := ⟨_, _, _, _⟩) ?_ hoffset rfl hpos ?_ hline.aligned ?_ nofun
      · rw [show a.end_addr.toNat - a.position a.end_addr_aligned -
          (a.curr_size a.end_addr_aligned).toNat = 0 by omega]
        exact .nil
      · dsimp only
        omega
      · dsimp only
        omega
    · intro p hp
      rw [List.mem_singleton.mp hp]
      exact UInt64.le_refl _

theorem loop_exact (haccess : a.begin_addr.toNat < a.end_addr.toNat)
    (hroom : a.end_addr_aligned.toNat + a.cache_block_size.toNat < 2 ^ 64) (n : Nat)
    (curr_addr_aligned : UInt64) (buf : Option Nat) (hline : a.IsLine curr_addr_aligned)
    (hlines : curr_addr_aligned.toNat + n * a.cache_block_size.toNat =
      a.end_addr_aligned.toNat) :
    ∃ pieces, a.loop (n + 2) curr_addr_aligned buf = some pieces ∧
      Exact a.cache_block_size.toNat (a.position curr_addr_aligned)
        (a.end_addr.toNat - a.position curr_addr_aligned) buf pieces ∧
      ∀ p ∈ pieces, curr_addr_aligned ≤ p.curr_addr_aligned := by
  induction n generalizing curr_addr_aligned buf with
  | zero =>
    obtain rfl : curr_addr_aligned = a.end_addr_aligned := UInt64.toNat_inj.mp (by omega)
    exact loop_last hline haccess hroom buf
  | succ n ih =>
    rw [Nat.succ_mul] at hlines
    have hle : curr_addr_aligned.toNat ≤ a.end_addr_aligned.toNat := by omega
    have hend : a.end_addr_aligned.toNat ≤ a.end_addr.toNat := (aligned_lt hline.block _).1
    have hblock := hline.block
    have hnext : (curr_addr_aligned + a.cache_block_size.toUInt64).toNat = _ :=
      next_toNat (by omega)
    have hsize := hline.size hle haccess
    have hoffset := hline.offset
    have hposition := hline.position_lt
    have hnextline : a.IsLine (curr_addr_aligned + a.cache_block_size.toUInt64) := by
      refine ⟨hblock, ?_, ?_⟩
      · rw [hnext]
        exact Nat.dvd_add_self_right.mpr hline.aligned
      · have hfrom := hline.from_begin
        omega
    have hpos : a.position (curr_addr_aligned + a.cache_block_size.toUInt64) =
        a.position curr_addr_aligned + (a.curr_size curr_addr_aligned).toNat := by
      rw [hsize]
      unfold position at hposition ⊢
      omega
    obtain ⟨pieces, hrun, hexact, hfrom⟩ := ih _
      (buf.map (· + (a.curr_size curr_addr_aligned).toNat)) hnextline (by omega)
    refine ⟨_, by rw [loop_piece hle (by omega), hrun]; rfl, ?_, ?_⟩
    · refine .cons (p := ⟨_, _, _, _⟩) ?_ hoffset rfl ?_ ?_ hline.aligned ?_ ?_
      · rw [hpos, Nat.sub_add_eq] at hexact
        exact hexact
      · dsimp only
        omega
      · dsimp only
        omega
      · dsimp only
        omega
      · intro p hp
        have hp := UInt64.le_iff_toNat_le.mp (hfrom p hp)
        rw [UInt64.lt_iff_toNat_lt]
        dsimp only
        omega
    · refine List.forall_mem_cons.mpr ⟨UInt64.le_refl _, fun p hp => ?_⟩
      have hp := UInt64.le_iff_toNat_le.mp (hfrom p hp)
      rw [UInt64.le_iff_toNat_le]
      omega

theorem loop_endless (hdvd : a.cache_block_size.toNat ∣ 2 ^ 64)
    (hlast : a.end_addr_aligned.toNat + a.cache_block_size.toNat = 2 ^ 64)
    (hline : a.cache_block_size.toNat ∣ curr_addr_aligned.toNat) (buf : Option Nat) :
    a.loop fuel curr_addr_aligned buf = none := by
  induction fuel generalizing curr_addr_aligned buf with
  | zero => rfl
  | succ fuel ih =>
    have hle : curr_addr_aligned ≤ a.end_addr_aligned := by
      have hnext := next_le hline hdvd curr_addr_aligned.toNat_lt
      rw [UInt64.le_iff_toNat_le]
      omega
    have hnext : a.cache_block_size.toNat ∣
        (curr_addr_aligned + a.cache_block_size.toUInt64).toNat := by
      exact (Nat.dvd_mod_iff hdvd).mpr (Nat.dvd_add_self_right.mpr hline)
    unfold loop
    rw [if_pos hle]
    dsimp only
    split
    · exact ih hnext buf
    · rw [ih hnext]
      rfl

theorem access_exact (hblock : 0 < a.cache_block_size.toNat)
    (haccess : a.begin_addr.toNat < a.end_addr.toNat)
    (hroom : a.end_addr.toNat + a.cache_block_size.toNat < 2 ^ 64) (buf : Option Nat) :
    ∃ fuel pieces, a.loop fuel a.begin_addr_aligned buf = some pieces ∧
      Exact a.cache_block_size.toNat a.begin_addr.toNat
        (a.end_addr.toNat - a.begin_addr.toNat) buf pieces := by
  have hbegin := aligned_lt hblock a.begin_addr
  have hend := aligned_lt hblock a.end_addr
  obtain ⟨i, hi⟩ := a.dvd_aligned a.begin_addr
  obtain ⟨j, hj⟩ := a.dvd_aligned a.end_addr
  have hij : i ≤ j := by
    by_contra hlt
    have hnext := next_le ⟨j, hj⟩ ⟨i, hi⟩ (by
      rw [hi, hj]
      exact Nat.mul_lt_mul_of_pos_left (Nat.lt_of_not_le hlt) hblock)
    omega
  have hlines : a.begin_addr_aligned.toNat + (j - i) * a.cache_block_size.toNat =
      a.end_addr_aligned.toNat := by
    rw [begin_addr_aligned, end_addr_aligned, hi, hj, Nat.mul_comm (j - i), ← Nat.mul_add,
      Nat.add_sub_cancel' hij]
  have hlast : a.end_addr_aligned.toNat + a.cache_block_size.toNat < 2 ^ 64 := by
    rw [end_addr_aligned]
    omega
  have hline : a.IsLine a.begin_addr_aligned := ⟨hblock, a.dvd_aligned _, le_rfl⟩
  obtain ⟨pieces, hrun, hexact, -⟩ := loop_exact haccess hlast (j - i) _ buf hline hlines
  have hposition : a.position a.begin_addr_aligned = a.begin_addr.toNat := max_eq_left hbegin.1
  rw [hposition] at hexact
  exact ⟨_, pieces, hrun, hexact⟩

theorem access_endless (hblock : 0 < a.cache_block_size.toNat)
    (hdvd : a.cache_block_size.toNat ∣ 2 ^ 64)
    (hlast : 2 ^ 64 ≤ a.end_addr.toNat + a.cache_block_size.toNat) (buf : Option Nat) :
    a.loop fuel a.begin_addr_aligned buf = none := by
  refine loop_endless hdvd ?_ (a.dvd_aligned _) buf
  have hnext := next_le (a.dvd_aligned a.end_addr) hdvd (a.aligned a.end_addr).toNat_lt
  have hend := aligned_lt hblock a.end_addr
  have hnot : ¬ a.end_addr_aligned.toNat + a.cache_block_size.toNat < 2 ^ 64 := by
    intro hlt
    have hnext2 := next_le (Nat.dvd_add_self_right.mpr (a.dvd_aligned a.end_addr)) hdvd hlt
    omega
  rw [end_addr_aligned] at hnot ⊢
  omega

theorem access_missed (hblock : 0 < a.cache_block_size.toNat) (hend : a.end_addr.toNat = 0)
    (hbegin : a.cache_block_size.toNat ≤ a.begin_addr.toNat) (buf : Option Nat) :
    a.loop (fuel + 1) a.begin_addr_aligned buf = some [] := by
  refine loop_stop ?_ buf
  have hfirst := aligned_lt hblock a.begin_addr
  have hlast := aligned_lt hblock a.end_addr
  rw [begin_addr_aligned, end_addr_aligned]
  omega

end Access

theorem initiateMemoryAccess_loop {address data_buf data_size cache_block_size}
    (hsize : 0 < data_size.toNat) (fuel : Nat) :
    initiateMemoryAccess fuel address data_buf data_size cache_block_size =
      Access.loop ⟨address, address + data_size.toUInt64, cache_block_size⟩ fuel
        (Access.begin_addr_aligned ⟨address, address + data_size.toUInt64, cache_block_size⟩)
        data_buf := by
  exact if_neg (by rw [UInt32.le_iff_toNat_le, UInt32.toNat_zero]; omega)

/-- **An access is split exactly if and only if it ends before the last line of the address
space.** -/
theorem splitsExactly_iff (address : UInt64) (data_buf : Option Nat)
    (data_size cache_block_size : UInt32) (k : Nat) (hblock : cache_block_size.toNat = 2 ^ k)
    (hsize : 0 < data_size.toNat) (hend : address.toNat + data_size.toNat ≤ 2 ^ 64) :
    SplitsExactly address data_buf data_size cache_block_size ↔
      address.toNat + data_size.toNat < 2 ^ 64 - cache_block_size.toNat := by
  have hpos : 0 < cache_block_size.toNat := by
    rw [hblock]
    exact Nat.two_pow_pos k
  have hk : k < 32 := by
    have hlt := cache_block_size.toNat_lt
    rw [hblock] at hlt
    exact (Nat.pow_lt_pow_iff_right Nat.one_lt_two).mp hlt
  have hdvd : cache_block_size.toNat ∣ 2 ^ 64 := by
    rw [hblock]
    exact Nat.pow_dvd_pow 2 (by omega)
  have hendaddr : (address + data_size.toUInt64).toNat =
      (address.toNat + data_size.toNat) % 2 ^ 64 := by
    rw [UInt64.toNat_add, UInt32.toNat_toUInt64]
  constructor
  · intro ⟨fuel, pieces, hrun, hexact⟩
    rw [initiateMemoryAccess_loop hsize] at hrun
    by_contra hlast
    rcases Nat.lt_or_eq_of_le hend with hlt | heq
    · rw [Access.access_endless hpos hdvd (by
        dsimp only
        omega)] at hrun
      cases hrun
    · have hwidth := cache_block_size.toNat_lt
      have hwidth' := data_size.toNat_lt
      cases fuel with
      | zero => cases hrun
      | succ fuel =>
        rw [Access.access_missed hpos (by rw [hendaddr, heq, Nat.mod_self])
          (by dsimp only; omega)] at hrun
        cases hrun
        have hcovers := congrArg List.length hexact.covers
        rw [List.length_range'] at hcovers
        exact absurd hcovers.symm hsize.ne'
  · intro h
    have hlt : address.toNat + data_size.toNat < 2 ^ 64 := by omega
    rw [Nat.mod_eq_of_lt hlt] at hendaddr
    obtain ⟨fuel, pieces, hrun, hexact⟩ := Access.access_exact
      (a := ⟨address, address + data_size.toUInt64, cache_block_size⟩) hpos
      (by dsimp only; omega) (by dsimp only; omega) data_buf
    rw [hendaddr, Nat.add_sub_cancel_left] at hexact
    exact ⟨fuel, pieces, (initiateMemoryAccess_loop hsize fuel).trans hrun, hexact⟩

/-- Twenty bytes over the boundary of two lines of 16. -/
theorem splitsExactly_two : SplitsExactly 24 (some 0) 20 16 :=
  (splitsExactly_iff 24 (some 0) 20 16 4 rfl (by decide) (by decide)).mpr (by decide)

/-- An access in the last line: after that line the loop starts over at line 0. -/
theorem last_byte_endless : (0xFFFFFFFFFFFFFFFE : UInt64).toNat + (1 : UInt32).toNat ≤ 2 ^ 64 ∧
    (∀ fuel, initiateMemoryAccess fuel 0xFFFFFFFFFFFFFFFE (some 0) 1 64 = none) ∧
    ¬ SplitsExactly 0xFFFFFFFFFFFFFFFE (some 0) 1 64 := by
  have hnone : ∀ fuel, initiateMemoryAccess fuel 0xFFFFFFFFFFFFFFFE (some 0) 1 64 = none := by
    intro fuel
    exact Access.access_endless (by decide) (by decide) (by decide) _
  refine ⟨by decide, hnone, ?_⟩
  rintro ⟨fuel, pieces, hrun, -⟩
  rw [hnone] at hrun
  cases hrun

end Sniper.Memory.Core
