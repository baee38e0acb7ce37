import Sniper.Lib.Simulation
import Sniper.Memory.AccessSplit
import Sniper.Tracing.BasicBlocks

/-! # Instruction fetches

`Core::readInstructionMemory` keeps the line that it accessed last and does not access it again. Of
any other range it accesses one line, whatever the range has of them: a caller that asks for a whole
basic block gets the first line of it.
-/
namespace Sniper.Memory.Core
open Lib.Simulation

/-! ### The code -/

def blockmask (cache_block_size : UInt32) : UInt64 := ~~~(cache_block_size.toUInt64 - 1)

def single_cache_line (cache_block_size : UInt32) (address : UInt64) (instruction_size : UInt32) :
    Bool :=
  address &&& blockmask cache_block_size ==
    (address + instruction_size.toUInt64 - 1) &&& blockmask cache_block_size

/-- The end of `readInstructionMemory`: the access to the line of an address. -/
def accessLine (cache_block_size : UInt32) (fuel : Nat) (address : UInt64) :
    Option (List Piece × UInt64) :=
  let m_icache_last_block := address &&& blockmask cache_block_size
  (initiateMemoryAccess fuel (address &&& blockmask cache_block_size) none cache_block_size
    cache_block_size).map (·, m_icache_last_block)

/-- `readInstructionMemory`: what it accesses, and the new `m_icache_last_block`. -/
def readInstructionMemory (cache_block_size : UInt32) (fuel : Nat) (m_icache_last_block : UInt64)
    (address : UInt64) (instruction_size : UInt32) : Option (List Piece × UInt64) :=
  if address &&& blockmask cache_block_size = m_icache_last_block then
    if single_cache_line cache_block_size address instruction_size then
      some ([], m_icache_last_block)
    else
      accessLine cache_block_size fuel
        ((address &&& blockmask cache_block_size) + cache_block_size.toUInt64)
  else accessLine cache_block_size fuel address

/-- The calls of `readInstructionMemory` that the iterations of `TraceThread::run` make. -/
def warmupCalls (thread : Tracing.Translation.TraceThread)
    (iterations : List Tracing.BasicBlocks.Iteration) : List (UInt64 × UInt32) :=
  iterations.filterMap fun iteration =>
    match iteration.handled with
    | .warmup _ _ (some (addr, size)) => some (⟨(thread.va2pa addr).1⟩, ⟨size.setWidth 32⟩)
    | _ => none

/-! ### What a fetch should access -/

/-- A byte of the range is in the line at `line`. -/
def Overlaps (cache_block_size : UInt32) (address : UInt64) (instruction_size : UInt32)
    (line : Nat) : Prop :=
  ∃ byte, address.toNat ≤ byte ∧ byte < address.toNat + instruction_size.toNat ∧
    line = byte - byte % cache_block_size.toNat

def lines (pieces : List Piece) : List Nat := pieces.map (·.curr_addr_aligned.toNat)

/-- A fetch on its way: the line that was accessed last, and the field that is to hold it. -/
structure Fetcher where
  last : Option Nat
  m_icache_last_block : UInt64

/-- The call returns, and of the lines of the range it accesses all but the last one. -/
def FetchesAll (cache_block_size : UInt32) (s : Fetcher) (address : UInt64)
    (instruction_size : UInt32) : Prop :=
  ∃ fuel pieces m_icache_last_block,
    readInstructionMemory cache_block_size fuel s.m_icache_last_block address instruction_size =
      some (pieces, m_icache_last_block) ∧
    ∀ line, Overlaps cache_block_size address instruction_size line →
      (line ∈ lines pieces ↔ s.last ≠ some line)

/-- At most one line of the range has to be accessed, and two lines follow it. -/
def OneLine (cache_block_size : UInt32) (s : Fetcher) (address : UInt64)
    (instruction_size : UInt32) : Prop :=
  ∃ line, line + 2 * cache_block_size.toNat < 2 ^ 64 ∧
    ∀ line', Overlaps cache_block_size address instruction_size line' → s.last ≠ some line' →
      line' = line

/-- A range of bytes of the address space. -/
structure Valid (address : UInt64) (instruction_size : UInt32) : Prop where
  size : 1 ≤ instruction_size.toNat
  fits : address.toNat + instruction_size.toNat ≤ 2 ^ 64

def Fetcher.start : Fetcher := ⟨none, -1⟩

def FetchStep (cache_block_size : UInt32) (s s' : Fetcher) : Prop :=
  ∃ fuel address instruction_size pieces,
    Valid address instruction_size ∧ OneLine cache_block_size s address instruction_size ∧
    readInstructionMemory cache_block_size fuel s.m_icache_last_block address instruction_size =
      some (pieces, s'.m_icache_last_block) ∧
    s'.last = (lines pieces).getLast?.or s.last

/-! ### Lines -/

section Lines
variable {cache_block_size : UInt32} {k : Nat} (hblock : cache_block_size.toNat = 2 ^ k)
include hblock

theorem blockmask_toNat (address : UInt64) : (address &&& blockmask cache_block_size).toNat =
    address.toNat - address.toNat % cache_block_size.toNat := by
  have hone : (1 : UInt64) ≤ cache_block_size.toUInt64 := by
    rw [UInt64.le_iff_toNat_le, UInt32.toNat_toUInt64, hblock]
    exact Nat.one_le_two_pow
  have hlow : address.toNat % cache_block_size.toNat =
      (address &&& (cache_block_size.toUInt64 - 1)).toNat := by
    rw [UInt64.toNat_and, UInt64.toNat_sub_of_le _ _ hone, UInt32.toNat_toUInt64, hblock]
    exact (Nat.and_two_pow_sub_one_eq_mod _ _).symm
  have hsplit : ∀ x m : BitVec 64, x &&& ~~~m = x - (x &&& m) := by
    intro x m
    have hsum := BitVec.add_eq_or_of_and_eq_zero (x &&& ~~~m) (x &&& m) (by ext i; simp; grind)
    rw [eq_comm, BitVec.sub_eq_iff_eq_add, hsum]
    ext i
    simp
    grind
  have hand : address &&& blockmask cache_block_size =
      address - (address &&& (cache_block_size.toUInt64 - 1)) :=
    UInt64.toBitVec_inj.mp (hsplit address.toBitVec (cache_block_size.toUInt64 - 1).toBitVec)
  have hle : address &&& (cache_block_size.toUInt64 - 1) ≤ address := by
    rw [UInt64.le_iff_toNat_le, ← hlow]
    exact Nat.mod_le _ _
  rw [hand, UInt64.toNat_sub_of_le _ _ hle, hlow]

theorem block_dvd : cache_block_size.toNat ∣ 2 ^ 64 := by
  have hlt := cache_block_size.toNat_lt
  rw [hblock] at hlt ⊢
  have hk : k < 32 := (Nat.pow_lt_pow_iff_right Nat.one_lt_two).mp hlt
  exact Nat.pow_dvd_pow 2 (by omega)

end Lines

theorem Access.loop_mono {a : Access} {fuel fuel'} (hle : fuel ≤ fuel')
    {curr_addr_aligned buf pieces} (h : a.loop fuel curr_addr_aligned buf = some pieces) :
    a.loop fuel' curr_addr_aligned buf = some pieces := by
  induction fuel generalizing fuel' curr_addr_aligned buf pieces with
  | zero => cases h
  | succ fuel ih =>
    cases fuel' with
    | zero => exact absurd hle (Nat.not_succ_le_zero fuel)
    | succ fuel' =>
      have hle' := Nat.le_of_succ_le_succ hle
      rw [loop] at h ⊢
      split at h
      · next hcurr =>
        rw [if_pos hcurr]
        dsimp only at h ⊢
        split at h
        · next hlast =>
          rw [if_pos hlast]
          exact ih hle' h
        · next hlast =>
          rw [if_neg hlast]
          obtain ⟨rest, hrest, rfl⟩ := Option.map_eq_some_iff.mp h
          rw [ih hle' hrest]
          rfl
      · next hcurr =>
        rw [if_neg hcurr]
        exact h

theorem Exact.lines_eq {cache_block_size line data_buf pieces}
    (h : Exact cache_block_size line cache_block_size data_buf pieces)
    (hline : cache_block_size ∣ line) (hpos : 0 < cache_block_size) (line' : Nat) :
    line' ∈ lines pieces ↔ line' = line := by
  have hsame : ∀ p ∈ pieces, p.curr_addr_aligned.toNat = line := by
    intro p hp
    have hbyte : p.curr_addr_aligned.toNat + p.curr_offset.toNat ∈ List.range' line
        cache_block_size := by
      rw [← h.covers]
      refine List.mem_flatMap.mpr ⟨p, hp, List.mem_range'_1.mpr ?_⟩
      have hsize := h.nonempty p hp
      omega
    obtain ⟨hfrom, hto⟩ := List.mem_range'_1.mp hbyte
    obtain ⟨hdvd, hinside⟩ := h.inside p hp
    have hsize := h.nonempty p hp
    by_contra hne
    rcases Nat.lt_or_gt_of_ne hne with hlt | hgt
    · have hnext := Access.next_le hdvd hline hlt
      omega
    · have hnext := Access.next_le hline hdvd hgt
      omega
  have hne : pieces ≠ [] := by
    rintro rfl
    have hlength := congrArg List.length h.covers
    rw [List.length_range'] at hlength
    exact absurd hlength.symm hpos.ne'
  refine ⟨fun hmem => ?_, fun hl => ?_⟩
  · obtain ⟨p, hp, rfl⟩ := List.mem_map.mp hmem
    exact hsame p hp
  · obtain ⟨p, rest, rfl⟩ := List.exists_cons_of_ne_nil hne
    exact List.mem_map.mpr ⟨p, List.mem_cons_self, (hsame p List.mem_cons_self).trans hl.symm⟩

/-! ### One access -/

section Access
variable {cache_block_size : UInt32} {k : Nat} (hblock : cache_block_size.toNat = 2 ^ k)
  {address : UInt64}
include hblock

theorem block_pos : 0 < cache_block_size.toNat := hblock ▸ Nat.two_pow_pos k

theorem blockmask_dvd (address : UInt64) :
    cache_block_size.toNat ∣ (address &&& blockmask cache_block_size).toNat := by
  rw [blockmask_toNat hblock]
  exact Nat.dvd_sub_mod _

theorem initiateMemoryAccess_unique {fuel fuel' pieces pieces'}
    (h : initiateMemoryAccess fuel address none cache_block_size cache_block_size = some pieces)
    (h' : initiateMemoryAccess fuel' address none cache_block_size cache_block_size =
      some pieces') : pieces = pieces' := by
  have hpos := block_pos hblock
  rw [initiateMemoryAccess_loop hpos] at h h'
  have hmax := Access.loop_mono (Nat.le_max_left fuel fuel') h
  rw [Access.loop_mono (Nat.le_max_right fuel fuel') h'] at hmax
  exact (Option.some.inj hmax).symm

theorem accessLine_lines
    (hroom : (address &&& blockmask cache_block_size).toNat + 2 * cache_block_size.toNat < 2 ^ 64) :
    ∃ fuel pieces, accessLine cache_block_size fuel address =
        some (pieces, address &&& blockmask cache_block_size) ∧
      ∀ line, line ∈ lines pieces ↔ line = (address &&& blockmask cache_block_size).toNat := by
  have hpos := block_pos hblock
  have hdvd := blockmask_dvd hblock address
  have hend : ((address &&& blockmask cache_block_size) + cache_block_size.toUInt64).toNat =
      (address &&& blockmask cache_block_size).toNat + cache_block_size.toNat :=
    Access.next_toNat (a := ⟨address, address, cache_block_size⟩) (by dsimp only; omega)
  obtain ⟨fuel, pieces, hrun, hexact⟩ := Access.access_exact
    (a := ⟨address &&& blockmask cache_block_size,
      (address &&& blockmask cache_block_size) + cache_block_size.toUInt64, cache_block_size⟩)
    hpos (by dsimp only; omega) (by dsimp only; omega) none
  rw [hend, Nat.add_sub_cancel_left] at hexact
  refine ⟨fuel, pieces, ?_, hexact.lines_eq hdvd hpos⟩
  rw [accessLine, initiateMemoryAccess_loop hpos, hrun]
  rfl

theorem accessLine_result {fuel pieces m_icache_last_block}
    (hroom : (address &&& blockmask cache_block_size).toNat + 2 * cache_block_size.toNat < 2 ^ 64)
    (h : accessLine cache_block_size fuel address = some (pieces, m_icache_last_block)) :
    m_icache_last_block = address &&& blockmask cache_block_size ∧
      ∀ line, line ∈ lines pieces ↔ line = (address &&& blockmask cache_block_size).toNat := by
  obtain ⟨fuel', pieces', h', hlines⟩ := accessLine_lines hblock hroom
  obtain ⟨p, hp, heq⟩ := Option.map_eq_some_iff.mp h
  obtain ⟨p', hp', heq'⟩ := Option.map_eq_some_iff.mp h'
  cases heq
  cases heq'
  obtain rfl := initiateMemoryAccess_unique hblock hp hp'
  exact ⟨rfl, hlines⟩

theorem accessLine_end {fuel pieces m_icache_last_block}
    (hroom : 2 ^ 64 ≤ (address &&& blockmask cache_block_size).toNat + 2 * cache_block_size.toNat)
    (h : accessLine cache_block_size fuel address = some (pieces, m_icache_last_block)) :
    pieces = [] := by
  have hpos := block_pos hblock
  have hnext := Access.next_le (blockmask_dvd hblock address) (block_dvd hblock)
    (address &&& blockmask cache_block_size).toNat_lt
  obtain ⟨pieces', hrun, heq⟩ := Option.map_eq_some_iff.mp h
  cases heq
  rw [initiateMemoryAccess_loop hpos] at hrun
  have hend : ((address &&& blockmask cache_block_size) + cache_block_size.toUInt64).toNat =
      ((address &&& blockmask cache_block_size).toNat + cache_block_size.toNat) % 2 ^ 64 := by
    rw [UInt64.toNat_add, UInt32.toNat_toUInt64]
  rcases Nat.lt_or_eq_of_le hnext with hlt | htop
  · rw [Access.access_endless hpos (block_dvd hblock) (by dsimp only; omega)] at hrun
    cases hrun
  · rw [htop, Nat.mod_self] at hend
    cases fuel with
    | zero => cases hrun
    | succ fuel =>
      have hwidth := cache_block_size.toNat_lt
      rw [Access.access_missed hpos hend (by dsimp only; omega)] at hrun
      exact (Option.some.inj hrun).symm

/-! ### The lines of a range -/

section Range
variable {instruction_size : UInt32}

omit hblock in
theorem line_mono (B : Nat) {byte byte'} (h : byte ≤ byte') :
    byte - byte % B ≤ byte' - byte' % B := by
  rw [← Nat.mul_div_self_eq_mod_sub_self, ← Nat.mul_div_self_eq_mod_sub_self]
  exact Nat.mul_le_mul_left B (Nat.div_le_div_right h)

theorem single_cache_line_iff (hvalid : Valid address instruction_size) :
    single_cache_line cache_block_size address instruction_size = true ↔
      ∀ line, Overlaps cache_block_size address instruction_size line →
        line = (address &&& blockmask cache_block_size).toNat := by
  have hlast : (address + instruction_size.toUInt64 - 1).toNat =
      address.toNat + instruction_size.toNat - 1 := by
    have hsize := hvalid.size
    have hfits := hvalid.fits
    rw [UInt64.toNat_sub, UInt64.toNat_add, UInt32.toNat_toUInt64]
    have hone : (1 : UInt64).toNat = 1 := rfl
    omega
  rw [single_cache_line, beq_iff_eq, ← UInt64.toNat_inj, blockmask_toNat hblock,
    blockmask_toNat hblock, hlast]
  constructor
  · rintro hsame line ⟨byte, hfrom, hto, rfl⟩
    refine le_antisymm ?_ (line_mono _ hfrom)
    rw [hsame]
    exact line_mono _ (by omega)
  · intro hall
    have hsize := hvalid.size
    exact (hall _ ⟨_, by omega, by omega, rfl⟩).symm

theorem overlaps_first (hvalid : Valid address instruction_size) :
    Overlaps cache_block_size address instruction_size
      (address &&& blockmask cache_block_size).toNat :=
  ⟨address.toNat, le_rfl, Nat.lt_add_of_pos_right hvalid.size, blockmask_toNat hblock address⟩

theorem overlaps_second (hvalid : Valid address instruction_size)
    (hmore : single_cache_line cache_block_size address instruction_size = false) :
    ((address &&& blockmask cache_block_size) + cache_block_size.toUInt64).toNat =
        (address &&& blockmask cache_block_size).toNat + cache_block_size.toNat ∧
      Overlaps cache_block_size address instruction_size
        ((address &&& blockmask cache_block_size).toNat + cache_block_size.toNat) := by
  have hpos := block_pos hblock
  have hfits := hvalid.fits
  have hfirst := blockmask_toNat hblock address
  have hmod := Nat.mod_lt address.toNat hpos
  obtain ⟨line, ⟨byte, hfrom, hto, rfl⟩, hne⟩ : ∃ line,
      Overlaps cache_block_size address instruction_size line ∧
      line ≠ (address &&& blockmask cache_block_size).toNat := by
    by_contra hnone
    have hall : ∀ line, Overlaps cache_block_size address instruction_size line →
        line = (address &&& blockmask cache_block_size).toNat :=
      fun line hline => by_contra fun hne => hnone ⟨line, hline, hne⟩
    rw [(single_cache_line_iff hblock hvalid).mpr hall] at hmore
    cases hmore
  have hlt : (address &&& blockmask cache_block_size).toNat <
      byte - byte % cache_block_size.toNat := by
    refine lt_of_le_of_ne ?_ hne.symm
    rw [hfirst]
    exact line_mono _ hfrom
  have hnext := Access.next_le (blockmask_dvd hblock _) (Nat.dvd_sub_mod byte) hlt
  refine ⟨Access.next_toNat (a := ⟨address, address, cache_block_size⟩) (by dsimp only; omega),
    (address &&& blockmask cache_block_size).toNat + cache_block_size.toNat, by omega, by omega, ?_⟩
  have hdvd := (Nat.dvd_add_self_right.mpr (blockmask_dvd hblock address))
  rw [Nat.mod_eq_zero_of_dvd hdvd, Nat.sub_zero]

end Range

/-! ### Runs of fetches -/

variable {s s' : Fetcher} {instruction_size : UInt32}

theorem accessLine_fetchesAll {target} (hline : Overlaps cache_block_size address instruction_size
      (target &&& blockmask cache_block_size).toNat)
    (hnew : s.last ≠ some (target &&& blockmask cache_block_size).toNat) :
    (∃ fuel pieces m_icache_last_block,
      accessLine cache_block_size fuel target = some (pieces, m_icache_last_block) ∧
      ∀ line, Overlaps cache_block_size address instruction_size line →
        (line ∈ lines pieces ↔ s.last ≠ some line)) ↔
    OneLine cache_block_size s address instruction_size := by
  constructor
  · rintro ⟨fuel, pieces, m', hrun, hall⟩
    have hmem := (hall _ hline).mpr hnew
    have hroom : (target &&& blockmask cache_block_size).toNat + 2 * cache_block_size.toNat <
        2 ^ 64 := by
      by_contra hend
      rw [accessLine_end hblock (Nat.le_of_not_lt hend) hrun] at hmem
      cases hmem
    have hlines := (accessLine_result hblock hroom hrun).2
    exact ⟨_, hroom, fun line hover hne => (hlines line).mp ((hall line hover).mpr hne)⟩
  · rintro ⟨only, hroom, hall⟩
    obtain rfl := hall _ hline hnew
    obtain ⟨fuel, pieces, hrun, hlines⟩ := accessLine_lines hblock hroom
    refine ⟨fuel, pieces, _, hrun, fun line hover => ?_⟩
    rw [hlines line]
    exact ⟨fun heq => heq ▸ hnew, hall line hover⟩

omit hblock in
/-- The field holds the line that was accessed last. -/
def Fetcher.Known (s : Fetcher) : Prop :=
  s.last = some s.m_icache_last_block.toNat ∨ s = .start

theorem accessLine_second (hvalid : Valid address instruction_size)
    (hmore : single_cache_line cache_block_size address instruction_size = false) :
    (((address &&& blockmask cache_block_size) + cache_block_size.toUInt64) &&&
      blockmask cache_block_size).toNat =
        (address &&& blockmask cache_block_size).toNat + cache_block_size.toNat := by
  rw [blockmask_toNat hblock, (overlaps_second hblock hvalid hmore).1]
  have hdvd := (Nat.dvd_add_self_right.mpr (blockmask_dvd hblock address))
  rw [Nat.mod_eq_zero_of_dvd hdvd, Nat.sub_zero]

theorem fetchesAll_start_iff (hvalid : Valid address instruction_size)
    (hlast : address &&& blockmask cache_block_size = -1) :
    FetchesAll cache_block_size .start address instruction_size ↔
      OneLine cache_block_size .start address instruction_size := by
  have htop : (address &&& blockmask cache_block_size).toNat = 2 ^ 64 - 1 := by
    rw [hlast]
    rfl
  have hfirst := overlaps_first hblock hvalid
  refine ⟨fun ⟨fuel, pieces, m', hrun, hall⟩ => ?_, fun ⟨only, hroom, hall⟩ => ?_⟩
  · have hmem := (hall _ hfirst).mpr nofun
    rw [readInstructionMemory, if_pos (show _ = Fetcher.start.m_icache_last_block from hlast)]
      at hrun
    split at hrun
    · cases hrun
      cases hmem
    · next hmore =>
      have hsecond := overlaps_second hblock hvalid (Bool.eq_false_of_not_eq_true hmore)
      have hlt := ((address &&& blockmask cache_block_size) + cache_block_size.toUInt64).toNat_lt
      have hpos := block_pos hblock
      omega
  · obtain rfl := hall _ hfirst nofun
    have hpos := block_pos hblock
    omega

theorem fetchesAll_iff (hknown : s.Known) (hvalid : Valid address instruction_size) :
    FetchesAll cache_block_size s address instruction_size ↔
      OneLine cache_block_size s address instruction_size := by
  by_cases hfirst : address &&& blockmask cache_block_size = s.m_icache_last_block
  · rcases hknown with hlast | rfl
    · rw [FetchesAll]
      simp only [readInstructionMemory, if_pos hfirst]
      cases hsingle : single_cache_line cache_block_size address instruction_size with
      | true =>
        have hall := (single_cache_line_iff hblock hvalid).mp hsingle
        have hdone : ∀ line, Overlaps cache_block_size address instruction_size line →
            s.last = some line := by
          intro line hover
          rw [hlast, ← hfirst, hall line hover]
        refine iff_of_true ⟨0, [], _, rfl, fun line hover => ?_⟩ ⟨0, ?_, fun line hover hne => ?_⟩
        · exact iff_of_false List.not_mem_nil fun hne => hne (hdone line hover)
        · have hwidth := cache_block_size.toNat_lt
          omega
        · exact absurd (hdone line hover) hne
      | false =>
        have htarget := accessLine_second hblock hvalid hsingle
        refine accessLine_fetchesAll hblock ?_ ?_
        · rw [htarget]
          exact (overlaps_second hblock hvalid hsingle).2
        · rw [htarget, hlast, hfirst]
          have hpos := block_pos hblock
          exact fun heq => absurd (Option.some.inj heq) (by omega)
    · exact fetchesAll_start_iff hblock hvalid hfirst
  · rw [FetchesAll]
    simp only [readInstructionMemory, if_neg hfirst]
    refine accessLine_fetchesAll hblock (overlaps_first hblock hvalid) fun heq => hfirst ?_
    rcases hknown with hlast | rfl
    · rw [hlast] at heq
      exact (UInt64.toNat_inj.mp (Option.some.inj heq)).symm
    · cases heq

theorem accessLine_last {target fuel pieces}
    (hline : Overlaps cache_block_size address instruction_size
      (target &&& blockmask cache_block_size).toNat)
    (hnew : s.last ≠ some (target &&& blockmask cache_block_size).toNat)
    (hone : OneLine cache_block_size s address instruction_size)
    (hrun : accessLine cache_block_size fuel target = some (pieces, s'.m_icache_last_block))
    (hlast : s'.last = (lines pieces).getLast?.or s.last) : s'.Known := by
  obtain ⟨only, hroom, hall⟩ := hone
  obtain rfl := hall _ hline hnew
  obtain ⟨hm, hlines⟩ := accessLine_result hblock hroom hrun
  have hne : lines pieces ≠ [] := List.ne_nil_of_mem ((hlines _).mpr rfl)
  have hfinal := (hlines _).mp (List.getLast_mem hne)
  left
  rw [hlast, List.getLast?_eq_some_getLast hne, hfinal, hm]
  rfl

theorem FetchStep.known (hknown : s.Known) (hstep : FetchStep cache_block_size s s') :
    s'.Known := by
  obtain ⟨fuel, address, instruction_size, pieces, hvalid, hone, hrun, hlast⟩ := hstep
  rw [readInstructionMemory] at hrun
  split at hrun
  · next hfirst =>
    cases hsingle : single_cache_line cache_block_size address instruction_size with
    | true =>
      have hsame : s' = s := by
        cases s
        cases s'
        simp_all [lines]
      exact hsame ▸ hknown
    | false =>
      rw [if_neg (by simp [hsingle])] at hrun
      have htarget := accessLine_second hblock hvalid hsingle
      have hsecond := overlaps_second hblock hvalid hsingle
      have hpos := block_pos hblock
      refine accessLine_last hblock (htarget ▸ hsecond.2) ?_ hone hrun hlast
      rcases hknown with hknown | rfl
      · rw [hknown, ← hfirst]
        exact fun heq => absurd (Option.some.inj heq) (by omega)
      · exact nofun
  · next hfirst =>
    refine accessLine_last hblock (overlaps_first hblock hvalid) (fun heq => hfirst ?_) hone hrun
      hlast
    rcases hknown with hknown | rfl
    · rw [hknown] at heq
      exact (UInt64.toNat_inj.mp (Option.some.inj heq)).symm
    · cases heq

end Access

/-- **In a run of fetches that each need at most one line, with two more behind it, the next fetch
accesses what it has to just if it is of this kind.** -/
theorem fetch_skips_no_line {cache_block_size : UInt32} {k : Nat}
    (hblock : cache_block_size.toNat = 2 ^ k) {s : Fetcher}
    (hreach : Reachable (· = .start) (FetchStep cache_block_size) s)
    {address : UInt64} {instruction_size : UInt32} (hvalid : Valid address instruction_size) :
    FetchesAll cache_block_size s address instruction_size ↔
      OneLine cache_block_size s address instruction_size := by
  refine fetchesAll_iff hblock ?_ hvalid
  exact hreach.invariant (fun s hs => .inr hs) fun s s' hknown hstep => hstep.known hblock hknown

/-- The second fetch is over a boundary, and only its second line is still missing. -/
theorem fetch_skips_no_line_boundary : ∃ s : Fetcher, s.last = some 0x400000 ∧
    Overlaps 64 0x40003c 8 0x400000 ∧ Overlaps 64 0x40003c 8 0x400040 ∧
    FetchesAll 64 s 0x40003c 8 := by
  have hstep : FetchStep 64 .start ⟨some 0x400000, 0x400000⟩ := by
    refine ⟨3, 0x400000, 4, _, ⟨by decide, by decide⟩, ⟨0x400000, by decide, ?_⟩, rfl, rfl⟩
    rintro line ⟨byte, hfrom, hto, rfl⟩ -
    change 0x400000 ≤ byte at hfrom
    change byte < 0x400000 + 4 at hto
    change byte - byte % 64 = 0x400000
    omega
  refine ⟨_, rfl, ⟨0x40003c, by decide, by decide, rfl⟩, ⟨0x400040, by decide, by decide, rfl⟩,
    (fetch_skips_no_line (k := 6) rfl (.step (.init rfl) hstep) ⟨by decide, by decide⟩).mpr
      ⟨0x400040, by decide, ?_⟩⟩
  rintro line ⟨byte, hfrom, hto, rfl⟩ hnew
  change 0x40003c ≤ byte at hfrom
  change byte < 0x40003c + 8 at hto
  change some 0x400000 ≠ some (byte - byte % 64) at hnew
  change byte - byte % 64 = 0x400040
  have hne : 0x400000 ≠ byte - byte % 64 := fun heq => hnew (congrArg some heq)
  omega

/-- Nine instructions of eight bytes that end in a branch, and what comes behind it. -/
def nineInstructions : List Tracing.BasicBlocks.Instruction :=
  (List.range 9).map (fun i => ⟨0x400000 + 8 * BitVec.ofNat 64 i, 8, i == 8⟩) ++
    [⟨0x500000, 8, false⟩, ⟨0x500008, 8, false⟩]

/-- The block of them is fetched by one call, which leaves out its second line. -/
theorem second_line_skipped :
    warmupCalls
        { m_trace_has_pa := false, trace := fun _ => 0, m_address_randomization := false,
          m_appid_from_coreid := false, m_address_randomization_table := id, coreId := 0,
          appId := 0 }
        (Tracing.BasicBlocks.run ⟨fun _ => .CACHE_ONLY, fun _ => 0, fun _ => false⟩
          nineInstructions) = [(0x400000, 72)] ∧
    readInstructionMemory 64 3 Fetcher.start.m_icache_last_block 0x400000 72 =
      some ([⟨0x400000, 0, none, 64⟩], 0x400000) ∧
    Overlaps 64 0x400000 72 0x400040 ∧ ¬ FetchesAll 64 .start 0x400000 72 ∧
    ¬ FetchesAll 64 .start 0x40003c 8 := by
  have hskipped : ∀ {address : UInt64} {instruction_size : UInt32},
      Valid address instruction_size → Overlaps 64 address instruction_size 0x400000 →
      Overlaps 64 address instruction_size 0x400040 →
      ¬ FetchesAll 64 .start address instruction_size := by
    intro address instruction_size hvalid hfirst hsecond hall
    obtain ⟨line, -, hline⟩ :=
      (fetchesAll_iff (show (64 : UInt32).toNat = 2 ^ 6 from rfl) (.inr rfl) hvalid).mp hall
    have heq := (hline _ hfirst nofun).trans (hline _ hsecond nofun).symm
    exact absurd heq (by decide)
  refine ⟨by decide, rfl, ⟨0x400040, by decide, by decide, rfl⟩,
    hskipped ⟨by decide, by decide⟩ ⟨0x400000, by decide, by decide, rfl⟩
      ⟨0x400040, by decide, by decide, rfl⟩,
    hskipped ⟨by decide, by decide⟩ ⟨0x40003c, by decide, by decide, rfl⟩
      ⟨0x400040, by decide, by decide, rfl⟩⟩

end Sniper.Memory.Core
