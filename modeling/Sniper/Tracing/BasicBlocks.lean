import Mathlib.Data.List.SplitBy
import Sniper.Tracing.AddressTranslation

/-! # Basic blocks of a trace

`TraceThread::run` counts the instructions of a basic block when the next block starts. An
instruction is processed only when the one after it has been read. The modes, the cores the
thread is on and the stop requests are those that each iteration sees. -/
namespace Sniper.Tracing.BasicBlocks
open Translation (Word)

/-- What the loop reads of an instruction. -/
structure Instruction where
  addr : Word
  size : Word
  is_branch : Bool
  deriving DecidableEq

inductive InstMode where
  | FAST_FORWARD
  | CACHE_ONLY
  | DETAILED

/-- A call of `Core::countInstructions`. -/
structure Count where
  address : Word
  count : BitVec 32
  deriving DecidableEq

/-- How an iteration handles its instruction. -/
inductive Handled where
  | fastForward
  /-- `handleInstructionWarmup`, with the address and size of the block to warm up. -/
  | warmup (inst next_inst : Instruction) (icache : Option (Word × Word))
  | detailed (inst next_inst : Instruction)

structure Bbv where
  m_bbv_base : Word
  m_bbv_count : Word
  m_bbv_last : Word
  m_bbv_end : Bool

def Bbv.initial : Bbv := ⟨0, 0, 0, false⟩

def Bbv.starts (s : Bbv) (inst : Instruction) : Bool := s.m_bbv_end || s.m_bbv_last != inst.addr

/-- The fields behind the reconstruction of basic blocks in an iteration. -/
def Bbv.extend (s : Bbv) (inst : Instruction) : Bbv :=
  let s := if s.starts inst then { s with m_bbv_base := inst.addr, m_bbv_count := 0 } else s
  { s with
    m_bbv_count := s.m_bbv_count + 1
    m_bbv_last := inst.addr + inst.size
    m_bbv_end := inst.is_branch }

/-- The count at the start of a block. -/
def Bbv.report (s : Bbv) : Count := ⟨s.m_bbv_base, s.m_bbv_count.setWidth 32⟩

/-- The block that is warmed up at the start of the next one. -/
def Bbv.icache (s : Bbv) : Option (Word × Word) :=
  if s.m_bbv_base ≠ 0 then some (s.m_bbv_base, s.m_bbv_last - s.m_bbv_base) else none

/-- What an iteration does: the instruction it processes, its core, the count and the handler. -/
structure Iteration where
  inst : Instruction
  core : Nat
  count : Option Count
  handled : Handled

/-- What the loop does not decide itself, by iteration. -/
structure Environment where
  mode : Nat → InstMode
  core : Nat → Nat
  m_stop : Nat → Bool

def iteration (env : Environment) (i : Nat) (s : Bbv) (inst next_inst : Instruction) :
    Iteration where
  inst := inst
  core := env.core i
  count := if s.starts inst then some s.report else none
  handled :=
    match env.mode i with
    | .FAST_FORWARD => .fastForward
    | .CACHE_ONLY => .warmup inst next_inst (if s.starts inst then s.icache else none)
    | .DETAILED => .detailed inst next_inst

/-- The loop of `TraceThread::run` from iteration `i` on, over what is left of the trace; the
first instruction has been read. -/
def loop (env : Environment) : Nat → Bbv → List Instruction → List Iteration × Bbv
  | i, s, inst :: next_inst :: rest =>
    let here := iteration env i s inst next_inst
    let s := s.extend inst
    if env.m_stop i then ([here], s)
    else
      let (later, s) := loop env (i + 1) s (next_inst :: rest)
      (here :: later, s)
  | _, s, _ => ([], s)

/-- `TraceThread::run`. -/
def run (env : Environment) (trace : List Instruction) : List Iteration :=
  (loop env 0 .initial trace).1

/-! ### The blocks of the instructions that were processed -/

/-- An instruction follows its predecessor, which is no branch. -/
def follows (a b : Instruction) : Bool := !(a.is_branch || a.addr + a.size != b.addr)

/-- Basic blocks end just where an instruction does not follow its predecessor sequentially, or
follows a branch. -/
def blocks (instructions : List Instruction) : List (List Instruction) :=
  instructions.splitBy follows

def processed (iterations : List Iteration) : List Instruction := iterations.map (·.inst)

/-- The calls of `countInstructions`, on whatever core. -/
def counts (iterations : List Iteration) : List Count := iterations.filterMap (·.count)

/-- The report of a block: the address of its first instruction and its length. -/
def reportOf (block : List Instruction) : Option Count :=
  block.head?.map fun first => ⟨first.addr, BitVec.ofNat 32 block.length⟩

/-- Every instruction that was processed is counted once, in its block. -/
structure CountsOnce (iterations : List Iteration) : Prop where
  sum : ((counts iterations).map (·.count.toNat)).sum = (processed iterations).length
  blocks : (counts iterations).filter (·.count ≠ 0) =
    (blocks (processed iterations)).filterMap reportOf

/-! ### The open block -/

structure Open (s : Bbv) (block : List Instruction) : Prop where
  last : ∃ front inst, block = front ++ [inst] ∧ s.m_bbv_last = inst.addr + inst.size ∧
    s.m_bbv_end = inst.is_branch
  report : reportOf block = some s.report
  chain : block.IsChain fun a b => follows a b
  count : s.m_bbv_count = BitVec.ofNat 64 block.length

theorem starts_eq_not_follows {s : Bbv} {last inst : Instruction}
    (hlast : s.m_bbv_last = last.addr + last.size) (hend : s.m_bbv_end = last.is_branch) :
    s.starts inst = !follows last inst := by
  simp [Bbv.starts, follows, hlast, hend]

theorem setWidth_ofNat (n : Nat) : (BitVec.ofNat 64 n).setWidth 32 = BitVec.ofNat 32 n := by
  apply BitVec.eq_of_toNat_eq
  exact Nat.mod_mod_of_dvd n (by decide)

theorem Open.extend {s : Bbv} {block} (h : Open s block) {inst} (hstart : s.starts inst = false) :
    Open (s.extend inst) (block ++ [inst]) := by
  obtain ⟨front, prev, rfl, hlast, hend⟩ := h.last
  have hfollows : follows prev inst = true := by
    simpa [starts_eq_not_follows hlast hend] using hstart
  have hcount : (s.extend inst).m_bbv_count =
      BitVec.ofNat 64 (front ++ [prev] ++ [inst]).length := by
    simp only [Bbv.extend, hstart, Bool.false_eq_true, if_false, h.count]
    simp only [List.length_append, List.length_singleton, BitVec.ofNat_add]
    rfl
  refine ⟨⟨_, inst, rfl, rfl, rfl⟩, ?_, ?_, hcount⟩
  · have hreport := h.report
    simp only [Bbv.report, hcount, setWidth_ofNat] at hreport ⊢
    simp only [Bbv.extend, hstart, Bool.false_eq_true, if_false]
    cases front with
    | nil | cons first front => simpa [reportOf] using (by simpa [reportOf] using hreport : _ ∧ _).1
  · refine List.isChain_append.mpr ⟨h.chain, List.isChain_singleton _, ?_⟩
    simpa using hfollows

theorem Open.single {s : Bbv} {inst : Instruction}
    (h : (s.extend inst).m_bbv_base = inst.addr ∧ (s.extend inst).m_bbv_count = 1) :
    Open (s.extend inst) [inst] :=
  ⟨⟨[], inst, rfl, rfl, rfl⟩, by simp [reportOf, Bbv.report, h.1, h.2], List.isChain_singleton _,
    h.2⟩

theorem extend_of_starts {s : Bbv} {inst : Instruction} (h : s.starts inst = true) :
    (s.extend inst).m_bbv_base = inst.addr ∧ (s.extend inst).m_bbv_count = 1 := by
  simp [Bbv.extend, h]

theorem extend_initial (inst : Instruction) :
    (Bbv.initial.extend inst).m_bbv_base = inst.addr ∧
      (Bbv.initial.extend inst).m_bbv_count = 1 := by
  cases h : Bbv.initial.starts inst with
  | true => exact extend_of_starts h
  | false =>
    have haddr : 0 = inst.addr := by simpa [Bbv.starts, Bbv.initial] using h
    simp only [Bbv.extend, h, Bool.false_eq_true, if_false]
    exact ⟨haddr, rfl⟩

theorem blocks_append (front rest : List Instruction) {last inst} (h : follows last inst = false) :
    blocks (front ++ [last] ++ inst :: rest) = blocks (front ++ [last]) ++ blocks (inst :: rest) :=
  List.splitBy_append_cons rest (by simpa using h)

theorem Open.blocks_eq {s block} (h : Open s block) :
    blocks block = [block] := by
  obtain ⟨front, prev, rfl, -⟩ := h.last
  exact List.splitBy_of_isChain (by simp) h.chain

/-! ### What the loop reports -/

theorem loop_counts (env : Environment) (trace : List Instruction) (i : Nat) (s : Bbv)
    (block : List Instruction) (h : Open s block) :
    counts (loop env i s trace).1 ++ [(loop env i s trace).2.report] =
      (blocks (block ++ processed (loop env i s trace).1)).filterMap reportOf := by
  induction trace generalizing i s block with
  | nil => simp [loop, counts, processed, h.blocks_eq, h.report]
  | cons inst rest ih =>
    cases rest with
    | nil => simp [loop, counts, processed, h.blocks_eq, h.report]
    | cons next_inst rest =>
      -- what follows the instruction, whether or not the thread stops here
      obtain ⟨later, last, hloop, hlater⟩ : ∃ later last,
          loop env i s (inst :: next_inst :: rest) =
            (iteration env i s inst next_inst :: later, last) ∧
          ∀ open', Open (s.extend inst) open' → counts later ++ [last.report] =
            (blocks (open' ++ processed later)).filterMap reportOf := by
        cases hstop : env.m_stop i with
        | true =>
          refine ⟨[], s.extend inst, by simp [loop, hstop], fun open' ho => ?_⟩
          simp [counts, processed, ho.blocks_eq, ho.report]
        | false =>
          exact ⟨_, _, by simp [loop, hstop], fun open' ho => ih (i + 1) _ open' ho⟩
      rw [hloop]
      cases hstart : s.starts inst with
      | false =>
        have := hlater _ (h.extend hstart)
        simpa [counts, processed, iteration, hstart] using this
      | true =>
        have hopen := hlater _ (Open.single (extend_of_starts hstart))
        obtain ⟨front, prev, hblock, hlast, hend⟩ := h.last
        have hnot : follows prev inst = false := by
          simpa [starts_eq_not_follows hlast hend] using hstart
        have hsplit := blocks_append front (processed later) hnot
        rw [← hblock, h.blocks_eq] at hsplit
        simp only [processed, List.map_cons, iteration] at hsplit hopen ⊢
        rw [hsplit, List.filterMap_append, List.filterMap_cons, h.report]
        simpa [counts, iteration, hstart] using hopen

/-- The count in front of the first block: the fields before any instruction. -/
def opening (first : Instruction) : List Count := if first.addr = 0 then [] else [⟨0, 0⟩]

theorem run_cons (env : Environment) (first second : Instruction) (rest : List Instruction) :
    ∃ later last,
      run env (first :: second :: rest) = iteration env 0 .initial first second :: later ∧
      counts later ++ [last] = (blocks (first :: processed later)).filterMap reportOf := by
  have hopen := Open.single (extend_initial first)
  cases hstop : env.m_stop 0 with
  | true =>
    refine ⟨[], (Bbv.initial.extend first).report, by simp [run, loop, hstop], ?_⟩
    simp [counts, processed, hopen.blocks_eq, hopen.report]
  | false =>
    exact ⟨_, _, by simp [run, loop, hstop], loop_counts env (second :: rest) 1 _ _ hopen⟩

theorem run_counts (env : Environment) (first second : Instruction) (rest : List Instruction) :
    ∃ front block,
      blocks (processed (run env (first :: second :: rest))) = front ++ [block] ∧ block ≠ [] ∧
      counts (run env (first :: second :: rest)) = opening first ++ front.filterMap reportOf := by
  obtain ⟨later, last, hrun, hcounts⟩ := run_cons env first second rest
  obtain ⟨front, block, hblocks⟩ := (List.eq_nil_or_concat (blocks (first :: processed later))
    ).resolve_left (List.splitBy_ne_nil.mpr (List.cons_ne_nil _ _))
  rw [List.concat_eq_append] at hblocks
  have hne : block ≠ [] := List.ne_nil_of_mem_splitBy (r := follows)
    (hblocks ▸ List.mem_append_right front List.mem_cons_self :
      block ∈ blocks (first :: processed later))
  refine ⟨front, block, by rw [hrun]; exact hblocks, hne, ?_⟩
  obtain ⟨report, hreport⟩ : ∃ report, reportOf block = some report := by
    cases block with
    | nil => exact absurd rfl hne
    | cons head tail => exact ⟨_, rfl⟩
  rw [hblocks, List.filterMap_append, List.filterMap_cons, hreport] at hcounts
  rw [hrun]
  have hlater := (List.append_inj' hcounts rfl).1
  cases hstart : Bbv.initial.starts first with
  | true =>
    have haddr : 0 ≠ first.addr := by simpa [Bbv.starts, Bbv.initial] using hstart
    rw [opening, if_neg haddr.symm, ← hlater]
    simp [counts, iteration, hstart]
    rfl
  | false =>
    have haddr : 0 = first.addr := by simpa [Bbv.starts, Bbv.initial] using hstart
    rw [opening, if_pos haddr.symm, ← hlater]
    simp [counts, iteration, hstart]

theorem sum_reports_le (bs : List (List Instruction)) :
    ((bs.filterMap reportOf).map (·.count.toNat)).sum ≤ bs.flatten.length := by
  induction bs with
  | nil => simp
  | cons block bs ih =>
    rw [List.flatten_cons, List.length_append, List.filterMap_cons]
    cases block with
    | nil => simpa [reportOf] using ih
    | cons head tail =>
      simp only [reportOf, List.head?_cons, Option.map_some, List.map_cons, List.sum_cons,
        BitVec.toNat_ofNat]
      omega

theorem run_sum_lt (env : Environment) (first second : Instruction) (rest : List Instruction) :
    ((counts (run env (first :: second :: rest))).map (·.count.toNat)).sum <
      (processed (run env (first :: second :: rest))).length := by
  obtain ⟨front, block, hblocks, hne, hcounts⟩ := run_counts env first second rest
  have hflatten := List.flatten_splitBy follows (processed (run env (first :: second :: rest)))
  have hle := sum_reports_le front
  have hpos := List.length_pos_iff.mpr hne
  have hopening : ((opening first).map (·.count.toNat)).sum = 0 := by
    rw [opening]
    split <;> rfl
  rw [← hflatten, hcounts, show List.splitBy follows _ = front ++ [block] from hblocks,
    List.map_append, List.sum_append, hopening, List.flatten_append, List.length_append]
  simp only [List.flatten_cons, List.flatten_nil, List.append_nil]
  omega

/-- Only where the loop processes nothing is every instruction counted: the last block is not. -/
theorem countsOnce_iff (env : Environment) (trace : List Instruction) :
    CountsOnce (run env trace) ↔ trace.length < 2 := by
  constructor
  · intro h
    by_contra hlen
    obtain ⟨first, second, rest, rfl⟩ : ∃ first second rest, trace = first :: second :: rest := by
      match trace, hlen with
      | first :: second :: rest, _ => exact ⟨first, second, rest, rfl⟩
      | [_], hlen | [], hlen => simp at hlen
    exact (run_sum_lt env first second rest).ne h.sum
  · intro hlen
    have hrun : run env trace = [] := by
      match trace, hlen with
      | [], _ | [_], _ => rfl
      | _ :: _ :: _, hlen => exact absurd hlen (by simp)
    rw [hrun]
    exact ⟨rfl, rfl⟩

/-- Three instructions, of which the loop processes the first two: they make one block, which is
not counted. -/
theorem last_block_not_counted :
    let trace : List Instruction :=
      [⟨0x400000, 4, false⟩, ⟨0x400004, 4, false⟩, ⟨0x400008, 4, true⟩]
    let iterations := run ⟨fun _ => .DETAILED, fun _ => 0, fun _ => false⟩ trace
    processed iterations = trace.take 2 ∧ counts iterations = [⟨0, 0⟩] ∧
      ¬ CountsOnce iterations := by
  refine ⟨by decide, by decide, fun h => ?_⟩
  exact absurd h.sum (by decide)

end Sniper.Tracing.BasicBlocks
