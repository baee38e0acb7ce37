import Sniper.Lib.LongestPath
import Sniper.Timing.DispatchTotal

/-! # The resolution of a branch

`calculateBranchResolutionLatency` sweeps the old window once, youngest first, with marks in the
slots of the ring. By sequence numbers it is the sweep for the longest path in the dependencies
inside the old window, so a path counts only if its first micro-op, a direct producer of the
branch, has a latency, and its sum is kept only if it is below `2 ^ 31`.
-/
namespace Sniper.Timing.Interval
open Lib.LongestPath Relation Function

variable {Reg C : Type}

namespace Windows
variable {ws ws' : Windows Reg C}

/-! ### The dependencies in the old window -/

/-- The producers of a micro-op that are in the old window. -/
def oldProducers (ws : Windows Reg C) (uop : IntervalUop Reg) : List Nat :=
  uop.getDependencies.filter fun d => ws.oldNumber ≤ d ∧ d < ws.headNumber

/-- The producers of the micro-op with a sequence number of the old window. -/
def edges (ws : Windows Reg C) (s : Nat) : List Nat :=
  match (ws.m_double_window (ws.slotOf s)).uop with
  | some uop => ws.oldProducers uop
  | none => []

/-- Its latency. -/
def latencyOf (ws : Windows Reg C) (s : Nat) : Nat :=
  match (ws.m_double_window (ws.slotOf s)).uop with
  | some uop => uop.execLatency
  | none => 0

/-- Dependencies are on older micro-ops. -/
def OnlyOlder (ws : Windows Reg C) : Prop :=
  ∀ i < ws.m_double_window_size, ∀ uop ∈ (ws.m_double_window i).uop,
    ∀ d ∈ uop.getDependencies, d < uop.sequenceNumber

instance (ws : Windows Reg C) : Decidable (OnlyOlder ws) :=
  inferInstanceAs (Decidable (∀ i < _, ∀ uop ∈ (ws.m_double_window i).uop, _))

theorem mem_oldProducers {uop d} :
    d ∈ ws.oldProducers uop ↔ d ∈ uop.getDependencies ∧ ws.oldNumber ≤ d ∧ d < ws.headNumber := by
  rw [oldProducers, List.mem_filter, decide_eq_true_iff]

theorem Ring.oldUop (h : Ring ws) {s} (hlow : ws.oldNumber ≤ s) (hhigh : s < ws.headNumber) :
    ∃ uop, (ws.m_double_window (ws.slotOf s)).uop = some uop ∧ uop.sequenceNumber = s := by
  obtain ⟨hhead, hlast⟩ := h.oldNumber_add
  exact Option.map_eq_some_iff.mp (h.number hlow (by omega))

theorem Ring.edges_older (h : Ring ws) (holder : OnlyOlder ws) {s} (hlow : ws.oldNumber ≤ s)
    (hhigh : s < ws.headNumber) : ∀ d ∈ ws.edges s, ws.oldNumber ≤ d ∧ d < s := by
  obtain ⟨uop, huop, hs⟩ := h.oldUop hlow hhigh
  intro d hd
  rw [edges, huop] at hd
  obtain ⟨hdep, hd, -⟩ := mem_oldProducers.mp hd
  have hlt := holder (ws.slotOf s) (Nat.mod_lt _ h.double_pos) uop huop d hdep
  exact ⟨hd, hs ▸ hlt⟩

/-! ### Marks by sequence number -/

/-- The map holds the marks of the old window in their slots, and nothing else. -/
structure Represents (ws : Windows Reg C) (m_exec_time_map marks : Nat → Nat) : Prop where
  mark : ∀ s, ws.oldNumber ≤ s → s < ws.headNumber → m_exec_time_map (ws.slotOf s) = marks s
  clean : ∀ i, m_exec_time_map i ≠ 0 → ∃ s, ws.oldNumber ≤ s ∧ s < ws.headNumber ∧ ws.slotOf s = i

theorem Represents.update (h : Ring ws) {map marks} (hrep : Represents ws map marks) {d}
    (hlow : ws.oldNumber ≤ d) (hhigh : d < ws.headNumber) (value : Nat) :
    Represents ws (update map (ws.slotOf d) value) (update marks d value) := by
  obtain ⟨hhead, hlast⟩ := h.oldNumber_add
  refine ⟨fun s hs hs' => ?_, fun i hi => ?_⟩
  · by_cases hsd : s = d
    · rw [hsd, update_self, update_self]
    · have hne : ws.slotOf s ≠ ws.slotOf d := fun heq =>
        hsd (h.slotOf_inj hs (by omega) hlow (by omega) heq)
      rw [update_of_ne hne, update_of_ne hsd]
      exact hrep.mark s hs hs'
  · by_cases hid : i = ws.slotOf d
    · exact ⟨d, hlow, hhigh, hid.symm⟩
    · rw [update_of_ne hid] at hi
      exact hrep.clean i hi

theorem Ring.markProducers_represents (h : Ring ws) (hne : 0 < ws.m_window_length)
    (mark : Nat → (Nat → Nat) → Nat → Nat) (value : Nat → (Nat → Nat) → Nat)
    (hmark : ∀ map marks d, Represents ws map marks → ws.oldNumber ≤ d → d < ws.headNumber →
      mark (ws.latencyOf d) map (ws.slotOf d) = value d marks) {dependencies}
    (hd : 0 < ws.headNumber ∨ dependencies = []) {map marks} (hrep : Represents ws map marks) :
    ∃ map', ws.markProducers mark dependencies map = .ok map' ∧ Represents ws map'
      (raise value (dependencies.filter fun d => ws.oldNumber ≤ d ∧ d < ws.headNumber) marks) := by
  obtain ⟨hhead, hlast⟩ := h.oldNumber_add
  induction dependencies generalizing map marks with
  | nil => exact ⟨map, rfl, hrep⟩
  | cons d rest ih =>
    have hpos := hd.resolve_right nofun
    rw [markProducers, h.oldWindowContains hpos]
    by_cases hin : ws.oldNumber ≤ d ∧ d < ws.headNumber
    · obtain ⟨uop, huop, -⟩ := h.oldUop hin.1 hin.2
      have hwindow := h.window
      have hold := h.old
      have hclose : ws.m_next_sequence_number ≤ d + ws.m_double_window_size := by
        unfold m_double_window_size
        omega
      have hlatency : ws.latencyOf d = uop.execLatency := by rw [latencyOf, huop]
      rw [decide_eq_true hin, List.filter_cons_of_pos (by simpa using hin)]
      simp only [bind, Except.bind, ↓reduceIte, h.getInstruction (.inl hne) (by omega) hclose,
        WindowEntry.getDynMicroOp, huop]
      rw [← hlatency, hmark map marks d hrep hin.1 hin.2]
      exact ih (.inl hpos) (hrep.update h hin.1 hin.2 _)
    · rw [decide_eq_false hin, List.filter_cons_of_neg (by simpa using hin)]
      exact ih (.inl hpos) hrep

theorem Ring.resolve_sweep (h : Ring ws) (hne : 0 < ws.m_window_length) (holder : OnlyOlder ws) {n}
    (hn : n ≤ ws.m_old_window_length) {index}
    (hindex : 0 < n → index = ws.slotOf (ws.oldNumber + n - 1)) {map marks}
    (hrep : Represents ws map marks) (best : Nat) :
    ∃ map', ws.resolve n index map best =
        .ok ((sweep ws.edges ws.latencyOf cutMark ws.oldNumber n marks best).1, map') ∧
      Represents ws map' (sweep ws.edges ws.latencyOf cutMark ws.oldNumber n marks best).2 := by
  obtain ⟨hhead, hlast⟩ := h.oldNumber_add
  induction n generalizing index map marks best with
  | zero => exact ⟨map, rfl, hrep⟩
  | succ n ih =>
    have hslot : index = ws.slotOf (ws.oldNumber + n) := hindex (Nat.succ_pos n)
    have hnext : 0 < n → ws.windowIndex (index - 1) = ws.slotOf (ws.oldNumber + n - 1) := by
      intro hpos
      rw [hslot]
      exact windowIndex_pred (by omega)
    have hmark : map index = marks (ws.oldNumber + n) := by
      rw [hslot]
      exact hrep.mark _ (by omega) (by omega)
    rw [resolve, sweep, hmark]
    split
    case isFalse => exact ih (by omega) hnext hrep best
    case isTrue =>
      obtain ⟨uop, huop, -⟩ := h.oldUop (s := ws.oldNumber + n) (by omega) (by omega)
      have hedges : ws.edges (ws.oldNumber + n) = ws.oldProducers uop := by rw [edges, huop]
      have hd : 0 < ws.headNumber ∨ uop.getDependencies = [] := .inl (by omega)
      obtain ⟨map', hmap', hrep'⟩ := h.markProducers_represents hne
        (fun execLatency marks i => max (cutMark (execLatency + marks index)) (marks i))
        (fun d marks => max (cutMark (ws.latencyOf d + marks (ws.oldNumber + n))) (marks d))
        (fun map marks d hrep hlow hhigh => by
          rw [hslot, hrep.mark _ (by omega) (by omega), hrep.mark d hlow hhigh])
        hd hrep
      -- the mark of the micro-op itself is not changed
      have hself : ws.oldNumber + n ∉ ws.edges (ws.oldNumber + n) := fun hmem =>
        Nat.lt_irrefl _ (h.edges_older holder (by omega) (by omega) _ hmem).2
      have hsame : map' index = marks (ws.oldNumber + n) := by
        have hrelax : relax ws.latencyOf cutMark _ (ws.edges (ws.oldNumber + n)) marks _ = _ :=
          relax_eq hself marks (ws.oldNumber + n)
        rw [hslot, hrep'.mark _ (by omega) (by omega)]
        rw [if_neg hself, hedges] at hrelax
        exact hrelax
      have hget : (ws.getInstructionByIndex index).getDynMicroOp = .ok uop := by
        rw [hslot, getInstructionByIndex, WindowEntry.getDynMicroOp, huop]
      simp only [bind, Except.bind, hget, hmap', hsame]
      have hreset := hrep'.update h (d := ws.oldNumber + n) (by omega) (by omega) 0
      rw [← hslot] at hreset
      rw [hedges]
      exact ih (by omega) hnext hreset _

/-! ### The whole call -/

/-- What the sweep finds for a branch. -/
def swept (ws : Windows Reg C) (branch : IntervalUop Reg) : Nat :=
  (sweep ws.edges ws.latencyOf cutMark ws.oldNumber ws.m_old_window_length
    (start ws.latencyOf cutMark (ws.oldProducers branch)) 0).1

theorem ahead_start (branch : IntervalUop Reg) (hhead : ws.oldNumber + ws.m_old_window_length =
    ws.headNumber) : Ahead ws.oldNumber ws.m_old_window_length
      (start ws.latencyOf cutMark (ws.oldProducers branch)) := by
  intro s hs
  rw [start_eq] at hs
  by_cases hmem : s ∈ ws.oldProducers branch
  · have := (mem_oldProducers.mp hmem).2
    omega
  · rw [if_neg hmem] at hs
    exact absurd rfl hs

theorem Ring.calculateBranchResolutionLatency_swept (h : Ring ws) (hne : 0 < ws.m_window_length)
    (holder : OnlyOlder ws) (hclean : ∀ i, ws.m_exec_time_map i = 0) {branch}
    (hbranch : ws.getInstructionToDispatch.uop = some branch) :
    ∃ m_exec_time_map, ws.calculateBranchResolutionLatency =
        .ok (Int.bmod (ws.swept branch) (2 ^ 32),
          { ws with m_exec_time_map := m_exec_time_map }) ∧
      ∀ i, m_exec_time_map i = 0 := by
  obtain ⟨hhead, hlast⟩ := h.oldNumber_add
  have hedges : ∀ s, ws.oldNumber ≤ s → s < ws.oldNumber + ws.m_old_window_length →
      ∀ d ∈ ws.edges s, ws.oldNumber ≤ d ∧ d < s :=
    fun s hlow hhigh => h.edges_older holder hlow (by omega)
  -- the first micro-op of all has no dependencies
  have hd : 0 < ws.headNumber ∨ branch.getDependencies = [] := by
    by_cases hpos : 0 < ws.headNumber
    · exact .inl hpos
    · refine .inr (List.eq_nil_iff_forall_not_mem.mpr fun d hmem => ?_)
      have hnumber := h.numberAt_head hne
      rw [numberAt, h.head] at hnumber
      rw [getInstructionToDispatch, getInstructionByIndex, h.head] at hbranch
      rw [hbranch] at hnumber
      have hseq : branch.sequenceNumber = ws.headNumber := Option.some.inj hnumber
      have hlt := holder _ (Nat.mod_lt _ h.double_pos) branch hbranch d hmem
      omega
  have hzero : Represents ws ws.m_exec_time_map fun _ => 0 :=
    ⟨fun s _ _ => hclean _, fun i hi => absurd (hclean i) hi⟩
  obtain ⟨map, hmap, hrep⟩ := h.markProducers_represents hne
    (fun execLatency _ _ => cutMark execLatency) (fun d _ => cutMark (ws.latencyOf d))
    (fun _ _ _ _ _ _ => rfl) hd hzero
  have hfirst : 0 < ws.m_old_window_length →
      ws.windowIndex (ws.m_window_head__old_window_tail - 1) =
        ws.slotOf (ws.oldNumber + ws.m_old_window_length - 1) := by
    intro hpos
    rw [hhead, h.head]
    exact windowIndex_pred (by omega)
  obtain ⟨map', hresolve, hrep'⟩ := h.resolve_sweep hne holder (Nat.le_refl _) hfirst hrep 0
  have hswept := sweep_clean ws.latencyOf cutMark 0 (ahead_start branch hhead) hedges
  refine ⟨map', ?_, fun i => ?_⟩
  · have hget : ws.getInstructionToDispatch.getDynMicroOp = .ok branch := by
      rw [WindowEntry.getDynMicroOp, hbranch]
    rw [calculateBranchResolutionLatency, hget]
    simp only [bind, Except.bind, hmap, hresolve]
    rfl
  · by_contra hi
    obtain ⟨s, hlow, hhigh, hs⟩ := hrep'.clean i hi
    have hmark := hrep'.mark s hlow hhigh
    rw [hs] at hmark
    exact hi (hmark.trans (congrFun hswept s))

theorem cutMark_of_lt {latency : Nat} (h : latency < 2 ^ 31) : cutMark latency = latency :=
  Nat.mod_eq_of_lt (by omega)

theorem bmod_of_lt {latency : Nat} (h : latency < 2 ^ 31) : Int.bmod latency (2 ^ 32) = latency :=
  Int.bmod_eq_of_le_mul_two (by omega) (by omega)

/-- No mark is cut where no chain is that long. -/
theorem Ring.swept_seen (h : Ring ws) (holder : OnlyOlder ws) (branch : IntervalUop Reg)
    (hbound : ∀ path, Path ws.edges (ws.oldProducers branch) path →
      pathSum ws.latencyOf path < 2 ^ 31) :
    IsGreatest {t | ∃ path, Path ws.edges (ws.oldProducers branch) path ∧
      Seen ws.latencyOf path ∧ pathSum ws.latencyOf path = t} (ws.swept branch) := by
  obtain ⟨hhead, -⟩ := h.oldNumber_add
  have hedges : ∀ s, ws.oldNumber ≤ s → s < ws.oldNumber + ws.m_old_window_length →
      ∀ d ∈ ws.edges s, ws.oldNumber ≤ d ∧ d < s :=
    fun s hlow hhigh => h.edges_older holder hlow (by omega)
  have hfirst : ∀ d ∈ ws.oldProducers branch, cutMark (ws.latencyOf d) = ws.latencyOf d :=
    fun d hd => cutMark_of_lt (hbound [d] (.cons hd (.nil _)))
  have hstart := reachable_start ws.edges hfirst
  rw [← hstart]
  refine sweep_greatest 0 (ahead_start branch hhead) hedges fun t ht => ?_
  rw [hstart] at ht
  obtain ⟨path, hpath, -, rfl⟩ := ht
  exact cutMark_of_lt (hbound path hpath)

/-! ### Over runs -/

/-- A call on the windows. The map is changed by the resolution of a branch only, and a micro-op
never depends on a younger one. -/
inductive Call [DecidableEq Reg] (decoder : Decoder Reg) (contention : IntervalContention Reg C) :
    Windows Reg C → Windows Reg C → Prop
  | move {ws ws' : Windows Reg C} (h : Move decoder contention ws ws')
      (hmap : ws'.m_exec_time_map = ws.m_exec_time_map) (holder : OnlyOlder ws') :
      Call decoder contention ws ws'
  | resolve {ws ws' : Windows Reg C} {latency : Int} (hne : 0 < ws.m_window_length)
      (h : ws.calculateBranchResolutionLatency = .ok (latency, ws')) :
      Call decoder contention ws ws'

/-- What every call keeps. -/
structure Resolvable (ws : Windows Reg C) : Prop where
  ring : Ring ws
  older : OnlyOlder ws
  clean : ∀ i, ws.m_exec_time_map i = 0

theorem Resolvable.call [DecidableEq Reg] {decoder contention} (h : Resolvable ws)
    (hcall : Call decoder contention ws ws') : Resolvable ws' := by
  cases hcall with
  | move hmove hmap holder => exact ⟨h.ring.move hmove, holder, fun i => hmap ▸ h.clean i⟩
  | resolve hne hresolve =>
    obtain ⟨branch, hbranch, -⟩ := h.ring.numberAt_headSlot hne
    obtain ⟨map, heq, hclean⟩ :=
      h.ring.calculateBranchResolutionLatency_swept hne h.older h.clean hbranch
    rw [heq] at hresolve
    obtain ⟨-, rfl⟩ := Prod.mk.inj (Except.ok.inj hresolve)
    have hmove : Move decoder contention ws _ := .times map
    exact ⟨h.ring.move hmove, h.older, hclean⟩

theorem calls_resolvable [DecidableEq Reg] {decoder contention c w} (hw : 0 < w)
    (h : ReflTransGen (Call decoder contention) (.new w contention c) ws) : Resolvable ws := by
  induction h with
  | refl => exact ⟨ring_new contention c hw, fun _ _ _ huop => (nomatch huop), fun _ => rfl⟩
  | tail _ hcall ih => exact ih.call hcall

/-- The latency is that of the longest chain of dependencies just if no chain sums up to `2 ^ 31`
or more and no chain that starts at a producer without a latency is longer than those that start
at one with a latency. -/
theorem calculateBranchResolutionLatency_longest_iff [DecidableEq Reg] {decoder : Decoder Reg}
    {contention : IntervalContention Reg C} {c : C} {w : Nat} (hw : 0 < w)
    (h : ReflTransGen (Call decoder contention) (.new w contention c) ws)
    (hne : 0 < ws.m_window_length) {branch : IntervalUop Reg}
    (hbranch : ws.getInstructionToDispatch.uop = some branch) :
    (∃ (latency : Nat) (ws' : Windows Reg C),
      ws.calculateBranchResolutionLatency = .ok (latency, ws') ∧
      IsGreatest (lengths ws.edges ws.latencyOf (ws.oldProducers branch)) latency ∧
      ∀ i, ws'.m_exec_time_map i = 0) ↔
    ∀ path, Path ws.edges (ws.oldProducers branch) path → pathSum ws.latencyOf path < 2 ^ 31 ∧
      ∃ path', Path ws.edges (ws.oldProducers branch) path' ∧ Seen ws.latencyOf path' ∧
        pathSum ws.latencyOf path ≤ pathSum ws.latencyOf path' := by
  have hres := calls_resolvable hw h
  obtain ⟨map, heq, hclean⟩ :=
    hres.ring.calculateBranchResolutionLatency_swept hne hres.older hres.clean hbranch
  -- where no chain is that long, the sweep's answer is returned as it is
  have hsame (hbound : ∀ path, Path ws.edges (ws.oldProducers branch) path →
      pathSum ws.latencyOf path < 2 ^ 31) : Int.bmod (ws.swept branch) (2 ^ 32) =
        ws.swept branch := by
    obtain ⟨⟨path, hpath, -, hsum⟩, -⟩ := hres.ring.swept_seen hres.older branch hbound
    exact bmod_of_lt (hsum ▸ hbound path hpath)
  constructor
  · rintro ⟨latency, ws', heq', hgreatest, -⟩
    rw [heq] at heq'
    have hlatency : Int.bmod (ws.swept branch) (2 ^ 32) = latency :=
      (Prod.mk.inj (Except.ok.inj heq')).1
    -- an `int` is below `2 ^ 31`, and so is every chain that is no longer
    have hint : (latency : Int) < 2 ^ 31 :=
      hlatency ▸ (Int.bmod_lt (by decide)).trans_le (by norm_num)
    have hbound : ∀ path, Path ws.edges (ws.oldProducers branch) path →
        pathSum ws.latencyOf path < 2 ^ 31 := by
      intro path hpath
      exact (hgreatest.2 ⟨path, hpath, rfl⟩).trans_lt (by exact_mod_cast hint)
    have hswept : ws.swept branch = latency := by
      rw [hsame hbound] at hlatency
      exact Int.ofNat.inj hlatency
    have hseen := hres.ring.swept_seen hres.older branch hbound
    rw [hswept] at hseen
    exact fun path hpath =>
      ⟨hbound path hpath, (isGreatest_lengths_iff hseen).mp hgreatest path hpath⟩
  · intro hall
    have hbound := fun path hpath => (hall path hpath).1
    have hseen := hres.ring.swept_seen hres.older branch hbound
    rw [hsame hbound] at heq
    exact ⟨_, _, heq, (isGreatest_lengths_iff hseen).mpr fun path hpath => (hall path hpath).2,
      hclean⟩

/-! ### A producer without a latency -/

namespace Hidden
open IntervalTimer

/-- A micro-op that reads and writes registers. -/
def uop (reads writes : List Nat) (execLatency : Nat) : IntervalUop Nat :=
  { sample.uop execLatency with m_uop := ⟨.execute, reads, [], writes, false, false, false⟩ }

/-- What a call makes of the windows. -/
def after (x : Except Halt (Windows Nat Unit)) : Windows Nat Unit :=
  match x with
  | .ok ws => ws
  | .error _ => .new 4 sample.contention ()

/-- A micro-op is added. -/
def push (ws : Windows Nat Unit) (uop : IntervalUop Nat) : Windows Nat Unit :=
  after (ws.add sample.decoder uop)

/-- A micro-op is added and dispatched. -/
def pass (ws : Windows Nat Unit) (uop : IntervalUop Nat) : Windows Nat Unit :=
  after ((push ws uop).dispatchInstruction sample.contention)

/-- The producer of the branch with its latency, after the producer of that one. -/
def producers (execLatency : Nat) : Windows Nat Unit :=
  pass (pass (.new 4 sample.contention ()) (uop [] [1] 5)) (uop [1] [2] execLatency)

/-- The branch is at the head. -/
def windows (execLatency : Nat) : Windows Nat Unit := push (producers execLatency) (uop [2] [] 1)

def branch : IntervalUop Nat := { uop [2] [] 1 with sequenceNumber := 2, dependencies := [1] }

/-- The calls that lead to windows. -/
abbrev Reached (ws : Windows Nat Unit) : Prop :=
  ReflTransGen (Call sample.decoder sample.contention) (.new 4 sample.contention ()) ws

theorem Reached.push {ws} (h : Reached ws) (uop : IntervalUop Nat)
    (hadd : ws.add sample.decoder uop = .ok (push ws uop))
    (hmap : (push ws uop).m_exec_time_map = ws.m_exec_time_map) (holder : OnlyOlder (push ws uop)) :
    Reached (push ws uop) :=
  h.tail (.move (.add uop hadd) hmap holder)

theorem Reached.pass {ws uop} (h : Reached (Hidden.push ws uop))
    (hne : (Hidden.push ws uop).m_window_length ≠ 0)
    (hdispatch : (Hidden.push ws uop).dispatchInstruction sample.contention = .ok (pass ws uop))
    (hmap : (pass ws uop).m_exec_time_map = (Hidden.push ws uop).m_exec_time_map)
    (holder : OnlyOlder (pass ws uop)) : Reached (pass ws uop) :=
  h.tail (.move (.dispatch hne hdispatch) hmap holder)

theorem windows_reached {execLatency}
    (h : execLatency = 0 ∨ execLatency = 1 ∨ execLatency = 2 ^ 31) : Reached (windows execLatency) := by
  rcases h with rfl | rfl | rfl
  all_goals
    refine .push (.pass (.push (.pass (.push .refl _ rfl rfl ?_) ?_ rfl rfl ?_) _ rfl rfl ?_) ?_
      rfl rfl ?_) _ rfl rfl ?_
    all_goals decide

/-- The chains from the producer of the branch. -/
theorem windows_path {execLatency path} (hsmall : execLatency < 2)
    (hpath : Path (windows execLatency).edges ((windows execLatency).oldProducers branch) path) :
    path = [] ∨ path = [1] ∨ path = [1, 0] := by
  have hedges : ∀ execLatency < 2, (windows execLatency).oldProducers branch = [1] ∧
      (windows execLatency).edges 1 = [0] ∧ (windows execLatency).edges 0 = [] := by decide
  obtain ⟨hfirst, hsecond, hlast⟩ := hedges execLatency hsmall
  rw [hfirst] at hpath
  rcases hpath with _ | ⟨hd, hrest⟩
  · exact .inl rfl
  · cases List.mem_singleton.mp hd
    rw [hsecond] at hrest
    rcases hrest with _ | ⟨hd, hrest⟩
    · exact .inr (.inl rfl)
    · cases List.mem_singleton.mp hd
      rw [hlast] at hrest
      rcases hrest with _ | ⟨hd, -⟩
      · exact .inr (.inr rfl)
      · cases hd

/-- With a latency of one, the chain is seen. -/
theorem calculateBranchResolutionLatency_longest_iff_seen :
    ∃ (latency : Nat) (ws' : Windows Nat Unit),
      (windows 1).calculateBranchResolutionLatency = .ok (latency, ws') ∧
      IsGreatest (lengths (windows 1).edges (windows 1).latencyOf
        ((windows 1).oldProducers branch)) latency ∧
      ∀ i, ws'.m_exec_time_map i = 0 := by
  have hbranch : (windows 1).getInstructionToDispatch.uop = some branch := rfl
  refine (calculateBranchResolutionLatency_longest_iff (by decide)
    (windows_reached (.inr (.inl rfl))) (by decide) hbranch).mpr fun path hpath => ?_
  have hsums : ∀ path ∈ [[], [1], [1, 0]], pathSum (windows 1).latencyOf path < 2 ^ 31 := by
    decide
  refine ⟨hsums path ?_, path, hpath, ?_, Nat.le_refl _⟩
  · rcases windows_path (by decide) hpath with rfl | rfl | rfl <;> decide
  · rcases windows_path (by decide) hpath with rfl | rfl | rfl
    · trivial
    all_goals
      show 0 < (windows 1).latencyOf 1
      decide

/-- The producer of the branch has no latency, and so the five cycles behind it are not seen. With
a latency of `2 ^ 31` the chain is seen, but the `int` is negative. -/
theorem hidden_chain : (Reached (windows (2 ^ 31)) ∧
      ((windows (2 ^ 31)).calculateBranchResolutionLatency).map (·.1) = .ok (5 - 2 ^ 31)) ∧
    Reached (windows 0) ∧ (windows 0).getInstructionToDispatch.uop = some branch ∧
    ¬ ∃ (latency : Nat) (ws' : Windows Nat Unit),
      (windows 0).calculateBranchResolutionLatency = .ok (latency, ws') ∧
      IsGreatest (lengths (windows 0).edges (windows 0).latencyOf
        ((windows 0).oldProducers branch)) latency ∧
      ∀ i, ws'.m_exec_time_map i = 0 := by
  refine ⟨⟨windows_reached (.inr (.inr rfl)), by decide⟩, windows_reached (.inl rfl), rfl, ?_⟩
  rintro ⟨latency, ws', heq, hgreatest, -⟩
  have hzero : ((windows 0).calculateBranchResolutionLatency).map (·.1) = .ok 0 := by decide
  rw [heq] at hzero
  cases hzero
  -- the chain to the producer of the producer
  have hpath : Path (windows 0).edges ((windows 0).oldProducers branch) [1, 0] :=
    .cons (by decide) (.cons (by decide) (.nil _))
  have hfive : 5 ≤ 0 := hgreatest.2 ⟨[1, 0], hpath, by decide⟩
  cases hfive

end Hidden

end Windows
end Sniper.Timing.Interval
