import Sniper.Timing.MemoryIssue

/-! # Accesses at fetch and at issue

The accesses that a timer makes for an instruction are those of its operands whose line no earlier
operand has touched, in the form that a micro-op can hold: it does not know whether the operand is
executed or the instruction atomic, its size has 16 bits, and the interval timer has cleared the
low bits of its address.
-/
namespace Sniper.Timing.MemoryIssue
open Tracing.Handlers (DecodedInst handleInstructionDetailed detailedLoop)
open Lib.Draining Lib.Simulation InstructionUop Function

variable {Reg σ : Type} {hierarchy : Hierarchy σ} {instruction : Instruction} {core core' : Core σ}

/-! ### One access -/

theorem Core.accessMemory_spec {now access latency hit_where}
    (h : core.accessMemory hierarchy now access = .ok (latency, hit_where, core')) :
    core'.accesses = core.accesses ++ [access] ∧ hit_where ≠ .UNKNOWN := by
  unfold Core.accessMemory at h
  dsimp only at h
  split at h
  · cases h
    exact ⟨rfl, nofun⟩
  · split at h
    · cases h
    · rename_i hknown
      cases h
      exact ⟨rfl, hknown⟩

namespace Instruction

/-- The access at fetch for an operand, if there is one. -/
def fetchAccess (instruction : Instruction) (info : DynamicMemoryInfo) : Option Access :=
  if info.executed ∧ info.hit_where = .UNKNOWN then some (instruction.operandAccess info) else none

theorem accessMemory_accesses {infos infos'}
    (h : instruction.accessMemory hierarchy infos core = .ok (infos', core')) :
    core'.accesses = core.accesses ++ infos.filterMap instruction.fetchAccess := by
  induction infos generalizing core core' infos' with
  | nil =>
    cases h
    exact (List.append_nil _).symm
  | cons info rest ih =>
    rw [accessMemory] at h
    by_cases hperform : info.executed ∧ info.hit_where = .UNKNOWN
    · rw [if_pos hperform] at h
      obtain ⟨⟨latency, hit_where, core₁⟩, haccess, h⟩ := of_bind_ok h
      obtain ⟨⟨rest', core₂⟩, hrest, h⟩ := of_bind_ok h
      cases h
      have hfetch : instruction.fetchAccess info = some (instruction.operandAccess info) :=
        if_pos hperform
      rw [List.filterMap_cons_some hfetch, ih hrest, (Core.accessMemory_spec haccess).1,
        List.append_assoc, List.singleton_append]
    · rw [if_neg hperform] at h
      obtain ⟨⟨rest', core₂⟩, hrest, h⟩ := of_bind_ok h
      cases h
      have hfetch : instruction.fetchAccess info = none := if_neg hperform
      rw [List.filterMap_cons_none hfetch, ih hrest]

/-- The access that a timer has to make for a micro-op. -/
def request (instruction : Instruction) (uop : InstructionUop Reg) : Option Access :=
  if (uop.m_uop.isLoad || uop.m_uop.isStore) && uop.dCacheHitWhere = .UNKNOWN then
    some (instruction.uopAccess uop)
  else none

theorem issueMemory_spec {now : Option Nat} {uop uop' : InstructionUop Reg}
    (h : instruction.issueMemory hierarchy now uop core = .ok (uop', core')) :
    core'.accesses = core.accesses ++ (instruction.request uop).toList ∧
      instruction.request uop' = none := by
  unfold issueMemory at h
  unfold request
  split at h
  case isTrue hpending =>
    obtain ⟨⟨latency, hit_where, core₁⟩, haccess, h⟩ := of_bind_ok h
    cases h
    obtain ⟨haccesses, hknown⟩ := Core.accessMemory_spec haccess
    rw [if_pos hpending]
    exact ⟨haccesses, if_neg (by simp [hknown])⟩
  case isFalse hdone =>
    cases h
    rw [if_neg hdone]
    exact ⟨(List.append_nil _).symm, rfl⟩

end Instruction

/-! ### The timer's order -/

theorem Timer.issueOne_spec {timer : Timer} {now : Nat} {uop uop' : InstructionUop Reg}
    (h : timer.issueOne hierarchy instruction now uop core = .ok (uop', core')) :
    core'.accesses = core.accesses ++ (instruction.request uop).toList ∧
      instruction.request uop' = none := by
  cases timer with
  | rob | interval mask => exact Instruction.issueMemory_spec h

theorem Timer.issue_drains {timer : Timer} {order : List (Nat × Nat)}
    {entries entries' : List (InstructionUop Reg)}
    (h : timer.issue hierarchy instruction order entries core = .ok (entries', core')) :
    core'.accesses = core.accesses ++
      drain (entries.map instruction.request) (order.map Prod.fst) := by
  induction order generalizing entries core with
  | nil =>
    cases h
    exact (List.append_nil _).symm
  | cons visit order ih =>
    rw [Timer.issue] at h
    split at h
    case h_1 => cases h
    case h_2 uop huop =>
      obtain ⟨⟨uop', core₁⟩, hone, h⟩ := of_bind_ok h
      obtain ⟨haccesses, hdone⟩ := issueOne_spec hone
      rw [ih h, haccesses, List.map_set, hdone, List.map_cons, drain, List.getElem?_map, huop,
        List.append_assoc]
      rfl

theorem Timer.issue_perm {timer : Timer} {order : List (Nat × Nat)}
    {entries entries' : List (InstructionUop Reg)}
    (hall : ∀ i < entries.length, i ∈ order.map Prod.fst)
    (h : timer.issue hierarchy instruction order entries core = .ok (entries', core')) :
    ∃ accesses, core'.accesses = core.accesses ++ accesses ∧
      accesses.Perm (entries.filterMap instruction.request) := by
  refine ⟨_, issue_drains h, ?_⟩
  have hperm : (drain (entries.map instruction.request) (order.map Prod.fst)).Perm
      (entries.map instruction.request).reduceOption :=
    drain_perm fun i hi => hall i (List.length_map instruction.request ▸ hi)
  rwa [List.reduceOption, List.filterMap_map] at hperm

/-! ### The operands that keep a micro-op -/

/-- The operands whose line no earlier operand of their direction has touched; `lines` are those
touched before. The micro-ops of the others are squashed. -/
def untouched : (Direction → List Nat) → List DynamicMemoryInfo → List DynamicMemoryInfo
  | _, [] => []
  | lines, info :: rest =>
    let line := Operands.cacheLine info.addr
    let rest := untouched (update lines info.dir (lines info.dir ++ [line])) rest
    if line ∈ lines info.dir then rest else info :: rest

/-- The access that a micro-op makes with what it has of its operand. -/
def issueAccess (instruction : Instruction) (info : DynamicMemoryInfo) : Option Access :=
  if info.hit_where = .UNKNOWN then
    some ⟨if info.dir = .READ then .READ else .WRITE, info.addr, info.size % 2 ^ 16,
      instruction.address⟩
  else none

/-- What a micro-op that is not squashed asks for, once its operand is done. -/
def recorded (instruction : Instruction) (num_done : Direction → Nat)
    (uop : InstructionUop Reg) : Option Access :=
  let done (direction : Direction) := uop.decodedOffset < num_done direction
  match uop.m_uop.uop_type with
  | .load => if done .READ ∧ uop.squashed = false then instruction.request uop else none
  | .execute => none
  | .store => if done .WRITE ∧ uop.squashed = false then instruction.request uop else none

theorem recorded_of_type {num_done} {uop : InstructionUop Reg} {d}
    (h : uop.m_uop.uop_type = Operands.uopType d) : recorded instruction num_done uop =
      if uop.decodedOffset < num_done d ∧ uop.squashed = false then instruction.request uop
      else none := by
  cases d with
  | READ | WRITE => rw [recorded, h]; rfl

/-- What an access reads of a micro-op. -/
def carried (uop : InstructionUop Reg) : MicroOp Reg × Nat × Bool × Nat × HitWhere :=
  (uop.m_uop, uop.decodedOffset, uop.squashed, uop.address, uop.dCacheHitWhere)

theorem request_congr {uop uop' : InstructionUop Reg} (h : carried uop' = carried uop) :
    instruction.request uop' = instruction.request uop := by
  simp only [carried, Prod.mk.injEq] at h
  obtain ⟨huop, hoffset, -, haddress, hhit⟩ := h
  simp only [Instruction.request, Instruction.uopAccess, Instruction.getMemoryAccessSize, huop,
    hoffset, haddress, hhit]

theorem recorded_congr {num_done num_done'} {uop uop' : InstructionUop Reg}
    (hcarried : carried uop' = carried uop) (h : ∀ d, uop.m_uop.uop_type = Operands.uopType d →
      (uop.decodedOffset < num_done' d ↔ uop.decodedOffset < num_done d)) :
    recorded instruction num_done' uop' = recorded instruction num_done uop := by
  have hrequest : instruction.request uop' = instruction.request uop := request_congr hcarried
  simp only [carried, Prod.mk.injEq] at hcarried
  obtain ⟨huop, hoffset, hsquashed, -, -⟩ := hcarried
  simp only [recorded, huop, hoffset, hsquashed, hrequest]
  cases htype : uop.m_uop.uop_type with
  | load => simp only [h .READ htype]
  | execute => rfl
  | store => simp only [h .WRITE htype]

theorem request_accessed {bypassLatency} {uop : InstructionUop Reg} {info : DynamicMemoryInfo}
    (htype : uop.m_uop.uop_type = Operands.uopType info.dir)
    (hsize : (instruction.memopSizes info.dir)[uop.decodedOffset]? = some (info.size % 2 ^ 16)) :
    instruction.request (Operands.accessed bypassLatency info.toMemoryInfo uop) =
      issueAccess instruction info := by
  have hsizes : instruction.getMemoryAccessSize uop = info.size % 2 ^ 16 := by
    cases hdir : info.dir with
    | READ | WRITE =>
      rw [hdir] at htype hsize
      rw [Instruction.getMemoryAccessSize, htype]
      exact congrArg (·.getD 0) hsize
  have hmemory : (uop.m_uop.isLoad || uop.m_uop.isStore) = true := by
    cases hdir : info.dir <;> simp [MicroOp.isLoad, MicroOp.isStore, htype, hdir, Operands.uopType]
  have hload : uop.m_uop.isLoad = decide (info.dir = .READ) := by
    cases hdir : info.dir <;> simp [MicroOp.isLoad, htype, hdir, Operands.uopType]
  have haccess : instruction.uopAccess (Operands.accessed bypassLatency info.toMemoryInfo uop) =
      ⟨if info.dir = .READ then .READ else .WRITE, info.addr, info.size % 2 ^ 16,
        instruction.address⟩ := by
    rw [← hsizes]
    by_cases hdir : info.dir = .READ
    · simp only [Instruction.uopAccess, Operands.accessed, hload, hdir, decide_true, if_true]
      rfl
    · simp only [Instruction.uopAccess, Operands.accessed, hload, hdir, decide_false, if_false,
        Bool.false_eq_true]
      rfl
  rw [Instruction.request, haccess, issueAccess]
  refine if_congr ?_ rfl rfl
  simp only [Operands.accessed, hmemory, Bool.true_and]
  exact decide_eq_true_iff

/-! ### The loop over the operands -/

section Loop
variable {m : Mix} {s s' : Operands Reg} {bypassLatency : InstructionUop Reg → Nat}
  {base : Direction → Option Nat} {info : DynamicMemoryInfo}

theorem index_of_type {i d} (h : m.typeAt i = Operands.uopType d) :
    i = m.base d + m.offsetAt i := by
  unfold Mix.typeAt at h
  unfold Mix.offsetAt
  cases d with
  | READ =>
    simp only [Mix.base, Nat.zero_add]
    split at h
    case isTrue hload => rw [if_pos hload]
    case isFalse => split at h <;> cases h
  | WRITE =>
    simp only [Mix.base]
    split at h
    case isTrue => cases h
    case isFalse hload =>
      split at h
      case isTrue => cases h
      case isFalse hexecute =>
        rw [if_neg hload, if_neg hexecute]
        omega

theorem uopType_inj {d d'} (h : Operands.uopType d = Operands.uopType d') : d = d' := by
  cases d <;> cases d' <;> first | rfl | cases h

/-- The micro-ops that wait for their operand are not squashed. -/
def Todo (s : Operands Reg) : Prop :=
  ∀ (i : Nat) uop, s.m_current_uops[i]? = some uop → ∀ d,
    uop.m_uop.uop_type = Operands.uopType d → s.num_done d ≤ uop.decodedOffset →
      uop.squashed = false

/-- What the micro-ops ask for. -/
def asked (instruction : Instruction) (s : Operands Reg) : List (Option Access) :=
  s.m_current_uops.map (recorded instruction s.num_done)

theorem squashed_get {again : Prop} [Decidable again] {index j : Nat}
    {l : List (InstructionUop Reg)} {uop' : InstructionUop Reg}
    (h : (if again then squash index l else l)[j]? = some uop') : ∃ uop, l[j]? = some uop ∧
      carried uop' = carried { uop with
        squashed := uop.squashed || decide (again ∧ index = j) } := by
  split at h
  case isTrue hagain =>
    obtain ⟨uop, hget, heq, -⟩ := squash_get h
    refine ⟨uop, hget, ?_⟩
    rw [heq]
    simp only [carried, hagain, true_and]
  case isFalse hnot =>
    refine ⟨uop', h, ?_⟩
    simp only [carried, hnot, false_and, decide_false, Bool.or_false]

theorem access_asked (hm : Operands.Handled m s) (htodo : Todo s)
    (hroom : s.num_done info.dir < m.count info.dir)
    (hbase : base info.dir = some (m.base info.dir))
    (hsize : (instruction.memopSizes info.dir)[s.num_done info.dir]? = some (info.size % 2 ^ 16))
    (h : s.access bypassLatency base info.toMemoryInfo = .ok s') :
    (asked instruction s)[m.base info.dir + s.num_done info.dir]? = some none ∧
    asked instruction s' = (asked instruction s).set (m.base info.dir + s.num_done info.dir)
      (if Operands.cacheLine info.addr ∈ s.m_cache_lines info.dir then none
      else issueAccess instruction info) ∧
    Todo s' ∧ s'.num_done = update s.num_done info.dir (s.num_done info.dir + 1) ∧
    s'.m_cache_lines = update s.m_cache_lines info.dir
      (s.m_cache_lines info.dir ++ [Operands.cacheLine info.addr]) := by
  obtain ⟨hlt, htype, hoffset⟩ := m.access hroom
  have hlength : m.base info.dir + s.num_done info.dir < s.m_current_uops.length :=
    hm.shape.length ▸ hlt
  have hget := List.getElem?_eq_getElem hlength
  generalize s.m_current_uops[m.base info.dir + s.num_done info.dir] = own at hget
  obtain ⟨hown, hownOffset, -⟩ := hm.shape.decoded _ _ hget
  rw [htype] at hown
  rw [hoffset] at hownOffset
  unfold Operands.access at h
  rw [hbase] at h
  dsimp only at h
  rw [hget] at h
  dsimp only at h
  rw [if_pos hown] at h
  cases h
  have hlive : own.squashed = false := htodo _ _ hget _ hown (Nat.le_of_eq hownOffset.symm)
  have hnone : recorded instruction s.num_done own = none := by
    rw [recorded_of_type hown, hownOffset]
    exact if_neg fun h => Nat.lt_irrefl _ h.1
  -- the other micro-ops are those of before
  have hother : ∀ (j : Nat) uop, s.m_current_uops[j]? = some uop →
      m.base info.dir + s.num_done info.dir ≠ j → ∀ d, uop.m_uop.uop_type = Operands.uopType d →
      (uop.decodedOffset < update s.num_done info.dir (s.num_done info.dir + 1) d ↔
        uop.decodedOffset < s.num_done d) := by
    intro j uop huop hj d hd
    by_cases hdir : d = info.dir
    · subst hdir
      obtain ⟨htyped, hoffsetted, -⟩ := hm.shape.decoded j uop huop
      have hindex := index_of_type (htyped.symm.trans hd)
      rw [← hoffsetted] at hindex
      rw [update_self]
      omega
    · rw [update_of_ne hdir]
  have hmid : ∀ (j : Nat) uop', (if Operands.cacheLine info.addr ∈ s.m_cache_lines info.dir then
      squash (m.base info.dir + s.num_done info.dir) s.m_current_uops
      else s.m_current_uops)[j]? = some uop' → ∃ uop, s.m_current_uops[j]? = some uop ∧
        carried uop' = carried { uop with
          squashed := uop.squashed || decide (Operands.cacheLine info.addr ∈
            s.m_cache_lines info.dir ∧ m.base info.dir + s.num_done info.dir = j) } :=
    fun _ _ => squashed_get
  have hmidLength : (if Operands.cacheLine info.addr ∈ s.m_cache_lines info.dir then
      squash (m.base info.dir + s.num_done info.dir) s.m_current_uops
      else s.m_current_uops).length = s.m_current_uops.length := by
    split
    · exact squash_length _ _
    · rfl
  generalize (if Operands.cacheLine info.addr ∈ s.m_cache_lines info.dir then
    squash (m.base info.dir + s.num_done info.dir) s.m_current_uops else s.m_current_uops) = mid
    at hmid hmidLength ⊢
  refine ⟨by rw [asked, List.getElem?_map, hget, Option.map_some, hnone], ?_, ?_, rfl, rfl⟩
  · refine List.ext_getElem? fun j => ?_
    have hset : ∀ v, ((asked instruction s).set (m.base info.dir + s.num_done info.dir) v)[j]? =
        if m.base info.dir + s.num_done info.dir = j then (fun _ => v) <$> (asked instruction s)[j]?
        else (asked instruction s)[j]? := fun _ => List.getElem?_set'
    rw [hset, asked, asked, List.getElem?_map, List.getElem?_map, List.getElem?_modify]
    cases hj : mid[j]? with
    | none =>
      rw [List.getElem?_eq_none_iff.mpr (hmidLength ▸ List.getElem?_eq_none_iff.mp hj)]
      split <;> rfl
    | some uop' =>
      obtain ⟨uop, huop, hcarried⟩ := hmid j uop' hj
      rw [huop]
      by_cases hindex : m.base info.dir + s.num_done info.dir = j
      · subst hindex
        cases hget.symm.trans huop
        simp only [and_true, hlive, Bool.false_or] at hcarried
        simp only [carried, Prod.mk.injEq] at hcarried
        obtain ⟨huop', hoffset', hsquashed', -, -⟩ := hcarried
        have htype' : (Operands.accessed bypassLatency info.toMemoryInfo uop').m_uop.uop_type =
            Operands.uopType info.dir := (congrArg (·.uop_type) huop').trans hown
        have hrequest : instruction.request
            (Operands.accessed bypassLatency info.toMemoryInfo uop') =
            issueAccess instruction info := by
          refine request_accessed htype' ?_
          rw [hoffset', hownOffset]
          exact hsize
        simp only [if_true, Option.map_eq_map, Option.map_some, Option.some.injEq]
        rw [recorded_of_type htype', hrequest]
        simp only [Operands.accessed, hoffset', hownOffset, update_self,
          Nat.lt_succ_self, hsquashed', true_and, decide_eq_false_iff_not, ite_not]
      · simp only [hindex, and_false, decide_false, Bool.or_false] at hcarried
        simp only [if_neg hindex, Option.map_eq_map, Option.map_some, Option.some.injEq]
        exact recorded_congr hcarried (hother j uop huop hindex)
  · intro j uop₂ hj d hd hle
    dsimp only at hj hle
    obtain ⟨uop', hget', hcase⟩ := modify_get hj
    obtain ⟨uop, huop, hcarried⟩ := hmid j uop' hget'
    obtain ⟨huop₂, hoffset₂, hsquashed₂⟩ : uop₂.m_uop = uop'.m_uop ∧
        uop₂.decodedOffset = uop'.decodedOffset ∧ uop₂.squashed = uop'.squashed := by
      rcases hcase with rfl | rfl
      all_goals exact ⟨rfl, rfl, rfl⟩
    simp only [carried, Prod.mk.injEq] at hcarried
    obtain ⟨huop', hoffset', hsquashed', -, -⟩ := hcarried
    rw [huop₂, huop'] at hd
    rw [hoffset₂, hoffset'] at hle
    rw [hsquashed₂, hsquashed']
    by_cases hindex : m.base info.dir + s.num_done info.dir = j
    · -- it has its operand now
      subst hindex
      cases hget.symm.trans huop
      have hdir : d = info.dir := uopType_inj (hd.symm.trans hown)
      rw [hdir, hownOffset, update_self] at hle
      exact absurd hle (Nat.not_succ_le_self _)
    · have hle' : s.num_done d ≤ uop.decodedOffset := Nat.le_of_not_lt fun hlt =>
        Nat.not_lt.mpr hle ((hother j uop huop hindex d hd).mpr hlt)
      simp only [htodo j uop huop d hd hle', hindex, and_false, decide_false, Bool.or_false]

/-- The sizes of the operands to come are those of the micro-ops that wait for them. -/
def Sized (instruction : Instruction) (num_done : Direction → Nat)
    (infos : List DynamicMemoryInfo) : Prop :=
  ∀ d, (infos.filter (·.dir = d)).map (·.size % 2 ^ 16) =
    (instruction.memopSizes d).drop (num_done d)

theorem Sized.cons {num_done infos} (h : Sized instruction num_done (info :: infos)) :
    (instruction.memopSizes info.dir)[num_done info.dir]? = some (info.size % 2 ^ 16) ∧
      Sized instruction (update num_done info.dir (num_done info.dir + 1)) infos := by
  have hown := h info.dir
  have hself : decide (info.dir = info.dir) = true := decide_eq_true rfl
  rw [List.filter_cons, if_pos hself, List.map_cons] at hown
  refine ⟨?_, fun d => ?_⟩
  · have hhead := congrArg (·[0]?) hown
    simp only [List.getElem?_cons_zero, List.getElem?_drop, Nat.add_zero] at hhead
    exact hhead.symm
  · by_cases hd : d = info.dir
    · subst hd
      have htail := congrArg List.tail hown
      rw [List.tail_cons, List.tail_drop] at htail
      rw [update_self]
      exact htail
    · rw [update_of_ne hd, ← h d,
        List.filter_cons_of_neg (by simpa using Ne.symm hd)]

theorem Sized.count {infos} (h : Sized instruction (fun _ => 0) infos) (d : Direction) :
    (infos.map (·.dir)).count d = (instruction.memopSizes d).length := by
  have hlength := congrArg List.length (h d)
  rw [List.length_map, List.drop_zero, ← List.countP_eq_length_filter] at hlength
  rw [← hlength, List.count, List.countP_map]
  rfl

theorem handle_asked (hbase : ∀ direction, 0 < m.count direction →
      base direction = some (m.base direction)) {ops infos} (hm : Operands.Handled m s)
    (htodo : Todo s) (hsized : Sized instruction s.num_done infos)
    (hcount : ∀ d, (instruction.memopSizes d).length = m.count d)
    (hops : ops.filterMap Operand.direction = infos.map (·.dir))
    (h : Operands.handle bypassLatency base ops (infos.map (·.toMemoryInfo)) s = .ok s') :
    (asked instruction s').reduceOption.Perm ((asked instruction s).reduceOption ++
      (untouched s.m_cache_lines infos).filterMap (issueAccess instruction)) := by
  induction ops generalizing s infos with
  | nil =>
    obtain rfl : infos = [] := List.map_eq_nil_iff.mp hops.symm
    cases h
    rw [untouched, List.filterMap_nil, List.append_nil]
  | cons op ops ih =>
    cases op with
    | other => exact ih hm htodo hsized hops h
    | memory m_direction =>
      cases infos with
      | nil => cases hops
      | cons info infos =>
        obtain ⟨hdir, hops⟩ := List.cons.inj hops
        obtain ⟨hsize, hsized'⟩ := hsized.cons
        have hroom : s.num_done info.dir < m.count info.dir :=
          hcount info.dir ▸ (List.getElem?_eq_some_iff.mp hsize).1
        rw [List.map_cons, Operands.handle, if_pos hdir.symm] at h
        obtain ⟨s₁, haccess, h⟩ := of_bind_ok h
        have hbaseDir := hbase info.dir (Nat.zero_lt_of_lt hroom)
        obtain ⟨s₂, haccess', hm', -⟩ := hm.access bypassLatency hroom hbaseDir
        cases haccess.symm.trans haccess'
        obtain ⟨hnone, hasked, htodo', hdone, hlines⟩ :=
          access_asked hm htodo hroom hbaseDir hsize haccess
        have hrest := ih hm' htodo' (hdone ▸ hsized') hops h
        rw [hasked, hlines] at hrest
        refine hrest.trans ?_
        have hstep := reduceOption_set_perm hnone
          (if Operands.cacheLine info.addr ∈ s.m_cache_lines info.dir then none
          else issueAccess instruction info)
        refine (hstep.append_right _).trans ?_
        rw [untouched]
        split
        case isTrue => exact List.Perm.refl _
        case isFalse =>
          cases hissue : issueAccess instruction info with
          | none => rw [List.filterMap_cons_none hissue]; exact List.Perm.refl _
          | some access =>
            rw [List.filterMap_cons_some hissue]
            exact List.perm_middle.symm

end Loop

/-! ### The whole instruction -/

theorem countSquashed_carried (uop_type : Option UopType) (squashedCount offset : Nat)
    (l : List (InstructionUop Reg)) :
    (countSquashed uop_type squashedCount offset l).map carried = l.map carried := by
  induction l generalizing uop_type squashedCount offset with
  | nil => rfl
  | cons uop rest ih =>
    rw [countSquashed]
    split
    all_goals
      rw [List.map_cons, List.map_cons, ih]
      rfl

theorem correct_carried {current_uops : List (InstructionUop Reg)} {i : Nat}
    {uop uop' : InstructionUop Reg} (h : correct current_uops i uop = .ok uop') :
    carried uop' = carried uop := by
  unfold correct at h
  dsimp only at h
  split at h
  · cases h
    rfl
  · split at h
    · split at h
      · cases h
        rfl
      · cases h
    · cases h

theorem correctFrom_carried {current_uops rest rest' : List (InstructionUop Reg)} {i : Nat}
    (h : correctFrom current_uops 0 i rest = .ok rest') : rest'.map carried = rest.map carried := by
  induction rest generalizing i rest' with
  | nil =>
    cases h
    rfl
  | cons uop rest ih =>
    obtain ⟨uop', hcorrect, h⟩ := of_bind_ok h
    obtain ⟨rest₁, hrest, h⟩ := of_bind_ok h
    cases h
    rw [List.map_cons, List.map_cons, correct_carried hcorrect, ih hrest]

theorem doSquashing_carried {l l' : List (InstructionUop Reg)} (h : doSquashing l 0 = .ok l') :
    l'.map carried = l.map carried :=
  (correctFrom_carried h).trans (countSquashed_carried none 0 0 l)

/-- What a micro-op asks of the timer. -/
def living (instruction : Instruction) (uop : InstructionUop Reg) : Option Access :=
  if uop.squashed then none else instruction.request uop

theorem living_congr {l l' : List (InstructionUop Reg)} (h : l'.map carried = l.map carried) :
    l'.filterMap (living instruction) = l.filterMap (living instruction) := by
  have hfactor : ∀ uop uop' : InstructionUop Reg, carried uop' = carried uop →
      living instruction uop' = living instruction uop := by
    intro uop uop' hcarried
    have hsquashed : uop'.squashed = uop.squashed := congrArg (·.2.2.1) hcarried
    rw [living, living, hsquashed, request_congr hcarried]
  induction l generalizing l' with
  | nil => rw [List.map_eq_nil_iff.mp h]
  | cons uop rest ih =>
    cases l' with
    | nil => cases h
    | cons uop' rest' =>
      obtain ⟨huop, hrest⟩ := List.cons.inj h
      rw [List.filterMap_cons, List.filterMap_cons, hfactor uop uop' huop, ih hrest]

theorem asked_all {m : Mix} {s : Operands Reg} (hm : Operands.Handled m s)
    (hall : ∀ d, s.num_done d = m.count d) :
    (asked instruction s).reduceOption = s.m_current_uops.filterMap (living instruction) := by
  rw [asked, List.reduceOption, List.filterMap_map]
  refine List.filterMap_congr fun uop hmem => ?_
  obtain ⟨i, hi⟩ := List.mem_iff_getElem?.mp hmem
  obtain ⟨htype, hoffset, -⟩ := hm.shape.decoded i uop hi
  have hlt : i < m.total := hm.shape.length ▸ (List.getElem?_eq_some_iff.mp hi).1
  have hdone : ∀ d, uop.m_uop.uop_type = Operands.uopType d → uop.decodedOffset < s.num_done d := by
    intro d hd
    have hindex := index_of_type (htype.symm.trans hd)
    rw [hoffset, hall]
    cases d with
    | READ =>
      have hload := htype.symm.trans hd
      unfold Mix.typeAt at hload
      split at hload
      case isTrue h => simp only [Mix.base, Mix.count] at hindex ⊢; omega
      case isFalse => split at hload <;> cases hload
    | WRITE =>
      simp only [Mix.base, Mix.count, Mix.total] at hindex hlt ⊢
      omega
  have hcases : ∀ d, uop.m_uop.uop_type = Operands.uopType d →
      recorded instruction s.num_done uop = living instruction uop := by
    intro d hd
    rw [recorded_of_type hd, living]
    simp only [hdone d hd, true_and]
    cases uop.squashed <;> rfl
  show recorded instruction s.num_done uop = living instruction uop
  cases hu : uop.m_uop.uop_type with
  | load => exact hcases .READ hu
  | execute =>
    have hrequest : instruction.request uop = none := by
      rw [Instruction.request, MicroOp.isLoad, MicroOp.isStore, hu]
      rfl
    have hnone : recorded instruction s.num_done uop = none := by rw [recorded, hu]
    rw [hnone, living, hrequest, ite_self]
  | store => exact hcases .WRITE hu

theorem handleInstruction_living {getInstructionLatency bypassLatency uops} {m : Mix} {icache}
    {infos : List DynamicMemoryInfo} {current_uops : List (InstructionUop Reg)}
    (hsized : Sized instruction (fun _ => 0) infos)
    (hcount : ∀ d, (instruction.memopSizes d).length = m.count d)
    (hops : instruction.getOperands.filterMap Operand.direction = infos.map (·.dir))
    (h : handleInstruction getInstructionLatency bypassLatency
      (DecodedUop.generate uops m.numLoads m.numExecs m.numStores) icache instruction.getOperands
      (infos.map (·.toMemoryInfo)) = .ok current_uops) :
    (current_uops.filterMap (living instruction)).Perm
      ((untouched (fun _ => []) infos).filterMap (issueAccess instruction)) := by
  obtain ⟨hshape, hends, hplain⟩ := created_shape getInstructionLatency uops m
  unfold handleInstruction at h
  generalize (DecodedUop.generate uops m.numLoads m.numExecs m.numStores).map
    (create getInstructionLatency) = l at hshape hends hplain h
  dsimp only at h
  obtain ⟨s, hs, h⟩ := of_bind_ok h
  obtain ⟨start, hstart, hs⟩ : ∃ start, Operands.Handled m
      ⟨start, fun _ => [], fun _ => 0, false⟩ ∧
      Operands.handle bypassLatency (Operands.baseIndex l) instruction.getOperands
        (infos.map (·.toMemoryInfo)) ⟨start, fun _ => [], fun _ => 0, false⟩ = .ok s :=
    ⟨_, fetched_handled hshape hends hplain icache, hs⟩
  obtain ⟨hcarried, hdone⟩ : current_uops.map carried = s.m_current_uops.map carried ∧
      (s.num_done .READ = l.countP (·.m_uop.uop_type = Operands.uopType .READ) ∧
        s.num_done .WRITE = l.countP (·.m_uop.uop_type = Operands.uopType .WRITE)) := by
    split at h
    · obtain ⟨squashed_uops, hsquash, h⟩ := of_bind_ok h
      split at h
      case isTrue hdone =>
        cases h
        exact ⟨doSquashing_carried hsquash, hdone⟩
      case isFalse => cases h
    · obtain ⟨squashed_uops, hsquash, h⟩ := of_bind_ok h
      cases hsquash
      split at h
      case isTrue hdone =>
        cases h
        exact ⟨rfl, hdone⟩
      case isFalse => cases h
  have hall : ∀ d, s.num_done d = m.count d := by
    intro d
    cases d with
    | READ => exact hdone.1.trans (countP_type hshape .READ)
    | WRITE => exact hdone.2.trans (countP_type hshape .WRITE)
  have hroom : ∀ d, (instruction.getOperands.filterMap Operand.direction).count d = m.count d := by
    intro d
    rw [hops, hsized.count, hcount]
  have htodo : Todo ⟨start, fun _ => [], fun _ => 0, false⟩ := fun _ uop hget _ _ _ =>
    hstart.plain rfl uop (List.mem_of_getElem? hget)
  obtain ⟨s₁, hs₁, hm, -⟩ := hstart.handle bypassLatency
    (fun _ hpos => Operands.baseIndex_eq hshape hpos)
    (by
      rw [List.map_map, hops]
      exact List.prefix_rfl)
    fun d => by
      rw [hroom]
      exact Nat.le_of_eq (Nat.zero_add _)
  cases hs.symm.trans hs₁
  have hperm := handle_asked (fun _ hpos => Operands.baseIndex_eq hshape hpos) hstart htodo hsized hcount
    hops hs
  have hnothing :
      (asked instruction ⟨start, fun _ => [], fun _ => 0, false⟩).reduceOption = [] := by
    refine List.filterMap_eq_nil_iff.mpr fun request hmem => ?_
    obtain ⟨uop, -, rfl⟩ := List.mem_map.mp hmem
    cases hu : uop.m_uop.uop_type <;> simp [recorded, hu]
  rw [hnothing, List.nil_append, asked_all hm hall] at hperm
  rwa [living_congr hcarried]

/-! ### The form of a late access -/

namespace Timer
variable (timer : Timer)

/-- An access in the form in which a timer can make it. -/
def form (access : Access) : Access where
  mem_op_type := if access.mem_op_type = .WRITE then .WRITE else .READ
  d_addr := timer.granule access.d_addr
  data_size := access.data_size % 2 ^ 16
  eip := access.eip

theorem granule_granule (address : Nat) :
    timer.granule (timer.granule address) = timer.granule address := by
  cases timer with
  | rob => rfl
  | interval mask =>
    show address &&& mask &&& mask = address &&& mask
    rw [Nat.and_assoc, Nat.and_self]

theorem form_form (access : Access) : timer.form (timer.form access) = timer.form access := by
  simp only [form, granule_granule, Nat.mod_mod]
  by_cases h : access.mem_op_type = .WRITE <;> simp [h]

/-- An operand that is not lost on its micro-op: it is executed, not a read of an atomic
instruction, its size fits, and its address is one of the granules. -/
def Carries (instruction : Instruction) (info : DynamicMemoryInfo) : Prop :=
  info.executed = true ∧ (info.dir = .READ → instruction.isAtomic = false) ∧
    info.size < 2 ^ 16 ∧ timer.granule info.addr = info.addr

theorem form_operandAccess_iff {instruction : Instruction} {info : DynamicMemoryInfo} :
    timer.form (instruction.operandAccess info) = instruction.operandAccess info ↔
      (info.dir = .READ → instruction.isAtomic = false) ∧ info.size < 2 ^ 16 ∧
        timer.granule info.addr = info.addr := by
  have hsize : info.size % 2 ^ 16 = info.size ↔ info.size < 2 ^ 16 := by omega
  simp only [form, Instruction.operandAccess, Access.mk.injEq, hsize, and_true]
  by_cases hdir : info.dir = .READ
  · by_cases hatomic : instruction.isAtomic = true
    · simp [hdir, hatomic]
    · simp [hdir, hatomic, and_comm]
  · simp [hdir, and_comm]

theorem issueAccess_eq (instruction : Instruction) (info : DynamicMemoryInfo) :
    (issueAccess instruction info).map
        (fun access => { access with d_addr := timer.granule access.d_addr }) =
      if info.hit_where = .UNKNOWN then some (timer.form (instruction.operandAccess info))
      else none := by
  unfold issueAccess
  split
  · simp only [Option.map_some, form, Instruction.operandAccess, Option.some.injEq,
      Access.mk.injEq, and_true]
    by_cases hdir : info.dir = .READ
    · by_cases hatomic : instruction.isAtomic = true
      all_goals simp [hdir, hatomic]
    · simp [hdir]
  · rfl

theorem simulate_requests (instruction : Instruction) (uops : List (InstructionUop Reg)) :
    (timer.simulate uops).filterMap instruction.request =
      (uops.filterMap (living instruction)).map
        fun access => { access with d_addr := timer.granule access.d_addr } := by
  rw [simulate, List.filterMap_map, List.filterMap_filter, List.map_filterMap]
  refine List.filterMap_congr fun uop _ => ?_
  unfold living
  cases uop.squashed with
  | true => rfl
  | false =>
    simp only [Bool.not_false, if_true, Function.comp_apply, Bool.false_eq_true, if_false]
    unfold Instruction.request
    by_cases hmemory : (uop.m_uop.isLoad || uop.m_uop.isStore) = true
    · simp only [hmemory, if_true]
      split <;> rfl
    · simp only [hmemory, if_false, Bool.false_and, Bool.false_eq_true]
      rfl

theorem map_filter_eq {α β : Type} (f : α → β) (p : α → Bool) (l : List α) :
    (l.filter p).map f = l.filterMap fun a => if p a then some (f a) else none := by
  rw [← List.filterMap_eq_map, List.filterMap_filter]
  rfl

theorem perm_iff (instruction : Instruction) (infos : List DynamicMemoryInfo) :
    ((infos.filterMap (issueAccess instruction)).map
        fun access => { access with d_addr := timer.granule access.d_addr }).Perm
      (infos.filterMap instruction.fetchAccess) ↔
      ∀ info ∈ infos, info.hit_where = .UNKNOWN → timer.Carries instruction info := by
  have hlate : (infos.filterMap (issueAccess instruction)).map
      (fun access => { access with d_addr := timer.granule access.d_addr }) =
      ((infos.filter (·.hit_where = .UNKNOWN)).map instruction.operandAccess).map timer.form := by
    rw [List.map_filterMap, List.map_map, map_filter_eq]
    refine List.filterMap_congr fun info _ => (timer.issueAccess_eq instruction info).trans ?_
    simp only [decide_eq_true_iff, Function.comp_apply]
  have hearly : infos.filterMap instruction.fetchAccess =
      (((infos.filter (·.hit_where = .UNKNOWN)).filter (·.executed)).map
        instruction.operandAccess) := by
    rw [List.filter_filter, map_filter_eq]
    refine List.filterMap_congr fun info _ => ?_
    simp only [Instruction.fetchAccess, Bool.and_eq_true, decide_eq_true_iff]
  rw [hlate, hearly]
  have hmem : ∀ info, info ∈ infos.filter (·.hit_where = .UNKNOWN) ↔
      info ∈ infos ∧ info.hit_where = .UNKNOWN := fun info => by simp
  constructor
  · intro hperm info hinfo hmapped
    have hlength := hperm.length_eq
    rw [List.length_map, List.length_map, List.length_map] at hlength
    -- every access at issue has one at fetch, so that all operands are executed
    have hall : (infos.filter (·.hit_where = .UNKNOWN)).filter (·.executed) =
        infos.filter (·.hit_where = .UNKNOWN) :=
      List.filter_sublist.eq_of_length hlength.symm
    rw [hall, map_perm_self_iff timer.form_form] at hperm
    have hown := (hmem info).mpr ⟨hinfo, hmapped⟩
    have hexecuted := List.of_mem_filter (hall ▸ hown)
    exact ⟨hexecuted, timer.form_operandAccess_iff.mp (hperm _ (List.mem_map_of_mem hown))⟩
  · intro hall
    have hexecuted : (infos.filter (·.hit_where = .UNKNOWN)).filter (·.executed) =
        infos.filter (·.hit_where = .UNKNOWN) :=
      List.filter_eq_self.mpr fun info hinfo =>
        (hall info ((hmem info).mp hinfo).1 ((hmem info).mp hinfo).2).1
    rw [hexecuted, map_perm_self_iff timer.form_form]
    intro access haccess
    obtain ⟨info, hinfo, rfl⟩ := List.mem_map.mp haccess
    exact timer.form_operandAccess_iff.mpr
      (hall info ((hmem info).mp hinfo).1 ((hmem info).mp hinfo).2).2

end Timer

/-! ### Traced instructions -/

section Traced
variable {t : Tracing.Translation.TraceThread} {dec : DecodedInst}
  {inst next_inst : Tracing.Handlers.Instruction}

theorem detailedLoop_infos {selected op_type operands dynins out}
    (h : detailedLoop t dec inst selected op_type operands dynins = .ok out) :
    ∃ infos, out.memory_info = dynins.memory_info ++ infos ∧
      infos.map (fun info => (info.dir, info.size)) =
        (operands.filter selected).map fun mem_idx => (op_type, dec.size_mem_op mem_idx) := by
  induction operands generalizing dynins with
  | nil =>
    cases h
    exact ⟨[], (List.append_nil _).symm, rfl⟩
  | cons mem_idx rest ih =>
    rw [detailedLoop, List.foldlM_cons] at h
    obtain ⟨next, hnext, hrest⟩ := of_bind_ok h
    obtain ⟨infos, hinfos, hsame⟩ := ih hrest
    rw [List.filter_cons]
    by_cases hselected : selected mem_idx
    · rw [if_pos hselected, Tracing.Handlers.addDetailedMemoryInfo] at hnext
      obtain ⟨mem_address, -, hadd⟩ := of_bind_ok hnext
      have hown := Tracing.Handlers.addMemory_ok hadd
      refine ⟨_ :: infos, by rw [hinfos, hown, List.append_assoc, List.singleton_append], ?_⟩
      rw [if_pos hselected, List.map_cons, List.map_cons, hsame]
      congr 1
      obtain ⟨pa, _ | _⟩ := Tracing.Handlers.translate t dec.is_prefetch mem_address
      · rfl
      · rfl
    · rw [if_neg hselected] at hnext
      cases hnext
      rw [if_neg hselected]
      exact ⟨infos, hinfos, hsame⟩

theorem handleInstructionDetailed_infos {dynins}
    (h : handleInstructionDetailed t dec inst next_inst = .ok dynins) :
    dynins.memory_info.map (fun info => (info.dir, info.size)) =
      (memoryOperands dec dec.op_read_mem).map (fun mem_idx => (.READ, dec.size_mem_op mem_idx)) ++
      (memoryOperands dec dec.op_write_mem).map
        fun mem_idx => (.WRITE, dec.size_mem_op mem_idx) := by
  unfold handleInstructionDetailed at h
  unfold memoryOperands
  dsimp only at h
  split at h
  case isTrue hnop =>
    cases h
    rw [if_pos hnop, if_pos hnop]
    rfl
  case isFalse hnop =>
    obtain ⟨dynins₁, hreads, hwrites⟩ := of_bind_ok h
    obtain ⟨reads, hreadInfos, hreadsSame⟩ := detailedLoop_infos hreads
    obtain ⟨writes, hwriteInfos, hwritesSame⟩ := detailedLoop_infos hwrites
    rw [if_neg hnop, if_neg hnop, hwriteInfos, hreadInfos, List.nil_append, List.map_append,
      hreadsSame, hwritesSame]

theorem decoded_sized {dynins} (h : handleInstructionDetailed t dec inst next_inst = .ok dynins) :
    Sized (decode t dec inst) (fun _ => 0) (dynins.memory_info.map memoryInfo) ∧
      (decode t dec inst).getOperands.filterMap Operand.direction =
        (dynins.memory_info.map memoryInfo).map (·.dir) := by
  have hinfos := handleInstructionDetailed_infos h
  constructor
  · intro d
    have hkey : ((dynins.memory_info.map memoryInfo).filter (·.dir = d)).map (·.size % 2 ^ 16) =
        ((dynins.memory_info.map fun info => (info.dir, info.size)).filter
          (fun key => direction key.1 = d)).map fun key => key.2.toNat % 2 ^ 16 := by
      rw [List.filter_map, List.filter_map, List.map_map, List.map_map]
      rfl
    rw [hkey, hinfos, List.filter_append, List.filter_map, List.filter_map, List.drop_zero]
    cases d with
    | READ | WRITE => simp [direction, decode, Instruction.memopSizes, Function.comp_def]
  · have hdirs : (dynins.memory_info.map memoryInfo).map (·.dir) =
        (dynins.memory_info.map fun info => (info.dir, info.size)).map
          fun key => direction key.1 := by
      rw [List.map_map, List.map_map]
      rfl
    rw [hdirs, hinfos, decode, List.filterMap_append, List.map_append, List.filterMap_map,
      List.filterMap_map, List.map_map, List.map_map, ← List.filterMap_eq_map,
      ← List.filterMap_eq_map]
    rfl

end Traced

/-- Whatever the order in which a timer comes to the micro-ops, it makes the accesses that are made
at fetch for the operands that are first on their lines exactly when their micro-ops carry them. -/
theorem late_issue_same_accesses (hierarchy : Hierarchy σ) (timer : Timer)
    (t : Tracing.Translation.TraceThread) (dec : DecodedInst)
    (inst next_inst : Tracing.Handlers.Instruction)
    (getInstructionLatency : DecodedUop Reg → Nat) (bypassLatency : InstructionUop Reg → Nat)
    (uops : Nat → MicroOp Reg) (numExecs : Nat) (icache : Option (HitWhere × Nat))
    {dynins : Tracing.Handlers.DynamicInstruction}
    (hdynins : handleInstructionDetailed t dec inst next_inst = .ok dynins) :
    let instruction := decode t dec inst
    let infos := dynins.memory_info.map memoryInfo
    (∀ core infos' core', instruction.accessMemory hierarchy infos core = .ok (infos', core') →
      core'.accesses = core.accesses ++ infos.filterMap instruction.fetchAccess) ∧
    ∃ current_uops, handleInstruction getInstructionLatency bypassLatency
        (DecodedUop.decode uops instruction.memop_load_size.length numExecs
          instruction.memop_store_size.length)
        icache instruction.getOperands (infos.map (·.toMemoryInfo)) = .ok current_uops ∧
      ∀ order core entries' core',
        (∀ i < (timer.simulate current_uops).length, i ∈ order.map Prod.fst) →
        timer.issue hierarchy instruction order (timer.simulate current_uops) core =
          .ok (entries', core') →
        ∃ accesses, core'.accesses = core.accesses ++ accesses ∧
          (accesses.Perm ((untouched (fun _ => []) infos).filterMap instruction.fetchAccess) ↔
            ∀ info ∈ untouched (fun _ => []) infos, info.hit_where = .UNKNOWN →
              timer.Carries instruction info) := by
  intro instruction infos
  obtain ⟨hsized, hops⟩ := decoded_sized hdynins
  refine ⟨fun core infos' core' h => Instruction.accessMemory_accesses h, ?_⟩
  have hcount : ∀ d, (instruction.getOperands.filterMap Operand.direction).count d =
      (instruction.memopSizes d).length := fun d => by rw [hops, hsized.count]
  obtain ⟨current_uops, hcurrent, -⟩ := handleInstruction_kept getInstructionLatency bypassLatency
    uops _ numExecs _ icache instruction.getOperands (infos.map (·.toMemoryInfo)) 0
    (by
      rw [List.map_map, hops]
      exact List.prefix_rfl)
    (hcount .READ) (hcount .WRITE)
  refine ⟨current_uops, hcurrent, fun order core entries' core' hall hissue => ?_⟩
  let m : Mix := ⟨instruction.memop_load_size.length,
    if instruction.memop_load_size.length + numExecs + instruction.memop_store_size.length = 0
      then 1 else numExecs, instruction.memop_store_size.length⟩
  have hmix : ∀ d, (instruction.memopSizes d).length = m.count d := by
    intro d
    cases d with
    | READ | WRITE => rfl
  have hliving := (handleInstruction_living hsized hmix hops hcurrent).map
    fun access => { access with d_addr := timer.granule access.d_addr }
  obtain ⟨accesses, haccesses, hperm⟩ := Timer.issue_perm hall hissue
  rw [timer.simulate_requests] at hperm
  refine ⟨accesses, haccesses, ?_⟩
  rw [(hperm.trans hliving).congr_left]
  exact timer.perm_iff instruction _

/-! ### Inputs -/

section Inputs
open Tracing.Handlers (thread atomicUpdate recordOf)

def plain : MicroOp Unit := ⟨.execute, [], [], [], false, false, false⟩

/-- A memory that answers from the first level. -/
def flat : Hierarchy Unit := fun _ _ _ => (1, L1_OWN, ())

/-- What a traced instruction has in memory. -/
def infosOf (dec : DecodedInst) (inst : Tracing.Handlers.Instruction) : List DynamicMemoryInfo :=
  match handleInstructionDetailed thread dec inst (recordOf []) with
  | .ok dynins => dynins.memory_info.map memoryInfo
  | .error _ => []

/-- The accesses at issue, with the micro-ops in order. -/
def lateRun (timer : Timer) (dec : DecodedInst) (inst : Tracing.Handlers.Instruction) :
    Except Stop (List Access) := do
  let instruction := decode thread dec inst
  let current_uops ← handleInstruction (fun _ => 1) (fun _ => 0)
    (DecodedUop.decode (fun _ => plain) instruction.memop_load_size.length 1
      instruction.memop_store_size.length)
    none instruction.getOperands ((infosOf dec inst).map (·.toMemoryInfo))
  let entries := timer.simulate current_uops
  let (_, core) ← timer.issue flat instruction ((List.range entries.length).map fun i => (i, 0))
    entries ⟨(), []⟩
  return core.accesses

def fetchRun (dec : DecodedInst) (inst : Tracing.Handlers.Instruction) :
    Except Stop (List Access) := do
  let (_, core) ← (decode thread dec inst).accessMemory flat (infosOf dec inst) ⟨(), []⟩
  return core.accesses

/-- A load of four bytes. -/
def load : DecodedInst :=
  { num_memory_operands := 1, op_read_mem := fun _ => true, op_write_mem := fun _ => false,
    size_mem_op := fun _ => 4, is_mem_pair := false, is_atomic := false, is_prefetch := false,
    is_nop := false, is_indirect_branch := false }

theorem late_issue_same_accesses_load :
    let instruction := decode thread load (recordOf [68])
    let infos := infosOf load (recordOf [68])
    (∀ core infos' core', instruction.accessMemory flat infos core = .ok (infos', core') →
      core'.accesses = core.accesses ++ infos.filterMap instruction.fetchAccess) ∧
    ∃ current_uops, handleInstruction (fun _ => 1) (fun _ => 0)
        (DecodedUop.decode (fun _ => plain) 1 1 0) none instruction.getOperands
        (infos.map (·.toMemoryInfo)) = .ok current_uops ∧
      ∀ order core entries' core',
        (∀ i < (Timer.rob.simulate current_uops).length, i ∈ order.map Prod.fst) →
        Timer.rob.issue flat instruction order (Timer.rob.simulate current_uops) core =
          .ok (entries', core') →
        ∃ accesses, core'.accesses = core.accesses ++ accesses ∧
          (accesses.Perm ((untouched (fun _ => []) infos).filterMap instruction.fetchAccess) ↔
            ∀ info ∈ untouched (fun _ => []) infos, info.hit_where = .UNKNOWN →
              Timer.rob.Carries instruction info) :=
  late_issue_same_accesses flat .rob thread load (recordOf [68]) (recordOf []) (fun _ => 1)
    (fun _ => 0) (fun _ => plain) 1 none rfl

/-- The read of an atomic update, a load that is not executed, and the start of a granule. -/
theorem late_issue_differs :
    (∃ late early, lateRun .rob atomicUpdate (recordOf [64]) = .ok late ∧
      fetchRun atomicUpdate (recordOf [64]) = .ok early ∧ ¬ late.Perm early) ∧
    (∃ late, lateRun .rob load { recordOf [64] with executed := false } = .ok late ∧ late ≠ [] ∧
      fetchRun load { recordOf [64] with executed := false } = .ok []) ∧
    ∃ late early, lateRun (.interval (2 ^ 64 - 8)) load (recordOf [68]) = .ok late ∧
      fetchRun load (recordOf [68]) = .ok early ∧ ¬ late.Perm early := by
  refine ⟨⟨_, _, rfl, rfl, by decide +kernel⟩, ⟨_, rfl, nofun, rfl⟩,
    ⟨_, _, rfl, rfl, by decide +kernel⟩⟩

end Inputs

end Sniper.Timing.MemoryIssue
