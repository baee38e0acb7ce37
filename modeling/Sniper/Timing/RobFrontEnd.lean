import Sniper.Timing.FrontEnd
import Sniper.Timing.RobMoves

/-! # The front end of the reorder buffer

What `doDispatch` does to the front end is what the loop of the front end does, and the other
stages leave it alone: a mispredicted branch, which stalls it until it issues, is the last micro-op
that has been dispatched.
-/
namespace Sniper.Timing.Rob
open Lib.Simulation DynamicMicroOp

variable {Reg K M : Type}

def RobEntry.fetch (entry : RobEntry Reg) : Fetch := .of entry.uop

/-! ### Dependencies and fetches -/

/-- Nothing but the dependencies differs. -/
def Rewired (uop uop' : DynamicMicroOp Reg) : Prop :=
  ∃ intra deps, uop' =
    { uop with intraInstructionDependencies := intra, dependencies := deps }

namespace Rewired
variable {uop uop' uop'' : DynamicMicroOp Reg}

theorem refl (uop : DynamicMicroOp Reg) : Rewired uop uop :=
  ⟨uop.intraInstructionDependencies, uop.dependencies, rfl⟩

theorem trans (h : Rewired uop uop') (h' : Rewired uop' uop'') : Rewired uop uop'' := by
  obtain ⟨intra, deps, rfl⟩ := h
  obtain ⟨intra', deps', rfl⟩ := h'
  exact ⟨intra', deps', rfl⟩

theorem fetch (h : Rewired uop uop') : Fetch.of uop' = Fetch.of uop := by
  obtain ⟨intra, deps, rfl⟩ := h
  rfl

theorem add {d} (h : uop.addDependency d = .ok uop') : Rewired uop uop' := by
  rw [addDependency] at h
  split at h
  case isTrue =>
    cases h
    exact refl _
  case isFalse =>
    split at h
    case isTrue =>
      cases h
      exact ⟨uop.intraInstructionDependencies, _, rfl⟩
    case isFalse => cases h

theorem remove {d} (h : uop.removeDependency d = .ok uop') : Rewired uop uop' := by
  rw [removeDependency] at h
  split at h
  case isTrue =>
    obtain ⟨⟨intra, deps⟩, -, rfl⟩ := of_map_ok h
    exact ⟨intra, deps, rfl⟩
  case isFalse =>
    obtain ⟨deps, -, rfl⟩ := of_map_ok h
    exact ⟨uop.intraInstructionDependencies, deps, rfl⟩

theorem addAll {deps} (h : addDependencies deps uop = .ok uop') : Rewired uop uop' := by
  induction deps generalizing uop with
  | nil =>
    cases h
    exact refl _
  | cons d deps ih =>
    obtain ⟨uop₁, hadd, h⟩ := of_bind_ok h
    exact (add hadd).trans (ih h)

theorem removeAll {deps} (h : removeDependencies deps uop = .ok uop') :
    Rewired uop uop' := by
  induction deps generalizing uop with
  | nil =>
    cases h
    exact refl _
  | cons d deps ih =>
    obtain ⟨uop₁, hremove, h⟩ := of_bind_ok h
    exact (remove hremove).trans (ih h)

theorem forward {forwarding rob} (h : forward forwarding rob uop = .ok uop') :
    Rewired uop uop' := by
  rw [Rob.forward] at h
  split at h
  case isTrue =>
    obtain ⟨store, -, h⟩ := of_bind_ok h
    cases store with
    | none =>
      cases h
      exact refl _
    | some store =>
      obtain ⟨uop₁, hremove, h⟩ := of_bind_ok h
      exact (remove hremove).trans (addAll h)
  case isFalse =>
    cases h
    exact refl _

section Registers
variable {decoder : Decoder Reg} {registers registers' : RegisterDependencies Reg} [DecidableEq Reg]

theorem readSources {lowest regs}
    (h : RegisterDependencies.readSources decoder lowest regs registers uop =
      .ok (registers', uop')) : Rewired uop uop' := by
  induction regs generalizing registers uop with
  | nil =>
    cases h
    exact refl _
  | cons reg regs ih =>
    rw [RegisterDependencies.readSources] at h
    split at h
    case isTrue => cases h
    case isFalse =>
      split at h
      case h_1 => exact ih h
      case h_2 =>
        split at h
        case isTrue =>
          obtain ⟨uop₁, hadd, h⟩ := of_bind_ok h
          exact (add hadd).trans (ih h)
        case isFalse => exact ih h

theorem setRegisters {lowest}
    (h : registers.setDependencies decoder uop lowest = .ok (registers', uop')) :
    Rewired uop uop' := by
  obtain ⟨⟨registers₁, uop₁⟩, hread, h⟩ := of_bind_ok h
  obtain ⟨registers₂, -, h⟩ := of_bind_ok h
  cases h
  exact readSources hread

end Registers

theorem onMembar {memory : MemoryDependencies} {lowest} (h : memory.onMembar lowest uop = .ok uop') :
    Rewired uop uop' := by
  rw [MemoryDependencies.onMembar] at h
  split at h
  case h_1 =>
    cases h
    exact refl _
  case h_2 =>
    split at h
    case isTrue => exact add h
    case isFalse =>
      cases h
      exact refl _

theorem onStore {memory : MemoryDependencies} (h : memory.onStore uop = .ok uop') :
    Rewired uop uop' := by
  rw [MemoryDependencies.onStore] at h
  split at h
  case h_1 => exact add h
  case h_2 =>
    cases h
    exact refl _

theorem setMemory {memory memory' : MemoryDependencies} {lowest}
    (h : memory.setDependencies uop lowest = .ok (memory', uop')) : Rewired uop uop' := by
  rw [MemoryDependencies.setDependencies] at h
  split at h
  case isTrue =>
    obtain ⟨uop₁, hstore, h⟩ := of_bind_ok h
    obtain ⟨uop₂, hmembar, h⟩ := of_bind_ok h
    cases h
    exact (onStore hstore).trans (onMembar hmembar)
  case isFalse =>
    split at h
    case isTrue =>
      obtain ⟨memory₁, -, h⟩ := of_bind_ok h
      obtain ⟨uop₁, hmembar, h⟩ := of_bind_ok h
      cases h
      exact onMembar hmembar
    case isFalse =>
      split at h
      case isTrue =>
        obtain ⟨uop₁, hmembar, h⟩ := of_bind_ok h
        cases h
        exact onMembar hmembar
      case isFalse =>
        cases h
        exact refl _

end Rewired

/-! ### Numbered entries -/

/-- The entries are numbered one after the other. -/
def Numbered (rob : List (RobEntry Reg)) : Prop :=
  ∃ base, ∀ (i : Nat) (e : RobEntry Reg), rob[i]? = some e → e.seqnr = base + i

/-- What the front end depends on, and the number. -/
def RobEntry.tag (entry : RobEntry Reg) : Nat × Fetch × Time :=
  (entry.seqnr, entry.fetch, entry.done)

namespace Numbered
variable {rob rob' : List (RobEntry Reg)}

theorem congr (h : Numbered rob) (htags : rob'.map RobEntry.tag = rob.map RobEntry.tag) :
    Numbered rob' := by
  obtain ⟨base, h⟩ := h
  refine ⟨base, fun i e he => ?_⟩
  have htag := congrArg (·[i]?) htags
  simp only [List.getElem?_map, he, Option.map_some] at htag
  obtain ⟨p, hp, heq⟩ := Option.map_eq_some_iff.mp htag.symm
  have hseq : p.seqnr = e.seqnr := congrArg Prod.fst heq
  exact hseq ▸ h i p hp

theorem updateEntry_eq (h : Numbered rob) {i e} (he : rob[i]? = some e)
    (f : RobEntry Reg → RobEntry Reg) : updateEntry rob e.seqnr f = rob.set i (f e) := by
  obtain ⟨base, h⟩ := h
  refine List.ext_getElem? fun j => ?_
  rw [updateEntry, List.getElem?_map, List.getElem?_set]
  by_cases hij : i = j
  · subst hij
    rw [he, if_pos rfl, if_pos (List.getElem?_eq_some_iff.mp he).1, Option.map_some, if_pos rfl]
  · rw [if_neg hij]
    cases hp : rob[j]? with
    | none => rfl
    | some p =>
      have hne : p.seqnr ≠ e.seqnr := by
        have hp := h j p hp
        have he := h i e he
        omega
      rw [Option.map_some, if_neg hne]

theorem tags_set {i e e'} (he : rob[i]? = some e) (htag : e'.tag = e.tag) :
    (rob.set i e').map RobEntry.tag = rob.map RobEntry.tag := by
  obtain ⟨hlt, rfl⟩ := List.getElem?_eq_some_iff.mp he
  have hlt' : i < (rob.map RobEntry.tag).length := by rwa [List.length_map]
  have hget : (rob.map RobEntry.tag)[i] = rob[i].tag := List.getElem_map _
  rw [List.map_set, htag, ← hget, List.set_getElem_self]

theorem set (h : Numbered rob) {i e e'} (he : rob[i]? = some e) (hseq : e'.seqnr = e.seqnr) :
    Numbered (rob.set i e') := by
  obtain ⟨base, h⟩ := h
  refine ⟨base, fun j p hp => ?_⟩
  rw [List.getElem?_set] at hp
  split at hp
  case isTrue hij =>
    split at hp
    case isTrue =>
      cases hp
      rw [hseq, h i e he, hij]
    case isFalse => cases hp
  case isFalse => exact h j p hp

end Numbered

theorem Inv.numbered [DecidableEq Reg] {cfg base} {s : RobTimer Reg K M} (h : Inv cfg base s) :
    Numbered s.rob :=
  ⟨base, fun _ _ he => h.seqnr_of_getElem he⟩

theorem notify_tag {rob x cycle_depend} {e e' : RobEntry Reg}
    (h : notify rob x cycle_depend e = .ok e') : e'.tag = e.tag := by
  rw [notify] at h
  split at h
  case isTrue => cases h
  case isFalse =>
    obtain ⟨uop, hremove, h⟩ := of_bind_ok h
    rw [(resolve_ok h).rest]
    obtain ⟨intra, deps, rfl⟩ := Rewired.remove hremove
    rfl

theorem notifyAll_tags {rob rob' : List (RobEntry Reg)} {x cycle_depend dependants}
    (hnum : Numbered rob) (h : notifyAll x cycle_depend dependants rob = .ok rob') :
    rob'.map RobEntry.tag = rob.map RobEntry.tag := by
  induction dependants generalizing rob with
  | nil =>
    cases h
    rfl
  | cons dependant rest ih =>
    rw [notifyAll] at h
    obtain ⟨e, hfind, h⟩ := of_bind_ok h
    obtain ⟨e', hnotify, h⟩ := of_bind_ok h
    obtain ⟨he, rfl⟩ := findEntry_ok hfind
    obtain ⟨i, hi⟩ := List.mem_iff_getElem?.mp he
    have htags : (updateEntry rob e.seqnr fun _ => e').map RobEntry.tag =
        rob.map RobEntry.tag := by
      rw [hnum.updateEntry_eq hi]
      exact Numbered.tags_set hi (notify_tag hnotify)
    exact (ih (hnum.congr htags) h).trans htags

/-! ### Branches that have not been resolved -/

def RobEntry.unresolved (entry : RobEntry Reg) : Bool :=
  entry.fetch.mispredicted && decide (entry.done = ⊤)

namespace RobTimer
variable (s : RobTimer Reg K M)

/-- The micro-ops that have not been dispatched. -/
def waiting : List Fetch := (s.rob.drop s.m_num_in_rob).map RobEntry.fetch

/-- The mispredicted branches that have been dispatched and have not issued. -/
def unresolved : Nat := (s.rob.take s.m_num_in_rob).countP RobEntry.unresolved

end RobTimer

theorem RobTimer.waiting_eq (s : RobTimer Reg K M) :
    s.waiting = ((s.rob.map RobEntry.tag).drop s.m_num_in_rob).map fun t => t.2.1 := by
  rw [waiting, ← List.map_drop, List.map_map]
  rfl

theorem RobTimer.unresolved_eq (s : RobTimer Reg K M) :
    s.unresolved = ((s.rob.map RobEntry.tag).take s.m_num_in_rob).countP fun t =>
      t.2.1.mispredicted && decide (t.2.2 = ⊤) := by
  rw [unresolved, ← List.map_take, List.countP_map]
  rfl

/-- The front end waits for the branch, so there is no other one. -/
structure Braked (s : RobTimer Reg K M) : Prop where
  one : s.unresolved ≤ 1
  stalled : s.unresolved ≠ 0 → s.frontend_stalled_until = ⊤

/-- What issuing and committing do to the front end. -/
structure Quiet (s s' : RobTimer Reg K M) : Prop where
  waiting : s'.waiting = s.waiting
  icache : s'.in_icache_miss = s.in_icache_miss
  braked : Braked s → Braked s'
  stalled : Braked s → s.frontend_stalled_until ≠ ⊤ →
    s'.frontend_stalled_until = s.frontend_stalled_until

namespace Quiet
variable {s s' s'' : RobTimer Reg K M}

theorem refl (s : RobTimer Reg K M) : Quiet s s := ⟨rfl, rfl, id, fun _ _ => rfl⟩

theorem trans (h : Quiet s s') (h' : Quiet s' s'') : Quiet s s'' := by
  refine ⟨h'.waiting.trans h.waiting, h'.icache.trans h.icache, fun hb => h'.braked (h.braked hb),
    fun hb hne => ?_⟩
  have heq := h.stalled hb hne
  exact (h'.stalled (h.braked hb) (heq ▸ hne)).trans heq

end Quiet

section Issue
variable {cfg : Config Reg K M} {s s' : RobTimer Reg K M}

/-- What issuing does to the front end and to what it waits for. -/
structure Issued (cfg : Config Reg K M) (s s' : RobTimer Reg K M) (i : Nat) (e : RobEntry Reg)
    (done : Nat) : Prop where
  tags : s'.rob.map RobEntry.tag = (s.rob.map RobEntry.tag).set i (e.seqnr, e.fetch, (done : Time))
  num_in_rob : s'.m_num_in_rob = s.m_num_in_rob
  icache : s'.in_icache_miss = s.in_icache_miss
  stalled : s'.frontend_stalled_until = if e.fetch.mispredicted then
      ((s.now + (cfg.misprediction_penalty - 2) * s.period : Nat) : Time)
    else s.frontend_stalled_until

theorem issueInstruction_issued {i e t t'} (hnum : Numbered s.rob) (he : s.rob[i]? = some e)
    (h : issueInstruction cfg s e t = .ok (s', t')) : ∃ done, Issued cfg s s' i e done := by
  obtain ⟨issue, hissue, htimed, -⟩ := issueInstruction_spec h
  obtain ⟨execLatency, hit_where, hnotify⟩ := htimed.rob
  rw [hnum.updateEntry_eq he] at hnotify
  have htags := notifyAll_tags (hnum.set he ?_) hnotify
  · exact ⟨_, htags.trans (List.map_set ..), hissue.num_in_rob, htimed.icache, htimed.stalled⟩
  · rfl

theorem Issued.numbered {i done e} (h : Issued cfg s s' i e done) (hnum : Numbered s.rob)
    (he : s.rob[i]? = some e) : Numbered s'.rob := by
  have hset : Numbered (s.rob.set i { e with done := (done : Time) }) := hnum.set he rfl
  refine hset.congr ?_
  rw [h.tags, List.map_set]
  rfl

theorem Issued.quiet {i done e} (h : Issued cfg s s' i e done) (he : s.rob[i]? = some e)
    (hi : i < s.m_num_in_rob) (hdone : e.done = ⊤) : Quiet s s' := by
  obtain ⟨hlt, rfl⟩ := List.getElem?_eq_some_iff.mp he
  -- the micro-op that issues is resolved
  have hresolved : s'.unresolved + (if s.rob[i].fetch.mispredicted then 1 else 0) =
      s.unresolved := by
    have hlt' : i < ((s.rob.map RobEntry.tag).take s.m_num_in_rob).length := by
      simpa using ⟨hi, hlt⟩
    have htag : ((s.rob.map RobEntry.tag).take s.m_num_in_rob)[i] = s.rob[i].tag := by
      rw [List.getElem_take, List.getElem_map]
    have hpos : s.rob[i].fetch.mispredicted = true → 0 < s.unresolved := by
      intro hbranch
      rw [RobTimer.unresolved_eq, List.countP_pos_iff]
      refine ⟨_, List.getElem_mem hlt', ?_⟩
      simp [RobEntry.tag, hbranch, hdone]
    have hcount : s'.unresolved =
        s.unresolved - (if s.rob[i].fetch.mispredicted then 1 else 0) := by
      rw [RobTimer.unresolved_eq s', h.tags, h.num_in_rob, List.take_set, List.countP_set hlt',
        htag, ← RobTimer.unresolved_eq]
      simp [RobEntry.tag, hdone]
    split at hcount
    case isTrue hbranch =>
      have hpos := hpos hbranch
      rw [if_pos hbranch]
      omega
    case isFalse hbranch => rw [if_neg hbranch, hcount]; rfl
  have hstalled := h.stalled
  refine ⟨?_, h.icache, fun hb => ⟨?_, fun hne => ?_⟩, fun hb hne => ?_⟩
  · rw [RobTimer.waiting_eq, RobTimer.waiting_eq, h.tags, h.num_in_rob, List.drop_set_of_lt hi]
  · have hone := hb.one
    omega
  · have hone := hb.one
    split at hresolved
    case isTrue => omega
    case isFalse hbranch =>
      rw [hstalled, if_neg hbranch]
      exact hb.stalled (by omega)
  · have hzero : s.unresolved = 0 := by
      by_contra hpos
      exact hne (hb.stalled hpos)
    split at hresolved
    case isTrue => omega
    case isFalse hbranch => rw [hstalled, if_neg hbranch]

theorem issueLoop_quiet {count i scan t} (hnum : Numbered s.rob)
    (hcount : i + count ≤ s.m_num_in_rob) (h : issueLoop cfg count i s scan = .ok (s', t)) :
    Quiet s s' := by
  induction count generalizing i s scan with
  | zero =>
    cases h
    exact .refl _
  | succ count ih =>
    cases he : s.rob[i]? with
    | none =>
      rw [issueLoop.eq_def] at h
      simp only [he] at h
      cases h
    | some e =>
      have hcontends : ∀ {s₁}, Contends s s₁ → Quiet s s₁ ∧ s₁.rob = s.rob ∧
          s₁.m_num_in_rob = s.m_num_in_rob := by
        rintro s₁ ⟨k, rfl⟩
        exact ⟨⟨rfl, rfl, fun hb => ⟨hb.one, hb.stalled⟩, fun _ _ => rfl⟩, rfl, rfl⟩
      obtain ⟨-, heq⟩ | ⟨-, s₁, t₁, hs₁, heq⟩ | ⟨-, s₁, scan₁, hs₁, -, heq⟩ |
        ⟨hdone, -, -, -, s₁, t₁, k, hs₁, heq, hk⟩ := issueLoop_succ cfg count scan he
      · exact ih hnum (by omega) (heq ▸ h)
      · rw [heq] at h
        cases h
        exact (hcontends hs₁).1
      · obtain ⟨hquiet, hrob, hsize⟩ := hcontends hs₁
        exact hquiet.trans (ih (hrob ▸ hnum) (by omega) (heq ▸ h))
      · obtain ⟨hquiet, hrob, hsize⟩ := hcontends hs₁
        rw [heq] at h
        obtain ⟨⟨s₂, t₂⟩, hs₂, h⟩ := of_bind_ok h
        have he₁ : s₁.rob[i]? = some e := hrob ▸ he
        obtain ⟨done, hissued⟩ := issueInstruction_issued (hrob ▸ hnum) he₁ hs₂
        have h₂ := hquiet.trans (hissued.quiet he₁ (by omega) hdone)
        have hsize₂ := hissued.num_in_rob
        obtain ⟨t₃, hstop⟩ | ⟨scan₂, -, hgo⟩ := hk s₂ t₂
        · rw [hstop] at h
          cases h
          exact h₂
        · exact h₂.trans (ih (hissued.numbered (hrob ▸ hnum) he₁) (by omega) (hgo ▸ h))

theorem doIssue_quiet {t} (hnum : Numbered s.rob) (h : doIssue cfg s = .ok (s', t)) :
    Quiet s s' := by
  refine .trans ?_ (issueLoop_quiet ?_ ?_ h)
  · exact ⟨rfl, rfl, fun hb => ⟨hb.one, hb.stalled⟩, fun _ _ => rfl⟩
  · exact hnum
  · exact Nat.le_of_eq (Nat.zero_add _)

end Issue

theorem commitLoop_quiet {cfg} {s : RobTimer Reg K M} {rob : List (RobEntry Reg)}
    (hwaiting : ∀ e ∈ rob.drop s.m_num_in_rob, e.done = ⊤) (num_committed : Nat) :
    Quiet { s with rob := rob } (commitLoop cfg s rob num_committed) := by
  induction rob generalizing s num_committed with
  | nil => exact .refl _
  | cons front rob ih =>
    rw [commitLoop]
    split
    case isFalse => exact .refl _
    case isTrue hdone =>
      have hne : front.done ≠ ⊤ := fun htop => time_ne_top s.now (top_le_iff.mp (htop ▸ hdone))
      obtain ⟨num, hnum⟩ : ∃ num, s.m_num_in_rob = num + 1 := by
        refine Nat.exists_eq_succ_of_ne_zero fun hzero => hne (hwaiting front ?_)
        rw [hzero]
        exact List.mem_cons_self ..
      have hfront : Quiet { s with rob := front :: rob }
          (commitFront { s with rob := front :: rob } front rob) := by
        have hunresolved : (commitFront { s with rob := front :: rob } front rob).unresolved =
            ({ s with rob := front :: rob } : RobTimer Reg K M).unresolved := by
          simp [RobTimer.unresolved, commitFront, hnum, RobEntry.unresolved, hne]
        refine ⟨?_, rfl, fun hb => ⟨hunresolved ▸ hb.one, hunresolved ▸ hb.stalled⟩, fun _ _ => rfl⟩
        simp [RobTimer.waiting, commitFront, hnum]
      split
      · exact hfront
      · refine hfront.trans (ih (s := commitFront s front rob) ?_ _)
        simpa [commitFront, hnum] using hwaiting

/-! ### Dispatch -/

section Dispatch
variable {cfg : Config Reg K M} {s s' : RobTimer Reg K M}

/-- The front end, with what it has done so far. -/
def RobTimer.front (s : RobTimer Reg K M) (trace : List FrontEvent) : FrontEnd where
  waiting := s.waiting
  frontend_stalled_until := s.frontend_stalled_until
  in_icache_miss := s.in_icache_miss
  cpiFrontEnd := none
  trace := trace

/-- The loop of the front end, from the state of the timer. -/
def RobTimer.frontEnd (cfg : Config Reg K M) (s : RobTimer Reg K M) (trace : List FrontEvent) :
    FrontEnd :=
  if s.frontend_stalled_until ≤ (s.now : Time) then
    Rob.frontEnd cfg.windowSize cfg.rsEntries s.now s.period cfg.dispatchWidth s.m_num_in_rob
      s.m_rs_entries_used (s.front trace)
  else s.front trace

theorem dispatch_tags (s : RobTimer Reg K M) (e : RobEntry Reg) :
    (dispatch s e).rob.map RobEntry.tag = s.rob.map RobEntry.tag := by
  rw [dispatch, updateEntry, List.map_map]
  refine List.map_congr_left fun p _ => ?_
  dsimp only [Function.comp]
  split <;> rfl

theorem dispatch_waiting {e} (he : s.rob[s.m_num_in_rob]? = some e) :
    s.waiting = e.fetch :: (dispatch s e).waiting := by
  obtain ⟨hlt, rfl⟩ := List.getElem?_eq_some_iff.mp he
  rw [RobTimer.waiting_eq (dispatch s _), dispatch_tags, RobTimer.waiting,
    List.drop_eq_getElem_cons hlt, List.map_cons, ← List.map_drop, List.map_map]
  rfl

theorem dispatch_unresolved {e} (he : s.rob[s.m_num_in_rob]? = some e) :
    (dispatch s e).unresolved = s.unresolved + if e.unresolved then 1 else 0 := by
  obtain ⟨hlt, rfl⟩ := List.getElem?_eq_some_iff.mp he
  rw [RobTimer.unresolved_eq (dispatch s _), dispatch_tags, ← List.map_take, List.countP_map]
  show (s.rob.take (s.m_num_in_rob + 1)).countP RobEntry.unresolved = _
  rw [List.take_succ_eq_append_getElem hlt, List.countP_append, List.countP_singleton]
  rfl

/-- The micro-op does not wait for the instruction cache any more. -/
def RobTimer.fetched (s : RobTimer Reg K M) (fetch : Fetch) : RobTimer Reg K M :=
  { s with in_icache_miss := s.in_icache_miss && !decide fetch.iCacheMiss }

theorem fetched_eq (s : RobTimer Reg K M) (e : RobEntry Reg) :
    (if e.uop.iCacheHitWhere ≠ .L1I then { s with in_icache_miss := false } else s) =
      s.fetched e.fetch := by
  rw [RobTimer.fetched]
  split
  case isTrue hmiss =>
    have hmiss : e.fetch.iCacheMiss := hmiss
    rw [decide_eq_true hmiss, Bool.not_true, Bool.and_false]
  case isFalse hmiss =>
    have hmiss : ¬ e.fetch.iCacheMiss := hmiss
    rw [decide_eq_false hmiss, Bool.not_false, Bool.and_true]

/-- What the loop does with a micro-op. -/
inductive Round (cfg : Config Reg K M) (s s' : RobTimer Reg K M) (e : RobEntry Reg) (width : Nat)
    (t' : Time) : Prop
  | stall (hmiss : e.fetch.iCacheMiss ∧ s.in_icache_miss = false)
      (hs' : s' = { s with
        frontend_stalled_until :=
          ((s.now + e.fetch.iCacheLatency * s.period : Nat) : Time)
        in_icache_miss := true })
  | full (hmiss : ¬ (e.fetch.iCacheMiss ∧ s.in_icache_miss = false))
      (hfull : s.m_rs_entries_used = cfg.rsEntries) (hs' : s' = s.fetched e.fetch)
  | mispredicted (hmiss : ¬ (e.fetch.iCacheMiss ∧ s.in_icache_miss = false))
      (hfull : s.m_rs_entries_used ≠ cfg.rsEntries) (hbranch : e.fetch.mispredicted = true)
      (hs' : s' = { dispatch (s.fetched e.fetch) e with frontend_stalled_until := ⊤ })
  | next (hmiss : ¬ (e.fetch.iCacheMiss ∧ s.in_icache_miss = false))
      (hfull : s.m_rs_entries_used ≠ cfg.rsEntries) (hbranch : e.fetch.mispredicted = false)
      (t : Time)
      (hs' : dispatchLoop cfg width (dispatch (s.fetched e.fetch) e) t = .ok (s', t'))

theorem dispatchLoop_zero {t t'} (h : dispatchLoop cfg 0 s t = .ok (s', t')) : s' = s := by
  rw [dispatchLoop.eq_def] at h
  dsimp only at h
  split at h
  · cases h
    rfl
  · split at h
    · cases h
    · cases h
      rfl

theorem dispatchLoop_succ {width t t'} (h : dispatchLoop cfg (width + 1) s t = .ok (s', t')) :
    cfg.windowSize ≤ s.m_num_in_rob ∧ s' = s ∨
    s.m_num_in_rob < cfg.windowSize ∧ ∃ e, s.rob[s.m_num_in_rob]? = some e ∧
      Round cfg s s' e width t' := by
  rw [dispatchLoop.eq_def] at h
  dsimp only at h
  split at h
  case isTrue hwindow =>
    cases h
    exact .inl ⟨hwindow, rfl⟩
  case isFalse hwindow =>
    refine .inr ⟨Nat.lt_of_not_le hwindow, ?_⟩
    split at h
    case h_1 => cases h
    case h_2 e he =>
      refine ⟨e, he, ?_⟩
      rw [fetched_eq] at h
      split at h
      case isTrue hmiss =>
        cases h
        exact .stall hmiss rfl
      case isFalse hmiss =>
        split at h
        case isTrue hfull =>
          cases h
          exact .full hmiss hfull rfl
        case isFalse hfull =>
          split at h
          case isTrue hbranch =>
            cases h
            exact .mispredicted hmiss hfull hbranch rfl
          case isFalse hbranch => exact .next hmiss hfull (Bool.not_eq_true _ ▸ hbranch) _ h

theorem dispatchLoop_frontEnd {width t t'} (trace : List FrontEvent)
    (h : dispatchLoop cfg width s t = .ok (s', t')) :
    s'.front (Rob.frontEnd cfg.windowSize cfg.rsEntries s.now s.period width s.m_num_in_rob
        s.m_rs_entries_used (s.front trace)).trace =
      { Rob.frontEnd cfg.windowSize cfg.rsEntries s.now s.period width s.m_num_in_rob
        s.m_rs_entries_used (s.front trace) with cpiFrontEnd := none } := by
  induction width generalizing s t trace with
  | zero =>
    rw [frontEnd_zero, dispatchLoop_zero h]
    rfl
  | succ width ih =>
    rw [Rob.frontEnd.eq_def]
    dsimp only
    obtain ⟨hwindow, rfl⟩ | ⟨hwindow, e, he, hround⟩ := dispatchLoop_succ h
    · rw [if_pos hwindow]
      rfl
    · rw [if_neg (Nat.not_le.mpr hwindow)]
      have hwaiting : (s.front trace).waiting = e.fetch :: (dispatch s e).waiting :=
        dispatch_waiting he
      split
      case h_1 hnil => cases hwaiting.symm.trans hnil
      case h_2 fetch waiting hcons =>
        obtain ⟨rfl, rfl⟩ := List.cons.inj (hwaiting.symm.trans hcons)
        have hfetched : (if e.fetch.iCacheMiss then
            { s.front trace with in_icache_miss := false } else s.front trace) =
            (s.fetched e.fetch).front trace := by
          by_cases hmiss : e.fetch.iCacheMiss
          all_goals simp [hmiss, RobTimer.front, RobTimer.fetched, RobTimer.waiting]
        have hflag : (s.front trace).in_icache_miss = s.in_icache_miss := rfl
        rw [hfetched, hflag]
        cases hround with
        | stall hmiss hs' =>
          rw [if_pos hmiss, hs']
          rfl
        | full hmiss hfull hs' =>
          rw [if_neg hmiss, if_pos hfull, hs']
          rfl
        | mispredicted hmiss hfull hbranch hs' =>
          rw [if_neg hmiss, if_neg hfull, if_pos hbranch, hs']
          rfl
        | next hmiss hfull hbranch t₁ hs' =>
          rw [if_neg hmiss, if_neg hfull, if_neg (by simp [hbranch])]
          exact ih (trace ++ [.dispatched e.fetch s.now]) hs'

theorem dispatchLoop_braked {width t t'} (hzero : s.unresolved = 0)
    (h : dispatchLoop cfg width s t = .ok (s', t')) : Braked s' := by
  have hbraked : ∀ {s : RobTimer Reg K M}, s.unresolved = 0 → Braked s :=
    fun hzero => ⟨by omega, fun hne => absurd hzero hne⟩
  induction width generalizing s t with
  | zero => exact dispatchLoop_zero h ▸ hbraked hzero
  | succ width ih =>
    obtain ⟨-, rfl⟩ | ⟨-, e, he, hround⟩ := dispatchLoop_succ h
    · exact hbraked hzero
    · have hdispatch : (dispatch (s.fetched e.fetch) e).unresolved =
          if e.unresolved then 1 else 0 := by
        rw [dispatch_unresolved (s := s.fetched e.fetch) he]
        show s.unresolved + _ = _
        rw [hzero, Nat.zero_add]
      cases hround with
      | stall hmiss hs' | full hmiss hfull hs' => exact hs' ▸ hbraked hzero
      | mispredicted hmiss hfull hbranch hs' =>
        rw [hs']
        refine ⟨?_, fun _ => rfl⟩
        show (dispatch (s.fetched e.fetch) e).unresolved ≤ 1
        rw [hdispatch]
        split <;> omega
      | next hmiss hfull hbranch t₁ hs' =>
        refine ih ?_ hs'
        rw [hdispatch, if_neg (by simp [RobEntry.unresolved, hbranch])]

theorem doDispatch_braked {t} (hb : Braked s) (h : doDispatch cfg s = .ok (s', t)) :
    Braked s' := by
  rw [doDispatch] at h
  split at h
  case isTrue hstalled =>
    obtain ⟨⟨s₁, t₁⟩, hloop, h⟩ := of_bind_ok h
    cases h
    refine dispatchLoop_braked ?_ hloop
    by_contra hne
    rw [hb.stalled hne] at hstalled
    exact time_ne_top s.now (top_le_iff.mp hstalled)
  case isFalse =>
    cases h
    exact hb

theorem doDispatch_frontEnd {t} (trace : List FrontEvent) (h : doDispatch cfg s = .ok (s', t)) :
    s'.front (s.frontEnd cfg trace).trace = { s.frontEnd cfg trace with cpiFrontEnd := none } := by
  rw [doDispatch] at h
  rw [RobTimer.frontEnd]
  split at h
  case isTrue hstalled =>
    obtain ⟨⟨s₁, t₁⟩, hloop, h⟩ := of_bind_ok h
    cases h
    rw [if_pos hstalled]
    exact dispatchLoop_frontEnd trace hloop
  case isFalse hstalled =>
    cases h
    rw [if_neg hstalled]
    rfl

end Dispatch

end Sniper.Timing.Rob
