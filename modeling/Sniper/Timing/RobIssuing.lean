import Sniper.Timing.RobDiscipline

/-! # Issuing

What `issueInstruction` does to the timer, and that the scan of `doIssue` keeps the invariant:
it only issues what is ready.
-/
namespace Sniper.Timing.Rob
open Lib.Simulation DynamicMicroOp Function

variable {Reg K M : Type} {cfg : Config Reg K M} {s s' : RobTimer Reg K M}

/-! ### One instruction -/

theorem accessCache_eq (cfg : Config Reg K M) (s : RobTimer Reg K M) (uop : DynamicMicroOp Reg) :
    ∃ memory execLatency hit_where, uop.execLatency ≤ execLatency ∧
      accessCache cfg s uop = ({ s with memory := memory },
        { uop with execLatency := execLatency, dCacheHitWhere := hit_where }) := by
  rw [accessCache]
  split
  · exact ⟨_, _, _, Nat.le_add_right _ _, rfl⟩
  · exact ⟨s.memory, uop.execLatency, uop.dCacheHitWhere, Nat.le_refl _, rfl⟩

theorem enqueue_eq (s : RobTimer Reg K M) (uop : DynamicMicroOp Reg) : ∃ load_queue store_queue,
    enqueue s uop = { s with load_queue := load_queue, store_queue := store_queue } := by
  rw [enqueue]
  split
  · exact ⟨_, s.store_queue, rfl⟩
  · split
    · exact ⟨s.load_queue, _, rfl⟩
    · exact ⟨s.load_queue, s.store_queue, rfl⟩

/-- An entry that issues. -/
def RobEntry.issue (entry : RobEntry Reg) (uop : DynamicMicroOp Reg) (issued done : Nat) :
    RobEntry Reg :=
  { entry with uop := uop, issued := (issued : Time), done := (done : Time) }

/-- What `issueInstruction` does. -/
structure Issuing (s s' : RobTimer Reg K M) (e : RobEntry Reg) (issue : Issue Reg) : Prop where
  seqnr : issue.seqnr = e.seqnr
  uop : issue.uop = e.uop.m_uop
  producers : issue.producers = e.producers
  last_store_done : issue.last_store_done = s.last_store_done
  issued : issue.issued = s.now
  available : issue.issued ≤ issue.available ∧ issue.available ≤ issue.done
  latency : (issue.uop.isStore = true ∨ e.uop.execLatency ≠ 0) →
    s.now + s.period ≤ issue.available
  later : s.now + s.period ≤ issue.done
  address : issue.uop.isStore = true → issue.addressReady ≤ issue.ready
  last_store : if issue.uop.isStore then s.now + s.period ≤ s'.last_store_done
    else s'.last_store_done = s.last_store_done
  rob : ∃ uop, Same e.uop uop ∧ uop.getDependencies = e.uop.getDependencies ∧
    notifyAll e.seqnr issue.available e.dependants
      (updateEntry s.rob e.seqnr fun p => p.issue uop s.now issue.done) = .ok s'.rob
  num_in_rob : s'.m_num_in_rob = s.m_num_in_rob
  rs_entries : s'.m_rs_entries_used = s.m_rs_entries_used - 1
  next : s'.nextSequenceNumber = s.nextSequenceNumber
  memory : s'.memoryDependencies = s.memoryDependencies
  now : s'.now = s.now
  period : s'.period = s.period
  log : s'.log = .issued issue :: s.log

/-- The times and the entry that an issue sets, and the front end. -/
structure IssueTimes (cfg : Config Reg K M) (s s' : RobTimer Reg K M) (e : RobEntry Reg)
    (issue : Issue Reg) : Prop where
  store : issue.uop.isStore = true → issue.available = issue.done
  cycles : ∃ j k : Nat, issue.available = s.now + j * s.period ∧ issue.done = s.now + k * s.period
  icache : s'.in_icache_miss = s.in_icache_miss
  stalled : s'.frontend_stalled_until = if e.uop.m_uop.branch && e.uop.branchMispredicted then
      ((s.now + (cfg.misprediction_penalty - 2) * s.period : Nat) : Time)
    else s.frontend_stalled_until
  rob : ∃ execLatency hit_where, notifyAll e.seqnr issue.available e.dependants
    (updateEntry s.rob e.seqnr fun p => p.issue
      { e.uop with execLatency := execLatency, dCacheHitWhere := hit_where } s.now issue.done) =
        .ok s'.rob

theorem issueInstruction_spec {e t t'} (h : issueInstruction cfg s e t = .ok (s', t')) :
    ∃ issue, Issuing s s' e issue ∧ IssueTimes cfg s s' e issue ∧
      t' = min t (issue.done : Time) := by
  obtain ⟨memory, execLatency, hit_where, hle, haccess⟩ := accessCache_eq cfg s e.uop
  rw [issueInstruction, haccess] at h
  dsimp only at h
  obtain ⟨load_queue, store_queue, henqueue⟩ := enqueue_eq { s with memory := memory }
    { e.uop with execLatency := execLatency, dCacheHitWhere := hit_where }
  rw [henqueue] at h
  split at h
  case isTrue => cases h
  case isFalse haddress =>
    obtain ⟨rob, hnotify, h⟩ := of_bind_ok h
    cases h
    refine ⟨_, ⟨rfl, rfl, rfl, rfl, rfl, ?_, fun hlatency => ?_, ?_, fun hstore => ?_, ?_, ?_, rfl,
      rfl, rfl, rfl, rfl, rfl, rfl⟩, ⟨fun hstore => ?_, ?_, rfl, rfl, _, _, hnotify⟩,
      rfl⟩
    · dsimp only
      split
      · omega
      · omega
    · split
      case isTrue => exact Nat.le_refl _
      case isFalse hnot =>
        have hpos : 0 < execLatency :=
          Nat.lt_of_lt_of_le (Nat.pos_of_ne_zero (hlatency.resolve_left hnot)) hle
        exact Nat.add_le_add_left (Nat.le_mul_of_pos_left _ hpos) _
    · dsimp only
      split
      · omega
      · omega
    · by_contra hlt
      exact haddress ⟨hstore, hlt⟩
    · split
      · exact (Nat.add_le_add_right (Nat.le_add_right _ _) _).trans (le_max_right _ _)
      · rfl
    · have hintra := intraDependencies_congr e.uop
        { e.uop with execLatency := execLatency, dCacheHitWhere := hit_where } rfl rfl
      exact ⟨{ e.uop with execLatency := execLatency, dCacheHitWhere := hit_where }, ⟨rfl, rfl⟩,
        congrArg (· ++ e.uop.dependencies) (hintra _), hnotify⟩
    · exact (if_pos hstore).trans (if_pos hstore).symm
    · dsimp only
      split
      · exact ⟨1, 1, by rw [Nat.one_mul], by rw [Nat.one_mul]⟩
      · exact ⟨execLatency, execLatency + 1, rfl, by rw [Nat.succ_mul, Nat.add_assoc]⟩

theorem issueInstruction_ok {e t t'} (h : issueInstruction cfg s e t = .ok (s', t')) :
    ∃ issue, Issuing s s' e issue :=
  (issueInstruction_spec h).imp fun _ h => h.1

theorem Fed.issue {log unissued} {e : RobEntry Reg} (h : Fed log unissued e)
    {uop : DynamicMicroOp Reg} (hsame : Same e.uop uop)
    (hdeps : uop.getDependencies = e.uop.getDependencies) (issued done : Nat) :
    Fed log unissued (e.issue uop issued done) := by
  have hstore : uop.m_uop.isStore = true → e.uop.m_uop.isStore = true := by
    rw [hsame.m_uop]
    exact id
  refine ⟨fun p hp => ?_, fun hne => ?_, h.addressMax, fun hst => ?_, fun hst a ha hun => ?_,
    fun a ha => ?_⟩
  · exact (h.producers p hp).imp_left fun hp => by rwa [RobEntry.issue, hdeps]
  · rw [RobEntry.issue, hdeps]
    exact h.ready hne
  · rw [RobEntry.issue, hdeps]
    exact h.address (hstore hst)
  · rw [RobEntry.issue, hdeps]
    exact h.pending (hstore hst) a ha hun
  · rw [RobEntry.issue, RobEntry.seqnr, hsame.sequenceNumber]
    exact h.older a ha

/-! ### The address of a store -/

theorem findEntry_ne_address (rob : List (RobEntry Reg)) (x : Nat) :
    findEntryBySequenceNumber rob x ≠ .error .address := by
  rw [findEntryBySequenceNumber.eq_def]
  split
  · simp
  · split
    · simp
    · split
      · simp
      · split <;> simp

theorem removeDependency_ne_address (uop : DynamicMicroOp Reg) (x : Nat) :
    uop.removeDependency x ≠ .error .address := by
  have hpop : ∀ (n : Nat) (deps : List Nat), uop.popIntra x n deps ≠ .error .address := by
    intro n
    induction n with
    | zero => simp [popIntra]
    | succ n ih =>
      intro deps
      rw [popIntra]
      split
      · simp
      · split
        · exact ih _
        · simp
  rw [removeDependency]
  split
  · exact map_ne_error (hpop _ _)
  · refine map_ne_error ?_
    rw [swapRemove]
    split
    · simp
    · split
      · simp
      · split <;> simp

theorem addressPending_ne_address (rob : List (RobEntry Reg)) (producers : List Nat) :
    addressPending rob producers ≠ .error .address := by
  rw [addressPending.eq_def]
  split
  case h_1 => simp
  case h_2 front rest =>
    generalize false = pending
    induction producers generalizing pending with
    | nil => simp [pure, Except.pure]
    | cons a producers ih =>
      rw [List.foldlM_cons]
      refine bind_ne_error ?_ fun pending' _ => ih pending'
      split
      · simp
      · exact bind_ne_error (findEntry_ne_address _ _) fun _ _ => by simp [pure, Except.pure]

theorem resolve_ne_address (rob : List (RobEntry Reg)) (x cycle_depend : Nat)
    (e : RobEntry Reg) : resolve rob x cycle_depend e ≠ .error .address := by
  rw [resolve]
  split
  · exact bind_ne_error (addressPending_ne_address _ _) fun _ _ => by simp [pure, Except.pure]
  · simp [pure, Except.pure]

theorem notify_ne_address (rob : List (RobEntry Reg)) (x cycle_depend : Nat)
    (e : RobEntry Reg) : notify rob x cycle_depend e ≠ .error .address := by
  rw [notify]
  split
  · intro h
    cases h
  · exact bind_ne_error (removeDependency_ne_address _ _) fun _ _ => resolve_ne_address _ _ _ _

theorem notifyAll_ne_address {x cycle_depend dependants} (rob : List (RobEntry Reg)) :
    notifyAll x cycle_depend dependants rob ≠ .error .address := by
  induction dependants generalizing rob with
  | nil => nofun
  | cons dependant rest ih =>
    rw [notifyAll]
    exact bind_ne_error (findEntry_ne_address _ _) fun e _ =>
      bind_ne_error (notify_ne_address _ _ _ _) fun e' _ => ih _

theorem issueInstruction_ne_address {e t}
    (h : e.uop.m_uop.isStore = true → e.addressReady ≤ e.ready) :
    issueInstruction cfg s e t ≠ .error .address := by
  obtain ⟨memory, execLatency, hit_where, -, haccess⟩ := accessCache_eq cfg s e.uop
  rw [issueInstruction, haccess]
  dsimp only
  split
  case isTrue hlate => exact absurd (h hlate.1) hlate.2
  case isFalse => exact bind_ne_error (notifyAll_ne_address _) fun _ _ => nofun

/-! ### The scan -/

/-- What the order demands of an instruction that issues. -/
def InTurn (s : RobTimer Reg K M) (scan : Scan) (entry : RobEntry Reg) : Prop :=
  (entry.uop.m_uop.serializing || entry.uop.m_uop.m_membar) = true →
    scan.head_of_queue = true ∧ s.last_store_done ≤ s.now

theorem canIssue_issue {scan scan' e} (h : canIssue cfg s scan e = (.issue, scan')) :
    e.ready ≤ (s.now : Time) ∧ InTurn s scan e ∧ scan' = scan := by
  rw [canIssue] at h
  split at h
  case isTrue => cases h
  case isFalse hready =>
    refine ⟨not_lt.mp hready, ?_⟩
    have hhead : ∀ b : Bool, (b && decide (s.last_store_done ≤ s.now)) = true →
        b = true ∧ s.last_store_done ≤ s.now :=
      fun b hb => (Bool.and_eq_true_iff.mp hb).imp_right of_decide_eq_true
    split at h
    case isTrue => cases h
    case isFalse =>
      split at h
      case isTrue hser =>
        split at h
        case isTrue hat =>
          cases h
          exact ⟨fun _ => hhead _ hat, rfl⟩
        case isFalse => cases h
      case isFalse hser =>
        split at h
        case isTrue hmembar =>
          split at h
          case isTrue hat =>
            cases h
            exact ⟨fun _ => hhead _ hat, rfl⟩
          case isFalse => cases h
        case isFalse hmembar =>
          have hnot : InTurn s scan e := fun hor =>
            ((Bool.or_eq_true_iff.mp hor).elim hser hmembar).elim
          split at h
          · cases h
          split at h
          · cases h
          split at h
          · cases h
          split at h
          · cases h
          cases h
          exact ⟨hnot, rfl⟩

/-- Only the issue ports change. -/
def Contends (s s' : RobTimer Reg K M) : Prop := ∃ k, s' = { s with contention := k }

theorem tryIssue_contends (cfg : Config Reg K M) (s : RobTimer Reg K M) (e : RobEntry Reg) :
    Contends s (Rob.tryIssue cfg s e).2 := by
  rw [Rob.tryIssue]
  split
  · exact ⟨s.contention, rfl⟩
  · exact ⟨_, rfl⟩

/-- The instruction cannot be issued. -/
def HeldBack (cfg : Config Reg K M) (s : RobTimer Reg K M) (scan : Scan) (entry : RobEntry Reg) :
    Prop :=
  (canIssue cfg s scan entry).1 ≠ .issue ∨ (Rob.tryIssue cfg s entry).1 = false

theorem heldBack_next_event (scan : Scan) (e : RobEntry Reg) (t : Time) :
    HeldBack cfg s { scan with next_event := t } e ↔ HeldBack cfg s scan e := by
  have hfst : (canIssue cfg s { scan with next_event := t } e).1 = (canIssue cfg s scan e).1 := by
    simp only [canIssue, apply_ite Prod.fst]
  rw [HeldBack, HeldBack, hfst]

theorem issueLoop_succ (cfg : Config Reg K M) (count : Nat) (scan : Scan) {i e}
    (he : s.rob[i]? = some e) :
    (e.done ≠ ⊤ ∧ issueLoop cfg (count + 1) i s scan =
      issueLoop cfg count (i + 1) s { scan with next_event := min scan.next_event e.done }) ∨
    (e.done = ⊤ ∧ ∃ s₁ t, Contends s s₁ ∧ issueLoop cfg (count + 1) i s scan = .ok (s₁, t)) ∨
    (e.done = ⊤ ∧ ∃ s₁ scan₁, Contends s s₁ ∧ scan₁.head_of_queue = false ∧
      issueLoop cfg (count + 1) i s scan = issueLoop cfg count (i + 1) s₁ scan₁) ∨
    (e.done = ⊤ ∧ e.ready ≤ (s.now : Time) ∧ InTurn s scan e ∧ ¬ HeldBack cfg s scan e ∧
      ∃ s₁ t k, Contends s s₁ ∧
      issueLoop cfg (count + 1) i s scan = issueInstruction cfg s₁ e t >>= k ∧
      ∀ s₂ t₂, (∃ t, k (s₂, t₂) = .ok (s₂, t)) ∨
        ∃ scan₂, scan₂.head_of_queue = scan.head_of_queue ∧
          k (s₂, t₂) = issueLoop cfg count (i + 1) s₂ scan₂) := by
  by_cases hdone : e.done = ⊤
  · right
    rw [issueLoop.eq_def]
    dsimp only
    rw [he]
    dsimp only
    rw [if_neg (not_not.mpr hdone)]
    generalize hscan : ({ scan with next_event := min scan.next_event e.ready } : Scan) = scan₀
    have hhead : scan₀.head_of_queue = scan.head_of_queue := by rw [← hscan]
    rcases hcan : canIssue cfg s scan₀ e with ⟨decision, scan₁⟩
    cases decision with
    | stop => exact .inl ⟨hdone, s, _, ⟨s.contention, rfl⟩, rfl⟩
    | hold =>
      have hne : Decision.hold ≠ .issue := by decide
      simp only [if_neg hne]
      rw [if_neg Bool.false_ne_true]
      split
      · exact .inl ⟨hdone, s, _, ⟨s.contention, rfl⟩, rfl⟩
      · exact .inr (.inl ⟨hdone, s, _, ⟨s.contention, rfl⟩, rfl, rfl⟩)
    | issue =>
      obtain ⟨hready, hturn, rfl⟩ := canIssue_issue hcan
      have hcontends := tryIssue_contends cfg s e
      have hheld : (Rob.tryIssue cfg s e).1 = true → ¬ HeldBack cfg s scan e := by
        intro htried
        rw [← heldBack_next_event scan e (min scan.next_event e.ready), hscan]
        exact not_or.mpr ⟨not_not.mpr (by rw [hcan]), by rw [htried]; decide⟩
      dsimp only
      rw [if_pos rfl]
      generalize Rob.tryIssue cfg s e = tried at hcontends hheld
      obtain ⟨issued, s₁⟩ := tried
      cases issued with
      | false =>
        dsimp only
        rw [if_neg Bool.false_ne_true]
        split
        · exact .inl ⟨hdone, s₁, _, hcontends, rfl⟩
        · exact .inr (.inl ⟨hdone, s₁, _, hcontends, rfl, rfl⟩)
      | true =>
        refine .inr (.inr ⟨hdone, hready, fun hb => hhead ▸ hturn hb, hheld rfl, s₁, _, _, hcontends,
          rfl, fun s₂ t₂ => ?_⟩)
        dsimp only
        split
        · exact .inl ⟨_, rfl⟩
        · exact .inr ⟨{ scan₁ with num_issued := scan₁.num_issued + 1, next_event := t₂ }, hhead, rfl⟩
  · left
    refine ⟨hdone, ?_⟩
    rw [issueLoop.eq_def]
    simp only [he, if_pos hdone]
namespace Inv
variable {base : Nat}

theorem core_issue (h : Inv cfg base s) {i e} (he : s.rob[i]? = some e) {uop}
    (hsame : Same e.uop uop) (issued done : Nat) :
    (updateEntry s.rob e.seqnr fun p => p.issue uop issued done).map RobEntry.core =
      (s.rob.map RobEntry.core).set i { e.core with done := (done : Time) } := by
  refine List.ext_getElem? fun j => ?_
  rw [updateEntry, List.map_map, List.getElem?_map, List.getElem?_set, List.length_map]
  by_cases hij : i = j
  · subst hij
    rw [he, if_pos rfl, if_pos (List.getElem?_eq_some_iff.mp he).1]
    dsimp only [Option.map_some, Function.comp]
    rw [if_pos rfl]
    simp only [RobEntry.issue, RobEntry.core, RobEntry.seqnr, hsame.m_uop, hsame.sequenceNumber]
  · rw [if_neg hij, List.getElem?_map]
    cases hp : s.rob[j]? with
    | none => rfl
    | some p =>
      have hne : p.seqnr ≠ e.seqnr := by
        have hp := h.seqnr_of_getElem hp
        have he := h.seqnr_of_getElem he
        omega
      dsimp only [Option.map_some, Function.comp]
      rw [if_neg hne]

theorem issuing (h : Inv cfg base s) {i} {e : RobEntry Reg} (he : s.rob[i]? = some e)
    (hi : i < s.m_num_in_rob) (hdone : e.done = ⊤) (hready : e.ready ≤ (s.now : Time)) {issue}
    (hs' : Issuing s s' e issue) : Inv cfg base s' := by
  obtain ⟨uop, hsame, hdeps, hnotify⟩ := hs'.rob
  obtain ⟨owed, hlinked, howes⟩ := h.links
  have hmem : e ∈ s.rob := List.mem_of_getElem? he
  have hcores := h.core_issue he hsame s.now issue.done
  generalize hrob : (updateEntry s.rob e.seqnr fun p => p.issue uop s.now issue.done) = rob
    at hnotify hcores
  have hseq : ∀ p ∈ s.rob, p.seqnr = e.seqnr → (p.issue uop s.now issue.done).seqnr = e.seqnr :=
    fun p _ _ => hsame.sequenceNumber
  have hissued : ¬ Unissued (rob.map RobEntry.core) e.seqnr := by
    intro hun
    obtain ⟨p, hp, hpseq, hpdone⟩ := mem_of_unissued hun
    rw [← hrob] at hp
    obtain ⟨q, hq, rfl⟩ := mem_updateEntry.mp hp
    split at hpdone
    case isTrue => exact time_ne_top _ hpdone
    case isFalse hne =>
      rw [if_neg hne] at hpseq
      exact hne hpseq
  have hun : ∀ a, Unissued (rob.map RobEntry.core) a → Unissued (s.rob.map RobEntry.core) a := by
    intro a hun
    rw [hcores] at hun
    obtain ⟨c, hc, hca, hcdone⟩ := hun
    rcases List.mem_or_eq_of_mem_set hc with hc | rfl
    · exact ⟨c, hc, hca, hcdone⟩
    · exact absurd hcdone (time_ne_top _)
  have howed : update owed e.seqnr e.dependants = owed := by
    rw [update_eq_self_iff, howes e hmem, if_pos hdone]
  have hfed : ∀ p ∈ rob, Fed (.issued issue :: s.log) (Unissued (rob.map RobEntry.core)) p := by
    intro p hp
    rw [← hrob] at hp
    obtain ⟨q, hq, rfl⟩ := mem_updateEntry.mp hp
    have hq' : Fed (.issued issue :: s.log) (Unissued (rob.map RobEntry.core)) q :=
      (h.fed q hq).mono fun a _ ha => hun a ha
    split
    case isTrue heq =>
      obtain rfl := h.unique q hq e hmem heq
      exact hq'.issue hsame hdeps _ _
    case isFalse => exact hq'
  have hlinked' : Linked rob (update owed e.seqnr e.dependants) := by
    rw [howed, ← hrob]
    refine hlinked.modify fun p hp heq => ?_
    obtain rfl := h.unique p hp e hmem heq
    exact ⟨hsame.sequenceNumber, hdeps⟩
  have howes' : Owes rob (update owed e.seqnr []) := by
    intro p hp
    rw [← hrob] at hp
    obtain ⟨q, hq, rfl⟩ := mem_updateEntry.mp hp
    split
    case isTrue heq =>
      rw [hseq q hq heq, update_self]
      exact (if_neg (time_ne_top _)).symm
    case isFalse hne =>
      rw [update_of_ne hne]
      exact howes q hq
  have hunique : Unique rob := by
    rw [← hrob]
    exact h.unique.modify hseq
  obtain ⟨hframe, hlinked'', hfed'⟩ := notifyAll_ok hnotify hunique hlinked'
    ⟨issue, List.mem_cons_self .., hs'.seqnr, rfl⟩ hissued hfed
  obtain ⟨havailable, -⟩ := (h.fed e hmem).available hready
  refine ⟨?_, ⟨_, hlinked'', howes'.congr hframe⟩, ?_⟩
  · rw [core_of_frame hframe, hcores, hs'.num_in_rob, hs'.rs_entries, hs'.next, hs'.log]
    refine h.order.issue ?_ hi hdone hs'.seqnr hs'.uop hs'.producers hs'.available.2 ?_ hs'.address
    · rw [List.getElem?_map, he]
      rfl
    · rw [hs'.producers, hs'.issued]
      exact havailable
  · rw [hs'.log]
    exact hfed'

theorem issueLoop (h : Inv cfg base s) {count i} (hi : i + count ≤ s.m_num_in_rob) (scan : Scan) :
    Rob.issueLoop cfg count i s scan ≠ .error .address ∧
      ∀ s' t, Rob.issueLoop cfg count i s scan = .ok (s', t) → Inv cfg base s' := by
  induction count generalizing i s scan with
  | zero =>
    refine ⟨nofun, fun s' t hs' => ?_⟩
    cases hs'
    exact h
  | succ count ih =>
    have hcontends : ∀ {s₁}, Contends s s₁ → Inv cfg base s₁ ∧ s₁.rob = s.rob ∧
        s₁.m_num_in_rob = s.m_num_in_rob ∧ s₁.now = s.now := by
      intro s₁ hs₁
      obtain ⟨k, rfl⟩ := hs₁
      exact ⟨h.congr rfl rfl rfl rfl rfl, rfl, rfl, rfl⟩
    have hlt : i < s.rob.length := by
      have hfits := h.order.fits
      rw [List.length_map] at hfits
      omega
    obtain ⟨e, he⟩ : ∃ e, s.rob[i]? = some e := ⟨_, List.getElem?_eq_getElem hlt⟩
    rcases issueLoop_succ cfg count scan he with
      ⟨-, heq⟩ | ⟨-, s₁, t, hs₁, heq⟩ | ⟨-, s₁, scan₁, hs₁, -, heq⟩ |
      ⟨hdone, hready, -, -, s₁, t, k, hs₁, heq, hk⟩
    · rw [heq]
      exact ih h (by omega) _
    · rw [heq]
      refine ⟨nofun, fun s' t hs' => ?_⟩
      cases hs'
      exact (hcontends hs₁).1
    · rw [heq]
      obtain ⟨h₁, -, hnum, -⟩ := hcontends hs₁
      exact ih h₁ (by omega) _
    · obtain ⟨h₁, hrob, hnum, hnow⟩ := hcontends hs₁
      have hstore := ((h.fed e (List.mem_of_getElem? he)).available hready).2.1
      -- what follows an issue
      have hnext : ∀ s₂ t₂, issueInstruction cfg s₁ e t = .ok (s₂, t₂) →
          k (s₂, t₂) ≠ .error .address ∧ ∀ s' t', k (s₂, t₂) = .ok (s', t') → Inv cfg base s' := by
        intro s₂ t₂ hs₂
        obtain ⟨issue, hissue⟩ := issueInstruction_ok hs₂
        have h₂ : Inv cfg base s₂ :=
          h₁.issuing (by rw [hrob]; exact he) (by omega) hdone (hnow ▸ hready) hissue
        rcases hk s₂ t₂ with ⟨t', hstop⟩ | ⟨scan₂, -, hgo⟩
        · rw [hstop]
          refine ⟨nofun, fun s' t hs' => ?_⟩
          cases hs'
          exact h₂
        · rw [hgo]
          exact ih h₂ (by rw [hissue.num_in_rob, hnum]; omega) _
      rw [heq]
      refine ⟨bind_ne_error (issueInstruction_ne_address hstore) fun p hp => (hnext _ _ hp).1,
        fun s' t' hs' => ?_⟩
      obtain ⟨⟨s₂, t₂⟩, hs₂, hs'⟩ := of_bind_ok hs'
      exact (hnext s₂ t₂ hs₂).2 s' t' hs'

theorem doIssue (h : Inv cfg base s) : Rob.doIssue cfg s ≠ .error .address ∧
    ∀ s' t, Rob.doIssue cfg s = .ok (s', t) → Inv cfg base s' := by
  rw [Rob.doIssue]
  refine Inv.issueLoop ?_ ?_ _
  · exact h.congr rfl rfl rfl rfl rfl
  · simp

end Inv
end Sniper.Timing.Rob
