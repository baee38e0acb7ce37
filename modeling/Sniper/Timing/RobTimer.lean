import Mathlib.Algebra.Order.Monoid.WithTop
import Mathlib.Data.Nat.Order.Lemmas
import Sniper.Lib.Simulation
import Sniper.Timing.ContentionModel
import Sniper.Timing.MicroOp

/-! # The reorder buffer

`RobTimer`: micro-ops enter the reorder buffer with their dependencies, are dispatched, issued
and committed. Times are femtoseconds and `⊤` is `MaxTime`; 64 bits of them are five hours,
which is not reached. The issue ports, the memory behind the first-level cache and the decoder
are parameters. The statistics are left out.
-/
namespace Sniper.Timing.Rob

/-- `SubsecondTime`. -/
abbrev Time := WithTop Nat

@[simp] theorem time_ne_top (n : Nat) : (n : Time) ≠ ⊤ := WithTop.coe_ne_top

theorem time_le {m n : Nat} : (m : Time) ≤ (n : Time) ↔ m ≤ n := WithTop.coe_le_coe

theorem time_zero_le (t : Time) : 0 ≤ t := by
  cases t with
  | none => exact le_top
  | some n => exact time_le.mpr n.zero_le

variable {Reg K M : Type}

/-- `RobTimer::RobEntry`. A dependant is given by its sequence number; `producers` records the
dependencies with which the micro-op has entered. -/
structure RobEntry (Reg : Type) where
  uop : DynamicMicroOp Reg
  dependants : List Nat
  addressProducers : List Nat
  dispatched : Nat
  ready : Time
  readyMax : Time
  addressReady : Time
  addressReadyMax : Time
  issued : Time
  done : Time
  producers : List Nat

namespace RobEntry

def init (uop : DynamicMicroOp Reg) (sequenceNumber : Nat) : RobEntry Reg where
  uop := { uop with sequenceNumber := sequenceNumber }
  dependants := []
  addressProducers := []
  dispatched := 0
  ready := ⊤
  readyMax := 0
  addressReady := ⊤
  addressReadyMax := 0
  issued := ⊤
  done := ⊤
  producers := []

def seqnr (entry : RobEntry Reg) : Nat := entry.uop.sequenceNumber

end RobEntry

/-- `RobContention`: the issue ports. -/
structure RobContention (Reg K : Type) where
  initCycle : K → Nat → K
  tryIssue : K → DynamicMicroOp Reg → Bool × K
  noMore : K → Bool
  doIssue : K → DynamicMicroOp Reg → K

structure Config (Reg K M : Type) where
  dispatchWidth : Nat
  commitWidth : Nat
  windowSize : Nat
  rsEntries : Nat
  misprediction_penalty : Nat
  m_store_to_load_forwarding : Bool
  m_no_address_disambiguation : Bool
  inorder : Bool
  m_rob_contention : Option (RobContention Reg K)
  decoder : Decoder Reg
  /-- `Core::accessMemory`: whether it reads, the address and the time. -/
  accessMemory : M → Bool → Nat → Nat → Nat × HitWhere × M

/-- What happens when a micro-op issues. -/
structure Issue (Reg : Type) where
  seqnr : Nat
  uop : MicroOp Reg
  producers : List Nat
  ready : Time
  addressReady : Time
  /-- `last_store_done` before. -/
  last_store_done : Nat
  issued : Nat
  /-- `cycle_depend`, when the result is available. -/
  available : Nat
  /-- `cycle_done`. -/
  done : Nat

inductive Event (Reg : Type) where
  | entered (seqnr : Nat) (uop : MicroOp Reg) (producers : List Nat)
  | dispatched (seqnr : Nat)
  | issued (issue : Issue Reg)
  | committed (seqnr : Nat)

/-- The timer; `log` lists what has happened to the micro-ops, the latest first. -/
structure RobTimer (Reg K M : Type) where
  rob : List (RobEntry Reg)
  m_num_in_rob : Nat
  m_rs_entries_used : Nat
  contention : K
  now : Nat
  period : Nat
  frontend_stalled_until : Time
  in_icache_miss : Bool
  last_store_done : Nat
  load_queue : ContentionModel
  store_queue : ContentionModel
  nextSequenceNumber : Nat
  registerDependencies : RegisterDependencies Reg
  memoryDependencies : MemoryDependencies
  memory : M
  log : List (Event Reg)

/-- `RobTimer::findEntryBySequenceNumber`. -/
def findEntryBySequenceNumber (rob : List (RobEntry Reg)) (sequenceNumber : Nat) :
    Except Stop (RobEntry Reg) :=
  match rob with
  | [] => .error .assertion
  | front :: _ =>
    if sequenceNumber < front.seqnr then .error .assertion
    else
      match rob[sequenceNumber - front.seqnr]? with
      | none => .error .assertion
      | some entry => if entry.seqnr = sequenceNumber then .ok entry else .error .assertion

/-- What is done to the entry that a pointer points to. -/
def updateEntry (rob : List (RobEntry Reg)) (sequenceNumber : Nat)
    (f : RobEntry Reg → RobEntry Reg) : List (RobEntry Reg) :=
  rob.map fun entry => if entry.seqnr = sequenceNumber then f entry else entry

/-! ### Entering the reorder buffer -/

/-- The loop over the address registers of a store. -/
def readAddress [DecidableEq Reg] (decoder : Decoder Reg) (producers : RegisterDependencies Reg)
    (rob : List (RobEntry Reg)) (lowestValidSequenceNumber : Nat) :
    List Reg → RobEntry Reg → Except Stop (RobEntry Reg)
  | [], entry => .ok entry
  | reg :: rest, entry =>
    match producers.peekProducer decoder reg lowestValidSequenceNumber with
    | none => readAddress decoder producers rob lowestValidSequenceNumber rest entry
    | some addressProducer => do
      let prodEntry ← findEntryBySequenceNumber rob addressProducer
      readAddress decoder producers rob lowestValidSequenceNumber rest
        (if prodEntry.done = ⊤ then
          { entry with addressProducers := entry.addressProducers ++ [addressProducer] }
        else { entry with addressReadyMax := max entry.addressReadyMax prodEntry.done })

def setAddress [DecidableEq Reg] (decoder : Decoder Reg) (producers : RegisterDependencies Reg)
    (rob : List (RobEntry Reg)) (lowestValidSequenceNumber : Nat) (entry : RobEntry Reg) :
    Except Stop (RobEntry Reg) := do
  if entry.uop.m_uop.isStore then
    let entry ← readAddress decoder producers rob lowestValidSequenceNumber
      entry.uop.m_uop.addressRegisters entry
    if entry.addressProducers = [] then
      return { entry with addressReady := entry.addressReadyMax }
    else return entry
  else return entry

/-- The first dependency on a store. -/
def findStore (rob : List (RobEntry Reg)) : List Nat → Except Stop (Option (RobEntry Reg))
  | [] => .ok none
  | dependency :: rest => do
    let prodEntry ← findEntryBySequenceNumber rob dependency
    if prodEntry.uop.m_uop.isStore then return some prodEntry else findStore rob rest

def addDependencies : List Nat → DynamicMicroOp Reg → Except Stop (DynamicMicroOp Reg)
  | [], uop => .ok uop
  | dependency :: rest, uop => do addDependencies rest (← uop.addDependency dependency)

/-- Store-to-load forwarding: the load depends on the producers of the stored value. -/
def forward (store_to_load_forwarding : Bool) (rob : List (RobEntry Reg))
    (uop : DynamicMicroOp Reg) : Except Stop (DynamicMicroOp Reg) := do
  if store_to_load_forwarding && uop.m_uop.isLoad then
    match ← findStore rob uop.getDependencies with
    | none => return uop
    | some prodEntry =>
      addDependencies prodEntry.uop.getDependencies (← uop.removeDependency prodEntry.seqnr)
  else return uop

/-- The loop over the dependencies: a producer that has issued is to be removed, and else gets
a dependant. -/
def link (sequenceNumber : Nat) : List Nat → List (RobEntry Reg) → List Nat → Time →
    Except Stop (List (RobEntry Reg) × List Nat × Time)
  | [], rob, deps_to_remove, readyMax => .ok (rob, deps_to_remove, readyMax)
  | dependency :: rest, rob, deps_to_remove, readyMax => do
    let prodEntry ← findEntryBySequenceNumber rob dependency
    if prodEntry.done = ⊤ then
      link sequenceNumber rest
        (updateEntry rob dependency fun entry =>
          { entry with dependants := entry.dependants ++ [sequenceNumber] })
        deps_to_remove readyMax
    else if deps_to_remove.length < 8 then
      link sequenceNumber rest rob (deps_to_remove ++ [dependency]) (max readyMax prodEntry.done)
    else .error .overflow

def removeDependencies : List Nat → DynamicMicroOp Reg → Except Stop (DynamicMicroOp Reg)
  | [], uop => .ok uop
  | dependency :: rest, uop => do removeDependencies rest (← uop.removeDependency dependency)

variable [DecidableEq Reg]

/-- The body of the loop of `simulate` over the micro-ops. -/
def enter (cfg : Config Reg K M) (s : RobTimer Reg K M) (uop : DynamicMicroOp Reg) :
    Except Stop (RobTimer Reg K M) := do
  if uop.squashed then return s
  if cfg.windowSize + 255 ≤ s.rob.length then throw .assertion
  let entry := RobEntry.init uop s.nextSequenceNumber
  let lowestValidSequenceNumber := (s.rob.headD entry).seqnr
  let entry ← setAddress cfg.decoder s.registerDependencies s.rob lowestValidSequenceNumber entry
  let (registerDependencies, uop) ←
    s.registerDependencies.setDependencies cfg.decoder entry.uop lowestValidSequenceNumber
  let (memoryDependencies, uop) ←
    s.memoryDependencies.setDependencies uop lowestValidSequenceNumber
  let uop ← forward cfg.m_store_to_load_forwarding s.rob uop
  let producers := uop.getDependencies
  let (rob, deps_to_remove, readyMax) ←
    link s.nextSequenceNumber producers s.rob [] entry.readyMax
  let uop ← removeDependencies deps_to_remove uop
  let entry := { entry with
    uop := uop
    readyMax := readyMax
    ready := if uop.getDependencies = [] then readyMax else entry.ready
    producers := producers }
  return { s with
    rob := rob ++ [entry]
    nextSequenceNumber := s.nextSequenceNumber + 1
    registerDependencies := registerDependencies
    memoryDependencies := memoryDependencies
    log := .entered s.nextSequenceNumber uop.m_uop producers :: s.log }

/-! ### Dispatch -/

def dispatch (s : RobTimer Reg K M) (entry : RobEntry Reg) : RobTimer Reg K M :=
  { s with
    rob := updateEntry s.rob entry.seqnr fun entry =>
      { entry with
        dispatched := s.now
        ready := max entry.ready ((s.now + s.period : Nat) : Time) }
    m_num_in_rob := s.m_num_in_rob + 1
    m_rs_entries_used := s.m_rs_entries_used + 1
    log := .dispatched entry.seqnr :: s.log }

/-- The loop of `doDispatch`, with the number of micro-ops it may still dispatch. -/
def dispatchLoop (cfg : Config Reg K M) :
    Nat → RobTimer Reg K M → Time → Except Stop (RobTimer Reg K M × Time)
  | width, s, next_event =>
    if cfg.windowSize ≤ s.m_num_in_rob then .ok (s, next_event)
    else
      match s.rob[s.m_num_in_rob]? with
      | none => .error .assertion
      | some entry =>
        match width with
        | 0 => .ok (s, next_event)
        | width + 1 =>
          let iCacheMiss := entry.uop.iCacheHitWhere ≠ .L1I
          if iCacheMiss ∧ s.in_icache_miss = false then
            .ok ({ s with
              frontend_stalled_until := ((s.now + entry.uop.iCacheLatency * s.period : Nat) : Time)
              in_icache_miss := true }, next_event)
          else
            let s := if iCacheMiss then { s with in_icache_miss := false } else s
            if s.m_rs_entries_used = cfg.rsEntries then .ok (s, next_event)
            else
              let next_event :=
                min next_event (max entry.ready ((s.now + s.period : Nat) : Time))
              let s := dispatch s entry
              if entry.uop.m_uop.branch && entry.uop.branchMispredicted then
                .ok ({ s with frontend_stalled_until := ⊤ }, next_event)
              else dispatchLoop cfg width s next_event

def doDispatch (cfg : Config Reg K M) (s : RobTimer Reg K M) :
    Except Stop (RobTimer Reg K M × Time) := do
  let (s, next_event) ←
    if s.frontend_stalled_until ≤ (s.now : Time) then dispatchLoop cfg cfg.dispatchWidth s ⊤
    else .ok (s, ⊤)
  return (s, if s.m_num_in_rob = cfg.windowSize then next_event
    else min s.frontend_stalled_until next_event)

/-! ### Issue -/

/-- The address producers of a store that are still in the reorder buffer and have not issued. -/
def addressPending (rob : List (RobEntry Reg)) (addressProducers : List Nat) :
    Except Stop Bool :=
  match rob with
  | [] => .error .assertion
  | front :: _ =>
    addressProducers.foldlM (fun pending addressProducer =>
      if addressProducer < front.seqnr then .ok pending
      else do
        let prodEntry ← findEntryBySequenceNumber rob addressProducer
        return pending || decide (prodEntry.done = ⊤)) false

/-- Whether the address of a dependant has been produced. -/
def resolve (rob : List (RobEntry Reg)) (sequenceNumber cycle_depend : Nat)
    (depEntry : RobEntry Reg) : Except Stop (RobEntry Reg) := do
  if depEntry.uop.m_uop.isStore ∧ depEntry.addressReady = ⊤ then
    let pending ← addressPending rob depEntry.addressProducers
    let addressReadyMax :=
      if sequenceNumber ∈ depEntry.addressProducers then
        max depEntry.addressReadyMax (cycle_depend : Time)
      else depEntry.addressReadyMax
    return { depEntry with
      addressReadyMax := addressReadyMax
      addressReady := if pending then ⊤ else addressReadyMax }
  else return depEntry

/-- A dependant learns that its producer has issued. -/
def notify (rob : List (RobEntry Reg)) (sequenceNumber cycle_depend : Nat)
    (depEntry : RobEntry Reg) : Except Stop (RobEntry Reg) := do
  if depEntry.uop.getDependencies = [] then throw .assertion
  let readyMax := max depEntry.readyMax (cycle_depend : Time)
  let uop ← depEntry.uop.removeDependency sequenceNumber
  resolve rob sequenceNumber cycle_depend { depEntry with
    uop := uop
    readyMax := readyMax
    ready := if uop.getDependencies = [] then readyMax else depEntry.ready }

def notifyAll (sequenceNumber cycle_depend : Nat) :
    List Nat → List (RobEntry Reg) → Except Stop (List (RobEntry Reg))
  | [], rob => .ok rob
  | dependant :: rest, rob => do
    let depEntry ← findEntryBySequenceNumber rob dependant
    let depEntry ← notify rob sequenceNumber cycle_depend depEntry
    notifyAll sequenceNumber cycle_depend rest (updateEntry rob dependant fun _ => depEntry)

/-- `SubsecondTime::divideRounded`. -/
def divideRounded (lhs rhs : Nat) : Nat := (lhs + (rhs / 2 + 1)) / rhs

/-- The memory access of `issueInstruction`. -/
def accessCache (cfg : Config Reg K M) (s : RobTimer Reg K M) (uop : DynamicMicroOp Reg) :
    RobTimer Reg K M × DynamicMicroOp Reg :=
  if (uop.m_uop.isLoad || uop.m_uop.isStore) && uop.dCacheHitWhere = .UNKNOWN then
    let (latency, hit_where, memory) :=
      cfg.accessMemory s.memory uop.m_uop.isLoad uop.address s.now
    ({ s with memory := memory },
      { uop with
        execLatency := uop.execLatency + divideRounded latency s.period
        dCacheHitWhere := hit_where })
  else (s, uop)

/-- The use of the load or store queue. -/
def enqueue (s : RobTimer Reg K M) (uop : DynamicMicroOp Reg) : RobTimer Reg K M :=
  let delay := uop.execLatency * s.period
  if uop.m_uop.isLoad then
    { s with load_queue := (s.load_queue.getCompletionTime s.now delay uop.address).2 }
  else if uop.m_uop.isStore then
    { s with store_queue := (s.store_queue.getCompletionTime s.now delay uop.address).2 }
  else s

def issueInstruction (cfg : Config Reg K M) (s : RobTimer Reg K M) (entry : RobEntry Reg)
    (next_event : Time) : Except Stop (RobTimer Reg K M × Time) := do
  let (s, uop) := accessCache cfg s entry.uop
  let s := enqueue s uop
  let isStore := uop.m_uop.isStore
  let result := s.now + uop.execLatency * s.period
  if isStore ∧ ¬ entry.addressReady ≤ entry.ready then throw .address
  let cycle_depend := if isStore then s.now + s.period else result
  let cycle_done := if isStore then s.now + s.period else result + s.period
  let last_store_done := if isStore then max s.last_store_done (result + s.period)
    else s.last_store_done
  let contention := match cfg.m_rob_contention with
    | some model => model.doIssue s.contention uop
    | none => s.contention
  let rob := updateEntry s.rob entry.seqnr fun entry =>
    { entry with uop := uop, issued := (s.now : Time), done := (cycle_done : Time) }
  let rob ← notifyAll entry.seqnr cycle_depend entry.dependants rob
  let issue : Issue Reg :=
    { seqnr := entry.seqnr, uop := uop.m_uop, producers := entry.producers
      ready := entry.ready, addressReady := entry.addressReady
      last_store_done := s.last_store_done
      issued := s.now, available := cycle_depend, done := cycle_done }
  return ({ s with
    rob := rob
    last_store_done := last_store_done
    contention := contention
    m_rs_entries_used := s.m_rs_entries_used - 1
    frontend_stalled_until :=
      if uop.m_uop.branch && uop.branchMispredicted then
        ((s.now + (cfg.misprediction_penalty - 2) * s.period : Nat) : Time)
      else s.frontend_stalled_until
    log := .issued issue :: s.log }, min next_event (cycle_done : Time))

/-- The variables of `doIssue`. -/
structure Scan where
  num_issued : Nat
  next_event : Time
  head_of_queue : Bool
  no_more_load : Bool
  no_more_store : Bool
  have_unresolved_store : Bool

inductive Decision where
  | issue
  | hold
  /-- Nothing behind is looked at. -/
  | stop
  deriving DecidableEq

/-- Whether an instruction can be issued, structural hazards apart. -/
def canIssue (cfg : Config Reg K M) (s : RobTimer Reg K M) (scan : Scan) (entry : RobEntry Reg) :
    Decision × Scan :=
  let uop := entry.uop.m_uop
  let at_head := scan.head_of_queue && decide (s.last_store_done ≤ s.now)
  if (s.now : Time) < entry.ready then (.hold, scan)
  else if scan.no_more_load && uop.isLoad || scan.no_more_store && uop.isStore then (.hold, scan)
  else if uop.serializing then (if at_head then .issue else .stop, scan)
  else if uop.m_membar then
    if at_head then (.issue, scan)
    else (.hold, { scan with no_more_load := true, no_more_store := true })
  else if cfg.m_rob_contention.isNone && scan.num_issued = cfg.dispatchWidth then (.hold, scan)
  else if uop.isLoad && !s.load_queue.hasFreeSlot s.now then (.hold, scan)
  else if uop.isLoad && cfg.m_no_address_disambiguation && scan.have_unresolved_store then
    (.hold, scan)
  else if uop.isStore && (!scan.head_of_queue || !s.store_queue.hasFreeSlot s.now) then
    (.hold, scan)
  else (.issue, scan)

def tryIssue (cfg : Config Reg K M) (s : RobTimer Reg K M) (entry : RobEntry Reg) :
    Bool × RobTimer Reg K M :=
  match cfg.m_rob_contention with
  | none => (true, s)
  | some model =>
    let (issued, contention) := model.tryIssue s.contention entry.uop
    (issued, { s with contention := contention })

/-- Whether the scan ends after an instruction. -/
def noMore (cfg : Config Reg K M) (s : RobTimer Reg K M) (scan : Scan) : Bool :=
  match cfg.m_rob_contention with
  | some model => model.noMore s.contention
  | none => scan.num_issued = cfg.dispatchWidth

/-- An instruction that is not issued holds back some of those behind it. -/
def holdBack (s : RobTimer Reg K M) (scan : Scan) (entry : RobEntry Reg) : Scan :=
  { scan with
    head_of_queue := false
    have_unresolved_store := scan.have_unresolved_store ||
      entry.uop.m_uop.isStore && decide ((s.now : Time) < entry.addressReady) }

/-- The loop of `doIssue` over so many positions of the reorder buffer. -/
def issueLoop (cfg : Config Reg K M) :
    Nat → Nat → RobTimer Reg K M → Scan → Except Stop (RobTimer Reg K M × Time)
  | 0, _, s, scan => .ok (s, scan.next_event)
  | count + 1, i, s, scan =>
    match s.rob[i]? with
    | none => .error .assertion
    | some entry =>
      if entry.done ≠ ⊤ then
        issueLoop cfg count (i + 1) s { scan with next_event := min scan.next_event entry.done }
      else
        let scan := { scan with next_event := min scan.next_event entry.ready }
        match canIssue cfg s scan entry with
        | (.stop, scan) => .ok (s, scan.next_event)
        | (decision, scan) =>
          let (issued, s) := if decision = .issue then tryIssue cfg s entry else (false, s)
          if issued then do
            let (s, next_event) ← issueInstruction cfg s entry scan.next_event
            let scan := { scan with num_issued := scan.num_issued + 1, next_event := next_event }
            if noMore cfg s scan then return (s, scan.next_event)
            else issueLoop cfg count (i + 1) s scan
          else
            let scan := holdBack s scan entry
            if cfg.inorder || noMore cfg s scan then .ok (s, scan.next_event)
            else issueLoop cfg count (i + 1) s scan

def doIssue (cfg : Config Reg K M) (s : RobTimer Reg K M) :
    Except Stop (RobTimer Reg K M × Time) :=
  let contention := match cfg.m_rob_contention with
    | some model => model.initCycle s.contention s.now
    | none => s.contention
  issueLoop cfg s.m_num_in_rob 0 { s with contention := contention }
    ⟨0, ⊤, true, false, false, false⟩

/-! ### Commit -/

/-- The loop of `doCommit`, with the number of micro-ops committed so far. -/
def commitLoop (cfg : Config Reg K M) (s : RobTimer Reg K M) :
    List (RobEntry Reg) → Nat → RobTimer Reg K M
  | [], _ => { s with rob := [] }
  | front :: rob, num_committed =>
    if front.done ≤ (s.now : Time) then
      let s := { s with
        rob := rob
        m_num_in_rob := s.m_num_in_rob - 1
        log := .committed front.seqnr :: s.log }
      if num_committed + 1 = cfg.commitWidth then s
      else commitLoop cfg s rob (num_committed + 1)
    else { s with rob := front :: rob }

def doCommit (cfg : Config Reg K M) (s : RobTimer Reg K M) : RobTimer Reg K M × Time :=
  let s := commitLoop cfg s s.rob 0
  (s, (s.rob.head?.map (·.done)).getD ⊤)

/-! ### Cycles -/

/-- The three stages of `execute`, and the next event. -/
def cycle (cfg : Config Reg K M) (s : RobTimer Reg K M) :
    Except Stop (RobTimer Reg K M × Time) := do
  let (s, next_dispatch) ← doDispatch cfg s
  let (s, next_issue) ← doIssue cfg s
  let (s, next_commit) := doCommit cfg s
  return (s, min next_dispatch (min next_issue next_commit))

/-- There are too few micro-ops to dispatch. -/
def starved (cfg : Config Reg K M) (s : RobTimer Reg K M) : Bool :=
  decide (s.frontend_stalled_until ≤ (s.now : Time)) &&
    decide (s.rob.length < s.m_num_in_rob + 2 * cfg.dispatchWidth)

/-- `execute`, with its latency. -/
def execute (cfg : Config Reg K M) (s : RobTimer Reg K M) :
    Except Stop (RobTimer Reg K M × Nat) := do
  if starved cfg s then return (s, 0)
  let (s, next_event) ← cycle cfg s
  let skip := match next_event with
    | some event => if s.now + s.period < event then event - s.now else s.period
    | none => s.period
  return ({ s with now := s.now + skip }, skip)

/-! ### The system -/

/-- What is done with a timer. `setPeriod` is a change of the frequency. -/
inductive Call (Reg : Type) where
  | enter (uop : DynamicMicroOp Reg)
  | execute
  | synchronize (time : Nat)
  | setPeriod (period : Nat)

def exec (cfg : Config Reg K M) (s : RobTimer Reg K M) :
    Call Reg → Except Stop (RobTimer Reg K M)
  | .enter uop => enter cfg s uop
  | .execute => (execute cfg s).map (·.1)
  | .synchronize time => .ok { s with now := time }
  | .setPeriod period => .ok { s with period := period }

/-- A new micro-op, made by the decoder. -/
def Allowed (cfg : Config Reg K M) : Call Reg → Prop
  | .enter uop => uop.m_uop.Decoded cfg.decoder ∧ uop.dependencies = []
  | .execute => True
  | .synchronize _ => True
  | .setPeriod period => 0 < period

structure Init (cfg : Config Reg K M) (s : RobTimer Reg K M) : Prop where
  rob : s.rob = []
  num_in_rob : s.m_num_in_rob = 0
  rs_entries : s.m_rs_entries_used = 0
  now : s.now = 0
  period : 0 < s.period
  stalled : s.frontend_stalled_until = 0
  icache : s.in_icache_miss = false
  last_store : s.last_store_done = 0
  next : s.nextSequenceNumber = 0
  registers : ∀ r, s.registerDependencies r = none
  memory : s.memoryDependencies = ⟨[], none⟩
  log : s.log = []
  widths : 0 < cfg.dispatchWidth ∧ 0 < cfg.commitWidth

def Step (cfg : Config Reg K M) (s s' : RobTimer Reg K M) : Prop :=
  ∃ call, Allowed cfg call ∧ exec cfg s call = .ok s'

end Sniper.Timing.Rob
