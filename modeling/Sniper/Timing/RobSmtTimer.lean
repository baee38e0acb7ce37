import Sniper.Timing.RobTimer

/-! # The reorder buffers of an SMT core

`RobSmtTimer`: every hardware thread has a reorder buffer of its own, and they share the
reservation stations, the issue ports, the load and store queues and the clock. Micro-ops are
numbered when they come, and get their dependencies when they are dispatched. A thread issues
and commits as `RobTimer` does, on its view of the core. The statistics are left out.
-/
namespace Sniper.Timing.Rob

variable {n : Nat} {Reg K M : Type}

/-- A dependency of a load on a store that is replaced by those of the store. -/
structure Forward where
  load : Nat
  time : Nat
  producers : List Nat
  remaining : List Nat

/-- The store that `forward` finds for a micro-op that enters. -/
def forwardedFrom [DecidableEq Reg] (cfg : Config Reg K M) (s : RobTimer Reg K M)
    (uop : DynamicMicroOp Reg) : Except Stop (Option (RobEntry Reg)) := do
  let lowestValidSequenceNumber := (s.rob.headD (RobEntry.init uop uop.sequenceNumber)).seqnr
  let (_, uop) ←
    s.registerDependencies.setDependencies cfg.decoder uop lowestValidSequenceNumber
  let (_, uop) ← s.memoryDependencies.setDependencies uop lowestValidSequenceNumber
  if cfg.m_store_to_load_forwarding && uop.m_uop.isLoad then findStore s.rob uop.getDependencies
  else return none

def Forward.of [DecidableEq Reg] (cfg : Config Reg K M) (s : RobTimer Reg K M)
    (uop : DynamicMicroOp Reg) : List Forward :=
  match forwardedFrom cfg s uop with
  | .ok (some store) => [⟨uop.sequenceNumber, s.now, store.producers, store.uop.getDependencies⟩]
  | _ => []

/-- `RobSmtTimer::RobThread`, and whether its `SmtThread` runs. The queue `rob` of the source is
`rob`, its first `m_num_in_rob` entries, and `prerob`, those not dispatched yet. -/
structure RobThread (Reg : Type) where
  running : Bool
  now : Nat
  rob : List (RobEntry Reg)
  prerob : List (RobEntry Reg)
  nextSequenceNumber : Nat
  frontend_stalled_until : Time
  in_icache_miss : Bool
  next_event : Time
  registerDependencies : RegisterDependencies Reg
  memoryDependencies : MemoryDependencies
  log : List (Event Reg)
  forwards : List Forward

/-- The options; `dispatchWidth` and so on as for `RobTimer`. -/
structure SmtConfig (n : Nat) (Reg K M : Type) extends Config Reg K M where
  m_num_threads : Nat
  windowRepartition : Bool
  simultaneousIssue : Bool
  /-- `core->accessMemory` of each thread. -/
  cores : Fin n → M → Bool → Nat → Nat → Nat × HitWhere × M

/-- The options as a hardware thread has them. -/
def SmtConfig.thread (cfg : SmtConfig n Reg K M) (thread_num : Fin n) : Config Reg K M :=
  { cfg.toConfig with accessMemory := cfg.cores thread_num }

structure RobSmtTimer (n : Nat) (Reg K M : Type) where
  m_rob_threads : Fin n → RobThread Reg
  currentWindowSize : Nat
  dispatch_thread : Fin n
  issue_thread : Fin n
  now : Nat
  period : Nat
  last_store_done : Nat
  load_queue : ContentionModel
  store_queue : ContentionModel
  m_rs_entries_used : Nat
  contention : K
  memory : M

namespace RobSmtTimer
variable (s : RobSmtTimer n Reg K M)

/-- A hardware thread, with what it shares. The next micro-op is the first of `prerob`. -/
def view (thread_num : Fin n) : RobTimer Reg K M :=
  let thread := s.m_rob_threads thread_num
  { rob := thread.rob
    m_num_in_rob := thread.rob.length
    m_rs_entries_used := s.m_rs_entries_used
    contention := s.contention
    now := s.now
    period := s.period
    frontend_stalled_until := thread.frontend_stalled_until
    in_icache_miss := thread.in_icache_miss
    last_store_done := s.last_store_done
    load_queue := s.load_queue
    store_queue := s.store_queue
    nextSequenceNumber := thread.nextSequenceNumber - thread.prerob.length
    registerDependencies := thread.registerDependencies
    memoryDependencies := thread.memoryDependencies
    memory := s.memory
    log := thread.log }

def setThread (thread_num : Fin n) (thread : RobThread Reg) : RobSmtTimer n Reg K M :=
  { s with m_rob_threads := Function.update s.m_rob_threads thread_num thread }

/-- What has been done on the view is done to the core. -/
def put (thread_num : Fin n) (v : RobTimer Reg K M) : RobSmtTimer n Reg K M :=
  { s.setThread thread_num { s.m_rob_threads thread_num with
      rob := v.rob
      frontend_stalled_until := v.frontend_stalled_until
      in_icache_miss := v.in_icache_miss
      registerDependencies := v.registerDependencies
      memoryDependencies := v.memoryDependencies
      log := v.log } with
    last_store_done := v.last_store_done
    load_queue := v.load_queue
    store_queue := v.store_queue
    m_rs_entries_used := v.m_rs_entries_used
    contention := v.contention
    memory := v.memory }

/-- The threads from one on, in the order in which a loop visits them. -/
def threadsFrom [NeZero n] (first : Fin n) : List (Fin n) :=
  (List.finRange n).map (first + ·)

/-! ### The window -/

def computeCurrentWindowsize (cfg : SmtConfig n Reg K M) : RobSmtTimer n Reg K M :=
  { s with currentWindowSize :=
      if cfg.windowRepartition then
        let num_threads_awake := (List.finRange n).countP fun t => (s.m_rob_threads t).running
        if 0 < num_threads_awake then cfg.windowSize / num_threads_awake else cfg.windowSize
      else cfg.windowSize / cfg.m_num_threads }

def pushInstructions (cfg : SmtConfig n Reg K M) (thread_id : Fin n) :
    List (DynamicMicroOp Reg) → RobSmtTimer n Reg K M → Except Stop (RobSmtTimer n Reg K M)
  | [], s => .ok s
  | uop :: insts, s =>
    if uop.squashed then pushInstructions cfg thread_id insts s
    else
      let thread := s.m_rob_threads thread_id
      if cfg.windowSize + 255 ≤ thread.rob.length + thread.prerob.length then .error .assertion
      else pushInstructions cfg thread_id insts (s.setThread thread_id { thread with
        prerob := thread.prerob ++ [RobEntry.init uop thread.nextSequenceNumber]
        nextSequenceNumber := thread.nextSequenceNumber + 1 })

end RobSmtTimer

/-! ### Dependencies -/

/-- The loop over the dependencies: as in `RobTimer`, but a producer that has been committed is
to be removed, too. -/
def linkValid (lowestValidSequenceNumber sequenceNumber : Nat) :
    List Nat → List (RobEntry Reg) → List Nat → Time →
    Except Stop (List (RobEntry Reg) × List Nat × Time)
  | [], rob, deps_to_remove, readyMax => .ok (rob, deps_to_remove, readyMax)
  | dependency :: rest, rob, deps_to_remove, readyMax =>
    if dependency < lowestValidSequenceNumber then
      if deps_to_remove.length < 8 then
        linkValid lowestValidSequenceNumber sequenceNumber rest rob
          (deps_to_remove ++ [dependency]) readyMax
      else .error .overflow
    else do
      let prodEntry ← findEntryBySequenceNumber rob dependency
      if prodEntry.done = ⊤ then
        linkValid lowestValidSequenceNumber sequenceNumber rest
          (updateEntry rob dependency fun entry =>
            { entry with dependants := entry.dependants ++ [sequenceNumber] })
          deps_to_remove readyMax
      else if deps_to_remove.length < 8 then
        linkValid lowestValidSequenceNumber sequenceNumber rest rob
          (deps_to_remove ++ [dependency]) (max readyMax prodEntry.done)
      else .error .overflow

variable [DecidableEq Reg]

/-- `RobSmtTimer::setDependencies`, with `setStoreAddressProducers`. -/
def setDependencies (cfg : Config Reg K M) (v : RobTimer Reg K M) (entry : RobEntry Reg) :
    Except Stop (RobTimer Reg K M × RobEntry Reg) := do
  let lowestValidSequenceNumber := (v.rob.headD entry).seqnr
  let entry ← setAddress cfg.decoder v.registerDependencies v.rob lowestValidSequenceNumber entry
  let (registerDependencies, uop) ←
    v.registerDependencies.setDependencies cfg.decoder entry.uop lowestValidSequenceNumber
  let (memoryDependencies, uop) ←
    v.memoryDependencies.setDependencies uop lowestValidSequenceNumber
  let uop ← forward cfg.m_store_to_load_forwarding v.rob uop
  let producers := uop.getDependencies
  let (rob, deps_to_remove, readyMax) ←
    linkValid lowestValidSequenceNumber entry.seqnr producers v.rob [] entry.readyMax
  let uop ← removeDependencies deps_to_remove uop
  return ({ v with
    rob := rob
    registerDependencies := registerDependencies
    memoryDependencies := memoryDependencies },
    { entry with
      uop := uop
      readyMax := readyMax
      ready := if uop.getDependencies = [] then readyMax else entry.ready
      producers := producers.filter (lowestValidSequenceNumber ≤ ·) })

/-! ### Dispatch -/

/-- The variables of `tryDispatch`, and the forwards it makes. -/
structure Dispatch (Reg K M : Type) where
  timer : RobTimer Reg K M
  prerob : List (RobEntry Reg)
  next_event : Time
  uops_dispatched : Nat
  forwards : List Forward

/-- The first entry of `prerob` is dispatched. -/
def Dispatch.next (cfg : Config Reg K M) (d : Dispatch Reg K M) (entry : RobEntry Reg)
    (prerob : List (RobEntry Reg)) : Except Stop (Dispatch Reg K M) := do
  let (v, entry') ← setDependencies cfg d.timer entry
  let ready := max entry'.ready ((v.now + v.period : Nat) : Time)
  let entry' := { entry' with dispatched := v.now, ready := ready }
  return {
    timer := { v with
      rob := v.rob ++ [entry']
      m_num_in_rob := v.m_num_in_rob + 1
      m_rs_entries_used := v.m_rs_entries_used + 1
      nextSequenceNumber := v.nextSequenceNumber + 1
      log := .dispatched entry.seqnr ::
        .entered entry.seqnr entry'.uop.m_uop entry'.producers :: v.log }
    prerob := prerob
    next_event := min d.next_event ready
    uops_dispatched := d.uops_dispatched + 1
    forwards := Forward.of cfg d.timer entry.uop ++ d.forwards }

/-- The loop of `tryDispatch`, with the number of micro-ops it may still dispatch. -/
def dispatchThread (cfg : Config Reg K M) (currentWindowSize : Nat) :
    Nat → Dispatch Reg K M → Except Stop (Dispatch Reg K M)
  | width, d =>
    if currentWindowSize ≤ d.timer.m_num_in_rob then .ok d
    else
      match d.prerob with
      | [] => .error .assertion
      | entry :: prerob =>
        match width with
        | 0 => .ok d
        | width + 1 =>
          let iCacheMiss := entry.uop.iCacheHitWhere ≠ .L1I
          if iCacheMiss ∧ d.timer.in_icache_miss = false then
            .ok { d with timer := { d.timer with
              frontend_stalled_until :=
                ((d.timer.now + entry.uop.iCacheLatency * d.timer.period : Nat) : Time)
              in_icache_miss := true } }
          else
            let d := if iCacheMiss then { d with timer := { d.timer with in_icache_miss := false } }
              else d
            if d.timer.m_rs_entries_used = cfg.rsEntries then .ok d
            else do
              let d ← d.next cfg entry prerob
              if entry.uop.m_uop.branch && entry.uop.branchMispredicted then
                return { d with timer := { d.timer with frontend_stalled_until := ⊤ } }
              else dispatchThread cfg currentWindowSize width d

namespace RobSmtTimer

def tryDispatch (cfg : SmtConfig n Reg K M) (s : RobSmtTimer n Reg K M) (thread_num : Fin n)
    (next_event : Time) : Except Stop (RobSmtTimer n Reg K M × Bool × Time) := do
  let d ← dispatchThread (cfg.thread thread_num) s.currentWindowSize cfg.dispatchWidth
    ⟨s.view thread_num, (s.m_rob_threads thread_num).prerob, next_event, 0, []⟩
  let s := s.put thread_num d.timer
  let thread := s.m_rob_threads thread_num
  return (s.setThread thread_num { thread with
      prerob := d.prerob
      next_event := if d.uops_dispatched = 0 then thread.next_event
        else min thread.next_event d.next_event
      forwards := d.forwards ++ thread.forwards },
    decide (0 < d.uops_dispatched),
    if d.timer.m_num_in_rob < s.currentWindowSize then
      min d.timer.frontend_stalled_until d.next_event
    else d.next_event)

/-- `canExecute` of a thread: whether it may dispatch. -/
def mayDispatch (s : RobSmtTimer n Reg K M) (thread_num : Fin n) : Bool :=
  let thread := s.m_rob_threads thread_num
  decide (thread.frontend_stalled_until ≤ (s.now : Time)) && decide (thread.now ≤ s.now) &&
    decide (thread.rob.length < s.currentWindowSize) && thread.running

/-- The loop of `doDispatch`: the first thread that can dispatches. -/
def dispatchLoop (cfg : SmtConfig n Reg K M) : List (Fin n) → RobSmtTimer n Reg K M →
    Option (Fin n) → Time → Except Stop (RobSmtTimer n Reg K M × Option (Fin n) × Time)
  | [], s, dispatched_from, next_event => .ok (s, dispatched_from, next_event)
  | thread_num :: rest, s, dispatched_from, next_event =>
    if s.mayDispatch thread_num ∧ dispatched_from = none then do
      let (s, hasDispatched, next_event) ← s.tryDispatch cfg thread_num next_event
      dispatchLoop cfg rest s (if hasDispatched then some thread_num else none) next_event
    else dispatchLoop cfg rest s dispatched_from next_event

def doDispatch [NeZero n] (cfg : SmtConfig n Reg K M) (s : RobSmtTimer n Reg K M) :
    Except Stop (RobSmtTimer n Reg K M × Time) := do
  let thread_first := s.dispatch_thread
  let (s, dispatched_from, next_event) ← dispatchLoop cfg (threadsFrom thread_first) s none ⊤
  return ({ s with dispatch_thread := dispatched_from.getD thread_first + 1 }, next_event)

/-! ### Issue -/

/-- `tryIssue`: whether an instruction has issued shows in the reservation stations. -/
def tryIssue (cfg : SmtConfig n Reg K M) (s : RobSmtTimer n Reg K M) (thread_num : Fin n)
    (next_event : Time) : Except Stop (RobSmtTimer n Reg K M × Bool × Time) := do
  let (v, thread_next_event) ← issueLoop (cfg.thread thread_num)
    (s.m_rob_threads thread_num).rob.length 0 (s.view thread_num) ⟨0, ⊤, true, false, false, false⟩
  let hasIssued := decide (v.m_rs_entries_used < s.m_rs_entries_used)
  let s := s.put thread_num v
  return (s.setThread thread_num
    { s.m_rob_threads thread_num with next_event := thread_next_event },
    hasIssued, min next_event thread_next_event)

/-- The loop of `doIssue`, with the thread at which it ends. -/
def issueThreads (cfg : SmtConfig n Reg K M) (thread_first : Fin n) :
    List (Fin n) → RobSmtTimer n Reg K M → Time →
    Except Stop (RobSmtTimer n Reg K M × Fin n × Time)
  | [], s, next_event => .ok (s, thread_first, next_event)
  | thread_num :: rest, s, next_event =>
    if (s.m_rob_threads thread_num).next_event ≤ (s.now : Time) ∧
        (s.m_rob_threads thread_num).rob ≠ [] then do
      let (s, hasIssued, next_event) ← s.tryIssue cfg thread_num next_event
      if hasIssued && !cfg.simultaneousIssue then return (s, thread_num, next_event)
      else issueThreads cfg thread_first rest s next_event
    else issueThreads cfg thread_first rest s next_event

def doIssue [NeZero n] (cfg : SmtConfig n Reg K M) (s : RobSmtTimer n Reg K M) :
    Except Stop (RobSmtTimer n Reg K M × Time) := do
  let contention := match cfg.m_rob_contention with
    | some model => model.initCycle s.contention s.now
    | none => s.contention
  let (s, thread_num, next_event) ← issueThreads cfg s.issue_thread (threadsFrom s.issue_thread)
    { s with contention := contention } ⊤
  return ({ s with issue_thread := thread_num + 1 }, next_event)

/-! ### Commit -/

def commit (cfg : SmtConfig n Reg K M) (s : RobSmtTimer n Reg K M) (thread_num : Fin n) :
    RobSmtTimer n Reg K M :=
  s.put thread_num
    (commitLoop (cfg.thread thread_num) (s.view thread_num) (s.m_rob_threads thread_num).rob 0)

def doCommit [NeZero n] (cfg : SmtConfig n Reg K M) (s : RobSmtTimer n Reg K M) :
    RobSmtTimer n Reg K M × Time :=
  let s := (List.finRange n).foldl (commit cfg) s
  (s, ((s.m_rob_threads 0).rob.head?.map (·.done)).getD ⊤)

/-! ### Cycles -/

/-- `canExecute`: no thread that may dispatch has too few micro-ops. -/
def canExecute (cfg : SmtConfig n Reg K M) (s : RobSmtTimer n Reg K M) : Bool :=
  (List.finRange n).all fun thread_num =>
    !s.mayDispatch thread_num ||
      decide (2 * cfg.dispatchWidth ≤ (s.m_rob_threads thread_num).prerob.length)

def executeCycle [NeZero n] (cfg : SmtConfig n Reg K M) (s : RobSmtTimer n Reg K M) :
    Except Stop (RobSmtTimer n Reg K M) := do
  let (s, next_dispatch) ← s.doDispatch cfg
  let (s, next_issue) ← s.doIssue cfg
  let (s, next_commit) := s.doCommit cfg
  let skip := if 1 < n then s.period
    else match min next_dispatch (min next_issue next_commit) with
      | some event => if s.now + s.period < event then event - s.now else s.period
      | none => s.period
  return { s with now := s.now + skip }

/-- `synchronize`; the clock of the core goes on to that of the earliest thread. -/
def synchronize (s : RobSmtTimer n Reg K M) (thread_id : Fin n) (time : Nat) :
    RobSmtTimer n Reg K M :=
  let s := s.setThread thread_id { s.m_rob_threads thread_id with now := time }
  let earliest := ((List.finRange n).map fun t => (s.m_rob_threads t).now).min?
  { s with now := max s.now (earliest.getD 0) }

def returnLatency (s : RobSmtTimer n Reg K M) (thread_id : Fin n) :
    RobSmtTimer n Reg K M × Nat :=
  let thread := s.m_rob_threads thread_id
  (s.setThread thread_id { thread with now := max thread.now s.now }, s.now - thread.now)

end RobSmtTimer

/-! ### The system -/

/-- What is done with a timer. `execute` runs cycles as long as it can; `setRunning` is what
`SmtTimer` does when a thread starts or stops, and `setPeriod` a change of the frequency. -/
inductive SmtCall (n : Nat) (Reg : Type) where
  | pushInstructions (thread_id : Fin n) (insts : List (DynamicMicroOp Reg))
  | executeCycle
  | returnLatency (thread_id : Fin n)
  | synchronize (thread_id : Fin n) (time : Nat)
  | setRunning (thread_id : Fin n) (running : Bool)
  | notifyNumActiveThreadsChange
  | setPeriod (period : Nat)

namespace RobSmtTimer

def exec [NeZero n] (cfg : SmtConfig n Reg K M) (s : RobSmtTimer n Reg K M) :
    SmtCall n Reg → Except Stop (RobSmtTimer n Reg K M)
  | .pushInstructions thread_id insts => pushInstructions cfg thread_id insts s
  | .executeCycle => if s.canExecute cfg then s.executeCycle cfg else .ok s
  | .returnLatency thread_id => .ok (s.returnLatency thread_id).1
  | .synchronize thread_id time => .ok (s.synchronize thread_id time)
  | .setRunning thread_id running =>
    .ok (s.setThread thread_id { s.m_rob_threads thread_id with running := running })
  | .notifyNumActiveThreadsChange => .ok (s.computeCurrentWindowsize cfg)
  | .setPeriod period => .ok { s with period := period }

/-- New micro-ops, made by the decoder. -/
def Allowed (cfg : SmtConfig n Reg K M) : SmtCall n Reg → Prop
  | .pushInstructions _ insts =>
    ∀ uop ∈ insts, uop.m_uop.Decoded cfg.decoder ∧ uop.dependencies = []
  | .setPeriod period => 0 < period
  | _ => True

/-- After the constructor and the registration of the threads. -/
structure Init (cfg : SmtConfig n Reg K M) (s : RobSmtTimer n Reg K M) : Prop where
  threads : ∀ t, s.m_rob_threads t =
    ⟨false, 0, [], [], 0, 0, false, 0, fun _ => none, ⟨[], none⟩, [], []⟩
  window : s.currentWindowSize =
    if cfg.windowRepartition then cfg.windowSize else cfg.windowSize / cfg.m_num_threads
  rs_entries : s.m_rs_entries_used = 0
  now : s.now = 0
  period : 0 < s.period
  last_store : s.last_store_done = 0
  widths : 0 < cfg.dispatchWidth ∧ 0 < cfg.commitWidth

def Step [NeZero n] (cfg : SmtConfig n Reg K M) (s s' : RobSmtTimer n Reg K M) : Prop :=
  ∃ call, Allowed cfg call ∧ s.exec cfg call = .ok s'

end RobSmtTimer
end Sniper.Timing.Rob
