import Sniper.Directory.DirectoryEntry

/-! # What the directory does for one line

The functions of `DramDirectoryCntlr`, each on the entry and the request queue of the line it is
called for. A handler that ends in `processNextReqFromL2Cache` returns `next = true`; every such
call of the source is in tail position.

The address of a request is the key of the queue it waits in, and the requester of a reply is read
only for statistics, so neither is repeated in the messages. A NUCA cache is seen through what its
lookup returns (`Choice.nuca`); what is written back is a `DRAM_WRITE_REQ` here, and
`Memory.NucaCache` is about the slice that may hold it.
-/
namespace Sniper.Directory.Handlers
open Directory.DirectoryEntry

/-- The messages a last-level cache sends to the directory. -/
inductive FromCache (V : Type) where
  | EX_REQ | SH_REQ | UPGRADE_REQ | INV_REP
  | FLUSH_REP (data : V)
  | WB_REP (data : V)
  deriving DecidableEq

/-- The messages the directory sends to a last-level cache. -/
inductive ToCache (V : Type) where
  | EX_REP (data : V)
  | SH_REP (data : V)
  | UPGRADE_REP | INV_REQ | FLUSH_REQ | WB_REQ
  deriving DecidableEq

inductive ReqType where
  | EX_REQ | SH_REQ | UPGRADE_REQ | NULLIFY_REQ
  deriving DecidableEq

/-- `ShmemReq` with the message it copies. -/
structure ShmemReq (n : Nat) (V : Type) where
  msgType : ReqType
  requester : Fin n
  dataBuf : Option V
  waitForData : Bool
  forwardingFrom : Option (Fin n)

inductive Send (n : Nat) (V : Type) where
  | cache (receiver : Fin n) (msg : ToCache V)
  | DRAM_READ_REQ
  | DRAM_WRITE_REQ (data : V)

/-- The entry of a line and the requests queued for it; the front is being served. -/
structure Line (n : Nat) (V : Type) where
  entry : Entry n
  queue : List (ShmemReq n V)

/-- What a handler leaves: the line, the messages sent and whether the front request is
completed. -/
structure Outcome (n : Nat) (V : Type) where
  line : Line n V
  sent : List (Send n V)
  next : Bool

variable {n : Nat} {V : Type}

namespace ShmemReq

def create (msgType : ReqType) (requester : Fin n) : ShmemReq n V :=
  ⟨msgType, requester, none, false, none⟩

def isForwarding (r : ShmemReq n V) : Bool := r.forwardingFrom.isSome

end ShmemReq

namespace Line

def setDState (l : Line n V) (s : DState) : Line n V :=
  { l with entry := { l.entry with dstate := s } }

def setForwarder (l : Line n V) (f : Option (Fin n)) : Line n V :=
  { l with entry := { l.entry with forwarder := f } }

/-- An update of the request at the front of the queue. -/
def modifyFront (l : Line n V) (f : ShmemReq n V → ShmemReq n V) : Line n V :=
  match l.queue with
  | [] => l
  | r :: rest => { l with queue := f r :: rest }

end Line

/-- A message to each of a list of caches. -/
def sendAll (cs : List (Fin n)) (msg : ToCache V) : List (Send n V) := cs.map (.cache · msg)

/-- A message to `getOwner()`, which has to be a cache. -/
def sendOwner (l : Line n V) (msg : ToCache V) : Except String (Outcome n V) :=
  match l.entry.owner with
  | some o => .ok ⟨l, [.cache o msg], false⟩
  | none => .error "message to INVALID_CORE_ID"

def retrieveDataAndSendToL2Cache (cfg : Config) (ch : Choice n V) (reply : V → ToCache V)
    (receiver : Fin n) (cachedDataBuf : Option V) (l : Line n V) :
    Except String (Outcome n V) :=
  match cachedDataBuf with
  | some d =>
    -- the forwarder state moves to the last cache receiving a copy
    .ok ⟨l.setForwarder (some receiver), [.cache receiver (reply d)], true⟩
  | none =>
    match ch.nuca with
    | some d => .ok ⟨l, [.cache receiver (reply d)], true⟩
    | none =>
      match l.queue with
      | [] => .error "m_dram_directory_req_queue_list->size(address) > 0"
      | req :: _ =>
        match l.entry.forwarder with
        | some f =>
          if cfg.protocol = .MESIF ∧ req.forwardingFrom = none ∧ l.entry.dstate = .SHARED then
            .ok ⟨l.modifyFront ({ · with forwardingFrom := some f }), [.cache f .WB_REQ], false⟩
          else .ok ⟨l.modifyFront ({ · with waitForData := true }), [.DRAM_READ_REQ], false⟩
        | none => .ok ⟨l.modifyFront ({ · with waitForData := true }), [.DRAM_READ_REQ], false⟩

/-- `processExReqFromL2Cache` once the entry is there. -/
def processExReqFromL2Cache (cfg : Config) (ch : Choice n V) (req : ShmemReq n V)
    (cachedDataBuf : Option V) (l : Line n V) : Except String (Outcome n V) :=
  match l.entry.dstate with
  | .EXCLUSIVE | .MODIFIED =>
    -- the owner may have upgraded silently, so a FLUSH rather than an INV
    if cachedDataBuf.isSome then .error "cached_data_buf == NULL" else sendOwner l .FLUSH_REQ
  | .SHARED =>
    if cachedDataBuf.isSome then .error "cached_data_buf == NULL"
    else .ok ⟨l, sendAll l.entry.getSharersList .INV_REQ, false⟩
  | .UNCACHED => do
    let (added, entry) ← l.entry.addSharer cfg req.requester
    if !added then .error "add_result == true"
    else
      let entry ← entry.setOwner req.requester
      retrieveDataAndSendToL2Cache cfg ch .EX_REP req.requester cachedDataBuf
        ({ l with entry := entry }.setDState .MODIFIED)
  | .OWNED => .error "Unsupported Directory State"

/-- `processShReqFromL2Cache` once the entry is there. -/
def processShReqFromL2Cache (cfg : Config) (ch : Choice n V) (req : ShmemReq n V)
    (cachedDataBuf : Option V) (l : Line n V) : Except String (Outcome n V) :=
  match l.entry.dstate with
  | .EXCLUSIVE =>
    if l.entry.owner = some req.requester then
      .error "requester != directory_entry->getOwner()"
    else if cachedDataBuf.isSome then .error "cached_data_buf == NULL" else sendOwner l .WB_REQ
  | .MODIFIED =>
    if cachedDataBuf.isSome then .error "cached_data_buf == NULL" else sendOwner l .WB_REQ
  | .SHARED =>
    if l.entry.hasSharer req.requester then
      retrieveDataAndSendToL2Cache cfg ch .SH_REP req.requester cachedDataBuf l
    else do
      let (added, entry) ← l.entry.addSharer cfg req.requester
      if !added then
        let sharer ← entry.getOneSharer cfg ch
        .ok ⟨l, [.cache sharer .INV_REQ], false⟩
      else
        retrieveDataAndSendToL2Cache cfg ch .SH_REP req.requester cachedDataBuf
          { l with entry := entry }
  | .UNCACHED => do
    let (added, entry) ← l.entry.addSharer cfg req.requester
    if !added then .error "add_result == true"
    else
      let entry ← entry.setOwner req.requester
      if cfg.protocol = .MSI then
        retrieveDataAndSendToL2Cache cfg ch .SH_REP req.requester cachedDataBuf
          ({ l with entry := entry }.setDState .SHARED)
      else
        retrieveDataAndSendToL2Cache cfg ch .EX_REP req.requester cachedDataBuf
          ({ l with entry := entry }.setDState .EXCLUSIVE)
  | .OWNED => .error "Unsupported Directory State"

/-- The requests an upgrade sends to the other sharers. When the requester has lost its
copy, the first sharer is asked for its data. -/
def upgradeInvalidations (requester : Fin n) (e : Entry n) : List (Send n V) :=
  (e.getSharersList.zipIdx.filter (·.1 ≠ requester)).map fun (c, i) =>
    .cache c (if !e.hasSharer requester && i == 0 then .FLUSH_REQ else .INV_REQ)

/-- `processUpgradeReqFromL2Cache` once the entry is there. -/
def processUpgradeReqFromL2Cache (cfg : Config) (ch : Choice n V) (req : ShmemReq n V)
    (cachedDataBuf : Option V) (l : Line n V) : Except String (Outcome n V) :=
  match l.entry.dstate with
  | .EXCLUSIVE | .MODIFIED =>
    match l.entry.getSharersList with
    | [] => .error "sharers_list_pair.second[0]"
    | c :: _ =>
      if c = req.requester then
        if l.entry.owner = some req.requester then
          .ok ⟨l.setDState .MODIFIED, [.cache req.requester .UPGRADE_REP], true⟩
        else .error "directory_entry->getOwner() == requester"
      else sendOwner l .FLUSH_REQ
  | .SHARED =>
    if l.entry.getSharersList = [req.requester] then do
      let entry ← l.entry.setOwner req.requester
      .ok ⟨{ l with entry := entry }.setDState .MODIFIED,
        [.cache req.requester .UPGRADE_REP], true⟩
    else .ok ⟨l, upgradeInvalidations req.requester l.entry, false⟩
  | .UNCACHED =>
    if l.entry.getSharersList ≠ [] then .error "sharers_list_pair.second.size() == 0"
    else do
      let (added, entry) ← l.entry.addSharer cfg req.requester
      if !added then .error "add_result == true"
      else
        let entry ← entry.setOwner req.requester
        -- maybe the data is stored in the message already?
        retrieveDataAndSendToL2Cache cfg ch .EX_REP req.requester
          (cachedDataBuf <|> req.dataBuf) ({ l with entry := entry }.setDState .MODIFIED)
  | .OWNED => .error "Unsupported Directory State"

/-- `processNullifyReq`. The request is completed once the line is uncached, and its entry
is then removed. -/
def processNullifyReq (l : Line n V) : Except String (Outcome n V) :=
  match l.entry.dstate with
  | .EXCLUSIVE | .MODIFIED => sendOwner l .FLUSH_REQ
  | .SHARED => .ok ⟨l, sendAll l.entry.getSharersList .INV_REQ, false⟩
  | .UNCACHED => .ok ⟨l, [], true⟩
  | .OWNED => .error "Unsupported Directory State"

/-- The request at the front of the queue is processed. -/
def processFront (cfg : Config) (ch : Choice n V) (cachedDataBuf : Option V) (l : Line n V) :
    Except String (Outcome n V) :=
  match l.queue with
  | [] => .error "size(address) >= 1"
  | req :: _ =>
    match req.msgType with
    | .EX_REQ => processExReqFromL2Cache cfg ch req cachedDataBuf l
    | .SH_REQ => processShReqFromL2Cache cfg ch req cachedDataBuf l
    | .UPGRADE_REQ => processUpgradeReqFromL2Cache cfg ch req cachedDataBuf l
    | .NULLIFY_REQ => processNullifyReq l

/-! ## Messages -/

/-- What a message leaves to do: nothing, or the front request to process, with the data
the message brought. -/
inductive Action (V : Type) where
  | done
  | process (cachedDataBuf : Option V)

structure Received (n : Nat) (V : Type) where
  line : Line n V
  sent : List (Send n V)
  action : Action V

/-- The request a message from a cache carries, if it is one. -/
def FromCache.request? : FromCache V → Option ReqType
  | .EX_REQ => some .EX_REQ
  | .SH_REQ => some .SH_REQ
  | .UPGRADE_REQ => some .UPGRADE_REQ
  | _ => none

/-- `processInvRepFromL2Cache` up to the processing of the front request. -/
def processInvRepFromL2Cache (sender : Fin n) (l : Line n V) : Except String (Received n V) :=
  if l.entry.dstate ≠ .SHARED ∧ l.entry.dstate ≠ .EXCLUSIVE then .error "Ooops"
  else do
    let entry ← l.entry.removeSharer sender
    have entry := if entry.forwarder = some sender then { entry with forwarder := none }
      else entry
    have l := { l with entry :=
      if entry.getNumSharers = 0 then { entry with dstate := .UNCACHED } else entry }
    have process : Bool :=
      match l.queue with
      | [] => false
      | req :: _ =>
        match req.msgType with
        | .EX_REQ => l.entry.dstate = .UNCACHED
        | .UPGRADE_REQ =>
          (l.entry.getNumSharers = 1 && l.entry.hasSharer req.requester) ||
            l.entry.getNumSharers = 0
        | .SH_REQ =>
          -- a voluntary invalidate does not wake a request that waits for its data
          !req.waitForData && !(req.isForwarding && req.forwardingFrom != some sender)
        | .NULLIFY_REQ => l.entry.dstate = .UNCACHED
    .ok ⟨l, [], if process then .process none else .done⟩

/-- `processFlushRepFromL2Cache` up to the processing of the front request. Data stored in
an upgrade request outlive the message buffer they point into. -/
def processFlushRepFromL2Cache (ch : Choice n V) (sender : Fin n) (data : V) (l : Line n V) :
    Except String (Received n V) := do
  let entry ← l.entry.removeSharer sender
  let entry := { entry with forwarder := none, owner := none }
  if entry.getNumSharers ≠ 0 ∧ entry.dstate ≠ .SHARED then .error "getDState() == SHARED"
  else
    let l := { l with entry :=
      if entry.getNumSharers = 0 then { entry with dstate := .UNCACHED } else entry }
    match l.queue with
    | [] => .ok ⟨l, [.DRAM_WRITE_REQ data], .done⟩
    | req :: _ =>
      match req.msgType with
      | .EX_REQ => .ok ⟨l, [], .process (some data)⟩
      | .SH_REQ => .ok ⟨l, [.DRAM_WRITE_REQ data], .process (some data)⟩
      | .UPGRADE_REQ =>
        if l.entry.getNumSharers = 0 then .ok ⟨l, [], .process (some data)⟩
        else .ok ⟨l.modifyFront ({ · with dataBuf := some ch.freed }), [], .done⟩
      | .NULLIFY_REQ => .ok ⟨l, [.DRAM_WRITE_REQ data], .process none⟩

/-- `processWbRepFromL2Cache` up to the processing of the front request. -/
def processWbRepFromL2Cache (sender : Fin n) (data : V) (l : Line n V) :
    Except String (Received n V) :=
  if l.entry.hasSharer sender then
    let l := { l with entry := { l.entry with owner := none, dstate := .SHARED } }
    match l.queue with
    | [] => .error "Should not reach here"
    | req :: _ =>
      if req.msgType = .SH_REQ then .ok ⟨l, [], .process (some data)⟩
      else .error "getMsgType() == ShmemMsg::SH_REQ"
  else .error "directory_entry->hasSharer(sender)"

/-- The replies `handleMsgFromL2Cache` dispatches; a request is queued by the caller. -/
def receiveReply (ch : Choice n V) (sender : Fin n) (l : Line n V) :
    FromCache V → Except String (Received n V)
  | .INV_REP => processInvRepFromL2Cache sender l
  | .FLUSH_REP data => processFlushRepFromL2Cache ch sender data l
  | .WB_REP data => processWbRepFromL2Cache sender data l
  | _ => .error "a request is not a reply"

theorem FromCache.request?_ne {msg : FromCache V} {t : ReqType} (h : msg.request? = some t) :
    t ≠ .NULLIFY_REQ := by
  cases msg <;> cases h <;> simp

theorem receiveReply_types {ch : Choice n V} {sender : Fin n} {l : Line n V} {msg : FromCache V}
    {r : Received n V} (h : receiveReply ch sender l msg = .ok r) :
    r.line.queue.map (·.msgType) = l.queue.map (·.msgType) := by
  cases msg with
  | INV_REP =>
    simp only [receiveReply, processInvRepFromL2Cache, bind, Except.bind] at h
    split at h
    · cases h
    · split at h
      · cases h
      · cases h; rfl
  | FLUSH_REP data =>
    simp only [receiveReply, processFlushRepFromL2Cache, bind, Except.bind] at h
    split at h
    · cases h
    · split at h
      · cases h
      · generalize hl' : ({ l with entry := _ } : Line n V) = l' at h
        have hql : l'.queue = l.queue := by rw [← hl']
        split at h
        · cases h; rw [hql]
        · rename_i hq
          split at h
          · cases h; rw [hql]
          · cases h; rw [hql]
          · -- on the number of sharers, for the new state and then for the test
            split at h
            · split at h <;> cases h <;> simp [Line.modifyFront, hql, hq]
            · cases h; simp [Line.modifyFront, hql, hq]
          · cases h; rw [hql]
  | WB_REP data =>
    simp only [receiveReply, processWbRepFromL2Cache] at h
    split at h
    · split at h
      · cases h
      · split at h
        · cases h; rfl
        · cases h
    · cases h
  | EX_REQ | SH_REQ | UPGRADE_REQ => cases h

/-- `processDRAMReply`: the front request gets its data and is completed. -/
def processDRAMReply (data : V) (l : Line n V) : Except String (Outcome n V) :=
  match l.queue with
  | [] => .error "m_dram_directory_req_queue_list->size(address) >= 1"
  | req :: _ =>
    match req.msgType with
    | .SH_REQ =>
      match l.entry.dstate with
      | .EXCLUSIVE => .ok ⟨l, [.cache req.requester (.EX_REP data)], true⟩
      | .SHARED => .ok ⟨l, [.cache req.requester (.SH_REP data)], true⟩
      | _ => .error "curr_dstate == SHARED || curr_dstate == EXCLUSIVE"
    | .EX_REQ =>
      if l.entry.dstate = .MODIFIED then .ok ⟨l, [.cache req.requester (.EX_REP data)], true⟩
      else .error "curr_dstate == MODIFIED"
    | .UPGRADE_REQ => .ok ⟨l, [.cache req.requester (.EX_REP data)], true⟩
    | .NULLIFY_REQ => .error "Unsupported request type"

end Sniper.Directory.Handlers
