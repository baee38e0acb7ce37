import Sniper.Directory.Handlers
import Sniper.Memory.SetAssoc

/-! # A line in a last-level cache

The part of `CacheCntlr` of a last-level cache that talks to the directory, for one line. Its
`data` is what the caches above and the line hold together, so a store of a core with write
permission writes it.

A reply wakes the waiters one after the other, and the user thread of each runs in between, with
the stack lock, so the waking is a phase of its own: in `loop` the network thread looks at the
first waiter, and in `served` that waiter has had its access and is not dequeued yet. The network
thread handles no message and evicts nothing while it wakes; other cores may access the line while
it has no stack lock, in `served`.
-/
namespace Sniper.Protocol.LastLevelCache
open Directory.Handlers Memory.SetAssoc Lib.Simulation

inductive Phase where
  | idle | loop | served
  deriving DecidableEq

/-- A line of a last-level cache and `m_directory_waiters` of its address, each waiter with
its `exclusive`. -/
structure CacheLine (V : Type) where
  cstate : CState
  data : V
  waiters : List Bool
  phase : Phase

variable {V : Type}

/-- `CacheState::readable`. -/
def readable (s : CState) : Bool :=
  s = .MODIFIED || s = .OWNED || s = .SHARED || s = .EXCLUSIVE

def operationPermissibleinCache (x : CacheLine V) (exclusive : Bool) : Bool :=
  if exclusive then x.cstate = .MODIFIED else readable x.cstate

def processUpgradeReqToDirectory (x : CacheLine V) :
    Except String (CacheLine V × List (FromCache V)) :=
  if x.cstate = .SHARED then .ok ({ x with cstate := .SHARED_UPGRADING }, [.UPGRADE_REQ])
  else .error "cstate == CacheState::SHARED"

/-- `initiateDirectoryAccess`: the first waiter sends the request. -/
def initiateDirectoryAccess (x : CacheLine V) (exclusive : Bool) :
    Except String (CacheLine V × List (FromCache V)) :=
  let x := { x with waiters := x.waiters ++ [exclusive] }
  if x.waiters.length = 1 then
    if exclusive then
      if x.cstate = .SHARED then processUpgradeReqToDirectory x
      else if x.cstate = .INVALID then .ok (x, [.EX_REQ])
      else .error "cstate == CacheState::INVALID"
    else .ok (x, [.SH_REQ])
  else .ok (x, [])

/-- `processShmemReqFromPrevCache` at the last level: whether the access hits, and the
line. -/
def processShmemReqFromPrevCache (x : CacheLine V) (exclusive : Bool) :
    Except String (Bool × CacheLine V × List (FromCache V)) :=
  if operationPermissibleinCache x exclusive then .ok (true, x, [])
  else if x.cstate = .EXCLUSIVE then
    -- a silent upgrade
    .ok (true, { x with cstate := .MODIFIED }, [])
  else (initiateDirectoryAccess x exclusive).map (false, ·)

/-- The eviction in `insertCacheBlock` of another line; a line that is being upgraded is no
`isValidReplacement`. -/
def evict (x : CacheLine V) : Option (CacheLine V × FromCache V) :=
  match x.cstate with
  | .MODIFIED => some ({ x with cstate := .INVALID }, .FLUSH_REP x.data)
  | .SHARED | .EXCLUSIVE => some ({ x with cstate := .INVALID }, .INV_REP)
  | _ => none

/-- A reply with data: `insertCacheBlock`, and the waiters are woken. -/
def processRepFromDramDirectory (x : CacheLine V) (cstate : CState) (data : V) :
    Except String (CacheLine V × List (FromCache V)) :=
  if x.cstate = .INVALID then .ok ({ x with cstate, data, phase := .loop }, [])
  else .error "we already have this line, can't add it again"

def processUpgradeRepFromDramDirectory (x : CacheLine V) :
    Except String (CacheLine V × List (FromCache V)) :=
  match x.cstate with
  | .INVALID => .error "Trying to upgrade a block that is now INV and no data in the shmem_msg"
  | .SHARED_UPGRADING => .ok ({ x with cstate := .MODIFIED, phase := .loop }, [])
  | _ => .error "Trying to upgrade a block that is not SHARED_UPGRADING"

def processInvReqFromDramDirectory (x : CacheLine V) :
    Except String (CacheLine V × List (FromCache V)) :=
  match x.cstate with
  | .INVALID => .ok (x, [])
  | .MODIFIED => .error "MODIFIED data is about to get lost!"
  | _ => .ok ({ x with cstate := .INVALID }, [.INV_REP])

def processFlushReqFromDramDirectory (x : CacheLine V) :
    Except String (CacheLine V × List (FromCache V)) :=
  match x.cstate with
  | .INVALID => .ok (x, [])
  | _ => .ok ({ x with cstate := .INVALID }, [.FLUSH_REP x.data])

/-- `processWbReqFromDramDirectory`. A line that is being upgraded is not read, and the
reply carries `dataBuf`, whatever is on the stack. -/
def processWbReqFromDramDirectory (dataBuf : V) (x : CacheLine V) :
    Except String (CacheLine V × List (FromCache V)) :=
  match x.cstate with
  | .INVALID => .ok (x, [])
  | .SHARED_UPGRADING => .ok (x, [.WB_REP dataBuf])
  | _ => .ok ({ x with cstate := .SHARED }, [.WB_REP x.data])

/-- `handleMsgFromDramDirectory` up to the waking. A reply needs a waiter. -/
def handleMsgFromDramDirectory (dataBuf : V) (x : CacheLine V) :
    ToCache V → Except String (CacheLine V × List (FromCache V))
  | .EX_REP data =>
    if x.waiters = [] then .error "m_directory_waiters.front(address)"
    else processRepFromDramDirectory x .EXCLUSIVE data
  | .SH_REP data =>
    if x.waiters = [] then .error "m_directory_waiters.front(address)"
    else processRepFromDramDirectory x .SHARED data
  | .UPGRADE_REP =>
    if x.waiters = [] then .error "m_directory_waiters.front(address)"
    else processUpgradeRepFromDramDirectory x
  | .INV_REQ => processInvReqFromDramDirectory x
  | .FLUSH_REQ => processFlushReqFromDramDirectory x
  | .WB_REQ => processWbReqFromDramDirectory dataBuf x

/-- One turn of the waking loop. An exclusive waiter that finds the line shared makes it
send an upgrade request and ends the loop. -/
def wake (x : CacheLine V) : Except String (CacheLine V × List (FromCache V)) :=
  match x.phase with
  | .idle => .error "not waking"
  | .loop =>
    match x.waiters with
    | [] => .ok ({ x with phase := .idle }, [])
    | exclusive :: _ =>
      if exclusive ∧ x.cstate = .SHARED then
        processUpgradeReqToDirectory { x with phase := .idle }
      else do
        let (hit, x, sent) ← processShmemReqFromPrevCache x exclusive
        if hit then .ok ({ x with phase := .served }, sent)
        else .error "Tried to read in next-level cache, but data is already gone"
  | .served => .ok ({ x with waiters := x.waiters.tail, phase := .loop }, [])

/-- What a last-level cache does to a line, with the messages it sends. A message from the
directory is named; a store is a write of a core that holds the line MODIFIED. -/
inductive Step (x : CacheLine V) : Option (ToCache V) → Option V → CacheLine V →
    List (FromCache V) → Prop
  | access {exclusive hit x' sent} (hp : x.phase ≠ .loop)
      (h : processShmemReqFromPrevCache x exclusive = .ok (hit, x', sent)) :
      Step x none none x' sent
  | store (v : V) (hm : x.cstate = .MODIFIED) : Step x none (some v) { x with data := v } []
  | evict {x' msg} (hp : x.phase = .idle) (h : evict x = some (x', msg)) :
      Step x none none x' [msg]
  | wake {x' sent} (h : wake x = .ok (x', sent)) : Step x none none x' sent
  | receive {msg x' sent} (dataBuf : V) (hp : x.phase = .idle)
      (h : handleMsgFromDramDirectory dataBuf x msg = .ok (x', sent)) :
      Step x (some msg) none x' sent

/-! ## What a step can do -/

/-- The requests of the directory, which ask for a copy or its data. -/
def isAsk : ToCache V → Bool
  | .INV_REQ | .FLUSH_REQ | .WB_REQ => true
  | _ => false

/-- The ways a step can end, with what held before. -/
inductive Act (x : CacheLine V) : Option (ToCache V) → Option V → CacheLine V →
    List (FromCache V) → Prop
  | same : Act x none none x []
  | silent (hs : x.cstate = .EXCLUSIVE) : Act x none none { x with cstate := .MODIFIED } []
  | enqueue (exclusive : Bool) (hp : x.phase ≠ .loop) (hw : x.waiters ≠ []) :
      Act x none none { x with waiters := x.waiters ++ [exclusive] } []
  | upgrade (hp : x.phase ≠ .loop) (hw : x.waiters = []) (hs : x.cstate = .SHARED) :
      Act x none none { x with cstate := .SHARED_UPGRADING, waiters := [true] } [.UPGRADE_REQ]
  | fetchExclusive (hp : x.phase ≠ .loop) (hw : x.waiters = []) (hs : x.cstate = .INVALID) :
      Act x none none { x with waiters := [true] } [.EX_REQ]
  | fetchShared (hp : x.phase ≠ .loop) (hw : x.waiters = [])
      (hs : x.cstate = .INVALID ∨ x.cstate = .SHARED_UPGRADING) :
      Act x none none { x with waiters := [false] } [.SH_REQ]
  | store (v : V) (hs : x.cstate = .MODIFIED) : Act x none (some v) { x with data := v } []
  | evictDirty (hp : x.phase = .idle) (hs : x.cstate = .MODIFIED) :
      Act x none none { x with cstate := .INVALID } [.FLUSH_REP x.data]
  | evictClean (hp : x.phase = .idle) (hs : x.cstate = .SHARED ∨ x.cstate = .EXCLUSIVE) :
      Act x none none { x with cstate := .INVALID } [.INV_REP]
  | wakeDone (hp : x.phase = .loop) (hw : x.waiters = []) :
      Act x none none { x with phase := .idle } []
  | wakeUpgrade {rest} (hp : x.phase = .loop) (hw : x.waiters = true :: rest)
      (hs : x.cstate = .SHARED) :
      Act x none none { x with cstate := .SHARED_UPGRADING, phase := .idle } [.UPGRADE_REQ]
  | wakeServe {exclusive rest} (hp : x.phase = .loop) (hw : x.waiters = exclusive :: rest)
      (hs : operationPermissibleinCache x exclusive = true) :
      Act x none none { x with phase := .served } []
  | wakeSilent {exclusive rest} (hp : x.phase = .loop) (hw : x.waiters = exclusive :: rest)
      (hs : x.cstate = .EXCLUSIVE) :
      Act x none none { x with cstate := .MODIFIED, phase := .served } []
  | dequeue (hp : x.phase = .served) :
      Act x none none { x with waiters := x.waiters.tail, phase := .loop } []
  | fillExclusive (d : V) (hp : x.phase = .idle) (hw : x.waiters ≠ []) (hs : x.cstate = .INVALID) :
      Act x (some (.EX_REP d)) none { x with cstate := .EXCLUSIVE, data := d, phase := .loop } []
  | fillShared (d : V) (hp : x.phase = .idle) (hw : x.waiters ≠ []) (hs : x.cstate = .INVALID) :
      Act x (some (.SH_REP d)) none { x with cstate := .SHARED, data := d, phase := .loop } []
  | upgraded (hp : x.phase = .idle) (hw : x.waiters ≠ []) (hs : x.cstate = .SHARED_UPGRADING) :
      Act x (some .UPGRADE_REP) none { x with cstate := .MODIFIED, phase := .loop } []
  | ignore {msg} (hp : x.phase = .idle) (hm : isAsk msg) (hs : x.cstate = .INVALID) :
      Act x (some msg) none x []
  | invalidate (hp : x.phase = .idle) (hs : x.cstate ≠ .INVALID) (hm : x.cstate ≠ .MODIFIED) :
      Act x (some .INV_REQ) none { x with cstate := .INVALID } [.INV_REP]
  | flush (hp : x.phase = .idle) (hs : x.cstate ≠ .INVALID) :
      Act x (some .FLUSH_REQ) none { x with cstate := .INVALID } [.FLUSH_REP x.data]
  | writebackUpgrading (dataBuf : V) (hp : x.phase = .idle) (hs : x.cstate = .SHARED_UPGRADING) :
      Act x (some .WB_REQ) none x [.WB_REP dataBuf]
  | writeback (hp : x.phase = .idle) (hs : x.cstate ≠ .INVALID)
      (hu : x.cstate ≠ .SHARED_UPGRADING) :
      Act x (some .WB_REQ) none { x with cstate := .SHARED } [.WB_REP x.data]

variable {x x' : CacheLine V} {sent : List (FromCache V)}

theorem not_readable {s} (h : readable s = false) : s = .INVALID ∨ s = .SHARED_UPGRADING := by
  cases s <;> simp [readable] at h ⊢

theorem initiate_act {exclusive} (hp : x.phase ≠ .loop)
    (hnot : operationPermissibleinCache x exclusive = false)
    (h : initiateDirectoryAccess x exclusive = .ok (x', sent)) : Act x none none x' sent := by
  unfold initiateDirectoryAccess at h
  dsimp only at h
  split at h
  · rename_i hlen
    have hw : x.waiters = [] := by
      simpa using hlen
    split at h
    · rename_i he
      subst he
      split at h
      · rename_i hs
        unfold processUpgradeReqToDirectory at h
        rw [if_pos hs] at h
        cases h
        rw [hw]
        exact .upgrade hp hw hs
      · split at h
        · rename_i hs
          cases h
          rw [hw]
          exact .fetchExclusive hp hw hs
        · cases h
    · rename_i he
      have he' : exclusive = false := by simpa using he
      subst he'
      cases h
      rw [hw]
      exact .fetchShared hp hw (not_readable (by simpa [operationPermissibleinCache] using hnot))
  · rename_i hlen
    cases h
    refine .enqueue exclusive hp ?_
    intro hw
    rw [hw] at hlen
    exact hlen rfl

theorem access_act {exclusive hit} (hp : x.phase ≠ .loop)
    (h : processShmemReqFromPrevCache x exclusive = .ok (hit, x', sent)) :
    Act x none none x' sent := by
  unfold processShmemReqFromPrevCache at h
  split at h
  · cases h; exact .same
  · rename_i hnot
    split at h
    · rename_i hs; cases h; exact .silent hs
    · obtain ⟨y, hi, h⟩ := of_map_ok h
      cases h
      exact initiate_act hp (by simpa using hnot) hi

theorem evict_act {msg} (hp : x.phase = .idle) (h : evict x = some (x', msg)) :
    Act x none none x' [msg] := by
  unfold evict at h
  split at h
  · cases h; exact .evictDirty hp (by assumption)
  · cases h; exact .evictClean hp (.inl (by assumption))
  · cases h; exact .evictClean hp (.inr (by assumption))
  · cases h

theorem wake_act (h : wake x = .ok (x', sent)) : Act x none none x' sent := by
  unfold wake at h
  split at h
  · cases h
  · rename_i hp
    split at h
    · rename_i hw; cases h; exact .wakeDone hp hw
    · rename_i exclusive rest hw
      split at h
      · rename_i hc
        unfold processUpgradeReqToDirectory at h
        rw [if_pos (show _ = _ from hc.2)] at h
        cases h
        exact .wakeUpgrade hp (by rw [hw, hc.1]) hc.2
      · unfold processShmemReqFromPrevCache at h
        split at h
        · rename_i hperm
          cases h
          exact .wakeServe hp hw hperm
        · split at h
          · rename_i hs; cases h; exact .wakeSilent hp hw hs
          · cases hi : initiateDirectoryAccess x exclusive with
            | error e | ok y => simp [hi, Except.map, bind, Except.bind] at h
  · rename_i hp; cases h; exact .dequeue hp

theorem receive_act {msg dataBuf} (hp : x.phase = .idle)
    (h : handleMsgFromDramDirectory dataBuf x msg = .ok (x', sent)) :
    Act x (some msg) none x' sent := by
  cases msg with
  | EX_REP d =>
    simp only [handleMsgFromDramDirectory, processRepFromDramDirectory] at h
    split at h
    · cases h
    · split at h
      · cases h; exact .fillExclusive d hp (by assumption) (by assumption)
      · cases h
  | SH_REP d =>
    simp only [handleMsgFromDramDirectory, processRepFromDramDirectory] at h
    split at h
    · cases h
    · split at h
      · cases h; exact .fillShared d hp (by assumption) (by assumption)
      · cases h
  | UPGRADE_REP =>
    simp only [handleMsgFromDramDirectory, processUpgradeRepFromDramDirectory] at h
    split at h
    · cases h
    · split at h
      · cases h
      · cases h; exact .upgraded hp (by assumption) (by assumption)
      · cases h
  | INV_REQ =>
    simp only [handleMsgFromDramDirectory, processInvReqFromDramDirectory] at h
    split at h
    · cases h; exact .ignore hp rfl (by assumption)
    · cases h
    · cases h; exact .invalidate hp (by assumption) (by assumption)
  | FLUSH_REQ =>
    simp only [handleMsgFromDramDirectory, processFlushReqFromDramDirectory] at h
    split at h
    · cases h; exact .ignore hp rfl (by assumption)
    · cases h; exact .flush hp (by assumption)
  | WB_REQ =>
    simp only [handleMsgFromDramDirectory, processWbReqFromDramDirectory] at h
    split at h
    · cases h; exact .ignore hp rfl (by assumption)
    · cases h; exact .writebackUpgrading dataBuf hp (by assumption)
    · cases h; exact .writeback hp (by assumption) (by assumption)

theorem Step.act {msg w} (h : Step x msg w x' sent) :
    Act x msg w x' sent := by
  cases h with
  | access hp h => exact access_act hp h
  | store v hm => exact .store v hm
  | evict hp h => exact evict_act hp h
  | wake h => exact wake_act h
  | receive dataBuf hp h => exact receive_act hp h

end Sniper.Protocol.LastLevelCache
