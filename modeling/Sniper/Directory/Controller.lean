import Sniper.Directory.SetArray
import Sniper.Directory.Handlers

/-! # The directory controller

`DramDirectoryCntlr`: the directory cache, one request queue for each address, and the
handlers of `Handlers` run on the entry their line has, or is given, in the directory.

Making room for a line nullifies another one. That line's queue is then the nullify
request alone, so the `processNextReqFromL2Cache` at the end of an immediate nullify only
takes it off the queue; the other calls are the loop `serve`.
-/
namespace Sniper.Directory.Controller
open Directory.DirectoryEntry Directory.SetArray Directory.Handlers

structure Cntlr {A : Type} (G : Geometry A) (n : Nat) (V : Type) where
  cache : DirectoryCache G n
  queues : A → List (ShmemReq n V)

/-- The messages of a handler, with the line each is about. -/
abbrev Sends (A : Type) (n : Nat) (V : Type) := List (A × Send n V)

variable {A : Type} [DecidableEq A] {G : Geometry A} {n : Nat} {V : Type}

namespace Cntlr

def setQueue (st : Cntlr G n V) (a : A) (q : List (ShmemReq n V)) : Cntlr G n V :=
  { st with queues := Function.update st.queues a q }

/-- The line whose entry is at a location. -/
def lineAt (st : Cntlr G n V) (a : A) (loc : Loc G) : Except String (Line n V) :=
  match st.cache.slot? loc with
  | some s => .ok ⟨s.entry, st.queues a⟩
  | none => .error "directory_entry"

def putLine (st : Cntlr G n V) (a : A) (loc : Loc G) (l : Line n V) : Cntlr G n V :=
  { cache := st.cache.setEntry l.entry loc, queues := Function.update st.queues a l.queue }

/-- `getDirectoryEntry` where the entry has to be there. -/
def findEntry (st : Cntlr G n V) (a : A) : Except String (Loc G × Cntlr G n V) :=
  match st.cache.getDirectoryEntry a with
  | (some loc, cache) => .ok (loc, { st with cache })
  | (none, _) => .error "directory_entry"

/-- `processNullifyReq`: once the line is uncached, its entry is removed. -/
def processNullifyReq (st : Cntlr G n V) (a : A) :
    Except String (Cntlr G n V × Sends A n V × Bool) := do
  let (loc, st) ← st.findEntry a
  let l ← st.lineAt a loc
  let o ← Handlers.processNullifyReq l
  let st := st.putLine a loc o.line
  if o.next then
    let cache ← st.cache.invalidateDirectoryEntry a
    .ok ({ st with cache }, o.sent.map (a, ·), true)
  else .ok (st, o.sent.map (a, ·), false)

/-- The loop of `processDirectoryEntryAllocationReq`: of the candidates without queued
requests, the first one with the fewest sharers. -/
def replacementCandidate (st : Cntlr G n V) (set : Fin G.numSets) :
    List (Fin G.assoc) → Option (Fin G.assoc) → Option (Fin G.assoc)
  | [], best => best
  | i :: rest, best =>
    let slot := st.cache.ways set i
    let fewer : Bool := match best with
      | none => true
      | some b => (st.cache.ways set b).entry.getNumSharers > slot.entry.getNumSharers
    let unused : Bool := match slot.address with
      | none => true
      | some x => (st.queues x).length = 0
    replacementCandidate st set rest (if fewer && unused then some i else best)

/-- `processDirectoryEntryAllocationReq`: a new entry for `a` in place of another line's,
which is nullified. -/
def processDirectoryEntryAllocationReq (ch : Choice n V) (st : Cntlr G n V) (a : A)
    (requester : Fin n) : Except String (Cntlr G n V × Sends A n V) :=
  if (st.cache.getDirectoryEntry a).1.isSome then .error "getDirectoryEntry(address) == NULL"
  else
    let (candidates, cache) := st.cache.getReplacementCandidates a
    let st := { st with cache }
    match st.replacementCandidate (G.setIndex a) candidates none with
    | none => .error "Cannot find a directory entry to be replaced"
    | some i =>
      match (st.cache.ways (G.setIndex a) i).address with
      | none => .error "Should not reach here"
      | some replaced => do
        let cache ← st.cache.replaceDirectoryEntry replaced a ch.forwarder
        let st := { st with cache }.setQueue replaced
          (st.queues replaced ++ [ShmemReq.create .NULLIFY_REQ requester])
        if (st.queues replaced).length ≠ 1 then .error "size(replaced_address) == 1"
        else
          let (st, sent, next) ← st.processNullifyReq replaced
          .ok (if next then st.setQueue replaced [] else st, sent)

/-- The entry of a line that is being processed, allocated if it has none. -/
def getOrAllocate (ch : Choice n V) (st : Cntlr G n V) (a : A) (requester : Fin n) :
    Except String (Loc G × Cntlr G n V × Sends A n V) :=
  match st.cache.getDirectoryEntry a with
  | (some loc, cache) => .ok (loc, { st with cache }, [])
  | (none, _) => do
    let (st, sent) ← processDirectoryEntryAllocationReq ch st a requester
    let (loc, st) ← st.findEntry a
    .ok (loc, st, sent)

/-- The front request of a line is processed. -/
def processFront (cfg : Config) (ch : Choice n V) (st : Cntlr G n V) (a : A)
    (cachedDataBuf : Option V) : Except String (Cntlr G n V × Sends A n V × Bool) :=
  match st.queues a with
  | [] => .error "size(address) >= 1"
  | req :: _ =>
    if req.msgType = .NULLIFY_REQ then st.processNullifyReq a
    else do
      let (loc, st, sent) ← getOrAllocate ch st a req.requester
      let l ← st.lineAt a loc
      let o ← Handlers.processFront cfg ch cachedDataBuf l
      .ok (st.putLine a loc o.line, sent ++ o.sent.map (a, ·), o.next)

/-- `processNextReqFromL2Cache` with the front request taken off the queue: the rest is
processed until a request has to wait. -/
def serve (cfg : Config) (ch : Choice n V) (a : A) : List (ShmemReq n V) → Cntlr G n V →
    Except String (Cntlr G n V × Sends A n V)
  | [], st => .ok (st.setQueue a [], [])
  | req :: rest, st =>
    if req.msgType = .NULLIFY_REQ then .error "Unrecognized Request"
    else do
      let (st, sent, next) ← processFront cfg ch (st.setQueue a (req :: rest)) a none
      if next then
        let (st, more) ← serve cfg ch a rest st
        .ok (st, sent ++ more)
      else .ok (st, sent)

def processNextReqFromL2Cache (cfg : Config) (ch : Choice n V) (st : Cntlr G n V) (a : A) :
    Except String (Cntlr G n V × Sends A n V) :=
  match st.queues a with
  | [] => .error "size(address) >= 1"
  | _ :: rest => serve cfg ch a rest st

/-- What is left to do after the first part of a handler. -/
def finish (cfg : Config) (ch : Choice n V) (st : Cntlr G n V) (a : A) (sent : Sends A n V)
    (next : Bool) : Except String (Cntlr G n V × Sends A n V) :=
  if next then do
    let (st, more) ← processNextReqFromL2Cache cfg ch st a
    .ok (st, sent ++ more)
  else .ok (st, sent)

def perform (cfg : Config) (ch : Choice n V) (st : Cntlr G n V) (a : A) (sent : Sends A n V) :
    Action V → Except String (Cntlr G n V × Sends A n V)
  | .done => .ok (st, sent)
  | .process buf => do
    let (st, more, next) ← processFront cfg ch st a buf
    finish cfg ch st a (sent ++ more) next

def handleMsgFromL2Cache (cfg : Config) (ch : Choice n V) (sender : Fin n) (a : A)
    (msg : FromCache V) (st : Cntlr G n V) : Except String (Cntlr G n V × Sends A n V) :=
  -- the lookup that models the access time
  let (loc?, cache) := st.cache.getDirectoryEntry a
  let st := { st with cache }
  match msg.request? with
  | some msgType =>
    perform cfg ch (st.setQueue a (st.queues a ++ [ShmemReq.create msgType sender])) a []
      (if (st.queues a).length = 0 then .process none else .done)
  | none =>
    match loc? with
    | none => .error "directory_entry"
    | some loc => do
      let l ← st.lineAt a loc
      let r ← receiveReply ch sender l msg
      perform cfg ch (st.putLine a loc r.line) a (r.sent.map (a, ·)) r.action

def handleMsgFromDRAM (cfg : Config) (ch : Choice n V) (a : A) (data : V) (st : Cntlr G n V) :
    Except String (Cntlr G n V × Sends A n V) := do
  let (loc, st) ← st.findEntry a
  let l ← st.lineAt a loc
  let o ← processDRAMReply data l
  finish cfg ch (st.putLine a loc o.line) a (o.sent.map (a, ·)) o.next

end Cntlr
end Sniper.Directory.Controller
