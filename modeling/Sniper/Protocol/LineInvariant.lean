import Sniper.Protocol.Exchange
import Sniper.Directory.Outcomes

/-! # The invariant of a line

What holds of one line of the whole system: its directory entry and queue, the caches with
their channels and the reads on their way to DRAM. Every cache fits what the directory
records about it, and when the directory waits, the answer it waits for is on its way.
-/
namespace Sniper.Protocol.LineInvariant
open Directory.DirectoryEntry Directory.Handlers
open Protocol.CacheInvariant

variable {n : Nat} {V : Type}

/-- An entry has the sharers its state stands for. -/
structure Shaped (e : Entry n) : Prop where
  uncached : e.dstate = .UNCACHED ↔ e.sharers = ∅
  owned : e.dstate = .EXCLUSIVE ∨ e.dstate = .MODIFIED →
    ∃ o, e.owner = some o ∧ e.sharers = {o}
  notOwned : e.dstate ≠ .OWNED

/-- The line has one owner, which is `c`. -/
def owns (e : Entry n) (c : Fin n) : Bool :=
  (e.dstate = .EXCLUSIVE || e.dstate = .MODIFIED) && e.owner = some c

/-! ## What the directory records about a cache -/

def requestsOf (c : Fin n) (q : List (ShmemReq n V)) : List ReqType :=
  (q.filter fun r => r.requester = c && r.msgType ≠ .NULLIFY_REQ).map (·.msgType)

/-- The cache's request is in front, has made it a sharer and waits for the data. -/
def pending (q : List (ShmemReq n V)) (c : Fin n) : Bool :=
  match q with
  | [] => false
  | r :: _ => r.requester = c && (r.waitForData || r.isForwarding)

/-- An upgrade of a cache that has lost its copy is in front. -/
def gathers (l : Line n V) : Bool :=
  match l.queue with
  | [] => false
  | r :: _ => r.msgType = .UPGRADE_REQ && l.entry.dstate = .SHARED &&
      r.requester ∉ l.entry.sharers

/-- The front request waits for the data of `c`. -/
def wbWait (l : Line n V) (c : Fin n) : Bool :=
  match l.queue with
  | [] => false
  | r :: _ => r.msgType = .SH_REQ && !r.waitForData && c ∈ l.entry.sharers &&
      (owns l.entry c || r.forwardingFrom = some c)

/-- The front request may have asked `c` to flush its copy. -/
def flushing (l : Line n V) (c : Fin n) : Bool :=
  match l.queue with
  | [] => false
  | r :: _ => r.msgType ≠ .SH_REQ && !r.waitForData && (owns l.entry c || gathers l)

/-- The record about a cache, with `rest` while the directory waits; while it handles a
message, what it waited for has come. -/
def seen (rest : Bool) (l : Line n V) (c : Fin n) : Seen where
  sharer := c ∈ l.entry.sharers
  pending := pending l.queue c
  requests := requestsOf c l.queue
  excl := owns l.entry c
  wbWait := rest && wbWait l c
  flushing := rest && flushing l c
  gathers := rest && gathers l
  wbSharer := by
    cases hq : l.queue <;> simp +contextual [wbWait, hq]
  wbOrFlush := by
    cases hq : l.queue <;> simp +contextual [wbWait, flushing, hq]
  flushOwner := by
    cases hq : l.queue <;> simp +contextual [flushing, hq]

theorem seen_calm (l : Line n V) (c : Fin n) : (seen false l c).Calm := ⟨rfl, rfl, rfl⟩

/-! ## The invariant -/

/-- A request that nothing was done for. -/
structure Fresh (r : ShmemReq n V) : Prop where
  waitForData : r.waitForData = false
  forwardingFrom : r.forwardingFrom = none

/-- The data structure has room for two sharers. -/
def Roomy (cfg : Config) (n : Nat) : Prop :=
  cfg.directoryType = .LIMITLESS ∨ 1 < Entry.getMaxHwSharers cfg n

/-- The forwarder of a shared line has a copy, or one is on its way. -/
def Forwardable (cfg : Config) (l : Line n V) : Prop :=
  cfg.protocol = .MESIF → l.entry.dstate = .SHARED → Roomy cfg n →
    ∀ f, l.entry.forwarder = some f → f ∈ l.entry.sharers ∧ pending l.queue f = false

/-- What holds of a line whether the directory waits or handles a message. -/
structure Common (rest : Bool) (l : Line n V) (x : Fin n → Cell V) : Prop where
  shaped : Shaped l.entry
  tail : ∀ r ∈ l.queue.tail, Fresh r ∧ r.msgType ≠ .NULLIFY_REQ
  waits : ∀ r ∈ l.queue.head?, r.waitForData = true → r.requester ∈ l.entry.sharers ∧
    (r.msgType = .SH_REQ ∧ (l.entry.dstate = .SHARED ∨ l.entry.dstate = .EXCLUSIVE) ∨
      (r.msgType = .EX_REQ ∨ r.msgType = .UPGRADE_REQ) ∧ l.entry.dstate = .MODIFIED)
  forwards : ∀ r ∈ l.queue.head?, r.isForwarding = true →
    r.msgType = .SH_REQ ∧ l.entry.dstate = .SHARED ∧ r.requester ∈ l.entry.sharers
  fits : ∀ c, Fits (seen rest l c) (x c)

/-- What the front request waits for is on its way. -/
def Awaits (l : Line n V) (x : Fin n → Cell V) (r : ShmemReq n V) : Prop :=
  match r.msgType with
  | .EX_REQ | .NULLIFY_REQ => l.entry.sharers ≠ ∅ ∧ ∀ s ∈ l.entry.sharers, (x s).Asked
  | .UPGRADE_REQ => (∃ s ∈ l.entry.sharers, s ≠ r.requester) ∧
      ∀ s ∈ l.entry.sharers, s ≠ r.requester → (x s).Asked
  | .SH_REQ =>
    match r.forwardingFrom with
    | some f => f ∈ l.entry.sharers ∧ f ≠ r.requester ∧ (x f).AskedWb
    | none => r.requester ∉ l.entry.sharers ∧
        ((∃ o, owns l.entry o ∧ (x o).AskedWb) ∨
          l.entry.dstate = .SHARED ∧ ∃ s ∈ l.entry.sharers, (x s).Asked)

/-- A line whose directory waits. -/
structure Settled (cfg : Config) (l : Line n V) (x : Fin n → Cell V) (reads : Nat) : Prop
    extends Common true l x where
  forwarder : Forwardable cfg l
  awaits : ∀ r ∈ l.queue.head?, r.waitForData = false → Awaits l x r
  reading : reads = if l.queue.head?.any (·.waitForData) then 1 else 0

/-- A line whose front request is about to be processed, with the data in `buf`. A line that
has just been written back has no forwarder yet. -/
structure Ready (cfg : Config) (buf : Option V) (l : Line n V) (x : Fin n → Cell V) : Prop
    extends Common false l x where
  forwarder : Forwardable cfg l ∨ buf.isSome ∧ l.entry.dstate = .SHARED ∧
    l.entry.sharers.card = 1 ∧ ∃ r ∈ l.queue.head?, r.msgType = .SH_REQ
  idle : ∀ r ∈ l.queue.head?, r.waitForData = false

/-! ## Messages to the caches -/

/-- The message to `c`, if it is one. -/
def forCache (c : Fin n) : Send n V → Option (ToCache V)
  | .cache r m => if r = c then some m else none
  | _ => none

def toCache (c : Fin n) (sent : List (Send n V)) : List (ToCache V) := sent.filterMap (forCache c)

/-- The cells after the messages are sent. -/
def deliver (sent : List (Send n V)) (x : Fin n → Cell V) (c : Fin n) : Cell V :=
  (x c).post (toCache c sent)

def isRead : Send n V → Bool
  | .DRAM_READ_REQ => true
  | _ => false

/-! ## Small facts -/

section Facts
variable {rest : Bool} {l : Line n V} {x : Fin n → Cell V}
  {r : ShmemReq n V} {q : List (ShmemReq n V)} {c : Fin n}

theorem requestsOf_cons_other (h : r.requester ≠ c) : requestsOf c (r :: q) = requestsOf c q := by
  simp [requestsOf, h]

theorem requestsOf_cons_nullify (h : r.msgType = .NULLIFY_REQ) :
    requestsOf c (r :: q) = requestsOf c q := by
  simp [requestsOf, h]

theorem requestsOf_cons_self (h : r.msgType ≠ .NULLIFY_REQ) :
    requestsOf r.requester (r :: q) = r.msgType :: requestsOf r.requester q := by
  simp [requestsOf, h]

theorem requestsOf_congr {r'} (ht : r'.msgType = r.msgType) (hr : r'.requester = r.requester) :
    requestsOf c (r' :: q) = requestsOf c (r :: q) := by
  simp only [requestsOf, List.filter_cons, ht, hr]
  split <;> simp [ht]

theorem requestsOf_append (q' : List (ShmemReq n V)) :
    requestsOf c (q ++ q') = requestsOf c q ++ requestsOf c q' := by
  simp [requestsOf]

theorem pending_of_fresh (h : ∀ r ∈ q.head?, Fresh r) : pending q c = false := by
  cases q with
  | nil => rfl
  | cons r q =>
    obtain ⟨h1, h2⟩ := h r rfl
    simp [pending, h1, ShmemReq.isForwarding, h2]

theorem pending_other (h : r.requester ≠ c) : pending (r :: q) c = false := by
  simp [pending, h]

theorem owns_iff {e} : owns e c = true ↔
    (e.dstate = .EXCLUSIVE ∨ e.dstate = .MODIFIED) ∧ e.owner = some c := by
  simp [owns]

theorem Shaped.sharers_of_owns {e} (h : Shaped e) (ho : owns e c = true) :
    e.sharers = {c} := by
  obtain ⟨hd, hc⟩ := owns_iff.mp ho
  obtain ⟨o, ho', hs⟩ := h.owned hd
  rw [hc] at ho'
  rw [hs, ← Option.some.inj ho']

theorem owns_shared {e} (h : e.dstate = .SHARED) : owns e c = false := by simp [owns, h]

theorem owns_uncached {e} (h : e.dstate = .UNCACHED) : owns e c = false := by
  simp [owns, h]

theorem Common.front_requests (h : Common rest l x) (hq : l.queue = r :: q)
    (ht : r.msgType ≠ .NULLIFY_REQ) :
    r.msgType ∈ (seen rest l r.requester).requests ∧ requestsOf r.requester q = [] := by
  have hmem : r.msgType ∈ (seen rest l r.requester).requests := by
    show r.msgType ∈ requestsOf r.requester l.queue
    rw [hq, requestsOf_cons_self ht]
    exact List.mem_cons_self
  refine ⟨hmem, ?_⟩
  have hone := ((h.fits r.requester).requested hmem).1
  rw [show (seen rest l r.requester).requests = requestsOf r.requester l.queue from rfl, hq,
    requestsOf_cons_self ht] at hone
  exact (List.cons.inj hone).2

/-- A cache that waits for data has no copy, and none comes or goes. -/
theorem Common.front_absent (h : Common rest l x) (hq : l.queue = r :: q)
    (ht : r.msgType = .EX_REQ ∨ r.msgType = .SH_REQ ∨ r.requester ∉ l.entry.sharers ∨
      pending l.queue r.requester = true) :
    (seen rest l r.requester).sharer = (seen rest l r.requester).pending := by
  have hf := h.fits r.requester
  obtain ht | ht | ht | ht := ht
  · exact hf.token_of_fetching (.inl (ht ▸ (h.front_requests hq (by simp [ht])).1))
  · exact hf.token_of_fetching (.inr (ht ▸ (h.front_requests hq (by simp [ht])).1))
  · have hs : (seen rest l r.requester).sharer = false := decide_eq_false ht
    rw [hs, (hf.not_sharer hs).2.2.2]
  · have hp : (seen rest l r.requester).pending = true := ht
    rw [hp, hf.token_of_pending hp]

end Facts

end Sniper.Protocol.LineInvariant
