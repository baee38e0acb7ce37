import Sniper.Protocol.LastLevelCache

/-! # A cache and its channels

What holds of one line in one last-level cache, the messages it has sent to the directory and the
messages on their way to it, against what the directory records about this cache. A recorded
sharer is a token that is in one place: the cache's copy, a reply that brings one, a reply that
gives it up, or the request that waits for its data.
-/
namespace Sniper.Protocol.CacheInvariant
open Directory.Handlers Memory.SetAssoc Protocol.LastLevelCache

/-- A line of one cache with its two channels, `up` to the directory and `dn` from it. -/
structure Cell (V : Type) where
  line : CacheLine V
  up : List (FromCache V)
  dn : List (ToCache V)

/-- The cache takes a step, with the value a store writes. -/
inductive CellStep {V : Type} (x : Cell V) : Option V → Cell V → Prop
  | act {w line sent} (h : Step x.line none w line sent) :
      CellStep x w { x with line, up := x.up ++ sent }
  | receive {msg rest line sent} (hd : x.dn = msg :: rest)
      (h : Step x.line (some msg) none line sent) :
      CellStep x none ⟨line, x.up ++ sent, rest⟩

variable {V : Type}

/-! ## Kinds of messages -/

def isFetch : FromCache V → Bool
  | .EX_REQ | .SH_REQ => true
  | _ => false

def isUpgrade : FromCache V → Bool
  | .UPGRADE_REQ => true
  | _ => false

def isLeave : FromCache V → Bool
  | .INV_REP | .FLUSH_REP _ => true
  | _ => false

def isFlushRep : FromCache V → Bool
  | .FLUSH_REP _ => true
  | _ => false

def isWbRep : FromCache V → Bool
  | .WB_REP _ => true
  | _ => false

def isFill : ToCache V → Bool
  | .EX_REP _ | .SH_REP _ => true
  | _ => false

def isExRep : ToCache V → Bool
  | .EX_REP _ => true
  | _ => false

def isUpgradeRep : ToCache V → Bool
  | .UPGRADE_REP => true
  | _ => false

def isInvReq : ToCache V → Bool
  | .INV_REQ => true
  | _ => false

def isFlushReq : ToCache V → Bool
  | .FLUSH_REQ => true
  | _ => false

def isWbReq : ToCache V → Bool
  | .WB_REQ => true
  | _ => false

/-- A message that may stand before another one on the way to the directory: nothing comes
after a fetch request, and only a fetch request after a reply that gives the copy up. -/
def Before (m m' : FromCache V) : Prop := isFetch m = false ∧ (isLeave m → isFetch m')

/-- The messages on the way that reach the present copy: all of them if the cache has one,
else those behind the reply that brings one. -/
def live (s : CState) (dn : List (ToCache V)) : List (ToCache V) :=
  if s = .INVALID then (dn.dropWhile (!isFill ·)).tail else dn

section Live
variable {s : CState} {dn : List (ToCache V)} {m : ToCache V}

theorem live_valid (h : s ≠ .INVALID) (dn : List (ToCache V)) : live s dn = dn := if_neg h

theorem live_cons_fill (h : isFill m) : live .INVALID (m :: dn) = dn := by
  simp [live, h]

theorem live_cons (h : isFill m = false) : live .INVALID (m :: dn) = live .INVALID dn := by
  simp [live, h]

theorem live_eq_nil (h : dn.countP isFill = 0) : live .INVALID dn = [] := by
  induction dn with
  | nil => rfl
  | cons a dn ih =>
    have ha : isFill a = false := by simpa using List.countP_eq_zero.mp h a (by simp)
    rw [live_cons ha]
    exact ih (by simpa [ha] using h)

/-- A message sent to a cache with a copy, or with one on its way, reaches it. -/
theorem live_append (h : s ≠ .INVALID ∨ 0 < dn.countP isFill) (m : ToCache V) :
    live s (dn ++ [m]) = live s dn ++ [m] := by
  by_cases hs : s = .INVALID
  · subst hs
    have hpos := h.resolve_left (by simp)
    induction dn with
    | nil => simp at hpos
    | cons a dn ih =>
      cases ha : isFill a with
      | true => rw [List.cons_append, live_cons_fill ha, live_cons_fill ha]
      | false =>
        rw [List.cons_append, live_cons ha, live_cons ha]
        exact ih (.inr (by simpa [ha] using hpos)) (by simpa [ha] using hpos)
  · rw [live_valid hs, live_valid hs]

theorem live_append_stale (h : dn.countP isFill = 0) (m : ToCache V) :
    live .INVALID (dn ++ [m]) = [] := by
  induction dn with
  | nil => cases hm : isFill m <;> simp [live, hm]
  | cons a dn ih =>
    have ha : isFill a = false := by
      have := List.countP_eq_zero.mp h a (by simp)
      simpa using this
    rw [List.cons_append, live_cons ha]
    exact ih (by simpa [ha] using h)

end Live

/-! ## Counting -/

/-- A cell in numbers; `flushReqs`, `wbReqs` and `invReqs` count the messages that reach the
present copy. -/
structure Tally where
  cstate : CState
  waking : Bool
  waiting : Bool
  fetches : Nat
  upgrades : Nat
  leaves : Nat
  flushReps : Nat
  wbReps : Nat
  fills : Nat
  exReps : Nat
  upgradeReps : Nat
  invReqs : Nat
  flushReqs : Nat
  wbReqs : Nat

/-- The copy is more than shared, or a reply that is on its way makes it so. -/
def Tally.Exclusive (t : Tally) : Prop :=
  t.cstate = .EXCLUSIVE ∨ t.cstate = .MODIFIED ∨ 0 < t.exReps ∨
    t.cstate = .SHARED_UPGRADING ∧ 0 < t.upgradeReps

def Cell.live (x : Cell V) : List (ToCache V) := CacheInvariant.live x.line.cstate x.dn

def Cell.tally (x : Cell V) : Tally where
  cstate := x.line.cstate
  waking := x.line.phase ≠ .idle
  waiting := x.line.waiters ≠ []
  fetches := x.up.countP isFetch
  upgrades := x.up.countP isUpgrade
  leaves := x.up.countP isLeave
  flushReps := x.up.countP isFlushRep
  wbReps := x.up.countP isWbRep
  fills := x.dn.countP isFill
  exReps := x.dn.countP isExRep
  upgradeReps := x.dn.countP isUpgradeRep
  invReqs := x.live.countP isInvReq
  flushReqs := x.live.countP isFlushReq
  wbReqs := x.live.countP isWbReq

/-- What the directory records about one cache. `excl` is whether the line has one owner. -/
structure Seen where
  sharer : Bool
  pending : Bool
  requests : List ReqType
  excl : Bool
  /-- a write-back was asked for, and is waited for -/
  wbWait : Bool
  /-- flushes may have been asked for -/
  flushing : Bool
  /-- an upgrade collects the copies of a shared line -/
  gathers : Bool
  wbSharer : wbWait = true → sharer = true
  wbOrFlush : wbWait = true → flushing = false
  flushOwner : flushing = true → excl = true ∨ gathers = true

/-- A fetch request is queued. -/
def Seen.fetching (k : Seen) : Prop := .EX_REQ ∈ k.requests ∨ .SH_REQ ∈ k.requests

/-- The numbers of a cell against the directory's record. -/
structure Balance (k : Seen) (t : Tally) : Prop where
  token : (if t.cstate = .INVALID then 0 else 1) + t.fills + t.leaves + k.pending.toNat =
    k.sharer.toNat
  request : t.fetches + t.upgrades + k.requests.length + t.fills + t.upgradeReps +
    t.waking.toNat = (t.waiting || t.waking).toNat
  /-- only the owner's copy is, or will be, more than shared -/
  excl : t.Exclusive → k.excl = true
  writeback : t.wbReps + t.wbReqs ≤ k.wbWait.toNat
  writtenBack : 0 < t.wbReps → t.cstate ≠ .EXCLUSIVE ∧ t.cstate ≠ .MODIFIED ∧
    t.fills = 0 ∧ t.upgradeReps = 0 ∧ t.flushReps = 0
  flushing : 0 < t.flushReqs → k.flushing = true
  flushed : 0 < t.flushReps → k.excl = true ∨ k.gathers = true
  /-- a fetch request is outstanding only without a copy -/
  fetch : 0 < t.fetches ∨ k.fetching → t.cstate = .INVALID
  fetchQueued : k.fetching → t.leaves = 0
  upgrade : 0 < t.upgrades ∨ .UPGRADE_REQ ∈ k.requests ∨ 0 < t.upgradeReps →
    t.cstate = .SHARED_UPGRADING ∨ t.cstate = .INVALID
  upgrading : t.cstate = .SHARED_UPGRADING →
    0 < t.upgrades ∨ .UPGRADE_REQ ∈ k.requests ∨ 0 < t.upgradeReps
  owned : t.cstate ≠ .OWNED
  exFill : t.exReps ≤ t.fills
  flushLeave : t.flushReps ≤ t.leaves

/-- One line in one cache, with its channels, against the directory's record. -/
structure Fits (k : Seen) (x : Cell V) : Prop extends Balance k x.tally where
  order : x.up.Pairwise Before
  wbAfter : x.live.Pairwise fun m m' => isWbReq m → isUpgradeRep m' = false
  served : x.line.phase = .served → x.line.waiters ≠ []

namespace Balance
variable {k : Seen} {t : Tally}

theorem idle (h : Balance k t) (hw : t.waiting = false) (hk : t.waking = false) :
    t.fetches = 0 ∧ t.upgrades = 0 ∧ k.requests = [] ∧ t.fills = 0 ∧ t.upgradeReps = 0 := by
  have hreq := h.request
  simp only [hw, hk, Bool.or_self, Bool.toNat_false] at hreq
  have hnil : k.requests.length = 0 → k.requests = [] := List.eq_nil_of_length_eq_zero
  exact ⟨by omega, by omega, hnil (by omega), by omega, by omega⟩

theorem woken (h : Balance k t) (hk : t.waking = true) :
    t.fetches = 0 ∧ t.upgrades = 0 ∧ k.requests = [] ∧ t.fills = 0 ∧ t.upgradeReps = 0 := by
  have hreq := h.request
  simp only [hk, Bool.or_true, Bool.toNat_true] at hreq
  have hnil : k.requests.length = 0 → k.requests = [] := List.eq_nil_of_length_eq_zero
  exact ⟨by omega, by omega, hnil (by omega), by omega, by omega⟩

theorem valid (h : Balance k t) (hs : t.cstate ≠ .INVALID) :
    t.fills = 0 ∧ t.leaves = 0 ∧ k.pending = false ∧ k.sharer = true := by
  have htok := h.token
  rw [if_neg hs] at htok
  cases hp : k.pending <;> cases hsh : k.sharer <;> simp only [hp, hsh, Bool.toNat_true,
    Bool.toNat_false] at htok
  all_goals first | omega | exact ⟨by omega, by omega, rfl, rfl⟩

theorem not_sharer (h : Balance k t) (hs : k.sharer = false) :
    t.cstate = .INVALID ∧ t.fills = 0 ∧ t.leaves = 0 ∧ k.pending = false := by
  have htok := h.token
  rw [hs, Bool.toNat_false] at htok
  split at htok
  · rename_i hc
    exact ⟨hc, by omega, by omega, by simpa using (show k.pending.toNat = 0 by omega)⟩
  · omega

theorem waiters (h : Balance k t) (waiting waking : Bool)
    (hb : (waiting || waking).toNat + t.waking.toNat =
      (t.waiting || t.waking).toNat + waking.toNat) :
    Balance k { t with waiting := waiting, waking := waking } :=
  { h with request := by have := h.request; dsimp only; omega }

theorem silent (h : Balance k t) (hs : t.cstate = .EXCLUSIVE) :
    Balance k { t with cstate := .MODIFIED } := by
  have hexcl := h.excl (.inl hs)
  obtain ⟨h1, h2, -, h4, h5, h6, h7, h8, h9, h10, -, -, h13, h14⟩ := h
  constructor <;> grind [Tally.Exclusive]

theorem sendFetch (h : Balance k t) (hw : t.waiting = false) (hk : t.waking = false)
    (hs : t.cstate = .INVALID ∨ t.cstate = .SHARED_UPGRADING) :
    Balance k { t with waiting := true, fetches := t.fetches + 1 } := by
  cases h
  constructor <;> grind [Seen.fetching, Tally.Exclusive]

theorem sendUpgrade (h : Balance k t) (hs : t.cstate = .SHARED)
    (hw : t.waking = true ∨ t.waiting = false) :
    Balance k { t with
      cstate := .SHARED_UPGRADING
      waiting := true
      waking := false
      upgrades := t.upgrades + 1 } := by
  cases h
  constructor <;> grind [Seen.fetching, Tally.Exclusive]

theorem sendLeave (h : Balance k t) (hs : t.cstate ≠ .INVALID) {f}
    (hf : f = 0 ∨ f = 1 ∧ (k.excl = true ∨ k.gathers = true) ∧ t.wbReps = 0) :
    Balance k { t with
      cstate := .INVALID
      leaves := t.leaves + 1
      flushReps := t.flushReps + f
      invReqs := 0
      flushReqs := 0
      wbReqs := 0 } := by
  cases h
  constructor <;> grind [Tally.Exclusive]

theorem receiveFill (h : Balance k t) (hs : t.cstate = .INVALID) (hk : t.waking = false)
    (hw : t.waiting = true) {c e} (hf : 0 < t.fills)
    (hc : c = .EXCLUSIVE ∧ e = 1 ∧ 0 < t.exReps ∨ c = .SHARED ∧ e = 0 ∧ t.exReps < t.fills) :
    Balance k { t with
      cstate := c
      waking := true
      fills := t.fills - 1
      exReps := t.exReps - e } := by
  cases h
  constructor <;> grind [Seen.fetching, Tally.Exclusive]

theorem receiveUpgrade (h : Balance k t) (hs : t.cstate = .SHARED_UPGRADING)
    (hk : t.waking = false) (hw : t.waiting = true) (hu : 0 < t.upgradeReps) :
    Balance k { t with
      cstate := .MODIFIED
      waking := true
      upgradeReps := t.upgradeReps - 1 } := by
  cases h
  constructor <;> grind [Seen.fetching, Tally.Exclusive]

/-- A write-back is answered; an upgrade reply cannot be behind the request for it. -/
theorem sendWriteback (h : Balance k t) (hs : t.cstate ≠ .INVALID) (hr : 0 < t.wbReqs)
    (hu : t.upgradeReps = 0) {c} (hc : c = .SHARED_UPGRADING ∧ t.cstate = .SHARED_UPGRADING ∨
      c = .SHARED ∧ t.cstate ≠ .SHARED_UPGRADING) :
    Balance k { t with
      cstate := c
      wbReps := t.wbReps + 1
      wbReqs := t.wbReqs - 1 } := by
  obtain ⟨hfill, hleave, -, -⟩ := h.valid hs
  cases h
  constructor <;> grind [Tally.Exclusive]

end Balance

/-! ## The steps of a cache -/

/-- The numbers with the state of another line. -/
def Tally.withLine (t : Tally) (line : CacheLine V) : Tally := { t with
  cstate := line.cstate
  waiting := line.waiters ≠ []
  waking := line.phase ≠ .idle }

theorem countP_concat {α : Type} (p : α → Bool) (l : List α) (a : α) :
    (l ++ [a]).countP p = l.countP p + (p a).toNat := by
  cases hp : p a <;> simp [hp]

theorem live_congr {s s'} (h : s' = .INVALID ↔ s = .INVALID) (dn : List (ToCache V)) :
    live s' dn = live s dn := by
  by_cases hs : s = .INVALID
  · rw [hs, h.mpr hs]
  · rw [live_valid hs, live_valid (mt h.mp hs)]

theorem tally_line (x : Cell V) {line} (h : line.cstate = .INVALID ↔ x.line.cstate = .INVALID) :
    Cell.tally { x with line } = x.tally.withLine line := by
  simp only [Cell.tally, Tally.withLine, Cell.live, live_congr h]

theorem order_append {up : List (FromCache V)} {m} (h : up.Pairwise Before)
    (hm : ∀ m' ∈ up, Before m' m) : (up ++ [m]).Pairwise Before :=
  List.pairwise_append.mpr ⟨h, List.pairwise_singleton _ _, fun m' hm' m'' hm'' => by
    rw [List.mem_singleton.mp hm'']; exact hm m' hm'⟩

namespace Fits
variable {k : Seen} {x : Cell V} {line : CacheLine V}

theorem setLine (h : Fits k x) (hv : line.cstate = .INVALID ↔ x.line.cstate = .INVALID)
    (hs : line.phase = .served → line.waiters ≠ [])
    (hb : Balance k (x.tally.withLine line)) : Fits k { x with line } where
  toBalance := by rw [tally_line x hv]; exact hb
  order := h.order
  wbAfter := by
    have : Cell.live { x with line } = x.live := live_congr hv _
    rw [this]; exact h.wbAfter
  served := hs

end Fits

/-- Without a fetch request or a reply that gives the copy up, any message may follow. -/
theorem before_of_none {up : List (FromCache V)} (hf : up.countP isFetch = 0)
    (hl : up.countP isLeave = 0) (m : FromCache V) : ∀ m' ∈ up, Before m' m := by
  intro m' hm'
  have h1 := List.countP_eq_zero.mp hf m' hm'
  have h2 := List.countP_eq_zero.mp hl m' hm'
  exact ⟨by simpa using h1, fun h => absurd h h2⟩

theorem before_fetch {up : List (FromCache V)} (hf : up.countP isFetch = 0) {m} (hm : isFetch m) :
    ∀ m' ∈ up, Before m' m := by
  intro m' hm'
  have h1 := List.countP_eq_zero.mp hf m' hm'
  exact ⟨by simpa using h1, fun _ => hm⟩

theorem isAsk_kinds {a : ToCache V} (ha : isAsk a) :
    isFill a = false ∧ isExRep a = false ∧ isUpgradeRep a = false := by
  cases a <;> simp_all [isAsk, isFill, isExRep, isUpgradeRep]

/-! ## The numbers after a step -/

section Tallies
variable {x : Cell V}

theorem tally_fetch {waiters} (hne : waiters ≠ []) {m} (hm : isFetch m = true) :
    Cell.tally { x with line := { x.line with waiters }, up := x.up ++ [m] } =
      { x.tally with waiting := true, fetches := x.tally.fetches + 1 } := by
  cases m <;> cases hm <;>
    simp [Cell.tally, Cell.live, hne, isFetch, isUpgrade, isLeave, isFlushRep, isWbRep]

theorem tally_startUpgrade (hs : x.line.cstate = .SHARED) {waiters} (hne : waiters ≠ []) :
    Cell.tally { x with
        line := { x.line with cstate := .SHARED_UPGRADING, waiters, phase := .idle }
        up := x.up ++ [.UPGRADE_REQ] } =
      { x.tally with
        cstate := .SHARED_UPGRADING
        waiting := true
        waking := false
        upgrades := x.tally.upgrades + 1 } := by
  have hlive : live .SHARED_UPGRADING x.dn = live x.line.cstate x.dn := live_congr (by simp [hs]) _
  simp [Cell.tally, Cell.live, hlive, hne, isFetch, isUpgrade, isLeave, isFlushRep, isWbRep]

theorem counts_leave {dn : List (ToCache V)}
    (hdn : dn = x.dn ∨ ∃ a, isAsk a ∧ x.dn = a :: dn) :
    dn.countP isFill = x.dn.countP isFill ∧ dn.countP isExRep = x.dn.countP isExRep ∧
      dn.countP isUpgradeRep = x.dn.countP isUpgradeRep := by
  obtain rfl | ⟨a, ha, hx⟩ := hdn
  · exact ⟨rfl, rfl, rfl⟩
  · obtain ⟨h1, h2, h3⟩ := isAsk_kinds ha
    simp [hx, h1, h2, h3]

theorem live_leave (hfill : x.dn.countP isFill = 0) {dn}
    (hdn : dn = x.dn ∨ ∃ a, isAsk a ∧ x.dn = a :: dn) : live .INVALID dn = [] :=
  live_eq_nil ((counts_leave hdn).1.trans hfill)

theorem tally_leave (hfill : x.dn.countP isFill = 0) {m} (hm : m = .INV_REP ∨ ∃ d, m = .FLUSH_REP d)
    {dn} (hdn : dn = x.dn ∨ ∃ a, isAsk a ∧ x.dn = a :: dn) :
    Cell.tally ⟨{ x.line with cstate := .INVALID }, x.up ++ [m], dn⟩ =
      { x.tally with
        cstate := .INVALID
        leaves := x.tally.leaves + 1
        flushReps := x.tally.flushReps + (isFlushRep m).toNat
        invReqs := 0
        flushReqs := 0
        wbReqs := 0 } := by
  have hkind : isFetch m = false ∧ isUpgrade m = false ∧ isLeave m = true ∧ isWbRep m = false := by
    obtain rfl | ⟨d, rfl⟩ := hm <;> exact ⟨rfl, rfl, rfl, rfl⟩
  simp only [Cell.tally, countP_concat, Cell.live, live_leave hfill hdn, counts_leave hdn, hkind,
    List.countP_nil, Bool.toNat_false, Bool.toNat_true, Nat.add_zero]

theorem fill_kind {c : CState} {m : ToCache V} {data : V}
    (hc : c = .EXCLUSIVE ∧ m = .EX_REP data ∨ c = .SHARED ∧ m = .SH_REP data) :
    (isFill m = true ∧ isUpgradeRep m = false) ∧ c ≠ .INVALID := by
  obtain ⟨rfl, rfl⟩ | ⟨rfl, rfl⟩ := hc
  all_goals exact ⟨⟨rfl, rfl⟩, by simp⟩

theorem live_fill (hs : x.line.cstate = .INVALID) {m : ToCache V} {rest : List (ToCache V)}
    (hd : x.dn = m :: rest) {c : CState} {data : V}
    (hc : c = .EXCLUSIVE ∧ m = .EX_REP data ∨ c = .SHARED ∧ m = .SH_REP data) :
    live c rest = x.live := by
  obtain ⟨⟨hm, -⟩, hvalid⟩ := fill_kind hc
  rw [Cell.live, hd, hs, live_cons_fill hm, live_valid hvalid]

theorem fill_counted {m : ToCache V} {rest : List (ToCache V)} (hd : x.dn = m :: rest) {c : CState}
    {data : V} (hc : c = .EXCLUSIVE ∧ m = .EX_REP data ∨ c = .SHARED ∧ m = .SH_REP data) :
    c = .EXCLUSIVE ∧ (isExRep m).toNat = 1 ∧ 0 < x.tally.exReps ∨
      c = .SHARED ∧ (isExRep m).toNat = 0 ∧ x.tally.exReps < x.tally.fills := by
  have hle : rest.countP isExRep ≤ rest.countP isFill := by
    refine List.countP_mono_left fun m _ hm => ?_
    cases m <;> simp_all [isExRep, isFill]
  obtain ⟨rfl, rfl⟩ | ⟨rfl, rfl⟩ := hc
  · exact .inl ⟨rfl, rfl, by simp [Cell.tally, hd, isExRep]⟩
  · refine .inr ⟨rfl, rfl, ?_⟩
    simp only [Cell.tally, hd, List.countP_cons, isExRep, isFill]
    simpa using Nat.lt_succ_of_le hle

theorem tally_fill (hs : x.line.cstate = .INVALID) {m : ToCache V} {rest : List (ToCache V)}
    (hd : x.dn = m :: rest) {c : CState} {data : V}
    (hc : c = .EXCLUSIVE ∧ m = .EX_REP data ∨ c = .SHARED ∧ m = .SH_REP data) :
    Cell.tally ⟨{ x.line with cstate := c, data := data, phase := .loop }, x.up, rest⟩ =
      { x.tally with
        cstate := c
        waking := true
        fills := x.tally.fills - 1
        exReps := x.tally.exReps - (isExRep m).toNat } := by
  have hlive := live_fill hs hd hc
  obtain ⟨hm, -⟩ := fill_kind hc
  simp only [Cell.tally, Cell.live] at hlive ⊢
  rw [hlive, hd]
  cases he : isExRep m <;> simp [hm, he]

theorem tally_upgraded (hs : x.line.cstate = .SHARED_UPGRADING) {rest}
    (hd : x.dn = .UPGRADE_REP :: rest) :
    Cell.tally ⟨{ x.line with cstate := .MODIFIED, phase := .loop }, x.up, rest⟩ =
      { x.tally with
        cstate := .MODIFIED
        waking := true
        upgradeReps := x.tally.upgradeReps - 1 } := by
  simp [Cell.tally, Cell.live, hs, live_valid, hd, List.countP_cons, isFill, isExRep,
    isUpgradeRep, isInvReq, isFlushReq, isWbReq]

theorem tally_ignore (hs : x.line.cstate = .INVALID) {m : ToCache V} {rest : List (ToCache V)}
    (hm : isAsk m) (hd : x.dn = m :: rest) :
    Cell.live { x with dn := rest } = x.live ∧ Cell.tally { x with dn := rest } = x.tally := by
  obtain ⟨h1, h2, h3⟩ := isAsk_kinds hm
  have hlive : Cell.live { x with dn := rest } = x.live := by
    simp only [Cell.live, hd, hs, live_cons h1]
  refine ⟨hlive, ?_⟩
  simp only [Cell.tally, hlive]
  simp [hd, h1, h2, h3]

theorem tally_answer (hs : x.line.cstate ≠ .INVALID) {c} (hvalid : c ≠ .INVALID) {rest}
    (hd : x.dn = .WB_REQ :: rest) {data} :
    Cell.tally ⟨{ x.line with cstate := c }, x.up ++ [.WB_REP data], rest⟩ =
      { x.tally with
        cstate := c
        wbReps := x.tally.wbReps + 1
        wbReqs := x.tally.wbReqs - 1 } := by
  simp [Cell.tally, Cell.live, hd, live_valid hs, live_valid hvalid, isFetch, isUpgrade, isLeave,
    isFlushRep, isWbRep, isFill, isExRep, isUpgradeRep, isInvReq, isFlushReq, isWbReq,
    List.countP_cons]

end Tallies

theorem phase_idle {line : CacheLine V} (hserved : line.phase = .served → line.waiters ≠ [])
    (hp : line.phase ≠ .loop) (hw : line.waiters = []) : line.phase = .idle := by
  cases h : line.phase with
  | idle => rfl
  | loop => exact absurd h hp
  | served => exact absurd hw (hserved h)

namespace Fits
variable {k : Seen} {x : Cell V}

theorem fetchWaiting (h : Fits k x) (hs : x.line.cstate = .INVALID ∨
    x.line.cstate = .SHARED_UPGRADING) (hp : x.line.phase = .idle) (hw : x.line.waiters = [])
    {waiters} (hne : waiters ≠ []) {m} (hm : isFetch m = true) :
    Fits k { x with line := { x.line with waiters }, up := x.up ++ [m] } := by
  have hb := h.toBalance.sendFetch (by simp [Cell.tally, hw]) (by simp [Cell.tally, hp]) hs
  have hfetch : x.up.countP isFetch = 0 :=
    (h.idle (by simp [Cell.tally, hw]) (by simp [Cell.tally, hp])).1
  refine ⟨?_, order_append h.order (before_fetch hfetch hm), h.wbAfter, fun hserved => ?_⟩
  · rw [tally_fetch hne hm]; exact hb
  · rw [show x.line.phase = .served from hserved] at hp; cases hp

theorem startUpgrade (h : Fits k x) (hs : x.line.cstate = .SHARED)
    (hw : x.line.phase ≠ .idle ∨ x.line.waiters = []) (waiters : List Bool)
    (hne : waiters ≠ []) :
    Fits k { x with
      line := { x.line with cstate := .SHARED_UPGRADING, waiters, phase := .idle }
      up := x.up ++ [.UPGRADE_REQ] } := by
  have hb := h.toBalance.sendUpgrade hs (by simpa [Cell.tally] using hw)
  have hfetch : x.up.countP isFetch = 0 := by
    by_contra hpos
    have := h.fetch (.inl (Nat.pos_of_ne_zero hpos))
    rw [show x.tally.cstate = .SHARED from hs] at this
    cases this
  have hvalid : x.tally.cstate ≠ .INVALID := by
    rw [show x.tally.cstate = _ from hs]
    simp
  have hleave := (h.valid hvalid).2.1
  have hlive : live .SHARED_UPGRADING x.dn = live x.line.cstate x.dn := live_congr (by simp [hs]) _
  refine ⟨?_, order_append h.order (before_of_none hfetch hleave _), ?_,
    fun hserved => by cases hserved⟩
  · rw [tally_startUpgrade hs hne]; exact hb
  · show (live _ _).Pairwise _
    rw [hlive]; exact h.wbAfter

theorem leave (h : Fits k x) (hs : x.line.cstate ≠ .INVALID) (hp : x.line.phase = .idle) {m}
    (hm : m = .INV_REP ∨ ∃ d, m = .FLUSH_REP d) {dn}
    (hdn : dn = x.dn ∨ ∃ a, isAsk a ∧ x.dn = a :: dn)
    (hf : isFlushRep m → (k.excl = true ∨ k.gathers = true) ∧ x.tally.wbReps = 0) :
    Fits k ⟨{ x.line with cstate := .INVALID }, x.up ++ [m], dn⟩ := by
  obtain ⟨hfill, hleave, -, -⟩ := h.valid hs
  have hfetch : x.up.countP isFetch = 0 := by
    by_contra hne
    exact hs (h.fetch (.inl (Nat.pos_of_ne_zero hne)))
  refine ⟨?_, ?_, ?_, fun hserved => ?_⟩
  · rw [tally_leave hfill hm hdn]
    refine h.toBalance.sendLeave hs ?_
    cases hflush : isFlushRep m with
    | false => exact .inl rfl
    | true => exact .inr ⟨rfl, hf hflush⟩
  · exact order_append h.order (before_of_none hfetch hleave m)
  · simp [Cell.live, live_leave hfill hdn]
  · rw [hp] at hserved; cases hserved

theorem fill (h : Fits k x) (hs : x.line.cstate = .INVALID) (hp : x.line.phase = .idle)
    (hw : x.line.waiters ≠ []) {m : ToCache V} {rest : List (ToCache V)} (hd : x.dn = m :: rest)
    {c : CState} {data : V}
    (hc : c = .EXCLUSIVE ∧ m = .EX_REP data ∨ c = .SHARED ∧ m = .SH_REP data) :
    Fits k ⟨{ x.line with cstate := c, data := data, phase := .loop }, x.up, rest⟩ := by
  obtain ⟨hm, -⟩ := fill_kind hc
  refine ⟨?_, h.order, ?_, fun hserved => by cases hserved⟩
  · rw [tally_fill hs hd hc]
    refine h.toBalance.receiveFill hs (by simp [Cell.tally, hp]) (by simpa [Cell.tally] using hw)
      (by simp [Cell.tally, hd, hm]) (fill_counted hd hc)
  · show (live c rest).Pairwise _
    rw [live_fill hs hd hc]; exact h.wbAfter

theorem upgraded (h : Fits k x) (hs : x.line.cstate = .SHARED_UPGRADING) (hp : x.line.phase = .idle)
    (hw : x.line.waiters ≠ []) {rest} (hd : x.dn = .UPGRADE_REP :: rest) :
    Fits k ⟨{ x.line with cstate := .MODIFIED, phase := .loop }, x.up, rest⟩ := by
  have hlive : x.live = .UPGRADE_REP :: rest := by
    rw [Cell.live, live_valid (by simp [hs]), hd]
  refine ⟨?_, h.order, ?_, fun hserved => by cases hserved⟩
  · rw [tally_upgraded hs hd]
    exact h.toBalance.receiveUpgrade hs (by simp [Cell.tally, hp])
      (by simpa [Cell.tally] using hw) (by simp [Cell.tally, hd, isUpgradeRep])
  · have hafter := h.wbAfter
    rw [hlive] at hafter
    exact (List.pairwise_cons.mp hafter).2

theorem ignore (h : Fits k x) (hs : x.line.cstate = .INVALID) {m rest} (hm : isAsk m)
    (hd : x.dn = m :: rest) :
    Fits k { x with dn := rest } := by
  obtain ⟨hlive, htally⟩ := tally_ignore hs hm hd
  exact ⟨by rw [htally]; exact h.toBalance, h.order, by rw [hlive]; exact h.wbAfter, h.served⟩

theorem answer (h : Fits k x) (hs : x.line.cstate ≠ .INVALID) {rest} (hd : x.dn = .WB_REQ :: rest)
    {c} (data : V) (hc : c = .SHARED_UPGRADING ∧ x.line.cstate = .SHARED_UPGRADING ∨
      c = .SHARED ∧ x.line.cstate ≠ .SHARED_UPGRADING) :
    Fits k ⟨{ x.line with cstate := c }, x.up ++ [.WB_REP data], rest⟩ := by
  have hvalid : c ≠ .INVALID := by obtain ⟨rfl, -⟩ | ⟨rfl, -⟩ := hc <;> simp
  have hlive : x.live = .WB_REQ :: rest := by rw [Cell.live, live_valid hs, hd]
  have hafter := h.wbAfter
  rw [hlive] at hafter
  obtain ⟨hno, hafter⟩ := List.pairwise_cons.mp hafter
  have hup : x.tally.upgradeReps = 0 := by
    simp only [Cell.tally, hd]
    refine List.countP_eq_zero.mpr fun m hm => ?_
    obtain rfl | hm := List.mem_cons.mp hm
    · simp [isUpgradeRep]
    · simp [hno m hm rfl]
  have hfetch : x.up.countP isFetch = 0 := by
    by_contra hne
    exact hs (h.fetch (.inl (Nat.pos_of_ne_zero hne)))
  refine ⟨?_, order_append h.order (before_of_none hfetch (h.valid hs).2.1 _), ?_, h.served⟩
  · rw [tally_answer hs hvalid hd]
    exact h.toBalance.sendWriteback hs (by simp [Cell.tally, hlive, isWbReq]) hup hc
  · show (live c rest).Pairwise _
    rw [live_valid hvalid]; exact hafter

theorem act (h : Fits k x) {w line sent} (ha : Act x.line none w line sent) :
    Fits k { x with line, up := x.up ++ sent } := by
  cases ha with
  | same => simpa using h
  | silent hs =>
    simp only [List.append_nil]
    exact h.setLine (by simp [hs]) h.served (h.toBalance.silent hs)
  | enqueue exclusive hp hw =>
    simp only [List.append_nil]
    refine h.setLine Iff.rfl (by simp) ?_
    refine h.toBalance.waiters _ _ ?_
    simp [Cell.tally, hw]
  | upgrade hp hw hs =>
    have hidle := phase_idle h.served hp hw
    have := h.startUpgrade hs (.inr hw) [true] (by simp)
    rwa [← hidle] at this
  | fetchExclusive hp hw hs =>
    exact h.fetchWaiting (.inl hs) (phase_idle h.served hp hw) hw (by simp) rfl
  | fetchShared hp hw hs => exact h.fetchWaiting hs (phase_idle h.served hp hw) hw (by simp) rfl
  | store v hs =>
    simp only [List.append_nil]
    exact h.setLine Iff.rfl h.served h.toBalance
  | evictDirty hp hs =>
    refine h.leave (by simp [hs]) hp (.inr ⟨_, rfl⟩) (.inl rfl) fun _ => ?_
    refine ⟨.inl (h.excl (.inr (.inl hs))), ?_⟩
    by_contra hne
    exact (h.writtenBack (Nat.pos_of_ne_zero hne)).2.1 hs
  | evictClean hp hs =>
    refine h.leave ?_ hp (.inl rfl) (.inl rfl) (by simp [isFlushRep])
    obtain hs | hs := hs <;> simp [hs]
  | wakeDone hp hw =>
    simp only [List.append_nil]
    refine h.setLine Iff.rfl (by simp) ?_
    refine h.toBalance.waiters _ _ ?_
    simp [Cell.tally, hp, hw]
  | wakeUpgrade hp hw hs =>
    exact h.startUpgrade hs (.inl (by simp [hp])) x.line.waiters (by simp [hw])
  | wakeServe hp hw hs =>
    simp only [List.append_nil]
    refine h.setLine Iff.rfl (by simp [hw]) ?_
    refine h.toBalance.waiters _ _ ?_
    simp [Cell.tally, hp]
  | wakeSilent hp hw hs =>
    simp only [List.append_nil]
    refine h.setLine (by simp [hs]) (by simp [hw]) ?_
    have := (h.toBalance.silent hs).waiters true true (by simp [Cell.tally, hp])
    simpa [Tally.withLine, hw] using this
  | dequeue hp =>
    simp only [List.append_nil]
    refine h.setLine Iff.rfl (by simp) ?_
    refine h.toBalance.waiters _ _ ?_
    simp [Cell.tally, hp]

theorem receive (h : Fits k x) {m rest} (hd : x.dn = m :: rest) {line sent w}
    (ha : Act x.line (some m) w line sent) : Fits k ⟨line, x.up ++ sent, rest⟩ := by
  cases ha with
  | fillExclusive d hp hw hs =>
    rw [List.append_nil]
    exact h.fill hs hp hw hd (.inl ⟨rfl, rfl⟩)
  | fillShared d hp hw hs =>
    rw [List.append_nil]
    exact h.fill hs hp hw hd (.inr ⟨rfl, rfl⟩)
  | upgraded hp hw hs =>
    rw [List.append_nil]
    exact h.upgraded hs hp hw hd
  | ignore hp hm hs =>
    rw [List.append_nil]
    exact h.ignore hs hm hd
  | invalidate hp hs hm => exact h.leave hs hp (.inl rfl) (.inr ⟨_, rfl, hd⟩) (by simp [isFlushRep])
  | flush hp hs =>
    refine h.leave hs hp (.inr ⟨_, rfl⟩) (.inr ⟨_, rfl, hd⟩) fun _ => ?_
    have hpos : 0 < x.tally.flushReqs := by
      simp [Cell.tally, Cell.live, live_valid hs, hd, isFlushReq]
    have hfl := h.flushing hpos
    have hwb := h.writeback
    have hnot : k.wbWait = false := by
      by_contra hne
      rw [k.wbOrFlush (by simpa using hne)] at hfl
      cases hfl
    rw [hnot] at hwb
    exact ⟨k.flushOwner hfl, by simpa using (Nat.le_zero.mp (Nat.le_of_add_right_le hwb))⟩
  | writebackUpgrading d hp hs =>
    have := h.answer (by simp [hs]) hd d (.inl ⟨rfl, hs⟩)
    rwa [← hs] at this
  | writeback hp hs hu => exact h.answer hs hd _ (.inr ⟨rfl, hu⟩)

theorem step (h : Fits k x) {w x'} (hs : CellStep x w x') : Fits k x' := by
  cases hs with
  | act hs => exact h.act hs.act
  | receive hd hs => exact h.receive hd hs.act

end Fits

/-! ## Requests of the directory -/

/-- The copy was asked to go, or goes. -/
def Cell.Asked (x : Cell V) : Prop := 0 < x.tally.invReqs + x.tally.flushReqs + x.tally.leaves

/-- The data of the copy were asked for, or come. -/
def Cell.AskedWb (x : Cell V) : Prop := 0 < x.tally.wbReqs + x.tally.wbReps + x.tally.leaves

section Asked
variable {x x' : Cell V} {w : Option V}

/-- A cache on its own keeps the requests that reach its copy, or gives the copy up. -/
theorem act_asks {line sent} (ha : Act x.line none w line sent) :
    live line.cstate x.dn = live x.line.cstate x.dn ∨ 0 < sent.countP isLeave := by
  cases ha with
  | evictDirty | evictClean => exact .inr (by simp [isLeave])
  | silent hs | upgrade _ _ hs | wakeUpgrade _ _ hs
  | wakeSilent _ _ hs => exact .inl (live_congr (by simp [hs]) _)
  | _ => exact .inl rfl

theorem receive_asks {m : ToCache V} {rest : List (ToCache V)} {line : CacheLine V}
    {sent : List (FromCache V)} (ha : Act x.line (some m) w line sent) :
    live line.cstate rest = live x.line.cstate (m :: rest) ∨
      (live x.line.cstate (m :: rest) = m :: live line.cstate rest ∧
        (isAsk m = false ∨ isWbReq m ∧ 0 < sent.countP isWbRep)) ∨
      0 < sent.countP isLeave := by
  cases ha with
  | fillExclusive d hp hw hs
  | fillShared d hp hw hs => exact .inl (by rw [hs, live_cons_fill rfl, live_valid (by simp)])
  | upgraded hp hw hs => exact .inr (.inl ⟨by simp [hs, live_valid], .inl rfl⟩)
  | ignore hp hm hs => exact .inl (by rw [hs, live_cons (isAsk_kinds hm).1])
  | invalidate | flush => exact .inr (.inr (by simp [isLeave]))
  | writebackUpgrading d hp hs =>
    exact .inr (.inl ⟨by simp [hs, live_valid], .inr ⟨rfl, by simp [isWbRep]⟩⟩)
  | writeback hp hs hu =>
    exact .inr (.inl ⟨by simp [live_valid hs, live_valid], .inr ⟨rfl, by simp [isWbRep]⟩⟩)

/-- **What was asked stays asked until it is answered.** -/
theorem CellStep.asked (hs : CellStep x w x') :
    (x.Asked → x'.Asked) ∧ (x.AskedWb → x'.AskedWb) := by
  cases hs with
  | act hs =>
    simp only [Cell.Asked, Cell.AskedWb, Cell.tally, Cell.live, List.countP_append]
    obtain h | h := act_asks hs.act
    · rw [h]; omega
    · omega
  | @receive m rest line sent hd hs =>
    simp only [Cell.Asked, Cell.AskedWb, Cell.tally, Cell.live, List.countP_append, hd]
    obtain h | ⟨h, hm | ⟨hm, hw⟩⟩ | h := receive_asks hs.act
    · rw [h]; omega
    · have hkind : isInvReq m = false ∧ isFlushReq m = false ∧ isWbReq m = false := by
        cases m <;> simp_all [isAsk, isInvReq, isFlushReq, isWbReq]
      simp only [h, List.countP_cons, hkind]
      simp only [Bool.false_eq_true, if_false]
      omega
    · have hkind : isInvReq m = false ∧ isFlushReq m = false := by
        cases m <;> simp_all [isInvReq, isFlushReq, isWbReq]
      simp only [h, List.countP_cons, hkind, hm]
      simp only [Bool.false_eq_true, if_false, if_true]
      omega
    · omega

end Asked

end Sniper.Protocol.CacheInvariant
