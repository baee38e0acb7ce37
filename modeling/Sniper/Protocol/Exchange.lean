import Sniper.Protocol.CacheInvariant

/-! # What the directory does to one cache

The directory changes what it records about a cache, sends it a message, or receives one
from it. Each lemma says what the record and the cell may have been before, for them to fit
afterwards.
-/
namespace Sniper.Protocol.CacheInvariant
open Directory.Handlers Protocol.LastLevelCache

variable {V : Type}

/-- The record allows what is on the way. -/
structure Allows (k : Seen) (t : Tally) : Prop where
  excl : t.Exclusive → k.excl = true
  writeback : t.wbReps + t.wbReqs ≤ k.wbWait.toNat
  flushing : 0 < t.flushReqs → k.flushing = true
  flushed : 0 < t.flushReps → k.excl = true ∨ k.gathers = true

theorem Balance.allows {k t} (h : Balance k t) : Allows k t :=
  ⟨h.excl, h.writeback, h.flushing, h.flushed⟩

theorem Allows.mono {k k' t} (h : Allows k t) (hx : k.excl = true → k'.excl = true)
    (hw : k.wbWait = true → k'.wbWait = true) (hf : k.flushing = true → k'.flushing = true)
    (hg : k.gathers = true → k'.gathers = true) : Allows k' t where
  excl := fun ht => hx (h.excl ht)
  writeback := h.writeback.trans (by
    cases hk : k.wbWait with
    | false => exact Nat.zero_le _
    | true => rw [hw hk])
  flushing := fun ht => hf (h.flushing ht)
  flushed := fun ht => (h.flushed ht).imp hx hg

/-- The directory expects no answer of the cache. -/
structure Seen.Calm (k : Seen) : Prop where
  wbWait : k.wbWait = false
  flushing : k.flushing = false
  gathers : k.gathers = false

theorem Allows.of_calm {k k' t} (h : Allows k t) (hk : k.Calm) (hx : k.excl = true → k'.excl = true) :
    Allows k' t :=
  h.mono hx (by simp [hk.wbWait]) (by simp [hk.flushing]) (by simp [hk.gathers])

namespace Balance
variable {k k' : Seen} {t : Tally}

theorem relax (h : Balance k t) (hs : k'.sharer = k.sharer) (hp : k'.pending = k.pending)
    (hr : k'.requests = k.requests) (ha : Allows k' t) : Balance k' t := by
  obtain ⟨h1, h2, h3, h4, h5, h6, h7, h8, h9, h10, h11, h12, h13, h14⟩ := h
  exact ⟨by rw [hs, hp]; exact h1, by rw [hr]; exact h2, ha.excl, ha.writeback, h5, ha.flushing,
    ha.flushed, by rw [Seen.fetching, hr]; exact h8, by rw [Seen.fetching, hr]; exact h9,
    by rw [hr]; exact h10, by rw [hr]; exact h11, h12, h13, h14⟩

theorem requested (h : Balance k t) {r} (hr : r ∈ k.requests) :
    k.requests = [r] ∧ t.fetches = 0 ∧ t.upgrades = 0 ∧ t.fills = 0 ∧ t.upgradeReps = 0 ∧
      t.waking = false ∧ t.waiting = true := by
  have hpos : 0 < k.requests.length := List.length_pos_of_mem hr
  have hreq := h.request
  have hle : (t.waiting || t.waking).toNat ≤ 1 := Bool.toNat_le _
  have hlen : k.requests.length = 1 := by omega
  obtain ⟨a, ha⟩ := List.length_eq_one_iff.mp hlen
  rw [ha] at hr
  refine ⟨by rw [ha, List.mem_singleton.mp hr], by omega, by omega, by omega, by omega, ?_, ?_⟩
  · cases hk : t.waking with
    | false => rfl
    | true => rw [hk, Bool.or_true] at hreq; simp only [Bool.toNat_true] at hreq; omega
  · cases hw : t.waiting with
    | true => rfl
    | false =>
      rw [hw, Bool.false_or] at hreq
      omega

theorem token_of_fetching (h : Balance k t) (hf : k.fetching) : k.sharer = k.pending := by
  have hfill : t.fills = 0 := by
    obtain hr | hr := hf
    all_goals exact (h.requested hr).2.2.2.1
  have htok := h.token
  rw [if_pos (h.fetch (.inr hf)), h.fetchQueued hf, hfill] at htok
  cases hs : k.sharer <;> cases hp : k.pending <;> simp [hs, hp] at htok ⊢

theorem token_of_pending (h : Balance k t) (hp : k.pending = true) : k.sharer = true := by
  by_contra hs
  rw [(h.not_sharer (by simpa using hs)).2.2.2] at hp
  cases hp

theorem absent (h : Balance k t) (hs : k.sharer = k.pending) :
    t.cstate = .INVALID ∧ t.fills = 0 ∧ t.leaves = 0 ∧ t.exReps = 0 ∧ t.flushReps = 0 := by
  cases h
  grind

theorem leaving (h : Balance k t) (hl : 0 < t.leaves) : t.cstate = .INVALID ∧ t.fills = 0 ∧
    t.leaves = 1 ∧ k.pending = false ∧ k.sharer = true := by
  have hle : k.sharer.toNat ≤ 1 := Bool.toNat_le _
  have htok := h.token
  split at htok
  · rename_i hc
    refine ⟨hc, by omega, by omega, by simpa using (show k.pending.toNat = 0 by omega), ?_⟩
    exact by simpa using (show k.sharer.toNat = 1 by omega)
  · omega

theorem join (h : Balance k t) (hs : k.sharer = k.pending) (hs' : k'.sharer = true)
    (hp' : k'.pending = true) (hr : k'.requests = k.requests) (ha : Allows k' t) :
    Balance k' t := by
  obtain ⟨hinv, hfill, hleave, -, -⟩ := h.absent hs
  cases h
  obtain ⟨ha1, ha2, ha3, ha4⟩ := ha
  constructor <;> grind [Seen.fetching]

theorem grant (h : Balance k t) (hs : k.sharer = k.pending) (hs' : k'.sharer = true)
    (hp' : k'.pending = false) {r} (hr : r ∈ k.requests) (hr' : k'.requests = []) {e} (he : e ≤ 1)
    (hx : 0 < e → k'.excl = true) (hq : t.wbReps = 0 ∧ t.wbReqs = 0 ∧ t.flushReqs = 0) :
    Balance k' { t with fills := t.fills + 1, exReps := t.exReps + e } := by
  obtain ⟨hinv, hfill, hleave, hex, hfl⟩ := h.absent hs
  obtain ⟨hone, hf, hu, -, hur, hk, hw⟩ := h.requested hr
  cases h
  constructor <;> grind [Seen.fetching, Tally.Exclusive]

theorem grantUpgrade (h : Balance k t) (hr : .UPGRADE_REQ ∈ k.requests) (hk : k.Calm)
    (hs' : k'.sharer = k.sharer) (hp' : k'.pending = k.pending) (hr' : k'.requests = [])
    (hx : k'.excl = true) :
    Balance k' { t with upgradeReps := t.upgradeReps + 1 } := by
  obtain ⟨hone, hf, hu, hfill, hur, hwk, hw⟩ := h.requested hr
  obtain ⟨hk1, hk2, hk3⟩ := hk
  cases h
  constructor <;> grind [Seen.fetching, Tally.Exclusive]

theorem popLeave (h : Balance k t) (hl : 0 < t.leaves) (hw : t.wbReps = 0) (hs' : k'.sharer = false)
    (hp' : k'.pending = k.pending) (hr' : k'.requests = k.requests)
    (hq : t.wbReqs = 0 ∧ t.flushReqs = 0) {f} (hf : t.flushReps - f = 0) :
    Balance k' { t with leaves := t.leaves - 1, flushReps := t.flushReps - f } := by
  obtain ⟨hinv, hfill, hone, hpend, -⟩ := h.leaving hl
  cases h
  constructor <;> grind [Seen.fetching, Tally.Exclusive]

theorem popWb (h : Balance k t) (hw : 0 < t.wbReps) (hs' : k'.sharer = k.sharer)
    (hp' : k'.pending = k.pending) (hr' : k'.requests = k.requests) :
    Balance k' { t with wbReps := t.wbReps - 1 } := by
  have hwait : k.wbWait = true := by
    have := h.writeback
    cases hk : k.wbWait with
    | true => rfl
    | false => rw [hk] at this; simp only [Bool.toNat_false] at this; omega
  have hflush := k.wbOrFlush hwait
  cases h
  constructor <;> grind [Seen.fetching, Tally.Exclusive]

theorem queue (h : Balance k t) {r f u}
    (hr : r = .UPGRADE_REQ ∧ f = 0 ∧ u = 1 ∨ (r = .EX_REQ ∨ r = .SH_REQ) ∧ f = 1 ∧ u = 0 ∧ t.leaves = 0)
    (hf : f ≤ t.fetches) (hu : u ≤ t.upgrades) (hs' : k'.sharer = k.sharer)
    (hp' : k'.pending = k.pending) (hr' : k'.requests = k.requests ++ [r]) (ha : Allows k' t) :
    Balance k' { t with fetches := t.fetches - f, upgrades := t.upgrades - u } := by
  obtain ⟨ha1, ha2, ha3, ha4⟩ := ha
  have hnil : k.requests.length = 0 → k.requests = [] := List.eq_nil_of_length_eq_zero
  cases h
  constructor <;> grind [Seen.fetching, Tally.Exclusive]

end Balance

/-! ## Messages to the cache -/

/-- Messages are sent to the cache. -/
def Cell.post (x : Cell V) (ms : List (ToCache V)) : Cell V := { x with dn := x.dn ++ ms }

@[simp] theorem Cell.post_nil (x : Cell V) : x.post [] = x := by simp [Cell.post]

theorem tally_post (x : Cell V) (m : ToCache V) : Cell.tally (x.post [m]) = { x.tally with
    fills := x.tally.fills + (isFill m).toNat
    exReps := x.tally.exReps + (isExRep m).toNat
    upgradeReps := x.tally.upgradeReps + (isUpgradeRep m).toNat
    invReqs := (Cell.live (x.post [m])).countP isInvReq
    flushReqs := (Cell.live (x.post [m])).countP isFlushReq
    wbReqs := (Cell.live (x.post [m])).countP isWbReq } := by
  simp only [Cell.tally, Cell.post, countP_concat]
  rfl

theorem tally_ask (x : Cell V) {m} (hm : isAsk m) :
    Cell.live (x.post [m]) = x.live ++ [m] ∧ Cell.tally (x.post [m]) = { x.tally with
        invReqs := x.tally.invReqs + (isInvReq m).toNat
        flushReqs := x.tally.flushReqs + (isFlushReq m).toNat
        wbReqs := x.tally.wbReqs + (isWbReq m).toNat } ∨
      Cell.live (x.post [m]) = x.live ∧ Cell.tally (x.post [m]) = x.tally := by
  obtain ⟨h1, h2, h3⟩ := isAsk_kinds hm
  by_cases hr : x.line.cstate ≠ .INVALID ∨ 0 < x.dn.countP isFill
  · have hlive : Cell.live (x.post [m]) = x.live ++ [m] := live_append hr m
    refine .inl ⟨hlive, ?_⟩
    rw [tally_post, hlive, h1, h2, h3]
    simp only [Cell.tally, countP_concat, Bool.toNat_false, Nat.add_zero]
  · have hinv : x.line.cstate = .INVALID := by
      by_contra hne
      exact hr (.inl hne)
    have hfill : x.dn.countP isFill = 0 := by
      by_contra hne
      exact hr (.inr (Nat.pos_of_ne_zero hne))
    have hlive : Cell.live (x.post [m]) = x.live := by
      show live x.line.cstate (x.dn ++ [m]) = live x.line.cstate x.dn
      rw [hinv, live_append_stale hfill, live_eq_nil hfill]
    refine .inr ⟨hlive, ?_⟩
    rw [tally_post, hlive, h1, h2, h3]
    rfl

namespace Fits
variable {k k' : Seen} {x : Cell V}

theorem relax (h : Fits k x) (hs : k'.sharer = k.sharer) (hp : k'.pending = k.pending)
    (hr : k'.requests = k.requests) (ha : Allows k' x.tally) : Fits k' x :=
  ⟨h.toBalance.relax hs hp hr ha, h.order, h.wbAfter, h.served⟩

theorem live_nil (h : Fits k x) (hs : k.sharer = k.pending) : x.live = [] := by
  obtain ⟨hinv, hfill, -⟩ := h.absent hs
  rw [Cell.live, show x.line.cstate = .INVALID from hinv]
  exact live_eq_nil hfill

theorem allows_not_sharer (h : Fits k x) (hs : k.sharer = false) (k' : Seen) : Allows k' x.tally := by
  have hp : k.pending = false := (h.not_sharer hs).2.2.2
  obtain ⟨hinv, hfill, hleave, hex, hfl⟩ := h.absent (hs.trans hp.symm)
  have hlive := h.live_nil (hs.trans hp.symm)
  have hw : x.tally.wbReps + x.tally.wbReqs = 0 := by
    have hle := h.writeback
    cases hk : k.wbWait with
    | false => rw [hk] at hle; simpa using hle
    | true => rw [k.wbSharer hk] at hs; cases hs
  have hf : x.tally.flushReqs = 0 := by simp [Cell.tally, hlive]
  constructor
  · rintro (hc | hc | hc | hc)
    · rw [hinv] at hc; cases hc
    · rw [hinv] at hc; cases hc
    · omega
    · rw [hinv] at hc; cases hc.1
  · rw [hw]; exact Nat.zero_le _
  · intro hpos; omega
  · intro hpos; omega

theorem join (h : Fits k x) (hs : k.sharer = k.pending) (hs' : k'.sharer = true)
    (hp' : k'.pending = true) (hr : k'.requests = k.requests) (ha : Allows k' x.tally) :
    Fits k' x :=
  ⟨h.toBalance.join hs hs' hp' hr ha, h.order, h.wbAfter, h.served⟩

/-- A request of the directory reaches the copy of a sharer; else it is ignored, and the copy is on
its way to the directory. -/
theorem ask (h : Fits k x) {m} (hm : isAsk m) (hf : isFlushReq m → k.flushing = true)
    (hw : isWbReq m → k.wbWait = true ∧ x.tally.wbReps + x.tally.wbReqs = 0) :
    Fits k (x.post [m]) := by
  obtain ⟨-, -, h3⟩ := isAsk_kinds hm
  rcases tally_ask x hm with ⟨hlive, htally⟩ | ⟨hlive, htally⟩
  · refine ⟨?_, h.order, ?_, h.served⟩
    · rw [htally]
      have hb := h.toBalance
      refine { hb with writeback := ?_, flushing := ?_ }
      · show x.tally.wbReps + (x.tally.wbReqs + (isWbReq m).toNat) ≤ k.wbWait.toNat
        cases hwm : isWbReq m with
        | false => simpa using hb.writeback
        | true =>
          obtain ⟨hk, hz⟩ := hw hwm
          rw [hk]
          omega
      · intro hpos
        cases hfm : isFlushReq m with
        | true => exact hf hfm
        | false =>
          refine hb.flushing ?_
          simpa [hfm] using hpos
    · rw [hlive]
      refine List.pairwise_append.mpr ⟨h.wbAfter, List.pairwise_singleton _ _, fun a _ b hb _ => ?_⟩
      rw [List.mem_singleton.mp hb]
      exact h3
  · exact ⟨by rw [htally]; exact h.toBalance, h.order, by rw [hlive]; exact h.wbAfter, h.served⟩

theorem asked_post (h : Fits k x) (hs : k.sharer = true) (hp : k.pending = false) (m : ToCache V) :
    (isInvReq m = true ∨ isFlushReq m = true → (x.post [m]).Asked) ∧
      (isWbReq m = true → (x.post [m]).AskedWb) := by
  by_cases hr : x.line.cstate ≠ .INVALID ∨ 0 < x.dn.countP isFill
  · have hlive : Cell.live (x.post [m]) = x.live ++ [m] := live_append hr m
    refine ⟨fun hm => ?_, fun hm => ?_⟩
    · simp only [Cell.Asked, Cell.tally, hlive, countP_concat]
      obtain hm | hm := hm <;> rw [hm] <;> simp only [Bool.toNat_true] <;> omega
    · simp only [Cell.AskedWb, Cell.tally, hlive, countP_concat, hm, Bool.toNat_true]
      omega
  · have hleave : 0 < x.up.countP isLeave := by
      have htok := h.token
      have hinv : x.tally.cstate = .INVALID := by
        by_contra hne
        exact hr (.inl hne)
      rw [hs, hp, if_pos hinv] at htok
      simp only [Cell.tally, Bool.toNat_true, Bool.toNat_false] at htok
      omega
    refine ⟨fun _ => ?_, fun _ => ?_⟩
    · simp only [Cell.Asked, Cell.tally, Cell.post]; omega
    · simp only [Cell.AskedWb, Cell.tally, Cell.post]; omega

theorem tally_grant (h : Fits k x) (hs : k.sharer = k.pending) {m} (hm : isFill m) :
    Cell.live (x.post [m]) = [] ∧ Cell.tally (x.post [m]) = { x.tally with
      fills := x.tally.fills + 1
      exReps := x.tally.exReps + (isExRep m).toNat } := by
  obtain ⟨hinv, hfill, -⟩ := h.absent hs
  have hlive := h.live_nil hs
  have hlive' : Cell.live (x.post [m]) = [] := by
    show live x.line.cstate (x.dn ++ [m]) = []
    rw [show x.line.cstate = .INVALID from hinv]
    exact live_append_stale hfill m
  have hup : isUpgradeRep m = false := by cases m <;> simp_all [isFill, isUpgradeRep]
  refine ⟨hlive', ?_⟩
  rw [tally_post, hlive', hm, hup]
  simp only [Cell.tally, hlive, Bool.toNat_true, Bool.toNat_false, Nat.add_zero]

theorem grant (h : Fits k x) (hs : k.sharer = k.pending) (hk : k.wbWait = false) {r}
    (hr : r ∈ k.requests) {m} (hm : isFill m) (hs' : k'.sharer = true) (hp' : k'.pending = false)
    (hr' : k'.requests = []) (hx : isExRep m → k'.excl = true) : Fits k' (x.post [m]) := by
  have hlive := h.live_nil hs
  obtain ⟨hlive', htally⟩ := h.tally_grant hs hm
  have hw : x.tally.wbReps = 0 := by
    have hle := h.writeback
    rw [hk] at hle
    simp only [Bool.toNat_false] at hle
    omega
  refine ⟨?_, h.order, by rw [hlive']; exact .nil, h.served⟩
  rw [htally]
  refine h.toBalance.grant hs hs' hp' hr hr' (Bool.toNat_le _) (fun hpos => hx ?_) ⟨hw, ?_, ?_⟩
  · cases he : isExRep m with
    | true => rfl
    | false => simp [he] at hpos
  all_goals simp [Cell.tally, hlive]

theorem tally_grantUpgrade (h : Fits k x) (hr : .UPGRADE_REQ ∈ k.requests) :
    (Cell.live (x.post [.UPGRADE_REP]) = x.live ∨
      Cell.live (x.post [.UPGRADE_REP]) = x.live ++ [.UPGRADE_REP]) ∧
    Cell.tally (x.post [.UPGRADE_REP]) =
      { x.tally with upgradeReps := x.tally.upgradeReps + 1 } := by
  have hfill : x.dn.countP isFill = 0 := (h.requested hr).2.2.2.1
  have hlive : Cell.live (x.post [.UPGRADE_REP]) = x.live ∨
      Cell.live (x.post [.UPGRADE_REP]) = x.live ++ [.UPGRADE_REP] := by
    by_cases hinv : x.line.cstate = .INVALID
    · left
      show live x.line.cstate (x.dn ++ [_]) = live x.line.cstate x.dn
      rw [hinv, live_append_stale hfill, live_eq_nil hfill]
    · exact .inr (live_append (.inl hinv) _)
  have hcount : ∀ p : ToCache V → Bool, p .UPGRADE_REP = false →
      (Cell.live (x.post [.UPGRADE_REP])).countP p = x.live.countP p := by
    intro p hp
    obtain hl | hl := hlive <;> simp [hl, hp]
  refine ⟨hlive, ?_⟩
  rw [tally_post, hcount isInvReq rfl, hcount isFlushReq rfl, hcount isWbReq rfl]
  rfl

theorem grantUpgrade (h : Fits k x) (hr : .UPGRADE_REQ ∈ k.requests) (hk : k.Calm)
    (hs' : k'.sharer = k.sharer) (hp' : k'.pending = k.pending) (hr' : k'.requests = [])
    (hx : k'.excl = true) : Fits k' (x.post [.UPGRADE_REP]) := by
  obtain ⟨hlive, htally⟩ := h.tally_grantUpgrade hr
  refine ⟨by rw [htally]; exact h.toBalance.grantUpgrade hr hk hs' hp' hr' hx, h.order, ?_, h.served⟩
  have hw : x.live.countP isWbReq = 0 := by
    have hle := h.writeback
    rw [hk.wbWait] at hle
    simp only [Bool.toNat_false, Cell.tally] at hle
    omega
  obtain hl | hl := hlive
  · rw [hl]; exact h.wbAfter
  · rw [hl]
    refine List.pairwise_append.mpr ⟨h.wbAfter, List.pairwise_singleton _ _, fun a ha b _ hwa => ?_⟩
    exact absurd hwa (List.countP_eq_zero.mp hw a ha)

/-! ## Messages from the cache -/

theorem tally_popLeave (h : Fits k x) {m rest} (hu : x.up = m :: rest) (hm : isLeave m) :
    x.live = [] ∧ x.tally.wbReps = 0 ∧ rest.countP isFlushRep = 0 ∧
      Cell.tally { x with up := rest } = { x.tally with
        leaves := x.tally.leaves - 1
        flushReps := x.tally.flushReps - (isFlushRep m).toNat } := by
  obtain ⟨hhead, -⟩ := List.pairwise_cons.mp (hu ▸ h.order)
  have hl : 0 < x.tally.leaves := by simp [Cell.tally, hu, hm]
  have hfetch : ∀ m' ∈ rest, isFetch m' := fun m' hm' => (hhead m' hm').2 hm
  have hnone : ∀ p : FromCache V → Bool, (∀ m', isFetch m' → p m' = false) → rest.countP p = 0 :=
    fun p hp => List.countP_eq_zero.mpr fun m' hm' => by simp [hp m' (hfetch m' hm')]
  have hkind : isFetch m = false ∧ isUpgrade m = false ∧ isWbRep m = false := by
    cases m <;> simp_all [isLeave, isFetch, isUpgrade, isWbRep]
  obtain ⟨hinv, hfills, -⟩ := h.leaving hl
  have hlive : x.live = [] := by
    rw [Cell.live, show x.line.cstate = .INVALID from hinv]
    exact live_eq_nil hfills
  have hw : x.tally.wbReps = 0 := by
    simp only [Cell.tally, hu, List.countP_cons, hkind]
    simpa using hnone isWbRep fun m' hm' => by cases m' <;> simp_all [isFetch, isWbRep]
  have hfl : rest.countP isFlushRep = 0 :=
    hnone _ fun m' hm' => by cases m' <;> simp_all [isFetch, isFlushRep]
  refine ⟨hlive, hw, hfl, ?_⟩
  have hlive' : Cell.live { x with up := rest } = x.live := rfl
  simp only [Cell.tally, hlive', hu, List.countP_cons, hkind, hm]
  cases isFlushRep m <;> simp

theorem popLeave (h : Fits k x) {m rest} (hu : x.up = m :: rest) (hm : isLeave m)
    (hs' : k'.sharer = false) (hp' : k'.pending = k.pending) (hr' : k'.requests = k.requests) :
    Fits k' { x with up := rest } := by
  have hl : 0 < x.tally.leaves := by simp [Cell.tally, hu, hm]
  obtain ⟨hlive, hw, hfl, htally⟩ := h.tally_popLeave hu hm
  refine ⟨?_, (List.pairwise_cons.mp (hu ▸ h.order)).2, h.wbAfter, h.served⟩
  rw [htally]
  refine h.toBalance.popLeave hl hw hs' hp' hr' ⟨?_, ?_⟩ ?_
  · simp [Cell.tally, hlive]
  · simp [Cell.tally, hlive]
  · simp only [Cell.tally, hu, List.countP_cons, hfl]
    cases isFlushRep m <;> simp

theorem tally_popWb {d rest} (hu : x.up = .WB_REP d :: rest) :
    Cell.tally { x with up := rest } = { x.tally with wbReps := x.tally.wbReps - 1 } := by
  have hlive' : Cell.live { x with up := rest } = x.live := rfl
  simp only [Cell.tally, hlive', hu, List.countP_cons]
  simp [isFetch, isUpgrade, isLeave, isFlushRep, isWbRep]

theorem popWb (h : Fits k x) {d rest} (hu : x.up = .WB_REP d :: rest) (hs' : k'.sharer = k.sharer)
    (hp' : k'.pending = k.pending) (hr' : k'.requests = k.requests) :
    Fits k' { x with up := rest } := by
  refine ⟨?_, (List.pairwise_cons.mp (hu ▸ h.order)).2, h.wbAfter, h.served⟩
  rw [tally_popWb hu]
  exact h.toBalance.popWb (by simp [Cell.tally, hu, isWbRep]) hs' hp' hr'

theorem tally_queue {m rest} (hu : x.up = m :: rest) {r} (hm : m.request? = some r) :
    Cell.tally { x with up := rest } = { x.tally with
      fetches := x.tally.fetches - (isFetch m).toNat
      upgrades := x.tally.upgrades - (isUpgrade m).toNat } := by
  have hkind : isLeave m = false ∧ isFlushRep m = false ∧ isWbRep m = false := by
    cases m <;> simp_all [FromCache.request?, isLeave, isFlushRep, isWbRep]
  have hlive' : Cell.live { x with up := rest } = x.live := rfl
  simp only [Cell.tally, hlive', hu, List.countP_cons, hkind]
  cases isFetch m <;> cases isUpgrade m <;> simp

theorem queue (h : Fits k x) {m rest} (hu : x.up = m :: rest) {r} (hm : m.request? = some r)
    (hs' : k'.sharer = k.sharer) (hp' : k'.pending = k.pending)
    (hr' : k'.requests = k.requests ++ [r]) (ha : Allows k' x.tally) :
    Fits k' { x with up := rest } := by
  obtain ⟨hhead, horder⟩ := List.pairwise_cons.mp (hu ▸ h.order)
  have hlast : isFetch m → rest = [] := by
    intro hf
    cases rest with
    | nil => rfl
    | cons m' rest =>
      have := (hhead m' (by simp)).1
      rw [hf] at this; cases this
  refine ⟨?_, horder, h.wbAfter, h.served⟩
  rw [tally_queue hu hm]
  refine h.toBalance.queue ?_ ?_ ?_ hs' hp' hr' ha
  · cases m <;> cases hm
    · exact .inr ⟨.inl rfl, rfl, rfl, by simp [Cell.tally, hu, hlast rfl, isLeave]⟩
    · exact .inr ⟨.inr rfl, rfl, rfl, by simp [Cell.tally, hu, hlast rfl, isLeave]⟩
    · exact .inl ⟨rfl, rfl, rfl⟩
  · simp only [Cell.tally, hu, List.countP_cons]; cases isFetch m <;> simp
  · simp only [Cell.tally, hu, List.countP_cons]; cases isUpgrade m <;> simp

end Fits

end Sniper.Protocol.CacheInvariant
