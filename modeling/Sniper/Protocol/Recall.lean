import Sniper.Protocol.FirstWaiter

/-! # Recalled copies

The directory asks a cache to give a shared copy up only while it waits for that copy, so
the reply to an upgrade finds the copy it upgrades, and the owner of a line has nothing to
upgrade.
-/
namespace Sniper.Protocol.CacheInvariant
open Directory.Handlers Protocol.LastLevelCache

variable {V : Type}

/-- The numbers of a cell against what the directory waits for. -/
structure Recall (k : Watched) (t : Tally) : Prop where
  /-- the reply to an upgrade finds the copy -/
  upgradeRep : 0 < t.upgradeReps → t.cstate = .SHARED_UPGRADING
  recalled : 0 < t.invReqs → k.recalling = true
  /-- a cache that upgrades gives its copy up only when it is recalled -/
  left : 0 < t.leaves → 0 < t.upgrades ∨ .UPGRADE_REQ ∈ k.requests → k.recalling = true
  /-- the owner has nothing to upgrade -/
  upgradeQueued : k.excl = true → .UPGRADE_REQ ∈ k.requests → k.pending = true
  upgradeSent : k.excl = true → 0 < t.upgrades → 0 < t.wbReps
  owned : k.excl = true → t.cstate = .INVALID ∨ t.Exclusive ∨ 0 < t.wbReps
  exFills : k.excl = true → t.fills ≤ t.exReps
  /-- a modified line leaves with its data -/
  flushed : k.modified = true → 0 < t.wbReps ∨ t.leaves ≤ t.flushReps

/-- A cell whose copies are recalled only while the directory waits for them. -/
structure Recalled (k : Watched) (x : Cell V) : Prop extends Recall k x.tally where
  flushAfter : x.live.Pairwise fun m m' => isFlushReq m → isUpgradeRep m' = false
  upgradeAfter : k.excl = true → x.up.Pairwise fun m m' => isUpgrade m → isWbRep m' = false

namespace Recall
variable {k k' : Watched} {t : Tally}

theorem waiters (h : Recall k t) (waiting waking : Bool) :
    Recall k { t with waiting := waiting, waking := waking } :=
  ⟨h.upgradeRep, h.recalled, h.left, h.upgradeQueued, h.upgradeSent, h.owned, h.exFills, h.flushed⟩

theorem silent (h : Recall k t) (hs : t.cstate = .EXCLUSIVE) :
    Recall k { t with cstate := .MODIFIED } := by
  cases h
  constructor <;> grind [Tally.Exclusive]

theorem sendUpgrade (h : Recall k t) (hb : Balance k.toSeen t) (hs : t.cstate = .SHARED) :
    Recall k { t with
      cstate := .SHARED_UPGRADING
      waiting := true
      waking := false
      upgrades := t.upgrades + 1 } := by
  obtain ⟨hfill, hleave, -⟩ := hb.valid (by simp [hs])
  have hex := hb.exFill
  cases h
  constructor <;> grind [Tally.Exclusive]

theorem sendLeave (h : Recall k t) (hb : Balance k.toSeen t) (hs : t.cstate ≠ .INVALID) {f}
    (hu : t.upgradeReps = 0) (hl : 0 < t.upgrades ∨ .UPGRADE_REQ ∈ k.requests → k.recalling = true)
    (hm : k.modified = true → 0 < t.wbReps ∨ f = 1) :
    Recall k { t with
      cstate := .INVALID
      leaves := t.leaves + 1
      flushReps := t.flushReps + f
      invReqs := 0
      flushReqs := 0
      wbReqs := 0 } := by
  obtain ⟨hfill, hleave, -⟩ := hb.valid hs
  cases h
  constructor <;> grind [Tally.Exclusive]

theorem receiveFill (h : Recall k t) (hb : Balance k.toSeen t) {c e} (hf : 0 < t.fills)
    (hc : c = .EXCLUSIVE ∧ e = 1 ∧ 0 < t.exReps ∨ c = .SHARED ∧ e = 0 ∧ t.exReps < t.fills) :
    Recall k { t with
      cstate := c
      waking := true
      fills := t.fills - 1
      exReps := t.exReps - e } := by
  have htok := hb.token
  have hsh : k.sharer.toNat ≤ 1 := Bool.toNat_le _
  cases h
  constructor <;> grind [Tally.Exclusive]

theorem receiveUpgrade (h : Recall k t) (hb : Balance k.toSeen t) (hu : 0 < t.upgradeReps) :
    Recall k { t with
      cstate := .MODIFIED
      waking := true
      upgradeReps := t.upgradeReps - 1 } := by
  have hreq := hb.request
  have hle : (t.waiting || t.waking).toNat ≤ 1 := Bool.toNat_le _
  cases h
  constructor <;> grind [Tally.Exclusive]

theorem sendWriteback (h : Recall k t) (hb : Balance k.toSeen t) (hs : t.cstate ≠ .INVALID)
    (hu : t.upgradeReps = 0) {c} :
    Recall k { t with
      cstate := c
      wbReps := t.wbReps + 1
      wbReqs := t.wbReqs - 1 } := by
  obtain ⟨hfill, hleave, -⟩ := hb.valid hs
  cases h
  constructor <;> grind [Tally.Exclusive]

end Recall

theorem upgradeAfter_of_none {up : List (FromCache V)} (h : up.countP isUpgrade = 0) :
    up.Pairwise fun m m' => isUpgrade m → isWbRep m' = false :=
  List.Pairwise.imp_of_mem (fun {a _} ha _ _ hua => absurd hua (List.countP_eq_zero.mp h a ha))
    (List.pairwise_of_forall (R := fun _ _ => True) fun _ _ => trivial)

theorem upgradeAfter_append {up : List (FromCache V)} {m}
    (h : up.Pairwise fun m m' => isUpgrade m → isWbRep m' = false)
    (hm : isWbRep m = false ∨ up.countP isUpgrade = 0) :
    (up ++ [m]).Pairwise fun m m' => isUpgrade m → isWbRep m' = false := by
  refine List.pairwise_append.mpr ⟨h, List.pairwise_singleton _ _, fun a ha b hb hua => ?_⟩
  rw [List.mem_singleton.mp hb]
  rcases hm with hm | hm
  · exact hm
  · exact absurd hua (List.countP_eq_zero.mp hm a ha)

namespace Recalled
variable {k k' : Watched} {x : Cell V}

theorem setLine (h : Recalled k x) {line} (hv : line.cstate = .INVALID ↔ x.line.cstate = .INVALID)
    (hr : Recall k (x.tally.withLine line)) : Recalled k { x with line } where
  toRecall := by rw [tally_line x hv]; exact hr
  flushAfter := by
    have : Cell.live { x with line } = x.live := live_congr hv _
    rw [this]; exact h.flushAfter
  upgradeAfter := h.upgradeAfter

theorem waiters (h : Recalled k x) {line} (hc : line.cstate = x.line.cstate) :
    Recalled k { x with line } := by
  refine h.setLine (by rw [hc]) ?_
  have : x.tally.withLine line = { x.tally with
      waiting := line.waiters ≠ [], waking := line.phase ≠ .idle } := by
    simp only [Tally.withLine, hc]
    rfl
  rw [this]
  exact h.toRecall.waiters _ _

theorem fetchWaiting (h : Recalled k x) {waiters} (hne : waiters ≠ []) {m} (hm : isFetch m = true) :
    Recalled k { x with line := { x.line with waiters }, up := x.up ++ [m] } where
  toRecall := by
    rw [tally_fetch hne hm]
    exact ⟨h.upgradeRep, h.recalled, h.left, h.upgradeQueued, h.upgradeSent, h.owned, h.exFills,
      h.toRecall.flushed⟩
  flushAfter := h.flushAfter
  upgradeAfter := fun hx =>
    upgradeAfter_append (h.upgradeAfter hx) (.inl (by cases m <;> cases hm <;> rfl))

theorem startUpgrade (h : Recalled k x) (hf : Fits k.toSeen x) (hs : x.line.cstate = .SHARED)
    {waiters} (hne : waiters ≠ []) :
    Recalled k { x with
      line := { x.line with cstate := .SHARED_UPGRADING, waiters, phase := .idle }
      up := x.up ++ [.UPGRADE_REQ] } where
  toRecall := by
    rw [tally_startUpgrade hs hne]
    exact h.toRecall.sendUpgrade hf.toBalance hs
  flushAfter := by
    show (live _ _).Pairwise _
    rw [live_congr (s := x.line.cstate) (by simp [hs])]
    exact h.flushAfter
  upgradeAfter := fun hx => upgradeAfter_append (h.upgradeAfter hx) (.inl rfl)

theorem leave (h : Recalled k x) (hf : Fits k.toSeen x) (hs : x.line.cstate ≠ .INVALID) {m}
    (hm : m = .INV_REP ∨ ∃ d, m = .FLUSH_REP d) {dn}
    (hdn : dn = x.dn ∨ ∃ a, isAsk a ∧ x.dn = a :: dn) (hu : x.tally.upgradeReps = 0)
    (hl : 0 < x.tally.upgrades ∨ .UPGRADE_REQ ∈ k.requests → k.recalling = true)
    (hdirty : k.modified = true → 0 < x.tally.wbReps ∨ isFlushRep m = true) :
    Recalled k ⟨{ x.line with cstate := .INVALID }, x.up ++ [m], dn⟩ where
  toRecall := by
    rw [tally_leave (hf.valid hs).1 hm hdn]
    refine h.toRecall.sendLeave hf.toBalance hs hu hl fun hk => (hdirty hk).imp_right fun hfl => ?_
    rw [hfl]
    rfl
  flushAfter := by simp [Cell.live, live_leave (hf.valid hs).1 hdn]
  upgradeAfter := fun hx => by
    refine upgradeAfter_append (h.upgradeAfter hx) (.inl ?_)
    obtain rfl | ⟨d, rfl⟩ := hm <;> rfl

theorem fill (h : Recalled k x) (hf : Fits k.toSeen x) (hs : x.line.cstate = .INVALID) {m rest}
    (hd : x.dn = m :: rest) {c data}
    (hc : c = .EXCLUSIVE ∧ m = .EX_REP data ∨ c = .SHARED ∧ m = .SH_REP data) :
    Recalled k ⟨{ x.line with cstate := c, data := data, phase := .loop }, x.up, rest⟩ where
  toRecall := by
    obtain ⟨⟨hm, -⟩, -⟩ := fill_kind hc
    rw [tally_fill hs hd hc]
    refine h.toRecall.receiveFill hf.toBalance (by simp [Cell.tally, hd, hm])
      (fill_counted hd hc)
  flushAfter := by
    show (live c rest).Pairwise _
    rw [live_fill hs hd hc]; exact h.flushAfter
  upgradeAfter := h.upgradeAfter

theorem upgraded (h : Recalled k x) (hf : Fits k.toSeen x) (hs : x.line.cstate = .SHARED_UPGRADING)
    {rest} (hd : x.dn = .UPGRADE_REP :: rest) :
    Recalled k ⟨{ x.line with cstate := .MODIFIED, phase := .loop }, x.up, rest⟩ where
  toRecall := by
    rw [tally_upgraded hs hd]
    exact h.toRecall.receiveUpgrade hf.toBalance (by simp [Cell.tally, hd, isUpgradeRep])
  flushAfter := by
    have hafter := h.flushAfter
    rw [Cell.live, live_valid (by simp [hs]), hd] at hafter
    exact (List.pairwise_cons.mp hafter).2
  upgradeAfter := h.upgradeAfter

theorem answer (h : Recalled k x) (hf : Fits k.toSeen x) (hs : x.line.cstate ≠ .INVALID) {rest}
    (hd : x.dn = .WB_REQ :: rest) {c} (hvalid : c ≠ .INVALID) (data : V) :
    Recalled k ⟨{ x.line with cstate := c }, x.up ++ [.WB_REP data], rest⟩ := by
  have hlive : x.live = .WB_REQ :: rest := by rw [Cell.live, live_valid hs, hd]
  have hafter := hf.wbAfter
  rw [hlive] at hafter
  have hup : x.tally.upgradeReps = 0 := by
    simp only [Cell.tally, hd]
    refine List.countP_eq_zero.mpr fun m hm => ?_
    obtain rfl | hm := List.mem_cons.mp hm
    · simp [isUpgradeRep]
    · simp [(List.pairwise_cons.mp hafter).1 m hm rfl]
  have hwb : x.tally.wbReps = 0 := by
    have hle := hf.writeback
    have hone := Bool.toNat_le k.wbWait
    have hpos : 0 < x.tally.wbReqs := by simp [Cell.tally, hlive, isWbReq]
    omega
  refine ⟨?_, ?_, fun hx => upgradeAfter_append (h.upgradeAfter hx) (.inr ?_)⟩
  · rw [tally_answer hs hvalid hd]
    exact h.toRecall.sendWriteback hf.toBalance hs hup
  · show (live c rest).Pairwise _
    have := h.flushAfter
    rw [hlive] at this
    rw [live_valid hvalid]
    exact (List.pairwise_cons.mp this).2
  · by_contra hne
    have := h.upgradeSent hx (Nat.pos_of_ne_zero hne)
    omega

theorem act (h : Recalled k x) (hh : Headed k x) (hf : Fits k.toSeen x) {w line sent}
    (ha : Act x.line none w line sent) :
    Recalled k { x with line, up := x.up ++ sent } := by
  -- a copy that is not being upgraded awaits no upgrade
  have hnot : x.line.cstate ≠ .SHARED_UPGRADING → x.line.cstate ≠ .INVALID →
      x.tally.upgradeReps = 0 ∧
        (0 < x.tally.upgrades ∨ .UPGRADE_REQ ∈ k.requests → k.recalling = true) := by
    intro hu hv
    refine ⟨?_, fun hup => ?_⟩
    · by_contra hne
      exact hu (h.upgradeRep (Nat.pos_of_ne_zero hne))
    · rcases hf.upgrade (hup.imp_right .inl) with hc | hc
      · exact absurd hc hu
      · exact absurd hc hv
  cases ha with
  | same => simpa using h
  | silent hs =>
    simp only [List.append_nil]
    exact h.setLine (by simp [hs]) (h.toRecall.silent hs)
  | enqueue exclusive hp hw | store v hs | wakeDone hp hw | wakeServe hp hw hs | dequeue hp =>
    simp only [List.append_nil]
    exact h.waiters rfl
  | upgrade hp hw hs =>
    have hidle := phase_idle hf.served hp hw
    have := h.startUpgrade hf hs (List.cons_ne_nil true [])
    rwa [← hidle] at this
  | fetchExclusive hp hw hs | fetchShared hp hw hs => exact h.fetchWaiting (by simp) rfl
  | evictDirty hp hs =>
    obtain ⟨hu, hl⟩ := hnot (by simp [hs]) (by simp [hs])
    exact h.leave hf (by simp [hs]) (.inr ⟨_, rfl⟩) (.inl rfl) hu hl fun _ => .inr rfl
  | evictClean hp hs =>
    have hv : x.line.cstate ≠ .INVALID := by rcases hs with hs | hs <;> simp [hs]
    obtain ⟨hu, hl⟩ := hnot (by rcases hs with hs | hs <;> simp [hs]) hv
    refine h.leave hf hv (.inl rfl) (.inl rfl) hu hl fun hm => .inl ?_
    have hfill : x.tally.exReps = 0 := by
      have := (hf.valid hv).1
      have := hf.exFill
      omega
    rcases h.owned (k.modifiedExcl hm) with hc | (hc | hc | hc | hc) | hc
    · exact absurd hc hv
    · have := (hh.silent hm hc).1
      rw [hp] at this
      cases this
    · rw [show x.line.cstate = .MODIFIED from hc] at hs
      simp at hs
    · omega
    · rw [show x.line.cstate = .SHARED_UPGRADING from hc.1] at hs
      simp at hs
    · exact hc
  | wakeUpgrade hp hw hs => exact h.startUpgrade hf hs (by simp [hw])
  | wakeSilent hp hw hs =>
    simp only [List.append_nil]
    refine h.setLine (by simp [hs]) ?_
    exact (h.toRecall.silent hs).waiters _ _

theorem receive (h : Recalled k x) (hf : Fits k.toSeen x) {m rest} (hd : x.dn = m :: rest)
    {line sent w} (ha : Act x.line (some m) w line sent) :
    Recalled k ⟨line, x.up ++ sent, rest⟩ := by
  cases ha with
  | fillExclusive d hp hw hs =>
    rw [List.append_nil]
    exact h.fill hf hs hd (.inl ⟨rfl, rfl⟩)
  | fillShared d hp hw hs =>
    rw [List.append_nil]
    exact h.fill hf hs hd (.inr ⟨rfl, rfl⟩)
  | upgraded hp hw hs =>
    rw [List.append_nil]
    exact h.upgraded hf hs hd
  | ignore hp hm hs =>
    obtain ⟨hlive, htally⟩ := tally_ignore hs hm hd
    rw [List.append_nil]
    exact ⟨by rw [htally]; exact h.toRecall, by rw [hlive]; exact h.flushAfter, h.upgradeAfter⟩
  | invalidate hp hs hm =>
    have hpos : 0 < x.tally.invReqs := by
      simp [Cell.tally, Cell.live, live_valid hs, hd, isInvReq]
    have hrec := h.recalled hpos
    have hexcl := k.recallShared hrec
    refine h.leave hf hs (.inl rfl) (.inr ⟨_, rfl, hd⟩) ?_ (fun _ => hrec) fun hk => ?_
    · by_contra hne
      have hup := Nat.pos_of_ne_zero hne
      have := hf.excl (.inr (.inr (.inr ⟨h.upgradeRep hup, hup⟩)))
      rw [hexcl] at this
      cases this
    · have := k.modifiedExcl hk
      rw [hexcl] at this
      cases this
  | flush hp hs =>
    have hlive : x.live = .FLUSH_REQ :: rest := by rw [Cell.live, live_valid hs, hd]
    have hafter := h.flushAfter
    rw [hlive] at hafter
    have hpos : 0 < x.tally.flushReqs := by simp [Cell.tally, hlive, isFlushReq]
    have hflush := hf.flushing hpos
    obtain ⟨-, -, hpend, hsh⟩ := hf.valid hs
    refine h.leave hf hs (.inr ⟨_, rfl⟩) (.inr ⟨_, rfl, hd⟩) ?_ (fun hup => ?_) fun _ => .inr rfl
    · simp only [Cell.tally, hd]
      refine List.countP_eq_zero.mpr fun m hm => ?_
      obtain rfl | hm := List.mem_cons.mp hm
      · simp [isUpgradeRep]
      · simp [(List.pairwise_cons.mp hafter).1 m hm rfl]
    · rcases k.recallFlush hflush hsh with hexcl | hrec
      · have hwb : x.tally.wbReps = 0 := by
          have hle := hf.writeback
          have hno : k.wbWait = false := by
            by_contra hne
            have := k.wbOrFlush (by simpa using hne)
            rw [hflush] at this
            cases this
          rw [hno] at hle
          simpa using Nat.le_zero.mp (Nat.le_of_add_right_le hle)
        rcases hup with hup | hup
        · have := h.upgradeSent hexcl hup
          omega
        · have := h.upgradeQueued hexcl hup
          rw [hpend] at this
          cases this
      · exact hrec
  | writebackUpgrading d hp hs =>
    have := h.answer hf (by simp [hs]) hd (c := .SHARED_UPGRADING) (by simp) d
    rwa [← hs] at this
  | writeback hp hs hu => exact h.answer hf hs hd (by simp) _

theorem step (h : Recalled k x) (hh : Headed k x) (hf : Fits k.toSeen x) {w x'}
    (hs : CellStep x w x') : Recalled k x' := by
  cases hs with
  | act hs => exact h.act hh hf hs.act
  | receive hd hs => exact h.receive hf hd hs.act

end Recalled

/-! ## Recalled copies and the directory -/

/-- The copy was recalled, or has gone because of that while it is upgraded. -/
def Cell.Called (x : Cell V) (requests : List ReqType) : Prop :=
  0 < x.tally.invReqs ∨
    0 < x.tally.leaves ∧ (0 < x.tally.upgrades ∨ .UPGRADE_REQ ∈ requests)

namespace Recalled
variable {k k' : Watched} {x : Cell V}

theorem called (h : Recalled k x) (hc : x.Called k.requests) : k.recalling = true := by
  rcases hc with hc | ⟨hl, hu⟩
  · exact h.recalled hc
  · exact h.left hl hu

theorem relax (h : Recalled k x) (hr : k'.requests = k.requests) (hp : k'.pending = k.pending)
    (hx : k'.excl = true → k.excl = true) (hm : k'.modified = true → k.modified = true)
    (hc : x.Called k.requests → k'.recalling = true) : Recalled k' x where
  upgradeRep := h.upgradeRep
  recalled := fun hi => hc (.inl hi)
  left := fun hl hu => hc (.inr ⟨hl, by rwa [hr] at hu⟩)
  upgradeQueued := fun he hu => by
    rw [hp]
    exact h.upgradeQueued (hx he) (by rwa [hr] at hu)
  upgradeSent := fun he => h.upgradeSent (hx he)
  owned := fun he => h.owned (hx he)
  exFills := fun he => h.exFills (hx he)
  flushed := fun hk => h.toRecall.flushed (hm hk)
  flushAfter := h.flushAfter
  upgradeAfter := fun he => h.upgradeAfter (hx he)

theorem not_called (hf : Fits k.toSeen x) (hs : k.sharer = k.pending) (q : List ReqType) :
    ¬ x.Called q := by
  obtain ⟨-, -, hl, -⟩ := hf.absent hs
  have hlive := hf.live_nil hs
  rintro (hi | ⟨hl', -⟩)
  · simp [Cell.tally, hlive] at hi
  · omega

theorem ask (h : Recalled k x) {m} (hm : isAsk m) (hi : isInvReq m = true → k.recalling = true) :
    Recalled k (x.post [m]) := by
  obtain ⟨-, -, hup⟩ := isAsk_kinds hm
  rcases tally_ask x hm with ⟨hlive, htally⟩ | ⟨hlive, htally⟩
  · refine ⟨?_, ?_, h.upgradeAfter⟩
    · rw [htally]
      refine { h.toRecall with recalled := fun hpos => ?_ }
      cases hinv : isInvReq m with
      | true => exact hi hinv
      | false =>
        rw [hinv] at hpos
        exact h.recalled (by simpa using hpos)
    · rw [hlive]
      refine List.pairwise_append.mpr ⟨h.flushAfter, List.pairwise_singleton _ _,
        fun a _ b hb _ => ?_⟩
      rw [List.mem_singleton.mp hb]
      exact hup
  · exact ⟨by rw [htally]; exact h.toRecall, by rw [hlive]; exact h.flushAfter, h.upgradeAfter⟩

theorem join (h : Recalled k x) (hf : Fits k.toSeen x) (hs : k.sharer = k.pending)
    (hp' : k'.pending = true) {r} (hr : r ∈ k.requests) : Recalled k' x := by
  obtain ⟨hinv, hfill, hleave, hex, hfl⟩ := hf.absent hs
  obtain ⟨hone, -, hup, -, hur, -, -⟩ := hf.requested hr
  have hlive := hf.live_nil hs
  refine ⟨⟨h.upgradeRep, ?_, ?_, fun _ _ => hp', ?_, fun _ => .inl hinv, ?_, ?_⟩, h.flushAfter, ?_⟩
  · intro hpos
    simp [Cell.tally, hlive] at hpos
  · intro hpos
    omega
  · intro _ hpos
    omega
  · intro _
    omega
  · intro _
    exact .inr (by omega)
  · exact fun _ => upgradeAfter_of_none hup

theorem grant (h : Recalled k x) (hf : Fits k.toSeen x) (hs : k.sharer = k.pending) {r}
    (hr : r ∈ k.requests) (hr' : k'.requests = []) {m} (hm : isFill m = true)
    (hx : k'.excl = true → isExRep m = true) : Recalled k' (x.post [m]) := by
  obtain ⟨hinv, hfill, hleave, hex, hfl⟩ := hf.absent hs
  obtain ⟨hone, -, hup, -, hur, -, -⟩ := hf.requested hr
  have hlive := hf.live_nil hs
  obtain ⟨hlive', htally⟩ := hf.tally_grant hs hm
  refine ⟨?_, by rw [hlive']; exact .nil, ?_⟩
  · rw [htally]
    refine ⟨h.upgradeRep, ?_, ?_, fun _ hu => ?_, ?_, fun _ => .inl hinv, fun he => ?_, ?_⟩
    · intro hpos
      simp [Cell.tally, hlive] at hpos
    · intro hpos
      have hpos : 0 < x.tally.leaves := hpos
      omega
    · rw [hr'] at hu
      simp at hu
    · intro _ hpos
      have hpos : 0 < x.tally.upgrades := hpos
      omega
    · show x.tally.fills + 1 ≤ x.tally.exReps + (isExRep m).toNat
      rw [hx he, hfill]
      simp
    · intro _
      refine .inr ?_
      show x.tally.leaves ≤ x.tally.flushReps
      omega
  · exact fun _ => upgradeAfter_of_none hup

theorem grantUpgrade (h : Recalled k x) (hf : Fits k.toSeen x) (hr : .UPGRADE_REQ ∈ k.requests)
    (hk : k.Calm) (hrec : k.recalling = false) (hs : k.sharer = true) (hp : k.pending = false)
    (hr' : k'.requests = []) : Recalled k' (x.post [.UPGRADE_REP]) := by
  obtain ⟨hone, -, hup, hfill, hur, -, -⟩ := hf.requested hr
  obtain ⟨hlive, htally⟩ := hf.tally_grantUpgrade hr
  have hinv : x.tally.invReqs = 0 := by
    by_contra hne
    have := h.recalled (Nat.pos_of_ne_zero hne)
    rw [hrec] at this
    cases this
  have hleave : x.tally.leaves = 0 := by
    by_contra hne
    have := h.left (Nat.pos_of_ne_zero hne) (.inr hr)
    rw [hrec] at this
    cases this
  have hcopy : x.tally.cstate = .SHARED_UPGRADING := by
    refine (hf.upgrade (.inr (.inl hr))).resolve_right fun hc => ?_
    have htok := hf.token
    rw [if_pos hc, hs, hp, hfill, hleave] at htok
    simp at htok
  have hnoflush : x.live.countP isFlushReq = 0 := by
    by_contra hne
    have := hf.flushing (Nat.pos_of_ne_zero hne)
    rw [hk.flushing] at this
    cases this
  refine ⟨?_, ?_, ?_⟩
  · rw [htally]
    refine ⟨fun _ => hcopy, ?_, ?_, fun _ hu => ?_, ?_, fun _ => ?_, ?_, ?_⟩
    · intro hpos
      have hpos : 0 < x.tally.invReqs := hpos
      omega
    · intro hpos
      have hpos : 0 < x.tally.leaves := hpos
      omega
    · rw [hr'] at hu
      simp at hu
    · intro _ hpos
      have hpos : 0 < x.tally.upgrades := hpos
      omega
    · exact .inr (.inl (.inr (.inr (.inr ⟨hcopy, Nat.succ_pos _⟩))))
    · intro _
      show x.tally.fills ≤ x.tally.exReps
      omega
    · intro _
      refine .inr ?_
      show x.tally.leaves ≤ x.tally.flushReps
      omega
  · rcases hlive with hl | hl
    · rw [hl]; exact h.flushAfter
    · rw [hl]
      refine List.pairwise_append.mpr ⟨h.flushAfter, List.pairwise_singleton _ _,
        fun a ha b _ hfa => ?_⟩
      exact absurd hfa (List.countP_eq_zero.mp hnoflush a ha)
  · exact fun _ => upgradeAfter_of_none hup

theorem popLeave (h : Recalled k x) (hf : Fits k.toSeen x) {m rest} (hu : x.up = m :: rest)
    (hm : isLeave m = true) (hx : k'.excl = false) : Recalled k' { x with up := rest } := by
  obtain ⟨-, -, hone, -⟩ := hf.leaving (by simp [Cell.tally, hu, hm] : 0 < x.tally.leaves)
  obtain ⟨hlive, -, -, htally⟩ := hf.tally_popLeave hu hm
  have hnot : ¬ k'.excl = true := by simp [hx]
  have hmod : ¬ k'.modified = true := fun hk => hnot (k'.modifiedExcl hk)
  refine ⟨?_, h.flushAfter, fun he => absurd he hnot⟩
  rw [htally]
  refine ⟨h.upgradeRep, ?_, ?_, fun he => absurd he hnot, fun he => absurd he hnot,
    fun he => absurd he hnot, fun he => absurd he hnot, fun hk => absurd hk hmod⟩
  · intro hpos
    simp [Cell.tally, hlive] at hpos
  · intro hpos
    have hpos : 0 < x.tally.leaves - 1 := hpos
    omega

theorem popWb (h : Recalled k x) {d rest} (hu : x.up = .WB_REP d :: rest)
    (hr' : k'.requests = k.requests) (hx : k'.excl = false) (hc : k.recalling = false) :
    Recalled k' { x with up := rest } := by
  have hnot : ¬ k'.excl = true := by simp [hx]
  have hmod : ¬ k'.modified = true := fun hk => hnot (k'.modifiedExcl hk)
  refine ⟨?_, h.flushAfter, fun he => absurd he hnot⟩
  rw [Fits.tally_popWb hu]
  refine ⟨h.upgradeRep, fun hi => ?_, fun hl ho => ?_, fun he => absurd he hnot,
    fun he => absurd he hnot, fun he => absurd he hnot, fun he => absurd he hnot,
    fun hk => absurd hk hmod⟩
  · have := h.recalled hi
    rw [hc] at this
    cases this
  · have := h.left hl (by rwa [hr'] at ho)
    rw [hc] at this
    cases this

theorem queue (h : Recalled k x) {m rest} (hu : x.up = m :: rest) {r} (hm : m.request? = some r)
    (hp' : k'.pending = k.pending) (hr' : k'.requests = k.requests ++ [r])
    (hx : k'.excl = true → k.excl = true) (hmod : k'.modified = true → k.modified = true)
    (hc : k.recalling = true → k'.recalling = true) : Recalled k' { x with up := rest } := by
  have hpw : k.excl = true → (∀ m' ∈ rest, isUpgrade m → isWbRep m' = false) ∧
      rest.Pairwise fun m m' => isUpgrade m → isWbRep m' = false := fun he =>
    List.pairwise_cons.mp (hu ▸ h.upgradeAfter he)
  -- the owner sends no upgrade request, but behind a write-back
  have howner : k.excl = true → r ≠ .UPGRADE_REQ := by
    rintro he rfl
    have hm' : m = .UPGRADE_REQ := by cases m <;> cases hm; rfl
    subst hm'
    have hwb := h.upgradeSent he (by simp [Cell.tally, hu, isUpgrade])
    have hno : rest.countP isWbRep = 0 :=
      List.countP_eq_zero.mpr fun m' hm' => by simp [(hpw he).1 m' hm' rfl]
    simp [Cell.tally, hu, isWbRep, hno] at hwb
  refine ⟨?_, h.flushAfter, fun he => (hpw (hx he)).2⟩
  rw [Fits.tally_queue hu hm]
  have hout : 0 < x.tally.upgrades - (isUpgrade m).toNat ∨ .UPGRADE_REQ ∈ k'.requests →
      0 < x.tally.upgrades ∨ .UPGRADE_REQ ∈ k.requests := by
    rw [hr']
    rintro (hup | hq)
    · exact .inl (by omega)
    · rcases List.mem_append.mp hq with hq | hq
      · exact .inr hq
      · rw [← List.mem_singleton.mp hq] at hm
        have hm' : m = .UPGRADE_REQ := by cases m <;> cases hm; rfl
        subst hm'
        exact .inl (by simp [Cell.tally, hu, isUpgrade])
  refine ⟨h.upgradeRep, fun hi => hc (h.recalled hi), fun hl ho => hc (h.left hl (hout ho)),
    fun he hq => ?_, fun he hup => ?_, fun he => h.owned (hx he), fun he => h.exFills (hx he),
    fun hk => h.toRecall.flushed (hmod hk)⟩
  · rw [hr'] at hq
    rw [hp']
    rcases List.mem_append.mp hq with hq | hq
    · exact h.upgradeQueued (hx he) hq
    · exact absurd (List.mem_singleton.mp hq).symm (howner (hx he))
  · have hup : 0 < x.tally.upgrades - (isUpgrade m).toNat := hup
    exact h.upgradeSent (hx he) (by omega)

end Recalled
end Sniper.Protocol.CacheInvariant
