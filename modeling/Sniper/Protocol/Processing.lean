import Sniper.Protocol.LineInvariant

/-! # Processing the front request

Each way the processing of the front request can end keeps the invariant: the directory
waits for an answer that is on its way, or the request is completed and the next one is in
front.
-/
namespace Sniper.Protocol.LineInvariant
open Directory.DirectoryEntry Directory.Handlers Directory.Outcomes
open Protocol.LastLevelCache Protocol.CacheInvariant

variable {n : Nat} {V : Type} {cfg : Config} {l : Line n V} {x : Fin n → Cell V}
  {r : ShmemReq n V} {q : List (ShmemReq n V)} {sent : List (Send n V)} {buf : Option V}

/-! ## Messages -/

theorem toCache_single (o c : Fin n) (m : ToCache V) :
    toCache c [.cache o m] = if o = c then [m] else [] := by
  by_cases h : o = c <;> simp [toCache, forCache, h]

theorem toCache_read (c : Fin n) : toCache c ([.DRAM_READ_REQ] : List (Send n V)) = [] := rfl

theorem toCache_map {α : Type} {ps : List α} {g} (hn : (ps.map g).Nodup) (f : α → ToCache V)
    (c : Fin n) :
    toCache c (ps.map fun p => .cache (g p) (f p)) = [] ∧ c ∉ ps.map g ∨
      ∃ p ∈ ps, g p = c ∧ toCache c (ps.map fun p => .cache (g p) (f p)) = [f p] := by
  induction ps with
  | nil => exact .inl ⟨rfl, by simp⟩
  | cons p ps ih =>
    obtain ⟨hp, hn⟩ := List.nodup_cons.mp hn
    have hcons : toCache c ((p :: ps).map fun p => .cache (g p) (f p)) =
        (if g p = c then [f p] else []) ++ toCache c (ps.map fun p => .cache (g p) (f p)) := by
      by_cases h : g p = c <;> simp [toCache, forCache, h]
    rcases ih hn with ⟨h, hc⟩ | ⟨p', hp', hc, h⟩
    · by_cases hgp : g p = c
      · exact .inr ⟨p, List.mem_cons_self, hgp, by rw [hcons, if_pos hgp, h]; rfl⟩
      · exact .inl ⟨by rw [hcons, if_neg hgp, h]; rfl, by simp [Ne.symm hgp, hc]⟩
    · have hgp : g p ≠ c := fun h' => hp (h' ▸ hc ▸ List.mem_map_of_mem hp')
      exact .inr ⟨p', List.mem_cons_of_mem _ hp', hc, by rw [hcons, if_neg hgp, h]; rfl⟩

theorem toCache_sendAll (e : Entry n) (m : ToCache V) (c : Fin n) :
    toCache c (sendAll e.getSharersList m) = if c ∈ e.sharers then [m] else [] := by
  have hn : (e.getSharersList.map id).Nodup := by simpa using Entry.getSharersList_nodup e
  rcases toCache_map hn (fun _ => m) c with ⟨h, hc⟩ | ⟨p, hp, rfl, h⟩
  · rw [if_neg (by simpa using hc)]; exact h
  · rw [if_pos (by simpa using hp)]; exact h

theorem toCache_upgradeInvalidations (d : Fin n) (e : Entry n) (c : Fin n) :
    toCache c (upgradeInvalidations (V := V) d e) = [] ∧ (c ∉ e.sharers ∨ c = d) ∨
      c ∈ e.sharers ∧ c ≠ d ∧ (toCache c (upgradeInvalidations (V := V) d e) = [.INV_REQ] ∨
        toCache c (upgradeInvalidations (V := V) d e) = [.FLUSH_REQ] ∧ d ∉ e.sharers) := by
  have hn : ((e.getSharersList.zipIdx.filter (·.1 ≠ d)).map Prod.fst).Nodup := by
    refine List.Nodup.sublist (List.filter_sublist.map _) ?_
    rw [List.zipIdx_map_fst]
    exact Entry.getSharersList_nodup e
  have hmem : ∀ p : Fin n × Nat, p ∈ e.getSharersList.zipIdx → p.1 ∈ e.sharers := fun p hp =>
    Entry.mem_getSharersList.mp (by
      have := List.mem_map_of_mem (f := Prod.fst) hp
      rwa [List.zipIdx_map_fst] at this)
  rcases toCache_map hn (fun p => if !e.hasSharer d && p.2 == 0 then .FLUSH_REQ else .INV_REQ) c
    with ⟨h, hc⟩ | ⟨p, hp, rfl, h⟩
  · refine .inl ⟨h, ?_⟩
    by_contra hne
    obtain ⟨hcs, hcd⟩ := not_or.mp hne
    have hl : c ∈ e.getSharersList.zipIdx.map Prod.fst := by
      rw [List.zipIdx_map_fst]
      exact Entry.mem_getSharersList.mpr (not_not.mp hcs)
    obtain ⟨p, hp, rfl⟩ := List.mem_map.mp hl
    exact hc (List.mem_map_of_mem (List.mem_filter.mpr ⟨hp, by simpa using hcd⟩))
  · obtain ⟨hp, hd⟩ := List.mem_filter.mp hp
    refine .inr ⟨hmem p hp, by simpa using hd, ?_⟩
    by_cases hf : (!e.hasSharer d && p.2 == 0) = true
    · refine .inr ⟨by rw [if_pos hf] at h; exact h, ?_⟩
      simp [Entry.hasSharer] at hf
      exact hf.1
    · exact .inl (by rw [if_neg hf] at h; exact h)

/-! ## Asking for copies -/

theorem Common.rise (h : Common false l x) (c : Fin n) : Fits (seen true l c) (x c) :=
  (h.fits c).relax rfl rfl rfl ((h.fits c).toBalance.allows.of_calm (seen_calm l c) id)

theorem Ready.settle (h : Ready cfg buf l x) (hq : l.queue = []) : Settled cfg l x 0 where
  toCommon := { h.toCommon with fits := h.rise }
  forwarder := h.forwarder.resolve_right (by simp [hq])
  awaits := by simp [hq]
  reading := by simp [hq]

/-- The messages ask caches that may be asked, each at most once. -/
def Asking (l : Line n V) (sent : List (Send n V)) : Prop :=
  ∀ c, toCache c sent = [] ∨ ∃ m, toCache c sent = [m] ∧ isAsk m = true ∧
    (isFlushReq m = true → flushing l c = true) ∧ (isWbReq m = true → wbWait l c = true)

theorem Common.ask (h : Common false l x) (hs : Asking l sent) (c : Fin n) :
    Fits (seen true l c) (deliver sent x c) := by
  rw [deliver]
  rcases hs c with hnil | ⟨m, hm, hask, hfl, hwb⟩
  · rw [hnil, Cell.post_nil]; exact h.rise c
  · rw [hm]
    refine (h.rise c).ask hask (fun hf => by simpa [seen] using hfl hf) fun hw => ?_
    refine ⟨by simpa [seen] using hwb hw, ?_⟩
    have := (h.fits c).writeback
    simpa [seen] using this

theorem Common.asked (h : Common false l x) {c} (hc : c ∈ l.entry.sharers)
    (hp : pending l.queue c = false) {m} (hm : toCache c sent = [m]) :
    (isInvReq m = true ∨ isFlushReq m = true → (deliver sent x c).Asked) ∧
      (isWbReq m = true → (deliver sent x c).AskedWb) := by
  rw [deliver, hm]
  exact (h.fits c).asked_post (decide_eq_true hc) hp m

theorem Ready.asking (h : Ready cfg buf l x) (hq : l.queue = r :: q) (hfw : Forwardable cfg l)
    (hs : Asking l sent) (ha : Awaits l (deliver sent x) r) :
    Settled cfg l (deliver sent x) 0 where
  toCommon := { h.toCommon with fits := h.ask hs }
  forwarder := hfw
  awaits := by
    intro r' hr' _
    rw [hq] at hr'
    cases hr'
    exact ha
  reading := by
    have := h.idle r (by rw [hq]; rfl)
    simp [hq, this]

theorem Ready.not_pending (h : Ready cfg buf l x) (hq : l.queue = r :: q)
    (hf : r.forwardingFrom = none) (c : Fin n) : pending l.queue c = false := by
  have := h.idle r (by rw [hq]; rfl)
  rw [hq]
  simp [pending, this, ShmemReq.isForwarding, hf]

theorem Ready.forwardable (h : Ready cfg buf l x) (hq : l.queue = r :: q)
    (ht : r.msgType ≠ .SH_REQ ∨ l.entry.dstate ≠ .SHARED ∨ buf = none) : Forwardable cfg l := by
  refine h.forwarder.resolve_right ?_
  rintro ⟨hb, hd, -, r', hr', ht'⟩
  rw [hq] at hr'
  cases hr'
  rcases ht with ht | ht | ht
  · exact ht ht'
  · exact ht hd
  · rw [ht] at hb; cases hb

theorem Ready.forwarding_none (h : Ready cfg buf l x) (hq : l.queue = r :: q)
    (ht : r.msgType ≠ .SH_REQ ∨ l.entry.dstate ≠ .SHARED) : r.forwardingFrom = none := by
  cases hf : r.forwardingFrom with
  | none => rfl
  | some f =>
    have := h.forwards r (by rw [hq]; rfl) (by simp [ShmemReq.isForwarding, hf])
    rcases ht with ht | ht
    · exact absurd this.1 ht
    · exact absurd this.2.1 ht

theorem Ready.not_sharer (h : Ready cfg buf l x) (hq : l.queue = r :: q)
    (hf : r.forwardingFrom = none) (ht : r.msgType = .EX_REQ ∨ r.msgType = .SH_REQ) :
    r.requester ∉ l.entry.sharers := by
  have htok := h.front_absent hq (by rcases ht with ht | ht <;> simp [ht])
  rw [show (seen false l r.requester).pending = false from h.not_pending hq hf _] at htok
  exact of_decide_eq_false htok

theorem Shaped.sharers_ne {e : Entry n} (h : Shaped e) (hd : e.dstate ≠ .UNCACHED) :
    e.sharers ≠ ∅ := mt h.uncached.mpr hd

section Ask
variable (h : Ready cfg buf l x) (hq : l.queue = r :: q)
include h hq

theorem Ready.flushOwner {o} (ht : r.msgType ≠ .SH_REQ)
    (hd : l.entry.dstate = .EXCLUSIVE ∨ l.entry.dstate = .MODIFIED) (ho : l.entry.owner = some o)
    (hu : r.msgType = .UPGRADE_REQ → ∃ c ∈ l.entry.sharers, c ≠ r.requester) :
    Settled cfg l (deliver [.cache o .FLUSH_REQ] x) 0 := by
  have howns : owns l.entry o = true := owns_iff.mpr ⟨hd, ho⟩
  have hsh := h.shaped.sharers_of_owns howns
  have hwait : r.waitForData = false := h.idle r (by rw [hq]; rfl)
  have hp := h.not_pending hq (h.forwarding_none hq (.inl ht))
  have hasked : ∀ s ∈ l.entry.sharers, (deliver [.cache o .FLUSH_REQ] x s).Asked := by
    intro s hs
    rw [hsh, Finset.mem_singleton] at hs
    subst hs
    exact (h.asked (by simp [hsh]) (hp s) (by rw [toCache_single, if_pos rfl])).1 (.inr rfl)
  refine h.asking hq (h.forwardable hq (.inl ht)) (fun c => ?_) ?_
  · rw [toCache_single]
    by_cases hc : o = c
    · subst hc
      refine .inr ⟨.FLUSH_REQ, by rw [if_pos rfl], rfl, fun _ => ?_, by simp [isWbReq]⟩
      simp [flushing, hq, ht, hwait, howns]
    · exact .inl (if_neg hc)
  · unfold Awaits
    cases hm : r.msgType with
    | SH_REQ => exact absurd hm ht
    | EX_REQ | NULLIFY_REQ => exact ⟨by simp [hsh], hasked⟩
    | UPGRADE_REQ => exact ⟨hu hm, fun s hs _ => hasked s hs⟩

theorem Ready.askOwner {o} (ht : r.msgType = .SH_REQ)
    (hd : l.entry.dstate = .EXCLUSIVE ∨ l.entry.dstate = .MODIFIED) (ho : l.entry.owner = some o) :
    Settled cfg l (deliver [.cache o .WB_REQ] x) 0 := by
  have howns : owns l.entry o = true := owns_iff.mpr ⟨hd, ho⟩
  have hsh := h.shaped.sharers_of_owns howns
  have hwait : r.waitForData = false := h.idle r (by rw [hq]; rfl)
  have hf : r.forwardingFrom = none :=
    h.forwarding_none hq (.inr (by rcases hd with hd | hd <;> simp [hd]))
  have hasked : (deliver [.cache o .WB_REQ] x o).AskedWb :=
    (h.asked (by simp [hsh]) (h.not_pending hq hf o) (by rw [toCache_single, if_pos rfl])).2 rfl
  refine h.asking hq (h.forwardable hq (.inr (.inl (by rcases hd with hd | hd <;> simp [hd]))))
    (fun c => ?_) ?_
  · rw [toCache_single]
    by_cases hc : o = c
    · subst hc
      refine .inr ⟨.WB_REQ, by rw [if_pos rfl], rfl, by simp [isFlushReq], fun _ => ?_⟩
      simp [wbWait, hq, ht, hwait, howns, hsh]
    · exact .inl (if_neg hc)
  · simp only [Awaits, ht, hf]
    exact ⟨h.not_sharer hq hf (.inr ht), .inl ⟨o, howns, hasked⟩⟩

theorem Ready.invalidate (ht : r.msgType = .EX_REQ ∨ r.msgType = .NULLIFY_REQ)
    (hd : l.entry.dstate = .SHARED) :
    Settled cfg l (deliver (sendAll l.entry.getSharersList .INV_REQ) x) 0 := by
  have hf : r.forwardingFrom = none :=
    h.forwarding_none hq (.inl (by rcases ht with ht | ht <;> simp [ht]))
  have hasked : ∀ s ∈ l.entry.sharers,
      (deliver (sendAll l.entry.getSharersList .INV_REQ) x s).Asked := fun s hs =>
    (h.asked hs (h.not_pending hq hf s) (by rw [toCache_sendAll, if_pos hs])).1 (.inl rfl)
  refine h.asking hq (h.forwardable hq (.inl (by rcases ht with ht | ht <;> simp [ht])))
    (fun c => ?_) ?_
  · rw [toCache_sendAll]
    by_cases hc : c ∈ l.entry.sharers
    · exact .inr ⟨.INV_REQ, by rw [if_pos hc], rfl, by simp [isFlushReq], by simp [isWbReq]⟩
    · exact .inl (if_neg hc)
  · have hne := h.shaped.sharers_ne (by simp [hd])
    unfold Awaits
    rcases ht with ht | ht <;> rw [ht] <;> exact ⟨hne, hasked⟩

theorem Ready.upgradeInvalidate (ht : r.msgType = .UPGRADE_REQ) (hd : l.entry.dstate = .SHARED)
    (hs : l.entry.sharers ≠ {r.requester}) :
    Settled cfg l (deliver (upgradeInvalidations r.requester l.entry) x) 0 := by
  have hf : r.forwardingFrom = none := h.forwarding_none hq (.inl (by simp [ht]))
  have hwait : r.waitForData = false := h.idle r (by rw [hq]; rfl)
  refine h.asking hq (h.forwardable hq (.inl (by simp [ht]))) (fun c => ?_) ?_
  · rcases toCache_upgradeInvalidations (V := V) r.requester l.entry c with
      ⟨hnil, -⟩ | ⟨-, -, hm | ⟨hm, hr⟩⟩
    · exact .inl hnil
    · exact .inr ⟨_, hm, rfl, by simp [isFlushReq], by simp [isWbReq]⟩
    · refine .inr ⟨_, hm, rfl, fun _ => ?_, by simp [isWbReq]⟩
      simp [flushing, gathers, hq, ht, hwait, hd, hr]
  · simp only [Awaits, ht]
    refine ⟨?_, fun s hs hsr => ?_⟩
    · by_contra hn
      have hsub : ∀ s ∈ l.entry.sharers, s = r.requester := fun s hs => by
        by_contra hsr
        exact hn ⟨s, hs, hsr⟩
      exact hs ((Finset.eq_singleton_iff_nonempty_unique_mem).mpr
        ⟨Finset.nonempty_iff_ne_empty.mpr (h.shaped.sharers_ne (by simp [hd])), hsub⟩)
    · rcases toCache_upgradeInvalidations (V := V) r.requester l.entry s with
        ⟨-, hn | hn⟩ | ⟨-, -, hm | ⟨hm, -⟩⟩
      · exact absurd hs hn
      · exact absurd hn hsr
      · exact (h.asked hs (h.not_pending hq hf s) hm).1 (.inl rfl)
      · exact (h.asked hs (h.not_pending hq hf s) hm).1 (.inr rfl)

theorem Ready.makeRoom {s} (ht : r.msgType = .SH_REQ) (hd : l.entry.dstate = .SHARED)
    (hr : r.requester ∉ l.entry.sharers) (hs : s ∈ l.entry.sharers)
    (hfull : cfg.directoryType ≠ .LIMITLESS ∧
      Entry.getMaxHwSharers cfg n ≤ l.entry.sharers.card) :
    Settled cfg l (deliver [.cache s .INV_REQ] x) 0 := by
  have hfw : Forwardable cfg l := by
    rcases h.forwarder with hfw | ⟨-, -, hone, -⟩
    · exact hfw
    · intro _ _ hroom
      rcases hroom with hroom | hroom
      · exact absurd hroom hfull.1
      · omega
  have hf : r.forwardingFrom = none := by
    cases hf : r.forwardingFrom with
    | none => rfl
    | some f =>
      exact absurd (h.forwards r (by rw [hq]; rfl) (by simp [ShmemReq.isForwarding, hf])).2.2 hr
  refine h.asking hq hfw (fun c => ?_) ?_
  · rw [toCache_single]
    by_cases hc : s = c
    · exact .inr ⟨.INV_REQ, by rw [if_pos hc], rfl, by simp [isFlushReq], by simp [isWbReq]⟩
    · exact .inl (if_neg hc)
  · simp only [Awaits, ht, hf]
    refine ⟨hr, .inr ⟨hd, s, hs, ?_⟩⟩
    exact (h.asked hs (h.not_pending hq hf s) (by rw [toCache_single, if_pos rfl])).1 (.inl rfl)

end Ask

/-! ## Completing the request -/

theorem Common.complete {rest} (h : Common rest l x) (hq : l.queue = r :: q)
    (hcalm : ∀ c, (seen rest l c).Calm) {e} (he : Shaped e)
    (hsh : ∀ c, c ≠ r.requester → (c ∈ e.sharers ↔ c ∈ l.entry.sharers))
    (hown : ∀ c, c ≠ r.requester → owns l.entry c = true → owns e c = true)
    (hfw : cfg.protocol = .MESIF → e.dstate = .SHARED → Roomy cfg n →
      ∀ f, e.forwarder = some f → f ∈ e.sharers) (hto : ∀ c, c ≠ r.requester → toCache c sent = [])
    (hself : Fits (seen false ⟨e, q⟩ r.requester) (deliver sent x r.requester)) :
    Ready cfg none ⟨e, q⟩ (deliver sent x) := by
  have hfresh : ∀ r' ∈ q, Fresh r' ∧ r'.msgType ≠ .NULLIFY_REQ := fun r' hr' =>
    h.tail r' (by rw [hq]; exact hr')
  have hhead : ∀ r' ∈ q.head?, Fresh r' := fun r' hr' => (hfresh r' (List.mem_of_mem_head? hr')).1
  refine ⟨⟨he, ?_, ?_, ?_, ?_⟩, ?_, ?_⟩
  · exact fun r' hr' => hfresh r' (List.mem_of_mem_tail hr')
  · intro r' hr' hw
    rw [(hhead r' hr').waitForData] at hw
    cases hw
  · intro r' hr' hw
    rw [ShmemReq.isForwarding, (hhead r' hr').forwardingFrom] at hw
    cases hw
  · intro c
    by_cases hc : c = r.requester
    · rw [hc]; exact hself
    · rw [deliver, hto c hc, Cell.post_nil]
      refine (h.fits c).relax ?_ ?_ ?_ ((h.fits c).toBalance.allows.of_calm (hcalm c) (hown c hc))
      · exact decide_eq_decide.mpr (hsh c hc)
      · show pending q c = pending l.queue c
        rw [hq, pending_of_fresh hhead, pending_other (Ne.symm hc)]
      · show requestsOf c q = requestsOf c l.queue
        rw [hq, requestsOf_cons_other (Ne.symm hc)]
  · exact .inl fun hp hd hroom f hf => ⟨hfw hp hd hroom f hf, pending_of_fresh hhead⟩
  · exact fun r' hr' => (hhead r' hr').waitForData

/-! ## New sharers -/

/-- What a requester that becomes a sharer leaves. -/
structure Joined (cfg : Config) (r : ShmemReq n V) (e e' : Entry n) (reply : V → ToCache V) :
    Prop where
  shaped : Shaped e'
  sharers : e'.sharers = insert r.requester e.sharers
  forwarder : e'.forwarder = e.forwarder
  before : e.dstate = .UNCACHED ∨ e.dstate = .SHARED
  kept : cfg.protocol = .MESIF → e'.dstate = .SHARED → e.dstate = .SHARED
  stays : e.dstate = .SHARED → e'.dstate = .SHARED
  room : e.dstate = .SHARED → r.requester ∉ e.sharers →
    cfg.directoryType = .LIMITLESS ∨ e.sharers.card < Entry.getMaxHwSharers cfg n
  notNullify : r.msgType ≠ .NULLIFY_REQ
  absent : r.msgType = .SH_REQ ∨ r.requester ∉ e.sharers
  fills : ∀ d, isFill (reply d) = true
  state : r.msgType = .SH_REQ ∧ (e'.dstate = .SHARED ∨ e'.dstate = .EXCLUSIVE) ∨
    (r.msgType = .EX_REQ ∨ r.msgType = .UPGRADE_REQ) ∧ e'.dstate = .MODIFIED
  exclusive : ∀ d, isExRep (reply d) = true → owns e' r.requester = true

theorem Shaped.single {e : Entry n} {c} (hs : e.sharers = {c}) (ho : e.owner = some c)
    (hd : e.dstate = .SHARED ∨ e.dstate = .EXCLUSIVE ∨ e.dstate = .MODIFIED) : Shaped e where
  uncached := by rcases hd with hd | hd | hd <;> simp [hd, hs]
  owned := fun _ => ⟨c, ho, hs⟩
  notOwned := by rcases hd with hd | hd | hd <;> simp [hd]

theorem joined_of_joins {e e' reply} (h : Joins cfg r e e' reply) (hs : Shaped e) :
    Joined cfg r e e' reply := by
  cases h with
  | exclusive ht hd hr =>
    have hempty := hs.uncached.mp hd
    refine ⟨.single (by simp [hempty]) rfl (.inr (.inr rfl)), rfl, rfl, .inl hd, by simp,
      by simp [hd], by simp [hd], ?_, .inr hr, fun _ => rfl, .inr ⟨ht, rfl⟩,
      fun _ _ => by simp [owns]⟩
    rcases ht with ht | ht <;> simp [ht]
  | first ht hp hd hr =>
    have hempty := hs.uncached.mp hd
    exact ⟨.single (by simp [hempty]) rfl (.inl rfl), rfl, rfl, .inl hd, by simp [hp],
      by simp [hd], by simp [hd], by simp [ht], .inr hr, fun _ => rfl, .inl ⟨ht, .inl rfl⟩,
      fun _ => by simp [isExRep]⟩
  | firstExclusive ht hp hd hr =>
    have hempty := hs.uncached.mp hd
    exact ⟨.single (by simp [hempty]) rfl (.inr (.inl rfl)), rfl, rfl, .inl hd, by simp,
      by simp [hd], by simp [hd], by simp [ht], .inr hr, fun _ => rfl, .inl ⟨ht, .inr rfl⟩,
      fun _ _ => by simp [owns]⟩
  | shares ht hd hr hroom =>
    refine ⟨⟨by simp [hd], by simp [hd], by simp [hd]⟩, rfl, rfl, .inr hd, fun _ _ => hd,
      fun _ => hd, fun _ _ => hroom, by simp [ht], .inr hr, fun _ => rfl, .inl ⟨ht, .inl hd⟩,
      fun _ => by simp [isExRep]⟩
  | again ht hd hr =>
    exact ⟨hs, by simp [hr], rfl, .inr hd, fun _ _ => hd, fun _ => hd, fun _ hn => absurd hr hn,
      by simp [ht], .inl ht, fun _ => rfl,
      .inl ⟨ht, .inl hd⟩, fun _ => by simp [isExRep]⟩

theorem Joined.not_owns {e e' reply} (h : Joined cfg r e e' reply) (c : Fin n) :
    owns e c = false := by
  rcases h.before with hd | hd
  · exact owns_uncached hd
  · exact owns_shared hd

theorem Shaped.setForwarder {e} (h : Shaped e) (f : Option (Fin n)) :
    Shaped { e with forwarder := f } := ⟨h.uncached, h.owned, h.notOwned⟩

section Join
variable {e : Entry n} {reply : V → ToCache V} (h : Ready cfg buf l x) (hq : l.queue = r :: q)
  (hj : Joined cfg r l.entry e reply)
include h hq hj

theorem Ready.join_absent :
    (seen false l r.requester).sharer = (seen false l r.requester).pending := by
  refine h.front_absent hq ?_
  rcases hj.absent with ht | hr
  · exact .inr (.inl ht)
  · exact .inr (.inr (.inl hr))

theorem Ready.grant (d : V) (f : Option (Fin n))
    (hf : f = l.entry.forwarder ∧ Forwardable cfg l ∨ f = some r.requester) :
    Ready cfg none ⟨{ e with forwarder := f }, q⟩ (deliver [.cache r.requester (reply d)] x) := by
  have hmem : ∀ c, c ≠ r.requester → (c ∈ e.sharers ↔ c ∈ l.entry.sharers) := by
    intro c hc
    rw [hj.sharers, Finset.mem_insert]
    simp [hc]
  obtain ⟨hreq, hnone⟩ := h.front_requests hq hj.notNullify
  refine h.complete hq (seen_calm l) (hj.shaped.setForwarder f) hmem ?_ ?_ ?_ ?_
  · intro c _ ho
    rw [hj.not_owns] at ho
    cases ho
  · intro hp hd hroom f' hf'
    rcases hf with ⟨hf, hfw⟩ | hf
    · have := (hfw hp (hj.kept hp hd) hroom f' (hf.symm.trans hf')).1
      simp only [hj.sharers, Finset.mem_insert, this, or_true]
    · have : f' = r.requester := Option.some.inj (hf'.symm.trans hf)
      simp [hj.sharers, this]
  · intro c hc
    rw [toCache_single, if_neg (Ne.symm hc)]
  · rw [deliver, toCache_single, if_pos rfl]
    refine (h.fits r.requester).grant (h.join_absent hq hj) rfl hreq (hj.fills d) ?_ ?_ hnone
      (hj.exclusive d)
    · exact decide_eq_true (by simp [hj.sharers])
    · refine pending_of_fresh fun r' hr' => (h.tail r' ?_).1
      rw [hq]
      exact List.mem_of_mem_head? hr'

theorem Ready.forwarder_ne (hfw : Forwardable cfg l) (hp : cfg.protocol = .MESIF)
    (hd : l.entry.dstate = .SHARED) (hroom : Roomy cfg n) {f} (hf : l.entry.forwarder = some f) :
    f ≠ r.requester := by
  rintro rfl
  obtain ⟨hs, hpend⟩ := hfw hp hd hroom _ hf
  have habs := h.join_absent hq hj
  rw [show (seen false l r.requester).sharer = true from decide_eq_true hs,
    show (seen false l r.requester).pending = false from hpend] at habs
  cases habs

theorem Ready.join_forwardable (hfw : Forwardable cfg l) {r'} (hr : r'.requester = r.requester) :
    Forwardable cfg ⟨e, r' :: q⟩ := by
  intro hp hd hroom f hf
  have hf : l.entry.forwarder = some f := hj.forwarder ▸ hf
  have hd := hj.kept hp hd
  refine ⟨by simp [hj.sharers, (hfw hp hd hroom f hf).1], pending_other ?_⟩
  rw [hr]
  exact Ne.symm (h.forwarder_ne hq hj hfw hp hd hroom hf)

theorem Ready.join_common {r'} (ht : r'.msgType = r.msgType) (hr : r'.requester = r.requester)
    (hp : (r'.waitForData || r'.isForwarding) = true)
    (hf : r'.isForwarding = true → r.msgType = .SH_REQ ∧ e.dstate = .SHARED) :
    Common true ⟨e, r' :: q⟩ x := by
  have hmem : r.requester ∈ e.sharers := by simp [hj.sharers]
  refine ⟨hj.shaped, ?_, ?_, ?_, fun c => ?_⟩
  · exact fun r'' hr'' => h.tail r'' (by rw [hq]; exact hr'')
  · rintro _ ⟨⟩ -
    rw [ht, hr]
    exact ⟨hmem, hj.state⟩
  · rintro _ ⟨⟩ hfw
    rw [ht, hr]
    exact ⟨(hf hfw).1, (hf hfw).2, hmem⟩
  · have hallow : Allows (seen true ⟨e, r' :: q⟩ c) (x c).tally := by
      refine (h.fits c).toBalance.allows.of_calm (seen_calm l c) fun ho => ?_
      rw [show (seen false l c).excl = owns l.entry c from rfl, hj.not_owns] at ho
      cases ho
    have hreq : (seen true ⟨e, r' :: q⟩ c).requests = (seen false l c).requests := by
      show requestsOf c (r' :: q) = requestsOf c l.queue
      rw [hq, requestsOf_congr ht hr]
    by_cases hc : c = r.requester
    · subst hc
      refine (h.fits r.requester).join (h.join_absent hq hj) (decide_eq_true hmem) ?_ hreq hallow
      show pending (r' :: q) r.requester = true
      simpa [pending, hr] using hp
    · refine (h.fits c).relax (decide_eq_decide.mpr ?_) ?_ hreq hallow
      · rw [hj.sharers, Finset.mem_insert]
        simp [hc]
      · show pending (r' :: q) c = pending l.queue c
        rw [hq, pending_other (Ne.symm hc), pending_other (by rw [hr]; exact Ne.symm hc)]

theorem Ready.read (hfw : Forwardable cfg l) :
    Settled cfg ⟨e, { r with waitForData := true } :: q⟩ (deliver [.DRAM_READ_REQ] x) 1 := by
  have hdel : deliver [.DRAM_READ_REQ] x = x := by
    funext c
    rw [deliver, toCache_read, Cell.post_nil]
  rw [hdel]
  refine ⟨h.join_common hq hj rfl rfl rfl (fun hf => ?_), h.join_forwardable hq hj hfw rfl, ?_,
    by simp⟩
  · have hs := h.forwards r (by rw [hq]; rfl) hf
    exact ⟨hs.1, hj.stays hs.2.1⟩
  · rintro _ ⟨⟩ hwait
    cases hwait

theorem Ready.forward (hfw : Forwardable cfg l) {f} (hp : cfg.protocol = .MESIF)
    (hf : e.forwarder = some f) (hn : r.forwardingFrom = none) (hd : e.dstate = .SHARED) :
    Settled cfg ⟨e, { r with forwardingFrom := some f } :: q⟩ (deliver [.cache f .WB_REQ] x) 0 := by
  have ht : r.msgType = .SH_REQ := by
    rcases hj.state with ⟨ht, -⟩ | ⟨-, hm⟩
    · exact ht
    · rw [hd] at hm; cases hm
  have hd' := hj.kept hp hd
  have hwait := h.idle r (by rw [hq]; rfl)
  have hroom : Roomy cfg n := by
    refine (hj.room hd' (h.not_sharer hq hn (.inr ht))).imp id fun hlt => ?_
    have hpos := Finset.card_pos.mpr (Finset.nonempty_iff_ne_empty.mpr
      (h.shaped.sharers_ne (by simp [hd'])))
    omega
  have hf' : l.entry.forwarder = some f := hj.forwarder ▸ hf
  obtain ⟨hfs, hfp⟩ := hfw hp hd' hroom f hf'
  have hne := h.forwarder_ne hq hj hfw hp hd' hroom hf'
  have hfs' : f ∈ e.sharers := by simp [hj.sharers, hfs]
  have hcom : Common true ⟨e, { r with forwardingFrom := some f } :: q⟩ x :=
    h.join_common hq hj rfl rfl (by simp [ShmemReq.isForwarding]) fun _ => ⟨ht, hd⟩
  have hpend : pending ({ r with forwardingFrom := some f } :: q) f = false :=
    pending_other (Ne.symm hne)
  refine ⟨{ hcom with fits := fun c => ?_ }, h.join_forwardable hq hj hfw rfl, ?_, by simp [hwait]⟩
  · rw [deliver, toCache_single]
    by_cases hc : f = c
    · subst hc
      rw [if_pos rfl]
      refine (hcom.fits f).ask rfl (by simp [isFlushReq]) fun _ => ⟨?_, ?_⟩
      · simp [seen, wbWait, ht, hwait, hfs']
      · have := (h.fits f).writeback
        simpa [seen] using this
    · rw [if_neg hc, Cell.post_nil]
      exact hcom.fits c
  · rintro _ ⟨⟩ -
    simp only [Awaits, ht]
    refine ⟨hfs', hne, ?_⟩
    rw [deliver, toCache_single, if_pos rfl]
    exact ((hcom.fits f).asked_post (decide_eq_true hfs') hpend .WB_REQ).2 rfl

end Join

theorem Ready.upgraded (h : Ready cfg buf l x) (hq : l.queue = r :: q) (ht : r.msgType = .UPGRADE_REQ)
    (hd : l.entry.dstate = .SHARED ∧ l.entry.sharers = {r.requester} ∨
      (l.entry.dstate = .EXCLUSIVE ∨ l.entry.dstate = .MODIFIED) ∧
        l.entry.owner = some r.requester) :
    Ready cfg none ⟨{ l.entry with dstate := .MODIFIED, owner := some r.requester }, q⟩
      (deliver [.cache r.requester .UPGRADE_REP] x) := by
  have hs : l.entry.sharers = {r.requester} := by
    rcases hd with hd | hd
    · exact hd.2
    · exact h.shaped.sharers_of_owns (owns_iff.mpr hd)
  obtain ⟨hreq, hnone⟩ := h.front_requests hq (by simp [ht])
  have hp : pending q r.requester = false := pending_of_fresh fun r' hr' =>
    (h.tail r' (by rw [hq]; exact List.mem_of_mem_head? hr')).1
  have hp' : pending l.queue r.requester = false :=
    h.not_pending hq (h.forwarding_none hq (.inl (by simp [ht]))) _
  refine h.complete hq (seen_calm l) (.single hs rfl (.inr (.inr rfl))) (fun _ _ => Iff.rfl) ?_
    (by simp) ?_ ?_
  · intro c hc ho
    have := h.shaped.sharers_of_owns ho
    rw [hs] at this
    exact absurd (Finset.singleton_inj.mp this).symm hc
  · intro c hc
    rw [toCache_single, if_neg (Ne.symm hc)]
  · rw [deliver, toCache_single, if_pos rfl]
    exact (h.fits r.requester).grantUpgrade (ht ▸ hreq) (seen_calm _ _) rfl (hp.trans hp'.symm) hnone
      (by simp [seen, owns])

theorem Ready.nullified (h : Ready cfg buf l x) (hq : l.queue = r :: q)
    (ht : r.msgType = .NULLIFY_REQ) : Ready cfg none ⟨l.entry, q⟩ (deliver [] x) := by
  have hf : r.forwardingFrom = none := h.forwarding_none hq (.inl (by simp [ht]))
  refine h.complete hq (seen_calm l) h.shaped (fun _ _ => Iff.rfl) (fun _ _ ho => ho)
    (fun hp hd hroom f hf => (h.forwardable hq (.inl (by simp [ht])) hp hd hroom f hf).1)
    (fun _ _ => rfl) ?_
  rw [deliver, show toCache r.requester ([] : List (Send n V)) = [] from rfl, Cell.post_nil]
  refine (h.fits r.requester).relax rfl ?_ ?_
    ((h.fits r.requester).toBalance.allows.of_calm (seen_calm _ _) id)
  · show pending q r.requester = pending l.queue r.requester
    rw [h.not_pending hq hf, pending_of_fresh fun r' hr' =>
      (h.tail r' (by rw [hq]; exact List.mem_of_mem_head? hr')).1]
  · show requestsOf r.requester q = requestsOf r.requester l.queue
    rw [hq, requestsOf_cons_nullify ht]

theorem Ready.front {ch buf o} (h : Ready cfg buf l x) (hq : l.queue = r :: q)
    (hf : Front cfg ch buf r l o) :
    (o.next = true ∧ o.line.queue = r :: q ∧ o.sent.countP isRead = 0 ∧
      Ready cfg none ⟨o.line.entry, q⟩ (deliver o.sent x)) ∨
    (o.next = false ∧ Settled cfg o.line (deliver o.sent x) (o.sent.countP isRead)) := by
  cases hf with
  | flushOwner ht hd ho hu => exact .inr ⟨rfl, h.flushOwner hq ht hd ho hu⟩
  | askOwner ht hd ho => exact .inr ⟨rfl, h.askOwner hq ht hd ho⟩
  | invalidate ht hd =>
    refine .inr ⟨rfl, ?_⟩
    have : (sendAll l.entry.getSharersList (.INV_REQ : ToCache V)).countP isRead = 0 := by
      simp [sendAll, isRead]
    rw [this]
    exact h.invalidate hq ht hd
  | upgradeInvalidate ht hd hs =>
    refine .inr ⟨rfl, ?_⟩
    have : (upgradeInvalidations (V := V) r.requester l.entry).countP isRead = 0 := by
      simp [upgradeInvalidations, isRead]
    rw [this]
    exact h.upgradeInvalidate hq ht hd hs
  | makeRoom ht hd hr hs hfull => exact .inr ⟨rfl, h.makeRoom hq ht hd hr hs hfull⟩
  | upgraded ht hr hd => exact .inl ⟨rfl, hq, rfl, h.upgraded hq ht hd⟩
  | fetch hj hr =>
    have hj := joined_of_joins hj h.shaped
    have hfw : bufOf buf r = none → Forwardable cfg l := by
      intro hb
      refine h.forwardable hq ?_
      by_cases ht : r.msgType = .SH_REQ
      · simp only [bufOf, ht] at hb
        exact .inr (.inr hb)
      · exact .inl ht
    cases hr with
    | given hb => exact .inl ⟨rfl, hq, rfl, h.grant hq hj _ _ (.inr rfl)⟩
    | nuca hb hn =>
      exact .inl ⟨rfl, hq, rfl, h.grant hq hj _ _ (.inl ⟨hj.forwarder, hfw hb⟩)⟩
    | forward hb hf hp hn hd =>
      refine .inr ⟨rfl, ?_⟩
      simp only [Line.modifyFront, hq]
      exact h.forward hq hj (hfw hb) hp hf hn hd
    | dram hb hn =>
      refine .inr ⟨rfl, ?_⟩
      simp only [Line.modifyFront, hq]
      exact h.read hq hj (hfw hb)
  | nullified ht hd =>
    exact .inl ⟨rfl, hq, rfl, h.nullified hq ht⟩

end Sniper.Protocol.LineInvariant
