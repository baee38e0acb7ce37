import Sniper.Protocol.Processing
import Sniper.Protocol.Recall

/-! # What the processing of a request does to one cache

The directory asks a cache, answers it, or leaves it alone, and changes its record about it.
-/
namespace Sniper.Protocol.LineInvariant
open Directory.DirectoryEntry Directory.Handlers Directory.Outcomes
open Protocol.LastLevelCache Protocol.CacheInvariant

variable {n : Nat} {V : Type} {cfg : Config} {ch : Choice n V} {buf : Option V} {l : Line n V}
  {x : Fin n → Cell V} {r : ShmemReq n V} {q : List (ShmemReq n V)} {rest : Bool}

/-- The front request waits for `c` to give its shared copy up. -/
def recalls (l : Line n V) (c : Fin n) : Bool :=
  match l.queue with
  | [] => false
  | r :: _ => l.entry.dstate = .SHARED && !r.waitForData &&
      match r.msgType with
      | .SH_REQ => !r.isForwarding
      | .UPGRADE_REQ => r.requester ≠ c
      | _ => true

/-- The record about a cache, with what the front request waits for; `rest` as in `seen`. -/
def watched (rest : Bool) (l : Line n V) (c : Fin n) : Watched where
  toSeen := seen rest l c
  recalling := rest && recalls l c
  modified := l.entry.dstate = .MODIFIED && owns l.entry c
  recallShared := by
    cases hq : l.queue <;> simp +contextual [recalls, hq, seen, owns]
  recallFlush := by
    cases hq : l.queue with
    | nil => simp [seen, flushing, hq]
    | cons r q =>
      simp only [seen, flushing, gathers, hq, recalls, Bool.and_eq_true, Bool.or_eq_true,
        decide_eq_true_eq]
      rintro ⟨hrest, ⟨ht, hwait⟩, ho | ⟨⟨hu, hd⟩, hr⟩⟩ hc
      · exact .inl ho
      · refine .inr ⟨hrest, ⟨hd, hwait⟩, ?_⟩
        rw [hu]
        exact decide_eq_true fun hrc => hr (hrc ▸ hc)
  modifiedExcl := by
    simp only [seen, Bool.and_eq_true]
    exact fun h => h.2

/-- What the directory does to a cache when it processes a request, with the messages it
sends to it. -/
inductive Deal (k k' : Watched) : List (ToCache V) → Prop
  | keep (hr : k'.requests = k.requests) (hp : k'.pending = k.pending)
      (hx : k'.excl = true → k.excl = true) (hm : k'.modified = true → k.modified = true) :
      Deal k k' []
  | ask {m} (ha : isAsk m = true) (hi : isInvReq m = true → k'.recalling = true)
      (hr : k'.requests = k.requests) (hp : k'.pending = k.pending)
      (hx : k'.excl = true → k.excl = true) (hm : k'.modified = true → k.modified = true) :
      Deal k k' [m]
  | join {t} (hs : k.sharer = k.pending) (ht : t ∈ k.requests) (hp : k'.pending = true)
      (hr : k'.requests = k.requests) : Deal k k' []
  | grant {t m} (hs : k.sharer = k.pending) (ht : t ∈ k.requests) (hr : k'.requests = [])
      (hf : isFill m = true) (hx : k'.excl = true → isExRep m = true)
      (hm : k'.modified = true → t = .EX_REQ ∨ t = .UPGRADE_REQ) : Deal k k' [m]
  | upgrade (hs : k.sharer = true) (hp : k.pending = false) (ht : .UPGRADE_REQ ∈ k.requests)
      (hr : k'.requests = []) : Deal k k' [.UPGRADE_REP]

section Cells
variable {k k' : Watched} {y : Cell V} {ms : List (ToCache V)}

theorem Deal.headed (hd : Deal k k' ms) (h : Headed k y) (hf : Fits k.toSeen y) :
    Headed k' (y.post ms) := by
  cases hd with
  | keep hr hp hx hm => exact h.congr hr (fun hk => .inl (hm hk)) rfl
  | @ask m ha hi hr hp hx hm =>
    exact h.congr hr (fun hk => .inl (hm hk)) (by simp [(isAsk_kinds ha).1])
  | join hs ht hp hr =>
    obtain ⟨hinv, hfill, -⟩ := hf.absent hs
    have hinv : y.line.cstate = .INVALID := hinv
    exact h.congr hr (fun _ => .inr ⟨hfill, by simp [hinv]⟩) rfl
  | grant hs ht hr hfl hx hm =>
    have hinv : y.line.cstate = .INVALID := (hf.absent hs).1
    exact h.grant hf ht hr hm (by simp [hinv]) _
  | upgrade hs hp ht hr =>
    refine h.grant hf ht hr (fun _ => .inr rfl) ?_ _
    have hc : y.line.cstate = .SHARED_UPGRADING ∨ y.line.cstate = .INVALID :=
      hf.upgrade (.inr (.inl ht))
    rcases hc with hc | hc <;> simp [hc]

theorem Deal.recalled (hd : Deal k k' ms) (h : Recalled k y) (hf : Fits k.toSeen y)
    (hc : k.toSeen.Calm) (hrec : k.recalling = false) : Recalled k' (y.post ms) := by
  have hnot : ¬ y.Called k.requests := fun hcalled => by
    have := h.called hcalled
    rw [hrec] at this
    cases this
  cases hd with
  | keep hr hp hx hm =>
    rw [Cell.post_nil]
    exact h.relax hr hp hx hm fun hcalled => absurd hcalled hnot
  | ask ha hi hr hp hx hm =>
    exact (h.relax hr hp hx hm fun hcalled => absurd hcalled hnot).ask ha hi
  | join hs ht hp hr =>
    rw [Cell.post_nil]
    exact h.join hf hs hp ht
  | grant hs ht hr hfl hx hm => exact h.grant hf hs ht hr hfl hx
  | upgrade hs hp ht hr => exact h.grantUpgrade hf ht hc hrec hs hp hr

end Cells

/-! ## Every end of the processing -/

theorem deal_asks {sent : List (Send n V)}
    (ha : ∀ c, toCache c sent = [] ∨ ∃ m, toCache c sent = [m] ∧ isAsk m = true ∧
      (isInvReq m = true → recalls l c = true)) (c : Fin n) :
    Deal (watched false l c) (watched true l c) (toCache c sent) := by
  rcases ha c with h | ⟨m, h, hask, hi⟩
  · rw [h]
    exact .keep rfl rfl id id
  · rw [h]
    exact .ask hask (by simpa [watched] using hi) rfl rfl id id

theorem deal_single {l : Line n V} {o : Fin n} {m : ToCache V} (hask : isAsk m = true)
    (hi : isInvReq m = true → recalls l o = true) (c : Fin n) :
    Deal (watched false l c) (watched true l c) (toCache c [.cache o m]) := by
  refine deal_asks (fun c => ?_) c
  rw [toCache_single]
  by_cases hc : o = c
  · subst hc
    exact .inr ⟨m, if_pos rfl, hask, hi⟩
  · exact .inl (if_neg hc)

section Asks
variable (h : Ready cfg buf l x) (hq : l.queue = r :: q)
include h hq

theorem Ready.deal_invalidate (ht : r.msgType = .EX_REQ ∨ r.msgType = .NULLIFY_REQ)
    (hd : l.entry.dstate = .SHARED) (c : Fin n) : Deal (watched false l c) (watched true l c)
      (toCache c (sendAll l.entry.getSharersList (.INV_REQ : ToCache V))) := by
  have hwait : r.waitForData = false := h.idle r (by rw [hq]; rfl)
  refine deal_asks (fun c => ?_) c
  rw [toCache_sendAll]
  by_cases hc : c ∈ l.entry.sharers
  · refine .inr ⟨.INV_REQ, if_pos hc, rfl, fun _ => ?_⟩
    rcases ht with ht | ht <;> simp [recalls, hq, hd, hwait, ht]
  · exact .inl (if_neg hc)

theorem Ready.deal_upgradeInvalidate (ht : r.msgType = .UPGRADE_REQ)
    (hd : l.entry.dstate = .SHARED) (c : Fin n) : Deal (watched false l c) (watched true l c)
      (toCache c (upgradeInvalidations (V := V) r.requester l.entry)) := by
  have hwait : r.waitForData = false := h.idle r (by rw [hq]; rfl)
  refine deal_asks (fun c => ?_) c
  rcases toCache_upgradeInvalidations (V := V) r.requester l.entry c with
    ⟨hnil, -⟩ | ⟨-, hne, hm | ⟨hm, -⟩⟩
  · exact .inl hnil
  · exact .inr ⟨_, hm, rfl, fun _ => by simp [recalls, hq, hd, hwait, ht, Ne.symm hne]⟩
  · exact .inr ⟨_, hm, rfl, by simp [isInvReq]⟩

theorem Ready.deal_makeRoom {s : Fin n} (ht : r.msgType = .SH_REQ) (hd : l.entry.dstate = .SHARED)
    (hr : r.requester ∉ l.entry.sharers) (c : Fin n) :
    Deal (watched false l c) (watched true l c) (toCache c [.cache s (.INV_REQ : ToCache V)]) := by
  have hwait : r.waitForData = false := h.idle r (by rw [hq]; rfl)
  have hf : r.isForwarding = false := by
    cases hf : r.isForwarding with
    | false => rfl
    | true => exact absurd (h.forwards r (by rw [hq]; rfl) hf).2.2 hr
  exact deal_single rfl (fun _ => by simp [recalls, hq, hd, hwait, ht, hf]) c

end Asks

theorem deal_others {e c} (hq : l.queue = r :: q) (hfresh : ∀ r' ∈ q.head?, Fresh r')
    (hc : c ≠ r.requester) (hx : owns e c = true → owns l.entry c = true)
    (hm : e.dstate = .MODIFIED → owns e c = true → l.entry.dstate = .MODIFIED) :
    Deal (V := V) (watched rest l c) (watched false ⟨e, q⟩ c) [] := by
  refine .keep ?_ ?_ hx fun hk => ?_
  · show requestsOf c q = requestsOf c l.queue
    rw [hq, requestsOf_cons_other (Ne.symm hc)]
  · show pending q c = pending l.queue c
    rw [hq, pending_of_fresh hfresh, pending_other (Ne.symm hc)]
  · simp only [watched, Bool.and_eq_true, decide_eq_true_eq] at hk ⊢
    exact ⟨hm hk.1 hk.2, hx hk.2⟩

theorem Common.fresh_tail (h : Common rest l x) (hq : l.queue = r :: q) :
    ∀ r' ∈ q.head?, Fresh r' := fun r' hr' =>
  (h.tail r' (by rw [hq]; exact List.mem_of_mem_head? hr')).1

theorem Joined.owns_requester {e e' reply} (h : Joined cfg r e e' reply) {c} (ho : owns e' c = true) :
    c = r.requester := by
  have hs := h.shaped.sharers_of_owns ho
  rw [h.sharers] at hs
  have hmem : r.requester ∈ ({c} : Finset (Fin n)) := hs ▸ Finset.mem_insert_self _ _
  exact (Finset.mem_singleton.mp hmem).symm

section Join
variable {e : Entry n} {reply : V → ToCache V} (h : Ready cfg buf l x) (hq : l.queue = r :: q)
  (hj : Joined cfg r l.entry e reply)
include h hq hj

theorem Ready.deal_grant (hrep : ∀ d, owns e r.requester = true → isExRep (reply d) = true) (d : V)
    (f : Option (Fin n)) (c : Fin n) :
    Deal (watched false l c) (watched false ⟨{ e with forwarder := f }, q⟩ c)
      (toCache c [.cache r.requester (reply d)]) := by
  obtain ⟨hreq, hnone⟩ := h.front_requests hq hj.notNullify
  rw [toCache_single]
  by_cases hc : r.requester = c
  · subst hc
    rw [if_pos rfl]
    refine .grant (h.join_absent hq hj) hreq hnone (hj.fills d) (hrep d) fun hk => ?_
    simp only [watched, Bool.and_eq_true, decide_eq_true_eq] at hk
    rcases hj.state with ⟨-, hd | hd⟩ | ⟨ht, -⟩
    · rw [hd] at hk; exact absurd hk.1 (by simp)
    · rw [hd] at hk; exact absurd hk.1 (by simp)
    · exact ht
  · rw [if_neg hc]
    have hnot : owns { e with forwarder := f } c = false := by
      by_contra ho
      have ho : owns e c = true := by simpa [owns] using ho
      exact hc (hj.owns_requester ho).symm
    refine deal_others hq (h.fresh_tail hq) (Ne.symm hc) ?_ ?_
    · rw [hnot]; simp
    · rw [hnot]; simp

theorem Ready.deal_wait (r' : ShmemReq n V) (ht : r'.msgType = r.msgType)
    (hr : r'.requester = r.requester) (hp : (r'.waitForData || r'.isForwarding) = true)
    {sent : List (Send n V)} (hself : toCache r.requester sent = [])
    (hs : ∀ c, toCache c sent = [] ∨ ∃ m, toCache c sent = [m] ∧ isAsk m = true ∧
      isInvReq m = false) (c : Fin n) :
    Deal (watched false l c) (watched true ⟨e, r' :: q⟩ c) (toCache c sent) := by
  have hreq : requestsOf c (r' :: q) = requestsOf c l.queue := by
    rw [hq, requestsOf_congr ht hr]
  by_cases hc : c = r.requester
  · subst hc
    rw [hself]
    refine .join (h.join_absent hq hj) (h.front_requests hq hj.notNullify).1 ?_ hreq
    show pending (r' :: q) r.requester = true
    simpa [pending, hr] using hp
  · have hnot : owns e c = false := by
      by_contra ho
      exact hc (hj.owns_requester (by simpa using ho))
    have hx : (watched true ⟨e, r' :: q⟩ c).excl = true → (watched false l c).excl = true := by
      show owns e c = true → _
      rw [hnot]; simp
    have hm : (watched true ⟨e, r' :: q⟩ c).modified = true →
        (watched false l c).modified = true := by
      simp [watched, hnot]
    have hpend : pending (r' :: q) c = pending l.queue c := by
      rw [hq, pending_other (Ne.symm hc), pending_other (by rw [hr]; exact Ne.symm hc)]
    rcases hs c with hn | ⟨m, hm', hask, hinv⟩
    · rw [hn]
      exact .keep hreq hpend hx hm
    · rw [hm']
      exact .ask hask (by simp [hinv]) hreq hpend hx hm

end Join

theorem Ready.deal_upgraded (h : Ready cfg buf l x) (hq : l.queue = r :: q)
    (ht : r.msgType = .UPGRADE_REQ) (hmem : r.requester ∈ l.entry.sharers) (c : Fin n) :
    Deal (V := V) (watched false l c)
      (watched false ⟨{ l.entry with dstate := .MODIFIED, owner := some r.requester }, q⟩ c)
      (toCache c [.cache r.requester .UPGRADE_REP]) := by
  obtain ⟨hreq, hnone⟩ := h.front_requests hq (by simp [ht])
  rw [toCache_single]
  by_cases hc : r.requester = c
  · subst hc
    rw [if_pos rfl]
    refine .upgrade (decide_eq_true hmem) ?_ (ht ▸ hreq) hnone
    exact h.not_pending hq (h.forwarding_none hq (.inl (by simp [ht]))) _
  · rw [if_neg hc]
    have hnot : owns { l.entry with dstate := .MODIFIED, owner := some r.requester } c = false := by
      simp [owns, hc]
    refine deal_others hq (h.fresh_tail hq) (Ne.symm hc) ?_ ?_
    · rw [hnot]; simp
    · rw [hnot]; simp

theorem Ready.deal_nullified (h : Ready cfg buf l x) (hq : l.queue = r :: q)
    (ht : r.msgType = .NULLIFY_REQ) (c : Fin n) :
    Deal (V := V) (watched false l c) (watched false ⟨l.entry, q⟩ c) [] := by
  have hf : r.forwardingFrom = none := h.forwarding_none hq (.inl (by simp [ht]))
  refine .keep ?_ ?_ id id
  · show requestsOf c q = requestsOf c l.queue
    rw [hq, requestsOf_cons_nullify ht]
  · show pending q c = pending l.queue c
    rw [h.not_pending hq hf, pending_of_fresh (h.fresh_tail hq)]

/-- The line on which the directory goes on. -/
def lineAfter (q : List (ShmemReq n V)) (o : Outcome n V) : Line n V :=
  if o.next then ⟨o.line.entry, q⟩ else o.line

theorem joins_exRep {e e' reply} (h : Joins cfg r e e' reply) (d : V)
    (ho : owns e' r.requester = true) : isExRep (reply d) = true := by
  cases h with
  | exclusive | firstExclusive => rfl
  | first => simp [owns] at ho
  | shares ht hd | again ht hd => simp [owns, hd] at ho

theorem Ready.deal (h : Ready cfg buf l x) (hq : l.queue = r :: q) {o : Outcome n V}
    (hf : Front cfg ch buf r l o) (c : Fin n) :
    Deal (watched false l c) (watched (!o.next) (lineAfter q o) c) (toCache c o.sent) := by
  cases hf with
  | flushOwner ht hd ho hu | askOwner ht hd ho => exact deal_single rfl (by simp [isInvReq]) c
  | invalidate ht hd => exact h.deal_invalidate hq ht hd c
  | upgradeInvalidate ht hd hs => exact h.deal_upgradeInvalidate hq ht hd c
  | makeRoom ht hd hr hs hfull => exact h.deal_makeRoom hq ht hd hr c
  | upgraded ht hr hd => exact h.deal_upgraded hq ht hr c
  | nullified ht hd => exact h.deal_nullified hq ht c
  | fetch hjoins hr =>
    have hj := joined_of_joins hjoins h.shaped
    cases hr with
    | given hb | nuca hb hn => exact h.deal_grant hq hj (joins_exRep hjoins) _ _ c
    | @forward f hb hff hp hn hd =>
      have hfw : Forwardable cfg l := by
        refine h.forwardable hq ?_
        by_cases ht : r.msgType = .SH_REQ
        · simp only [bufOf, ht] at hb
          exact .inr (.inr hb)
        · exact .inl ht
      have ht : r.msgType = .SH_REQ := by
        rcases hj.state with ⟨ht, -⟩ | ⟨-, hm⟩
        · exact ht
        · rw [hd] at hm; cases hm
      have hd' := hj.kept hp hd
      have hroom : Roomy cfg n := by
        refine (hj.room hd' (h.not_sharer hq hn (.inr ht))).imp id fun hlt => ?_
        have hpos := Finset.card_pos.mpr (Finset.nonempty_iff_ne_empty.mpr
          (h.shaped.sharers_ne (by simp [hd'])))
        omega
      have hne := h.forwarder_ne hq hj hfw hp hd' hroom (hj.forwarder ▸ hff)
      simp only [Line.modifyFront, hq]
      refine h.deal_wait hq hj { r with forwardingFrom := some f } rfl rfl
        (by simp [ShmemReq.isForwarding]) ?_ (fun c => ?_) c
      · rw [toCache_single, if_neg hne]
      · rw [toCache_single]
        by_cases hc : f = c
        · exact .inr ⟨_, if_pos hc, rfl, rfl⟩
        · exact .inl (if_neg hc)
    | dram hb hn =>
      simp only [Line.modifyFront, hq]
      exact h.deal_wait hq hj { r with waitForData := true } rfl rfl rfl rfl (fun _ => .inl rfl) c

end Sniper.Protocol.LineInvariant
