import Sniper.Protocol.Dealing
import Sniper.Protocol.LineHandlers

/-! # The handlers and the recalled copies

The disciplines of the first waiters and of the recalled copies. The second one needs that
the directory recalls one copy at a time: while it waits for a cache to make room for a
reader, no other cache's invalidate reply lets it go on.
-/
namespace Sniper.Protocol.LineInvariant
open Directory.DirectoryEntry Directory.Handlers Directory.Outcomes Function
open Protocol.CacheInvariant Protocol.Handling

variable {n : Nat} {V : Type} {cfg : Config} {ch : Choice n V} {buf : Option V} {l : Line n V}
  {x : Fin n → Cell V} {reads : Nat} {r : ShmemReq n V} {q : List (ShmemReq n V)} {rest : Bool}
  {c : Fin n} {m : FromCache V} {up : List (FromCache V)}

/-! ## What a message leaves of the record -/

/-- The record about a cache after a reply is received. -/
structure Carries (l l' : Line n V) (s : Fin n) : Prop where
  requests : requestsOf s l'.queue = requestsOf s l.queue
  pending : pending l'.queue s = pending l.queue s
  owns : owns l'.entry s = true → owns l.entry s = true ∧ l'.entry.dstate = l.entry.dstate

theorem carries_invLine (c s : Fin n) (l : Line n V) : Carries l (invLine c l) s := by
  refine ⟨rfl, rfl, fun ho => ?_⟩
  by_cases he : l.entry.sharers.erase c = ∅
  · simp [invLine, leave, he, LineInvariant.owns] at ho
  · simpa [invLine, leave, he, LineInvariant.owns] using ho

theorem not_owns_flushLine (c s : Fin n) (l : Line n V) : owns (flushLine c l).entry s = false := by
  simp [flushLine, leave, owns]

theorem carries_flushLine (c s : Fin n) (l : Line n V) : Carries l (flushLine c l) s :=
  ⟨rfl, rfl, fun ho => by rw [not_owns_flushLine] at ho; cases ho⟩

theorem carries_setDataBuf {e} (d : Option V) (s : Fin n) :
    Carries ⟨e, r :: q⟩ ⟨e, { r with dataBuf := d } :: q⟩ s :=
  ⟨requestsOf_congr rfl rfl, rfl, fun ho => ⟨ho, rfl⟩⟩

theorem carries_refl (l : Line n V) (s : Fin n) : Carries l l s := ⟨rfl, rfl, fun ho => ⟨ho, rfl⟩⟩

theorem Carries.trans {l₁ l₂ l₃ : Line n V} {s : Fin n} (h : Carries l₁ l₂ s)
    (h' : Carries l₂ l₃ s) : Carries l₁ l₃ s :=
  ⟨h'.requests.trans h.requests, h'.pending.trans h.pending, fun ho =>
    ⟨(h.owns (h'.owns ho).1).1, (h'.owns ho).2.trans (h.owns (h'.owns ho).1).2⟩⟩

theorem received_carries {rc : Received n V} (hr : receiveReply ch c l m = .ok rc) (s : Fin n) :
    Carries l rc.line s := by
  cases m with
  | INV_REP =>
    obtain ⟨-, -, rfl⟩ := invRep_cases hr
    exact carries_invLine c s l
  | FLUSH_REP d =>
    obtain ⟨-, -, hf⟩ := flushRep_cases hr
    cases hf with
    | @upgrade r rs hq ht hs =>
      have hline : flushLine c l = ⟨leave c none none l.entry, r :: rs⟩ := by rw [flushLine, hq]
      have hflush := carries_flushLine c s l
      rw [hline] at hflush ⊢
      exact hflush.trans (carries_setDataBuf _ s)
    | idle | exclusive | shared | upgradeLast | nullify => exact carries_flushLine c s l
  | WB_REP d =>
    obtain ⟨-, -, rfl⟩ := wbRep_cases hr
    exact ⟨rfl, rfl, fun ho => by simp [LineInvariant.owns] at ho⟩
  | EX_REQ | SH_REQ | UPGRADE_REQ => cases hr

theorem Carries.modified {l' s} (h : Carries l l' s) (rest rest' : Bool)
    (hm : (watched rest' l' s).modified = true) : (watched rest l s).modified = true := by
  simp only [watched, Bool.and_eq_true, decide_eq_true_eq] at hm ⊢
  obtain ⟨ho, hd⟩ := h.owns hm.2
  exact ⟨hd ▸ hm.1, ho⟩

/-! ## DRAM replies -/

theorem Settled.deal_dram (h : Settled cfg l x reads) (hpos : 0 < reads) {d o}
    (ho : processDRAMReply d l = .ok o) (hq : l.queue = r :: q) (c : Fin n) :
    Deal (watched true l c) (watched false ⟨o.line.entry, q⟩ c) (toCache c o.sent) := by
  obtain ⟨r', q', reply, hq', rfl, hreply⟩ := dramReply_cases ho
  rw [hq] at hq'
  obtain ⟨rfl, rfl⟩ := List.cons.inj hq'
  have hwait : r.waitForData = true := by
    by_contra hn
    have := h.reading
    rw [hq] at this
    simp [hn] at this
    omega
  obtain ⟨hmem, hstate⟩ := h.waits r (by rw [hq]; rfl) hwait
  have hn : r.msgType ≠ .NULLIFY_REQ := by
    rcases hstate with ⟨ht, -⟩ | ⟨ht | ht, -⟩ <;> simp [ht]
  have hpend : pending l.queue r.requester = true := by simp [pending, hq, hwait]
  rw [toCache_single]
  by_cases hc : r.requester = c
  · subst hc
    rw [if_pos rfl]
    obtain ⟨hreq, hnone⟩ := h.front_requests hq hn
    refine .grant (h.front_absent hq (.inr (.inr (.inr hpend)))) hreq hnone ?_ (fun hx => ?_) fun hk => ?_
    · rcases hreply with ⟨-, -, rfl⟩ | ⟨-, -, rfl⟩ | ⟨-, -, rfl⟩ | ⟨-, rfl⟩ <;> rfl
    · rcases hreply with ⟨-, -, rfl⟩ | ⟨-, hd, rfl⟩ | ⟨-, -, rfl⟩ | ⟨-, rfl⟩
      · rfl
      · have hx : owns l.entry r.requester = true := hx
        rw [owns_shared hd] at hx
        cases hx
      · rfl
      · rfl
    · simp only [watched, Bool.and_eq_true, decide_eq_true_eq] at hk
      rcases hstate with ⟨-, hd | hd⟩ | ⟨ht, -⟩
      · rw [hd] at hk; exact absurd hk.1 (by simp)
      · rw [hd] at hk; exact absurd hk.1 (by simp)
      · exact ht
  · rw [if_neg hc]
    exact deal_others hq (h.fresh_tail hq) (Ne.symm hc) id fun hd _ => hd

theorem not_recalls_of_wait (hq : l.queue = r :: q) (hw : r.waitForData = true) (c : Fin n) :
    recalls l c = false := by
  simp [recalls, hq, hw]

theorem Settled.calm_of_reads (h : Settled cfg l x reads) (hpos : 0 < reads) (c : Fin n) :
    (seen true l c).Calm ∧ recalls l c = false := by
  obtain ⟨r, q, hq⟩ : ∃ r q, l.queue = r :: q := by
    cases hq : l.queue with
    | nil => have := h.reading; simp [hq] at this; omega
    | cons r q => exact ⟨r, q, rfl⟩
  have hwait : r.waitForData = true := by
    by_contra hn
    have := h.reading
    rw [hq] at this
    simp [hn] at this
    omega
  refine ⟨⟨by simp [seen, wbWait, hq, hwait], by simp [seen, flushing, hq, hwait], ?_⟩,
    not_recalls_of_wait hq hwait c⟩
  rcases (h.waits r (by rw [hq]; rfl) hwait).2 with ⟨ht, -⟩ | ⟨-, hm⟩
  · simp [seen, gathers, hq, ht]
  · simp [seen, gathers, hq, hm]

theorem Settled.dramReply_deal (h : Settled cfg l x reads) (hpos : 0 < reads) {d o}
    (ho : processDRAMReply d l = .ok o) (hq : o.line.queue = r :: q) (c : Fin n) :
    Deal (watched true l c) (watched false ⟨o.line.entry, q⟩ c) (toCache c o.sent) := by
  have hline : o.line = l := by
    obtain ⟨r, q, reply, -, rfl, -⟩ := dramReply_cases ho
    rfl
  rw [hline] at hq
  exact h.deal_dram hpos ho hq c

/-! ## Requests -/

theorem pending_request (t : ReqType) (c s : Fin n) (q : List (ShmemReq n V)) :
    pending (q ++ [ShmemReq.create t c]) s = pending q s := by
  cases q <;> simp [pending, ShmemReq.create, ShmemReq.isForwarding]

theorem carries_request {t s} (hs : s ≠ c) :
    Carries l ⟨l.entry, l.queue ++ [ShmemReq.create t c]⟩ s := by
  refine ⟨?_, ?_, fun ho => ⟨ho, rfl⟩⟩
  · show requestsOf s (l.queue ++ [ShmemReq.create t c]) = requestsOf s l.queue
    rw [requestsOf_append, requestsOf_cons_other (Ne.symm hs)]
    simp [requestsOf]
  · exact pending_request t c s l.queue

theorem requestsOf_request {t} (ht : t ≠ .NULLIFY_REQ) (c : Fin n) (q : List (ShmemReq n V)) :
    requestsOf c (q ++ [ShmemReq.create t c]) = requestsOf c q ++ [t] := by
  simp [requestsOf, ShmemReq.create, ht]

theorem carries_nullify (hq : l.queue = []) (requester s : Fin n) :
    Carries l ⟨l.entry, [ShmemReq.create .NULLIFY_REQ requester]⟩ s := by
  refine ⟨?_, ?_, fun ho => ⟨ho, rfl⟩⟩
  · simp [requestsOf, ShmemReq.create, hq]
  · simp [pending, ShmemReq.create, ShmemReq.isForwarding, hq]

theorem carries_renew (f : Option (Fin n)) (s : Fin n) : Carries l ⟨.create f, l.queue⟩ s :=
  ⟨rfl, rfl, fun ho => by simp [Entry.create, LineInvariant.owns] at ho⟩

/-! ## The discipline of the first waiters -/

/-- Every cache's first waiter is the one its request is for. -/
def HeadedAll (rest : Bool) (l : Line n V) (x : Fin n → Cell V) : Prop :=
  ∀ c, Headed (watched rest l c) (x c)

theorem Carries.headed {l' : Line n V} (h : Carries l l' c) {y : Cell V} (rest' : Bool)
    (hy : Headed (watched rest l c) y) : Headed (watched rest' l' c) y := by
  have hs : Headed (watched rest' l' c) (y.post []) :=
    hy.congr h.requests (fun hk => .inl (h.modified rest rest' hk)) rfl
  rwa [Cell.post_nil] at hs

theorem HeadedAll.received (h : HeadedAll true l x) (hu : (x c).up = m :: up) {rc : Received n V}
    (hr : receiveReply ch c l m = .ok rc) (rest : Bool) :
    HeadedAll rest rc.line (take c up x) := fun s => by
  have hcar := received_carries hr s
  by_cases hs : s = c
  · subst hs
    rw [take_self]
    have hm : m.request? = none := by cases m <;> first | rfl | cases hr
    exact (h s).pop hu (.inl ⟨hm, hcar.requests⟩) (hcar.modified true rest)
  · rw [take_other hs]
    exact hcar.headed rest (h s)

theorem HeadedAll.request (h : HeadedAll true l x) (hu : (x c).up = m :: up) {t : ReqType}
    (hm : m.request? = some t) (rest : Bool) :
    HeadedAll rest ⟨l.entry, l.queue ++ [ShmemReq.create t c]⟩ (take c up x) := fun s => by
  by_cases hs : s = c
  · subst hs
    rw [take_self]
    exact (h s).pop hu (.inr ⟨t, hm, requestsOf_request (FromCache.request?_ne hm) s l.queue⟩) id
  · rw [take_other hs]
    exact (carries_request hs).headed rest (h s)

theorem HeadedAll.dealt {l' rest'} (h : HeadedAll rest l x) (hf : ∀ c, Fits (seen rest l c) (x c))
    {sent} (hd : ∀ c, Deal (watched rest l c) (watched rest' l' c) (toCache c sent)) :
    HeadedAll rest' l' (deliver sent x) := fun c => (hd c).headed (h c) (hf c)

theorem HeadedAll.cell (h : HeadedAll rest l x) (hf : ∀ c, Fits (seen rest l c) (x c)) {w y}
    (hs : CellStep (x c) w y) :
    HeadedAll rest l (update x c y) := fun b => by
  by_cases hb : b = c
  · subst hb
    rw [update_self]
    exact (h b).step (hf b) hs
  · rw [update_of_ne hb]
    exact h b

theorem Settled.received_cells (h : Settled cfg l x reads) (hu : (x c).up = m :: up) {rc}
    (hr : receiveReply ch c l m = .ok rc) :
    deliver rc.sent (take c up x) = take c up x :=
  deliver_none (h.received_reply hu hr).1 _

theorem continues_with {Env : Type} {ready : Option V → Line n V → Env → Prop}
    {settled : Line n V → Env → Prop} {P : Bool → Line n V → Env → Prop} {e : Env} {a : Action V}
    (h : Handling.Continues ready settled l e a) (hdone : a = .done → P true l e)
    (hprocess : ∀ buf, a = .process buf → P false l e) :
    Handling.Continues (fun buf l e => ready buf l e ∧ P false l e)
      (fun l e => settled l e ∧ P true l e) l e a := by
  cases a with
  | done => exact ⟨h, hdone rfl⟩
  | process buf => exact ⟨h.1, h.2, hprocess buf rfl⟩

/-- The invariant of the line with its first waiters. -/
def headedDiscipline (cfg : Config) : Discipline cfg n V where
  Env := (Fin n → Cell V) × Nat
  emit sent e := (deliver sent e.1, e.2 + sent.countP isRead)
  pops c m e e' := ∃ up, (e.1 c).up = m :: up ∧ e' = (take c up e.1, e.2)
  answers _ e e' := 0 < e.2 ∧ e' = (e.1, e.2 - 1)
  chooses _ := True
  admits _ _ _ _ := True
  ready buf l e := (lineDiscipline cfg).ready buf l e ∧ HeadedAll false l e.1
  settled l e := (lineDiscipline cfg).settled l e ∧ HeadedAll true l e.1
  emit_nil := id (lineDiscipline cfg).emit_nil
  emit_append := id (lineDiscipline cfg).emit_append
  renewReady h hd f :=
    ⟨(lineDiscipline cfg).renewReady h.1 hd f, fun s => (carries_renew f s).headed _ (h.2 s)⟩
  renewSettled h hd f :=
    ⟨(lineDiscipline cfg).renewSettled h.1 hd f, fun s => (carries_renew f s).headed _ (h.2 s)⟩
  settle h hq := ⟨(lineDiscipline cfg).settle h.1 hq, fun s => (carries_refl _ s).headed _ (h.2 s)⟩
  front _ h hq hf := by
    obtain ⟨hready, hsettled⟩ := (lineDiscipline cfg).front trivial h.1 hq hf
    have hhead := h.2.dealt h.1.2.fits (h.1.2.deal hq hf)
    refine ⟨fun hn => ⟨hready hn, ?_⟩, fun hn => ⟨hsettled hn, ?_⟩⟩
    · rwa [hn, lineAfter, if_pos hn] at hhead
    · rwa [hn, lineAfter, if_neg (by simp [hn])] at hhead
  request_idle h hq hp ht := by
    refine ⟨(lineDiscipline cfg).request_idle h.1 hq hp ht, ?_⟩
    obtain ⟨up, hu, rfl⟩ := hp
    have := h.2.request hu ht false
    rwa [hq] at this
  request_busy h hq hp ht := by
    refine ⟨(lineDiscipline cfg).request_busy h.1 hq hp ht, ?_⟩
    obtain ⟨up, hu, rfl⟩ := hp
    exact h.2.request hu ht true
  received _ h _ hp hr := by
    have hcont := (lineDiscipline cfg).received trivial h.1 trivial hp hr
    obtain ⟨up, hu, rfl⟩ := hp
    have hhead : ∀ rest, HeadedAll rest _ (deliver _ _) := fun rest => by
      rw [h.1.received_cells hu hr]
      exact h.2.received hu hr rest
    exact continues_with (P := fun rest l e => HeadedAll rest l e.1) hcont
      (fun _ => hhead true) fun _ _ => hhead false
  dramReply h hans ho := by
    obtain ⟨r, q, hq, hready⟩ := (lineDiscipline cfg).dramReply h.1 hans ho
    refine ⟨r, q, hq, hready, ?_⟩
    obtain ⟨hpos, rfl⟩ := hans
    exact h.2.dealt h.1.fits (h.1.dramReply_deal hpos ho hq)
  nullifies h hq requester :=
    ⟨(lineDiscipline cfg).nullifies h.1 hq requester,
      fun s => (carries_nullify hq requester s).headed _ (h.2 s)⟩

/-! ## The discipline of the recalled copies -/

/-- Every copy that is recalled is waited for. -/
def RecalledAll (rest : Bool) (l : Line n V) (x : Fin n → Cell V) : Prop :=
  ∀ c, Recalled (watched rest l c) (x c)

/-- The front request waits for a sharer to make room. -/
def makesRoom (l : Line n V) : Prop :=
  l.entry.dstate = .SHARED ∧
    ∃ r ∈ l.queue.head?, r.msgType = .SH_REQ ∧ r.waitForData = false ∧ r.forwardingFrom = none

/-- The message does not take the invalidate reply of one sharer for that of another. -/
def Unmistaken (l : Line n V) (x : Fin n → Cell V) (c : Fin n) (m : FromCache V) : Prop :=
  m = .INV_REP → makesRoom l → ∀ s, s ≠ c → ¬ (x s).Called (requestsOf s l.queue)

theorem Carries.recalled {l'} (h : Carries l l' c) {y : Cell V} (rest' : Bool)
    (hy : Recalled (watched rest l c) y)
    (hc : y.Called (requestsOf c l.queue) → (rest' && recalls l' c) = true) :
    Recalled (watched rest' l' c) y :=
  hy.relax h.requests h.pending (fun ho => (h.owns ho).1) (h.modified rest rest') hc

theorem RecalledAll.waited (h : RecalledAll rest l x)
    (hc : (x c).Called (requestsOf c l.queue)) : (rest && recalls l c) = true :=
  (h c).called hc

theorem recalls_idle (hq : l.queue = []) (c : Fin n) : recalls l c = false := by
  simp [recalls, hq]

theorem recalls_unshared (hd : l.entry.dstate ≠ .SHARED) (c : Fin n) : recalls l c = false := by
  cases hq : l.queue <;> simp [recalls, hq, hd]

theorem Common.not_called (h : Common rest l x) (hc : c ∉ l.entry.sharers) (q : List ReqType) :
    ¬ (x c).Called q := by
  have hs : (seen rest l c).sharer = false := decide_eq_false hc
  refine Recalled.not_called (k := watched rest l c) (h.fits c) ?_ q
  show (seen rest l c).sharer = (seen rest l c).pending
  rw [hs, ((h.fits c).not_sharer hs).2.2.2]

theorem RecalledAll.dealt {l' rest'} (h : RecalledAll rest l x)
    (hf : ∀ c, Fits (seen rest l c) (x c)) (hcalm : ∀ c, (seen rest l c).Calm)
    (hrec : ∀ c, (rest && recalls l c) = false) {sent}
    (hd : ∀ c, Deal (watched rest l c) (watched rest' l' c) (toCache c sent)) :
    RecalledAll rest' l' (deliver sent x) := fun c =>
  (hd c).recalled (h c) (hf c) (hcalm c) (hrec c)

theorem RecalledAll.request (h : RecalledAll true l x) (hu : (x c).up = m :: up) {t}
    (hm : m.request? = some t) (rest : Bool) (hrest : rest = false → l.queue = []) :
    RecalledAll rest ⟨l.entry, l.queue ++ [ShmemReq.create t c]⟩ (take c up x) := fun s => by
  have hrec : recalls l s = true →
      (rest && recalls ⟨l.entry, l.queue ++ [ShmemReq.create t c]⟩ s) = true := by
    intro hr
    cases hq : l.queue with
    | nil => rw [recalls_idle hq] at hr; cases hr
    | cons r q =>
      cases rest with
      | false => rw [hrest rfl] at hq; cases hq
      | true => simpa [recalls, hq] using hr
  by_cases hs : s = c
  · subst hs
    rw [take_self]
    exact (h s).queue hu hm (pending_request t s s l.queue)
      (requestsOf_request (FromCache.request?_ne hm) s l.queue) id id hrec
  · rw [take_other hs]
    exact (carries_request hs).recalled rest (h s) fun hc => hrec (h.waited hc)

theorem RecalledAll.left (h : RecalledAll true l x) (hsettled : Settled cfg l x reads)
    (hu : (x c).up = m :: up) (hm : isLeave m = true) {o f}
    (hcar : ∀ s, Carries l ⟨leave c o f l.entry, l.queue⟩ s) (rest : Bool)
    (hc : rest = false → ∀ s, s ≠ c → s ∈ l.entry.sharers →
      ¬ (x s).Called (requestsOf s l.queue)) :
    RecalledAll rest ⟨leave c o f l.entry, l.queue⟩ (take c up x) := fun s => by
  have hmem : c ∈ l.entry.sharers := of_decide_eq_true
    ((hsettled.fits c).leaving (by simp [Cell.tally, hu, hm] : 0 < (x c).tally.leaves)).2.2.2.2
  obtain ⟨-, hstate⟩ := hsettled.shaped.left hmem o f
  by_cases hs : s = c
  · subst hs
    rw [take_self]
    refine (h s).popLeave (hsettled.fits s) hu hm ?_
    show owns (leave s o f l.entry) s = false
    rcases hstate with ⟨-, hd⟩ | ⟨-, -, hd⟩
    · exact owns_uncached hd
    · exact owns_shared hd
  · rw [take_other hs]
    refine (hcar s).recalled rest (h s) fun hcalled => ?_
    have hss : s ∈ l.entry.sharers := by
      by_contra hn
      exact hsettled.toCommon.not_called hn _ hcalled
    have hd : l.entry.dstate = .SHARED ∧ (leave c o f l.entry).dstate = .SHARED := by
      rcases hstate with ⟨hempty, -⟩ | ⟨-, hd⟩
      · have hse := Finset.mem_erase.mpr ⟨hs, hss⟩
        rw [hempty] at hse
        simp at hse
      · exact hd
    cases rest with
    | false => exact absurd hcalled (hc rfl s hs hss)
    | true =>
      have hrec := h.waited hcalled
      simp only [Bool.true_and] at hrec ⊢
      cases hq : l.queue with
      | nil => rw [recalls_idle hq] at hrec; cases hrec
      | cons r q => simpa [recalls, hq, hd] using hrec

theorem RecalledAll.invRep (h : RecalledAll true l x) (hsettled : Settled cfg l x reads)
    (hu : (x c).up = .INV_REP :: up) (ha : Unmistaken l x c .INV_REP) {rc}
    (hr : processInvRepFromL2Cache c l = .ok rc) (rest : Bool)
    (hrest : rest = false → ∃ buf, rc.action = .process buf) :
    RecalledAll rest rc.line (take c up x) := by
  obtain ⟨-, -, rfl⟩ := invRep_cases hr
  refine h.left hsettled hu rfl (carries_invLine c · l) rest fun hfalse s hs hss hcalled => ?_
  obtain ⟨buf, hbuf⟩ := hrest hfalse
  have hw : wakes c (invLine c l) = true := by
    by_contra hw
    rw [if_neg hw] at hbuf
    cases hbuf
  have hne : l.entry.sharers.erase c ≠ ∅ := fun h0 => by
    have hse := Finset.mem_erase.mpr ⟨hs, hss⟩
    rw [h0] at hse
    simp at hse
  have hrec := h.waited hcalled
  rw [Bool.true_and] at hrec
  have hd : l.entry.dstate = .SHARED := by
    by_contra hd
    rw [recalls_unshared hd] at hrec
    cases hrec
  rcases wakes_cases hw with hun | h0 | ⟨r, q, hq, ⟨ht, hone⟩ | ⟨ht, hwait, hf⟩⟩
  · simp [invLine, leave, hne, hd] at hun
  · exact hne h0
  · have hse := Finset.mem_erase.mpr ⟨hs, hss⟩
    rw [hone, Finset.mem_singleton] at hse
    simp [recalls, hq, ht, hse] at hrec
  · rcases hf with hf | hf
    · exact ha rfl ⟨hd, r, by rw [hq]; rfl, ht, hwait, hf⟩ s hs hcalled
    · simp [recalls, hq, ht, ShmemReq.isForwarding, hf] at hrec

theorem RecalledAll.cell (h : RecalledAll rest l x) (hh : HeadedAll rest l x)
    (hf : ∀ c, Fits (seen rest l c) (x c)) {w y} (hs : CellStep (x c) w y) :
    RecalledAll rest l (update x c y) := fun b => by
  by_cases hb : b = c
  · subst hb
    rw [update_self]
    exact (h b).step (hh b) (hf b) hs
  · rw [update_of_ne hb]
    exact h b

theorem carries_dataBuf (e : Entry n) (d : Option V) (s : Fin n) :
    Carries ⟨e, r :: q⟩ ⟨e, { r with dataBuf := d } :: q⟩ s :=
  ⟨requestsOf_congr rfl rfl, rfl, fun ho => ⟨ho, rfl⟩⟩

theorem RecalledAll.flushRep (h : RecalledAll true l x) (hsettled : Settled cfg l x reads) {d}
    (hu : (x c).up = .FLUSH_REP d :: up) {rc : Received n V}
    (hr : processFlushRepFromL2Cache ch c d l = .ok rc) (rest : Bool)
    (hrest : rest = false → ∃ buf, rc.action = .process buf) :
    RecalledAll rest rc.line (take c up x) := by
  obtain ⟨-, -, hf⟩ := flushRep_cases hr
  -- the wait ends when no other sharer is left
  have hleft : (rest = false → l.entry.sharers.erase c = ∅) →
      RecalledAll rest (flushLine c l) (take c up x) := by
    intro hdone
    refine h.left hsettled hu rfl (carries_flushLine c · l) rest fun hfalse s hs hss _ => ?_
    have hse := Finset.mem_erase.mpr ⟨hs, hss⟩
    rw [hdone hfalse] at hse
    simp at hse
  have hlast := hsettled.flush_last hu
  cases hf with
  | idle hq => exact hleft fun _ => hlast (by simp [gathers, hq])
  | exclusive hq ht | shared hq ht
  | nullify hq ht => exact hleft fun _ => hlast (by simp [gathers, hq, ht])
  | upgradeLast hq ht hs => exact hleft fun _ => hs
  | @upgrade r q hq ht hs =>
    cases rest with
    | false =>
      obtain ⟨buf, hbuf⟩ := hrest rfl
      cases hbuf
    | true =>
      have hline : flushLine c l = ⟨leave c none none l.entry, r :: q⟩ := by rw [flushLine, hq]
      have hflush := hleft (by simp)
      rw [hline] at hflush ⊢
      exact fun s => (carries_dataBuf _ _ s).recalled true (hflush s) hflush.waited

theorem RecalledAll.wbRep (h : RecalledAll true l x) (hsettled : Settled cfg l x reads) {d}
    (hu : (x c).up = .WB_REP d :: up) {rc : Received n V}
    (hr : receiveReply ch c l (.WB_REP d) = .ok rc) (rest : Bool) :
    RecalledAll rest rc.line (take c up x) := by
  have hcar := received_carries hr
  obtain ⟨-, ⟨req, q, hq, ht⟩, rfl⟩ := wbRep_cases hr
  have hwb : wbWait l c = true := hsettled.wbWait_of_wbRep hu
  have hrec : ∀ s, recalls l s = false := by
    intro s
    simp only [wbWait, hq, ht, Bool.and_eq_true, Bool.or_eq_true, decide_eq_true_eq] at hwb
    rcases hwb.2 with ho | hf
    · refine recalls_unshared (fun hd => ?_) s
      rw [owns_shared hd] at ho
      cases ho
    · simp [recalls, hq, ht, ShmemReq.isForwarding, hf]
  intro s
  have hno : ¬ (x s).Called (requestsOf s l.queue) := fun hc => by
    have := h.waited hc
    rw [hrec] at this
    cases this
  by_cases hs : s = c
  · subst hs
    rw [take_self]
    refine (h s).popWb hu (hcar s).requests ?_ (hrec s)
    show owns { l.entry with owner := none, dstate := .SHARED } s = false
    exact owns_shared rfl
  · rw [take_other hs]
    exact (hcar s).recalled rest (h s) fun hc => absurd hc hno

theorem RecalledAll.received (h : RecalledAll true l x) (hsettled : Settled cfg l x reads)
    (hu : (x c).up = m :: up) (ha : Unmistaken l x c m) {rc : Received n V}
    (hr : receiveReply ch c l m = .ok rc) (rest : Bool)
    (hrest : rest = false → ∃ buf, rc.action = .process buf) :
    RecalledAll rest rc.line (take c up x) := by
  cases m with
  | INV_REP => exact h.invRep hsettled hu ha hr rest hrest
  | FLUSH_REP d => exact h.flushRep hsettled hu hr rest hrest
  | WB_REP d => exact h.wbRep hsettled hu hr rest
  | EX_REQ | SH_REQ | UPGRADE_REQ => cases hr

/-- The invariant of the line with its recalled copies: no invalidate reply of one sharer is
taken for that of another. -/
def recallDiscipline (cfg : Config) : Discipline cfg n V where
  Env := (Fin n → Cell V) × Nat
  emit sent e := (deliver sent e.1, e.2 + sent.countP isRead)
  pops c m e e' := ∃ up, (e.1 c).up = m :: up ∧ e' = (take c up e.1, e.2)
  answers _ e e' := 0 < e.2 ∧ e' = (e.1, e.2 - 1)
  chooses _ := True
  admits l e c m := Unmistaken l e.1 c m
  ready buf l e := (headedDiscipline cfg).ready buf l e ∧ RecalledAll false l e.1
  settled l e := (headedDiscipline cfg).settled l e ∧ RecalledAll true l e.1
  emit_nil := (headedDiscipline cfg).emit_nil
  emit_append := (headedDiscipline cfg).emit_append
  renewReady h hd f := by
    refine ⟨(headedDiscipline cfg).renewReady h.1 hd f, fun s => ?_⟩
    exact (carries_renew f s).recalled false (h.2 s) h.2.waited
  renewSettled h hd f := by
    refine ⟨(headedDiscipline cfg).renewSettled h.1 hd f, fun s => ?_⟩
    refine (carries_renew f s).recalled true (h.2 s) fun hc => ?_
    have := h.2.waited hc
    rw [recalls_unshared (by simp [hd])] at this
    cases this
  settle h hq := by
    refine ⟨(headedDiscipline cfg).settle h.1 hq, fun s => ?_⟩
    refine (carries_refl _ s).recalled true (h.2 s) fun hc => ?_
    have := h.2.waited hc
    cases this
  front _ h hq hf := by
    obtain ⟨hready, hsettled⟩ := (headedDiscipline cfg).front trivial h.1 hq hf
    have hrec := h.2.dealt h.1.1.2.fits (seen_calm _) (fun _ => rfl) (h.1.1.2.deal hq hf)
    refine ⟨fun hn => ⟨hready hn, ?_⟩, fun hn => ⟨hsettled hn, ?_⟩⟩
    · rwa [hn, lineAfter, if_pos hn] at hrec
    · rwa [hn, lineAfter, if_neg (by simp [hn])] at hrec
  request_idle h hq hp ht := by
    refine ⟨(headedDiscipline cfg).request_idle h.1 hq hp ht, ?_⟩
    obtain ⟨up, hu, rfl⟩ := hp
    have := h.2.request hu ht false fun _ => hq
    rwa [hq] at this
  request_busy h hq hp ht := by
    refine ⟨(headedDiscipline cfg).request_busy h.1 hq hp ht, ?_⟩
    obtain ⟨up, hu, rfl⟩ := hp
    exact h.2.request hu ht true (by simp)
  received _ h ha hp hr := by
    have hcont := (headedDiscipline cfg).received trivial h.1 trivial hp hr
    obtain ⟨up, hu, rfl⟩ := hp
    have hcells := h.1.1.received_cells hu hr
    refine continues_with (P := fun rest l e => RecalledAll rest l e.1) hcont (fun _ => ?_) fun buf hbuf => ?_
    · show RecalledAll true _ (deliver _ _)
      rw [hcells]
      exact h.2.received h.1.1 hu ha hr true (by simp)
    · show RecalledAll false _ (deliver _ _)
      rw [hcells]
      exact h.2.received h.1.1 hu ha hr false fun _ => ⟨buf, hbuf⟩
  dramReply h hans ho := by
    obtain ⟨r, q, hq, hready⟩ := (headedDiscipline cfg).dramReply h.1 hans ho
    refine ⟨r, q, hq, hready, ?_⟩
    obtain ⟨hpos, rfl⟩ := hans
    have hcalm := fun c => h.1.1.calm_of_reads hpos c
    exact h.2.dealt h.1.1.fits (fun c => (hcalm c).1) (fun c => (hcalm c).2)
      (h.1.1.dramReply_deal hpos ho hq)
  nullifies h hq requester := by
    refine ⟨(headedDiscipline cfg).nullifies h.1 hq requester, fun s => ?_⟩
    refine (carries_nullify hq requester s).recalled false (h.2 s) fun hc => ?_
    have := h.2.waited hc
    rw [recalls_idle hq] at this
    cases this

end Sniper.Protocol.LineInvariant
