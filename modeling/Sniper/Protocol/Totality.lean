import Sniper.Protocol.RecallDiscipline

/-! # No handler fails

On a line that keeps the invariant no assertion of the directory's handlers fails. An
invalidate reply needs the recalled copies too: it is not the owner's modified line that
leaves without its data.
-/
namespace Sniper.Protocol.LineInvariant
open Directory.DirectoryEntry Directory.Handlers Directory.Outcomes
open Directory.Refinement Protocol.CacheInvariant
open Lib.Simulation

variable {n : Nat} {V : Type} {cfg : Config} {ch : Choice n V} {buf : Option V} {l : Line n V}
  {x : Fin n → Cell V} {reads : Nat} {r : ShmemReq n V} {q : List (ShmemReq n V)} {c : Fin n}
  {m : FromCache V} {up : List (FromCache V)}

/-- A new entry has room for a sharer. -/
def Spacious (cfg : Config) : Prop :=
  cfg.directoryType = .LIMITED_NO_BROADCAST → 0 < cfg.maxHwSharers

/-- The line can use the data that a message brought. -/
def Provided (buf : Option V) (l : Line n V) : Prop :=
  buf.isSome = true → l.entry.dstate = .UNCACHED ∨
    l.entry.dstate = .SHARED ∧ ∃ r ∈ l.queue.head?, r.msgType = .SH_REQ

theorem provided_none (l : Line n V) : Provided none l := nofun

/-! ## The parts of the processing -/

theorem retrieve_total {reply} (hq : l.queue = r :: q) :
    ∃ o, retrieveDataAndSendToL2Cache cfg ch reply c buf l = .ok o := by
  unfold retrieveDataAndSendToL2Cache
  cases buf with
  | some d => exact ⟨_, rfl⟩
  | none =>
    cases ch.nuca with
    | some d => exact ⟨_, rfl⟩
    | none =>
      simp only [hq]
      cases l.entry.forwarder with
      | none => exact ⟨_, rfl⟩
      | some f =>
        dsimp only
        split
        · exact ⟨_, rfl⟩
        · exact ⟨_, rfl⟩

theorem Shaped.sendOwner_total (h : Shaped l.entry)
    (hd : l.entry.dstate = .EXCLUSIVE ∨ l.entry.dstate = .MODIFIED) (msg : ToCache V) :
    ∃ o, sendOwner l msg = .ok o := by
  obtain ⟨c, hc, -⟩ := h.owned hd
  exact ⟨_, by rw [sendOwner, hc]⟩

theorem join_total (hcfg : Spacious cfg) {e : Entry n} (hs : e.sharers = ∅) (c : Fin n) :
    ∃ e₁ e₂, e.addSharer cfg c = .ok (true, e₁) ∧ e₁.setOwner c = .ok e₂ := by
  refine ⟨{ e with sharers := insert c e.sharers }, _, ?_, if_pos (Finset.mem_insert_self ..)⟩
  have hroom : ¬ (cfg.directoryType ≠ .LIMITLESS ∧
      e.getNumSharers ≥ Entry.getMaxHwSharers cfg n) := by
    intro ⟨hne, hge⟩
    have hpos := c.pos
    rw [Entry.getNumSharers, hs, Finset.card_empty] at hge
    cases hd : cfg.directoryType with
    | FULL_MAP => simp only [Entry.getMaxHwSharers, hd] at hge; omega
    | LIMITED_NO_BROADCAST =>
      have := hcfg hd
      simp only [Entry.getMaxHwSharers, hd] at hge
      omega
    | LIMITLESS => exact hne hd
  rw [Entry.addSharer, if_neg (by simp [hs]), if_neg hroom]

theorem getOneSharer_total (cfg : Config) (ch : Choice n V) {e : Entry n} (hs : e.sharers ≠ ∅) :
    ∃ s, e.getOneSharer cfg ch = .ok s := by
  obtain ⟨s, hs⟩ := Finset.nonempty_iff_ne_empty.mpr hs
  have hpos : 0 < e.getSharersList.length :=
    List.length_pos_of_mem (Entry.mem_getSharersList.mpr hs)
  have hindex : (if cfg.directoryType = .LIMITLESS then 0 else ch.rand % e.getSharersList.length) <
      e.getSharersList.length := by
    split
    · exact hpos
    · exact Nat.mod_lt _ hpos
  obtain ⟨s', hs'⟩ : ∃ s', e.getSharersList[if cfg.directoryType = .LIMITLESS then 0
      else ch.rand % e.getSharersList.length]? = some s' := ⟨_, List.getElem?_eq_getElem hindex⟩
  exact ⟨s', by simp only [Entry.getOneSharer, hs']⟩

/-! ## The front request -/

theorem Provided.buf_none (hp : Provided buf l) (hq : l.queue = r :: q)
    (hd : l.entry.dstate ≠ .UNCACHED) (ht : r.msgType ≠ .SH_REQ ∨ l.entry.dstate ≠ .SHARED) :
    buf.isSome = false := by
  by_contra hb
  rcases hp (Bool.eq_true_of_not_eq_false hb) with hu | ⟨hs, r', hr', ht'⟩
  · exact hd hu
  · rw [hq] at hr'
    cases hr'
    exact ht.elim (fun h => h ht') fun h => h hs

section Front
variable (h : Ready cfg buf l x) (hq : l.queue = r :: q)
include h hq

theorem Ready.exReq_total (hcfg : Spacious cfg) (hp : Provided buf l) (ht : r.msgType = .EX_REQ) :
    ∃ o, processExReqFromL2Cache cfg ch r buf l = .ok o := by
  have hbuf := fun hd => hp.buf_none hq hd (.inl (by simp [ht]))
  unfold processExReqFromL2Cache
  cases hd : l.entry.dstate with
  | EXCLUSIVE =>
    simp only [hbuf (by simp [hd])]
    exact h.shaped.sendOwner_total (.inl hd) _
  | MODIFIED =>
    simp only [hbuf (by simp [hd])]
    exact h.shaped.sendOwner_total (.inr hd) _
  | SHARED =>
    simp only [hbuf (by simp [hd])]
    exact ⟨_, rfl⟩
  | UNCACHED =>
    obtain ⟨e₁, e₂, ha, ho⟩ := join_total hcfg (h.shaped.uncached.mp hd) r.requester
    exact exists_bind_ok ha (exists_bind_ok ho (retrieve_total (r := r) (q := q) hq))
  | OWNED => exact absurd hd h.shaped.notOwned

theorem Ready.not_owner (ht : r.msgType = .SH_REQ) (hd : l.entry.dstate = .EXCLUSIVE) :
    l.entry.owner ≠ some r.requester := by
  intro ho
  obtain ⟨o, ho', hs⟩ := h.shaped.owned (.inl hd)
  rw [ho] at ho'
  have hsh : (seen false l r.requester).sharer = true := decide_eq_true (by
    rw [hs, ← Option.some.inj ho']
    exact Finset.mem_singleton_self _)
  have hf : r.forwardingFrom = none := by
    by_contra hf
    have hfor : r.isForwarding = true := Option.isSome_iff_ne_none.mpr hf
    rw [(h.forwards r (by rw [hq]; rfl) hfor).2.1] at hd
    cases hd
  have hpend : (seen false l r.requester).pending = false := h.not_pending hq hf _
  rw [h.front_absent hq (.inr (.inl ht)), hpend] at hsh
  cases hsh

theorem Ready.shReq_total (hcfg : Spacious cfg) (hp : Provided buf l) (ht : r.msgType = .SH_REQ) :
    ∃ o, processShReqFromL2Cache cfg ch r buf l = .ok o := by
  unfold processShReqFromL2Cache
  cases hd : l.entry.dstate with
  | EXCLUSIVE =>
    simp only [h.not_owner hq ht hd,
      hp.buf_none hq (by simp [hd]) (.inr (by simp [hd]))]
    exact h.shaped.sendOwner_total (.inl hd) _
  | MODIFIED =>
    simp only [hp.buf_none hq (by simp [hd]) (.inr (by simp [hd]))]
    exact h.shaped.sendOwner_total (.inr hd) _
  | SHARED =>
    dsimp only
    split
    · exact retrieve_total hq
    · rename_i hnot
      have hnot : r.requester ∉ l.entry.sharers := by simpa [Entry.hasSharer] using hnot
      have hne : l.entry.sharers ≠ ∅ := h.shaped.sharers_ne (by simp [hd])
      rw [Entry.addSharer, if_neg hnot]
      split
      · obtain ⟨s, hs⟩ := getOneSharer_total cfg ch hne
        exact exists_bind_ok rfl (exists_bind_ok hs ⟨_, rfl⟩)
      · exact exists_bind_ok rfl (retrieve_total (r := r) (q := q) hq)
  | UNCACHED =>
    obtain ⟨e₁, e₂, ha, ho⟩ := join_total hcfg (h.shaped.uncached.mp hd) r.requester
    refine exists_bind_ok ha (exists_bind_ok ho ?_)
    split
    all_goals exact retrieve_total (r := r) (q := q) hq
  | OWNED => exact absurd hd h.shaped.notOwned

theorem Ready.upgradeReq_total (hcfg : Spacious cfg) :
    ∃ o, processUpgradeReqFromL2Cache cfg ch r buf l = .ok o := by
  unfold processUpgradeReqFromL2Cache
  cases hd : l.entry.dstate with
  | EXCLUSIVE | MODIFIED =>
    obtain ⟨o, ho, hs⟩ := h.shaped.owned (by simp [hd])
    rw [Entry.getSharersList_eq_singleton.mpr hs]
    dsimp only
    split
    · rename_i hor
      rw [if_pos (by rw [ho, hor])]
      exact ⟨_, rfl⟩
    · exact h.shaped.sendOwner_total (by simp [hd]) _
  | SHARED =>
    dsimp only
    split
    · rename_i hs
      have hmem : r.requester ∈ l.entry.sharers :=
        Entry.mem_getSharersList.mp (by rw [hs]; exact List.mem_singleton_self _)
      exact exists_bind_ok (if_pos hmem) ⟨_, rfl⟩
    · exact ⟨_, rfl⟩
  | UNCACHED =>
    have hs := h.shaped.uncached.mp hd
    have hnil : l.entry.getSharersList = [] := by
      rw [Entry.getSharersList, hs]
      simp
    obtain ⟨e₁, e₂, ha, ho⟩ := join_total hcfg hs r.requester
    simp only [hnil, ne_eq, not_true_eq_false, if_false]
    exact exists_bind_ok ha (exists_bind_ok ho (retrieve_total (r := r) (q := q) hq))
  | OWNED => exact absurd hd h.shaped.notOwned

theorem Ready.processFront_total (ch : Choice n V) (hcfg : Spacious cfg) (hp : Provided buf l)
    (hn : r.msgType ≠ .NULLIFY_REQ) :
    ∃ o, processFront cfg ch buf l = .ok o := by
  unfold processFront
  rw [hq]
  cases ht : r.msgType with
  | EX_REQ => simpa [ht] using h.exReq_total hq hcfg hp ht
  | SH_REQ => simpa [ht] using h.shReq_total hq hcfg hp ht
  | UPGRADE_REQ => simpa [ht] using h.upgradeReq_total hq hcfg
  | NULLIFY_REQ => exact absurd ht hn

end Front

/-! ## Replies -/

section Replies
variable (h : Settled cfg l x reads)
include h

/-- **An invalidate reply is no surprise**: the owner's modified line leaves with its data. -/
theorem Settled.invRep_total (hrec : RecalledAll true l x) (hu : (x c).up = .INV_REP :: up) :
    ∃ rc, processInvRepFromL2Cache c l = .ok rc := by
  have hsh : c ∈ l.entry.sharers := of_decide_eq_true
    ((h.fits c).leaving (by simp [Cell.tally, hu, isLeave] : 0 < (x c).tally.leaves)).2.2.2.2
  have hnot : l.entry.dstate ≠ .MODIFIED := by
    intro hd
    obtain ⟨o, ho, hs⟩ := h.shaped.owned (.inr hd)
    rw [hs, Finset.mem_singleton] at hsh
    have hmod : (watched true l c).modified = true := by
      simp [watched, owns, hd, ho, hsh]
    have hafter : ∀ m ∈ up, isFetch m = true := fun m hm => by
      have horder := (h.fits c).order
      rw [hu] at horder
      exact ((List.pairwise_cons.mp horder).1 m hm).2 rfl
    have hnone : ∀ p : FromCache V → Bool, (∀ m, isFetch m = true → p m = false) →
        up.countP p = 0 := fun p hp =>
      List.countP_eq_zero.mpr fun m hm => by simp [hp m (hafter m hm)]
    have hwb := hnone isWbRep fun m hm => by cases m <;> cases hm <;> rfl
    have hflush := hnone isFlushRep fun m hm => by cases m <;> cases hm <;> rfl
    rcases (hrec c).toRecall.flushed hmod with hpos | hle
    · simp [Cell.tally, hu, isWbRep, hwb] at hpos
    · simp [Cell.tally, hu, isLeave, isFlushRep, hflush] at hle
  have hne : l.entry.dstate ≠ .UNCACHED := fun hd => by
    rw [h.shaped.uncached.mp hd] at hsh
    simp at hsh
  have hstate : ¬ (l.entry.dstate ≠ .SHARED ∧ l.entry.dstate ≠ .EXCLUSIVE) := by
    rintro ⟨h1, h2⟩
    have := h.shaped.notOwned
    cases hd : l.entry.dstate <;> simp_all
  rw [processInvRepFromL2Cache, if_neg hstate]
  exact exists_bind_ok (if_pos hsh) ⟨_, rfl⟩

theorem Settled.flushRep_total {d} (hu : (x c).up = .FLUSH_REP d :: up) :
    ∃ rc, processFlushRepFromL2Cache ch c d l = .ok rc := by
  have hsh : c ∈ l.entry.sharers := of_decide_eq_true
    ((h.fits c).leaving (by simp [Cell.tally, hu, isLeave] : 0 < (x c).tally.leaves)).2.2.2.2
  have hstate : ¬ ((l.entry.sharers.erase c).card ≠ 0 ∧ l.entry.dstate ≠ .SHARED) := by
    rintro ⟨h1, h2⟩
    rcases (h.shaped.left hsh none none).2 with ⟨h0, -⟩ | ⟨-, hd, -⟩
    · exact h1 (by rw [h0, Finset.card_empty])
    · exact h2 hd
  refine exists_bind_ok (if_pos hsh) ?_
  dsimp only
  rw [if_neg]
  case hnc => exact hstate
  split
  · exact ⟨_, rfl⟩
  · split
    · exact ⟨_, rfl⟩
    · exact ⟨_, rfl⟩
    · -- on the number of sharers, for the new state and then for the test
      split
      · split <;> exact ⟨_, rfl⟩
      · exact ⟨_, rfl⟩
    · exact ⟨_, rfl⟩

theorem Settled.wbRep_total {d} (hu : (x c).up = .WB_REP d :: up) :
    ∃ rc, processWbRepFromL2Cache c d l = .ok rc := by
  have hwb := h.wbWait_of_wbRep hu
  cases hq : l.queue with
  | nil => simp [wbWait, hq] at hwb
  | cons r q =>
    simp only [wbWait, hq, Bool.and_eq_true, decide_eq_true_eq] at hwb
    obtain ⟨⟨⟨ht, -⟩, hsh⟩, -⟩ := hwb
    rw [processWbRepFromL2Cache, if_pos (show l.entry.hasSharer c = true from decide_eq_true hsh)]
    simp only [hq, if_pos (show r.msgType = .SH_REQ from ht)]
    exact ⟨_, rfl⟩

theorem Settled.reply_total (ch : Choice n V) (hrec : RecalledAll true l x) (hu : (x c).up = m :: up)
    (hm : m.request? = none) : ∃ rc, receiveReply ch c l m = .ok rc := by
  cases m with
  | INV_REP => exact h.invRep_total hrec hu
  | FLUSH_REP d => exact h.flushRep_total hu
  | WB_REP d => exact h.wbRep_total hu
  | EX_REQ | SH_REQ | UPGRADE_REQ => cases hm

theorem Settled.received_provided (ch : Choice n V) (hu : (x c).up = m :: up) {rc}
    (hr : receiveReply ch c l m = .ok rc) (ha : rc.action = .process buf) :
    Provided buf rc.line := by
  cases m with
  | INV_REP =>
    obtain ⟨-, -, rfl⟩ := invRep_cases hr
    cases hw : wakes c (invLine c l) with
    | true =>
      simp only [hw, if_true] at ha
      cases ha
      exact provided_none _
    | false => simp [hw] at ha
  | FLUSH_REP d =>
    obtain ⟨-, -, hf⟩ := flushRep_cases hr
    have hlast : l.entry.sharers.erase c = ∅ → Provided buf (flushLine c l) := fun h0 _ =>
      .inl (by simp [flushLine, leave, h0])
    have hgathers := h.flush_last hu
    cases hf with
    | idle | upgrade => cases ha
    | exclusive hq ht | shared hq ht
    | nullify hq ht => exact hlast (hgathers (by simp [gathers, hq, ht]))
    | upgradeLast hq ht hs => exact hlast hs
  | WB_REP d =>
    obtain ⟨-, ⟨r, q, hq, ht⟩, rfl⟩ := wbRep_cases hr
    exact fun _ => .inr ⟨rfl, r, by rw [show l.queue = r :: q from hq]; rfl, ht⟩
  | EX_REQ | SH_REQ | UPGRADE_REQ => cases hr

theorem Settled.dramReply_total (hpos : 0 < reads) (d : V) :
    ∃ o, processDRAMReply d l = .ok o := by
  have hread := h.reading
  cases hq : l.queue with
  | nil => simp [hq] at hread; omega
  | cons r q =>
    have hwait : r.waitForData = true := by
      by_contra hn
      simp [hq, hn] at hread
      omega
    unfold processDRAMReply
    rw [hq]
    rcases (h.waits r (by rw [hq]; rfl) hwait).2 with ⟨ht, hd | hd⟩ | ⟨ht | ht, hd⟩
    all_goals simp only [ht, hd, if_true]
    all_goals exact ⟨_, rfl⟩

end Replies

/-! ## Whole handlers -/

section Handlers
variable {fresh : Option (Fin n)} {v v' : LineView n V} {e : (Fin n → Cell V) × Nat}

/-- No entry of the queue is a nullify. -/
def Unnullified (q : List (ShmemReq n V)) : Prop := ∀ r ∈ q, r.msgType ≠ .NULLIFY_REQ

theorem processFront_view_total (ch : Choice n V) (fresh : Option (Fin n)) (hcfg : Spacious cfg)
    (h : (lineDiscipline cfg).ready buf (lineOf v none) e)
    (hp : ∀ f, Provided buf (lineOf v f)) (hq : v.queue = r :: q) (hn : r.msgType ≠ .NULLIFY_REQ) :
    ∃ p, v.processFront cfg ch fresh buf = .ok p := by
  have hready := ((lineDiscipline cfg).ready_at h fresh).2
  obtain ⟨o, ho⟩ := hready.processFront_total hq ch hcfg (hp fresh) hn
  have ho : processFront cfg ch buf (⟨v.entry.getD (.create fresh), r :: q⟩ : Line n V) = .ok o := by
    rw [← hq]
    exact ho
  rw [LineView.processFront, hq]
  dsimp only
  rw [if_neg hn]
  exact exists_bind_ok ho ⟨_, rfl⟩

theorem serve_total (ch : Choice n V) (fresh : Option (Fin n)) (hcfg : Spacious cfg) :
    ∀ {q : List (ShmemReq n V)} {v : LineView n V} {e : (Fin n → Cell V) × Nat},
    (lineDiscipline cfg).ready none (lineOf { v with queue := q } none) e → Unnullified q →
    ∃ p, v.serve cfg ch fresh q = .ok p := by
  intro q
  induction q with
  | nil => exact fun _ _ => ⟨_, rfl⟩
  | cons r q ih =>
    intro v e h hn
    have hr := hn r (List.mem_cons_self ..)
    obtain ⟨⟨v₁, sent, next⟩, hv⟩ := processFront_view_total ch fresh
      (v := { v with queue := r :: q }) hcfg h (fun f => provided_none _) rfl hr
    rw [LineView.serve, if_neg hr]
    refine exists_bind_ok hv ?_
    rcases (lineDiscipline cfg).processed trivial h rfl hv with ⟨rfl, -, hready⟩ | ⟨rfl, -⟩
    · obtain ⟨p, hp⟩ := ih hready fun r' hr' => hn r' (List.mem_cons_of_mem _ hr')
      exact exists_bind_ok hp ⟨_, rfl⟩
    · exact ⟨_, rfl⟩

theorem finish_total (hcfg : Spacious cfg) {sent next} (hn : Unnullified v.queue)
    (h : next = true → ∃ r q, v.queue = r :: q ∧
      (lineDiscipline cfg).ready none (lineOf { v with queue := q } none) e) :
    ∃ p, v.finish cfg ch fresh sent next = .ok p := by
  cases next with
  | false => exact ⟨_, rfl⟩
  | true =>
    obtain ⟨r, q, hq, hready⟩ := h rfl
    rw [hq] at hn
    obtain ⟨p, hp⟩ := serve_total ch fresh hcfg hready fun r' hr' =>
      hn r' (List.mem_cons_of_mem _ hr')
    rw [LineView.finish, if_pos rfl, hq]
    exact exists_bind_ok hp ⟨_, rfl⟩

theorem perform_total (hcfg : Spacious cfg) {a sent}
    (h : Handling.Continues (lineDiscipline cfg).ready (lineDiscipline cfg).settled
      (lineOf v none) e a) (hp : ∀ buf, a = .process buf → ∀ f, Provided buf (lineOf v f))
    (hn : Unnullified v.queue) :
    ∃ p, v.perform cfg ch fresh sent a = .ok p := by
  cases a with
  | done => exact ⟨_, rfl⟩
  | process buf =>
    obtain ⟨hne, hready⟩ := h
    obtain ⟨r, q, hq⟩ := List.exists_cons_of_ne_nil hne
    have hq : v.queue = r :: q := hq
    obtain ⟨⟨v₁, more, next⟩, hv⟩ := processFront_view_total ch fresh hcfg
      hready (hp buf rfl) hq (hn r (by rw [hq]; exact List.mem_cons_self ..))
    rw [LineView.perform]
    refine exists_bind_ok hv ?_
    rcases (lineDiscipline cfg).processed trivial hready hq hv with ⟨rfl, hq₁, hready⟩ | ⟨rfl, -⟩
    · refine finish_total hcfg ?_ fun _ => ⟨r, q, hq₁, hready⟩
      rw [hq₁, ← hq]
      exact hn
    · exact ⟨_, rfl⟩

theorem Settled.unnullified (h : Settled cfg l x reads) (hn : ¬ FrontNullify l.queue) :
    Unnullified l.queue := by
  have htail := h.tail
  cases hq : l.queue with
  | nil => simp [Unnullified]
  | cons r q =>
    rw [hq] at hn htail
    intro r' hr'
    rcases List.mem_cons.mp hr' with rfl | hr'
    · exact hn
    · exact (htail r' hr').2

theorem unnullified_congr {q q' : List (ShmemReq n V)}
    (h : q.map (·.msgType) = q'.map (·.msgType)) (hn : Unnullified q') : Unnullified q := by
  intro r hr ht
  have hmem : r.msgType ∈ q'.map (·.msgType) := h ▸ List.mem_map_of_mem hr
  obtain ⟨r', hr', he⟩ := List.mem_map.mp hmem
  exact hn r' hr' (he.trans ht)

theorem handleMsgFromL2Cache_total (hcfg : Spacious cfg)
    (h : (recallDiscipline cfg).settled (lineOf v none) e) (hu : (e.1 c).up = m :: up)
    (hn : ¬ FrontNullify v.queue) : ∃ p, v.handleMsgFromL2Cache cfg ch fresh c m = .ok p := by
  have hsettled : Settled cfg (lineOf v none) e.1 e.2 := h.1.1
  have hun : Unnullified v.queue := hsettled.unnullified hn
  unfold LineView.handleMsgFromL2Cache
  cases hm : m.request? with
  | some t =>
    have hq' : Unnullified (v.queue ++ [(ShmemReq.create t c : ShmemReq n V)]) := by
      intro r hr
      rcases List.mem_append.mp hr with hr | hr
      · exact hun r hr
      · rw [List.mem_singleton.mp hr]
        exact FromCache.request?_ne hm
    by_cases hq : v.queue = []
    · have hready := hsettled.request_idle hq hu hm
      dsimp only
      rw [if_pos (by rw [hq]; rfl)]
      refine perform_total (e := (take c up e.1, e.2)) hcfg ⟨by simp [lineOf], ?_⟩ ?_ hq'
      · exact hready
      · rintro _ ⟨⟩ f
        exact provided_none _
    · dsimp only
      rw [if_neg (by simpa using hq)]
      exact ⟨_, rfl⟩
  | none =>
    have hfresh := (recallDiscipline cfg).settled_at h fresh
    obtain ⟨rc, hr⟩ := hfresh.1.1.reply_total ch hfresh.2 hu hm
    refine exists_bind_ok hr ?_
    refine perform_total (v := ⟨some rc.line.entry, v.replaced, rc.line.queue⟩) hcfg
      (hfresh.1.1.received hu hr) (fun buf ha f => ?_) ?_
    · exact hfresh.1.1.received_provided ch hu hr ha
    · exact unnullified_congr (receiveReply_types hr) hun

theorem handleMsgFromDRAM_total (hcfg : Spacious cfg)
    (h : (lineDiscipline cfg).settled (lineOf v none) e) (hpos : 0 < e.2) (d : V)
    (hn : ¬ FrontNullify v.queue) : ∃ p, v.handleMsgFromDRAM cfg ch fresh d = .ok p := by
  have hfresh : Settled cfg (lineOf v fresh) e.1 e.2 := (lineDiscipline cfg).settled_at h fresh
  have hun : Unnullified v.queue := hfresh.unnullified hn
  obtain ⟨o, ho⟩ := hfresh.dramReply_total hpos d
  unfold LineView.handleMsgFromDRAM
  refine exists_bind_ok ho ?_
  have hline : o.line.queue = v.queue := by
    obtain ⟨-, -, -, -, rfl, -⟩ := dramReply_cases ho
    rfl
  obtain ⟨r, q, hq, hready⟩ := (lineDiscipline cfg).dramReply hfresh ⟨hpos, rfl⟩ ho
  refine finish_total hcfg ?_ fun _ => ⟨r, q, hq, hready⟩
  rw [show (⟨some o.line.entry, v.replaced, o.line.queue⟩ : LineView n V).queue = v.queue from hline]
  exact hun

end Handlers

end Sniper.Protocol.LineInvariant
