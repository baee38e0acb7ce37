import Sniper.Protocol.Receiving
import Sniper.Protocol.Handling

/-! # The handlers of the directory keep the invariant

A whole handler on one line, from the message it takes to the last message it sends.
-/
namespace Sniper.Protocol.LineInvariant
open Directory.DirectoryEntry Directory.Handlers Directory.Outcomes Function
open Protocol.CacheInvariant Protocol.Handling

variable {n : Nat} {V : Type} {cfg : Config} {ch : Choice n V} {fresh : Option (Fin n)}
  {buf : Option V} {x : Fin n → Cell V} {reads : Nat}

/-! ## New entries -/

section Renew
variable {l : Line n V}

theorem Common.renew {rest} (h : Common rest l x) (hd : l.entry.dstate = .UNCACHED)
    (f : Option (Fin n)) : Common rest ⟨.create f, l.queue⟩ x := by
  have hempty := h.shaped.uncached.mp hd
  refine ⟨⟨by simp [Entry.create], by simp [Entry.create], by simp [Entry.create]⟩, h.tail, ?_, ?_, ?_⟩
  · intro r hr hw
    have := (h.waits r hr hw).1
    rw [hempty] at this
    simp at this
  · intro r hr hw
    have := (h.forwards r hr hw).2.2
    rw [hempty] at this
    simp at this
  · intro c
    have hc : (seen rest l c).sharer = false := decide_eq_false (by simp [hempty])
    refine (h.fits c).relax ?_ rfl rfl ((h.fits c).allows_not_sharer hc _)
    rw [hc]
    exact decide_eq_false (Finset.notMem_empty c)

theorem Ready.renew (h : Ready cfg buf l x) (hd : l.entry.dstate = .UNCACHED)
    (f : Option (Fin n)) : Ready cfg buf ⟨.create f, l.queue⟩ x :=
  ⟨h.toCommon.renew hd f, .inl fun _ hs => by simp [Entry.create] at hs, h.idle⟩

theorem Settled.served (h : Settled cfg l x reads) {r} (hr : r ∈ l.queue.head?)
    (hw : r.waitForData = false) : l.entry.dstate ≠ .UNCACHED := by
  intro hd
  have ha := h.awaits r hr hw
  have hempty := h.shaped.uncached.mp hd
  unfold Awaits at ha
  rw [hempty] at ha
  split at ha
  · exact ha.1 rfl
  · exact ha.1 rfl
  · obtain ⟨s, hs, -⟩ := ha.1
    exact Finset.notMem_empty s hs
  · split at ha
    · exact Finset.notMem_empty _ ha.1
    · rcases ha.2 with ⟨o, ho, -⟩ | ⟨hs, -⟩
      · rw [owns_uncached hd] at ho; cases ho
      · rw [hd] at hs; cases hs

theorem Settled.renew (h : Settled cfg l x reads) (hd : l.entry.dstate = .UNCACHED)
    (f : Option (Fin n)) : Settled cfg ⟨.create f, l.queue⟩ x reads := by
  refine ⟨h.toCommon.renew hd f, fun _ hs => by simp [Entry.create] at hs, ?_, h.reading⟩
  intro r hr hw
  exact absurd hd (h.served hr hw)

end Renew

/-! ## Messages in a row -/

theorem toCache_append (c : Fin n) (s t : List (Send n V)) :
    toCache c (s ++ t) = toCache c s ++ toCache c t := by simp [toCache]

theorem deliver_append (s t : List (Send n V)) (x : Fin n → Cell V) :
    deliver (s ++ t) x = deliver t (deliver s x) := by
  funext c
  simp [deliver, toCache_append, Cell.post]

theorem deliver_none {s} (h : ∀ c, toCache c s = []) (x : Fin n → Cell V) :
    deliver s x = x := by
  funext c
  rw [deliver, h c, Cell.post_nil]

/-! ## The parts of the handlers -/

section Handle
variable {c : Fin n} {m : FromCache V} {up : List (FromCache V)}

theorem Settled.received_reply {l} (h : Settled cfg l x reads) (hu : (x c).up = m :: up) {r}
    (hr : receiveReply ch c l m = .ok r) :
    (∀ s, toCache s r.sent = []) ∧ r.sent.countP isRead = 0 ∧
      Continues cfg r.line (take c up x) reads r.action ∧ (r.action ≠ .done → r.line.queue ≠ []) := by
  cases m with
  | INV_REP =>
    obtain ⟨hsent, hcont⟩ := h.invRep hu hr
    refine ⟨fun s => by rw [hsent]; rfl, by rw [hsent]; rfl, hcont, ?_⟩
    obtain ⟨-, -, rfl⟩ := invRep_cases hr
    intro hne h0
    simp [wakes, show (invLine c l).queue = [] from h0] at hne
  | FLUSH_REP d =>
    obtain ⟨hto, hread, hcont⟩ := h.flushRep hu hr
    refine ⟨hto, hread, hcont, ?_⟩
    obtain ⟨-, -, hf⟩ := flushRep_cases hr
    cases hf with
    | idle | upgrade => simp
    | exclusive hq | shared hq | upgradeLast hq | nullify hq => simp [flushLine, hq]
  | WB_REP d =>
    obtain ⟨hsent, hcont⟩ := h.wbRep hu hr
    refine ⟨fun s => by rw [hsent]; rfl, by rw [hsent]; rfl, hcont, ?_⟩
    obtain ⟨-, ⟨req, q, hq, -⟩, rfl⟩ := wbRep_cases hr
    simp [hq]
  | EX_REQ | SH_REQ | UPGRADE_REQ => cases hr

theorem Settled.received {l} (h : Settled cfg l x reads) (hu : (x c).up = m :: up) {r}
    (hr : receiveReply ch c l m = .ok r) :
    Handling.Continues (fun buf l (e : (Fin n → Cell V) × Nat) => e.2 = 0 ∧ Ready cfg buf l e.1)
      (fun l e => Settled cfg l e.1 e.2) r.line
      (deliver r.sent (take c up x), reads + r.sent.countP isRead) r.action := by
  obtain ⟨hto, hread, hcont, hne⟩ := h.received_reply hu hr
  rw [deliver_none hto, hread]
  cases ha : r.action with
  | done =>
    rw [ha] at hcont
    exact hcont
  | process buf =>
    rw [ha] at hcont hne
    exact ⟨hne (by simp), hcont⟩

theorem Settled.nullify_ready {l} (h : Settled cfg l x reads) (hq : l.queue = [])
    (requester : Fin n) : reads = 0 ∧
      Ready cfg none ⟨l.entry, [ShmemReq.create .NULLIFY_REQ requester]⟩ x := by
  have hcalm : ∀ c, (seen true l c).Calm := fun c =>
    ⟨by simp [seen, wbWait, hq], by simp [seen, flushing, hq], by simp [seen, gathers, hq]⟩
  have hfresh := fresh_create (V := V) .NULLIFY_REQ requester
  refine ⟨h.reads_zero (by simp [hq]), ⟨h.shaped, by simp, ?_, ?_, fun c => ?_⟩, .inl ?_, ?_⟩
  · rintro _ ⟨⟩ hw; cases hw
  · rintro _ ⟨⟩ hw; cases hw
  · refine (h.fits c).relax rfl ?_ ?_ ((h.fits c).toBalance.allows.of_calm (hcalm c) id)
    · have hp : pending [ShmemReq.create (V := V) .NULLIFY_REQ requester] c = false :=
        pending_of_fresh fun r hr => by cases hr; exact hfresh
      simp only [seen, hp, hq]
      rfl
    · simp only [seen, requestsOf_cons_nullify (q := []) (rfl : (ShmemReq.create (V := V)
        .NULLIFY_REQ requester).msgType = .NULLIFY_REQ), hq]
  · intro hp hd hroom f hf
    exact ⟨(h.forwarder hp hd hroom f hf).1,
      pending_of_fresh fun r hr => by cases hr; exact hfresh⟩
  · rintro _ ⟨⟩; rfl

/-- The invariant as a discipline of the handlers; the caches and the number of reads are
what surrounds the line. -/
def lineDiscipline (cfg : Config) : Discipline cfg n V where
  Env := (Fin n → Cell V) × Nat
  emit sent e := (deliver sent e.1, e.2 + sent.countP isRead)
  pops c m e e' := ∃ up, (e.1 c).up = m :: up ∧ e' = (take c up e.1, e.2)
  answers _ e e' := 0 < e.2 ∧ e' = (e.1, e.2 - 1)
  chooses _ := True
  admits _ _ _ _ := True
  ready buf l e := e.2 = 0 ∧ Ready cfg buf l e.1
  settled l e := Settled cfg l e.1 e.2
  emit_nil _ := Prod.ext (deliver_none (fun _ => rfl) _) (Nat.add_zero _)
  emit_append s t e := by
    rw [deliver_append, List.countP_append, Nat.add_assoc]
  renewReady h hd f := ⟨h.1, h.2.renew hd f⟩
  renewSettled h hd f := h.renew hd f
  settle h hq := by
    rw [h.1]
    exact h.2.settle hq
  front _ h hq hf := by
    rw [h.1, Nat.zero_add]
    rcases h.2.front hq hf with ⟨hn, -, hread, hready⟩ | ⟨hn, hsettled⟩
    · exact ⟨fun _ => ⟨hread, hready⟩, by simp [hn]⟩
    · exact ⟨by simp [hn], fun _ => hsettled⟩
  request_idle h hq hp ht := by
    obtain ⟨up, hu, rfl⟩ := hp
    have := h.request_idle hq hu ht
    rwa [hq] at this
  request_busy h hq hp ht := by
    obtain ⟨up, hu, rfl⟩ := hp
    exact h.request_busy hq hu ht
  received _ h _ hp hr := by
    obtain ⟨up, hu, rfl⟩ := hp
    exact h.received hu hr
  dramReply h hans ho := by
    obtain ⟨hpos, rfl⟩ := hans
    obtain ⟨hone, -, hread, r, q, hq, hready⟩ := h.dramReply hpos ho
    exact ⟨r, q, hq, by simp [hone, hread], hready⟩
  nullifies h hq requester := h.nullify_ready hq requester

theorem Settled.cell {l} (h : Settled cfg l x reads) {w y} (hs : CellStep (x c) w y) :
    Settled cfg l (update x c y) reads where
  shaped := h.shaped
  tail := h.tail
  waits := h.waits
  forwards := h.forwards
  fits := fun b => by
    by_cases hb : b = c
    · subst hb
      rw [update_self]
      exact (h.fits b).step hs
    · rw [update_of_ne hb]
      exact h.fits b
  forwarder := h.forwarder
  awaits := fun r hr hw => by
    refine (h.awaits r hr hw).congr rfl fun b => ?_
    by_cases hb : b = c
    · subst hb
      rw [update_self]
      exact hs.asked
    · rw [update_of_ne hb]
      exact ⟨id, id⟩
  reading := h.reading

end Handle

/-! ## What the invariant says -/

section Consequences
variable {l : Line n V} (h : Settled cfg l x reads)
include h

theorem Settled.sharers_ne (hq : l.queue ≠ []) : l.entry.sharers ≠ ∅ := by
  obtain ⟨r, q, hq⟩ := List.exists_cons_of_ne_nil hq
  have hr : r ∈ l.queue.head? := by rw [hq]; rfl
  cases hw : r.waitForData with
  | true => exact Finset.ne_empty_of_mem (h.waits r hr hw).1
  | false => exact h.shaped.sharers_ne (h.served hr hw)

theorem Settled.exclusive_alone {a b} (hab : b ≠ a)
    (ha : (x a).line.cstate = .EXCLUSIVE ∨ (x a).line.cstate = .MODIFIED) :
    (x b).line.cstate = .INVALID := by
  have howns : owns l.entry a = true := by
    refine (h.fits a).excl ?_
    rcases ha with ha | ha
    · exact .inl ha
    · exact .inr (.inl ha)
  by_contra hne
  have hb : b ∈ l.entry.sharers := of_decide_eq_true ((h.fits b).valid hne).2.2.2
  rw [h.shaped.sharers_of_owns howns, Finset.mem_singleton] at hb
  exact hab hb

theorem Settled.quiet (hreads : reads = 0) (hup : ∀ c, (x c).up = []) (hdn : ∀ c, (x c).dn = [])
    (hphase : ∀ c, (x c).line.phase = .idle) :
    l.queue = [] ∧ ∀ c, (x c).line.waiters = [] := by
  have hlive : ∀ c, (x c).live = [] := fun c => by simp [Cell.live, live, hdn c]
  have hasked : ∀ c, ¬ (x c).Asked := fun c => by simp [Cell.Asked, Cell.tally, hlive, hup]
  have haskedWb : ∀ c, ¬ (x c).AskedWb := fun c => by simp [Cell.AskedWb, Cell.tally, hlive, hup]
  have hqueue : l.queue = [] := by
    by_contra hne
    obtain ⟨r, q, hq⟩ := List.exists_cons_of_ne_nil hne
    have hr : r ∈ l.queue.head? := by rw [hq]; rfl
    have hw : r.waitForData = false := by
      by_contra hw
      have hone := h.reading
      simp [hq, hreads, hw] at hone
    have ha := h.awaits r hr hw
    unfold Awaits at ha
    split at ha
    · obtain ⟨s, hs⟩ := Finset.nonempty_iff_ne_empty.mpr ha.1
      exact hasked s (ha.2 s hs)
    · obtain ⟨s, hs⟩ := Finset.nonempty_iff_ne_empty.mpr ha.1
      exact hasked s (ha.2 s hs)
    · obtain ⟨s, hs, hsr⟩ := ha.1
      exact hasked s (ha.2 s hs hsr)
    · split at ha
      · exact haskedWb _ ha.2.2
      · rcases ha.2 with ⟨o, -, ho⟩ | ⟨-, s, -, hs⟩
        · exact haskedWb o ho
        · exact hasked s hs
  refine ⟨hqueue, fun c => ?_⟩
  have hreq := (h.fits c).request
  simp only [Cell.tally, hup, hdn, hphase, seen, hqueue, requestsOf] at hreq
  by_contra hne
  simp [hne] at hreq

end Consequences

end Sniper.Protocol.LineInvariant
