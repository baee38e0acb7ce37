import Sniper.Directory.Controller
import Sniper.Lib.Simulation
import Sniper.Lib.Channel

/-! # The directory seen from one line

What the controller does to a line depends on that line's entry and queue alone, but for the
making of room, which nullifies another line. Here are the handlers on one line, with the entry
that may be missing, and the proof that the controller runs them.
-/
namespace Sniper.Directory.Refinement
open Directory.DirectoryEntry Directory.SetArray Directory.Handlers Function
open Directory.Controller Lib.Simulation Lib.Channel

/-- The entry of a line, if it has one, whether it is on the replaced list, and the
requests queued for the line. -/
structure LineView (n : Nat) (V : Type) where
  entry : Option (Entry n)
  replaced : Bool
  queue : List (ShmemReq n V)

variable {n : Nat} {V : Type}

namespace LineView

/-- The line with an entry, which is a new one if it had none. -/
def alloc (fresh : Option (Fin n)) (v : LineView n V) : LineView n V :=
  { v with entry := some (v.entry.getD (.create fresh)) }

def processNullifyReq (v : LineView n V) :
    Except String (LineView n V × List (Send n V) × Bool) :=
  match v.entry with
  | none => .error "directory_entry"
  | some e => do
    let o ← Handlers.processNullifyReq ⟨e, v.queue⟩
    if o.next then
      if v.replaced then .ok (⟨none, false, o.line.queue⟩, o.sent, true)
      else .error "Should not reach here"
    else .ok (⟨some o.line.entry, v.replaced, o.line.queue⟩, o.sent, false)

/-- The front request is processed. A line without an entry is given a new one, whose
forwarder is `fresh`; a nullified line loses its entry. -/
def processFront (cfg : Config) (ch : Choice n V) (fresh : Option (Fin n))
    (cachedDataBuf : Option V) (v : LineView n V) :
    Except String (LineView n V × List (Send n V) × Bool) :=
  match v.queue with
  | [] => .error "size(address) >= 1"
  | req :: _ =>
    if req.msgType = .NULLIFY_REQ then v.processNullifyReq
    else do
      let o ← Handlers.processFront cfg ch cachedDataBuf
        ⟨v.entry.getD (.create fresh), v.queue⟩
      .ok (⟨some o.line.entry, v.replaced, o.line.queue⟩, o.sent, o.next)

/-- The requests behind a completed one, until one has to wait. -/
def serve (cfg : Config) (ch : Choice n V) (fresh : Option (Fin n)) :
    List (ShmemReq n V) → LineView n V → Except String (LineView n V × List (Send n V))
  | [], v => .ok ({ v with queue := [] }, [])
  | req :: rest, v =>
    if req.msgType = .NULLIFY_REQ then .error "Unrecognized Request"
    else do
      let (v, sent, next) ← processFront cfg ch fresh none { v with queue := req :: rest }
      if next then
        let (v, more) ← serve cfg ch fresh rest v
        .ok (v, sent ++ more)
      else .ok (v, sent)

def finish (cfg : Config) (ch : Choice n V) (fresh : Option (Fin n)) (v : LineView n V)
    (sent : List (Send n V)) (next : Bool) : Except String (LineView n V × List (Send n V)) :=
  if next then
    match v.queue with
    | [] => .error "size(address) >= 1"
    | _ :: rest => do
      let (v, more) ← serve cfg ch fresh rest v
      .ok (v, sent ++ more)
  else .ok (v, sent)

def perform (cfg : Config) (ch : Choice n V) (fresh : Option (Fin n)) (v : LineView n V)
    (sent : List (Send n V)) : Action V → Except String (LineView n V × List (Send n V))
  | .done => .ok (v, sent)
  | .process buf => do
    let (v, more, next) ← processFront cfg ch fresh buf v
    finish cfg ch fresh v (sent ++ more) next

/-- `handleMsgFromL2Cache` on the line of the message. -/
def handleMsgFromL2Cache (cfg : Config) (ch : Choice n V) (fresh : Option (Fin n))
    (sender : Fin n) (msg : FromCache V) (v : LineView n V) :
    Except String (LineView n V × List (Send n V)) :=
  match msg.request? with
  | some msgType =>
    perform cfg ch fresh { v with queue := v.queue ++ [ShmemReq.create msgType sender] } []
      (if v.queue.length = 0 then .process none else .done)
  | none => do
    let r ← receiveReply ch sender ⟨v.entry.getD (.create fresh), v.queue⟩ msg
    perform cfg ch fresh ⟨some r.line.entry, v.replaced, r.line.queue⟩ r.sent r.action

/-- `handleMsgFromDRAM` on the line of the reply. -/
def handleMsgFromDRAM (cfg : Config) (ch : Choice n V) (fresh : Option (Fin n)) (data : V)
    (v : LineView n V) : Except String (LineView n V × List (Send n V)) := do
  let o ← processDRAMReply data ⟨v.entry.getD (.create fresh), v.queue⟩
  finish cfg ch fresh ⟨some o.line.entry, v.replaced, o.line.queue⟩ o.sent o.next

/-- An idle line gives up its entry for another line: it is put on the replaced list and
its sharers are invalidated. -/
def nullify (requester : Fin n) (v : LineView n V) :
    Except String (LineView n V × List (Send n V)) := do
  let (v, sent, next) ← processNullifyReq
    { v with replaced := true, queue := [ShmemReq.create .NULLIFY_REQ requester] }
  .ok (if next then { v with queue := [] } else v, sent)

theorem processFront_alloc (cfg : Config) (ch : Choice n V) (fresh : Option (Fin n))
    (buf : Option V) {v req rest} (hq : v.queue = req :: rest) (ht : req.msgType ≠ .NULLIFY_REQ) :
    processFront cfg ch fresh buf (v.alloc fresh) = processFront cfg ch fresh buf v := by
  simp [processFront, alloc, hq, ht]

end LineView

/-- An idle line is nullified any number of times. -/
inductive Nullified : LineView n V → LineView n V → List (Send n V) → Prop
  | refl (v) : Nullified v v []
  | step {v v₁ v₂ requester sent more} (hq : v.queue = []) (hr : v.replaced = false)
      (h : v.nullify requester = .ok (v₁, sent)) (ht : Nullified v₁ v₂ more) :
      Nullified v v₂ (sent ++ more)

theorem Nullified.trans {v v₁ v₂ : LineView n V} {s s₁ : List (Send n V)}
    (h : Nullified v v₁ s) (h' : Nullified v₁ v₂ s₁) : Nullified v v₂ (s ++ s₁) := by
  induction h with
  | refl v => exact h'
  | step hq hr hn _ ih => rw [List.append_assoc]; exact .step hq hr hn (ih h')

variable {A : Type} [DecidableEq A] {G : Geometry A}

def view (st : Cntlr G n V) (a : A) : LineView n V :=
  ⟨st.cache.entryOf a, (st.cache.findReplaced a).isSome, st.queues a⟩

/-- A directory whose entries have one place each and whose free ways are new. -/
structure Sound (d : DirectoryCache G n) : Prop where
  unique : d.Unique
  free : ∀ s i, (d.ways s i).address = none → ∃ f, (d.ways s i).entry = .create f

/-- The forwarder of the entry that a line without one would be given: a free way's, or
that of an entry made for it. -/
def freshOf (made : Option (Fin n)) (st : Cntlr G n V) (a : A) : Option (Fin n) :=
  match st.cache.findWay (G.setIndex a) none with
  | some i => (st.cache.ways (G.setIndex a) i).entry.forwarder
  | none => made

/-- From `st` to `st'` only the line `a` changes, and becomes `v`. -/
structure Only (a : A) (st st' : Cntlr G n V) (v : LineView n V) : Prop where
  sound : Sound st'.cache
  self : view st' a = v
  others : ∀ b, b ≠ a → view st' b = view st b

/-- A part of a handler for the line `a` makes it `v` and sends `s` about it; it may
nullify other lines. -/
structure Effect (a : A) (st st' : Cntlr G n V) (sent : Sends A n V) (v : LineView n V)
    (s : List (Send n V)) : Prop where
  sound : Sound st'.cache
  self : view st' a = v
  sentSelf : lane a sent = s
  others : ∀ b, b ≠ a → Nullified (view st b) (view st' b) (lane b sent)

theorem Only.trans {a : A} {st₁ st₂ st₃ : Cntlr G n V} {v v' : LineView n V}
    (h : Only a st₁ st₂ v) (h' : Only a st₂ st₃ v') : Only a st₁ st₃ v' :=
  ⟨h'.sound, h'.self, fun b hb => (h'.others b hb).trans (h.others b hb)⟩

theorem Only.effect {a : A} {st st' : Cntlr G n V} {v : LineView n V} (h : Only a st st' v)
    (s : List (Send n V)) : Effect a st st' (s.map (a, ·)) v s :=
  ⟨h.sound, h.self, lane_self a s, fun b hb => by
    rw [h.others b hb, lane_other hb]; exact .refl _⟩

theorem Effect.trans {a : A} {st₁ st₂ st₃ : Cntlr G n V} {sent sent' : Sends A n V}
    {v v' : LineView n V} {s s' : List (Send n V)} (h : Effect a st₁ st₂ sent v s)
    (h' : Effect a st₂ st₃ sent' v' s') : Effect a st₁ st₃ (sent ++ sent') v' (s ++ s') :=
  ⟨h'.sound, h'.self, by rw [lane_append, h.sentSelf, h'.sentSelf], fun b hb => by
    rw [lane_append]; exact (h.others b hb).trans (h'.others b hb)⟩

/-! ## The primitive steps -/

theorem findReplaced_isSome {d : DirectoryCache G n} {a} :
    (d.findReplaced a).isSome = true ↔ d.Listed a := by
  rw [Option.isSome_iff_ne_none, ne_eq, DirectoryCache.findReplaced_none, not_not]

theorem findReplaced_congr {d d' : DirectoryCache G n} {a} (h : d'.Listed a ↔ d.Listed a) :
    (d'.findReplaced a).isSome = (d.findReplaced a).isSome := by
  rw [Bool.eq_iff_iff, findReplaced_isSome, findReplaced_isSome, h]

theorem view_replaced {st : Cntlr G n V} {a} :
    (view st a).replaced = true ↔ st.cache.Listed a := findReplaced_isSome

theorem Sound.locOf_listed {d : DirectoryCache G n} (h : Sound d) {a} (he : d.entryOf a = none) :
    ¬ d.Listed a := by
  intro hl
  obtain ⟨k, hk⟩ := hl.locOf h.unique
  rw [DirectoryCache.locOf_eq_none.mpr he] at hk
  cases hk

theorem only_setQueue {st : Cntlr G n V} (h : Sound st.cache) (a : A) (q : List (ShmemReq n V)) :
    Only a st (st.setQueue a q) { view st a with queue := q } := by
  refine ⟨h, ?_, fun b hb => ?_⟩
  · simp [view, Cntlr.setQueue]
  · simp [view, Cntlr.setQueue, update_of_ne hb]

theorem only_putLine {st : Cntlr G n V} (h : Sound st.cache) {a loc}
    (hl : st.cache.locOf a = some loc) (l : Line n V) :
    Only a st (st.putLine a loc l) ⟨some l.entry, (view st a).replaced, l.queue⟩ ∧
      (st.putLine a loc l).cache.locOf a = some loc := by
  obtain ⟨hu, hloc, hent⟩ := h.unique.setEntry hl l.entry
  have hlist : ∀ b, ((st.cache.setEntry l.entry loc).findReplaced b).isSome =
      (st.cache.findReplaced b).isSome := by
    intro b
    refine findReplaced_congr ?_
    have hmap := DirectoryCache.setEntry_replaced_address st.cache l.entry loc
    have hex : ∀ d : DirectoryCache G n, d.Listed b ↔ some b ∈ d.replaced.map (·.address) := by
      intro d; simp [DirectoryCache.Listed]
    rw [hex, hex, hmap]
  have hfree : ∀ s i, ((st.cache.setEntry l.entry loc).ways s i).address = none →
      ∃ f, ((st.cache.setEntry l.entry loc).ways s i).entry = .create f := by
    intro s i hi
    rw [DirectoryCache.setEntry_ways_address] at hi
    obtain ⟨f, hf⟩ := h.free s i hi
    refine ⟨f, ?_⟩
    cases loc with
    | replaced k => exact hf
    | way t j =>
      obtain ⟨s', hs', ha'⟩ := DirectoryCache.slot?_of_locOf hl
      rw [DirectoryCache.setEntry, DirectoryCache.setWay_ways]
      split
      · rename_i hti
        cases hs'
        rw [hti.1, hti.2, ha'] at hi
        cases hi
      · exact hf
  refine ⟨⟨⟨hu, hfree⟩, ?_, fun b hb => ?_⟩, ?_⟩
  · simp [view, Cntlr.putLine, hent, hlist]
  · simp [view, Cntlr.putLine, hent, hlist, update_of_ne hb]
  · rw [Cntlr.putLine, hloc, hl]

theorem lineAt_ok {st : Cntlr G n V} {a : A} {loc : Loc G} {e : Entry n}
    (hl : st.cache.locOf a = some loc) (he : (view st a).entry = some e) :
    st.lineAt a loc = .ok ⟨e, st.queues a⟩ := by
  obtain ⟨s, hs, -⟩ := DirectoryCache.slot?_of_locOf hl
  have := DirectoryCache.entryOf_eq_some hl hs
  simp only [view, this, Option.some.injEq] at he
  rw [Cntlr.lineAt, hs, ← he]

theorem lookup_some {st : Cntlr G n V} (h : Sound st.cache) (made : Option (Fin n)) {a loc d}
    (hg : st.cache.getDirectoryEntry a = (some loc, d)) :
    Only a st { st with cache := d } ((view st a).alloc (freshOf made st a)) ∧
      d.locOf a = some loc := by
  obtain ⟨loc', hg', hl⟩ | ⟨i, hfree, he, hg'⟩ | ⟨hg', -, -⟩ := h.unique.getDirectoryEntry a
  · obtain ⟨hl', rfl⟩ := Prod.mk.inj (hg.symm.trans hg')
    cases hl'
    obtain ⟨s, hs, -⟩ := DirectoryCache.slot?_of_locOf hl
    refine ⟨⟨h, ?_, fun _ _ => rfl⟩, hl⟩
    simp [view, LineView.alloc, DirectoryCache.entryOf_eq_some hl hs]
  · obtain ⟨hl', rfl⟩ := Prod.mk.inj (hg.symm.trans hg')
    cases hl'
    obtain ⟨f, hf⟩ := h.free _ i hfree
    obtain ⟨hu, hent⟩ := h.unique.fillWay (DirectoryCache.locOf_eq_none.mpr he) hfree
      (st.cache.ways (G.setIndex a) i).entry
    have hfresh : freshOf made st a = f := by
      have hw : st.cache.findWay (G.setIndex a) none = some i := by
        unfold DirectoryCache.getDirectoryEntry at hg'
        cases hfa : st.cache.findWay (G.setIndex a) (some a) with
        | some j =>
          have := DirectoryCache.findWay_some hfa
          rw [h.unique.entryOf_iff.mpr (.inl ⟨_, j, this, rfl⟩)] at he
          cases he
        | none =>
          simp only [hfa] at hg'
          cases hn : st.cache.findWay (G.setIndex a) none with
          | none => exact absurd hfree (DirectoryCache.findWay_none.mp hn i)
          | some j =>
            simp only [hn, Prod.mk.injEq, Option.some.injEq, Loc.way.injEq] at hg'
            rw [hg'.1.2]
      simp [freshOf, hw, hf, Entry.create]
    refine ⟨⟨⟨hu, ?_⟩, ?_, fun b hb => ?_⟩, ?_⟩
    · intro s j hj
      rw [DirectoryCache.setWay_ways] at hj ⊢
      split_ifs at hj ⊢
      exact h.free s j hj
    · simp only [view, LineView.alloc, hent, update_self]
      rw [he, hf, hfresh]
      rfl
    · simp only [view, hent, update_of_ne hb]
      rfl
    · exact hu.locOf (show DirectoryCache.slot? _ (.way (G.setIndex a) i) = some _ from rfl)
        (by simp [DirectoryCache.setWay_ways])
  · rw [hg'] at hg; cases hg

theorem lookup_none {st : Cntlr G n V} (h : Sound st.cache) {a : A}
    {d : DirectoryCache G n} (hg : st.cache.getDirectoryEntry a = (none, d)) :
    d = st.cache ∧ st.cache.entryOf a = none ∧
      ∀ i, (st.cache.ways (G.setIndex a) i).address ≠ none := by
  obtain ⟨_, hg', -⟩ | ⟨_, -, -, hg'⟩ | ⟨hg', he, hfull⟩ := h.unique.getDirectoryEntry a
  · rw [hg'] at hg; cases hg
  · rw [hg'] at hg; cases hg
  · rw [hg'] at hg; exact ⟨(Prod.mk.inj hg).2.symm, he, hfull⟩

theorem findEntry_found {st : Cntlr G n V} (h : Sound st.cache) {a e}
    (he : (view st a).entry = some e) :
    ∃ loc, st.findEntry a = .ok (loc, st) ∧ st.cache.locOf a = some loc := by
  have he' : st.cache.entryOf a = some e := he
  obtain ⟨loc, hg, hl⟩ | ⟨_, -, hn, -⟩ | ⟨-, hn, -⟩ := h.unique.getDirectoryEntry a
  · exact ⟨loc, by rw [Cntlr.findEntry, hg], hl⟩
  all_goals rw [hn] at he'; cases he'

/-! ## Nullifying a line -/

theorem invalidate_refines {st : Cntlr G n V} (h : Sound st.cache) (a : A) :
    Refines False (fun d v => Only a st { st with cache := d } v)
      (st.cache.invalidateDirectoryEntry a)
      (if (view st a).replaced then .ok ⟨none, false, st.queues a⟩
        else .error "Should not reach here") := by
  cases hd : st.cache.invalidateDirectoryEntry a with
  | error e =>
    have hr : (view st a).replaced = false := by
      unfold DirectoryCache.invalidateDirectoryEntry at hd
      cases hf : st.cache.findReplaced a with
      | none => simp [view, hf]
      | some k => simp [hf] at hd
    rw [hr]
    exact .error
  | ok d =>
    obtain ⟨hu, hent, hlist, hiff⟩ := h.unique.invalidateDirectoryEntry hd
    have hways : d.ways = st.cache.ways := by
      unfold DirectoryCache.invalidateDirectoryEntry at hd
      split at hd
      · cases hd; rfl
      · cases hd
    rw [view_replaced.mpr hlist]
    refine .ok ⟨⟨hu, ?_⟩, ?_, fun b hb => ?_⟩
    · rw [hways]; exact h.free
    · have hnone : (d.findReplaced a).isSome = false := by
        rw [Bool.eq_false_iff, ne_eq, findReplaced_isSome, hiff]
        simp
      simp [view, hent, hnone]
    · have hcongr := findReplaced_congr (show d.Listed b ↔ st.cache.Listed b by
        rw [hiff]; simp [hb])
      simp only [view, hent, update_of_ne hb, hcongr]

theorem nullifyAt_refines {st : Cntlr G n V} (h : Sound st.cache) {a : A} {loc : Loc G}
    (hl : st.cache.locOf a = some loc) {e : Entry n} (he : (view st a).entry = some e) :
    Refines False (fun x y => Only a st x.1 y.1 ∧ x.2.1 = y.2.1.map (a, ·) ∧ x.2.2 = y.2.2)
      (do
        let l ← st.lineAt a loc
        let o ← Handlers.processNullifyReq l
        let st := st.putLine a loc o.line
        if o.next then
          let cache ← st.cache.invalidateDirectoryEntry a
          .ok ({ st with cache }, o.sent.map (a, ·), true)
        else .ok (st, o.sent.map (a, ·), false))
      (view st a).processNullifyReq := by
  have hline : (view st a).processNullifyReq = (do
      let o ← Handlers.processNullifyReq ⟨e, st.queues a⟩
      if o.next then
        if (view st a).replaced then .ok (⟨none, false, o.line.queue⟩, o.sent, true)
        else .error "Should not reach here"
      else .ok (⟨some o.line.entry, (view st a).replaced, o.line.queue⟩, o.sent, false)) := by
    simp only [LineView.processNullifyReq, he]
    rfl
  rw [hline, lineAt_ok hl he]
  change Refines _ _ (Handlers.processNullifyReq _ >>= _) _
  refine Refines.bind_same fun o ho => ?_
  obtain ⟨hput, -⟩ := only_putLine h hl o.line
  cases hnext : o.next with
  | false => exact .ok ⟨hput, rfl, rfl⟩
  | true =>
    have hinv := invalidate_refines hput.sound a
    have hq : (st.putLine a loc o.line).queues a = o.line.queue := by simp [Cntlr.putLine]
    rw [hput.self, hq] at hinv
    cases hr : (view st a).replaced with
    | false =>
      simp only [hr, Bool.false_eq_true, if_false] at hinv ⊢
      cases hd : (st.putLine a loc o.line).cache.invalidateDirectoryEntry a with
      | error e => exact .error
      | ok d => obtain ⟨_, hy, -⟩ := hinv.of_ok hd; cases hy
    | true =>
      simp only [hr, if_true] at hinv ⊢
      obtain ⟨d, hd, hd'⟩ := hinv.of_spec_ok rfl not_false
      rw [hd]
      exact .ok ⟨hput.trans hd', rfl, rfl⟩

theorem processNullifyReq_refines {st : Cntlr G n V} (h : Sound st.cache) (a : A) :
    Refines False (fun x y => Only a st x.1 y.1 ∧ x.2.1 = y.2.1.map (a, ·) ∧ x.2.2 = y.2.2)
      (st.processNullifyReq a) (view st a).processNullifyReq := by
  cases he : (view st a).entry with
  | some e =>
    obtain ⟨loc, hf, hl⟩ := findEntry_found h he
    rw [Cntlr.processNullifyReq, hf]
    exact nullifyAt_refines h hl he
  | none =>
    -- a line without an entry may be given one, but it is not on the list
    have hline : (view st a).processNullifyReq = .error "directory_entry" := by
      simp [LineView.processNullifyReq, he]
    rw [hline, Cntlr.processNullifyReq, Cntlr.findEntry]
    cases hg : st.cache.getDirectoryEntry a with
    | mk loc? d =>
      cases loc? with
      | none => exact .error
      | some loc =>
        obtain ⟨ho, hl⟩ := lookup_some h none hg
        have hent : (view { st with cache := d } a).entry = some (.create (freshOf none st a)) := by
          rw [ho.self, LineView.alloc, he]; rfl
        have hr : (view st a).replaced = false :=
          Bool.eq_false_iff.mpr fun hr => h.locOf_listed he (view_replaced.mp hr)
        have herr : (view { st with cache := d } a).processNullifyReq =
            .error "Should not reach here" := by
          rw [ho.self, LineView.alloc, he]
          simp [LineView.processNullifyReq, Handlers.processNullifyReq, Entry.create, hr, bind,
            Except.bind]
        have hat := nullifyAt_refines ho.sound hl hent
        rw [herr] at hat
        exact hat.of_error

/-! ## Making room -/

theorem replace_views {st : Cntlr G n V} (h : Sound st.cache) {c a f d i}
    (hi : (st.cache.ways (G.setIndex a) i).address = some c) (ha : st.cache.entryOf a = none)
    (hfull : ∀ i, (st.cache.ways (G.setIndex a) i).address ≠ none)
    (hd : st.cache.replaceDirectoryEntry c a f = .ok d) :
    Sound d ∧ a ≠ c ∧ (view st c).replaced = false ∧
      view { st with cache := d } a = (view st a).alloc f ∧
      view { st with cache := d } c = { view st c with replaced := true } ∧
      ∀ b, b ≠ a → b ≠ c → view { st with cache := d } b = view st b := by
  have hset : G.setIndex a = G.setIndex c := (h.unique.home _ i c hi).symm
  obtain ⟨hu, hent, hlist⟩ := h.unique.replaceDirectoryEntry hd hset ha hfull
  have hc : st.cache.entryOf c = some (st.cache.ways (G.setIndex a) i).entry :=
    h.unique.entryOf_iff.mpr (.inl ⟨_, i, hi, rfl⟩)
  have hac : a ≠ c := by
    intro hac
    rw [hac, hc] at ha
    cases ha
  have hnc : ¬ st.cache.Listed c := fun ⟨u, hu', huc⟩ => h.unique.apart _ i u c hu' hi huc
  have hfree : ∀ s j, (d.ways s j).address = none → ∃ f, (d.ways s j).entry = .create f := by
    intro s j hj
    unfold DirectoryCache.replaceDirectoryEntry at hd
    dsimp only at hd
    split at hd
    · cases hd
      rw [DirectoryCache.setWay_ways] at hj ⊢
      split_ifs at hj ⊢
      exact h.free s j hj
    · cases hd
  have hrc : (view st c).replaced = false :=
    Bool.eq_false_iff.mpr fun hr => hnc (view_replaced.mp hr)
  have hlistc : (d.findReplaced c).isSome = true :=
    findReplaced_isSome.mpr ((hlist c).mpr (.inr rfl))
  have hother : ∀ b, b ≠ c → (d.findReplaced b).isSome = (st.cache.findReplaced b).isSome :=
    fun b hb => findReplaced_congr (by rw [hlist]; simp [hb])
  refine ⟨⟨hu, hfree⟩, hac, hrc, ?_, ?_, fun b hb hbc => ?_⟩
  · simp only [view, LineView.alloc, hent, update_self, hother a hac, ha,
      Option.getD_none]
  · simp only [view, hent, update_of_ne hac.symm, hlistc]
  · simp only [view, hent, update_of_ne hb, hother b hbc]

theorem replaceAndNullify_effect {st st' : Cntlr G n V} {sent} (h : Sound st.cache)
    {c a f i requester} (hi : (st.cache.ways (G.setIndex a) i).address = some c)
    (ha : st.cache.entryOf a = none) (hfull : ∀ i, (st.cache.ways (G.setIndex a) i).address ≠ none)
    (hst : (do
      let cache ← st.cache.replaceDirectoryEntry c a f
      let st := { st with cache }.setQueue c
        (st.queues c ++ [ShmemReq.create .NULLIFY_REQ requester])
      if (st.queues c).length ≠ 1 then .error "size(replaced_address) == 1"
      else
        let (st, sent, next) ← st.processNullifyReq c
        .ok (if next then st.setQueue c [] else st, sent)) = Except.ok (st', sent)) :
    Effect a st st' sent ((view st a).alloc f) [] := by
  obtain ⟨d, hd, hst⟩ := of_bind_ok hst
  obtain ⟨hs₁, hac, hrc, hva, hvc, hvo⟩ := replace_views h hi ha hfull hd
  dsimp only at hst
  split at hst
  · cases hst
  rename_i hlen
  have hqc : st.queues c = [] := by simpa [Cntlr.setQueue] using hlen
  have hq : Only c { st with cache := d } _ _ := only_setQueue hs₁ c
    (st.queues c ++ [ShmemReq.create .NULLIFY_REQ requester])
  generalize Cntlr.setQueue { st with cache := d } c
    (st.queues c ++ [ShmemReq.create .NULLIFY_REQ requester]) = st₂ at hst hq
  have hnull := processNullifyReq_refines hq.sound c
  rw [hq.self, hvc, hqc, List.nil_append] at hnull
  obtain ⟨x, hx, hst⟩ := of_bind_ok hst
  obtain ⟨⟨v₃, s, next⟩, hy, ho, hsent, hnext⟩ := hnull.of_ok hx
  rw [hsent, hnext] at hst
  obtain ⟨rfl, rfl⟩ := Prod.mk.inj (Except.ok.inj hst)
  have hfin : Only c st₂ (if next = true then x.1.setQueue c [] else x.1)
      (if next = true then { v₃ with queue := [] } else v₃) := by
    cases next with
    | false => exact ho
    | true =>
      have hset := only_setQueue ho.sound c []
      rw [ho.self] at hset
      exact ho.trans hset
  refine ⟨hfin.sound, ?_, lane_other hac s, fun b hb => ?_⟩
  · rw [hfin.others a hac, hq.others a hac, hva]
  · by_cases hbc : b = c
    · subst hbc
      have hn : (view st b).nullify requester =
          .ok (if next = true then { v₃ with queue := [] } else v₃, s) := by
        rw [LineView.nullify, hy]; rfl
      rw [hfin.self, lane_self, ← List.append_nil s]
      exact .step hqc hrc hn (.refl _)
    · rw [hfin.others b hbc, hq.others b hbc, hvo b hb hbc, lane_other hbc]
      exact .refl _

theorem allocation_effect {st st' : Cntlr G n V} {sent} (h : Sound st.cache) {ch : Choice n V}
    {a requester} (ha : st.cache.entryOf a = none)
    (hfull : ∀ i, (st.cache.ways (G.setIndex a) i).address ≠ none)
    (hst : st.processDirectoryEntryAllocationReq ch a requester = .ok (st', sent)) :
    Effect a st st' sent ((view st a).alloc ch.forwarder) [] := by
  unfold Cntlr.processDirectoryEntryAllocationReq at hst
  split at hst
  · cases hst
  · -- the rotation of the candidates changes no entry
    simp only [DirectoryCache.getReplacementCandidates] at hst
    split at hst
    · cases hst
    · split at hst
      · cases hst
      · rename_i i _ _ c hic
        generalize update st.cache.replacementPtrs _ _ = p at hst
        have h₁ : Sound { st.cache with replacementPtrs := p } :=
          ⟨⟨h.unique.ways, h.unique.home, h.unique.listed, h.unique.apart, h.unique.full⟩,
            h.free⟩
        have heff : Effect a { st with cache := { st.cache with replacementPtrs := p } } st' sent
            _ [] := replaceAndNullify_effect h₁ hic ha hfull hst
        exact ⟨heff.sound, heff.self, heff.sentSelf, heff.others⟩

/-! ## The handlers -/

/-- Whatever a lookup gives a line without an entry is the entry with this forwarder. -/
def Fresh (made : Option (Fin n)) (st : Cntlr G n V) (a : A) (fresh : Option (Fin n)) : Prop :=
  (view st a).entry = none → fresh = freshOf made st a

/-- The line has no entry and the directory no free way for it. -/
def Overflow (st : Cntlr G n V) (a : A) : Prop := (st.cache.getDirectoryEntry a).1 = none

theorem Overflow.entry {st : Cntlr G n V} (h : Sound st.cache) {a} (ho : Overflow st a) :
    (view st a).entry = none :=
  (lookup_none h (d := (st.cache.getDirectoryEntry a).2) (Prod.ext ho rfl)).2.1

theorem Fresh.of_some {made fresh : Option (Fin n)} {st : Cntlr G n V} {a : A}
    {v : LineView n V} (hv : view st a = v) (he : v.entry ≠ none) : Fresh made st a fresh :=
  fun hn => absurd (hv ▸ hn) he

theorem Overflow.of_some {st : Cntlr G n V} (h : Sound st.cache) {a} {v : LineView n V}
    (hv : view st a = v) (he : v.entry ≠ none) : ¬ Overflow st a :=
  fun ho => he (hv ▸ ho.entry h)

theorem getOrAllocate_refines {st : Cntlr G n V} (h : Sound st.cache) (ch : Choice n V) (a : A)
    (requester : Fin n) {fresh} (hf : Fresh ch.forwarder st a fresh) :
    Refines (Overflow st a)
      (fun x v => Effect a st x.2.1 x.2.2 v [] ∧ x.2.1.cache.locOf a = some x.1)
      (st.getOrAllocate ch a requester) (.ok ((view st a).alloc fresh)) := by
  have hfresh : ∀ f, f = freshOf ch.forwarder st a →
      (view st a).alloc f = (view st a).alloc fresh := by
    intro f hf'
    cases he : (view st a).entry with
    | none => rw [hf', ← hf he]
    | some e => simp [LineView.alloc, he]
  unfold Cntlr.getOrAllocate
  cases hg : st.cache.getDirectoryEntry a with
  | mk loc? d =>
    cases loc? with
    | some loc =>
      obtain ⟨ho, hl⟩ := lookup_some h ch.forwarder hg
      rw [hfresh _ rfl] at ho
      exact .ok ⟨ho.effect [], hl⟩
    | none =>
      obtain ⟨rfl, he, hfull⟩ := lookup_none h hg
      cases hst : st.processDirectoryEntryAllocationReq ch a requester with
      | error e => exact .escape (by rw [Overflow, hg])
      | ok x =>
        have heff := allocation_effect h he hfull hst
        have hmade : ch.forwarder = freshOf ch.forwarder st a := by
          rw [freshOf, DirectoryCache.findWay_none.mpr hfull]
        rw [hfresh _ hmade] at heff
        obtain ⟨loc, hfe, hl⟩ := findEntry_found heff.sound
          (show (view x.1 a).entry = some _ by rw [heff.self]; rfl)
        simp only [bind, Except.bind, hfe]
        exact .ok ⟨heff, hl⟩

theorem processFront_refines {st : Cntlr G n V} (h : Sound st.cache) (cfg : Config)
    (ch : Choice n V) (a : A) (buf : Option V) {fresh} (hf : Fresh ch.forwarder st a fresh) :
    Refines (Overflow st a) (fun x y => Effect a st x.1 x.2.1 y.1 y.2.1 ∧ x.2.2 = y.2.2)
      (st.processFront cfg ch a buf) ((view st a).processFront cfg ch fresh buf) := by
  have hq : (view st a).queue = st.queues a := rfl
  unfold Cntlr.processFront LineView.processFront
  rw [hq]
  cases hqueue : st.queues a with
  | nil => exact .error
  | cons req rest =>
    dsimp only
    split
    · refine (processNullifyReq_refines h a).mono False.elim fun x y hxy => ⟨?_, hxy.2.2⟩
      rw [hxy.2.1]
      exact hxy.1.effect _
    · have hget := getOrAllocate_refines h ch a req.requester hf
      generalize st.getOrAllocate ch a req.requester = x at hget ⊢
      cases hget with
      | escape ho => exact .escape ho
      | @ok x _ hx =>
        obtain ⟨loc, st₁, sent⟩ := x
        obtain ⟨heff, hl⟩ := hx
        have hent : (view st₁ a).entry = some ((view st a).entry.getD (.create fresh)) := by
          rw [heff.self]; rfl
        have hqs : st₁.queues a = req :: rest := by
          have : (view st₁ a).queue = (view st a).queue := by rw [heff.self]; rfl
          exact this.trans hqueue
        simp only [bind, Except.bind, lineAt_ok hl hent, hqs]
        refine Refines.bind_same fun o _ => ?_
        obtain ⟨hput, -⟩ := only_putLine heff.sound hl o.line
        rw [heff.self] at hput
        exact .ok ⟨heff.trans (hput.effect o.sent), rfl⟩

theorem LineView.processFront_entry {cfg ch fresh buf} {v v' : LineView n V} {sent next req rest}
    (hq : v.queue = req :: rest) (ht : req.msgType ≠ .NULLIFY_REQ)
    (h : v.processFront cfg ch fresh buf = .ok (v', sent, next)) : v'.entry ≠ none := by
  simp only [LineView.processFront, hq, ht, if_false, bind, Except.bind] at h
  split at h
  · cases h
  · cases h; simp

theorem serve_refines (cfg : Config) (ch : Choice n V) (a : A) {fresh : Option (Fin n)}
    (queue : List (ShmemReq n V)) :
    ∀ {st : Cntlr G n V}, Sound st.cache → Fresh ch.forwarder st a fresh →
    Refines (Overflow st a) (fun x y => Effect a st x.1 x.2 y.1 y.2)
      (Cntlr.serve cfg ch a queue st) ((view st a).serve cfg ch fresh queue) := by
  induction queue with
  | nil => exact fun h _ => .ok ((only_setQueue h a []).effect [])
  | cons req rest ih =>
    intro st h hf
    unfold Cntlr.serve LineView.serve
    split
    · exact .error
    · rename_i ht
      have hset := only_setQueue h a (req :: rest)
      have hfresh : Fresh ch.forwarder (st.setQueue a (req :: rest)) a fresh :=
        fun he => hf (by rw [hset.self] at he; exact he)
      have hfront := processFront_refines hset.sound cfg ch a none hfresh
      rw [hset.self] at hfront
      refine (hfront.mono (fun h => h) fun _ _ h => h).bind fun x y _ hy hxy => ?_
      obtain ⟨st₁, sent, next⟩ := x
      obtain ⟨v₁, s, next'⟩ := y
      obtain ⟨heff, rfl⟩ := hxy
      have hstart : Effect a st st₁ sent v₁ s := by
        have := (hset.effect []).trans heff
        exact this
      cases next with
      | false => exact .ok hstart
      | true =>
        have hsome : (view st₁ a).entry ≠ none := by
          rw [heff.self]; exact LineView.processFront_entry rfl ht hy
        have hrest := ih heff.sound (fun he => absurd he hsome)
        rw [heff.self] at hrest
        refine (hrest.mono (fun ho => absurd (ho.entry heff.sound) hsome) fun _ _ h => h).bind
          fun x y _ _ hxy => ?_
        exact .ok (hstart.trans hxy)

theorem finish_refines {st st₀ : Cntlr G n V} {v : LineView n V} {sent s} (cfg : Config)
    (ch : Choice n V) (a : A) (next : Bool) {fresh} (h : Effect a st₀ st sent v s)
    (hf : Fresh ch.forwarder st a fresh) :
    Refines (Overflow st a) (fun x y => Effect a st₀ x.1 x.2 y.1 y.2)
      (st.finish cfg ch a sent next) (v.finish cfg ch fresh s next) := by
  unfold Cntlr.finish LineView.finish
  cases next with
  | false => exact .ok h
  | true =>
    have hq : v.queue = st.queues a := by rw [← h.self]; rfl
    simp only [if_true, hq, Cntlr.processNextReqFromL2Cache]
    cases st.queues a with
    | nil => exact .error
    | cons req rest =>
      have hrest := serve_refines cfg ch a rest h.sound hf
      rw [h.self] at hrest
      exact hrest.bind fun x y _ _ hxy => .ok (h.trans hxy)

def FrontNullify : List (ShmemReq n V) → Prop
  | [] => False
  | req :: _ => req.msgType = .NULLIFY_REQ

theorem frontNullify_congr {q q' : List (ShmemReq n V)}
    (h : q.map (·.msgType) = q'.map (·.msgType)) : FrontNullify q ↔ FrontNullify q' := by
  cases q with
  | nil => rw [List.map_nil, eq_comm, List.map_eq_nil_iff] at h; rw [h]
  | cons r rest =>
    cases q' with
    | nil => cases h
    | cons r' rest' => simp only [FrontNullify, (List.cons.inj h).1]

theorem perform_refines {st st₀ : Cntlr G n V} {v : LineView n V} {sent s} (cfg : Config)
    (ch : Choice n V) (a : A) (act : Action V) {fresh} (h : Effect a st₀ st sent v s)
    (hf : Fresh ch.forwarder st a fresh) (ht : ¬ FrontNullify (st.queues a)) :
    Refines (Overflow st a) (fun x y => Effect a st₀ x.1 x.2 y.1 y.2)
      (st.perform cfg ch a sent act) (v.perform cfg ch fresh s act) := by
  cases act with
  | done => exact .ok h
  | process buf =>
    have hfront := processFront_refines h.sound cfg ch a buf hf
    rw [h.self] at hfront
    refine hfront.bind fun ⟨st₁, sent₁, next⟩ ⟨v₁, s₁, next'⟩ _ hy ⟨heff, hnext⟩ => ?_
    subst hnext
    have hq : v.queue = st.queues a := by rw [← h.self]; rfl
    have hsome : (view st₁ a).entry ≠ none := by
      rw [heff.self]
      cases hqueue : st.queues a with
      | nil => simp [LineView.processFront, hq, hqueue] at hy
      | cons req rest =>
        exact LineView.processFront_entry (hq.trans hqueue)
          (fun hn => ht (by rw [hqueue]; exact hn)) hy
    have hfin := finish_refines cfg ch a next (h.trans heff)
      (show Fresh ch.forwarder st₁ a fresh from fun he => absurd he hsome)
    exact hfin.mono (fun ho => absurd (ho.entry heff.sound) hsome) fun _ _ h => h

/-- A completed nullify may be followed by requests that need a new entry, so here the
forwarder of that entry is not known before. -/
theorem perform_refines_nullify {st st₀ : Cntlr G n V} {v : LineView n V} {sent s} (cfg : Config)
    (ch : Choice n V) (a : A) (act : Action V) (h : Effect a st₀ st sent v s)
    (ht : FrontNullify (st.queues a)) :
    ∃ fresh, Refines True (fun x y => Effect a st₀ x.1 x.2 y.1 y.2)
      (st.perform cfg ch a sent act) (v.perform cfg ch fresh s act) := by
  cases act with
  | done => exact ⟨none, .ok h⟩
  | process buf =>
    obtain ⟨req, rest, hq⟩ : ∃ req rest, st.queues a = req :: rest := by
      cases hqueue : st.queues a with
      | nil => rw [hqueue] at ht; exact ht.elim
      | cons req rest => exact ⟨req, rest, rfl⟩
    rw [hq] at ht
    change req.msgType = .NULLIFY_REQ at ht
    have hnull := processNullifyReq_refines h.sound a
    rw [h.self] at hnull
    have hv : v.queue = req :: rest := by rw [← h.self]; exact hq
    have hcntlr : st.processFront cfg ch a buf = st.processNullifyReq a := by
      simp [Cntlr.processFront, hq, ht]
    have hline : ∀ fresh, v.processFront cfg ch fresh buf = v.processNullifyReq := by
      intro fresh; simp [LineView.processFront, hv, ht]
    simp only [Cntlr.perform, LineView.perform, hcntlr, hline]
    generalize st.processNullifyReq a = x at hnull ⊢
    generalize v.processNullifyReq = y at hnull ⊢
    cases hnull with
    | error => exact ⟨none, .error⟩
    | escape he => exact he.elim
    | @ok x y hxy =>
      obtain ⟨st₁, sent₁, next⟩ := x
      obtain ⟨v₁, s₁, next'⟩ := y
      obtain ⟨ho, hsent, hnext⟩ := hxy
      simp only at ho hsent hnext
      subst hsent hnext
      exact ⟨freshOf ch.forwarder st₁ a,
        (finish_refines cfg ch a next (h.trans (ho.effect s₁)) (fun _ => rfl)).mono
          (fun _ => trivial) fun _ _ h => h⟩

theorem LineView.perform_alloc (cfg : Config) (ch : Choice n V) (fresh : Option (Fin n))
    {v : LineView n V} {req rest} (hq : v.queue = req :: rest)
    (ht : req.msgType ≠ .NULLIFY_REQ) (s : List (Send n V)) (buf : Option V) :
    (v.alloc fresh).perform cfg ch fresh s (.process buf) =
      v.perform cfg ch fresh s (.process buf) := by
  simp only [LineView.perform, LineView.processFront_alloc cfg ch fresh buf hq ht]

/-- Where the controller may fail although the line does not: there is no room for the
line, or it is being nullified and may need room after that. -/
def NoRoom (st : Cntlr G n V) (a : A) : Prop :=
  Overflow st a ∨ FrontNullify (st.queues a)

/-- A line with requests has an entry. -/
def Served (st : Cntlr G n V) (a : A) : Prop :=
  st.queues a ≠ [] → (view st a).entry ≠ none

theorem request_refines {st : Cntlr G n V} (h : Sound st.cache) (cfg : Config) (ch : Choice n V)
    (a : A) (sender : Fin n) {t} (ht : t ≠ .NULLIFY_REQ) :
    ∃ fresh, Refines (NoRoom st a) (fun x y => Effect a st x.1 x.2 y.1 y.2)
      (Cntlr.perform cfg ch (Cntlr.setQueue { st with cache := (st.cache.getDirectoryEntry a).2 }
        a [ShmemReq.create t sender]) a [] (.process none))
      (LineView.perform cfg ch fresh { view st a with queue := [ShmemReq.create t sender] } []
        (.process none)) := by
  generalize hst₂ : Cntlr.setQueue { st with cache := (st.cache.getDirectoryEntry a).2 } a
    [ShmemReq.create t sender] = st₂
  have hne : ¬ FrontNullify (st₂.queues a) := by
    rw [← hst₂]
    simpa [Cntlr.setQueue, FrontNullify, ShmemReq.create] using ht
  refine ⟨freshOf ch.forwarder st a, ?_⟩
  cases hg : st.cache.getDirectoryEntry a with
  | mk loc? d =>
    rw [hg] at hst₂
    cases loc? with
    | some loc =>
      obtain ⟨ho, -⟩ := lookup_some h ch.forwarder hg
      have hset : Only a st st₂ (LineView.alloc (freshOf ch.forwarder st a)
          { view st a with queue := [ShmemReq.create t sender] }) := by
        have hset := only_setQueue ho.sound a [ShmemReq.create t sender]
        rw [hst₂, ho.self] at hset
        exact ho.trans hset
      have hfresh : Fresh ch.forwarder st₂ a (freshOf ch.forwarder st a) :=
        Fresh.of_some hset.self (by simp [LineView.alloc])
      have hperf := perform_refines cfg ch a (.process none) (hset.effect []) hfresh hne
      rw [LineView.perform_alloc cfg ch _ rfl ht] at hperf
      exact hperf.mono (fun hov => absurd hov (Overflow.of_some hset.sound hset.self
        (by simp [LineView.alloc]))) fun _ _ h => h
    | none =>
      obtain ⟨rfl, -, -⟩ := lookup_none h hg
      have hset : Only a st st₂ { view st a with queue := [ShmemReq.create t sender] } :=
        hst₂ ▸ only_setQueue h a [ShmemReq.create t sender]
      have hfresh : freshOf ch.forwarder st a = freshOf ch.forwarder st₂ a := by
        rw [← hst₂]; rfl
      exact (perform_refines cfg ch a (.process none) (hset.effect [])
        (fun _ => hfresh) hne).mono (fun _ => .inl (by rw [Overflow, hg])) fun _ _ h => h

theorem handleMsgFromL2Cache_refines {st : Cntlr G n V} (h : Sound st.cache) (cfg : Config)
    (ch : Choice n V) (sender : Fin n) {a} (hs : Served st a) (msg : FromCache V) :
    ∃ fresh, Refines (NoRoom st a) (fun x y => Effect a st x.1 x.2 y.1 y.2)
      (st.handleMsgFromL2Cache cfg ch sender a msg)
      ((view st a).handleMsgFromL2Cache cfg ch fresh sender msg) := by
  unfold Cntlr.handleMsgFromL2Cache LineView.handleMsgFromL2Cache
  have hvq : (view st a).queue = st.queues a := rfl
  cases ht : msg.request? with
  | some t =>
    have htn := FromCache.request?_ne ht
    by_cases hq : st.queues a = []
    · have := request_refines h cfg ch a sender htn
      simpa [hvq, hq] using this
    · -- the request waits behind others; its line has an entry
      refine ⟨none, ?_⟩
      obtain ⟨e, he⟩ := Option.ne_none_iff_exists'.mp (hs hq)
      obtain ⟨loc, hf, -⟩ := findEntry_found h he
      have hg : st.cache.getDirectoryEntry a = (some loc, st.cache) := by
        unfold Cntlr.findEntry at hf
        split at hf
        · rename_i hg'
          obtain ⟨rfl, hc⟩ := Prod.mk.inj (Except.ok.inj hf)
          rw [hg', ← hc]
        · cases hf
      have hlen : (st.queues a).length ≠ 0 := by simpa using hq
      simp only [hg, hvq, hlen, if_false]
      exact .ok ((only_setQueue h a _).effect [])
  | none =>
    cases hg : st.cache.getDirectoryEntry a with
    | mk loc? d =>
      cases loc? with
      | none => exact ⟨none, .escape (.inl (by rw [Overflow, hg]))⟩
      | some loc =>
        obtain ⟨ho, hl⟩ := lookup_some h ch.forwarder hg
        have hent : (view { st with cache := d } a).entry =
            some ((view st a).entry.getD (.create (freshOf ch.forwarder st a))) := by
          rw [ho.self]; rfl
        have hput : ∀ r : Received n V, Only a st (Cntlr.putLine { st with cache := d } a loc r.line)
            ⟨some r.line.entry, (view st a).replaced, r.line.queue⟩ := by
          intro r
          obtain ⟨hput, -⟩ := only_putLine ho.sound hl r.line
          rw [ho.self] at hput
          exact ho.trans hput
        have hqueue : ∀ l : Line n V,
            (Cntlr.putLine { st with cache := d } a loc l).queues a = l.queue := by
          intro l; simp [Cntlr.putLine]
        simp only [bind, Except.bind, lineAt_ok hl hent, hvq]
        by_cases hnull : FrontNullify (st.queues a)
        · obtain ⟨e, he⟩ := Option.ne_none_iff_exists'.mp
            (hs fun hq => by rw [hq] at hnull; exact hnull)
          simp only [he, Option.getD_some]
          cases hr : receiveReply ch sender ⟨e, st.queues a⟩ msg with
          | error _ => exact ⟨none, .error⟩
          | ok r =>
            obtain ⟨fresh, hperf⟩ := perform_refines_nullify cfg ch a r.action
              ((hput r).effect r.sent)
              (by rw [hqueue]; exact (frontNullify_congr (receiveReply_types hr)).mpr hnull)
            exact ⟨fresh, hperf.mono (fun _ => .inr hnull) fun _ _ h => h⟩
        · refine ⟨freshOf ch.forwarder st a, Refines.bind_same fun r hr => ?_⟩
          have hfresh : Fresh ch.forwarder _ a (freshOf ch.forwarder st a) :=
            Fresh.of_some (hput r).self (by simp)
          have hperf := perform_refines cfg ch a r.action ((hput r).effect r.sent) hfresh
            (by rw [hqueue]; exact fun hn => hnull ((frontNullify_congr
              (receiveReply_types hr)).mp hn))
          exact hperf.mono
            (fun hov => absurd hov (Overflow.of_some (hput r).sound (hput r).self (by simp)))
            fun _ _ h => h

theorem handleMsgFromDRAM_refines {st : Cntlr G n V} (h : Sound st.cache) (cfg : Config)
    (ch : Choice n V) (a : A) (data : V) :
    ∃ fresh, Refines (NoRoom st a) (fun x y => Effect a st x.1 x.2 y.1 y.2)
      (st.handleMsgFromDRAM cfg ch a data)
      ((view st a).handleMsgFromDRAM cfg ch fresh data) := by
  refine ⟨freshOf ch.forwarder st a, ?_⟩
  have hvq : (view st a).queue = st.queues a := rfl
  unfold Cntlr.handleMsgFromDRAM LineView.handleMsgFromDRAM Cntlr.findEntry
  cases hg : st.cache.getDirectoryEntry a with
  | mk loc? d =>
    cases loc? with
    | none => exact .escape (.inl (by rw [Overflow, hg]))
    | some loc =>
      obtain ⟨ho, hl⟩ := lookup_some h ch.forwarder hg
      have hent : (view { st with cache := d } a).entry =
          some ((view st a).entry.getD (.create (freshOf ch.forwarder st a))) := by
        rw [ho.self]; rfl
      simp only [bind, Except.bind, lineAt_ok hl hent, hvq]
      refine Refines.bind_same fun o _ => ?_
      obtain ⟨hput, -⟩ := only_putLine ho.sound hl o.line
      rw [ho.self] at hput
      have hput' := ho.trans hput
      exact (finish_refines cfg ch a o.next (hput'.effect o.sent)
        (Fresh.of_some hput'.self (by simp))).mono
        (fun hov => absurd hov (Overflow.of_some hput'.sound hput'.self (by simp)))
        fun _ _ h => h

end Sniper.Directory.Refinement
