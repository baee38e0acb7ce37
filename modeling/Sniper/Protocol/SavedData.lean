import Sniper.Protocol.CurrentData
import Sniper.Protocol.Totality

/-! # The handlers and the data

The handlers of a directory without a NUCA cache keep the data current, as long as the
copies of a shared line that an upgrade collects come back with the data last.
-/
namespace Sniper.Protocol.CurrentData
open Directory.DirectoryEntry Directory.Handlers Directory.Outcomes
open Protocol.LastLevelCache Protocol.CacheInvariant
open Protocol.LineInvariant Protocol.Handling Protocol.System

variable {n : Nat} {V : Type} {cfg : Config} {ch : Choice n V} {buf : Option V} {l : Line n V}
  {x : Fin n → Cell V} {k : Nat} {r : ShmemReq n V} {q : List (ShmemReq n V)} {c : Fin n}
  {m : FromCache V} {up : List (FromCache V)} {last : V}

/-- What surrounds a line: the caches, the channels to and from DRAM, DRAM, and the value of
the last store. -/
structure Env (n : Nat) (V : Type) where
  cells : Fin n → Cell V
  toDram : List (DramReq V)
  fromDram : List V
  dram : V
  last : V

namespace Env

def reads (e : Env n V) : Nat := e.toDram.countP isReadReq + e.fromDram.length

/-- What the invariant of the line speaks about. -/
def line (e : Env n V) : (Fin n → Cell V) × Nat := (e.cells, e.reads)

def emit (sent : List (Send n V)) (e : Env n V) : Env n V :=
  { e with cells := deliver sent e.cells, toDram := e.toDram ++ sent.filterMap forDram }

theorem emit_nil (e : Env n V) : e.emit [] = e := by
  simp only [emit, List.filterMap_nil, List.append_nil]
  rw [deliver_none fun _ => rfl]

theorem emit_append (s t : List (Send n V)) (e : Env n V) :
    e.emit (s ++ t) = (e.emit s).emit t := by
  simp [emit, deliver_append]

theorem line_emit (sent : List (Send n V)) (e : Env n V) :
    (e.emit sent).line = (deliver sent e.cells, e.reads + sent.countP isRead) := by
  refine Prod.ext rfl ?_
  simp only [line, emit, reads, List.countP_append, countP_forDram]
  omega

theorem line_answer {e : Env n V} {d rest} (hd : e.fromDram = d :: rest) :
    0 < e.line.2 ∧ line { e with fromDram := rest } = (e.line.1, e.line.2 - 1) := by
  simp only [line, reads, hd, List.length_cons]
  exact ⟨by omega, Prod.ext rfl (by simp only; omega)⟩

end Env

/-- The data of a line and its surroundings, with the data in `buf` that the front request
is processed with. -/
structure Current (l : Line n V) (buf : Option V) (e : Env n V) : Prop where
  loyal : ∀ c, Loyal e.last (e.cells c)
  reads : ReadsSee e.last e.dram e.toDram
  answers : ∀ d ∈ e.fromDram, d = e.last
  given : ∀ d ∈ buf, d = e.last
  provided : Provided buf l
  bufs : ∀ r ∈ l.queue, r.dataBuf = none
  saved : afterWrites e.dram e.toDram = e.last ∨
    (buf.isSome = true ∧ ∃ r ∈ l.queue.head?, r.msgType = .EX_REQ ∨ r.msgType = .UPGRADE_REQ) ∨
    ∃ c, Unsaved (watched true l c).modified (e.cells c)

/-! ## Small facts -/

theorem mem_toCache {sent : List (Send n V)} {msg : ToCache V} :
    msg ∈ toCache c sent ↔ .cache c msg ∈ sent := by
  simp only [toCache, List.mem_filterMap]
  constructor
  · rintro ⟨m, hm, h⟩
    cases m with
    | cache d msg' =>
      simp only [forCache] at h
      split at h
      · rename_i hd
        cases h
        exact hd ▸ hm
      · cases h
    | DRAM_READ_REQ | DRAM_WRITE_REQ d => cases h
  · exact fun h => ⟨_, h, by simp [forCache]⟩

theorem Unsaved.post {b y} (h : Unsaved b y) (ms : List (ToCache V)) :
    Unsaved b (y.post ms) := by
  rcases h with h | h | ⟨hb, h | h⟩
  · exact .inl h
  · exact .inr (.inl h)
  · exact .inr (.inr ⟨hb, .inl h⟩)
  · refine .inr (.inr ⟨hb, .inr ?_⟩)
    have h : 0 < y.dn.countP isExRep := h
    simp only [Cell.tally, Cell.post, List.countP_append]
    omega

theorem Unsaved.mono {b b' : Bool} {y : Cell V} (h : Unsaved b y) (hb : b = true → b' = true) :
    Unsaved b' y :=
  h.imp_right fun h => h.imp_right fun h => ⟨hb h.1, h.2⟩

/-- While a request is processed, only an owned line is not saved. -/
theorem owned_of_unsaved (h : Ready cfg buf l x) (hu : Unsaved (watched true l c).modified (x c)) :
    l.entry.dstate = .EXCLUSIVE ∨ l.entry.dstate = .MODIFIED := by
  rcases hu with hc | hf | ⟨hm, -⟩
  · exact (owns_iff.mp ((h.fits c).excl (.inr (.inl hc)))).1
  · rcases (h.fits c).flushed hf with ho | hg
    · exact (owns_iff.mp ho).1
    · cases hg
  · simp only [watched, Bool.and_eq_true, decide_eq_true_eq] at hm
    exact .inr hm.1

theorem joins_unowned {e e' reply} (h : Joins cfg r e e' reply) :
    ¬ (e.dstate = .EXCLUSIVE ∨ e.dstate = .MODIFIED) := by
  cases h with
  | exclusive ht hd | first ht hp hd | firstExclusive ht hp hd | shares ht hd
  | again ht hd => simp [hd]

/-! ## The front request -/

section Front
variable {e : Env n V} {o : Outcome n V}

theorem bufOf_given (h : Current l buf e) (hq : l.queue = r :: q) : ∀ d ∈ bufOf buf r, d = e.last := by
  intro d hd
  refine h.given d ?_
  have hnone : r.dataBuf = none := h.bufs r (by rw [hq]; exact List.mem_cons_self ..)
  unfold bufOf at hd
  split at hd
  · rw [hnone] at hd
    cases buf with
    | none => cases hd
    | some d' => exact hd
  · exact hd

theorem bufOf_isSome (hr : r.msgType = .EX_REQ ∨ r.msgType = .UPGRADE_REQ)
    (hb : buf.isSome = true) : bufOf buf r = buf := by
  cases buf with
  | none => cases hb
  | some d => rcases hr with hr | hr <;> simp [bufOf, hr]

theorem front_fills (hf : Front cfg ch buf r l o) (hn : ch.nuca = none)
    (hb : ∀ d ∈ bufOf buf r, d = last) {msg} (hm : .cache c msg ∈ o.sent) :
    ∀ d ∈ fillData msg, d = last := by
  have hask : isAsk msg = true → ∀ d ∈ fillData msg, d = last := by
    intro ha d hd
    cases msg <;> simp [isAsk, fillData] at ha hd
  cases hf with
  | flushOwner | askOwner | makeRoom => exact hask (by cases List.mem_singleton.mp hm; rfl)
  | invalidate =>
    obtain ⟨s, -, hs⟩ := List.mem_map.mp hm
    cases hs
    exact hask rfl
  | upgradeInvalidate =>
    obtain ⟨s, -, hs⟩ := List.mem_map.mp hm
    cases hs
    refine hask ?_
    split <;> rfl
  | upgraded =>
    cases List.mem_singleton.mp hm
    intro d hd
    cases hd
  | nullified => cases hm
  | fetch hj hr =>
    cases hr with
    | given hd =>
      cases List.mem_singleton.mp hm
      intro d hfill
      refine hb d ?_
      rw [hd]
      cases hj <;> exact hfill
    | nuca hd hnuca => rw [hn] at hnuca; cases hnuca
    | forward => exact hask (by cases List.mem_singleton.mp hm; rfl)
    | dram => cases List.mem_singleton.mp hm

theorem front_toDram (hf : Front cfg ch buf r l o) : o.sent.filterMap forDram = [] ∨
    o.sent.filterMap forDram = [.DRAM_READ_REQ] ∧ bufOf buf r = none ∧
      ∃ e reply, Joins cfg r l.entry e reply := by
  cases hf with
  | flushOwner | askOwner | makeRoom | upgraded | nullified => exact .inl rfl
  | invalidate | upgradeInvalidate =>
    refine .inl (List.filterMap_eq_nil_iff.mpr fun m hm => ?_)
    obtain ⟨s, -, rfl⟩ := List.mem_map.mp hm
    rfl
  | fetch hj hr =>
    cases hr with
    | given | nuca | forward => exact .inl rfl
    | dram hb => exact .inr ⟨rfl, hb, _, _, hj⟩

theorem front_bufs (hf : Front cfg ch buf r l o) (hq : l.queue = r :: q)
    (hb : ∀ r ∈ l.queue, r.dataBuf = none) : ∀ r ∈ (lineAfter q o).queue, r.dataBuf = none := by
  have htail : ∀ r ∈ q, r.dataBuf = none := fun r hr =>
    hb r (by rw [hq]; exact List.mem_cons_of_mem _ hr)
  have hfront : r.dataBuf = none := hb r (by rw [hq]; exact List.mem_cons_self ..)
  have hmodify : ∀ r' : ShmemReq n V, r'.dataBuf = none → ∀ r'' ∈ r' :: q, r''.dataBuf = none :=
    fun r' hr' r'' hr'' => (List.mem_cons.mp hr'').elim (fun h => h ▸ hr') (htail r'')
  cases hf with
  | flushOwner | askOwner | invalidate | upgradeInvalidate | makeRoom => exact hb
  | upgraded | nullified => exact htail
  | fetch hj hr =>
    cases hr with
    | given | nuca => exact htail
    | forward | dram =>
      simp only [lineAfter, Line.modifyFront, hq, Bool.false_eq_true, if_false]
      exact hmodify _ hfront

section Processing
variable (h : Current l buf e) (hready : Ready cfg buf l e.cells) (hq : l.queue = r :: q)
include h hready hq

theorem Current.saved_of_joins {e' reply} (hj : Joins cfg r l.entry e' reply)
    (hb : bufOf buf r = none) :
    afterWrites e.dram e.toDram = e.last := by
  rcases h.saved with hs | ⟨hsome, r', hr', ht⟩ | ⟨c, hu⟩
  · exact hs
  · rw [hq] at hr'
    cases hr'
    rw [bufOf_isSome ht hsome] at hb
    rw [hb] at hsome
    cases hsome
  · exact absurd (owned_of_unsaved hready hu) (joins_unowned hj)

theorem Current.front_saved (hf : Front cfg ch buf r l o) :
    afterWrites e.dram e.toDram = e.last ∨
      ∃ c, Unsaved (watched true (lineAfter q o) c).modified (deliver o.sent e.cells c) := by
  have hfront : ∀ r' ∈ l.queue.head?, r' = r := fun r' hr' => by
    rw [hq] at hr'
    exact (Option.some.inj hr').symm
  -- an owner stays one
  have hkeep : l.entry.dstate ≠ .UNCACHED → (∀ c,
      l.entry.dstate = .EXCLUSIVE ∨ l.entry.dstate = .MODIFIED →
      (watched true l c).modified = true → (watched true (lineAfter q o) c).modified = true) →
      afterWrites e.dram e.toDram = e.last ∨
        ∃ c, Unsaved (watched true (lineAfter q o) c).modified (deliver o.sent e.cells c) := by
    intro hne hm
    rcases h.saved with hs | ⟨hsome, r', hr', ht⟩ | ⟨c, hu⟩
    · exact .inl hs
    · rcases h.provided hsome with hd | ⟨-, r'', hr'', ht'⟩
      · exact absurd hd hne
      · rw [hfront r' hr'] at ht
        rw [hfront r'' hr''] at ht'
        rcases ht with ht | ht <;> rw [ht] at ht' <;> cases ht'
    · exact .inr ⟨c, (hu.mono (hm c (owned_of_unsaved hready hu))).post _⟩
  have howned : l.entry.dstate = .EXCLUSIVE ∨ l.entry.dstate = .MODIFIED →
      l.entry.dstate ≠ .UNCACHED := by
    rintro (hd | hd) <;> simp [hd]
  cases hf with
  | flushOwner ht hd | askOwner ht hd => exact hkeep (howned hd) fun _ _ => id
  | invalidate ht hd | upgradeInvalidate ht hd
  | makeRoom ht hd => exact hkeep (by simp [hd]) fun _ _ => id
  | upgraded ht hr hd =>
    have hne : l.entry.dstate ≠ .UNCACHED := by
      rcases hd with ⟨hd, -⟩ | ⟨hd, -⟩
      · simp [hd]
      · exact howned hd
    refine hkeep hne fun c hown hm => ?_
    rcases hd with ⟨hd, -⟩ | ⟨-, ho⟩
    · rcases hown with hd' | hd' <;> rw [hd] at hd' <;> cases hd'
    · simp only [watched, owns, Bool.and_eq_true, decide_eq_true_eq] at hm
      simpa [watched, owns, lineAfter] using ho.symm.trans hm.2.2
  | nullified ht hd =>
    rcases h.saved with hs | ⟨-, r', hr', ht'⟩ | ⟨c, hu⟩
    · exact .inl hs
    · rw [hfront r' hr', ht] at ht'
      simp at ht'
    · exact absurd hd (howned (owned_of_unsaved hready hu))
  | fetch hj hr =>
    by_cases hb : bufOf buf r = none
    · exact .inl (h.saved_of_joins hready hq hj hb)
    · rcases h.saved with hs | ⟨-, r', hr', ht⟩ | ⟨c, hu⟩
      · exact .inl hs
      · -- the requester of the data owns the line from now on
        rw [hfront r' hr'] at ht
        refine .inr ⟨r.requester, .inr (.inr ?_)⟩
        cases hr with
        | given hd =>
          cases hj with
          | exclusive =>
            refine ⟨by simp [watched, owns, lineAfter, Line.setForwarder], .inr ?_⟩
            simp [deliver, toCache_single, Cell.tally, Cell.post, isExRep]
          | first ht' | firstExclusive ht' | shares ht' | again ht' => rw [ht'] at ht; simp at ht
        | nuca hd | forward hd | dram hd => exact absurd hd hb
      · exact absurd (owned_of_unsaved hready hu) (joins_unowned hj)

theorem Current.front (hn : ch.nuca = none) (hf : Front cfg ch buf r l o) :
    Current (lineAfter q o) none (e.emit o.sent) where
  loyal := fun c => (h.loyal c).post fun m hm =>
    front_fills hf hn (bufOf_given h hq) (mem_toCache.mp hm)
  reads := by
    refine (readsSee_append _ _ _).mpr ⟨h.reads, ?_⟩
    rcases front_toDram hf with hs | ⟨hs, hb, e', reply, hj⟩
    · rw [hs]
      trivial
    · rw [hs]
      exact ⟨h.saved_of_joins hready hq hj hb, trivial⟩
  answers := h.answers
  given := nofun
  provided := provided_none _
  bufs := front_bufs hf hq h.bufs
  saved := by
    have hsame : afterWrites e.dram (e.toDram ++ o.sent.filterMap forDram) =
        afterWrites e.dram e.toDram := by
      rw [afterWrites_append]
      rcases front_toDram hf with hs | ⟨hs, -⟩ <;> rw [hs] <;> rfl
    exact (h.front_saved hready hq hf).imp hsame.trans .inr

end Processing
end Front

/-! ## Messages of the caches -/

section Messages
variable {e : Env n V} {rc : Received n V}

/-- The flush reply is the last one that an upgrade in front waits for. -/
def Collected (l : Line n V) (c : Fin n) (m : FromCache V) : Prop :=
  ∀ d, m = .FLUSH_REP d → (∃ r ∈ l.queue.head?, r.msgType = .UPGRADE_REQ) →
    l.entry.sharers.erase c = ∅

/-- The directory takes a message of `c`. -/
def Env.pop (c : Fin n) (up : List (FromCache V)) (e : Env n V) : Env n V :=
  { e with cells := take c up e.cells }

theorem Current.taken (h : Current l none e) (hu : (e.cells c).up = m :: up) {l' sent}
    (hto : ∀ s, toCache s sent = []) (hread : sent.countP isRead = 0) (hbuf : ∀ d ∈ buf, d = e.last)
    (hp : Provided buf l') (hb : ∀ r ∈ l'.queue, r.dataBuf = none)
    (hs : afterWrites (afterWrites e.dram e.toDram) (sent.filterMap forDram) = e.last ∨
      (buf.isSome = true ∧ ∃ r ∈ l'.queue.head?, r.msgType = .EX_REQ ∨ r.msgType = .UPGRADE_REQ) ∨
      ∃ s, Unsaved (watched true l' s).modified (take c up e.cells s)) :
    Current l' buf ((e.pop c up).emit sent) where
  loyal := fun s => by
    show Loyal e.last (deliver sent (take c up e.cells) s)
    rw [deliver_none hto]
    by_cases hsc : s = c
    · subst hsc
      rw [take_self]
      exact (h.loyal s).pop hu
    · rw [take_other hsc]
      exact h.loyal s
  reads := (readsSee_append _ _ _).mpr
    ⟨h.reads, readsSee_of_none (by rw [countP_forDram]; exact hread) _⟩
  answers := h.answers
  given := hbuf
  provided := hp
  bufs := hb
  saved := by
    show afterWrites e.dram (e.toDram ++ sent.filterMap forDram) = e.last ∨ _ ∨
      ∃ s, Unsaved _ (deliver sent (take c up e.cells) s)
    rw [afterWrites_append, deliver_none hto]
    exact hs

theorem Unsaved.take {b s} (h : Unsaved b (x s)) (hu : (x c).up = m :: up)
    (hm : s ≠ c ∨ isFlushRep m = false) : Unsaved b (take c up x s) := by
  by_cases hs : s = c
  · subst hs
    rw [take_self]
    refine h.imp_right fun h => h.imp_left fun h => ?_
    have hm := hm.resolve_left (fun hne => hne rfl)
    simpa [Cell.tally, hu, hm] using h
  · rw [take_other hs]
    exact h

theorem Current.saved_or (h : Current l none e) : afterWrites e.dram e.toDram = e.last ∨
    ∃ c, Unsaved (watched true l c).modified (e.cells c) :=
  h.saved.imp_right fun hs => hs.resolve_left fun ⟨hn, _⟩ => by cases hn

theorem Current.invRep (h : Current l none e) (hu : (e.cells c).up = .INV_REP :: up)
    (hr : processInvRepFromL2Cache c l = .ok rc) (ha : rc.action = .process buf ∨ buf = none) :
    Current rc.line buf ((e.pop c up).emit rc.sent) := by
  obtain ⟨-, hd, rfl⟩ := invRep_cases hr
  have hbuf : buf = none := by
    rcases ha with ha | ha
    · split at ha
      · cases ha; rfl
      · cases ha
    · exact ha
  subst hbuf
  refine h.taken hu (fun _ => rfl) rfl nofun (provided_none _) h.bufs ?_
  rcases h.saved_or with hs | ⟨s, hun⟩
  · exact .inl hs
  · refine .inr (.inr ⟨s, ((hun.mono fun hm => ?_).take hu (.inr rfl))⟩)
    simp only [watched, Bool.and_eq_true, decide_eq_true_eq] at hm
    rcases hd with hd | hd <;> rw [hm.1] at hd <;> cases hd

theorem Current.flushRep (h : Current l none e) (hsettled : Settled cfg l e.cells e.reads) {d}
    (hu : (e.cells c).up = .FLUSH_REP d :: up) (hcol : Collected l c (.FLUSH_REP d))
    (hr : processFlushRepFromL2Cache ch c d l = .ok rc)
    (ha : rc.action = .process buf ∨ rc.action = .done ∧ buf = none) :
    Current rc.line buf ((e.pop c up).emit rc.sent) := by
  obtain ⟨hto, hread, -⟩ := hsettled.flushRep hu hr
  have hprov : Provided buf rc.line := by
    rcases ha with ha | ⟨-, rfl⟩
    · exact hsettled.received_provided ch hu hr ha
    · exact provided_none _
  have hd : d = e.last := (h.loyal c).sent _ (by rw [hu]; exact List.mem_cons_self ..) d rfl
  obtain ⟨-, -, hf⟩ := flushRep_cases hr
  cases hf with
  | idle hq =>
    obtain rfl : buf = none := ha.elim nofun And.right
    exact h.taken hu hto hread nofun hprov h.bufs (.inl hd)
  | exclusive hq ht =>
    obtain rfl : some d = buf := ha.elim (fun ha => by cases ha; rfl) nofun
    exact h.taken hu hto hread (by simpa using hd) hprov h.bufs
      (.inr (.inl ⟨rfl, _, by rw [show (flushLine c l).queue = _ from hq]; rfl, .inl ht⟩))
  | shared hq ht =>
    obtain rfl : some d = buf := ha.elim (fun ha => by cases ha; rfl) nofun
    exact h.taken hu hto hread (by simpa using hd) hprov h.bufs (.inl hd)
  | upgradeLast hq ht hs =>
    obtain rfl : some d = buf := ha.elim (fun ha => by cases ha; rfl) nofun
    exact h.taken hu hto hread (by simpa using hd) hprov h.bufs
      (.inr (.inl ⟨rfl, _, by rw [show (flushLine c l).queue = _ from hq]; rfl, .inr ht⟩))
  | upgrade hq ht hs => exact absurd (hcol d rfl ⟨_, by rw [hq]; rfl, ht⟩) hs
  | nullify hq ht =>
    obtain rfl : none = buf := ha.elim (fun ha => by cases ha; rfl) nofun
    exact h.taken hu hto hread nofun hprov h.bufs (.inl hd)

theorem not_unsaved_of_wbRep (h : Settled cfg l x k) {d} (hu : (x c).up = .WB_REP d :: up)
    (s : Fin n) : ¬ Unsaved (watched true l s).modified (x s) := by
  have hwb := h.wbWait_of_wbRep hu
  cases hq : l.queue with
  | nil => simp [wbWait, hq] at hwb
  | cons r q =>
    simp only [wbWait, hq, Bool.and_eq_true, Bool.or_eq_true, decide_eq_true_eq] at hwb
    obtain ⟨⟨⟨ht, -⟩, hsh⟩, hfrom⟩ := hwb
    by_cases hs : s = c
    · subst hs
      obtain ⟨h1, h2, h3, -, h5⟩ := (h.fits s).writtenBack (by simp [Cell.tally, hu, isWbRep])
      have hex := (h.fits s).exFill
      rintro (hc | hf | ⟨-, hc | hpos⟩)
      · exact h2 hc
      · omega
      · exact h1 hc
      · omega
    · by_cases hss : s ∈ l.entry.sharers
      · have hshared : l.entry.dstate = .SHARED := by
          rcases hfrom with ho | hf
          · rw [h.shaped.sharers_of_owns ho, Finset.mem_singleton] at hss
            exact absurd hss hs
          · exact (h.forwards r (by rw [hq]; rfl) (by simp [ShmemReq.isForwarding, hf])).2.1
        rintro (hc | hf | ⟨hm, -⟩)
        · have := (h.fits s).excl (.inr (.inl hc))
          rw [show (seen true l s).excl = owns l.entry s from rfl, owns_shared hshared] at this
          cases this
        · rcases (h.fits s).flushed hf with ho | hg
          · rw [show (seen true l s).excl = owns l.entry s from rfl, owns_shared hshared] at ho
            cases ho
          · simp [seen, gathers, hq, ht] at hg
        · simp [watched, hshared] at hm
      · obtain ⟨hc, hf, hfl, -⟩ := nothing_of_not_sharer (h.fits s) (decide_eq_false hss)
        have hex := (h.fits s).exFill
        rintro (hc' | hf' | ⟨-, hc' | hpos⟩)
        · rw [hc] at hc'; cases hc'
        · omega
        · rw [hc] at hc'; cases hc'
        · omega

theorem Current.wbRep (h : Current l none e) (hsettled : Settled cfg l e.cells e.reads) {d}
    (hu : (e.cells c).up = .WB_REP d :: up) (hr : processWbRepFromL2Cache c d l = .ok rc)
    (ha : rc.action = .process buf ∨ rc.action = .done ∧ buf = none) :
    Current rc.line buf ((e.pop c up).emit rc.sent) := by
  have hd : d = e.last := (h.loyal c).sent _ (by rw [hu]; exact List.mem_cons_self ..) d rfl
  have hsaved := h.saved_or.resolve_right fun ⟨s, hs⟩ => not_unsaved_of_wbRep hsettled hu s hs
  have hprov : Provided buf rc.line := by
    rcases ha with ha | ⟨-, rfl⟩
    · exact hsettled.received_provided ⟨0, none, none, d⟩ hu hr ha
    · exact provided_none _
  obtain ⟨-, -, rfl⟩ := wbRep_cases hr
  obtain rfl : some d = buf := ha.elim (fun ha => by cases ha; rfl) nofun
  exact h.taken hu (fun _ => rfl) rfl (by simpa using hd) hprov h.bufs (.inl hsaved)

theorem Current.received (h : Current l none e) (hsettled : Settled cfg l e.cells e.reads)
    (hu : (e.cells c).up = m :: up) (hcol : Collected l c m) (hr : receiveReply ch c l m = .ok rc)
    (ha : rc.action = .process buf ∨ rc.action = .done ∧ buf = none) :
    Current rc.line buf ((e.pop c up).emit rc.sent) := by
  cases m with
  | INV_REP => exact h.invRep hu hr (ha.imp_right And.right)
  | FLUSH_REP d => exact h.flushRep hsettled hu hcol hr ha
  | WB_REP d => exact h.wbRep hsettled hu hr ha
  | EX_REQ | SH_REQ | UPGRADE_REQ => cases hr

theorem Current.request (h : Current l none e) (hu : (e.cells c).up = m :: up) {t}
    (hm : m.request? = some t) :
    Current ⟨l.entry, l.queue ++ [ShmemReq.create t c]⟩ none (e.pop c up) := by
  have hflush : isFlushRep m = false := by cases m <;> cases hm <;> rfl
  rw [← Env.emit_nil (e.pop c up)]
  refine h.taken hu (fun _ => rfl) rfl nofun (provided_none _) (fun r hr => ?_) ?_
  · rcases List.mem_append.mp hr with hr | hr
    · exact h.bufs r hr
    · rw [List.mem_singleton.mp hr]
      rfl
  · exact h.saved_or.imp_right fun ⟨s, hs⟩ => .inr ⟨s, hs.take hu (.inr hflush)⟩

end Messages

/-! ## The rest -/

section Rest
variable {e : Env n V}

theorem Current.dramReply (h : Current l none e) {d rest} (hd : e.fromDram = d :: rest) {o}
    (ho : processDRAMReply d l = .ok o) (hq : o.line.queue = r :: q) :
    Current ⟨o.line.entry, q⟩ none (Env.emit o.sent { e with fromDram := rest }) := by
  have hlast : d = e.last := h.answers d (by rw [hd]; exact List.mem_cons_self ..)
  obtain ⟨r, q, reply, -, rfl, hreply⟩ := dramReply_cases ho
  have hfill : ∀ d' ∈ fillData (reply d), d' = e.last := by
    intro d' hd'
    rcases hreply with ⟨-, -, rfl⟩ | ⟨-, -, rfl⟩ | ⟨-, -, rfl⟩ | ⟨-, rfl⟩ <;>
      · cases hd'
        exact hlast
  have hnone : [Send.cache r.requester (reply d)].filterMap forDram = [] := rfl
  refine ⟨fun c => (h.loyal c).post fun msg hm => ?_, ?_, fun d' hd' => ?_, nofun,
    provided_none _, fun r' hr' => ?_, ?_⟩
  · have hmsg := mem_toCache.mp hm
    cases List.mem_singleton.mp hmsg
    exact hfill
  · simpa only [Env.emit, hnone, List.append_nil] using h.reads
  · exact h.answers d' (by rw [hd]; exact List.mem_cons_of_mem _ hd')
  · have hq : l.queue = _ := hq
    exact h.bufs r' (by rw [hq]; exact List.mem_cons_of_mem _ hr')
  · refine h.saved_or.imp (fun hs => ?_) fun ⟨s, hs⟩ => .inr ⟨s, hs.post _⟩
    simpa only [Env.emit, hnone, List.append_nil] using hs

theorem Current.nullifies (h : Current l none e) (requester : Fin n) :
    Current ⟨l.entry, [ShmemReq.create .NULLIFY_REQ requester]⟩ none e where
  loyal := h.loyal
  reads := h.reads
  answers := h.answers
  given := nofun
  provided := provided_none _
  bufs := fun r hr => by rw [List.mem_singleton.mp hr]; rfl
  saved := h.saved_or.imp_right .inr

theorem Current.renew (h : Current l buf e) (hd : l.entry.dstate = .UNCACHED) (f : Option (Fin n)) :
    Current ⟨.create f, l.queue⟩ buf e where
  loyal := h.loyal
  reads := h.reads
  answers := h.answers
  given := h.given
  provided := fun _ => .inl rfl
  bufs := h.bufs
  saved := h.saved.imp_right fun h => h.imp_right fun ⟨s, hs⟩ =>
    ⟨s, hs.mono fun hm => by simp [watched, hd] at hm⟩

end Rest

/-- The invariant of the line with its data: there is no NUCA cache, and the data that an
upgrade collects come last. -/
def savedDiscipline (cfg : Config) : Discipline cfg n V where
  Env := Env n V
  emit := Env.emit
  pops c m e e' := ∃ up, (e.cells c).up = m :: up ∧ e' = e.pop c up
  answers d e e' := ∃ rest, e.fromDram = d :: rest ∧ e' = { e with fromDram := rest }
  chooses ch := ch.nuca = none
  admits l _ c m := Collected l c m
  ready buf l e := (headedDiscipline cfg).ready buf l e.line ∧ Current l buf e
  settled l e := (headedDiscipline cfg).settled l e.line ∧ Current l none e
  emit_nil := Env.emit_nil
  emit_append := Env.emit_append
  renewReady h hd f := ⟨(headedDiscipline cfg).renewReady h.1 hd f, h.2.renew hd f⟩
  renewSettled h hd f := ⟨(headedDiscipline cfg).renewSettled h.1 hd f, h.2.renew hd f⟩
  settle h hq := ⟨(headedDiscipline cfg).settle h.1 hq, h.2⟩
  front hn h hq hf := by
    obtain ⟨hready, hsettled⟩ := (headedDiscipline cfg).front trivial h.1 hq hf
    have hcur := h.2.front h.1.1.2 hq hn hf
    rw [Env.line_emit]
    refine ⟨fun hnext => ⟨hready hnext, ?_⟩, fun hnext => ⟨hsettled hnext, ?_⟩⟩
    · rwa [lineAfter, if_pos hnext] at hcur
    · rwa [lineAfter, if_neg (by simp [hnext])] at hcur
  request_idle h hq hp ht := by
    obtain ⟨up, hu, rfl⟩ := hp
    refine ⟨(headedDiscipline cfg).request_idle h.1 hq ⟨up, hu, rfl⟩ ht, ?_⟩
    have := h.2.request hu ht
    rwa [hq] at this
  request_busy h hq hp ht := by
    obtain ⟨up, hu, rfl⟩ := hp
    exact ⟨(headedDiscipline cfg).request_busy h.1 hq ⟨up, hu, rfl⟩ ht, h.2.request hu ht⟩
  received _ h ha hp hr := by
    obtain ⟨up, hu, rfl⟩ := hp
    have hcont := (headedDiscipline cfg).received trivial h.1 trivial ⟨up, hu, rfl⟩ hr
    cases hact : Received.action _ with
    | done =>
      rw [hact] at hcont
      refine ⟨?_, h.2.received h.1.1 hu ha hr (.inr ⟨hact, rfl⟩)⟩
      rw [Env.line_emit]
      exact hcont
    | process buf =>
      rw [hact] at hcont
      refine ⟨hcont.1, ?_, h.2.received h.1.1 hu ha hr (.inl hact)⟩
      rw [Env.line_emit]
      exact hcont.2
  dramReply h hans ho := by
    obtain ⟨rest, hd, rfl⟩ := hans
    obtain ⟨r, q, hq, hready⟩ := (headedDiscipline cfg).dramReply h.1 (Env.line_answer hd) ho
    rw [Env.line_emit]
    exact ⟨r, q, hq, hready, h.2.dramReply hd ho hq⟩
  nullifies h hq requester :=
    ⟨(headedDiscipline cfg).nullifies h.1 hq requester, h.2.nullifies requester⟩

end Sniper.Protocol.CurrentData
