import Sniper.Protocol.Coherence

/-! # The forwarder of a shared line

Under MESIF the forwarder of a shared entry is one of its sharers, if it was one when the line
was written back. The constructor of an entry leaves the forwarder as it is in memory, and an
entry without room for two sharers does not set it before it shares the line.
-/
namespace Sniper.Protocol.LineInvariant
open Directory.DirectoryEntry Directory.Handlers Directory.Outcomes
open Protocol.Handling

variable {n : Nat} {V : Type} {cfg : Config} {ch : Choice n V} {buf : Option V}

/-- The forwarder is a recorded sharer, if there is one. -/
def Recorded (e : Entry n) : Prop := ∀ f, e.forwarder = some f → f ∈ e.sharers

instance (e : Entry n) : Decidable (Recorded e) :=
  inferInstanceAs (Decidable (∀ f, e.forwarder = some f → f ∈ e.sharers))

/-- Of a shared line. -/
def Held (e : Entry n) : Prop := e.dstate = .SHARED → Recorded e

theorem Held.create (f : Option (Fin n)) : Held (.create f) := nofun

theorem Held.joins {r : ShmemReq n V} {e e' : Entry n} {reply} (h : Held e)
    (hp : cfg.protocol = .MESIF) (hj : Joins cfg r e e' reply) :
    Held e' ∧ (e'.dstate = .SHARED → r.requester ∈ e'.sharers) := by
  cases hj with
  | exclusive | firstExclusive => exact ⟨nofun, nofun⟩
  | first _ hmsi =>
    rw [hp] at hmsi
    cases hmsi
  | shares _ hd =>
    exact ⟨fun _ f hf => Finset.mem_insert_of_mem (h hd f hf), fun _ => Finset.mem_insert_self _ _⟩
  | again _ _ hr => exact ⟨h, fun _ => hr⟩

theorem Held.retrieves {r l reply o} (h : Held l.entry)
    (hr : l.entry.dstate = .SHARED → r.requester ∈ l.entry.sharers)
    (ho : Retrieves cfg ch r reply buf l o) : Held o.line.entry := by
  have hfront : ∀ g, (l.modifyFront g).entry = l.entry := by
    intro g
    unfold Line.modifyFront
    split <;> rfl
  cases ho with
  | given =>
    intro hd f hf
    cases hf
    exact hr hd
  | nuca => exact h
  | forward | dram =>
    rw [hfront]
    exact h

theorem Held.front {r} {l : Line n V} {o : Outcome n V} (h : Held l.entry)
    (hp : cfg.protocol = .MESIF) (hf : Front cfg ch buf r l o) : Held o.line.entry := by
  cases hf with
  | flushOwner | askOwner | invalidate | upgradeInvalidate | makeRoom | nullified => exact h
  | upgraded => exact nofun
  | fetch hj hr =>
    obtain ⟨hheld, hmem⟩ := h.joins hp hj
    exact hheld.retrieves hmem hr

theorem Held.leave {e} (h : Held e) (c : Fin n) (owner : Option (Fin n)) :
    Held (leave c owner (if e.forwarder = some c then none else e.forwarder) e) := by
  intro hd f hf
  have hshared : e.dstate = .SHARED := by
    change (if e.sharers.erase c = ∅ then DState.UNCACHED else e.dstate) = .SHARED at hd
    split at hd
    · cases hd
    · exact hd
  change (if e.forwarder = some c then none else e.forwarder) = some f at hf
  split at hf
  case isTrue => cases hf
  case isFalse hne =>
    refine Finset.mem_erase.mpr ⟨?_, h hshared f hf⟩
    rintro rfl
    exact hne hf

theorem Held.received {l c m r} (h : Held l.entry)
    (hwb : ∀ d, m = .WB_REP d → c ∈ l.entry.sharers → Recorded l.entry)
    (hr : receiveReply ch c l m = .ok r) : Held r.line.entry := by
  cases m with
  | INV_REP =>
    obtain ⟨-, -, rfl⟩ := invRep_cases hr
    exact h.leave c l.entry.owner
  | FLUSH_REP d =>
    have hnone : Held (flushLine c l).entry := fun _ f hf => by cases hf
    obtain ⟨-, -, hf⟩ := flushRep_cases hr
    cases hf with
    | upgrade hq =>
      simp only [Line.modifyFront, flushLine, hq]
      exact hnone
    | _ => exact hnone
  | WB_REP d =>
    obtain ⟨hmem, -, rfl⟩ := wbRep_cases hr
    exact fun _ => hwb d rfl hmem
  | EX_REQ | SH_REQ | UPGRADE_REQ => cases hr

/-! ## The handlers -/

/-- What an entry without room for two sharers depends on. -/
def Kept (cfg : Config) (e : Entry n) : Prop := cfg.protocol = .MESIF → ¬ Roomy cfg n → Held e

/-- A write-back of a sharer finds a recorded forwarder. -/
def Admitted (cfg : Config) (e : Entry n) (c : Fin n) (m : FromCache V) : Prop :=
  cfg.protocol = .MESIF → ¬ Roomy cfg n → ∀ d, m = .WB_REP d → c ∈ e.sharers → Recorded e

/-- The invariant of a line with that of its forwarder. -/
def heldDiscipline (cfg : Config) : Discipline cfg n V where
  Env := (lineDiscipline (n := n) (V := V) cfg).Env
  emit := (lineDiscipline cfg).emit
  pops := (lineDiscipline cfg).pops
  answers := (lineDiscipline cfg).answers
  chooses := (lineDiscipline cfg).chooses
  admits l _ c m := Admitted cfg l.entry c m
  ready buf l e := (lineDiscipline cfg).ready buf l e ∧ Kept cfg l.entry
  settled l e := (lineDiscipline cfg).settled l e ∧ Kept cfg l.entry
  emit_nil := (lineDiscipline cfg).emit_nil
  emit_append := (lineDiscipline cfg).emit_append
  renewReady h hd f := ⟨(lineDiscipline cfg).renewReady h.1 hd f, fun _ _ => .create f⟩
  renewSettled h hd f := ⟨(lineDiscipline cfg).renewSettled h.1 hd f, fun _ _ => .create f⟩
  settle h hq := ⟨(lineDiscipline cfg).settle h.1 hq, h.2⟩
  front hc h hq hf := by
    obtain ⟨hready, hsettled⟩ := (lineDiscipline cfg).front hc h.1 hq hf
    have hkept : Kept cfg _ := fun hp hroom => (h.2 hp hroom).front hp hf
    exact ⟨fun hn => ⟨hready hn, hkept⟩, fun hn => ⟨hsettled hn, hkept⟩⟩
  request_idle h hq hp ht := ⟨(lineDiscipline cfg).request_idle h.1 hq hp ht, h.2⟩
  request_busy h hq hp ht := ⟨(lineDiscipline cfg).request_busy h.1 hq hp ht, h.2⟩
  received hc h hadm hp hr := by
    have hcont := (lineDiscipline cfg).received hc h.1 trivial hp hr
    have hkept : Kept cfg _ := fun hp hroom => (h.2 hp hroom).received (hadm hp hroom) hr
    revert hcont
    cases Received.action _ with
    | done => exact fun hcont => ⟨hcont, hkept⟩
    | process buf => exact fun hcont => ⟨hcont.1, hcont.2, hkept⟩
  dramReply {l e e' d o} h hans ho := by
    obtain ⟨r, q, hq, hready⟩ := (lineDiscipline cfg).dramReply h.1 hans ho
    have hline : o.line = l := by
      obtain ⟨_, _, _, _, rfl, _⟩ := dramReply_cases ho
      rfl
    refine ⟨r, q, hq, hready, ?_⟩
    rw [hline]
    exact h.2
  nullifies h hq requester := ⟨(lineDiscipline cfg).nullifies h.1 hq requester, h.2⟩

end Sniper.Protocol.LineInvariant

namespace Sniper.Protocol.Forwarding
open Directory.DirectoryEntry Directory.SetArray
open Directory.Handlers Directory.Refinement
open Protocol.CacheInvariant Protocol.LineInvariant Protocol.System
open Protocol.Coherence Lib.Simulation

variable {A : Type} [DecidableEq A] {G : Geometry A} {n : Nat} {V : Type} {cfg : Config}
  {s : State G n V}

/-- An entry without room for two sharers has a recorded forwarder, or none, when its line is
written back. -/
def Careful (cfg : Config) (s : State G n V) : Event A n V → Prop
  | .fromCache _ _ a (.WB_REP _) => Roomy cfg n ∨ ∀ e, s.cntlr.cache.entryOf a = some e → Recorded e
  | _ => True

/-- The states of runs of such steps. -/
abbrev CarefulRuns (cfg : Config) : State G n V → Prop :=
  Reachable Init fun s s' => ∃ ev, Careful cfg s ev ∧ Step cfg s ev s'

theorem Careful.admitted {ch c a m} (h : Careful cfg s (.fromCache ch c a m)) (f : Option (Fin n)) :
    Admitted cfg (lineOf (view s.cntlr a) f).entry c m := by
  rintro - hroom d rfl hmem
  have h := h.resolve_left hroom
  cases he : (view s.cntlr a).entry with
  | none =>
    simp only [lineOf, he, Option.getD_none, Entry.create] at hmem
    exact absurd hmem (Finset.notMem_empty c)
  | some e =>
    simp only [lineOf, he, Option.getD_some]
    exact h e he

/-- The discipline in the system. -/
def heldEmbedding (cfg : Config) : Embedding G (heldDiscipline (n := n) (V := V) cfg) where
  env := (lineEmbedding cfg).env
  good := Careful cfg
  dispatch := id (lineEmbedding cfg).dispatch
  popped := id (lineEmbedding cfg).popped
  answered := id (lineEmbedding cfg).answered
  chooses_fromCache _ := trivial
  chooses_fromDram _ := trivial
  admits hg f := hg.admitted f
  quiet hs hq _ h a :=
    ⟨(lineEmbedding cfg).quiet hs hq trivial (fun b => (h b).1) a, (h a).2⟩

theorem careful_held (h : CarefulRuns cfg s) : (heldEmbedding cfg).Holds s := by
  refine Embedding.Holds.reachable (fun t ht => ?_) (fun t ht a => served_view (ht.line a).1) h
  have hinv : Inv cfg t := init_inv ht
  refine ⟨hinv.sound, fun a => ⟨hinv.line a, fun _ _ => ?_⟩⟩
  rw [ht.directory.view a]
  exact .create none

/-- The data of the copy were asked for and will come, or they come, or the copy goes. -/
def WbComing (x : Cell V) : Prop :=
  ToCache.WB_REQ ∈ x.live ∨ .INV_REP ∈ x.up ∨ ∃ d, .WB_REP d ∈ x.up

theorem wbComing {k : Seen} {x : Cell V} (h : Fits k x) (hx : k.excl = false)
    (hg : k.gathers = false) (hasked : x.AskedWb) : WbComing x := by
  have hflush : x.up.countP isFlushRep = 0 := by
    by_contra hne
    have hpos : 0 < x.tally.flushReps := Nat.pos_of_ne_zero hne
    rcases h.flushed hpos with hk | hk
    · rw [hx] at hk
      cases hk
    · rw [hg] at hk
      cases hk
  have hcases : 0 < x.live.countP isWbReq ∨ 0 < x.up.countP isWbRep ∨
      0 < x.up.countP isLeave := by
    have hpos : 0 < x.live.countP isWbReq + x.up.countP isWbRep + x.up.countP isLeave := hasked
    omega
  obtain hlive | hrep | hleave := hcases
  · obtain ⟨m, hm, hreq⟩ := List.countP_pos_iff.mp hlive
    cases m <;> cases hreq
    exact .inl hm
  · obtain ⟨m, hm, hwb⟩ := List.countP_pos_iff.mp hrep
    cases m <;> cases hwb
    exact .inr (.inr ⟨_, hm⟩)
  · obtain ⟨m, hm, hlv⟩ := List.countP_pos_iff.mp hleave
    cases m <;> cases hlv
    · exact .inr (.inl hm)
    · exact absurd rfl (List.countP_eq_zero.mp hflush _ hm)

/-- **The forwarder of a shared line is a recorded sharer, and a request is only forwarded to a
cache that will answer it.** -/
theorem forwarder_recorded (hp : cfg.protocol = .MESIF) (h : CarefulRuns cfg s) :
    (∀ a e, s.cntlr.cache.entryOf a = some e → e.dstate = .SHARED → Recorded e) ∧
    ∀ a, ∀ r ∈ (s.cntlr.queues a).head?, ∀ f, r.forwardingFrom = some f → r.waitForData = false →
      WbComing (cells s a f) := by
  have hheld := careful_held h
  refine ⟨fun a e he hd f hf => ?_, fun a r hr f hf hw => ?_⟩
  · obtain ⟨hline, hkept⟩ := hheld.line a
    have hentry : (lineOf (view s.cntlr a) none).entry = e := by
      simp only [lineOf, show (view s.cntlr a).entry = some e from he, Option.getD_some]
    by_cases hroom : Roomy cfg n
    · have hfw := hline.forwarder hp (by rw [hentry]; exact hd) hroom f (by rw [hentry]; exact hf)
      rw [hentry] at hfw
      exact hfw.1
    · rw [hentry] at hkept
      exact hkept hp hroom hd f hf
  · have hline : Settled cfg _ _ _ := (hheld.line a).1
    obtain ⟨ht, hd, -⟩ := hline.forwards r hr (by rw [ShmemReq.isForwarding, hf]; rfl)
    have hasked := hline.awaits r hr hw
    unfold Awaits at hasked
    rw [ht] at hasked
    rw [hf] at hasked
    refine wbComing (hline.fits f) (owns_shared hd) ?_ hasked.2.2
    have hgathers : gathers (lineOf (view s.cntlr a) none) = false := by
      unfold gathers
      obtain ⟨q, hq⟩ : ∃ q, (lineOf (view s.cntlr a) none).queue = r :: q :=
        List.head?_eq_some_iff.mp hr
      rw [hq]
      simp [ht]
    simp [seen, hgathers]

theorem careful_of_roomy (hroom : Roomy cfg n) (h : Runs cfg s) : CarefulRuns cfg s := by
  induction h with
  | init h => exact .init h
  | step _ hst ih =>
    obtain ⟨ev, hst⟩ := hst
    refine .step ih ⟨ev, ?_, hst⟩
    unfold Careful
    split
    · exact .inl hroom
    · trivial

/-! ## Runs of three and of two caches -/

def mesif : Config := ⟨.FULL_MAP, 3, .MESIF⟩

/-- Three caches read one after the other; the request of the third is forwarded to the second. -/
def threeReads : List (Move Unit 3 Nat) :=
  [.access 0 () false, .fromCache choice 0, .toDram, .fromDram choice, .toCache 0 0,
    .wake 0 (), .wake 0 (), .wake 0 (), .access 1 () false, .fromCache choice 1, .toCache 0 0,
    .fromCache choice 0, .toCache 1 0, .wake 1 (), .wake 1 (), .wake 1 (), .access 2 () false,
    .fromCache choice 2]

theorem forwarder_recorded_threeReads : ∃ s : State oneLine 3 Nat, CarefulRuns mesif s ∧
    (∃ e, s.cntlr.cache.entryOf () = some e ∧ e.dstate = .SHARED ∧ e.forwarder = some 1 ∧
      Recorded e) ∧ WbComing (cells s () 1) := by
  obtain ⟨s, hm, ⟨e, he, hd, hf⟩, r, hr, hr1, hrw⟩ :
      ∃ s, (start 3 5).moves mesif threeReads = some s ∧
        (∃ e, s.cntlr.cache.entryOf () = some e ∧ e.dstate = .SHARED ∧ e.forwarder = some 1) ∧
        ∃ r ∈ (s.cntlr.queues ()).head?, r.forwardingFrom = some 1 ∧ r.waitForData = false :=
    ⟨_, rfl, ⟨_, rfl, rfl, rfl⟩, _, rfl, rfl, rfl⟩
  have h := careful_of_roomy (.inr (by decide)) (moves_runs (.init (start_init 3 5)) hm)
  obtain ⟨hrecorded, hcoming⟩ := forwarder_recorded rfl h
  exact ⟨s, h, ⟨e, he, hd, hf, hrecorded () e he hd⟩, hcoming () r hr 1 hr1 hrw⟩

/-- An entry with room for one sharer. -/
def oneSharer : Config := ⟨.LIMITED_NO_BROADCAST, 1, .MESIF⟩

open scoped Lib.Sizes

/-- A directory whose free way has the number of the second cache in the place of its forwarder. -/
def leftOver : State oneLine 2 Nat :=
  { start 2 5 with cntlr := ⟨⟨fun _ _ => ⟨none, .create (some 1)⟩, [], fun _ => 0⟩, fun _ => []⟩ }

theorem leftOver_init : Init leftOver :=
  { start_init 2 5 with directory := ⟨fun _ _ => ⟨rfl, some 1, rfl⟩, rfl, fun _ => rfl⟩ }

/-- Both caches read. The line of the first one is written back for the second one. -/
def twoReads : List (Move Unit 2 Nat) :=
  [.access 0 () false, .fromCache choice 0, .toDram, .fromDram choice, .toCache 0 0,
    .wake 0 (), .wake 0 (), .wake 0 (), .access 1 () false, .fromCache choice 1, .toCache 0 0,
    .fromCache choice 0]

/-- The written back line is shared, by its first cache alone, and the second is its forwarder. -/
theorem forwarder_left_over : ∃ s : State oneLine 2 Nat, Runs oneSharer s ∧
    ∃ e, s.cntlr.cache.entryOf () = some e ∧ e.dstate = .SHARED ∧ e.forwarder = some 1 ∧
      e.sharers = {0} := by
  obtain ⟨s, hm, he⟩ : ∃ s, leftOver.moves oneSharer twoReads = some s ∧
      ∃ e, s.cntlr.cache.entryOf () = some e ∧ e.dstate = .SHARED ∧ e.forwarder = some 1 ∧
        e.sharers = {0} :=
    ⟨_, rfl, _, rfl, rfl, rfl, by decide⟩
  exact ⟨s, moves_runs (.init leftOver_init) hm, he⟩

end Sniper.Protocol.Forwarding
