import Sniper.Protocol.System

/-! # Coherence of the last-level caches

What the invariant says about the runs of the whole system.
-/
namespace Sniper.Protocol.Coherence
open Directory.DirectoryEntry Directory.SetArray
open Protocol.System
open Lib.Channel Directory.Refinement
open Protocol.CacheInvariant Protocol.LineInvariant

variable {A : Type} [DecidableEq A] {G : Geometry A} {n : Nat} {V : Type} {cfg : Config}
  {s : State G n V}

/-- **Single writer or many readers.** While one cache holds a line EXCLUSIVE or MODIFIED,
no other one holds it. -/
theorem single_writer (h : Runs cfg s) (a : A) {c d : Fin n} (hcd : d ≠ c)
    (hc : (s.lines c a).cstate = .EXCLUSIVE ∨ (s.lines c a).cstate = .MODIFIED) :
    (s.lines d a).cstate = .INVALID :=
  ((runs_inv h).line a).exclusive_alone hcd hc

/-- No message is on its way and no waiter is being woken. -/
structure Quiescent (s : State G n V) : Prop where
  fromCache : ∀ c, s.fromCache c = []
  toCache : ∀ c, s.toCache c = []
  toDram : s.toDram = []
  fromDram : s.fromDram = []
  phase : ∀ c a, (s.lines c a).phase = .idle

/-- **No request gets stuck.** Nothing is queued and nobody waits when nothing is on its
way. -/
theorem nothing_stuck (h : Runs cfg s) (hq : Quiescent s) :
    (∀ a, s.cntlr.queues a = []) ∧ ∀ c a, (s.lines c a).waiters = [] := by
  have hquiet : ∀ a, s.cntlr.queues a = [] ∧ ∀ c, (s.lines c a).waiters = [] := fun a =>
    ((runs_inv h).line a).quiet (by simp [reads, hq.toDram, hq.fromDram])
      (fun c => by simp [cells, hq.fromCache]) (fun c => by simp [cells, hq.toCache])
      fun c => hq.phase c a
  exact ⟨fun a => (hquiet a).1, fun c a => (hquiet a).2 c⟩

/-! ## What the directory knows -/

/-- **Every copy is recorded**, and one that may be written as the only one. -/
theorem copies_recorded (h : Runs cfg s) (c : Fin n) (a : A)
    (hc : (s.lines c a).cstate ≠ .INVALID) : ∃ e, s.cntlr.cache.entryOf a = some e ∧
      c ∈ e.sharers ∧ ((s.lines c a).cstate = .EXCLUSIVE ∨ (s.lines c a).cstate = .MODIFIED →
        (e.dstate = .EXCLUSIVE ∨ e.dstate = .MODIFIED) ∧ e.owner = some c ∧ e.sharers = {c}) := by
  have hline := (runs_inv h).line a
  have hfits := hline.fits c
  have hmem : c ∈ (lineOf (view s.cntlr a) none).entry.sharers :=
    of_decide_eq_true (hfits.valid hc).2.2.2
  cases he : s.cntlr.cache.entryOf a with
  | none => simp [lineOf, view, he, Entry.create] at hmem
  | some e =>
    have hentry : (lineOf (view s.cntlr a) none).entry = e := by simp [lineOf, view, he]
    have hshaped := hline.shaped
    rw [hentry] at hmem hshaped
    refine ⟨e, rfl, hmem, fun hex => ?_⟩
    have howns : owns e c = true := hentry ▸ hfits.excl (hex.imp_right .inl)
    exact ⟨(owns_iff.mp howns).1, (owns_iff.mp howns).2, hshaped.sharers_of_owns howns⟩

/-- **The sharers are the caches with a copy** when nothing is on its way. -/
theorem sharers_exact (h : Runs cfg s) (hq : Quiescent s) {a e}
    (he : s.cntlr.cache.entryOf a = some e) :
    (∀ c, c ∈ e.sharers ↔ (s.lines c a).cstate ≠ .INVALID) ∧
      (e.dstate = .UNCACHED ↔ ∀ c, (s.lines c a).cstate = .INVALID) := by
  have hline := (runs_inv h).line a
  have hentry : (lineOf (view s.cntlr a) none).entry = e := by simp [lineOf, view, he]
  have hqueue : s.cntlr.queues a = [] := (hline.quiet (by simp [reads, hq.toDram, hq.fromDram])
    (fun c => by simp [cells, hq.fromCache]) (fun c => by simp [cells, hq.toCache])
    fun c => hq.phase c a).1
  have hsharers : ∀ c, c ∈ e.sharers ↔ (s.lines c a).cstate ≠ .INVALID := fun c => by
    have htoken := (hline.fits c).token
    simp only [Cell.tally, cells, hq.fromCache, hq.toCache, lane, List.filterMap_nil,
      List.countP_nil, seen, lineOf, view, he, Option.getD_some, hqueue, pending,
      Bool.toNat_false, Nat.add_zero] at htoken
    by_cases hmem : c ∈ e.sharers <;> by_cases hs : (s.lines c a).cstate = .INVALID <;>
      simp [hmem, hs] at htoken ⊢
  refine ⟨hsharers, (hentry ▸ hline.shaped.uncached).trans ?_⟩
  simp [Finset.eq_empty_iff_forall_notMem, hsharers]

/-! ## A run of two caches -/

open scoped Lib.Sizes

/-- One line in one set of one way. -/
def oneLine : Geometry Unit := ⟨1, 1, fun _ => 0⟩

/-- Nothing happened yet, and DRAM holds `v`. -/
def start (n : Nat) (v : Nat) : State oneLine n Nat where
  cntlr := ⟨⟨fun _ _ => ⟨none, .create none⟩, [], fun _ => 0⟩, fun _ => []⟩
  lines := fun _ _ => ⟨.INVALID, 0, [], .idle⟩
  fromCache := fun _ => []
  toCache := fun _ => []
  toDram := []
  fromDram := []
  dram := fun _ => v
  last := fun _ => v

theorem start_init (n v : Nat) : Init (start n v) :=
  ⟨⟨fun _ _ => ⟨rfl, none, rfl⟩, rfl, fun _ => rfl⟩, fun _ _ => ⟨rfl, rfl, rfl⟩, fun _ => rfl,
    fun _ => rfl, rfl, rfl, rfl⟩

def mesi : Config := ⟨.FULL_MAP, 2, .MESI⟩

/-- No NUCA cache, and no forwarder left in a new entry. -/
def choice {n : Nat} : Choice n Nat := ⟨0, none, none, 0⟩

/-- The first cache reads, then the second one writes. -/
def writeAfterRead : List (Move Unit 2 Nat) :=
  [.access 0 () false, .fromCache choice 0, .toDram, .fromDram choice, .toCache 0 0,
    .wake 0 (), .wake 0 (), .wake 0 (), .access 1 () true, .fromCache choice 1, .toCache 0 0,
    .fromCache choice 0, .toCache 1 0, .wake 1 (), .wake 1 (), .wake 1 ()]

theorem writeAfterRead_moves : ∃ s, (start 2 5).moves mesi writeAfterRead = some s ∧
    (s.lines 1 ()).cstate = .MODIFIED ∧ Quiescent s :=
  ⟨_, rfl, rfl, by decide, by decide, rfl, rfl, by decide⟩

theorem single_writer_writeAfterRead : ∃ s : State oneLine 2 Nat, Runs mesi s ∧
    (s.lines 1 ()).cstate = .MODIFIED ∧ (s.lines 0 ()).cstate = .INVALID := by
  obtain ⟨s, hm, hs, -⟩ := writeAfterRead_moves
  have h := moves_runs (.init (start_init 2 5)) hm
  exact ⟨s, h, hs, single_writer h () (by decide) (.inr hs)⟩

theorem nothing_stuck_writeAfterRead : ∃ s : State oneLine 2 Nat, Runs mesi s ∧
    s.cntlr.queues () = [] ∧ (s.lines 1 ()).waiters = [] := by
  obtain ⟨s, hm, -, hq⟩ := writeAfterRead_moves
  have h := moves_runs (.init (start_init 2 5)) hm
  exact ⟨s, h, (nothing_stuck h hq).1 (), (nothing_stuck h hq).2 1 ()⟩

end Sniper.Protocol.Coherence
