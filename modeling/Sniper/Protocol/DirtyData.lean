import Sniper.Protocol.SavedData
import Sniper.Protocol.Assertions

/-! # Modified data are saved

Which runs without a NUCA cache can lose the last store to a line: those in which a cache gives
its modified data up for a write-back request, for the directory gives them to the reader and does
not write them to DRAM.
-/
namespace Sniper.Protocol.CurrentData
open Directory.DirectoryEntry Directory.SetArray Function
open Directory.Handlers Directory.Refinement
open Protocol.CacheInvariant Protocol.LineInvariant
open Protocol.System Protocol.Coherence Protocol.Assertions
open Lib.Channel Lib.Simulation

/-! ## Steps of a cache and of DRAM -/

section Quiet
variable {n : Nat} {V : Type} {cfg : Config} {l : Line n V} {x : Fin n → Cell V} {k : Nat}
  {c : Fin n} {e : Env n V}

/-- While a cache has modified the line, DRAM is not read and no other cache has a part in
it. -/
theorem alone_with_modified (h : Settled cfg l x k) (hs : (x c).line.cstate = .MODIFIED) :
    k = 0 ∧ ∀ s, s ≠ c → (seen true l s).sharer = false := by
  have hsharers := h.shaped.sharers_of_owns ((h.fits c).excl (.inr (.inl hs)))
  have hpending : (seen true l c).pending = false :=
    ((h.fits c).valid (show (x c).tally.cstate ≠ .INVALID by simp [Cell.tally, hs])).2.2.1
  refine ⟨h.reads_zero fun r hr => ?_, fun s hsc => decide_eq_false ?_⟩
  · by_contra hw
    have hw : r.waitForData = true := by simpa using hw
    have hreq := (h.waits r hr hw).1
    rw [hsharers, Finset.mem_singleton] at hreq
    obtain ⟨q, hq⟩ := List.head?_eq_some_iff.mp hr
    have hpend : pending l.queue c = true := by simp [pending, hq, hreq, hw]
    rw [show (seen true l c).pending = pending l.queue c from rfl, hpend] at hpending
    cases hpending
  · rw [hsharers, Finset.mem_singleton]
    exact hsc

theorem Current.cell (h : Current l none e) (hl : (headedDiscipline cfg).settled l e.line) {w y}
    (hy : CellStep (e.cells c) w y) (hk : Keeps (e.cells c) y) :
    Current l none { e with cells := update e.cells c y, last := w.getD e.last } := by
  have hsettled : Settled cfg l e.cells e.reads := hl.1
  have hhead : HeadedAll true l e.cells := hl.2
  have hself : Loyal (w.getD e.last) y := (h.loyal c).step (hsettled.fits c) hy hk
  cases w with
  | none =>
    refine ⟨fun s => ?_, h.reads, h.answers, nofun, provided_none _, h.bufs, ?_⟩
    · by_cases hs : s = c
      · subst hs
        simpa only [update_self] using hself
      · simp only [update_of_ne hs]
        exact h.loyal s
    · refine h.saved_or.imp_right fun ⟨s, hs⟩ => .inr ⟨s, ?_⟩
      by_cases hsc : s = c
      · subst hsc
        simp only [update_self]
        exact hs.step (hhead s) (hsettled.fits s) hy hk
      · simpa only [update_of_ne hsc] using hs
  | some v =>
    -- only the owner of the line stores
    obtain ⟨hm, hline⟩ : (e.cells c).line.cstate = .MODIFIED ∧ y.line.cstate = .MODIFIED := by
      cases hy with
      | act hs => cases hs.act with | store _ hm => exact ⟨hm, hm⟩
    obtain ⟨hreads, hothers⟩ := alone_with_modified hsettled hm
    obtain ⟨hnone, hanswers⟩ : e.toDram.countP isReadReq = 0 ∧ e.fromDram.length = 0 :=
      Nat.add_eq_zero_iff.mp hreads
    refine ⟨fun s => ?_, readsSee_of_none hnone _, fun d hd => ?_, nofun, provided_none _,
      h.bufs, .inr (.inr ⟨c, .inl ?_⟩)⟩
    · by_cases hs : s = c
      · subst hs
        simpa only [update_self] using hself
      · obtain ⟨hc, hf, hl, hw⟩ := nothing_of_not_sharer (hsettled.fits s) (hothers s hs)
        simp only [update_of_ne hs]
        exact .of_none (fun hne => absurd hc hne) hf hl hw
    · rw [List.length_eq_zero_iff.mp hanswers] at hd
      cases hd
    · simpa only [update_self] using hline

theorem Current.dramRead (h : Current l none e) {rest} (hd : e.toDram = .DRAM_READ_REQ :: rest) :
    Current l none { e with toDram := rest, fromDram := e.fromDram ++ [e.dram] } := by
  have hreads := h.reads
  have hsaved := h.saved
  rw [hd] at hreads hsaved
  refine ⟨h.loyal, hreads.2, fun d hd => ?_, nofun, provided_none _, h.bufs, hsaved⟩
  rcases List.mem_append.mp hd with hd | hd
  · exact h.answers d hd
  · rw [List.mem_singleton.mp hd]
    exact hreads.1

theorem Current.dramWrite (h : Current l none e) {d rest}
    (hd : e.toDram = .DRAM_WRITE_REQ d :: rest) :
    Current l none { e with toDram := rest, dram := d } := by
  have hreads := h.reads
  have hsaved := h.saved
  rw [hd] at hreads hsaved
  exact ⟨h.loyal, hreads, h.answers, nofun, provided_none _, h.bufs, hsaved⟩

end Quiet

/-! ## The whole system -/

variable {A : Type} [DecidableEq A] {G : Geometry A} {n : Nat} {V : Type} {cfg : Config}
  {s s' : State G n V}

/-- The step takes no write-back request for modified data or for a line in an upgrade, and
no flush reply to an upgrade but the last; there is no NUCA cache. -/
def Saving (s : State G n V) : Event A n V → Prop
  | .fromCache ch c a msg => ch.nuca = none ∧ Collected (lineOf (view s.cntlr a) none) c msg
  | .fromDram ch _ _ => ch.nuca = none
  | .toCache c a msg => msg = .WB_REQ →
      (s.lines c a).cstate ≠ .MODIFIED ∧ (s.lines c a).cstate ≠ .SHARED_UPGRADING
  | _ => True

/-- The surroundings of a line. -/
def surroundings (s : State G n V) (a : A) : Env n V :=
  ⟨cells s a, lane a s.toDram, lane a s.fromDram, s.dram a, s.last a⟩

theorem collected_lineOf {v : LineView n V} {c : Fin n} {m : FromCache V}
    (h : Collected (lineOf v none) c m) (f : Option (Fin n)) : Collected (lineOf v f) c m := by
  intro d hm hup
  have hc := h d hm hup
  cases he : v.entry with
  | some e => simpa [lineOf, he] using hc
  | none => simp [lineOf, he, Entry.create]

theorem quiet_current {ev : Event A n V} (hs : Step cfg s ev s') (hq : ev.isQuiet)
    (hg : Saving s ev) {l : Line n V} {b : A}
    (hl : (headedDiscipline cfg).settled l (surroundings s b).line)
    (h : Current l none (surroundings s b)) : Current l none (surroundings s' b) := by
  cases hs with
  | @cache c a w line sent hs =>
    have hset := cells_setLine (s := s) c a b line sent
    by_cases hb : b = a
    · subst hb
      rw [if_pos rfl] at hset
      have hcell := h.cell hl (.act hs) fun hdn _ => absurd rfl hdn
      have henv : surroundings (s.act c b w line sent) b = { surroundings s b with
          cells := update (cells s b) c
            { cells s b c with line, up := (cells s b c).up ++ sent }
          last := w.getD (s.last b) } := by
        rw [← hset]
        simp only [surroundings, State.act, update_self]
        rfl
      rw [henv]
      exact hcell
    · rw [if_neg hb] at hset
      have henv : surroundings (s.act c a w line sent) b = surroundings s b := by
        simp only [surroundings, State.act, update_of_ne hb]
        rw [← hset]
        rfl
      rw [henv]
      exact h
  | @toCache c a msg rest line sent hc hp hs =>
    have hset := cells_receive hc b line sent
    have henv : surroundings { (s.setLine c a line).sendUp c a sent with
        toCache := update s.toCache c rest } b = { surroundings s b with
        cells := cells { (s.setLine c a line).sendUp c a sent with
          toCache := update s.toCache c rest } b } := rfl
    rw [henv, hset]
    by_cases hb : b = a
    · subst hb
      rw [if_pos rfl]
      have hdn : (cells s b c).dn = msg :: lane b rest := by
        show lane b (s.toCache c) = _
        rw [hc, lane_cons_self]
      refine h.cell hl (.receive hdn hs) fun _ hhead => hg ?_
      have hhead : (cells s b c).dn.head? = some .WB_REQ := hhead
      rw [hdn] at hhead
      exact Option.some.inj hhead
    · rw [if_neg hb]
      exact h
  | @toDram a req rest hd =>
    by_cases hb : b = a
    · subst hb
      have hlane : lane b s.toDram = req :: lane b rest := by rw [hd, lane_cons_self]
      cases req with
      | DRAM_READ_REQ =>
        simp only [surroundings, State.serveDram, lane_append, lane_cons_self, lane_nil]
        exact h.dramRead hlane
      | DRAM_WRITE_REQ d =>
        simp only [surroundings, State.serveDram, update_self]
        exact h.dramWrite hlane
    · have hlane : lane b s.toDram = lane b rest := by rw [hd, lane_cons_other (Ne.symm hb)]
      have henv : surroundings (State.serveDram { s with toDram := rest } a req) b =
          surroundings s b := by
        cases req with
        | DRAM_READ_REQ =>
          simp only [surroundings, State.serveDram, lane_append, lane_cons_other (Ne.symm hb),
            lane_nil, List.append_nil, hlane]
          rfl
        | DRAM_WRITE_REQ d =>
          simp only [surroundings, State.serveDram, update_of_ne hb, hlane]
          rfl
      rw [henv]
      exact h
  | fromCache | fromDram => cases hq

/-- The discipline of the data in the system: saving steps are good. -/
def savedEmbedding (cfg : Config) : Embedding G (savedDiscipline (n := n) (V := V) cfg) where
  env := surroundings
  good := Saving
  dispatch s cntlr sent a := by
    show surroundings _ a = Env.emit _ _
    simp only [surroundings, Env.emit, cells_dispatch]
    simp only [State.dispatch, lane_append, lane_filterMap]
  popped hc := by
    obtain ⟨hu, htake, hothers⟩ := popped_cells hc
    refine ⟨⟨_, hu, ?_⟩, fun b hb => ?_⟩
    · simp only [surroundings, Env.pop, htake]
    · simp only [surroundings, hothers b hb]
      rfl
  answered {s a d rest} hd := by
    refine ⟨⟨lane a rest, ?_, rfl⟩, fun b hb => ?_⟩
    · show lane a s.fromDram = _
      rw [hd, lane_cons_self]
    · simp only [surroundings, hd, lane_cons_other (Ne.symm hb)]
      rfl
  chooses_fromCache hg := hg.1
  chooses_fromDram hg := hg
  admits hg f := collected_lineOf hg.2 f
  quiet hs hq hg h b := by
    obtain ⟨hl, hcur⟩ := h b
    exact ⟨(headedEmbedding cfg).quiet hs hq trivial (fun a => (h a).1) b,
      quiet_current hs hq hg hl hcur⟩

/-- The states of the runs whose steps are saving. -/
abbrev SavingRuns (cfg : Config) : State G n V → Prop :=
  Reachable Init fun s s' => ∃ ev, Saving s ev ∧ Step cfg s ev s'

theorem init_saved (h : Init s) : (savedEmbedding cfg).Holds s := by
  have hheaded : (headedEmbedding cfg).Holds s := init_headed h
  refine ⟨hheaded.sound, fun a => ⟨hheaded.line a, ?_⟩⟩
  have henv : surroundings s a = ⟨fun c => ⟨s.lines c a, [], []⟩, [], [], s.dram a, s.dram a⟩ := by
    simp only [surroundings, show cells s a = fun c => ⟨s.lines c a, [], []⟩ from
      funext (init_cells h a), h.toDram, h.fromDram, h.last, lane_nil]
  show Current _ none (surroundings s a)
  rw [henv, h.directory.view a]
  refine ⟨fun c => ⟨fun hs => absurd (h.lines c a).1 hs, nofun, nofun⟩, trivial, nofun, nofun,
    provided_none _, nofun, .inl rfl⟩

theorem saving_holds (h : SavingRuns cfg s) : (savedEmbedding cfg).Holds s :=
  Embedding.Holds.reachable (fun _ => init_saved) (fun _ ht a => served_view (ht.line a).1.1) h

/-- No message about the line is in flight. -/
structure Silent (s : State G n V) (a : A) : Prop where
  fromCache : ∀ c, lane a (s.fromCache c) = []
  toCache : ∀ c, lane a (s.toCache c) = []
  toDram : lane a s.toDram = []
  fromDram : lane a s.fromDram = []

/-- Every fill is current, and DRAM holds the last store to a line that nobody else has. -/
structure NothingLost (s : State G n V) : Prop where
  fills : ∀ c a d, (a, .SH_REP d) ∈ s.toCache c ∨ (a, .EX_REP d) ∈ s.toCache c → d = s.last a
  saved : ∀ a, (∀ c, (s.lines c a).cstate = .INVALID) → Silent s a → s.dram a = s.last a

/-- **A run whose steps are saving loses nothing.** -/
theorem nothing_lost (h : SavingRuns cfg s) : NothingLost s := by
  have hcur : ∀ a, Current _ none (surroundings s a) := fun a => ((saving_holds h).line a).2
  refine ⟨fun c a d hd => ?_, fun a hs hq => ?_⟩
  · rcases hd with hd | hd
    all_goals exact ((hcur a).loyal c).fills _ (mem_lane hd) d rfl
  · rcases (hcur a).saved_or with hsaved | ⟨c, hun⟩
    · have hsaved : afterWrites (s.dram a) (lane a s.toDram) = s.last a := hsaved
      rwa [hq.toDram] at hsaved
    · exfalso
      rcases hun with hm | hf | ⟨-, he | hx⟩
      · have hm : (s.lines c a).cstate = .MODIFIED := hm
        rw [hs c] at hm
        cases hm
      · have hf : 0 < (lane a (s.fromCache c)).countP isFlushRep := hf
        rw [hq.fromCache c] at hf
        cases hf
      · have he : (s.lines c a).cstate = .EXCLUSIVE := he
        rw [hs c] at he
        cases he
      · have hx : 0 < (lane a (s.toCache c)).countP isExRep := hx
        rw [hq.toCache c] at hx
        cases hx

theorem saving_move [Fintype A] {m} (h : SavingRuns cfg s) (hm : s.move cfg m = some s')
    (hn : ∀ ch ∈ m.choice?, ch.nuca = none) (hwb : ∀ c, ∀ p ∈ (s.toCache c).head?, p.2 ≠ .WB_REQ)
    (hup : ∀ a, ∀ r ∈ (s.cntlr.queues a).head?, r.msgType ≠ .UPGRADE_REQ) :
    SavingRuns cfg s' := by
  obtain ⟨ev, hst, hch⟩ := move_step hm
  rw [← hch] at hn
  refine h.step ⟨ev, ?_, hst⟩
  cases hst with
  | @fromCache ch c a msg rest cntlr sent hc hs =>
    exact ⟨hn ch rfl, fun _ _ ⟨r, hr, ht⟩ => absurd ht (hup a r hr)⟩
  | @toCache c a msg rest line sent hc hp hs =>
    exact fun hmsg => absurd hmsg (hwb c (a, msg) (by rw [hc]; rfl))
  | @fromDram ch a d rest cntlr sent hd hs => exact hn ch rfl
  | cache | toDram => trivial

/-! ## Two caches -/

/-- The first cache writes the line and evicts it. -/
theorem nothing_lost_evicted : ∃ s : State oneLine 2 Nat, SavingRuns mesi s ∧ NothingLost s ∧
    s.last () = 7 ∧ s.dram () = 7 := by
  have h₀ : SavingRuns mesi (start 2 5) := .init (start_init 2 5)
  have h₁ := saving_move h₀ (m := .access 0 () true) rfl nofun (by decide) (by decide)
  have h₂ := saving_move h₁ (m := .fromCache choice 0) rfl (by decide) (by decide) (by decide)
  have h₃ := saving_move h₂ (m := .toDram) rfl nofun (by decide) (by decide)
  have h₄ := saving_move h₃ (m := .fromDram choice) rfl (by decide) (by decide) (by decide)
  have h₅ := saving_move h₄ (m := .toCache 0 0) rfl nofun (by decide) (by decide)
  have h₆ := saving_move h₅ (m := .wake 0 ()) rfl nofun (by decide) (by decide)
  have h₇ := saving_move h₆ (m := .wake 0 ()) rfl nofun (by decide) (by decide)
  have h₈ := saving_move h₇ (m := .wake 0 ()) rfl nofun (by decide) (by decide)
  have h₉ := saving_move h₈ (m := .store 0 () 7) rfl nofun (by decide) (by decide)
  have h₁₀ := saving_move h₉ (m := .evict 0 ()) rfl nofun (by decide) (by decide)
  have h₁₁ := saving_move h₁₀ (m := .fromCache choice 0) rfl (by decide) (by decide) (by decide)
  have h₁₂ := saving_move h₁₁ (m := .toDram) rfl nofun (by decide) (by decide)
  have hlost := nothing_lost h₁₂
  exact ⟨_, h₁₂, hlost, rfl, hlost.saved () (by decide) ⟨by decide, by decide, rfl, rfl⟩⟩

open scoped Lib.Sizes

/-- The first cache writes the line, the second one reads it, and both evict it. -/
def readModified : List (Move Unit 2 Nat) :=
  [.access 0 () true, .fromCache choice 0, .toDram, .fromDram choice, .toCache 0 0, .wake 0 (),
    .wake 0 (), .wake 0 (), .store 0 () 7, .access 1 () false, .fromCache choice 1, .toCache 0 0,
    .fromCache choice 0, .toCache 1 0, .wake 1 (), .wake 1 (), .wake 1 (), .evict 0 (),
    .evict 1 (), .fromCache choice 0, .fromCache choice 1]

theorem readModified_moves : ∃ s, (start 2 5).moves mesi readModified = some s ∧
    (∀ c, (s.lines c ()).cstate = .INVALID) ∧ Silent s () ∧ s.dram () = 5 ∧ s.last () = 7 :=
  ⟨_, rfl, by decide, ⟨by decide, by decide, rfl, rfl⟩, rfl, rfl⟩

/-- DRAM keeps the old value. -/
theorem readModified_lost : ∃ s : State oneLine 2 Nat, Runs mesi s ∧
    (start 2 5).moves mesi readModified = some s ∧ ¬ NothingLost s := by
  obtain ⟨s, hm, hs, hq, hdram, hlast⟩ := readModified_moves
  refine ⟨s, moves_runs (.init (start_init 2 5)) hm, hm, fun h => ?_⟩
  have hsame := h.saved () hs hq
  rw [hdram, hlast] at hsame
  cases hsame

end Sniper.Protocol.CurrentData
