import Sniper.Protocol.Coherence
import Sniper.Protocol.Totality

/-! # The assertions of the protocol

Which runs of the whole system can fail an assertion: those in which the invalidate reply of
one sharer is taken for the reply of another that the directory asked to make room.
-/
namespace Sniper.Protocol.CacheInvariant
open Protocol.LastLevelCache

variable {V : Type} {x : Cell V}

/-! ## The caches -/

theorem Fits.access_total {k} (h : Fits k x) (hp : x.line.phase ≠ .loop) (exclusive : Bool) :
    ∃ p, processShmemReqFromPrevCache x.line exclusive = .ok p := by
  unfold processShmemReqFromPrevCache
  split
  · exact ⟨_, rfl⟩
  · rename_i hnot
    split
    · exact ⟨_, rfl⟩
    · rename_i hex
      suffices hi : ∃ p, initiateDirectoryAccess x.line exclusive = .ok p by
        obtain ⟨p, hi⟩ := hi
        exact ⟨_, by rw [hi]; rfl⟩
      unfold initiateDirectoryAccess
      dsimp only
      split
      · rename_i hlen
        have hw : x.line.waiters = [] := by simpa using hlen
        split
        · rename_i he
          split
          · rename_i hs
            exact ⟨_, if_pos hs⟩
          · rename_i hs
            split
            · exact ⟨_, rfl⟩
            · rename_i hinv
              -- a line that is being upgraded has a waiter
              have hidle := phase_idle h.served hp hw
              obtain ⟨-, hu, hr, -, hur⟩ :=
                h.idle (by simp [Cell.tally, hw]) (by simp [Cell.tally, hidle])
              have hup := h.upgrading
              have howned := h.owned
              simp only [operationPermissibleinCache, he, if_true] at hnot
              cases hc : x.line.cstate with
              | SHARED_UPGRADING =>
                rcases hup hc with hpos | hmem | hpos
                · omega
                · rw [hr] at hmem
                  cases hmem
                · omega
              | OWNED => exact absurd hc howned
              | INVALID => exact absurd hc hinv
              | SHARED => exact absurd hc hs
              | EXCLUSIVE => exact absurd hc hex
              | MODIFIED => simp [hc] at hnot
        · exact ⟨_, rfl⟩
      · exact ⟨_, rfl⟩

theorem Headed.wake_total {k} (h : Headed k x) (hp : x.line.phase ≠ .idle) :
    ∃ p, wake x.line = .ok p := by
  unfold wake
  cases hphase : x.line.phase with
  | idle => exact absurd hphase hp
  | served => exact ⟨_, rfl⟩
  | loop =>
    cases hw : x.line.waiters with
    | nil => exact ⟨_, rfl⟩
    | cons exclusive rest =>
      dsimp only
      split
      · rename_i hc
        exact ⟨_, if_pos hc.2⟩
      · rename_i hc
        unfold processShmemReqFromPrevCache
        split
        · exact ⟨_, rfl⟩
        · rename_i hnot
          split
          · exact ⟨_, rfl⟩
          · rename_i hex
            rcases h.awake hp with hs | hs | hs
            · cases exclusive with
              | true => exact absurd ⟨rfl, hs⟩ hc
              | false => simp [operationPermissibleinCache, readable, hs] at hnot
            · exact absurd hs hex
            · cases exclusive <;> simp [operationPermissibleinCache, readable, hs] at hnot

theorem Fits.waiting_of_reply {k} (h : Fits k x) (hp : x.line.phase = .idle)
    (hpos : 0 < x.tally.fills ∨ 0 < x.tally.upgradeReps) : x.line.waiters ≠ [] := by
  intro hw
  obtain ⟨-, -, -, hf, hu⟩ := h.idle (by simp [Cell.tally, hw]) (by simp [Cell.tally, hp])
  omega

theorem Recalled.receive_total {k} (h : Recalled k x) (hf : Fits k.toSeen x) {m rest}
    (hd : x.dn = m :: rest) (hp : x.line.phase = .idle) (dataBuf : V) :
    ∃ p, handleMsgFromDramDirectory dataBuf x.line m = .ok p := by
  have hinvalid : isFill m = true → x.line.waiters ≠ [] ∧ x.line.cstate = .INVALID := by
    intro hm
    have hpos : 0 < x.tally.fills := by simp [Cell.tally, hd, hm]
    refine ⟨hf.waiting_of_reply hp (.inl hpos), ?_⟩
    by_contra hs
    have := (hf.valid hs).1
    omega
  cases m with
  | EX_REP d | SH_REP d =>
    obtain ⟨hw, hs⟩ := hinvalid rfl
    simp only [handleMsgFromDramDirectory, if_neg hw]
    exact ⟨_, if_pos hs⟩
  | UPGRADE_REP =>
    have hpos : 0 < x.tally.upgradeReps := by simp [Cell.tally, hd, isUpgradeRep]
    have hs : x.line.cstate = .SHARED_UPGRADING := h.upgradeRep hpos
    simp only [handleMsgFromDramDirectory, if_neg (hf.waiting_of_reply hp (.inr hpos)),
      processUpgradeRepFromDramDirectory, hs]
    exact ⟨_, rfl⟩
  | INV_REQ =>
    simp only [handleMsgFromDramDirectory, processInvReqFromDramDirectory]
    cases hc : x.line.cstate with
    | MODIFIED =>
      -- an owner is never asked for a shared copy
      have hrec := h.recalled (by simp [Cell.tally, Cell.live, live_valid, hc, hd, isInvReq])
      have hexcl := hf.excl (.inr (.inl hc))
      rw [k.recallShared hrec] at hexcl
      cases hexcl
    | INVALID | SHARED | SHARED_UPGRADING | EXCLUSIVE | OWNED => exact ⟨_, rfl⟩
  | FLUSH_REQ =>
    simp only [handleMsgFromDramDirectory, processFlushReqFromDramDirectory]
    cases x.line.cstate <;> exact ⟨_, rfl⟩
  | WB_REQ =>
    simp only [handleMsgFromDramDirectory, processWbReqFromDramDirectory]
    cases x.line.cstate <;> exact ⟨_, rfl⟩

end Sniper.Protocol.CacheInvariant

namespace Sniper.Protocol.Assertions
open Directory.DirectoryEntry Directory.SetArray
open Directory.Handlers Directory.Refinement Protocol.LastLevelCache
open Protocol.CacheInvariant Protocol.LineInvariant
open Protocol.System Protocol.Coherence Lib.Channel Lib.Simulation

variable {A : Type} [DecidableEq A] {G : Geometry A} {n : Nat} {V : Type} {cfg : Config}
  {s s' : State G n V}

/-- No handler fails on its next message, and no access or waking fails. A line that the
directory has no room for, or that it is nullifying, is left out. -/
structure NoAssertion (cfg : Config) (s : State G n V) : Prop where
  access : ∀ c a exclusive, (s.lines c a).phase ≠ .loop →
    ∃ p, processShmemReqFromPrevCache (s.lines c a) exclusive = .ok p
  wake : ∀ c a, (s.lines c a).phase ≠ .idle → ∃ p, wake (s.lines c a) = .ok p
  toCache : ∀ c a msg rest, s.toCache c = (a, msg) :: rest →
    (∀ b, (s.lines c b).phase = .idle) →
    ∀ dataBuf, ∃ p, handleMsgFromDramDirectory dataBuf (s.lines c a) msg = .ok p
  fromCache : ∀ c a msg rest, s.fromCache c = (a, msg) :: rest → ¬ NoRoom s.cntlr a →
    ∀ ch, ∃ p, s.cntlr.handleMsgFromL2Cache cfg ch c a msg = .ok p
  fromDram : ∀ a d rest, s.fromDram = (a, d) :: rest → ¬ NoRoom s.cntlr a →
    ∀ ch, ∃ p, s.cntlr.handleMsgFromDRAM cfg ch a d = .ok p

/-- The step does not take the invalidate reply of one sharer for that of another. -/
def Careful (s : State G n V) : Event A n V → Prop
  | .fromCache _ c a msg => Unmistaken (lineOf (view s.cntlr a) none) (cells s a) c msg
  | _ => True

/-! ## The discipline in the system -/

theorem unmistaken_lineOf {v : LineView n V} {x : Fin n → Cell V} {c : Fin n} {m : FromCache V}
    (h : Unmistaken (lineOf v none) x c m) (f : Option (Fin n)) :
    Unmistaken (lineOf v f) x c m := by
  intro hm hroom
  refine h hm ?_
  cases he : v.entry with
  | some e => simpa [makesRoom, lineOf, he] using hroom
  | none => simp [makesRoom, lineOf, he, Entry.create] at hroom

/-- The discipline of the first waiters in the system: every step is good. -/
def headedEmbedding (cfg : Config) : Embedding G (headedDiscipline (n := n) (V := V) cfg) where
  env := (lineEmbedding cfg).env
  good _ _ := True
  dispatch := (lineEmbedding cfg).dispatch
  popped := (lineEmbedding cfg).popped
  answered := (lineEmbedding cfg).answered
  chooses_fromCache _ := trivial
  chooses_fromDram _ := trivial
  admits _ _ := trivial
  quiet hs hq _ h b := by
    obtain ⟨hline, hhead⟩ := h b
    refine ⟨(lineEmbedding cfg).quiet hs hq trivial (fun a => (h a).1) b, ?_⟩
    obtain ⟨-, hcells⟩ := quiet_cells hs hq b
    show HeadedAll true _ (cells _ b)
    rcases hcells with hcells | ⟨c, w, y, hy, hcells⟩
    · rw [hcells]
      exact hhead
    · rw [hcells]
      exact hhead.cell hline.fits hy

/-- The discipline of the recalled copies in the system: careful steps are good. -/
def recallEmbedding (cfg : Config) : Embedding G (recallDiscipline (n := n) (V := V) cfg) where
  env := (lineEmbedding cfg).env
  good := Careful
  dispatch := (lineEmbedding cfg).dispatch
  popped := (lineEmbedding cfg).popped
  answered := (lineEmbedding cfg).answered
  chooses_fromCache _ := trivial
  chooses_fromDram _ := trivial
  admits hg f := unmistaken_lineOf hg f
  quiet hs hq _ h b := by
    obtain ⟨⟨hline, hhead⟩, hrec⟩ := h b
    refine ⟨(headedEmbedding cfg).quiet hs hq trivial (fun a => (h a).1) b, ?_⟩
    obtain ⟨-, hcells⟩ := quiet_cells hs hq b
    show RecalledAll true _ (cells _ b)
    rcases hcells with hcells | ⟨c, w, y, hy, hcells⟩
    · rw [hcells]
      exact hrec
    · rw [hcells]
      exact hrec.cell hhead hline.fits hy

/-- The states of the runs whose steps are careful. -/
abbrev CarefulRuns (cfg : Config) : State G n V → Prop :=
  Reachable Init fun s s' => ∃ ev, Careful s ev ∧ Step cfg s ev s'

theorem careful_runs (h : CarefulRuns cfg s) : Runs cfg s :=
  h.mono fun _ _ ⟨ev, _, hst⟩ => ⟨ev, hst⟩

theorem init_cells (h : Init s) (a : A) (c : Fin n) : cells s a c = ⟨s.lines c a, [], []⟩ := by
  simp [cells, h.fromCache, h.toCache]

theorem init_headed (h : Init s) : (headedEmbedding cfg).Holds s := by
  have hinv : Inv cfg s := init_inv h
  refine ⟨hinv.sound, fun a => ⟨hinv.line a, fun c => ?_⟩⟩
  obtain ⟨hs, hw, hp⟩ := h.lines c a
  show Headed (watched true _ c) (cells s a c)
  rw [h.directory.view a, init_cells h a c]
  constructor <;> simp [Cell.WantsExclusive, hs, hp, watched, seen, lineOf, Entry.create,
    requestsOf]

theorem init_recalled (h : Init s) : (recallEmbedding cfg).Holds s := by
  have hheaded : (headedEmbedding cfg).Holds s := init_headed h
  refine ⟨hheaded.sound, fun a => ⟨hheaded.line a, fun c => ?_⟩⟩
  obtain ⟨hs, hw, hp⟩ := h.lines c a
  have hlive : Cell.live ⟨s.lines c a, [], []⟩ = [] := by simp [Cell.live, live]
  show Recalled (watched true _ c) (cells s a c)
  rw [h.directory.view a, init_cells h a c]
  refine ⟨?_, by rw [hlive]; exact .nil, fun _ => .nil⟩
  constructor <;> simp [Cell.tally, hlive, hs, watched, seen, lineOf, Entry.create, owns]

theorem careful_holds (h : CarefulRuns cfg s) : (recallEmbedding cfg).Holds s :=
  Embedding.Holds.reachable (fun _ => init_recalled)
    (fun _ ht a => served_view (ht.line a).1.1) h

/-! ## No assertion fails -/

/-- **A careful run fails no assertion.** -/
theorem no_assertion (hcfg : Spacious cfg) (h : CarefulRuns cfg s) : NoAssertion cfg s := by
  have hhold := careful_holds h
  have hinv := runs_inv (careful_runs h)
  have hfits : ∀ c a, Fits (seen true _ c) (cells s a c) := fun c a => (hinv.line a).fits c
  refine ⟨fun c a exclusive hp => ?_, fun c a hp => ?_, fun c a msg rest hc hp dataBuf => ?_,
    fun c a msg rest hc hroom ch => ?_, fun a d rest hd hroom ch => ?_⟩
  · exact (hfits c a).access_total (x := cells s a c) hp exclusive
  · exact ((hhold.line a).1.2 c).wake_total (x := cells s a c) hp
  · have hdn : (cells s a c).dn = msg :: lane a rest := by
      show lane a (s.toCache c) = _
      rw [hc, lane_cons_self]
    exact ((hhold.line a).2 c).receive_total (hfits c a) hdn (hp a) dataBuf
  · obtain ⟨fresh, href⟩ := handleMsgFromL2Cache_refines hhold.sound cfg ch c (hinv.served a) msg
    obtain ⟨hup, -, -⟩ := popped_cells hc
    obtain ⟨p, hp⟩ : ∃ p, (view s.cntlr a).handleMsgFromL2Cache cfg ch fresh c msg = .ok p :=
      handleMsgFromL2Cache_total hcfg (hhold.line a) hup fun hn => hroom (.inr hn)
    obtain ⟨p', hp', -⟩ := href.of_spec_ok hp hroom
    exact ⟨p', hp'⟩
  · obtain ⟨fresh, href⟩ := handleMsgFromDRAM_refines hhold.sound cfg ch a d
    obtain ⟨hreads, -⟩ := answered_reads hd
    obtain ⟨p, hp⟩ : ∃ p, (view s.cntlr a).handleMsgFromDRAM cfg ch fresh d = .ok p :=
      handleMsgFromDRAM_total hcfg (hhold.line a).1.1 (show 0 < reads s a by omega) d
        fun hn => hroom (.inr hn)
    obtain ⟨p', hp', -⟩ := href.of_spec_ok hp hroom
    exact ⟨p', hp'⟩

theorem careful_move [Fintype A] {m} (h : CarefulRuns cfg s) (hm : s.move cfg m = some s')
    (hno : ∀ c, ∀ p ∈ (s.fromCache c).head?, p.2 ≠ .INV_REP) :
    CarefulRuns cfg s' := by
  obtain ⟨ev, hst, -⟩ := move_step hm
  refine h.step ⟨ev, ?_, hst⟩
  cases hst with
  | @fromCache ch c a msg rest cntlr sent hc hs =>
    exact fun hmsg => absurd hmsg (hno c (a, msg) (by rw [hc]; rfl))
  | cache | toCache | toDram | fromDram => trivial

/-- A line is read from DRAM. -/
theorem no_assertion_read : ∃ s : State oneLine 2 Nat, NoAssertion mesi s ∧
    s.toDram = [((), .DRAM_READ_REQ)] := by
  have h₀ : CarefulRuns mesi (start 2 5) := .init (start_init 2 5)
  have h₁ := careful_move h₀ (m := .access 0 () false) rfl (by decide)
  have h₂ := careful_move h₁ (m := .fromCache choice 0) rfl (by decide)
  exact ⟨_, no_assertion nofun h₂, rfl⟩

/-! ## A stale request for room -/

/-- Room for two sharers. -/
def limited : Config := ⟨.LIMITED_NO_BROADCAST, 2, .MSI⟩

/-- A cache reads the line, and the directory waits for nobody. -/
def readLine (c : Fin 3) : List (Move Unit 3 Nat) :=
  [.access c () false, .fromCache choice c, .toDram, .fromDram choice, .toCache c 0, .wake c (),
    .wake c (), .wake c ()]

open scoped Lib.Sizes

/-- The second cache takes a request to make room only when it has upgraded. -/
def staleRoom : List (Move Unit 3 Nat) :=
  readLine 0 ++ readLine 1 ++
    [.access 2 () false, .fromCache ⟨1, none, none, 0⟩ 2, .evict 0 (), .fromCache choice 0,
      .toDram, .fromDram choice, .toCache 2 0, .wake 2 (), .wake 2 (), .wake 2 (), .evict 2 (),
      .fromCache choice 2, .access 1 () true, .fromCache choice 1, .toCache 1 0]

theorem staleRoom_moves : ∃ s, (start 3 5).moves limited staleRoom = some s ∧
    s.toCache 1 = [((), .UPGRADE_REP)] ∧ (s.lines 1 ()).cstate = .INVALID ∧
    (s.lines 1 ()).waiters = [true] ∧ ∀ b, (s.lines 1 b).phase = .idle :=
  ⟨_, rfl, rfl, rfl, rfl, by decide⟩

/-- The reply to the upgrade finds no line. -/
theorem no_assertion_fails : ∃ s : State oneLine 3 Nat, Runs limited s ∧ ¬ NoAssertion limited s := by
  obtain ⟨s, hm, hdn, hs, hw, hp⟩ := staleRoom_moves
  refine ⟨s, moves_runs (.init (start_init 3 5)) hm, fun hno => ?_⟩
  obtain ⟨p, hp⟩ := hno.toCache 1 () .UPGRADE_REP [] hdn hp 0
  simp [handleMsgFromDramDirectory, processUpgradeRepFromDramDirectory, hw, hs] at hp

end Sniper.Protocol.Assertions
