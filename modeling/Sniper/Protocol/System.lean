import Sniper.Protocol.LineHandlers
import Sniper.Directory.EntryLifetime

/-! # Caches, directory and DRAM

Any number of last-level caches, one home directory and DRAM, with a first-in first-out
channel from each to each. A step is one of a cache on its own, or takes the first message
of a channel. A failed assertion ends the run: there is no step.
-/
namespace Sniper.Protocol.System
open Directory.DirectoryEntry Directory.SetArray Directory.Handlers Function
open Directory.Controller Directory.Refinement Protocol.LastLevelCache
open Protocol.CacheInvariant Protocol.LineInvariant Lib.Channel
open Lib.Simulation Directory Protocol.Handling

inductive DramReq (V : Type) where
  | DRAM_READ_REQ
  | DRAM_WRITE_REQ (data : V)

/-- The system. Nothing reads `last`: it is the value of the last store to each line. -/
structure State {A : Type} (G : Geometry A) (n : Nat) (V : Type) where
  cntlr : Cntlr G n V
  lines : Fin n → A → CacheLine V
  fromCache : Fin n → List (A × FromCache V)
  toCache : Fin n → List (A × ToCache V)
  toDram : List (A × DramReq V)
  fromDram : List (A × V)
  dram : A → V
  last : A → V

variable {A : Type} [DecidableEq A] {G : Geometry A} {n : Nat} {V : Type}

/-- The message to DRAM, if it is one. -/
def forDram : Send n V → Option (DramReq V)
  | .DRAM_READ_REQ => some .DRAM_READ_REQ
  | .DRAM_WRITE_REQ d => some (.DRAM_WRITE_REQ d)
  | _ => none

namespace State

def setLine (s : State G n V) (c : Fin n) (a : A) (line : CacheLine V) : State G n V :=
  { s with lines := update s.lines c (update (s.lines c) a line) }

/-- The cache `c` sends messages about the line `a`. -/
def sendUp (s : State G n V) (c : Fin n) (a : A) (sent : List (FromCache V)) : State G n V :=
  { s with
    fromCache := update s.fromCache c (s.fromCache c ++ sent.map (a, ·)) }

/-- A step of the cache `c` on the line `a`, with the value it stores. -/
def act (s : State G n V) (c : Fin n) (a : A) (w : Option V) (line : CacheLine V)
    (sent : List (FromCache V)) : State G n V :=
  { (s.setLine c a line).sendUp c a sent with
    last := update s.last a (w.getD (s.last a)) }

/-- The directory has handled a message and sends its own. -/
def dispatch (s : State G n V) (cntlr : Cntlr G n V) (sent : Sends A n V) : State G n V :=
  { s with
    cntlr
    toCache := fun c => s.toCache c ++ sent.filterMap fun p => (forCache c p.2).map (p.1, ·)
    toDram := s.toDram ++ sent.filterMap fun p => (forDram p.2).map (p.1, ·) }

/-- DRAM answers a read with what it holds. -/
def serveDram (s : State G n V) (a : A) : DramReq V → State G n V
  | .DRAM_READ_REQ => { s with fromDram := s.fromDram ++ [(a, s.dram a)] }
  | .DRAM_WRITE_REQ d => { s with dram := update s.dram a d }

end State

/-- What happens in a step. -/
inductive Event (A : Type) (n : Nat) (V : Type) where
  | cache (c : Fin n) (a : A)
  | toCache (c : Fin n) (a : A) (msg : ToCache V)
  | fromCache (ch : Choice n V) (c : Fin n) (a : A) (msg : FromCache V)
  | toDram
  | fromDram (ch : Choice n V) (a : A) (data : V)

inductive Step (cfg : Config) (s : State G n V) : Event A n V → State G n V → Prop
  | cache {c a w line sent} (h : LastLevelCache.Step (s.lines c a) none w line sent) :
      Step cfg s (.cache c a) (s.act c a w line sent)
  | toCache {c a msg rest line sent} (hc : s.toCache c = (a, msg) :: rest)
      (hp : ∀ b, (s.lines c b).phase = .idle)
      (h : LastLevelCache.Step (s.lines c a) (some msg) none line sent) :
      Step cfg s (.toCache c a msg) { (s.setLine c a line).sendUp c a sent with
        toCache := update s.toCache c rest }
  | fromCache {ch c a msg rest cntlr sent} (hc : s.fromCache c = (a, msg) :: rest)
      (h : s.cntlr.handleMsgFromL2Cache cfg ch c a msg = .ok (cntlr, sent)) :
      Step cfg s (.fromCache ch c a msg) (State.dispatch
        { s with fromCache := update s.fromCache c rest } cntlr sent)
  | toDram {a req rest} (hd : s.toDram = (a, req) :: rest) :
      Step cfg s .toDram (State.serveDram { s with toDram := rest } a req)
  | fromDram {ch a d rest cntlr sent} (hd : s.fromDram = (a, d) :: rest)
      (h : s.cntlr.handleMsgFromDRAM cfg ch a d = .ok (cntlr, sent)) :
      Step cfg s (.fromDram ch a d) (State.dispatch { s with fromDram := rest } cntlr sent)

/-- Empty caches and channels, and a directory without entries. -/
structure Init (s : State G n V) : Prop where
  directory : EntryLifetime.Init s.cntlr
  lines : ∀ c a, (s.lines c a).cstate = .INVALID ∧ (s.lines c a).waiters = [] ∧
    (s.lines c a).phase = .idle
  fromCache : ∀ c, s.fromCache c = []
  toCache : ∀ c, s.toCache c = []
  toDram : s.toDram = []
  fromDram : s.fromDram = []
  last : s.last = s.dram

/-- The states of all runs. -/
abbrev Runs (cfg : Config) : State G n V → Prop :=
  Reachable Init fun s s' => ∃ ev, Step cfg s ev s'

/-! ## Executing a run -/

/-- A step, with what the environment chooses. -/
inductive Move (A : Type) (n : Nat) (V : Type) where
  | access (c : Fin n) (a : A) (exclusive : Bool)
  | store (c : Fin n) (a : A) (v : V)
  | evict (c : Fin n) (a : A)
  | wake (c : Fin n) (a : A)
  | toCache (c : Fin n) (dataBuf : V)
  | fromCache (ch : Choice n V) (c : Fin n)
  | toDram
  | fromDram (ch : Choice n V)

/-- What the directory does not decide itself in the step. -/
def Event.choice? : Event A n V → Option (Choice n V)
  | .fromCache ch .. | .fromDram ch .. => some ch
  | _ => none

def Move.choice? : Move A n V → Option (Choice n V)
  | .fromCache ch _ | .fromDram ch => some ch
  | _ => none

namespace State

/-- The state after a move, if it is one. -/
def move [Fintype A] (cfg : Config) (s : State G n V) : Move A n V → Option (State G n V)
  | .access c a exclusive =>
    if (s.lines c a).phase = .loop then none
    else match processShmemReqFromPrevCache (s.lines c a) exclusive with
      | .ok (_, line, sent) => some (s.act c a none line sent)
      | .error _ => none
  | .store c a v =>
    if (s.lines c a).cstate = .MODIFIED then
      some (s.act c a (some v) { s.lines c a with data := v } [])
    else none
  | .evict c a =>
    if (s.lines c a).phase = .idle then
      (evict (s.lines c a)).map fun p => s.act c a none p.1 [p.2]
    else none
  | .wake c a =>
    match wake (s.lines c a) with
    | .ok (line, sent) => some (s.act c a none line sent)
    | .error _ => none
  | .toCache c dataBuf =>
    match s.toCache c with
    | [] => none
    | (a, msg) :: rest =>
      if ∀ b, (s.lines c b).phase = .idle then
        match handleMsgFromDramDirectory dataBuf (s.lines c a) msg with
        | .ok (line, sent) => some { (s.setLine c a line).sendUp c a sent with
            toCache := update s.toCache c rest }
        | .error _ => none
      else none
  | .fromCache ch c =>
    match s.fromCache c with
    | [] => none
    | (a, msg) :: rest =>
      match s.cntlr.handleMsgFromL2Cache cfg ch c a msg with
      | .ok (cntlr, sent) => some (State.dispatch
          { s with fromCache := update s.fromCache c rest } cntlr sent)
      | .error _ => none
  | .toDram =>
    match s.toDram with
    | [] => none
    | (a, req) :: rest => some (State.serveDram { s with toDram := rest } a req)
  | .fromDram ch =>
    match s.fromDram with
    | [] => none
    | (a, d) :: rest =>
      match s.cntlr.handleMsgFromDRAM cfg ch a d with
      | .ok (cntlr, sent) => some (State.dispatch { s with fromDram := rest } cntlr sent)
      | .error _ => none

def moves [Fintype A] (cfg : Config) (s : State G n V) : List (Move A n V) → Option (State G n V)
  | [] => some s
  | m :: ms => (s.move cfg m).bind (moves cfg · ms)

end State

section Moves
variable [Fintype A] {cfg : Config} {s s' : State G n V}

theorem move_step {m} (h : s.move cfg m = some s') : 
    ∃ ev, Step cfg s ev s' ∧ ev.choice? = m.choice? := by
  unfold State.move at h
  split at h
  · split at h
    · cases h
    · rename_i hp
      split at h
      · rename_i hacc
        cases h
        exact ⟨_, .cache (.access hp hacc), rfl⟩
      · cases h
  · split at h
    · rename_i hm
      cases h
      exact ⟨_, .cache (.store _ hm), rfl⟩
    · cases h
  · split at h
    · rename_i hp
      obtain ⟨p, he, rfl⟩ := Option.map_eq_some_iff.mp h
      exact ⟨_, .cache (.evict hp he), rfl⟩
    · cases h
  · split at h
    · rename_i hw
      cases h
      exact ⟨_, .cache (.wake hw), rfl⟩
    · cases h
  · split at h
    · cases h
    · rename_i hc
      split at h
      · rename_i hp
        split at h
        · rename_i hr
          cases h
          exact ⟨_, .toCache hc hp (.receive _ (hp _) hr), rfl⟩
        · cases h
      · cases h
  · split at h
    · cases h
    · rename_i hc
      split at h
      · rename_i hr
        cases h
        exact ⟨_, .fromCache hc hr, rfl⟩
      · cases h
  · split at h
    · cases h
    · rename_i hd
      cases h
      exact ⟨_, .toDram hd, rfl⟩
  · split at h
    · cases h
    · rename_i hd
      split at h
      · rename_i hr
        cases h
        exact ⟨_, .fromDram hd hr, rfl⟩
      · cases h

theorem moves_runs {ms} : ∀ {s s' : State G n V}, Runs cfg s →
    s.moves cfg ms = some s' → Runs cfg s' := by
  induction ms with
  | nil => intro s s' h hm; cases hm; exact h
  | cons m ms ih =>
    intro s s' h hm
    obtain ⟨t, ht, hm⟩ := Option.bind_eq_some_iff.mp hm
    obtain ⟨ev, hst, -⟩ := move_step ht
    exact ih (.step h ⟨ev, hst⟩) hm

end Moves

/-! ## One line of the system -/

/-- The caches and channels of a line. -/
def cells (s : State G n V) (a : A) (c : Fin n) : Cell V :=
  ⟨s.lines c a, lane a (s.fromCache c), lane a (s.toCache c)⟩

def isReadReq : DramReq V → Bool
  | .DRAM_READ_REQ => true
  | _ => false

/-- The reads of a line that DRAM has not answered, or whose answer is on its way. -/
def reads (s : State G n V) (a : A) : Nat :=
  (lane a s.toDram).countP isReadReq + (lane a s.fromDram).length

/-- The invariant of the system. -/
structure Inv (cfg : Config) (s : State G n V) : Prop where
  sound : Sound s.cntlr.cache
  line : ∀ a, Settled cfg (lineOf (view s.cntlr a) none) (cells s a) (reads s a)

section Projection
variable {s : State G n V}

theorem cells_dispatch (cntlr : Cntlr G n V) (sent : Sends A n V) (a : A) :
    cells (s.dispatch cntlr sent) a = deliver (lane a sent) (cells s a) := by
  funext c
  simp only [cells, State.dispatch, deliver, Cell.post, LineInvariant.toCache, lane_append,
    lane_filterMap]

theorem countP_forDram (sent : List (Send n V)) :
    (sent.filterMap forDram).countP isReadReq = sent.countP isRead := by
  rw [List.countP_filterMap]
  refine List.countP_congr fun m _ => ?_
  cases m <;> simp [forDram, isRead, isReadReq]

theorem reads_dispatch (cntlr : Cntlr G n V) (sent : Sends A n V) (a : A) :
    reads (s.dispatch cntlr sent) a = reads s a + (lane a sent).countP isRead := by
  simp only [reads, State.dispatch, lane_append, lane_filterMap, List.countP_append, countP_forDram]
  omega

theorem cells_setLine (c : Fin n) (a b : A) (line : CacheLine V) (sent : List (FromCache V)) :
    cells ((s.setLine c a line).sendUp c a sent) b = if b = a then
      update (cells s a) c { cells s a c with line, up := (cells s a c).up ++ sent }
      else cells s b := by
  by_cases hb : b = a
  · subst hb
    funext d
    by_cases hd : d = c
    · subst hd
      simp [cells, State.setLine, State.sendUp]
    · simp [cells, State.setLine, State.sendUp, update_of_ne hd]
  · rw [if_neg hb]
    funext d
    by_cases hd : d = c
    · subst hd
      simp [cells, State.setLine, State.sendUp, update_of_ne hb, lane_other hb]
    · simp [cells, State.setLine, State.sendUp, update_of_ne hd]

theorem cells_receive {c a msg rest} (hc : s.toCache c = (a, msg) :: rest) (b : A)
    (line : CacheLine V) (sent : List (FromCache V)) :
    cells { (s.setLine c a line).sendUp c a sent with
      toCache := update s.toCache c rest } b = if b = a then
      update (cells s a) c ⟨line, (cells s a c).up ++ sent, lane a rest⟩
      else cells s b := by
  have hset := cells_setLine (s := s) c a b line sent
  by_cases hb : b = a
  · subst hb
    rw [if_pos rfl] at hset ⊢
    funext d
    have hd := congrFun hset d
    by_cases hdc : d = c
    · subst hdc
      simp only [update_self] at hd ⊢
      simp only [cells, Cell.mk.injEq] at hd ⊢
      exact ⟨hd.1, hd.2.1, by simp⟩
    · simp only [update_of_ne hdc] at hd ⊢
      simp only [cells, Cell.mk.injEq] at hd ⊢
      exact ⟨hd.1, hd.2.1, by simp [update_of_ne hdc]⟩
  · rw [if_neg hb] at hset ⊢
    funext d
    have hd := congrFun hset d
    simp only [cells, Cell.mk.injEq] at hd ⊢
    refine ⟨hd.1, hd.2.1, ?_⟩
    by_cases hdc : d = c
    · subst hdc
      rw [update_self, hc, lane_cons_other (Ne.symm hb)]
    · rw [update_of_ne hdc]

theorem cells_take {c a msg rest} (hc : s.fromCache c = (a, msg) :: rest) (b : A) :
    cells { s with fromCache := update s.fromCache c rest } b = if b = a then
      take c (lane a rest) (cells s a) else cells s b := by
  funext d
  by_cases hb : b = a
  · subst hb
    by_cases hdc : d = c
    · subst hdc
      simp [cells, take_self]
    · simp [cells, take_other hdc, update_of_ne hdc]
  · rw [if_neg hb]
    by_cases hdc : d = c
    · subst hdc
      simp [cells, hc, lane_cons_other (Ne.symm hb)]
    · simp [cells, update_of_ne hdc]

end Projection

/-! ## Disciplines of the system -/

/-- The step is one of a cache or of DRAM alone. -/
def Event.isQuiet : Event A n V → Bool
  | .cache .. | .toCache .. | .toDram => true
  | _ => false

theorem Step.quiet_cntlr {cfg} {s s' : State G n V} {ev : Event A n V} (hs : Step cfg s ev s')
    (hq : ev.isQuiet) : s'.cntlr = s.cntlr := by
  cases hs with
  | cache | toCache => rfl
  | @toDram a req rest hd => cases req <;> rfl
  | fromCache | fromDram => cases hq

/-- A discipline of the handlers in the system: what surrounds each line, and which steps
are good, that is, allowed by the discipline. -/
structure Embedding (G : Geometry A) {cfg : Config} (D : Discipline cfg n V) where
  env : State G n V → A → D.Env
  good : State G n V → Event A n V → Prop
  dispatch : ∀ s cntlr sent a, env (s.dispatch cntlr sent) a = D.emit (lane a sent) (env s a)
  popped : ∀ {s c a m rest}, s.fromCache c = (a, m) :: rest →
    D.pops c m (env s a) (env { s with fromCache := update s.fromCache c rest } a) ∧
      ∀ b, b ≠ a → env { s with fromCache := update s.fromCache c rest } b = env s b
  answered : ∀ {s a d rest}, s.fromDram = (a, d) :: rest →
    D.answers d (env s a) (env { s with fromDram := rest } a) ∧
      ∀ b, b ≠ a → env { s with fromDram := rest } b = env s b
  chooses_fromCache : ∀ {s ch c a m}, good s (.fromCache ch c a m) → D.chooses ch
  chooses_fromDram : ∀ {s ch a d}, good s (.fromDram ch a d) → D.chooses ch
  admits : ∀ {s ch c a m}, good s (.fromCache ch c a m) → ∀ f,
    D.admits (lineOf (view s.cntlr a) f) (env s a) c m
  quiet : ∀ {s ev s'}, Step cfg s ev s' → ev.isQuiet → good s ev →
    (∀ a, D.settled (lineOf (view s.cntlr a) none) (env s a)) →
    ∀ a, D.settled (lineOf (view s.cntlr a) none) (env s' a)

namespace Embedding
variable {cfg : Config} {D : Discipline cfg n V} (E : Embedding G D) {s s' : State G n V}

/-- What holds between the steps. -/
structure Holds (s : State G n V) : Prop where
  sound : Sound s.cntlr.cache
  line : ∀ a, D.settled (lineOf (view s.cntlr a) none) (E.env s a)

variable {E}

theorem Holds.dispatch (h : E.Holds s) {ch} (hc : D.chooses ch) {t a cntlr sent v out}
    (heff : Effect a s.cntlr cntlr sent v out)
    (hself : D.settled (lineOf v none) (D.emit out (E.env t a)))
    (hothers : ∀ b, b ≠ a → E.env t b = E.env s b) : E.Holds (t.dispatch cntlr sent) := by
  refine ⟨heff.sound, fun b => ?_⟩
  rw [E.dispatch]
  by_cases hb : b = a
  · subst hb
    rw [heff.sentSelf]
    show D.settled (lineOf (view cntlr b) none) _
    rw [heff.self]
    exact hself
  · rw [hothers b hb]
    exact D.nullified hc (heff.others b hb) (h.line b)

theorem Holds.step {ev} (h : E.Holds s) (hserved : ∀ a, Served s.cntlr a) (hg : E.good s ev)
    (hs : Step cfg s ev s') : E.Holds s' := by
  by_cases hq : ev.isQuiet
  · refine ⟨by rw [hs.quiet_cntlr hq]; exact h.sound, ?_⟩
    rw [hs.quiet_cntlr hq]
    exact E.quiet hs hq hg h.line
  · cases hs with
    | cache | toCache | toDram => exact absurd rfl hq
    | @fromCache ch c a msg rest cntlr sent hc hs =>
      obtain ⟨fresh, href⟩ := handleMsgFromL2Cache_refines h.sound cfg ch c (hserved a) msg
      obtain ⟨⟨v, out⟩, hv, heff⟩ := href.of_ok hs
      have hch := E.chooses_fromCache hg
      obtain ⟨hpop, hothers⟩ := E.popped hc
      refine h.dispatch hch heff ?_ hothers
      exact D.handleMsgFromL2Cache hch (h.line a) (E.admits hg) hpop hv
    | @fromDram ch a d rest cntlr sent hd hs =>
      obtain ⟨fresh, href⟩ := handleMsgFromDRAM_refines h.sound cfg ch a d
      obtain ⟨⟨v, out⟩, hv, heff⟩ := href.of_ok hs
      have hch := E.chooses_fromDram hg
      obtain ⟨hans, hothers⟩ := E.answered hd
      exact h.dispatch hch heff (D.handleMsgFromDRAM hch (h.line a) hans hv) hothers

theorem Holds.reachable (h₀ : ∀ s, Init s → E.Holds s)
    (hserved : ∀ s, E.Holds s → ∀ a, Served s.cntlr a)
    (h : Reachable Init (fun s s' => ∃ ev, E.good s ev ∧ Step cfg s ev s') s) : E.Holds s :=
  h.invariant h₀ fun s _ hs ⟨_, hg, hst⟩ => hs.step (hserved s hs) hg hst

end Embedding

theorem served_view {cfg : Config} {st : Cntlr G n V} {a : A} {x : Fin n → Cell V} {k : Nat}
    (h : Settled cfg (lineOf (view st a) none) x k) : Served st a := by
  intro hq he
  refine h.sharers_ne hq ?_
  simp [lineOf, he, Entry.create]

/-! ## The invariant -/

section Invariant
variable {cfg : Config} {s s' : State G n V}

theorem init_inv (h : Init s) : Inv cfg s := by
  refine ⟨h.directory.sound, fun a => ?_⟩
  rw [h.directory.view a]
  have hcell : ∀ c, cells s a c = ⟨s.lines c a, [], []⟩ := fun c => by
    simp [cells, h.fromCache, h.toCache]
  have hreads : reads s a = 0 := by simp [reads, h.toDram, h.fromDram]
  refine ⟨⟨⟨by simp [lineOf, Entry.create], by simp [lineOf, Entry.create],
    by simp [lineOf, Entry.create]⟩, by simp [lineOf], by simp [lineOf], by simp [lineOf],
    fun c => ?_⟩, fun _ hd => by simp [lineOf, Entry.create] at hd, by simp [lineOf],
    by simp [lineOf, hreads]⟩
  obtain ⟨hs, hw, hp⟩ := h.lines c a
  have hlive : Cell.live ⟨s.lines c a, [], []⟩ = [] := by simp [Cell.live, live]
  rw [hcell c]
  refine ⟨?_, .nil, by rw [hlive]; exact .nil, fun hserved => by rw [hp] at hserved; cases hserved⟩
  constructor <;> simp [Cell.tally, hlive, hs, hw, hp, seen, lineOf, Entry.create, requestsOf,
    pending, owns, wbWait, flushing, gathers, Tally.Exclusive, Seen.fetching]

theorem Inv.served (h : Inv cfg s) (a : A) : Served s.cntlr a := served_view (h.line a)

theorem serveDram_same {a req rest} (hd : s.toDram = (a, req) :: rest) (b : A) :
    cells (State.serveDram { s with toDram := rest } a req) b = cells s b ∧
      reads (State.serveDram { s with toDram := rest } a req) b = reads s b := by
  refine ⟨by cases req <;> rfl, ?_⟩
  by_cases hb : a = b
  · subst hb
    cases req with
    | DRAM_READ_REQ =>
      simp only [reads, State.serveDram, hd, lane_append, lane_cons_self, List.countP_cons,
        isReadReq, if_true, List.length_append, lane_nil, List.length_cons, List.length_nil]
      omega
    | DRAM_WRITE_REQ d =>
      simp [reads, State.serveDram, hd, lane_cons_self, isReadReq]
  · cases req <;> simp [reads, State.serveDram, hd, lane_cons_other hb]

theorem popped_cells {c a m rest} (hc : s.fromCache c = (a, m) :: rest) :
    (cells s a c).up = m :: lane a rest ∧
      cells { s with fromCache := update s.fromCache c rest } a =
        take c (lane a rest) (cells s a) ∧
      ∀ b, b ≠ a → cells { s with fromCache := update s.fromCache c rest } b = cells s b := by
  refine ⟨?_, by rw [cells_take hc, if_pos rfl], fun b hb => by rw [cells_take hc, if_neg hb]⟩
  show lane a (s.fromCache c) = _
  rw [hc, lane_cons_self]

theorem answered_reads {a d rest} (hd : s.fromDram = (a, d) :: rest) :
    reads s a = reads { s with fromDram := rest } a + 1 ∧
      ∀ b, b ≠ a → reads { s with fromDram := rest } b = reads s b := by
  refine ⟨?_, fun b hb => ?_⟩
  · simp only [reads, hd, lane_cons_self, List.length_cons]
    omega
  · simp only [reads, hd, lane_cons_other (Ne.symm hb)]

theorem quiet_cells {ev} (hs : Step cfg s ev s') (hq : ev.isQuiet) (b : A) :
    reads s' b = reads s b ∧ (cells s' b = cells s b ∨
      ∃ c w y, CellStep (cells s b c) w y ∧ cells s' b = update (cells s b) c y) := by
  cases hs with
  | @cache c a w line sent hs =>
    refine ⟨rfl, ?_⟩
    have hset := cells_setLine (s := s) c a b line sent
    by_cases hb : b = a
    · subst hb
      rw [if_pos rfl] at hset
      exact .inr ⟨c, w, _, .act hs, hset⟩
    · rw [if_neg hb] at hset
      exact .inl hset
  | @toCache c a msg rest line sent hc hp hs =>
    refine ⟨rfl, ?_⟩
    have hset := cells_receive hc b line sent
    by_cases hb : b = a
    · subst hb
      rw [if_pos rfl] at hset
      refine .inr ⟨c, none, _, .receive ?_ hs, hset⟩
      show lane b (s.toCache c) = _
      rw [hc, lane_cons_self]
    · rw [if_neg hb] at hset
      exact .inl hset
  | @toDram a req rest hd =>
    obtain ⟨hcells, hreads⟩ := serveDram_same hd b
    exact ⟨hreads, .inl hcells⟩
  | fromCache | fromDram => cases hq

/-- The discipline of the lines in the system: every step is good. -/
def lineEmbedding (cfg : Config) : Embedding G (lineDiscipline (n := n) (V := V) cfg) where
  env s a := (cells s a, reads s a)
  good _ _ := True
  dispatch s cntlr sent a := Prod.ext (cells_dispatch cntlr sent a) (reads_dispatch cntlr sent a)
  popped hc := by
    obtain ⟨hu, htake, hothers⟩ := popped_cells hc
    exact ⟨⟨_, hu, Prod.ext htake rfl⟩, fun b hb => Prod.ext (hothers b hb) rfl⟩
  answered hd := by
    obtain ⟨hself, hothers⟩ := answered_reads hd
    exact ⟨⟨by show 0 < reads _ _; omega, Prod.ext rfl (by show _ = reads _ _ - 1; omega)⟩,
      fun b hb => Prod.ext rfl (hothers b hb)⟩
  chooses_fromCache _ := trivial
  chooses_fromDram _ := trivial
  admits _ _ := trivial
  quiet hs hq _ h b := by
    obtain ⟨hreads, hcells⟩ := quiet_cells hs hq b
    show Settled cfg _ (cells _ b) (reads _ b)
    rw [hreads]
    rcases hcells with hcells | ⟨c, w, y, hy, hcells⟩
    · rw [hcells]
      exact h b
    · rw [hcells]
      exact (h b).cell hy

theorem step_inv {ev} (h : Inv cfg s) (hs : Step cfg s ev s') : Inv cfg s' := by
  have hhold : (lineEmbedding cfg).Holds s := ⟨h.sound, h.line⟩
  obtain ⟨hsound, hline⟩ := hhold.step h.served trivial hs
  exact ⟨hsound, hline⟩

theorem runs_inv (h : Runs cfg s) : Inv cfg s :=
  h.invariant (fun _ => init_inv) fun _ _ hi ⟨_, hst⟩ => step_inv hi hst

end Invariant

end Sniper.Protocol.System
