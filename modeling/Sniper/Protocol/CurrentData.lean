import Sniper.Protocol.RecallDiscipline
import Sniper.Protocol.System

/-! # Current data

Where the value of the last store to a line is: every copy and every message with data carries it,
and so does DRAM, once the writes on their way to it are done, unless a cache may hold what DRAM
lacks.
-/
namespace Sniper.Protocol.CurrentData
open Directory.Handlers
open Protocol.LastLevelCache Protocol.CacheInvariant
open Protocol.System

variable {V : Type} {last : V} {x y : Cell V}

/-! ## One cache -/

/-- The data that a cache sends. -/
def sentData : FromCache V → Option V
  | .FLUSH_REP d | .WB_REP d => some d
  | _ => none

/-- The data that a cache is sent. -/
def fillData : ToCache V → Option V
  | .EX_REP d | .SH_REP d => some d
  | _ => none

/-- The copy and all data on their way from and to the cache are those of the last store. -/
structure Loyal (last : V) (x : Cell V) : Prop where
  copy : x.line.cstate ≠ .INVALID → x.line.data = last
  sent : ∀ m ∈ x.up, ∀ d ∈ sentData m, d = last
  fills : ∀ m ∈ x.dn, ∀ d ∈ fillData m, d = last

/-- The cache may hold what DRAM lacks, now or soon; `modified` is whether the directory
records it as the owner of a MODIFIED line. -/
def Unsaved (modified : Bool) (x : Cell V) : Prop :=
  x.line.cstate = .MODIFIED ∨ 0 < x.tally.flushReps ∨
    modified = true ∧ (x.line.cstate = .EXCLUSIVE ∨ 0 < x.tally.exReps)

/-- No WB_REQ is taken by a line that is MODIFIED, or that is being upgraded. -/
def Keeps (x y : Cell V) : Prop :=
  y.dn ≠ x.dn → x.dn.head? = some .WB_REQ →
    x.line.cstate ≠ .MODIFIED ∧ x.line.cstate ≠ .SHARED_UPGRADING

namespace Loyal

theorem post (h : Loyal last x) {ms} (hms : ∀ m ∈ ms, ∀ d ∈ fillData m, d = last) :
    Loyal last (x.post ms) where
  copy := h.copy
  sent := h.sent
  fills := fun m hm => (List.mem_append.mp hm).elim (h.fills m) (hms m)

theorem pop (h : Loyal last x) {m up} (hu : x.up = m :: up) :
    Loyal last { x with up := up } where
  copy := h.copy
  sent := fun m' hm' => h.sent m' (by rw [hu]; exact List.mem_cons_of_mem _ hm')
  fills := h.fills

theorem moved (h : Loyal last x) {line sent dn} (hc : line.cstate ≠ .INVALID → line.data = last)
    (hs : ∀ m ∈ sent, ∀ d ∈ sentData m, d = last) (hd : dn ⊆ x.dn) :
    Loyal last ⟨line, x.up ++ sent, dn⟩ where
  copy := hc
  sent := fun m hm => (List.mem_append.mp hm).elim (h.sent m) (hs m)
  fills := fun m hm => h.fills m (hd hm)

theorem of_none (hc : x.line.cstate ≠ .INVALID → x.line.data = last) (hf : x.tally.fills = 0)
    (hl : x.tally.flushReps = 0) (hw : x.tally.wbReps = 0) : Loyal last x where
  copy := hc
  sent := fun m hm d hd => by
    have h1 := List.countP_eq_zero.mp hl m hm
    have h2 := List.countP_eq_zero.mp hw m hm
    cases m <;> simp [isFlushRep, isWbRep, sentData] at h1 h2 hd
  fills := fun m hm d hd => by
    have h1 := List.countP_eq_zero.mp hf m hm
    cases m <;> simp [isFill, fillData] at h1 hd

end Loyal

theorem alone_of_modified {k} (h : Fits k x) (hs : x.line.cstate = .MODIFIED) :
    x.tally.fills = 0 ∧ x.tally.flushReps = 0 ∧ x.tally.wbReps = 0 := by
  obtain ⟨hf, hl, -⟩ := h.valid (show x.tally.cstate ≠ .INVALID by simp [Cell.tally, hs])
  have hle := h.flushLeave
  refine ⟨hf, by omega, ?_⟩
  by_contra hw
  exact (h.writtenBack (Nat.pos_of_ne_zero hw)).2.1 hs

theorem nothing_of_not_sharer {k} (h : Fits k x) (hs : k.sharer = false) :
    x.line.cstate = .INVALID ∧ x.tally.fills = 0 ∧ x.tally.flushReps = 0 ∧ x.tally.wbReps = 0 := by
  obtain ⟨hc, hf, hl, -⟩ := h.not_sharer hs
  have hle := h.flushLeave
  have hw := h.writeback
  have hwait : k.wbWait = false := by
    by_contra hwait
    have := k.wbSharer (by simpa using hwait)
    rw [hs] at this
    cases this
  rw [hwait, Bool.toNat_false] at hw
  exact ⟨hc, hf, by omega, by omega⟩

theorem Loyal.act {k} (h : Loyal last x) (hf : Fits k x) {w line sent}
    (ha : Act x.line none w line sent) :
    Loyal (w.getD last) { x with line, up := x.up ++ sent } := by
  have hdata : x.line.cstate ≠ .INVALID → ∀ d, some x.line.data = some d → d = last :=
    fun hs d hd => (Option.some.inj hd).symm.trans (h.copy hs)
  have hsub := List.Subset.refl x.dn
  cases ha with
  | same | enqueue | wakeDone | wakeServe | dequeue => exact h.moved h.copy (by simp) hsub
  | silent hs | wakeSilent hp hw hs => exact h.moved (fun _ => h.copy (by simp [hs])) (by simp) hsub
  | upgrade hp hw hs => exact h.moved (fun _ => h.copy (by simp [hs])) (by simp [sentData]) hsub
  | fetchExclusive | fetchShared => exact h.moved h.copy (by simp [sentData]) hsub
  | store v hs =>
    obtain ⟨h1, h2, h3⟩ := alone_of_modified hf hs
    refine .of_none (fun _ => rfl) h1 ?_ ?_
    · simpa [Cell.tally] using h2
    · simpa [Cell.tally] using h3
  | evictDirty hp hs => exact h.moved (by simp) (by simpa [sentData] using hdata (by simp [hs])) hsub
  | evictClean => exact h.moved (by simp) (by simp [sentData]) hsub
  | wakeUpgrade hp hw hs =>
    exact h.moved (fun _ => h.copy (by simp [hs])) (by simp [sentData]) hsub

theorem Loyal.receive (h : Loyal last x) {m rest} (hd : x.dn = m :: rest) {line sent}
    (hk : m = .WB_REQ → x.line.cstate ≠ .SHARED_UPGRADING) {w}
    (ha : Act x.line (some m) w line sent) : Loyal last ⟨line, x.up ++ sent, rest⟩ := by
  have hdata : x.line.cstate ≠ .INVALID → ∀ d, some x.line.data = some d → d = last :=
    fun hs d hd => (Option.some.inj hd).symm.trans (h.copy hs)
  have hfill : ∀ d, fillData m = some d → d = last := fun d hm =>
    h.fills m (by rw [hd]; exact List.mem_cons_self ..) d hm
  have hsub : rest ⊆ x.dn := by rw [hd]; exact List.subset_cons_self _ _
  cases ha with
  | fillExclusive d | fillShared d => exact h.moved (fun _ => hfill d rfl) (by simp) hsub
  | upgraded hp hw hs => exact h.moved (fun _ => h.copy (by simp [hs])) (by simp) hsub
  | ignore => exact h.moved h.copy (by simp) hsub
  | invalidate => exact h.moved (by simp) (by simp [sentData]) hsub
  | flush hp hs => exact h.moved (by simp) (by simpa [sentData] using hdata hs) hsub
  | writebackUpgrading d hp hs => exact absurd hs (hk rfl)
  | writeback hp hs hu =>
    exact h.moved (fun _ => h.copy hs) (by simpa [sentData] using hdata hs) hsub

theorem Loyal.step {k} (h : Loyal last x) (hf : Fits k x) {w} (hs : CellStep x w y) (hk : Keeps x y) :
    Loyal (w.getD last) y := by
  cases hs with
  | act hs => exact h.act hf hs.act
  | @receive m rest line sent hd hs =>
    refine h.receive hd (fun hm => (hk ?_ ?_).2) hs.act
    · rw [hd]
      exact (List.cons_ne_self _ _).symm
    · rw [hd, hm]
      rfl

/-! ## What DRAM lacks -/

namespace Unsaved
variable {k : Watched}

theorem moved {b} (h : Unsaved b x) {line} (sent : List (FromCache V)) {dn}
    (hc : line.cstate = x.line.cstate ∨ line.cstate = .MODIFIED)
    (hd : dn.countP isExRep = x.dn.countP isExRep) : Unsaved b ⟨line, x.up ++ sent, dn⟩ := by
  rcases hc with hc | hc
  · rcases h with h | h | ⟨hb, h | h⟩
    · exact .inl (hc.trans h)
    · refine .inr (.inl ?_)
      have h : 0 < x.up.countP isFlushRep := h
      simp only [Cell.tally, List.countP_append]
      omega
    · exact .inr (.inr ⟨hb, .inl (hc.trans h)⟩)
    · exact .inr (.inr ⟨hb, .inr (show 0 < dn.countP isExRep from hd ▸ h)⟩)
  · exact .inl hc

theorem of_valid (h : Unsaved k.modified x) (hf : Fits k.toSeen x) (hs : x.line.cstate ≠ .INVALID) :
    x.line.cstate = .MODIFIED ∨ k.modified = true ∧ x.line.cstate = .EXCLUSIVE := by
  obtain ⟨hfill, hleave, -⟩ := hf.valid (show x.tally.cstate ≠ .INVALID from hs)
  have hfl := hf.flushLeave
  have hex := hf.exFill
  rcases h with h | h | ⟨hm, h | h⟩
  · exact .inl h
  · omega
  · exact .inr ⟨hm, h⟩
  · omega

/-- An owner that the network thread has woken has modified its copy. -/
theorem of_idle (h : Unsaved k.modified x) (hh : Headed k x) (hf : Fits k.toSeen x)
    (hp : x.line.phase = .idle) (hs : x.line.cstate ≠ .INVALID) : x.line.cstate = .MODIFIED := by
  refine (h.of_valid hf hs).resolve_right fun ⟨hm, hc⟩ => ?_
  rw [(hh.silent hm hc).1] at hp
  cases hp

theorem act (h : Unsaved k.modified x) (hh : Headed k x) (hf : Fits k.toSeen x) {w line sent}
    (ha : Act x.line none w line sent) :
    Unsaved k.modified { x with line, up := x.up ++ sent } := by
  -- a shared copy is saved
  have hshared : x.line.cstate ≠ .SHARED := fun hs => by
    rcases h.of_valid hf (by simp [hs]) with hc | ⟨-, hc⟩
    all_goals rw [hs] at hc; cases hc
  cases ha with
  | same | enqueue | fetchExclusive | fetchShared | store | wakeDone | wakeServe
  | dequeue => exact h.moved _ (.inl rfl) rfl
  | silent | wakeSilent => exact h.moved _ (.inr rfl) rfl
  | upgrade hp hw hs | wakeUpgrade hp hw hs => exact absurd hs hshared
  | evictDirty => exact .inr (.inl (by simp [Cell.tally, isFlushRep]))
  | evictClean hp hs =>
    have hc := h.of_idle hh hf hp (by rcases hs with hs | hs <;> simp [hs])
    rw [hc] at hs
    simp at hs

theorem receive (h : Unsaved k.modified x) (hh : Headed k x) (hf : Fits k.toSeen x) {m rest}
    (hd : x.dn = m :: rest) {line sent}
    (hk : m = .WB_REQ → x.line.cstate ≠ .MODIFIED ∧ x.line.cstate ≠ .SHARED_UPGRADING) {w}
    (ha : Act x.line (some m) w line sent) :
    Unsaved k.modified ⟨line, x.up ++ sent, rest⟩ := by
  have hsame : isExRep m = false → rest.countP isExRep = x.dn.countP isExRep := fun hm => by
    simp [hd, hm]
  have hflush : 0 < x.tally.flushReps →
      0 < (⟨line, x.up ++ sent, rest⟩ : Cell V).tally.flushReps := fun hpos => by
    have hpos : 0 < x.up.countP isFlushRep := hpos
    simp only [Cell.tally, List.countP_append]
    omega
  cases ha with
  | fillExclusive d hp hw hs =>
    rcases h with hc | hpos | ⟨hm, -⟩
    · rw [hs] at hc; cases hc
    · exact .inr (.inl (hflush hpos))
    · exact .inr (.inr ⟨hm, .inl rfl⟩)
  | fillShared d hp hw hs =>
    rcases h with hc | hpos | ⟨hm, hc | hpos⟩
    · rw [hs] at hc; cases hc
    · exact .inr (.inl (hflush hpos))
    · rw [hs] at hc; cases hc
    · exact .inr (.inr ⟨hm, .inr (show 0 < rest.countP isExRep from hsame rfl ▸ hpos)⟩)
  | upgraded => exact .inl rfl
  | ignore hp hm hs => exact h.moved _ (.inl rfl) (hsame (by cases m <;> cases hm <;> rfl))
  | invalidate hp hs hm => exact absurd (h.of_idle hh hf hp hs) hm
  | flush => exact .inr (.inl (by simp [Cell.tally, isFlushRep]))
  | writebackUpgrading d hp hs => exact absurd hs (hk rfl).2
  | writeback hp hs hu => exact absurd (h.of_idle hh hf hp hs) (hk rfl).1

/-- **What DRAM lacks does not get lost in a step of a cache.** -/
theorem step (h : Unsaved k.modified x) (hh : Headed k x) (hf : Fits k.toSeen x) {w}
    (hs : CellStep x w y) (hk : Keeps x y) : Unsaved k.modified y := by
  cases hs with
  | act hs => exact h.act hh hf hs.act
  | @receive m rest line sent hd hs =>
    refine h.receive hh hf hd (fun hm => hk ?_ ?_) hs.act
    · rw [hd]
      exact (List.cons_ne_self _ _).symm
    · rw [hd, hm]
      rfl

end Unsaved

/-! ## DRAM -/

/-- What DRAM holds once the writes on their way are done. -/
def afterWrites (dram : V) : List (DramReq V) → V
  | [] => dram
  | .DRAM_READ_REQ :: rest => afterWrites dram rest
  | .DRAM_WRITE_REQ d :: rest => afterWrites d rest

/-- Every read on its way finds the value of the last store. -/
def ReadsSee (last dram : V) : List (DramReq V) → Prop
  | [] => True
  | .DRAM_READ_REQ :: rest => dram = last ∧ ReadsSee last dram rest
  | .DRAM_WRITE_REQ d :: rest => ReadsSee last d rest

theorem afterWrites_append (p q : List (DramReq V)) : ∀ dram,
    afterWrites dram (p ++ q) = afterWrites (afterWrites dram p) q := by
  induction p with
  | nil => exact fun _ => rfl
  | cons m p ih =>
    intro dram
    cases m with
    | DRAM_READ_REQ => exact ih dram
    | DRAM_WRITE_REQ d => exact ih d

theorem readsSee_append (p q : List (DramReq V)) : ∀ dram,
    ReadsSee last dram (p ++ q) ↔ ReadsSee last dram p ∧ ReadsSee last (afterWrites dram p) q := by
  induction p with
  | nil => exact fun _ => (true_and _).symm.to_iff
  | cons m p ih =>
    intro dram
    cases m with
    | DRAM_READ_REQ => exact (and_congr_right fun _ => ih dram).trans and_assoc.symm
    | DRAM_WRITE_REQ d => exact ih d

theorem readsSee_of_none {q} (h : q.countP isReadReq = 0) : ∀ dram,
    ReadsSee last dram q := by
  induction q with
  | nil => exact fun _ => trivial
  | cons m q ih =>
    intro dram
    cases m with
    | DRAM_READ_REQ => simp [isReadReq] at h
    | DRAM_WRITE_REQ d => exact ih (by simpa [isReadReq] using h) d

end Sniper.Protocol.CurrentData
