import Sniper.Protocol.Exchange

/-! # First waiters

The request of a cache that is outstanding is the one its first waiter made. So the copy
that the directory records as MODIFIED becomes so as soon as it arrives, before the network
thread does anything else.
-/
namespace Sniper.Protocol.CacheInvariant
open Directory.Handlers Protocol.LastLevelCache

variable {V : Type}

/-- The directory's record about a cache, with whether the directory waits for the cache to
give a shared copy up and whether the cache owns the line MODIFIED. -/
structure Watched extends Seen where
  recalling : Bool
  modified : Bool
  recallShared : recalling = true → excl = false
  recallFlush : flushing = true → sharer = true → excl = true ∨ recalling = true
  modifiedExcl : modified = true → excl = true

def isExReq : FromCache V → Bool
  | .EX_REQ => true
  | _ => false

/-- A request of an exclusive waiter is outstanding. -/
def Cell.WantsExclusive (x : Cell V) (requests : List ReqType) : Prop :=
  0 < x.up.countP isExReq ∨ 0 < x.up.countP isUpgrade ∨ .EX_REQ ∈ requests ∨
    .UPGRADE_REQ ∈ requests

/-- The first waiter is the one that the outstanding request is for. -/
structure Headed (k : Watched) (x : Cell V) : Prop where
  first : x.WantsExclusive k.requests → x.line.waiters.head? = some true
  awake : x.line.phase ≠ .idle →
    x.line.cstate = .SHARED ∨ x.line.cstate = .EXCLUSIVE ∨ x.line.cstate = .MODIFIED
  fill : k.modified = true → 0 < x.dn.countP isFill → x.line.waiters.head? = some true
  silent : k.modified = true → x.line.cstate = .EXCLUSIVE →
    x.line.phase = .loop ∧ x.line.waiters.head? = some true

/-! ## First waiters -/

namespace Fits
variable {k : Seen} {x : Cell V}

theorem exReqs_le (x : Cell V) : x.up.countP isExReq ≤ x.tally.fetches := by
  refine List.countP_mono_left fun m _ hm => ?_
  cases m <;> simp_all [isExReq, isFetch]

theorem not_wants (_h : Fits k x) (hn : x.tally.fetches = 0 ∧ x.tally.upgrades = 0 ∧
    k.requests = []) : ¬ x.WantsExclusive k.requests := by
  obtain ⟨hf, hu, hr⟩ := hn
  have hle := exReqs_le x
  have hu : x.up.countP isUpgrade = 0 := hu
  simp only [Cell.WantsExclusive, hr, hu]
  simp only [List.not_mem_nil, or_false]
  omega

theorem idle_wants (h : Fits k x) (hp : x.line.phase = .idle) (hw : x.line.waiters = []) :
    ¬ x.WantsExclusive k.requests ∧ x.dn.countP isFill = 0 := by
  obtain ⟨hf, hu, hr, hfill, -⟩ := h.idle (by simp [Cell.tally, hw]) (by simp [Cell.tally, hp])
  exact ⟨h.not_wants ⟨hf, hu, hr⟩, hfill⟩

theorem woken_wants (h : Fits k x) (hp : x.line.phase ≠ .idle) :
    ¬ x.WantsExclusive k.requests ∧ x.dn.countP isFill = 0 := by
  obtain ⟨hf, hu, hr, hfill, -⟩ := h.woken (by simp [Cell.tally, hp])
  exact ⟨h.not_wants ⟨hf, hu, hr⟩, hfill⟩

end Fits

namespace Headed
variable {k k' : Watched} {x : Cell V}

theorem act (h : Headed k x) (hf : Fits k.toSeen x) {w : Option V} {line : CacheLine V}
    {sent : List (FromCache V)} (ha : Act x.line none w line sent) :
    Headed k { x with line, up := x.up ++ sent } := by
  obtain ⟨h1, h2, h3, h4⟩ := h
  cases ha with
  | same | store v hs => exact ⟨by simpa [Cell.WantsExclusive] using h1, h2, h3, h4⟩
  | silent hs => exact ⟨by simpa [Cell.WantsExclusive] using h1, by simp, h3, by simp⟩
  | enqueue exclusive hp hw =>
    have hhead : (x.line.waiters ++ [exclusive]).head? = x.line.waiters.head? := by
      obtain ⟨b, bs, hb⟩ := List.exists_cons_of_ne_nil hw
      simp [hb]
    exact ⟨by simpa [Cell.WantsExclusive, hhead] using h1, h2, by simpa [hhead] using h3,
      by simpa [hhead] using h4⟩
  | upgrade hp hw hs =>
    have hidle := phase_idle hf.served hp hw
    exact ⟨fun _ => rfl, by simp [hidle], fun _ _ => rfl, by simp⟩
  | fetchExclusive hp hw hs =>
    have hidle := phase_idle hf.served hp hw
    exact ⟨fun _ => rfl, by simp [hidle], fun _ _ => rfl, by simp [hs]⟩
  | fetchShared hp hw hs =>
    have hidle := phase_idle hf.served hp hw
    obtain ⟨hnot, hfill⟩ := hf.idle_wants hidle hw
    refine ⟨fun hwant => absurd ?_ hnot, by simp [hidle], fun _ hpos => ?_, fun _ hc => ?_⟩
    · simpa [Cell.WantsExclusive, isExReq, isUpgrade] using hwant
    · have hpos : 0 < x.dn.countP isFill := hpos
      omega
    · have hc : x.line.cstate = .EXCLUSIVE := hc
      rw [hc] at hs
      simp at hs
  | evictDirty hp hs | evictClean hp hs =>
    exact ⟨by simpa [Cell.WantsExclusive, isExReq, isUpgrade] using h1, by simp [hp], h3, by simp⟩
  | wakeDone hp hw =>
    obtain ⟨hnot, hfill⟩ := hf.woken_wants (by simp [hp])
    refine ⟨fun hwant => absurd ?_ hnot, by simp, h3, fun hm hc => ?_⟩
    · simpa [Cell.WantsExclusive] using hwant
    · have := (h4 hm hc).2
      rw [hw] at this
      cases this
  | wakeUpgrade hp hw hs =>
    exact ⟨fun _ => by simp [hw], by simp, fun _ _ => by simp [hw], by simp⟩
  | wakeServe hp hw hperm =>
    refine ⟨by simpa [Cell.WantsExclusive] using h1, fun _ => h2 (by simp [hp]), h3, fun hm hc => ?_⟩
    have hc : x.line.cstate = .EXCLUSIVE := hc
    have hfirst := (h4 hm hc).2
    rw [hw] at hfirst
    have hexcl := Option.some.inj hfirst
    rw [hexcl] at hperm
    simp [operationPermissibleinCache, hc] at hperm
  | wakeSilent hp hw hs =>
    exact ⟨by simpa [Cell.WantsExclusive] using h1, by simp, h3, by simp⟩
  | dequeue hp =>
    obtain ⟨hnot, hfill⟩ := hf.woken_wants (by simp [hp])
    refine ⟨fun hwant => absurd ?_ hnot, fun _ => h2 (by simp [hp]), fun _ hpos => ?_, fun hm hc => ?_⟩
    · simpa [Cell.WantsExclusive] using hwant
    · have hpos : 0 < x.dn.countP isFill := hpos
      omega
    · have := (h4 hm hc).1
      rw [hp] at this
      cases this

theorem receive (h : Headed k x) {m rest} (hd : x.dn = m :: rest) {line sent w}
    (ha : Act x.line (some m) w line sent) : Headed k ⟨line, x.up ++ sent, rest⟩ := by
  obtain ⟨h1, h2, h3, h4⟩ := h
  have hle : rest.countP isFill ≤ x.dn.countP isFill := by
    rw [hd, List.countP_cons]
    omega
  have hfill : k.modified = true → 0 < rest.countP isFill → x.line.waiters.head? = some true :=
    fun hm hpos => h3 hm (by omega)
  cases ha with
  | fillExclusive d hp hw hs =>
    refine ⟨by simpa [Cell.WantsExclusive] using h1, by simp, hfill, fun hm _ => ⟨rfl, ?_⟩⟩
    exact h3 hm (by simp [hd, isFill])
  | fillShared d hp hw hs | upgraded hp hw hs =>
    exact ⟨by simpa [Cell.WantsExclusive] using h1, by simp, hfill, by simp⟩
  | ignore hp hm hs =>
    exact ⟨by simpa [Cell.WantsExclusive] using h1, h2, hfill, h4⟩
  | invalidate hp hs hm | flush hp hs | writeback hp hs hu =>
    exact ⟨by simpa [Cell.WantsExclusive, isExReq, isUpgrade] using h1, by simp [hp], hfill, by simp⟩
  | writebackUpgrading d hp hs =>
    exact ⟨by simpa [Cell.WantsExclusive, isExReq, isUpgrade] using h1, h2, hfill, h4⟩

theorem step (h : Headed k x) (hf : Fits k.toSeen x) {w x'} (hs : CellStep x w x') :
    Headed k x' := by
  cases hs with
  | act hs => exact h.act hf hs.act
  | receive hd hs => exact h.receive hd hs.act

/-! ## First waiters and the directory -/

theorem congr (h : Headed k x) (hr : k'.requests = k.requests)
    (hm : k'.modified = true → k.modified = true ∨
      x.dn.countP isFill = 0 ∧ x.line.cstate ≠ .EXCLUSIVE) {ms} (hms : ms.countP isFill = 0) :
    Headed k' (x.post ms) := by
  obtain ⟨h1, h2, h3, h4⟩ := h
  have hcount : (x.dn ++ ms).countP isFill = x.dn.countP isFill := by
    rw [List.countP_append, hms, Nat.add_zero]
  refine ⟨by rw [hr]; exact h1, h2, fun hk hpos => ?_, fun hk hc => ?_⟩
  · have hpos : 0 < (x.dn ++ ms).countP isFill := hpos
    rw [hcount] at hpos
    rcases hm hk with hk | ⟨hz, -⟩
    · exact h3 hk hpos
    · omega
  · rcases hm hk with hk | ⟨-, hne⟩
    · exact h4 hk hc
    · exact absurd hc hne

theorem grant (h : Headed k x) (hf : Fits k.toSeen x) {r} (hr : r ∈ k.requests)
    (hr' : k'.requests = []) (hm : k'.modified = true → r = .EX_REQ ∨ r = .UPGRADE_REQ)
    (hx : x.line.cstate ≠ .EXCLUSIVE) (ms : List (ToCache V)) : Headed k' (x.post ms) := by
  obtain ⟨-, hfetch, hup, -⟩ := hf.requested hr
  have hnot : ¬ x.WantsExclusive k'.requests := by
    have hle := Fits.exReqs_le x
    have hup : x.up.countP isUpgrade = 0 := hup
    simp only [Cell.WantsExclusive, hr', hup, List.not_mem_nil, or_false]
    omega
  refine ⟨fun hw => absurd hw hnot, h.awake, fun hk _ => h.first ?_, fun _ hc => absurd hc hx⟩
  rcases hm hk with rfl | rfl
  · exact .inr (.inr (.inl hr))
  · exact .inr (.inr (.inr hr))

theorem pop (h : Headed k x) {m rest} (hu : x.up = m :: rest)
    (hr : m.request? = none ∧ k'.requests = k.requests ∨
      ∃ r, m.request? = some r ∧ k'.requests = k.requests ++ [r])
    (hm : k'.modified = true → k.modified = true) : Headed k' { x with up := rest } := by
  obtain ⟨h1, h2, h3, h4⟩ := h
  refine ⟨fun hw => h1 ?_, h2, fun hk => h3 (hm hk), fun hk => h4 (hm hk)⟩
  simp only [Cell.WantsExclusive] at hw ⊢
  rw [hu]
  rcases hr with ⟨-, hr⟩ | ⟨r, hmr, hr⟩
  · rw [hr] at hw
    simp only [List.countP_cons]
    exact hw.imp (by omega) (Or.imp (by omega) id)
  · rw [hr] at hw
    cases m <;> cases hmr <;>
      simp only [List.countP_cons, isExReq, isUpgrade, List.mem_append, List.mem_singleton] at hw ⊢
    · simp
    · simpa using hw
    · simp

end Headed

end Sniper.Protocol.CacheInvariant
