import Sniper.Memory.SetAssoc

/-! # The DRAM cache

`DramCache` in front of a DRAM controller that keeps one value for each line. Timing (tags, queue
model, MSHR) is left out: it decides no contents.

The cache is compared with the store it should be invisible in front of: a map from block numbers
to lines. The two agree as long as each write-back of a dirty victim carries the victim's bytes;
`insertLine` hands the DRAM controller the bytes of the incoming line instead.
-/
namespace Sniper.Memory.DramCache
open Memory.SetAssoc Function

/-- A prefetcher: `getNextAddress` trains it and returns the addresses to fetch. -/
structure Prefetcher (F : Type) where
  getNextAddress : F → IntPtr → List IntPtr × F

structure Config (B : CacheBase) (R V F : Type) where
  policy : ReplacementPolicy B.assoc R V
  prefetcher : Option (Prefetcher F)
  prefetchOnPrefetchHit : Bool

/-- The DRAM controller behind the cache, as a store of lines by block number. -/
abbrev DramCntlr (V : Type) := IntPtr → V

structure State (B : CacheBase) (R V F : Type) where
  cache : Cache B R V
  dram : DramCntlr V
  pf : F

variable {B : CacheBase} {R V F : Type}

def DramCntlr.getDataFromDram (B : CacheBase) (d : DramCntlr V) (addr : IntPtr) : V :=
  d (B.tagOf addr)

def DramCntlr.putDataToDram (B : CacheBase) (d : DramCntlr V) (addr : IntPtr) (data : V) :
    DramCntlr V :=
  update d (B.tagOf addr) data

/-- The block an insertion at `addr` would evict. -/
def victim (cfg : Config B R V F) (st : State B R V F) (addr : IntPtr) : Option (Block V) :=
  let set := st.cache.sets (B.setIndex (B.tagOf addr))
  let old := set.blocks (cfg.policy.getReplacementIndex set.blocks set.repl).1
  if old.isValid then some old else none

/-- `DramCache::insertLine`. The write-back of a dirty victim passes `data_buf`, the
bytes of the line that comes in; `evict_buf` is never read. -/
def insertLine (cfg : Config B R V F) (access : Access) (addr : IntPtr) (dataBuf : V)
    (st : State B R V F) : State B R V F :=
  let (evict, cache) := st.cache.insertSingleLine cfg.policy addr dataBuf
  let cache := cache.modifyLine addr
    (·.setCState (if access = .STORE then .MODIFIED else .SHARED))
  match evict with
  | some v =>
    if v.cstate = .MODIFIED then
      { st with cache, dram := st.dram.putDataToDram B (B.tagToAddress v.tag) dataBuf }
    else { st with cache }
  | none => { st with cache }

/-- One iteration of the loop over the prefetch list in `DramCache::callPrefetcher`. -/
def prefetchLine (cfg : Config B R V F) (st : State B R V F) (addr : IntPtr) : State B R V F :=
  match st.cache.peekSingleLine addr with
  | some _ => st
  | none =>
    let st := insertLine cfg .LOAD addr (st.dram.getDataFromDram B addr) st
    { st with cache := st.cache.modifyLine addr (·.setPrefetch true) }

/-- `DramCache::callPrefetcher`, and its call being skipped without a prefetcher. -/
def callPrefetcher (cfg : Config B R V F) (trainAddr : IntPtr) (cacheHit prefetchHit : Bool)
    (st : State B R V F) : State B R V F :=
  match cfg.prefetcher with
  | none => st
  | some p =>
    let (prefetchList, pf) := p.getNextAddress st.pf trainAddr
    let st := { st with pf }
    if !cacheHit || (cfg.prefetchOnPrefetchHit && prefetchHit) then
      prefetchList.foldl (prefetchLine cfg) st
    else st

/-- `DramCache::doAccess` up to the call of the prefetcher: cache hit, prefetch hit, the
data buffer and the state. -/
def accessLine (cfg : Config B R V F) (access : Access) (addr : IntPtr) (dataBuf : V)
    (st : State B R V F) : Option (Bool × Bool × V × State B R V F) :=
  match st.cache.peekSingleLine addr with
  | some blockInfo => do
    let cache := if blockInfo.prefetch then st.cache.modifyLine addr (·.setPrefetch false)
      else st.cache
    let (dataBuf, cache) ← cache.accessSingleLine cfg.policy access addr dataBuf
    let cache := if access = .STORE then cache.modifyLine addr (·.setCState .MODIFIED)
      else cache
    some (true, blockInfo.prefetch, dataBuf, { st with cache })
  | none =>
    let dataBuf := match access with
      | .LOAD => st.dram.getDataFromDram B addr
      | .STORE => dataBuf
    some (false, false, dataBuf, insertLine cfg access addr dataBuf st)

/-- `DramCache::doAccess`: hit or miss, the data buffer and the state. -/
def doAccess (cfg : Config B R V F) (access : Access) (addr : IntPtr) (dataBuf : V)
    (st : State B R V F) : Option (Bool × V × State B R V F) := do
  let (cacheHit, prefetchHit, dataBuf, st) ← accessLine cfg access addr dataBuf st
  some (cacheHit, dataBuf, callPrefetcher cfg addr cacheHit prefetchHit st)

def getDataFromDram (cfg : Config B R V F) (addr : IntPtr) (dataBuf : V) (st : State B R V F) :
    Option (V × State B R V F) :=
  (doAccess cfg .LOAD addr dataBuf st).map (·.2)

def putDataToDram (cfg : Config B R V F) (addr : IntPtr) (dataBuf : V) (st : State B R V F) :
    Option (State B R V F) :=
  (doAccess cfg .STORE addr dataBuf st).map (·.2.2)

/-! ## Runs and the store the cache stands for -/

inductive Call (V : Type) where
  | get (addr : IntPtr) (dataBuf : V)
  | put (addr : IntPtr) (data : V)

def step (cfg : Config B R V F) (st : State B R V F) : Call V → Option (State B R V F)
  | .get addr buf => (getDataFromDram cfg addr buf st).map (·.2)
  | .put addr data => putDataToDram cfg addr data st

def run (cfg : Config B R V F) : State B R V F → List (Call V) → Option (State B R V F)
  | st, [] => some st
  | st, call :: calls => (step cfg st call).bind fun st' => run cfg st' calls

/-- The store after a call: a `put` replaces the line of its address. -/
def written (B : CacheBase) (mem : IntPtr → V) : Call V → IntPtr → V
  | .get _ _ => mem
  | .put addr data => update mem (B.tagOf addr) data

/-- The value of the last `put` to each line, or the initial content of the DRAM. -/
def lastPut (B : CacheBase) (init : IntPtr → V) (calls : List (Call V)) : IntPtr → V :=
  calls.foldl (written B) init

/-- An empty DRAM cache over a DRAM with content `dram`. -/
def initial (repl : Fin B.numSets → R) (zero : V) (dram : DramCntlr V) (pf : F) :
    State B R V F :=
  ⟨.init B repl zero, dram, pf⟩

/-! ## Agreement with the store -/

/-- The cache and the DRAM together hold `mem`: a cached line has its value, and the DRAM
has the value of every line that is not cached or cached clean. -/
structure Agrees (st : State B R V F) (mem : IntPtr → V) : Prop where
  wellPlaced : st.cache.WellPlaced
  cached : ∀ a b, st.cache.lookup (B.tagOf a) = some b → b.data = mem (B.tagOf a)
  clean : ∀ a b, st.cache.lookup (B.tagOf a) = some b → b.cstate ≠ .MODIFIED →
    st.dram (B.tagOf a) = mem (B.tagOf a)
  absent : ∀ a, st.cache.lookup (B.tagOf a) = none → st.dram (B.tagOf a) = mem (B.tagOf a)

theorem initial_agrees (repl : Fin B.numSets → R) (zero : V) (dram : DramCntlr V) (pf : F) :
    Agrees (initial (B := B) repl zero dram pf) dram where
  wellPlaced := Cache.init_wellPlaced repl zero
  cached a b h := by
    rw [initial, Cache.init_lookup repl zero (B.tagOf_ne_invalid a)] at h; cases h
  clean _ _ _ _ := rfl
  absent _ _ := rfl

/-- The write-back an insertion would make carries the victim's own bytes. -/
def WritebackKeeps (cfg : Config B R V F) (addr : IntPtr) (dataBuf : V)
    (st : State B R V F) : Prop :=
  ∀ v, victim cfg st addr = some v → v.cstate = .MODIFIED → v.data = dataBuf

theorem insertLine_spec (cfg : Config B R V F) (access : Access) {addr : IntPtr} (dataBuf : V)
    {st : State B R V F} (hc : st.cache.WellPlaced)
    (habs : st.cache.peekSingleLine addr = none) :
    ∃ c, Cache.Inserted st.cache c (.fresh (B.tagOf addr) dataBuf) (victim cfg st addr) ∧
      (insertLine cfg access addr dataBuf st).cache = c.modifyLine addr
        (·.setCState (if access = .STORE then .MODIFIED else .SHARED)) ∧
      ∀ a, (insertLine cfg access addr dataBuf st).dram (B.tagOf a) =
        if ∃ v, victim cfg st addr = some v ∧ v.cstate = .MODIFIED ∧ v.tag = B.tagOf a
        then dataBuf else st.dram (B.tagOf a) := by
  have hins : st.cache.insertSingleLine cfg.policy addr dataBuf =
      (victim cfg st addr, (st.cache.insertSingleLine cfg.policy addr dataBuf).2) := rfl
  have hspec := Cache.insertSingleLine_spec cfg.policy hc habs hins
  refine ⟨_, hspec, ?_, fun a => ?_⟩
  · rw [insertLine, hins]
    dsimp only
    split
    · split <;> rfl
    · rfl
  · rw [insertLine, hins]
    cases hv : victim cfg st addr with
    | none => simp
    | some v =>
      obtain ⟨b, hb⟩ := hspec.tagged v hv
      by_cases hm : v.cstate = .MODIFIED
      · simp only [hm, if_true, DramCntlr.putDataToDram, Option.some.injEq, exists_eq_left',
          true_and]
        rw [hb, B.tagOf_tagToAddress_tagOf, update_apply]
        simp only [eq_comm]
      · simp [hm]

theorem insertLine_line (cfg : Config B R V F) (access : Access) {addr : IntPtr} (dataBuf : V)
    {st : State B R V F} (hc : st.cache.WellPlaced)
    (habs : st.cache.peekSingleLine addr = none) (a : IntPtr) :
    let st' := insertLine cfg access addr dataBuf st
    (B.tagOf a = B.tagOf addr ∧ st'.dram (B.tagOf a) = st.dram (B.tagOf a) ∧
      st'.cache.lookup (B.tagOf a) = some ((Block.fresh (B.tagOf addr) dataBuf).setCState
        (if access = .STORE then .MODIFIED else .SHARED))) ∨
    (∃ v, B.tagOf a ≠ B.tagOf addr ∧ victim cfg st addr = some v ∧
      st.cache.lookup (B.tagOf a) = some v ∧ st'.cache.lookup (B.tagOf a) = none ∧
      st'.dram (B.tagOf a) =
        if v.cstate = .MODIFIED then dataBuf else st.dram (B.tagOf a)) ∨
    (B.tagOf a ≠ B.tagOf addr ∧ (∀ v, victim cfg st addr = some v → v.tag ≠ B.tagOf a) ∧
      st'.cache.lookup (B.tagOf a) = st.cache.lookup (B.tagOf a) ∧
      st'.dram (B.tagOf a) = st.dram (B.tagOf a)) := by
  obtain ⟨c, hins, hcache, hdram⟩ := insertLine_spec cfg access dataBuf hc habs
  have hf : ∀ b : Block V, (b.setCState
      (if access = .STORE then .MODIFIED else .SHARED)).tag = b.tag := fun _ => rfl
  have hlook := Cache.lookup_modifyLine (c := c) addr hf (B.tagOf a)
  rw [← hcache] at hlook
  by_cases ha : B.tagOf a = B.tagOf addr
  · left
    refine ⟨ha, ?_, ?_⟩
    · rw [hdram, if_neg]
      rintro ⟨v, hv, -, ht⟩
      have := hins.held v hv
      rw [ht, ha, show st.cache.lookup (B.tagOf addr) = none from habs] at this
      cases this
    · rw [hlook, if_pos ha, ha, show c.lookup (B.tagOf addr) = _ from hins.self]
      rfl
  · rw [if_neg ha] at hlook
    by_cases hv : ∃ v, victim cfg st addr = some v ∧ v.tag = B.tagOf a
    · obtain ⟨v, hv, ht⟩ := hv
      right; left
      refine ⟨v, ha, hv, ht ▸ hins.held v hv, ?_, ?_⟩
      · rw [hlook, ← ht, hins.gone v hv]
      · rw [hdram]; simp [hv, ht]
    · right; right
      refine ⟨ha, fun v hvv ht => hv ⟨v, hvv, ht⟩, ?_, ?_⟩
      · rw [hlook]
        exact hins.other _ ha (B.tagOf_ne_invalid a) fun v hvv ht => hv ⟨v, hvv, ht.symm⟩
      · rw [hdram, if_neg]
        rintro ⟨v, hvv, -, ht⟩
        exact hv ⟨v, hvv, ht⟩

theorem insertLine_wellPlaced (cfg : Config B R V F) (access : Access) {addr : IntPtr}
    (dataBuf : V) {st : State B R V F} (hc : st.cache.WellPlaced)
    (habs : st.cache.peekSingleLine addr = none) :
    (insertLine cfg access addr dataBuf st).cache.WellPlaced := by
  obtain ⟨c, hins, hcache, -⟩ := insertLine_spec cfg access dataBuf hc habs
  rw [hcache]
  exact hins.wellPlaced.modifyLine addr fun _ => rfl

theorem insertLine_agrees {cfg : Config B R V F} {access : Access} {addr : IntPtr} {dataBuf : V}
    {st : State B R V F} {mem : IntPtr → V} (h : Agrees st mem)
    (habs : st.cache.peekSingleLine addr = none)
    (hload : access = .LOAD → dataBuf = mem (B.tagOf addr))
    (hk : WritebackKeeps cfg addr dataBuf st) :
    Agrees (insertLine cfg access addr dataBuf st)
      (update mem (B.tagOf addr) dataBuf) := by
  have hline := insertLine_line cfg access dataBuf h.wellPlaced habs
  refine ⟨insertLine_wellPlaced cfg access dataBuf h.wellPlaced habs, ?_, ?_, ?_⟩
  · intro a b hb
    obtain ⟨ha, -, hl⟩ | ⟨v, ha, -, -, hl, -⟩ | ⟨ha, -, hl, -⟩ := hline a
    · rw [hl] at hb; cases hb; rw [ha]; simp
    · rw [hl] at hb; cases hb
    · rw [hl] at hb; rw [update_of_ne ha]; exact h.cached a b hb
  · intro a b hb hclean
    obtain ⟨ha, hd, hl⟩ | ⟨v, ha, -, -, hl, -⟩ | ⟨ha, -, hl, hd⟩ := hline a
    · rw [hl] at hb; cases hb
      cases access with
      | LOAD => rw [hd, ha, update_self, hload rfl]; exact h.absent addr habs
      | STORE => exact absurd rfl hclean
    · rw [hl] at hb; cases hb
    · rw [hl] at hb; rw [hd, update_of_ne ha]; exact h.clean a b hb hclean
  · intro a hb
    obtain ⟨ha, hd, hl⟩ | ⟨v, ha, hv, hold, -, hd⟩ | ⟨ha, -, hl, hd⟩ := hline a
    · rw [hl] at hb; cases hb
    · rw [hd, update_of_ne ha]
      split
      · rename_i hm; rw [← hk v hv hm]; exact h.cached a v hold
      · rename_i hm; exact h.clean a v hold hm
    · rw [hl] at hb; rw [hd, update_of_ne ha]; exact h.absent a hb

/-! ## One call and a whole run -/

/-- The loop of `callPrefetcher` makes only write-backs that carry the victim's bytes. -/
def PrefetchesKeep (cfg : Config B R V F) : List IntPtr → State B R V F → Prop
  | [], _ => True
  | a :: rest, st =>
    (st.cache.peekSingleLine a = none →
      WritebackKeeps cfg a (st.dram.getDataFromDram B a) st) ∧
    PrefetchesKeep cfg rest (prefetchLine cfg st a)

theorem Agrees.modifyLine {st : State B R V F} {mem : IntPtr → V} (h : Agrees st mem)
    (addr : IntPtr) {f : Block V → Block V} (ht : ∀ b, (f b).tag = b.tag)
    (hd : ∀ b, (f b).data = b.data) (hs : ∀ b, (f b).cstate = b.cstate) :
    Agrees { st with cache := st.cache.modifyLine addr f } mem := by
  have hlook : ∀ a b, (st.cache.modifyLine addr f).lookup (B.tagOf a) = some b →
      ∃ b', st.cache.lookup (B.tagOf a) = some b' ∧ b'.data = b.data ∧ b'.cstate = b.cstate := by
    intro a b hb
    rw [Cache.lookup_modifyLine addr ht] at hb
    split at hb
    · obtain ⟨b', hb', rfl⟩ := Option.map_eq_some_iff.mp hb
      exact ⟨b', hb', (hd b').symm, (hs b').symm⟩
    · exact ⟨b, hb, rfl, rfl⟩
  refine ⟨h.wellPlaced.modifyLine addr ht, fun a b hb => ?_, fun a b hb hc => ?_, fun a hb => ?_⟩
  · obtain ⟨b', hb', hdata, -⟩ := hlook a b hb
    rw [← hdata]; exact h.cached a b' hb'
  · obtain ⟨b', hb', -, hstate⟩ := hlook a b hb
    exact h.clean a b' hb' (hstate ▸ hc)
  · refine h.absent a ?_
    rw [Cache.lookup_modifyLine addr ht] at hb
    split at hb
    · exact Option.map_eq_none_iff.mp hb
    · exact hb

theorem prefetchLine_agrees {cfg : Config B R V F} {st : State B R V F} {mem : IntPtr → V}
    (h : Agrees st mem) (a : IntPtr)
    (hk : st.cache.peekSingleLine a = none →
      WritebackKeeps cfg a (st.dram.getDataFromDram B a) st) :
    Agrees (prefetchLine cfg st a) mem := by
  unfold prefetchLine
  cases hp : st.cache.peekSingleLine a with
  | some b => exact h
  | none =>
    have hread : st.dram.getDataFromDram B a = mem (B.tagOf a) := h.absent a hp
    have hload : Access.LOAD = .LOAD → _ := fun _ => hread
    have hins := insertLine_agrees h hp hload (hk hp)
    rw [update_eq_self_iff.mpr hread] at hins
    exact hins.modifyLine a (fun _ => rfl) (fun _ => rfl) fun _ => rfl

theorem foldl_prefetchLine_agrees {cfg : Config B R V F} {mem : IntPtr → V}
    (addrs : List IntPtr) {st : State B R V F} (h : Agrees st mem)
    (hk : PrefetchesKeep cfg addrs st) : Agrees (addrs.foldl (prefetchLine cfg) st) mem := by
  induction addrs generalizing st with
  | nil => exact h
  | cons a rest ih => exact ih (prefetchLine_agrees h a hk.1) hk.2

/-- The prefetches one access triggers make only write-backs that carry the victim's bytes. -/
def CallPrefetcherKeeps (cfg : Config B R V F) (trainAddr : IntPtr) (cacheHit prefetchHit : Bool)
    (st : State B R V F) : Prop :=
  ∀ p, cfg.prefetcher = some p →
    (!cacheHit || (cfg.prefetchOnPrefetchHit && prefetchHit)) = true →
    PrefetchesKeep cfg (p.getNextAddress st.pf trainAddr).1
      { st with pf := (p.getNextAddress st.pf trainAddr).2 }

/-- Every write-back of one access carries the victim's bytes. -/
def AccessKeeps (cfg : Config B R V F) (access : Access) (addr : IntPtr) (dataBuf : V)
    (st : State B R V F) : Prop :=
  (st.cache.peekSingleLine addr = none → WritebackKeeps cfg addr
    (match access with | .LOAD => st.dram.getDataFromDram B addr | .STORE => dataBuf) st) ∧
  ∀ cacheHit prefetchHit data st',
    accessLine cfg access addr dataBuf st = some (cacheHit, prefetchHit, data, st') →
    CallPrefetcherKeeps cfg addr cacheHit prefetchHit st'

def CallKeeps (cfg : Config B R V F) (st : State B R V F) : Call V → Prop
  | .get addr buf => AccessKeeps cfg .LOAD addr buf st
  | .put addr data => AccessKeeps cfg .STORE addr data st

/-- Every step of a run makes only write-backs that carry the victim's bytes. -/
def RunKeeps (cfg : Config B R V F) : State B R V F → List (Call V) → Prop
  | _, [] => True
  | st, call :: calls =>
    CallKeeps cfg st call ∧ ∀ st', step cfg st call = some st' → RunKeeps cfg st' calls

theorem Agrees.ofLookup {st : State B R V F} {mem : IntPtr → V} (h : Agrees st mem)
    {c : Cache B R V} (hc : c.WellPlaced) (hl : ∀ t, c.lookup t = st.cache.lookup t) :
    Agrees { st with cache := c } mem :=
  ⟨hc, fun a b hb => h.cached a b (hl _ ▸ hb), fun a b hb => h.clean a b (hl _ ▸ hb),
    fun a hb => h.absent a (hl _ ▸ hb)⟩

theorem callPrefetcher_agrees {cfg : Config B R V F} {st : State B R V F} {mem : IntPtr → V}
    (h : Agrees st mem) {addr : IntPtr} {cacheHit prefetchHit : Bool}
    (hk : CallPrefetcherKeeps cfg addr cacheHit prefetchHit st) :
    Agrees (callPrefetcher cfg addr cacheHit prefetchHit st) mem := by
  unfold callPrefetcher
  split
  · exact h
  · rename_i p hp
    have ht : Agrees { st with pf := (p.getNextAddress st.pf addr).2 } mem :=
      ⟨h.wellPlaced, h.cached, h.clean, h.absent⟩
    dsimp only
    split
    · rename_i hissue; exact foldl_prefetchLine_agrees _ ht (hk p hp hissue)
    · exact ht

theorem Agrees.store {st : State B R V F} {mem : IntPtr → V} (h : Agrees st mem)
    {addr : IntPtr} {b : Block V} (hb : st.cache.peekSingleLine addr = some b) (dataBuf : V)
    {c : Cache B R V} (hc : c.WellPlaced) (hl : ∀ t, c.lookup t = if t = B.tagOf addr then
      (st.cache.lookup t).map (·.setData dataBuf) else st.cache.lookup t) :
    Agrees { st with cache := c.modifyLine addr (·.setCState .MODIFIED) }
      (update mem (B.tagOf addr) dataBuf) := by
  have hf : ∀ b : Block V, (b.setCState .MODIFIED).tag = b.tag := fun _ => rfl
  have hlook : ∀ a, (c.modifyLine addr (·.setCState .MODIFIED)).lookup (B.tagOf a) =
      if B.tagOf a = B.tagOf addr then some ((b.setData dataBuf).setCState .MODIFIED)
      else st.cache.lookup (B.tagOf a) := by
    intro a
    rw [Cache.lookup_modifyLine addr hf, hl]
    by_cases ha : B.tagOf a = B.tagOf addr
    · simp only [ha, if_true]
      rw [show st.cache.lookup (B.tagOf addr) = some b from hb]; rfl
    · simp only [ha, if_false]
  refine ⟨hc.modifyLine addr hf, fun a x hx => ?_, fun a x hx hclean => ?_, fun a hx => ?_⟩
  · rw [hlook] at hx
    by_cases ha : B.tagOf a = B.tagOf addr
    · rw [if_pos ha] at hx; cases hx; rw [ha]; simp
    · rw [if_neg ha] at hx; rw [update_of_ne ha]; exact h.cached a x hx
  · rw [hlook] at hx
    by_cases ha : B.tagOf a = B.tagOf addr
    · rw [if_pos ha] at hx; cases hx; exact absurd rfl hclean
    · rw [if_neg ha] at hx; rw [update_of_ne ha]; exact h.clean a x hx hclean
  · rw [hlook] at hx
    by_cases ha : B.tagOf a = B.tagOf addr
    · rw [if_pos ha] at hx; cases hx
    · rw [if_neg ha] at hx; rw [update_of_ne ha]; exact h.absent a hx

theorem Agrees.clearPrefetch {st : State B R V F} {mem : IntPtr → V} (h : Agrees st mem)
    {addr : IntPtr} {b : Block V} (hb : st.cache.peekSingleLine addr = some b) :
    ∃ c b', (if b.prefetch then st.cache.modifyLine addr (·.setPrefetch false)
        else st.cache) = c ∧
      Agrees { st with cache := c } mem ∧ c.peekSingleLine addr = some b' ∧ b'.data = b.data := by
  cases hp : b.prefetch with
  | false => exact ⟨_, b, rfl, h, hb, rfl⟩
  | true =>
    have hf : ∀ b : Block V, (b.setPrefetch false).tag = b.tag := fun _ => rfl
    refine ⟨_, b.setPrefetch false, rfl,
      h.modifyLine addr hf (fun _ => rfl) (fun _ => rfl), ?_, rfl⟩
    simp only [if_true, Cache.peekSingleLine]
    rw [Cache.lookup_modifyLine addr hf, if_pos rfl,
      show st.cache.lookup (B.tagOf addr) = some b from hb]
    rfl

theorem accessLine_load {cfg : Config B R V F} {st st' : State B R V F} {mem : IntPtr → V}
    (h : Agrees st mem) {addr : IntPtr} {dataBuf data : V} {cacheHit prefetchHit : Bool}
    (hr : accessLine cfg .LOAD addr dataBuf st = some (cacheHit, prefetchHit, data, st')) :
    data = mem (B.tagOf addr) ∧ (AccessKeeps cfg .LOAD addr dataBuf st → Agrees st' mem) := by
  unfold accessLine at hr
  cases hp : st.cache.peekSingleLine addr with
  | none =>
    rw [hp] at hr
    obtain ⟨-, -, rfl, rfl⟩ := hr
    have hread : st.dram.getDataFromDram B addr = mem (B.tagOf addr) := h.absent addr hp
    refine ⟨hread, fun hk => ?_⟩
    have hload : Access.LOAD = .LOAD → _ := fun _ => hread
    have hins := insertLine_agrees h hp hload (hk.1 hp)
    rwa [update_eq_self_iff.mpr hread] at hins
  | some b =>
    obtain ⟨c, b', hc, hagree, hb', hdata⟩ := h.clearPrefetch hp
    rw [hp] at hr
    simp only [hc, reduceCtorEq, if_false] at hr
    obtain ⟨⟨buf, c'⟩, hacc, hr⟩ := Option.bind_eq_some_iff.mp hr
    obtain ⟨-, -, rfl, rfl⟩ := hr
    obtain ⟨hwp, hbuf, hl⟩ := Cache.accessSingleLine_load hagree.wellPlaced hb' hacc
    refine ⟨?_, fun _ => hagree.ofLookup hwp hl⟩
    rw [hbuf]
    exact hagree.cached addr b' hb'

theorem accessLine_store {cfg : Config B R V F} {st st' : State B R V F} {mem : IntPtr → V}
    (h : Agrees st mem) {addr : IntPtr} {dataBuf data : V} {cacheHit prefetchHit : Bool}
    (hk : AccessKeeps cfg .STORE addr dataBuf st)
    (hr : accessLine cfg .STORE addr dataBuf st = some (cacheHit, prefetchHit, data, st')) :
    Agrees st' (update mem (B.tagOf addr) dataBuf) := by
  unfold accessLine at hr
  cases hp : st.cache.peekSingleLine addr with
  | none =>
    rw [hp] at hr
    obtain ⟨-, -, -, rfl⟩ := hr
    exact insertLine_agrees h hp (fun hs => by cases hs) (hk.1 hp)
  | some b =>
    obtain ⟨c, b', hc, hagree, hb', -⟩ := h.clearPrefetch hp
    rw [hp] at hr
    simp only [hc, if_true] at hr
    obtain ⟨⟨buf, c'⟩, hacc, hr⟩ := Option.bind_eq_some_iff.mp hr
    obtain ⟨-, -, -, rfl⟩ := hr
    obtain ⟨hwp, -, hl⟩ := Cache.accessSingleLine_store hagree.wellPlaced hb' hacc
    exact hagree.store hb' dataBuf hwp hl

theorem doAccess_eq_some {cfg : Config B R V F} {access : Access} {addr : IntPtr}
    {dataBuf data : V} {st st' : State B R V F} {cacheHit : Bool}
    (h : doAccess cfg access addr dataBuf st = some (cacheHit, data, st')) :
    ∃ prefetchHit st1, accessLine cfg access addr dataBuf st =
        some (cacheHit, prefetchHit, data, st1) ∧
      st' = callPrefetcher cfg addr cacheHit prefetchHit st1 := by
  obtain ⟨⟨hit, ph, buf, st1⟩, hr, hx⟩ := Option.bind_eq_some_iff.mp h
  obtain ⟨rfl, rfl, rfl⟩ := hx
  exact ⟨ph, st1, hr, rfl⟩

theorem step_agrees {cfg : Config B R V F} {st st' : State B R V F} {mem : IntPtr → V}
    (h : Agrees st mem) {call : Call V} (hk : CallKeeps cfg st call)
    (hs : step cfg st call = some st') : Agrees st' (written B mem call) := by
  cases call with
  | get addr buf =>
    simp only [step, getDataFromDram, Option.map_map, Option.map_eq_some_iff] at hs
    obtain ⟨⟨hit, data, st2⟩, hd, rfl⟩ := hs
    obtain ⟨ph, st1, hr, rfl⟩ := doAccess_eq_some hd
    exact callPrefetcher_agrees ((accessLine_load h hr).2 hk) (hk.2 _ _ _ _ hr)
  | put addr data =>
    simp only [step, putDataToDram, Option.map_eq_some_iff] at hs
    obtain ⟨⟨hit, buf, st2⟩, hd, rfl⟩ := hs
    obtain ⟨ph, st1, hr, rfl⟩ := doAccess_eq_some hd
    exact callPrefetcher_agrees (accessLine_store h hk hr) (hk.2 _ _ _ _ hr)

theorem run_agrees {cfg : Config B R V F} {st st' : State B R V F} {mem : IntPtr → V}
    (h : Agrees st mem) {calls : List (Call V)} (hk : RunKeeps cfg st calls)
    (hr : run cfg st calls = some st') : Agrees st' (lastPut B mem calls) := by
  induction calls generalizing st mem with
  | nil => cases hr; exact h
  | cons call calls ih =>
    obtain ⟨st1, hs, hr⟩ := Option.bind_eq_some_iff.mp hr
    exact ih (step_agrees h hk.1 hs) (hk.2 st1 hs) hr

/-- **Transparency of the DRAM cache.** After a run from an empty cache in which every
write-back of a dirty victim carries the victim's bytes, a read returns the last value
put to its line, or the initial content of the DRAM. -/
theorem getDataFromDram_returns_lastPut {cfg : Config B R V F} {repl : Fin B.numSets → R}
    {zero : V} {dram : DramCntlr V} {pf : F} {calls : List (Call V)} {st st' : State B R V F}
    (hr : run cfg (initial repl zero dram pf) calls = some st)
    (hk : RunKeeps cfg (initial repl zero dram pf) calls) {addr : IntPtr} {buf data : V}
    (hg : getDataFromDram cfg addr buf st = some (data, st')) :
    data = lastPut B dram calls (B.tagOf addr) := by
  have hagree := run_agrees (initial_agrees repl zero dram pf) hk hr
  obtain ⟨⟨hit, data', st2⟩, hd, hx⟩ := Option.map_eq_some_iff.mp hg
  cases hx
  obtain ⟨ph, st1, hacc, -⟩ := doAccess_eq_some hd
  exact (accessLine_load hagree hacc).1

/-! ## A direct-mapped instance -/

open scoped Lib.Sizes

/-- One set of one way with 64-byte blocks. -/
def oneLine : CacheBase := ⟨1, 1, 6, fun _ => 0, by decide⟩

def directMapped : Config oneLine (Fin 1) Nat Unit := ⟨roundRobin 0 Nat, none, false⟩

/-- The read of line 1 evicts the dirty line 0; both lines have the same bytes, so the
write-back keeps them. -/
theorem getDataFromDram_returns_lastPut_directMapped :
    ∃ st data st', run directMapped (initial (fun _ => 0) 0 (fun _ => 7) ())
        [.put 0 7, .get 0x40 0] = some st ∧
      getDataFromDram directMapped 0 0 st = some (data, st') ∧
      data = lastPut oneLine (fun _ => 7) [.put 0 7, .get 0x40 0] (oneLine.tagOf 0) := by
  have hkeeps : RunKeeps directMapped (initial (fun _ => 0) 0 (fun _ => 7) ())
      [.put 0 7, .get 0x40 0] := by
    refine ⟨⟨?_, ?_⟩, ?_⟩
    · intro _ v hv _; cases hv
    · intro _ _ _ _ _ p hp; cases hp
    · intro st' hs
      cases hs
      refine ⟨⟨?_, ?_⟩, fun _ _ => trivial⟩
      · intro _ v hv _; cases hv; rfl
      · intro _ _ _ _ _ p hp; cases hp
  have hruns : ∃ st data st', run directMapped (initial (fun _ => 0) 0 (fun _ => 7) ())
      [.put 0 7, .get 0x40 0] = some st ∧
      getDataFromDram directMapped 0 0 st = some (data, st') := ⟨_, _, _, rfl, rfl⟩
  obtain ⟨st, data, st', hr, hg⟩ := hruns
  exact ⟨st, data, st', hr, hg, getDataFromDram_returns_lastPut hr hkeeps hg⟩

/-- Lines 0 and 1 share the only way. The write of line 1 sends its bytes to the DRAM as those of
line 0. -/
theorem getDataFromDram_returns_other_line :
    ∃ st data st', run directMapped (initial (fun _ => 0) 0 (fun _ => 0) ())
        [.put 0 1, .put 0x40 2] = some st ∧
      getDataFromDram directMapped 0 0 st = some (data, st') ∧
      data ≠ lastPut oneLine (fun _ => 0) [.put 0 1, .put 0x40 2] (oneLine.tagOf 0) := by
  refine ⟨_, _, _, rfl, rfl, ?_⟩
  decide

end Sniper.Memory.DramCache
