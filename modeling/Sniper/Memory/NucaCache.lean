import Sniper.Memory.SetAssoc

/-! # The NUCA slice and the write-backs it holds

`NucaCache::read` and `write` with the two functions of the directory controller that call
`write`. The three outputs `eviction`, `evict_address` and `evict_buf` are the caller's
uninitialised locals: `write` gets their values and returns them, changed only where the source
assigns them.

A run is any sequence of the directory's operations. A clean fill follows a DRAM reply, so it is a
step only for a line whose read missed and is still waiting for the reply.
-/
namespace Sniper.Memory.NucaCache
open Memory.SetAssoc Function

variable {B : CacheBase} {R V : Type}

/-- The output parameters of `NucaCache::write`, with whatever values the caller's locals
hold. -/
structure EvictOut (V : Type) where
  eviction : Bool
  evictAddress : IntPtr
  evictBuf : V

/-- A `DRAM_WRITE_REQ`. -/
structure DramWrite (V : Type) where
  address : IntPtr
  data : V

/-- `NucaCache::read`: whether the line was found, the data buffer and the cache. -/
def read (pol : ReplacementPolicy B.assoc R V) (c : Cache B R V) (addr : IntPtr) (dataBuf : V) :
    Option (Bool × V × Cache B R V) :=
  match c.peekSingleLine addr with
  | some _ => (c.accessSingleLine pol .LOAD addr dataBuf).map fun r => (true, r)
  | none => some (false, dataBuf, c)

/-- `NucaCache::write`. A hit marks the line MODIFIED and leaves the outputs alone; a miss
inserts the line as it comes, with no state set. -/
def write (pol : ReplacementPolicy B.assoc R V) (c : Cache B R V) (addr : IntPtr) (dataBuf : V)
    (out : EvictOut V) : Option (Bool × EvictOut V × Cache B R V) :=
  match c.peekSingleLine addr with
  | some _ =>
    ((c.modifyLine addr (·.setCState .MODIFIED)).accessSingleLine pol .STORE addr dataBuf).map
      fun r => (true, out, r.2)
  | none =>
    let (evict, c) := c.insertSingleLine pol addr dataBuf
    match evict with
    | some v =>
      -- unless its data is dirty, the caller does not write it back
      some (false, ⟨v.cstate == .MODIFIED, B.tagToAddress v.tag, v.data⟩, c)
    | none => some (false, ⟨false, B.tagToAddress invalidTag, out.evictBuf⟩, c)

/-- `DramDirectoryCntlr::sendDataToNUCA`: what it sends to the DRAM, and the cache. -/
def sendDataToNUCA (pol : ReplacementPolicy B.assoc R V) (c : Cache B R V) (addr : IntPtr)
    (dataBuf : V) (out : EvictOut V) : Option (List (DramWrite V) × Cache B R V) :=
  (write pol c addr dataBuf out).map fun (_, out, c) =>
    (if out.eviction then [⟨out.evictAddress, out.evictBuf⟩] else [], c)

/-- `DramDirectoryCntlr::sendDataToDram` of a directory with a NUCA cache. -/
def sendDataToDram (pol : ReplacementPolicy B.assoc R V) (c : Cache B R V) (addr : IntPtr)
    (dataBuf : V) (out : EvictOut V) : Option (List (DramWrite V) × Cache B R V) :=
  sendDataToNUCA pol c addr dataBuf out

/-! ## Runs -/

inductive Event (V : Type) where
  | writeback (tag : IntPtr) (data : V)
  | dramWrite (tag : IntPtr) (data : V)

structure State (B : CacheBase) (R V : Type) where
  cache : Cache B R V
  /-- the lines with a `DRAM_READ_REQ` in progress -/
  waiting : IntPtr → Bool
  /-- newest first -/
  log : List (Event V)

def initial (repl : Fin B.numSets → R) (zero : V) : State B R V :=
  ⟨.init B repl zero, fun _ => false, []⟩

inductive Op (V : Type) where
  | read (addr : IntPtr) (dataBuf : V)
  | fill (addr : IntPtr) (data : V) (out : EvictOut V)
  | writeback (addr : IntPtr) (data : V) (out : EvictOut V)

/-- One operation of the directory: the write requests it sends and the next state; `none`
when an assertion fails or no DRAM reply is due. -/
def step (pol : ReplacementPolicy B.assoc R V) (st : State B R V) :
    Op V → Option (List (DramWrite V) × State B R V)
  | .read addr dataBuf =>
    (read pol st.cache addr dataBuf).map fun (hit, _, c) =>
      ([], { st with
        cache := c
        waiting := if hit then st.waiting
          else update st.waiting (B.tagOf addr) true })
  | .fill addr data out =>
    if st.waiting (B.tagOf addr) then
      (sendDataToNUCA pol st.cache addr data out).map fun (sent, c) =>
        (sent, {
          cache := c
          waiting := update st.waiting (B.tagOf addr) false
          log := sent.map (fun w => .dramWrite (B.tagOf w.address) w.data) ++ st.log })
    else none
  | .writeback addr data out =>
    (sendDataToDram pol st.cache addr data out).map fun (sent, c) =>
      (sent, { st with
        cache := c
        log := sent.map (fun w => .dramWrite (B.tagOf w.address) w.data) ++
          .writeback (B.tagOf addr) data :: st.log })

def run (pol : ReplacementPolicy B.assoc R V) :
    State B R V → List (Op V) → Option (State B R V)
  | st, [] => some st
  | st, op :: ops => (step pol st op).bind fun r => run pol r.2 ops

/-! ## The property -/

/-- The latest dirty write-back of each line of a log is `held`, or has been sent to the
DRAM since. -/
def Kept (held : IntPtr → V → Prop) (log : List (Event V)) : Prop :=
  ∀ later earlier t data, log = later ++ .writeback t data :: earlier →
    (∀ d, .writeback t d ∉ later) → held t data ∨ .dramWrite t data ∈ later

/-- The cache has `data` for the line in a MODIFIED block. -/
def HoldsDirty (c : Cache B R V) (tag : IntPtr) (data : V) : Prop :=
  ∃ b, c.lookup tag = some b ∧ b.cstate = .MODIFIED ∧ b.data = data

def NothingDropped (st : State B R V) : Prop := Kept (HoldsDirty st.cache) st.log

/-- The line of a write request was in the cache with these data and has left it. -/
def Evicted (c c' : Cache B R V) (w : DramWrite V) : Prop :=
  ∃ b, c.lookup (B.tagOf w.address) = some b ∧ b.data = w.data ∧
    c'.lookup (B.tagOf w.address) = none

/-- In every state of the run no write-back is dropped, and every step sends only lines it
evicts. -/
def RunSafe (pol : ReplacementPolicy B.assoc R V) : State B R V → List (Op V) → Prop
  | st, [] => NothingDropped st
  | st, op :: ops => NothingDropped st ∧ ∀ sent st', step pol st op = some (sent, st') →
      (∀ w ∈ sent, Evicted st.cache st'.cache w) ∧ RunSafe pol st' ops

/-- A dirty write-back finds its line, and the caller's `eviction` happens to be false. -/
def OpHits (st : State B R V) : Op V → Prop
  | .read _ _ => True
  | .fill _ _ _ => True
  | .writeback addr _ out => st.cache.peekSingleLine addr ≠ none ∧ out.eviction = false

def RunHits (pol : ReplacementPolicy B.assoc R V) : State B R V → List (Op V) → Prop
  | _, [] => True
  | st, op :: ops => OpHits st op ∧ ∀ sent st', step pol st op = some (sent, st') →
      RunHits pol st' ops

/-! ## The log -/

theorem Kept.writeback {held held' : IntPtr → V → Prop} {log : List (Event V)}
    (h : Kept held log) {t : IntPtr} {data : V} (hnew : held' t data)
    (hold : ∀ u d, u ≠ t → held u d → held' u d) :
    Kept held' (.writeback t data :: log) := by
  intro later earlier u d hlog hlast
  cases later with
  | nil => cases hlog; exact .inl hnew
  | cons e later =>
    cases hlog
    have hu : u ≠ t := by rintro rfl; exact hlast data (List.mem_cons_self ..)
    obtain hh | hs := h later earlier u d rfl fun x hx => hlast x (List.mem_cons_of_mem _ hx)
    · exact .inl (hold u d hu hh)
    · exact .inr (List.mem_cons_of_mem _ hs)

theorem Kept.dramWrite {held held' : IntPtr → V → Prop} {log : List (Event V)}
    (h : Kept held log) {w : IntPtr} {x : V}
    (hold : ∀ u d, .writeback u d ∈ log → held u d → held' u d ∨ (u = w ∧ d = x)) :
    Kept held' (.dramWrite w x :: log) := by
  intro later earlier u d hlog hlast
  cases later with
  | nil => cases hlog
  | cons e later =>
    cases hlog
    obtain hh | hs := h later earlier u d rfl fun x hx => hlast x (List.mem_cons_of_mem _ hx)
    · obtain hh | ⟨rfl, rfl⟩ := hold u d (by simp) hh
      · exact .inl hh
      · exact .inr (List.mem_cons_self ..)
    · exact .inr (List.mem_cons_of_mem _ hs)

theorem Kept.mono {held held' : IntPtr → V → Prop} {log : List (Event V)} (h : Kept held log)
    (hold : ∀ u d, .writeback u d ∈ log → held u d → held' u d) : Kept held' log := by
  intro later earlier u d hlog hlast
  exact (h later earlier u d hlog hlast).imp_left (hold u d (by simp [hlog]))

/-! ## One call of `write` -/

theorem write_hit {pol} {c : Cache B R V} (hc : c.WellPlaced) {addr} {b : Block V}
    (hb : c.peekSingleLine addr = some b) {dataBuf} {out : EvictOut V} {sent c'}
    (h : sendDataToNUCA pol c addr dataBuf out = some (sent, c')) :
    (sent = if out.eviction then [⟨out.evictAddress, out.evictBuf⟩] else []) ∧ c'.WellPlaced ∧
      c'.lookup (B.tagOf addr) = some ((b.setCState .MODIFIED).setData dataBuf) ∧
      ∀ t, t ≠ B.tagOf addr → c'.lookup t = c.lookup t := by
  have hf : ∀ b : Block V, (b.setCState .MODIFIED).tag = b.tag := fun _ => rfl
  have hmod : (c.modifyLine addr (·.setCState .MODIFIED)).peekSingleLine addr =
      some (b.setCState .MODIFIED) := by
    rw [Cache.peekSingleLine, Cache.lookup_modifyLine addr hf, if_pos rfl,
      show c.lookup (B.tagOf addr) = some b from hb]
    rfl
  rw [sendDataToNUCA, write, hb] at h
  obtain ⟨_, hw, hx⟩ := Option.map_eq_some_iff.mp h
  obtain ⟨⟨d, c1⟩, hacc, rfl⟩ := Option.map_eq_some_iff.mp hw
  obtain ⟨rfl, rfl⟩ := Prod.mk.inj hx
  obtain ⟨hwp, -, hl⟩ := Cache.accessSingleLine_store (hc.modifyLine addr hf) hmod hacc
  refine ⟨rfl, hwp, ?_, fun t ht => ?_⟩
  · rw [hl, if_pos rfl, show Cache.lookup _ _ = _ from hmod]; rfl
  · rw [hl, if_neg ht, Cache.lookup_modifyLine addr hf, if_neg ht]

/-- The write request for an evicted block, if it is dirty. -/
def dirtyVictim (B : CacheBase) : Option (Block V) → List (DramWrite V)
  | some v => if v.cstate = .MODIFIED then [⟨B.tagToAddress v.tag, v.data⟩] else []
  | none => []

theorem write_miss {pol} {c : Cache B R V} (hc : c.WellPlaced) {addr}
    (hb : c.peekSingleLine addr = none) {dataBuf out sent c'}
    (h : sendDataToNUCA pol c addr dataBuf out = some (sent, c')) :
    ∃ evict, Cache.Inserted c c' (.fresh (B.tagOf addr) dataBuf) evict ∧
      sent = dirtyVictim B evict := by
  cases hi : c.insertSingleLine pol addr dataBuf with
  | mk evict c1 =>
    have hins := Cache.insertSingleLine_spec pol hc hb hi
    rw [sendDataToNUCA, write, hb] at h
    simp only [hi] at h
    cases evict with
    | none =>
      obtain ⟨rfl, rfl⟩ := h
      exact ⟨none, hins, rfl⟩
    | some v =>
      simp only [Option.map_some, Option.some.injEq, Prod.mk.injEq, beq_iff_eq] at h
      obtain ⟨rfl, rfl⟩ := h
      exact ⟨some v, hins, rfl⟩

theorem mem_dirtyVictim {evict : Option (Block V)} {w : DramWrite V}
    (h : w ∈ dirtyVictim B evict) : ∃ v, evict = some v ∧ v.cstate = .MODIFIED ∧
      w = ⟨B.tagToAddress v.tag, v.data⟩ := by
  cases evict with
  | none => cases h
  | some v =>
    by_cases hm : v.cstate = .MODIFIED
    · simp only [dirtyVictim, hm, if_true, List.mem_singleton] at h
      exact ⟨v, rfl, hm, h⟩
    · simp [dirtyVictim, hm] at h

theorem tagOf_victim {c c' : Cache B R V} {new v : Block V}
    (hins : Cache.Inserted c c' new (some v)) : B.tagOf (B.tagToAddress v.tag) = v.tag := by
  obtain ⟨a, ha⟩ := hins.tagged v rfl
  rw [ha]; exact B.tagOf_tagToAddress_tagOf a

theorem evicted_of_miss {c c' : Cache B R V} {new : Block V} {evict : Option (Block V)}
    (hins : Cache.Inserted c c' new evict) {w : DramWrite V} (hw : w ∈ dirtyVictim B evict) :
    Evicted c c' w := by
  obtain ⟨v, rfl, -, rfl⟩ := mem_dirtyVictim hw
  have ht := tagOf_victim hins
  refine ⟨v, ?_, rfl, ?_⟩
  · rw [ht]; exact hins.held v rfl
  · rw [ht]; exact hins.gone v rfl

theorem Kept.insert {c c' : Cache B R V} {new : Block V} {evict : Option (Block V)}
    {log : List (Event V)} (h : Kept (HoldsDirty c) log)
    (hins : Cache.Inserted c c' new evict) (habs : c.lookup new.tag = none)
    (htag : ∀ t d, .writeback t d ∈ log → ∃ a, t = B.tagOf a) :
    Kept (HoldsDirty c') ((dirtyVictim B evict).map
      (fun w => .dramWrite (B.tagOf w.address) w.data) ++ log) := by
  have hother : ∀ t d, .writeback t d ∈ log → HoldsDirty c t d →
      (∀ v, evict = some v → t ≠ v.tag) → HoldsDirty c' t d := by
    intro t d hmem ⟨b, hb, hm, hd⟩ hv
    obtain ⟨a, ha⟩ := htag t d hmem
    have hne : t ≠ new.tag := by rintro rfl; rw [habs] at hb; cases hb
    exact ⟨b, by rw [hins.other t hne (ha ▸ B.tagOf_ne_invalid a) hv]; exact hb, hm, hd⟩
  cases evict with
  | none => exact h.mono fun t d hmem hh => hother t d hmem hh fun v hv => by cases hv
  | some v =>
    by_cases hm : v.cstate = .MODIFIED
    · have hone : dirtyVictim B (some v) = [⟨B.tagToAddress v.tag, v.data⟩] := by
        simp [dirtyVictim, hm]
      rw [hone]
      refine h.dramWrite fun t d hmem hh => ?_
      by_cases ht : t = v.tag
      · right
        obtain ⟨b, hb, -, hd⟩ := hh
        rw [ht, hins.held v rfl] at hb
        cases hb
        exact ⟨ht.trans (tagOf_victim hins).symm, hd.symm⟩
      · left
        exact hother t d hmem hh fun w hw => by cases hw; exact ht
    · have hnone : dirtyVictim B (some v) = [] := by simp [dirtyVictim, hm]
      rw [hnone]
      refine h.mono fun t d hmem hh => hother t d hmem hh fun w hw => ?_
      cases hw
      rintro rfl
      obtain ⟨b, hb, hbm, -⟩ := hh
      rw [hins.held v rfl] at hb
      cases hb
      exact hm hbm

/-! ## Steps -/

structure Inv (st : State B R V) : Prop where
  wellPlaced : st.cache.WellPlaced
  kept : NothingDropped st
  waiting : ∀ a, st.waiting (B.tagOf a) = true → st.cache.lookup (B.tagOf a) = none
  tagged : ∀ t d, .writeback t d ∈ st.log → ∃ a, t = B.tagOf a

theorem initial_inv (repl : Fin B.numSets → R) (zero : V) :
    Inv (initial (B := B) repl zero) where
  wellPlaced := Cache.init_wellPlaced repl zero
  kept later earlier t data h _ := by simp [initial] at h
  waiting a h := by cases h
  tagged t d h := by cases h

theorem step_read {pol : ReplacementPolicy B.assoc R V} {st st' : State B R V} (h : Inv st)
    {addr : IntPtr} {buf : V} {sent} (hs : step pol st (.read addr buf) = some (sent, st')) :
    sent = [] ∧ Inv st' := by
  obtain ⟨⟨hit, d, c⟩, hr, hx⟩ := Option.map_eq_some_iff.mp hs
  obtain ⟨rfl, rfl⟩ := Prod.mk.inj hx
  refine ⟨rfl, ?_⟩
  unfold read at hr
  cases hp : st.cache.peekSingleLine addr with
  | none =>
    rw [hp] at hr
    cases hr
    refine ⟨h.wellPlaced, h.kept, fun a ha => ?_, h.tagged⟩
    simp only [Bool.false_eq_true, if_false, update_apply] at ha
    split at ha
    · rename_i heq; rw [heq]; exact hp
    · exact h.waiting a ha
  | some b =>
    rw [hp] at hr
    obtain ⟨⟨d', c'⟩, hacc, hx⟩ := Option.map_eq_some_iff.mp hr
    cases hx
    obtain ⟨hwp, -, hl⟩ := Cache.accessSingleLine_load h.wellPlaced hp hacc
    refine ⟨hwp, h.kept.mono fun u d _ hu => ?_, fun a ha => ?_, h.tagged⟩
    · obtain ⟨x, hx, hm, hd⟩ := hu
      exact ⟨x, by rw [hl]; exact hx, hm, hd⟩
    · rw [hl]; exact h.waiting a ha

theorem step_fill {pol} {st st' : State B R V} (h : Inv st) {addr data out sent}
    (hs : step pol st (.fill addr data out) = some (sent, st')) :
    (∀ w ∈ sent, Evicted st.cache st'.cache w) ∧ Inv st' := by
  rw [step] at hs
  by_cases hwait : st.waiting (B.tagOf addr) = true
  · rw [if_pos hwait] at hs
    obtain ⟨⟨ws, c⟩, hsend, hx⟩ := Option.map_eq_some_iff.mp hs
    obtain ⟨rfl, rfl⟩ := Prod.mk.inj hx
    have habs : st.cache.peekSingleLine addr = none := h.waiting addr hwait
    obtain ⟨evict, hins, rfl⟩ := write_miss h.wellPlaced habs hsend
    refine ⟨fun w hw => evicted_of_miss hins hw, hins.wellPlaced, ?_, ?_, ?_⟩
    · exact Kept.insert h.kept hins habs h.tagged
    · intro a ha
      simp only [update_apply] at ha
      split at ha
      · cases ha
      · rename_i hne
        have habs' := h.waiting a ha
        rw [hins.other _ hne (B.tagOf_ne_invalid a) ?_]
        · exact habs'
        · intro v hv ht
          rw [ht, hins.held v hv] at habs'; cases habs'
    · intro t d hmem
      refine h.tagged t d ?_
      simpa using hmem
  · rw [if_neg hwait] at hs; cases hs

theorem step_writeback {pol : ReplacementPolicy B.assoc R V} {st st' : State B R V} (h : Inv st)
    {addr : IntPtr} {data : V} {out : EvictOut V} {sent}
    (hs : step pol st (.writeback addr data out) = some (sent, st'))
    (hhit : OpHits st (.writeback addr data out)) : sent = [] ∧ Inv st' := by
  obtain ⟨⟨ws, c⟩, hsend, hx⟩ := Option.map_eq_some_iff.mp hs
  obtain ⟨rfl, rfl⟩ := Prod.mk.inj hx
  obtain ⟨b, hb⟩ := Option.ne_none_iff_exists'.mp hhit.1
  obtain ⟨rfl, hwp, hself, hother⟩ := write_hit h.wellPlaced hb hsend
  rw [hhit.2]
  refine ⟨rfl, hwp, ?_, ?_, ?_⟩
  · refine Kept.writeback h.kept ⟨_, hself, rfl, rfl⟩ fun t d ht ⟨x, hx, hm, hd⟩ => ?_
    exact ⟨x, by rw [hother t ht]; exact hx, hm, hd⟩
  · intro a ha
    have habs := h.waiting a ha
    have hne : B.tagOf a ≠ B.tagOf addr := by
      intro he; rw [he, show st.cache.lookup _ = some b from hb] at habs; cases habs
    exact (hother _ hne).trans habs
  · intro t d hmem
    obtain he | hmem := List.mem_cons.mp hmem
    · cases he; exact ⟨addr, rfl⟩
    · exact h.tagged t d hmem

theorem step_writeback_unsafe {pol} {st st' : State B R V} (h : Inv st) {addr data out sent}
    (hs : step pol st (.writeback addr data out) = some (sent, st'))
    (hmiss : ¬ OpHits st (.writeback addr data out)) :
    ¬ ((∀ w ∈ sent, Evicted st.cache st'.cache w) ∧ NothingDropped st') := by
  intro ⟨hev, hkept⟩
  obtain ⟨⟨ws, c⟩, hsend, hx⟩ := Option.map_eq_some_iff.mp hs
  obtain ⟨rfl, rfl⟩ := Prod.mk.inj hx
  cases hp : st.cache.peekSingleLine addr with
  | none =>
    obtain ⟨evict, hins, rfl⟩ := write_miss h.wellPlaced hp hsend
    obtain ⟨b, hb, hm, -⟩ | hsent := hkept _ _ _ _ rfl (by simp)
    · rw [show c.lookup (B.tagOf addr) = _ from hins.self] at hb
      cases hb; cases hm
    · obtain ⟨w, hw, he⟩ := List.mem_map.mp hsent
      obtain ⟨v, rfl, -, rfl⟩ := mem_dirtyVictim hw
      have ht : v.tag = B.tagOf addr := by
        rw [← tagOf_victim hins]; injection he
      have hheld := hins.held v rfl
      rw [ht, show st.cache.lookup _ = none from hp] at hheld
      cases hheld
  | some b =>
    obtain ⟨rfl, hwp, hself, hother⟩ := write_hit h.wellPlaced hp hsend
    have hout : out.eviction = true := by
      by_contra hf
      exact hmiss ⟨by simp [hp], by simpa using hf⟩
    rw [hout] at hev
    obtain ⟨x, hx, -, hgone⟩ := hev _ (List.mem_singleton.mpr rfl)
    by_cases ht : B.tagOf out.evictAddress = B.tagOf addr
    · rw [ht, hself] at hgone; cases hgone
    · rw [hother _ ht, hx] at hgone; cases hgone

theorem step_safe {pol} {st st' : State B R V} (h : Inv st) {op sent}
    (hs : step pol st op = some (sent, st')) (hhit : OpHits st op) :
    (∀ w ∈ sent, Evicted st.cache st'.cache w) ∧ Inv st' := by
  cases op with
  | read addr buf =>
    obtain ⟨rfl, hi⟩ := step_read h hs
    exact ⟨by simp, hi⟩
  | fill addr data out => exact step_fill h hs
  | writeback addr data out =>
    obtain ⟨rfl, hi⟩ := step_writeback h hs hhit
    exact ⟨by simp, hi⟩

theorem step_hits {pol} {st st' : State B R V} (h : Inv st) {op sent}
    (hs : step pol st op = some (sent, st')) (hev : ∀ w ∈ sent, Evicted st.cache st'.cache w)
    (hkept : NothingDropped st') :
    OpHits st op := by
  cases op with
  | read addr buf | fill addr data out => trivial
  | writeback addr data out =>
    by_contra hmiss
    exact step_writeback_unsafe h hs hmiss ⟨hev, hkept⟩

theorem RunSafe.kept {pol : ReplacementPolicy B.assoc R V} {st : State B R V} {ops : List (Op V)}
    (h : RunSafe pol st ops) : NothingDropped st := by
  cases ops with
  | nil => exact h
  | cons op ops => exact h.1

theorem runSafe_iff_of_inv {pol : ReplacementPolicy B.assoc R V} {st st' : State B R V}
    (h : Inv st) {ops : List (Op V)} (hr : run pol st ops = some st') :
    RunSafe pol st ops ↔ RunHits pol st ops := by
  induction ops generalizing st with
  | nil => exact ⟨fun _ => trivial, fun _ => h.kept⟩
  | cons op ops ih =>
    obtain ⟨⟨sent, st1⟩, hs, hr⟩ := Option.bind_eq_some_iff.mp hr
    constructor
    · rintro ⟨-, hrest⟩
      obtain ⟨hev, hsafe⟩ := hrest sent st1 hs
      have hhit := step_hits h hs hev hsafe.kept
      refine ⟨hhit, fun sent' st2 hs' => ?_⟩
      rw [hs] at hs'
      cases hs'
      exact (ih (step_safe h hs hhit).2 hr).mp hsafe
    · intro ⟨hhit, hrest⟩
      refine ⟨h.kept, fun sent' st2 hs' => ?_⟩
      rw [hs] at hs'
      cases hs'
      obtain ⟨hev, hi⟩ := step_safe h hs hhit
      exact ⟨hev, (ih hi hr).mpr (hrest sent st1 hs)⟩

/-- **Dirty lines in the NUCA slice.** In a run from an empty slice, no write-back is
dropped and every write request names an evicted line, exactly when every dirty
write-back finds its line with `eviction` false. -/
theorem runSafe_iff_runHits {pol : ReplacementPolicy B.assoc R V} {repl : Fin B.numSets → R}
    {zero : V} {ops : List (Op V)} {st : State B R V}
    (hr : run pol (initial repl zero) ops = some st) :
    RunSafe pol (initial repl zero) ops ↔ RunHits pol (initial repl zero) ops :=
  runSafe_iff_of_inv (initial_inv repl zero) hr

/-! ## A direct-mapped instance -/

open scoped Lib.Sizes

/-- One set of one way with 64-byte blocks. -/
def oneLine : CacheBase := ⟨1, 1, 6, fun _ => 0, Nat.succ_pos 5⟩

def clean : EvictOut Nat := ⟨false, 0, 0⟩

/-- A read miss, its fill and a write-back that hits. -/
def hittingRun : List (Op Nat) := [.read 0 0, .fill 0 5 clean, .writeback 0 6 clean]

theorem runSafe_hittingRun :
    RunSafe (B := oneLine) (roundRobin 0 Nat) (initial (fun _ => 0) 0) hittingRun := by
  have hr : ∃ st, run (B := oneLine) (roundRobin 0 Nat) (initial (fun _ => 0) 0) hittingRun =
      some st := ⟨_, rfl⟩
  obtain ⟨st, hr⟩ := hr
  refine (runSafe_iff_runHits hr).mpr ⟨trivial, fun _ st1 h1 => ?_⟩
  cases h1
  refine ⟨trivial, fun _ st2 h2 => ?_⟩
  cases h2
  exact ⟨⟨Option.some_ne_none _, rfl⟩, fun _ _ _ => trivial⟩

/-- A dirty write-back to an empty slice, then a fill of the other line: the written line
is evicted as if it were clean, and nothing is sent. -/
theorem writeback_miss_dropped :
    ∃ st, run (B := oneLine) (roundRobin 0 Nat) (initial (fun _ => 0) 0)
        [.writeback 0 6 clean, .read 0x40 0, .fill 0x40 5 clean] = some st ∧
      ¬ NothingDropped st := by
  refine ⟨_, rfl, fun h => ?_⟩
  obtain ⟨b, hb, hm, -⟩ | hs := h [] [] 0 6 rfl (by simp)
  · cases hb
  · cases hs

end Sniper.Memory.NucaCache
