import Mathlib.Data.List.GetD
import Mathlib.Data.ZMod.Defs
import Sniper.Lib.Servers
import Sniper.Lib.Simulation
import Sniper.Timing.ContentionModel

/-! # Contention in full

The whole of `ContentionModel`, over any type of times: the 64 bits of a `SubsecondTime`, which
wrap around, or natural numbers where no sum overflows. -/

namespace Sniper.Timing

/-- `ContentionModel`: the slots, each with the time until which it is taken and a tag. -/
structure Contention (T : Type) where
  m_time : List (T × Nat)
  m_t_last : T

namespace Contention

section Model
variable {T : Type} [LinearOrder T] [Zero T] [Add T] (m : Contention T)

def create (T : Type) [Zero T] (num_outstanding : Nat) : Contention T :=
  ⟨List.replicate num_outstanding (0, 0), 0⟩

def getNumUsed (t_start : T) : Nat := m.m_time.countP fun slot => decide (t_start < slot.1)

/-- A slot that is free by time, or taken by the same tag. -/
def hasFreeSlot (t_start : T) (tag : Nat) : Bool :=
  m.m_time.any fun slot => decide (slot.1 ≤ t_start) || slot.2 = tag

def getBarrierCompletionTime (t_start t_delay : T) (tag : Nat) : T × Contention T :=
  if m.m_time = [] then (t_start + t_delay, m)
  else
    let max_time := m.m_time.foldl (fun max_time slot => max max_time slot.1) t_start
    (max_time + t_delay, { m with m_time := m.m_time.map fun _ => (max_time + t_delay, tag) })

/-- The loop of `getCompletionTime`: the first slot that is free, else the first that becomes
free; `unit` is the best so far, and `best` its time. -/
def findUnit (t_start : T) : List (T × Nat) → Nat → Nat → T → Nat
  | [], _, unit, _ => unit
  | slot :: rest, i, unit, best =>
    if slot.1 ≤ t_start then i
    else if slot.1 < best then findUnit t_start rest (i + 1) i slot.1
    else findUnit t_start rest (i + 1) unit best

def getCompletionTime (t_start t_delay : T) (tag : Nat) : T × Contention T :=
  match m.m_time with
  | [] => (t_start + t_delay, m)
  | first :: _ =>
    if t_start = 0 then (t_delay, m)
    else if t_start < m.m_t_last then (t_start + t_delay, m)
    else
      let unit := findUnit t_start m.m_time 0 0 first.1
      let t_begin := max t_start (m.m_time.getD unit first).1
      (t_begin + t_delay, ⟨m.m_time.set unit (t_begin + t_delay, tag), t_start⟩)

/-- The loop of `getStartTime` and what follows it; `best` is the time of the best slot. -/
def findStart (t_start : T) : List (T × Nat) → T → T
  | [], best => if t_start < best then best else t_start
  | slot :: rest, best =>
    if slot.1 ≤ t_start then t_start
    else findStart t_start rest (if slot.1 < best then slot.1 else best)

def getStartTime (t_start : T) : T :=
  match m.m_time with
  | [] => t_start
  | first :: _ => if t_start < m.m_t_last then t_start else findStart t_start m.m_time first.1

/-- The calls that change the model. -/
inductive Call (T : Type) where
  | completion (t_start t_delay : T) (tag : Nat)
  | barrier (t_start t_delay : T) (tag : Nat)

def exec : Call T → Contention T
  | .completion t_start t_delay tag => (m.getCompletionTime t_start t_delay tag).2
  | .barrier t_start t_delay tag => (m.getBarrierCompletionTime t_start t_delay tag).2

/-- After the calls, the first one first. -/
def run (num_outstanding : Nat) (calls : List (Call T)) : Contention T :=
  calls.foldl exec (create T num_outstanding)

end Model

/-! ### The slot that is chosen -/

section Slot
variable {T : Type} [LinearOrder T] {t_start best : T} {slots : List (T × Nat)}

theorem findUnit_taken (htaken : ∀ slot ∈ slots, t_start < slot.1) (i unit : Nat) (best : T) :
    (∀ slot ∈ slots, best ≤ slot.1) ∧ findUnit t_start slots i unit best = unit ∨
      ∃ k, ∃ hk : k < slots.length, findUnit t_start slots i unit best = i + k ∧
        slots[k].1 < best ∧ ∀ slot ∈ slots, slots[k].1 ≤ slot.1 := by
  induction slots generalizing i unit best with
  | nil => exact .inl ⟨nofun, rfl⟩
  | cons slot rest ih =>
    have hslot := (htaken slot List.mem_cons_self).not_ge
    have hrest : ∀ slot ∈ rest, t_start < slot.1 := fun x hx => htaken x (List.mem_cons_of_mem _ hx)
    rw [findUnit, if_neg hslot]
    split_ifs with hlt
    · right
      obtain ⟨hmin, hunit⟩ | ⟨k, hk, hunit, hbest, hmin⟩ := ih hrest (i + 1) i slot.1
      · refine ⟨0, by simp, by rw [hunit]; rfl, hlt, ?_⟩
        rintro x (_ | ⟨_, hx⟩)
        · exact le_rfl
        · exact hmin x hx
      · refine ⟨k + 1, by simpa using hk, by rw [hunit]; omega, hbest.trans hlt, ?_⟩
        rintro x (_ | ⟨_, hx⟩)
        · exact hbest.le
        · exact hmin x hx
    · obtain ⟨hmin, hunit⟩ | ⟨k, hk, hunit, hbest, hmin⟩ := ih hrest (i + 1) unit best
      · refine .inl ⟨?_, hunit⟩
        rintro x (_ | ⟨_, hx⟩)
        · exact le_of_not_gt hlt
        · exact hmin x hx
      · refine .inr ⟨k + 1, by simpa using hk, by rw [hunit]; omega, hbest, ?_⟩
        rintro x (_ | ⟨_, hx⟩)
        · exact hbest.le.trans (le_of_not_gt hlt)
        · exact hmin x hx

theorem findUnit_free (hfree : ∃ slot ∈ slots, slot.1 ≤ t_start) (i unit : Nat) (best : T) :
    ∃ k, ∃ hk : k < slots.length, findUnit t_start slots i unit best = i + k ∧
      slots[k].1 ≤ t_start := by
  induction slots generalizing i unit best with
  | nil =>
    obtain ⟨slot, hin, -⟩ := hfree
    cases hin
  | cons slot rest ih =>
    rw [findUnit]
    by_cases hle : slot.1 ≤ t_start
    · rw [if_pos hle]
      exact ⟨0, by simp, rfl, hle⟩
    · have hrest : ∃ slot ∈ rest, slot.1 ≤ t_start := by
        obtain ⟨x, hx, hxle⟩ := hfree
        obtain rfl | hx := List.mem_cons.mp hx
        · exact absurd hxle hle
        · exact ⟨x, hx, hxle⟩
      split_ifs
      all_goals
        obtain ⟨k, hk, hunit, hkle⟩ := ih hrest (i + 1) _ _
        refine ⟨k + 1, by simpa using hk, ?_, hkle⟩
        rw [hunit]
        omega

theorem findUnit_spec (first : T × Nat) (rest : List (T × Nat)) (t_start : T) :
    ∃ k, ∃ hk : k < (first :: rest).length,
      findUnit t_start (first :: rest) 0 0 first.1 = k ∧
        ((first :: rest)[k].1 ≤ t_start ∨ ∀ slot ∈ first :: rest, (first :: rest)[k].1 ≤ slot.1) := by
  by_cases hfree : ∃ slot ∈ first :: rest, slot.1 ≤ t_start
  · obtain ⟨k, hk, hunit, hle⟩ := findUnit_free hfree 0 0 first.1
    exact ⟨k, hk, by rw [hunit, Nat.zero_add], .inl hle⟩
  · have htaken : ∀ slot ∈ first :: rest, t_start < slot.1 :=
      fun slot hin => lt_of_not_ge fun hle => hfree ⟨slot, hin, hle⟩
    obtain ⟨hmin, hunit⟩ | ⟨k, hk, hunit, -, hmin⟩ := findUnit_taken htaken 0 0 first.1
    · exact ⟨0, by simp, hunit, .inr hmin⟩
    · exact ⟨k, hk, by rw [hunit, Nat.zero_add], .inr hmin⟩

theorem findStart_free (hfree : ∃ slot ∈ slots, slot.1 ≤ t_start) :
    findStart t_start slots best = t_start := by
  induction slots generalizing best with
  | nil =>
    obtain ⟨slot, hin, -⟩ := hfree
    cases hin
  | cons slot rest ih =>
    rw [findStart]
    by_cases hle : slot.1 ≤ t_start
    · rw [if_pos hle]
    · rw [if_neg hle]
      obtain ⟨x, hx, hxle⟩ := hfree
      obtain rfl | hx := List.mem_cons.mp hx
      · exact absurd hxle hle
      · exact ih ⟨x, hx, hxle⟩

theorem findStart_taken (htaken : ∀ slot ∈ slots, t_start < slot.1) (hbest : t_start < best) :
    findStart t_start slots best = slots.foldl (fun time slot => min time slot.1) best := by
  induction slots generalizing best with
  | nil => rw [findStart, if_pos hbest, List.foldl_nil]
  | cons slot rest ih =>
    have hslot := htaken slot List.mem_cons_self
    have hmin : (if slot.1 < best then slot.1 else best) = min best slot.1 := by
      split_ifs with hlt
      · rw [min_eq_right hlt.le]
      · rw [min_eq_left (le_of_not_gt hlt)]
    rw [findStart, if_neg hslot.not_ge, hmin, List.foldl_cons]
    exact ih (fun x hx => htaken x (List.mem_cons_of_mem _ hx)) (lt_min hbest hslot)

theorem foldl_min_le (slots : List (T × Nat)) (best : T) :
    slots.foldl (fun time slot => min time slot.1) best ≤ best ∧
      ∀ slot ∈ slots, slots.foldl (fun time slot => min time slot.1) best ≤ slot.1 := by
  induction slots generalizing best with
  | nil => exact ⟨le_rfl, nofun⟩
  | cons slot rest ih =>
    obtain ⟨hbest, hrest⟩ := ih (min best slot.1)
    refine ⟨hbest.trans (min_le_left ..), ?_⟩
    intro x hx
    obtain rfl | hx := List.mem_cons.mp hx
    · exact hbest.trans (min_le_right ..)
    · exact hrest x hx

theorem le_foldl_min {t} (hbest : t ≤ best) (hslots : ∀ slot ∈ slots, t ≤ slot.1) :
    t ≤ slots.foldl (fun time slot => min time slot.1) best := by
  induction slots generalizing best with
  | nil => exact hbest
  | cons slot rest ih =>
    exact ih (le_min hbest (hslots slot List.mem_cons_self))
      fun x hx => hslots x (List.mem_cons_of_mem _ hx)

theorem findStart_eq (first : T × Nat) (rest : List (T × Nat)) (t_start : T) :
    findStart t_start (first :: rest) first.1 =
      max t_start ((first :: rest).getD (findUnit t_start (first :: rest) 0 0 first.1) first).1 := by
  obtain ⟨k, hk, hunit, hchosen⟩ := findUnit_spec first rest t_start
  rw [hunit, List.getD_eq_getElem _ _ hk]
  by_cases hfree : ∃ slot ∈ first :: rest, slot.1 ≤ t_start
  · rw [findStart_free hfree, max_eq_left]
    obtain hle | hmin := hchosen
    · exact hle
    · obtain ⟨slot, hin, hle⟩ := hfree
      exact (hmin slot hin).trans hle
  · have htaken : ∀ slot ∈ first :: rest, t_start < slot.1 :=
      fun slot hin => lt_of_not_ge fun hle => hfree ⟨slot, hin, hle⟩
    have hkin : (first :: rest)[k] ∈ first :: rest := List.getElem_mem hk
    have hmin := hchosen.resolve_left (htaken _ hkin).not_ge
    have hfirst := List.mem_cons_self (a := first) (l := rest)
    rw [findStart_taken htaken (htaken first hfirst), max_eq_right (htaken _ hkin).le]
    exact le_antisymm ((foldl_min_le ..).2 _ hkin) (le_foldl_min (hmin first hfirst) hmin)

end Slot

/-! ### Peeking -/

/-- `SubsecondTime`: 64 bits, which wrap around. -/
abbrev SubsecondTime := Fin (2 ^ 64)

instance neZeroWord : NeZero (2 ^ 64) := ⟨(Nat.two_pow_pos 64).ne'⟩

section Peek
variable {m : Contention SubsecondTime} {t_start : SubsecondTime}

theorem getStartTime_free (hfree : ∃ slot ∈ m.m_time, slot.1 ≤ t_start) :
    m.getStartTime t_start = t_start := by
  unfold getStartTime
  cases hslots : m.m_time with
  | nil => rfl
  | cons first rest =>
    rw [hslots] at hfree
    split_ifs
    · rfl
    · exact findStart_free hfree

/-- Where a start time of zero does not meet slots that are all taken with no request accepted
yet. -/
def Anchored (m : Contention SubsecondTime) (t_start : SubsecondTime) : Prop :=
  m.m_time = [] ∨ t_start ≠ 0 ∨ m.m_t_last ≠ 0 ∨ ∃ slot ∈ m.m_time, slot.1 = 0

theorem findStart_zero (slots : List (SubsecondTime × Nat)) (best : SubsecondTime)
    (hbest : best = 0 → ∃ slot ∈ slots, slot.1 = 0) :
    findStart 0 slots best = 0 ↔ ∃ slot ∈ slots, slot.1 = 0 := by
  by_cases hfree : ∃ slot ∈ slots, slot.1 ≤ 0
  · rw [findStart_free hfree]
    simpa using hfree
  · have htaken : ∀ slot ∈ slots, 0 < slot.1 :=
      fun slot hin => lt_of_not_ge fun hle => hfree ⟨slot, hin, hle⟩
    have hnone : ¬ ∃ slot ∈ slots, slot.1 = 0 :=
      fun ⟨slot, hin, hzero⟩ => (htaken slot hin).ne' hzero
    have hpos : 0 < best := Fin.pos_iff_ne_zero.mpr fun hzero => hnone (hbest hzero)
    rw [findStart_taken htaken hpos]
    refine iff_of_false (fun hzero => ?_) hnone
    have hone : 1 ≤ slots.foldl (fun time slot => min time slot.1) best :=
      le_foldl_min (Fin.one_le_of_ne_zero hpos.ne')
        fun slot hin => Fin.one_le_of_ne_zero (htaken slot hin).ne'
    rw [hzero] at hone
    exact absurd hone (by decide)

theorem getStartTime_add (m : Contention SubsecondTime) (t_start t_delay : SubsecondTime)
    (tag : Nat) :
    m.getStartTime t_start + t_delay = (m.getCompletionTime t_start t_delay tag).1 ↔
      m.Anchored t_start := by
  unfold getStartTime getCompletionTime Anchored
  cases hslots : m.m_time with
  | nil => simp
  | cons first rest =>
    dsimp only
    by_cases hzero : t_start = 0
    · rw [if_pos hzero, hzero]
      by_cases hlast : (0 : SubsecondTime) < m.m_t_last
      · simp [hlast.ne']
      · rw [if_neg hlast, add_eq_right, findStart_zero]
        · simp [Fin.pos_iff_ne_zero.not_left.mp hlast]
        · exact fun heq => ⟨first, List.mem_cons_self, heq⟩
    · refine iff_of_true ?_ (.inr (.inl hzero))
      split_ifs
      · rfl
      · rw [findStart_eq]

/-- Peeking agrees with committing but for a start time of zero while all slots are taken and
no request has been accepted: that happens after a barrier. -/
theorem peek_agrees (num_outstanding : Nat) (calls : List (Call SubsecondTime))
    (t_start t_delay : SubsecondTime) (tag : Nat) :
    ((run num_outstanding calls).getStartTime t_start + t_delay =
          ((run num_outstanding calls).getCompletionTime t_start t_delay tag).1 ∧
        ∀ slot ∈ (run num_outstanding calls).m_time, slot.1 ≤ t_start →
          (run num_outstanding calls).hasFreeSlot t_start tag = true ∧
            (run num_outstanding calls).getStartTime t_start = t_start) ↔
      (run num_outstanding calls).Anchored t_start := by
  rw [getStartTime_add, and_iff_left]
  intro slot hin hle
  refine ⟨List.any_eq_true.mpr ⟨slot, hin, by simp [hle]⟩, getStartTime_free ⟨slot, hin, hle⟩⟩

/-- A barrier takes the only slot, and the start time is zero. -/
theorem peek_after_barrier :
    (run 1 [.barrier 0 5 0]).getStartTime 0 + 3 = (8 : SubsecondTime) ∧
      ((run 1 [.barrier 0 5 0]).getCompletionTime 0 3 0).1 = (3 : SubsecondTime) := by
  decide

end Peek

/-! ### First come, first served -/

section Queue
open Lib.Servers Function

structure Request where
  t_start : Nat
  t_delay : Nat
  tag : Nat

/-- A request is served by a slot and ends when `getCompletionTime` says. -/
def serve (m : Contention Nat) (r : Request) : Contention Nat × Service Nat :=
  let (t_end, next) := m.getCompletionTime r.t_start r.t_delay r.tag
  (next, ⟨findUnit r.t_start m.m_time 0 0 (m.m_time.headD (0, 0)).1, t_end - r.t_delay, t_end⟩)

/-- The model and the services after the requests, the latest service first. -/
def serveAll (num_outstanding : Nat) (requests : List Request) :
    Contention Nat × List (Service Nat) :=
  requests.foldl (fun (m, log) r => ((serve m r).1, (serve m r).2 :: log))
    (create Nat num_outstanding, [])

/-- When a slot becomes free. -/
def freeAt (m : Contention Nat) (unit : Nat) : Nat := (m.m_time.getD unit (0, 0)).1

theorem getNumUsed_eq (m : Contention Nat) (t_start : Nat) : m.getNumUsed t_start =
    (List.range m.m_time.length).countP fun unit => decide (t_start < m.freeAt unit) := by
  have hslots : m.m_time = (List.range m.m_time.length).map fun unit => m.m_time.getD unit (0, 0) :=
    List.ext_getElem (by simp) (by simp +contextual)
  conv_lhs => rw [getNumUsed, hslots, List.countP_map]
  rfl

theorem freeAt_create (n : Nat) : (create Nat n).freeAt = fun _ => 0 := by
  funext unit
  unfold freeAt create
  rw [List.getD_eq_getElem?_getD, List.getElem?_replicate]
  split_ifs <;> rfl

theorem freeAt_set {m : Contention Nat} {unit} (hunit : unit < m.m_time.length) (slot : Nat × Nat)
    (last : Nat) :
    freeAt ⟨m.m_time.set unit slot, last⟩ = update m.freeAt unit slot.1 := by
  funext u
  unfold freeAt
  rw [List.getD_eq_getElem?_getD]
  by_cases heq : u = unit
  · rw [heq, update_self, List.getElem?_set_self hunit, Option.getD_some]
  · rw [update_of_ne heq, List.getElem?_set_ne (Ne.symm heq), ← List.getD_eq_getElem?_getD]

theorem serve_spec {m : Contention Nat} {r : Request} (hslots : m.m_time ≠ [])
    (hstart : r.t_start ≠ 0) (hlast : m.m_t_last ≤ r.t_start) :
    ∃ unit, Chosen m.m_time.length m.freeAt r.t_start unit ∧
      (serve m r).2 = ⟨unit, max r.t_start (m.freeAt unit),
        max r.t_start (m.freeAt unit) + r.t_delay⟩ ∧
      (serve m r).1.m_time.length = m.m_time.length ∧ (serve m r).1.m_t_last = r.t_start ∧
      (serve m r).1.freeAt =
        update m.freeAt unit (max r.t_start (m.freeAt unit) + r.t_delay) := by
  unfold serve getCompletionTime
  obtain ⟨first, rest, hcons⟩ := List.exists_cons_of_ne_nil hslots
  obtain ⟨unit, hlt, hunit, hchosen⟩ := findUnit_spec first rest r.t_start
  have hfree : ∀ u, ∀ hu : u < (first :: rest).length, m.freeAt u = (first :: rest)[u].1 := by
    intro u hu
    unfold freeAt
    rw [hcons, List.getD_eq_getElem _ _ hu]
  refine ⟨unit, ⟨by rw [hcons]; exact hlt, ?_⟩, ?_⟩
  · rw [hfree unit hlt]
    refine hchosen.imp_right fun hmin v hv => ?_
    rw [hcons] at hv
    rw [hfree v hv]
    exact hmin _ (List.getElem_mem hv)
  · have hset := freeAt_set (m := m) (by rw [hcons]; exact hlt)
      (max r.t_start (m.freeAt unit) + r.t_delay, r.tag) r.t_start
    rw [hcons] at hset ⊢
    dsimp only [List.headD_cons]
    rw [if_neg hstart, if_neg hlast.not_gt, hunit, List.getD_eq_getElem _ _ hlt, ← hfree unit hlt]
    refine ⟨?_, List.length_set .., rfl, hset⟩
    rw [Nat.add_sub_cancel]

/-- The slots serve the requests of the log. -/
structure Queueing (n : Nat) (m : Contention Nat) (log : List (Service Nat)) : Prop where
  slots : m.m_time.length = n
  serves : Serves n log m.freeAt m.m_t_last

theorem Queueing.init (n : Nat) : Queueing n (create Nat n) [] := by
  refine ⟨List.length_replicate .., nofun, nofun, .nil, ?_⟩
  intro u _ s _ hlt
  rw [freeAt_create] at hlt
  exact absurd hlt s.not_lt_zero

theorem Queueing.serve {n m log} (h : Queueing n m log) (hn : 0 < n) {r} (hstart : r.t_start ≠ 0)
    (hlast : m.m_t_last ≤ r.t_start) :
    Queueing n (m.serve r).1 ((m.serve r).2 :: log) ∧ (m.serve r).1.m_t_last = r.t_start := by
  have hslots : m.m_time ≠ [] := List.ne_nil_of_length_pos (by rw [h.slots]; exact hn)
  obtain ⟨unit, hchosen, hservice, hlength, hnext, hfree⟩ := serve_spec hslots hstart hlast
  rw [h.slots] at hchosen hlength
  refine ⟨⟨hlength, ?_⟩, hnext⟩
  rw [hservice, hfree, hnext]
  exact h.serves.accept hlast hchosen.1 (Nat.le_add_right ..)

/-- Requests that do not go back in time, none at zero. -/
def InOrder (requests : List Request) : Prop :=
  requests.Pairwise (fun r r' => r.t_start ≤ r'.t_start) ∧ ∀ r ∈ requests, r.t_start ≠ 0

theorem InOrder.append {before after} (h : InOrder (before ++ after)) :
    InOrder before := by
  refine ⟨(List.pairwise_append.mp h.1).1, fun r hr => h.2 r (List.mem_append_left _ hr)⟩

theorem serveAll_concat (n : Nat) (requests : List Request) (r : Request) :
    serveAll n (requests ++ [r]) = ((serve (serveAll n requests).1 r).1,
      (serve (serveAll n requests).1 r).2 :: (serveAll n requests).2) := by
  unfold serveAll
  rw [List.foldl_append, List.foldl_cons, List.foldl_nil]

theorem InOrder.le {last before after r} (horder : InOrder (before ++ r :: after))
    (hlast : last = 0 ∨ ∃ r ∈ before, last = r.t_start) : last ≤ r.t_start := by
  obtain hzero | ⟨r', hr', heq⟩ := hlast
  · rw [hzero]
    exact Nat.zero_le _
  · rw [heq]
    exact (List.pairwise_append.mp horder.1).2.2 r' hr' r List.mem_cons_self

theorem queueing_serveAll {n} (hn : 0 < n) (requests : List Request) (horder : InOrder requests) :
    Queueing n (serveAll n requests).1 (serveAll n requests).2 ∧
      ((serveAll n requests).1.m_t_last = 0 ∨
        ∃ r ∈ requests, (serveAll n requests).1.m_t_last = r.t_start) := by
  induction requests using List.reverseRecOn with
  | nil => exact ⟨.init n, .inl rfl⟩
  | append_singleton requests r ih =>
    obtain ⟨hqueueing, hlast⟩ := ih horder.append
    rw [serveAll_concat]
    obtain ⟨hnext, hstart⟩ := hqueueing.serve hn (horder.2 r (by simp)) (horder.le hlast)
    exact ⟨hnext, .inr ⟨r, by simp, hstart⟩⟩

/-- Requests in order are served first come, first served: each begins at the least time, not
before its own, at which fewer than `n` earlier ones are in service. From the last request on,
`getNumUsed` counts those in service. -/
theorem first_come_first_served (n : Nat) (hn : 0 < n) (requests : List Request)
    (horder : InOrder requests) :
    (∀ before r after, requests = before ++ r :: after →
      ∃ t_begin, IsLeast {s | r.t_start ≤ s ∧ active (serveAll n before).2 s < n} t_begin ∧
        ((serveAll n before).1.getCompletionTime r.t_start r.t_delay r.tag).1 =
          t_begin + r.t_delay) ∧
      (∀ s, active (serveAll n requests).2 s ≤ n) ∧
      ∀ s, (serveAll n requests).1.m_t_last ≤ s →
        (serveAll n requests).1.getNumUsed s = active (serveAll n requests).2 s := by
  obtain ⟨hqueueing, -⟩ := queueing_serveAll hn requests horder
  refine ⟨fun before r after hsplit => ?_, hqueueing.serves.active_le, fun s hs => ?_⟩
  · rw [hsplit] at horder
    obtain ⟨hbefore, hlast⟩ := queueing_serveAll hn before horder.append
    have hlast := horder.le hlast
    have hslots : (serveAll n before).1.m_time ≠ [] :=
      List.ne_nil_of_length_pos (by rw [hbefore.slots]; exact hn)
    obtain ⟨unit, hchosen, hservice, -⟩ := serve_spec hslots (horder.2 r (by simp)) hlast
    rw [hbefore.slots] at hchosen
    refine ⟨_, hbefore.serves.isLeast hlast hchosen, ?_⟩
    exact congrArg Service.finish hservice
  · rw [getNumUsed_eq, hqueueing.slots, hqueueing.serves.active_eq hs]

/-- Two slots and three requests at once: the third one waits for the second. -/
theorem first_come_first_served_two :
    ∃ t_begin, IsLeast {s | 1 ≤ s ∧ active (serveAll 2 [⟨1, 10, 0⟩, ⟨1, 4, 0⟩]).2 s < 2} t_begin ∧
      ((serveAll 2 [⟨1, 10, 0⟩, ⟨1, 4, 0⟩]).1.getCompletionTime 1 7 0).1 = t_begin + 7 :=
  (first_come_first_served 2 (by decide) [⟨1, 10, 0⟩, ⟨1, 4, 0⟩, ⟨1, 7, 0⟩]
    ⟨by simp, by simp⟩).1 [⟨1, 10, 0⟩, ⟨1, 4, 0⟩] ⟨1, 7, 0⟩ [] rfl

end Queue
end Contention
end Sniper.Timing
