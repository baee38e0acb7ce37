import Mathlib.Data.List.Induction
import Mathlib.Data.Nat.Init
import Mathlib.Logic.Function.Iterate

/-! # The tournament predictor

`TPredictorHelper`. An access outside a table gives `none`. Of the branch target buffer, which no
prediction looks at, there is only the index that an update uses; the counts of mispredictions and
what is printed are left out.
-/
namespace Sniper.Predictors

/-- `IP_TO_INDEX`, also of the branch target buffer. -/
def get_index (ip : UInt64) : UInt32 := ((ip >>> 4) &&& 0x1ff).toUInt32

/-- The entries of a way of the branch target buffer. -/
def NUM_ENTRIES : Nat := 512

structure Table where
  history : List UInt32
  upperLimit : UInt32
  deriving DecidableEq

namespace Table
variable (t : Table)

def create (size count : Nat) : Table where
  history := (List.range size).map fun i => UInt32.ofNat (i % count)
  upperLimit := UInt32.ofNat count

def get_val (index : UInt32) : Option UInt32 := t.history[index.toNat]?

def get_status (index : UInt32) : Option Bool :=
  (t.get_val index).map fun state => decide (t.upperLimit / 2 ≤ state)

def update (value index : UInt32) : Option Table :=
  if index.toNat < t.history.length then
    some { t with history := t.history.set index.toNat value }
  else none

def shift_right (index : UInt32) : Option Table := do
  let state ← t.get_val index
  t.update (state >>> 1) index

def shift_left (index : UInt32) : Option Table := do
  let state ← t.get_val index
  if t.upperLimit < state <<< 1 then some t else t.update (state <<< 1) index

end Table

structure TPredictorHelper where
  cpt : Table
  gpt : Table
  lht : Table
  lpt : Table
  ghr : UInt32
  lpt_s : Bool
  gpt_s : Bool
  cpt_s : Bool
  pc_index : UInt32
  lht_value_as_index : UInt32
  deriving DecidableEq

namespace TPredictorHelper
variable (s : TPredictorHelper)

/-- The last two fields are set by the first prediction. -/
def create : TPredictorHelper where
  cpt := .create 512 4
  gpt := .create 512 4
  lht := .create 512 512
  lpt := .create 512 4
  ghr := 511
  lpt_s := false
  gpt_s := false
  cpt_s := false
  pc_index := 0
  lht_value_as_index := 0

def predict (ip : UInt64) : Option (Bool × TPredictorHelper) := do
  let pc_index := get_index ip
  let lht_value_as_index ← s.lht.get_val pc_index
  let lpt_s ← s.lpt.get_status lht_value_as_index
  let gpt_s ← s.gpt.get_status s.ghr
  let cpt_s ← s.cpt.get_status s.ghr
  let predicted :=
    if lpt_s = gpt_s ∧ gpt_s = true then true
    else if lpt_s = gpt_s ∧ gpt_s = false then false
    else cpt_s
  some (predicted, { s with pc_index, lht_value_as_index, lpt_s, gpt_s, cpt_s })

/-- The arguments of `lht.update` are the value and the index, in this order. -/
def update (predicted actual : Bool) : Option TPredictorHelper :=
  if predicted = actual then do
    let lpt ← s.lpt.shift_left s.lht_value_as_index
    let value ← s.gpt.get_val s.ghr
    let cpt ← s.cpt.update value s.ghr
    let gpt ← s.gpt.shift_left s.ghr
    let ghr := s.ghr >>> 1 ||| 0x100
    let lht_value_as_index := s.lht_value_as_index >>> 1 ||| 0x100
    let lht ← s.lht.update s.pc_index lht_value_as_index
    some { s with lpt, cpt, gpt, ghr, lht_value_as_index, lht }
  else do
    let value ← s.lpt.get_val s.lht_value_as_index
    let cpt ← s.cpt.update value s.ghr
    let lpt ← s.lpt.shift_right s.lht_value_as_index
    let gpt ← s.gpt.shift_right s.ghr
    let ghr := s.ghr >>> 1
    let lht ← s.lht.shift_right s.pc_index
    some { s with cpt, lpt, gpt, ghr, lht }

/-- A branch is predicted and then updated with its outcome. -/
def execute (ip : UInt64) (actual : Bool) : Option (Bool × TPredictorHelper) := do
  let (predicted, s) ← s.predict ip
  let s ← s.update predicted actual
  some (predicted, s)

def run (history : List (UInt64 × Bool)) : Option TPredictorHelper :=
  history.foldlM (fun s e => (s.execute e.1 e.2).map Prod.snd) create

/-- A branch is executed again and again with one outcome. -/
def repeated (ip : UInt64) (actual : Bool) : Nat → Option TPredictorHelper
  | 0 => some s
  | k + 1 => do
    let s ← repeated ip actual k
    (s.execute ip actual).map Prod.snd

/-- The prediction after `k` executions. -/
def prediction_after (ip : UInt64) (actual : Bool) (k : Nat) : Option Bool := do
  let s ← s.repeated ip actual k
  (s.predict ip).map Prod.fst

/-- The histories stay as they are, and so does the prediction, which is right. -/
def Settled (ip : UInt64) (actual : Bool) : Prop :=
  s.ghr = 511 ∧
  (∃ h, s.lht.get_val (get_index ip) = some h ∧
    (h = get_index ip ∨ h >>> 1 ||| 0x100 ≠ get_index ip)) ∧
  (s.gpt.get_val 511 ≠ some 0 ↔ actual = true) ∧
  (s.predict ip).map Prod.fst = some actual

end TPredictorHelper

/-! ## Accesses in range -/

namespace Table
variable {t : Table} {i j v : UInt32} {bound : Nat}

/-- The entry, or 0 where there is none. -/
def val (t : Table) (i : UInt32) : UInt32 := t.history.getD i.toNat 0

def set (t : Table) (i v : UInt32) : Table := { t with history := t.history.set i.toNat v }

/-- A table of 512 entries. -/
structure Bounded (t : Table) (bound : Nat) : Prop where
  size : t.history.length = 512
  entries : ∀ v ∈ t.history, v.toNat ≤ bound

theorem Bounded.get_val (h : t.Bounded bound) (hi : i.toNat < 512) :
    t.get_val i = some (t.val i) := by
  unfold Table.get_val val
  rw [List.getD_eq_getElem?_getD, List.getElem?_eq_getElem (h.size.symm ▸ hi)]
  rfl

theorem Bounded.val_le (h : t.Bounded bound) (hi : i.toNat < 512) : (t.val i).toNat ≤ bound :=
  h.entries _ (List.mem_of_getElem? (h.get_val hi))

theorem Bounded.update (h : t.Bounded bound) (hi : i.toNat < 512) (v : UInt32) :
    t.update v i = some (t.set i v) := if_pos (h.size.symm ▸ hi)

theorem Bounded.set (h : t.Bounded bound) (i : UInt32) (hv : v.toNat ≤ bound) :
    (t.set i v).Bounded bound := by
  refine ⟨(List.length_set ..).trans h.size, fun w hw => ?_⟩
  rcases List.mem_or_eq_of_mem_set hw with hold | rfl
  · exact h.entries w hold
  · exact hv

theorem Bounded.val_set_self (h : t.Bounded bound) (hi : i.toNat < 512) (v : UInt32) :
    (t.set i v).val i = v := by
  unfold val Table.set
  rw [List.getD_eq_getElem?_getD, List.getElem?_set_self (h.size.symm ▸ hi)]
  rfl

theorem val_set_of_ne (hne : i ≠ j) (v : UInt32) : (t.set i v).val j = t.val j := by
  unfold val set
  rw [List.getD_eq_getElem?_getD, List.getD_eq_getElem?_getD,
    List.getElem?_set_ne (mt UInt32.toNat_inj.mp hne)]

theorem length_create (size count : Nat) : (create size count).history.length = size :=
  (List.length_map _).trans List.length_range

theorem toNat_lt_of_mem_create {size count} (hcount : 0 < count)
    (hv : v ∈ (create size count).history) : v.toNat < count := by
  obtain ⟨i, _, rfl⟩ := List.mem_map.mp hv
  exact Nat.lt_of_le_of_lt (Nat.mod_le _ _) (Nat.mod_lt i hcount)

theorem create_bounded {count} (hcount : 0 < count) (hbound : count ≤ bound + 1) :
    (create 512 count).Bounded bound where
  size := length_create 512 count
  entries v hv := by
    have hlt := toNat_lt_of_mem_create hcount hv
    omega

end Table

/-! ## Executions in range -/

/-- The values that an access can find. -/
structure TPredictorHelper.Valid (s : TPredictorHelper) : Prop where
  lht : s.lht.Bounded 511
  lpt : s.lpt.Bounded 4
  gpt : s.gpt.Bounded 4
  cpt : s.cpt.Bounded 4
  limits : s.lpt.upperLimit = 4 ∧ s.gpt.upperLimit = 4 ∧ s.cpt.upperLimit = 4
  ghr : s.ghr.toNat < 512

/-- A counter that is not moved beyond its limit. -/
def double (state : UInt32) : UInt32 := if (4 : UInt32) < state <<< 1 then state else state <<< 1

theorem counter_cases {state : UInt32} (h : state.toNat ≤ 4) :
    state = 0 ∨ state = 1 ∨ state = 2 ∨ state = 3 ∨ state = 4 := by
  have hcases : state.toNat = (0 : UInt32).toNat ∨ state.toNat = (1 : UInt32).toNat ∨
      state.toNat = (2 : UInt32).toNat ∨ state.toNat = (3 : UInt32).toNat ∨
      state.toNat = (4 : UInt32).toNat := by
    change state.toNat = 0 ∨ state.toNat = 1 ∨ state.toNat = 2 ∨ state.toNat = 3 ∨ state.toNat = 4
    omega
  simpa only [UInt32.toNat_inj] using hcases

theorem double_le {state : UInt32} (h : state.toNat ≤ 4) : (double state).toNat ≤ 4 := by
  rcases counter_cases h with rfl | rfl | rfl | rfl | rfl
  all_goals decide

theorem toNat_shiftRight_one (v : UInt32) : (v >>> 1).toNat = v.toNat / 2 := by
  rfl

theorem toNat_append_one (v : UInt32) : (v >>> 1 ||| 0x100).toNat = v.toNat / 2 ||| 256 := by
  rfl

theorem append_one_lt {v : UInt32} (h : v.toNat < 512) : (v >>> 1 ||| 0x100).toNat < 512 := by
  rw [toNat_append_one]
  exact Nat.or_lt_two_pow (n := 9) (by omega) (by decide)

theorem get_index_lt (ip : UInt64) : (get_index ip).toNat < 512 := by
  unfold get_index
  rw [UInt64.toNat_toUInt32, UInt64.toNat_and]
  have hle : (ip >>> 4).toNat &&& (0x1ff : UInt64).toNat ≤ 511 := Nat.and_le_right
  omega

namespace Table
variable {t : Table} {i : UInt32}

theorem Bounded.shift_left (h : t.Bounded 4) (hlimit : t.upperLimit = 4) (hi : i.toNat < 512) :
    t.shift_left i = some (t.set i (double (t.val i))) := by
  unfold Table.shift_left double
  rw [h.get_val hi, Option.bind_eq_bind, Option.bind_some, hlimit]
  split
  · have hget := h.get_val hi
    obtain ⟨hlt, heq⟩ := List.getElem?_eq_some_iff.mp hget
    unfold Table.set
    rw [← heq, List.set_getElem_self]
  · exact h.update hi _

theorem Bounded.shift_right {bound} (h : t.Bounded bound) (hi : i.toNat < 512) :
    t.shift_right i = some (t.set i (t.val i >>> 1)) := by
  unfold Table.shift_right
  rw [h.get_val hi, Option.bind_eq_bind, Option.bind_some]
  exact h.update hi _

theorem Bounded.get_status {bound} (h : t.Bounded bound) (hlimit : t.upperLimit = 4)
    (hi : i.toNat < 512) : t.get_status i = some (decide (2 ≤ t.val i)) := by
  unfold Table.get_status
  rw [h.get_val hi, hlimit]
  rfl

end Table

namespace TPredictorHelper
variable (s : TPredictorHelper)

/-- The prediction of the branch with the index `pc`. -/
def prediction (pc : UInt32) : Bool :=
  let lpt_s := decide (2 ≤ s.lpt.val (s.lht.val pc))
  let gpt_s := decide (2 ≤ s.gpt.val s.ghr)
  if lpt_s = gpt_s then gpt_s else decide (2 ≤ s.cpt.val s.ghr)

/-- The tables after an execution of the branch with the index `pc`. -/
def next (pc : UInt32) (actual : Bool) : TPredictorHelper :=
  let h := s.lht.val pc
  let s : TPredictorHelper :=
    { s with
      pc_index := pc
      lht_value_as_index := h
      lpt_s := decide (2 ≤ s.lpt.val h)
      gpt_s := decide (2 ≤ s.gpt.val s.ghr)
      cpt_s := decide (2 ≤ s.cpt.val s.ghr) }
  if s.prediction pc = actual then
    { s with
      lpt := s.lpt.set h (double (s.lpt.val h))
      cpt := s.cpt.set s.ghr (s.gpt.val s.ghr)
      gpt := s.gpt.set s.ghr (double (s.gpt.val s.ghr))
      ghr := s.ghr >>> 1 ||| 0x100
      lht_value_as_index := h >>> 1 ||| 0x100
      lht := s.lht.set (h >>> 1 ||| 0x100) pc }
  else
    { s with
      cpt := s.cpt.set s.ghr (s.lpt.val h)
      lpt := s.lpt.set h (s.lpt.val h >>> 1)
      gpt := s.gpt.set s.ghr (s.gpt.val s.ghr >>> 1)
      ghr := s.ghr >>> 1
      lht := s.lht.set pc (s.lht.val pc >>> 1) }

theorem Valid.create : create.Valid where
  lht := Table.create_bounded (by decide) (by decide)
  lpt := Table.create_bounded (by decide) (by decide)
  gpt := Table.create_bounded (by decide) (by decide)
  cpt := Table.create_bounded (by decide) (by decide)
  limits := ⟨rfl, rfl, rfl⟩
  ghr := by decide

variable {s} {pc : UInt32} {actual : Bool}

theorem Valid.val_lht (h : s.Valid) (hpc : pc.toNat < 512) : (s.lht.val pc).toNat < 512 :=
  Nat.lt_succ_of_le (h.lht.val_le hpc)

theorem next_of_right (hright : s.prediction pc = actual) : s.next pc actual =
    { s with
      pc_index := pc
      lpt_s := decide (2 ≤ s.lpt.val (s.lht.val pc))
      gpt_s := decide (2 ≤ s.gpt.val s.ghr)
      cpt_s := decide (2 ≤ s.cpt.val s.ghr)
      lpt := s.lpt.set (s.lht.val pc) (double (s.lpt.val (s.lht.val pc)))
      cpt := s.cpt.set s.ghr (s.gpt.val s.ghr)
      gpt := s.gpt.set s.ghr (double (s.gpt.val s.ghr))
      ghr := s.ghr >>> 1 ||| 0x100
      lht_value_as_index := s.lht.val pc >>> 1 ||| 0x100
      lht := s.lht.set (s.lht.val pc >>> 1 ||| 0x100) pc } := if_pos hright

theorem next_of_wrong (hwrong : s.prediction pc ≠ actual) : s.next pc actual =
    { s with
      pc_index := pc
      lht_value_as_index := s.lht.val pc
      lpt_s := decide (2 ≤ s.lpt.val (s.lht.val pc))
      gpt_s := decide (2 ≤ s.gpt.val s.ghr)
      cpt_s := decide (2 ≤ s.cpt.val s.ghr)
      cpt := s.cpt.set s.ghr (s.lpt.val (s.lht.val pc))
      lpt := s.lpt.set (s.lht.val pc) (s.lpt.val (s.lht.val pc) >>> 1)
      gpt := s.gpt.set s.ghr (s.gpt.val s.ghr >>> 1)
      ghr := s.ghr >>> 1
      lht := s.lht.set pc (s.lht.val pc >>> 1) } := if_neg hwrong

theorem Valid.next (h : s.Valid) (hpc : pc.toNat < 512) (actual : Bool) :
    (s.next pc actual).Valid := by
  have hlht := h.val_lht hpc
  have hlpt := h.lpt.val_le hlht
  have hgpt := h.gpt.val_le h.ghr
  by_cases hright : s.prediction pc = actual
  · rw [next_of_right hright]
    exact
      { lht := h.lht.set _ (Nat.le_of_lt_succ hpc)
        lpt := h.lpt.set _ (double_le hlpt)
        gpt := h.gpt.set _ (double_le hgpt)
        cpt := h.cpt.set _ hgpt
        limits := h.limits
        ghr := append_one_lt h.ghr }
  · rw [next_of_wrong hright]
    have hhalf : ∀ {v : UInt32} {bound : Nat}, v.toNat ≤ bound → (v >>> 1).toNat ≤ bound := by
      intro v bound hv
      rw [toNat_shiftRight_one]
      omega
    exact
      { lht := h.lht.set _ (hhalf (h.lht.val_le hpc))
        lpt := h.lpt.set _ (hhalf hlpt)
        gpt := h.gpt.set _ (hhalf hgpt)
        cpt := h.cpt.set _ hlpt
        limits := h.limits
        ghr := Nat.lt_succ_of_le (hhalf (Nat.le_of_lt_succ h.ghr)) }

theorem Valid.predict (h : s.Valid) (ip : UInt64) :
    s.predict ip = some (s.prediction (get_index ip),
      { s with
        pc_index := get_index ip
        lht_value_as_index := s.lht.val (get_index ip)
        lpt_s := decide (2 ≤ s.lpt.val (s.lht.val (get_index ip)))
        gpt_s := decide (2 ≤ s.gpt.val s.ghr)
        cpt_s := decide (2 ≤ s.cpt.val s.ghr) }) := by
  have hlht := h.val_lht (get_index_lt ip)
  unfold TPredictorHelper.predict prediction
  simp only [Option.bind_eq_bind]
  rw [h.lht.get_val (get_index_lt ip), Option.bind_some,
    h.lpt.get_status h.limits.1 hlht, Option.bind_some,
    h.gpt.get_status h.limits.2.1 h.ghr, Option.bind_some,
    h.cpt.get_status h.limits.2.2 h.ghr, Option.bind_some]
  generalize decide (2 ≤ s.lpt.val (s.lht.val (get_index ip))) = lpt_s
  generalize decide (2 ≤ s.gpt.val s.ghr) = gpt_s
  cases lpt_s <;> cases gpt_s <;> rfl

theorem Valid.execute (h : s.Valid) (ip : UInt64) (actual : Bool) :
    s.execute ip actual = some (s.prediction (get_index ip), s.next (get_index ip) actual) := by
  have hpc := get_index_lt ip
  have hlht := h.val_lht hpc
  unfold TPredictorHelper.execute TPredictorHelper.update
  simp only [Option.bind_eq_bind]
  rw [h.predict ip, Option.bind_some]
  by_cases hright : s.prediction (get_index ip) = actual
  · rw [next_of_right hright, if_pos hright, h.lpt.shift_left h.limits.1 hlht, Option.bind_some,
      h.gpt.get_val h.ghr, Option.bind_some, h.cpt.update h.ghr, Option.bind_some,
      h.gpt.shift_left h.limits.2.1 h.ghr, Option.bind_some, h.lht.update (append_one_lt hlht)]
    rfl
  · rw [next_of_wrong hright, if_neg hright, h.lpt.get_val hlht, Option.bind_some,
      h.cpt.update h.ghr, Option.bind_some, h.lpt.shift_right hlht, Option.bind_some,
      h.gpt.shift_right h.ghr, Option.bind_some, h.lht.shift_right hpc]
    rfl

theorem run_valid (history : List (UInt64 × Bool)) :
    ∃ s, run history = some s ∧ s.Valid := by
  unfold run
  induction history using List.reverseRecOn with
  | nil => exact ⟨create, rfl, .create⟩
  | append_singleton history e ih =>
    obtain ⟨s, hrun, hvalid⟩ := ih
    refine ⟨s.next (get_index e.1) e.2, ?_, hvalid.next (get_index_lt e.1) e.2⟩
    rw [List.foldlM_append, hrun, Option.bind_eq_bind, Option.bind_some, List.foldlM_cons,
      hvalid.execute]
    rfl

/-! ## A constant outcome -/

/-- The state after `k` executions. -/
def iterated (s : TPredictorHelper) (pc : UInt32) (actual : Bool) (k : Nat) : TPredictorHelper :=
  (fun s => s.next pc actual)^[k] s

theorem iterated_succ (s : TPredictorHelper) (pc : UInt32) (actual : Bool) (k : Nat) :
    s.iterated pc actual (k + 1) = (s.iterated pc actual k).next pc actual :=
  Function.iterate_succ_apply' _ k s

theorem Valid.iterated (h : s.Valid) (hpc : pc.toNat < 512) (actual : Bool) (k : Nat) :
    (s.iterated pc actual k).Valid := by
  induction k with
  | zero => exact h
  | succ k ih =>
    rw [iterated_succ]
    exact ih.next hpc actual

theorem Valid.repeated (h : s.Valid) (ip : UInt64) (actual : Bool) (k : Nat) :
    s.repeated ip actual k = some (s.iterated (get_index ip) actual k) := by
  induction k with
  | zero => rfl
  | succ k ih =>
    unfold TPredictorHelper.repeated
    rw [ih, Option.bind_eq_bind, Option.bind_some,
      (h.iterated (get_index_lt ip) actual k).execute, iterated_succ]
    rfl

theorem Valid.prediction_after (h : s.Valid) (ip : UInt64) (actual : Bool) (k : Nat) :
    s.prediction_after ip actual k =
      some ((s.iterated (get_index ip) actual k).prediction (get_index ip)) := by
  unfold TPredictorHelper.prediction_after
  rw [h.repeated, Option.bind_eq_bind, Option.bind_some,
    (h.iterated (get_index_lt ip) actual k).predict]
  rfl

/-- The local history of the branch is not replaced by another one. -/
def KeepsHistory (s : TPredictorHelper) (pc : UInt32) : Prop :=
  s.lht.val pc = pc ∨ s.lht.val pc >>> 1 ||| 0x100 ≠ pc

/-- `Settled`, of a state whose accesses are in range. -/
structure Fixed (s : TPredictorHelper) (pc : UInt32) (actual : Bool) : Prop where
  ghr : s.ghr = 511
  lht : s.KeepsHistory pc
  gpt : s.gpt.val 511 ≠ 0 ↔ actual = true
  right : s.prediction pc = actual

theorem Valid.settled_iff (h : s.Valid) (ip : UInt64) (actual : Bool) :
    s.Settled ip actual ↔ s.Fixed (get_index ip) actual := by
  have hlht := h.lht.get_val (get_index_lt ip)
  have hgpt : s.gpt.get_val 511 ≠ some 0 ↔ s.gpt.val 511 ≠ 0 := by
    rw [h.gpt.get_val (i := 511) (by decide)]
    exact not_congr Option.some_inj
  constructor
  · rintro ⟨hghr, ⟨history, hget, hkeeps⟩, hcounter, hright⟩
    rw [hlht] at hget
    rw [h.predict] at hright
    cases hget
    exact ⟨hghr, hkeeps, hgpt.symm.trans hcounter, Option.some.inj hright⟩
  · intro hfixed
    refine ⟨hfixed.ghr, ⟨_, hlht, hfixed.lht⟩, hgpt.trans hfixed.gpt, ?_⟩
    rw [h.predict]
    exact congrArg some hfixed.right

section Right
variable (h : s.Valid) (hright : s.prediction pc = actual)
include h hright

theorem lht_next (hpc : pc.toNat < 512) : (s.next pc actual).lht.val pc =
    if s.lht.val pc >>> 1 ||| 0x100 = pc then pc else s.lht.val pc := by
  rw [next_of_right hright]
  split
  case isTrue heq =>
    rw [heq]
    exact h.lht.val_set_self hpc pc
  case isFalse hne => exact Table.val_set_of_ne hne pc

theorem keepsHistory_next (hpc : pc.toNat < 512) : (s.next pc actual).KeepsHistory pc := by
  unfold KeepsHistory
  rw [lht_next h hright hpc]
  split
  case isTrue => exact .inl rfl
  case isFalse hne => exact .inr hne

theorem lht_next_of_keeps (hpc : pc.toNat < 512) (hkeeps : s.KeepsHistory pc) :
    (s.next pc actual).lht.val pc = s.lht.val pc := by
  rw [lht_next h hright hpc]
  split
  case isTrue heq => exact (hkeeps.resolve_right fun hne => hne heq).symm
  case isFalse => rfl

theorem lpt_next (hpc : pc.toNat < 512) : (s.next pc actual).lpt.val (s.lht.val pc) =
    double (s.lpt.val (s.lht.val pc)) := by
  rw [next_of_right hright]
  exact h.lpt.val_set_self (h.val_lht hpc) _

theorem gpt_next : (s.next pc actual).gpt.val s.ghr = double (s.gpt.val s.ghr) := by
  rw [next_of_right hright]
  exact h.gpt.val_set_self h.ghr _

theorem cpt_next : (s.next pc actual).cpt.val s.ghr = s.gpt.val s.ghr := by
  rw [next_of_right hright]
  exact h.cpt.val_set_self h.ghr _

end Right

theorem ghr_next (hright : s.prediction pc = actual) :
    (s.next pc actual).ghr = s.ghr >>> 1 ||| 0x100 := by
  rw [next_of_right hright]

theorem prediction_next (h : s.Valid) (hpc : pc.toNat < 512) (hright : s.prediction pc = actual)
    (hghr : s.ghr = 511) (hkeeps : s.KeepsHistory pc) :
    (s.next pc actual).ghr = 511 ∧
      (s.next pc actual).prediction pc =
        if decide (2 ≤ double (s.lpt.val (s.lht.val pc))) = decide (2 ≤ double (s.gpt.val 511)) then
          decide (2 ≤ double (s.gpt.val 511))
        else decide (2 ≤ s.gpt.val 511) := by
  have hnext : (s.next pc actual).ghr = 511 := by
    rw [ghr_next hright, hghr]
    rfl
  have hgpt := gpt_next h hright
  have hcpt := cpt_next h hright
  rw [hghr] at hgpt hcpt
  refine ⟨hnext, ?_⟩
  unfold prediction
  rw [hnext, lht_next_of_keeps h hright hpc hkeeps, lpt_next h hright hpc, hgpt, hcpt]

theorem two_le_double {state : UInt32} (h : state.toNat ≤ 4) (hne : state ≠ 0) :
    2 ≤ double state := by
  rcases counter_cases h with rfl | rfl | rfl | rfl | rfl
  · exact absurd rfl hne
  all_goals decide

theorem double_ne_zero {state : UInt32} (h : state.toNat ≤ 4) : double state ≠ 0 ↔ state ≠ 0 := by
  rcases counter_cases h with rfl | rfl | rfl | rfl | rfl
  all_goals decide

theorem Fixed.next (hfixed : s.Fixed pc actual) (h : s.Valid) (hpc : pc.toNat < 512) :
    (s.next pc actual).Fixed pc actual := by
  have hlpt := h.lpt.val_le (h.val_lht hpc)
  have hgpt := h.gpt.val_le h.ghr
  have hcounter := gpt_next h hfixed.right
  obtain ⟨hghr, hprediction⟩ := prediction_next h hpc hfixed.right hfixed.ghr hfixed.lht
  rw [hfixed.ghr] at hcounter hgpt
  refine ⟨hghr, keepsHistory_next h hfixed.right hpc, ?_, ?_⟩
  · rw [hcounter, double_ne_zero hgpt]
    exact hfixed.gpt
  rw [hprediction]
  have hright := hfixed.right
  unfold prediction at hright
  rw [hfixed.ghr] at hright
  cases actual with
  | false =>
    have hzero : s.gpt.val 511 = 0 := by
      by_contra hne
      cases hfixed.gpt.mp hne
    rw [hzero]
    cases decide (2 ≤ double (s.lpt.val (s.lht.val pc))) <;> rfl
  | true =>
    rw [decide_eq_true (two_le_double hgpt (hfixed.gpt.mpr rfl))]
    by_cases hzero : s.lpt.val (s.lht.val pc) = 0
    · -- Then the global counter made the prediction.
      rw [hzero] at hright ⊢
      by_cases htwo : 2 ≤ s.gpt.val 511
      · rw [decide_eq_true htwo]
        rfl
      · rw [decide_eq_false htwo] at hright
        cases hright
    · rw [decide_eq_true (two_le_double hlpt hzero)]
      rfl

theorem ghr_nine : ∀ g < 512, (fun g => g / 2 ||| 256)^[9] g = 511 := by decide +kernel

theorem ghr_iterated (hall : ∀ j, (s.iterated pc actual j).prediction pc = actual) (k : Nat) :
    (s.iterated pc actual k).ghr.toNat = (fun g => g / 2 ||| 256)^[k] s.ghr.toNat := by
  induction k with
  | zero => rfl
  | succ k ih =>
    rw [iterated_succ, ghr_next (hall k), toNat_append_one, ih, Function.iterate_succ_apply']

theorem fixed_of_right (h : s.Valid) (hpc : pc.toNat < 512)
    (hall : ∀ j, (s.iterated pc actual j).prediction pc = actual) :
    (s.iterated pc actual 9).Fixed pc actual := by
  have hghr : (s.iterated pc actual 9).ghr = 511 := by
    rw [← UInt32.toNat_inj, ghr_iterated hall]
    exact ghr_nine _ h.ghr
  have hkeeps : (s.iterated pc actual 9).KeepsHistory pc := by
    rw [iterated_succ]
    exact keepsHistory_next (h.iterated hpc actual 8) (hall 8) hpc
  have hvalid := h.iterated hpc actual 9
  have hgpt := hvalid.gpt.val_le hvalid.ghr
  have hcounter := gpt_next hvalid (hall 9)
  obtain ⟨hghr', hten⟩ := prediction_next hvalid hpc (hall 9) hghr hkeeps
  have hkeeps' := keepsHistory_next hvalid (hall 9) hpc
  rw [hghr] at hgpt hcounter
  rw [← iterated_succ] at hghr' hten hkeeps' hcounter
  rw [hall 10] at hten
  refine ⟨hghr, hkeeps, ?_, hall 9⟩
  cases actual with
  | true =>
    refine ⟨fun _ => rfl, fun _ hzero => ?_⟩
    rw [hzero] at hten
    generalize decide (2 ≤ double _) = lpt_s at hten
    cases lpt_s <;> cases hten
  | false =>
    refine ⟨fun hne => ?_, fun heq => by cases heq⟩
    obtain ⟨_, heleven⟩ := prediction_next (h.iterated hpc false 10) hpc (hall 10) hghr' hkeeps'
    rw [← iterated_succ, hall 11, hcounter] at heleven
    have htwo := two_le_double hgpt hne
    have hne' := (double_ne_zero hgpt).mpr hne
    rw [decide_eq_true htwo, decide_eq_true (two_le_double (double_le hgpt) hne')] at heleven
    generalize decide (2 ≤ double _) = lpt_s at heleven
    cases lpt_s <;> cases heleven

/-- No access is outside a table, and a constant branch is learned just if it settles. -/
theorem learned_iff (history : List (UInt64 × Bool)) :
    ∃ s, run history = some s ∧ ∀ ip actual, (get_index ip).toNat < NUM_ENTRIES ∧
      (∀ k, (s.prediction_after ip actual k).isSome) ∧
      ((∃ k, ∀ j, k ≤ j → s.prediction_after ip actual j = some actual) ↔
        ∃ k t, s.repeated ip actual k = some t ∧ t.Settled ip actual) := by
  obtain ⟨s, hrun, h⟩ := run_valid history
  refine ⟨s, hrun, fun ip actual => ⟨get_index_lt ip, fun k => ?_, ?_⟩⟩
  · rw [h.prediction_after]
    rfl
  have hpc := get_index_lt ip
  constructor
  · rintro ⟨k, hall⟩
    have hvalid := h.iterated hpc actual k
    have hright : ∀ j, ((s.iterated (get_index ip) actual k).iterated (get_index ip) actual
        j).prediction (get_index ip) = actual := by
      intro j
      have hj := hall (j + k) (by omega)
      rw [h.prediction_after] at hj
      unfold iterated at hj ⊢
      rw [← Function.iterate_add_apply]
      exact Option.some.inj hj
    refine ⟨9 + k, _, h.repeated ip actual _, ?_⟩
    rw [(h.iterated hpc actual _).settled_iff]
    have hfixed := fixed_of_right hvalid hpc hright
    unfold iterated at hfixed ⊢
    rw [Function.iterate_add_apply]
    exact hfixed
  · rintro ⟨k, t, hrepeated, hsettled⟩
    rw [h.repeated] at hrepeated
    cases hrepeated
    rw [(h.iterated hpc actual k).settled_iff] at hsettled
    refine ⟨k, fun j hj => ?_⟩
    have hfixed : (s.iterated (get_index ip) actual j).Fixed (get_index ip) actual := by
      induction j, hj using Nat.le_induction with
      | base => exact hsettled
      | succ j _ ih =>
        rw [iterated_succ]
        exact ih.next (h.iterated hpc actual j) hpc
    rw [h.prediction_after, hfixed.right]

/-- Nine mispredictions of the branch at 0 leave no history, where all counters are 0. -/
theorem taken_never_learned :
    ∃ s, run (List.replicate 8 (0, false) ++ [(0, true)]) = some s ∧
      ∀ k, s.prediction_after 0 true k = some false := by
  obtain ⟨s, hrun, h⟩ := run_valid (List.replicate 8 (0, false) ++ [(0, true)])
  refine ⟨s, hrun, fun k => ?_⟩
  have hstuck : ((run (List.replicate 8 (0, false) ++ [(0, true)])).bind fun s =>
      (s.execute 0 true).bind fun first => (first.2.execute 0 true).map fun second =>
        (first.1, second.1, decide (second.2 = first.2))) = some (false, false, true) := by
    decide +kernel
  have hnext := h.next (get_index_lt 0) true
  rw [hrun, Option.bind_some, h.execute, Option.bind_some, hnext.execute, Option.map_some,
    Option.some_inj, Prod.mk.injEq, Prod.mk.injEq, decide_eq_true_iff] at hstuck
  obtain ⟨hfirst, hsecond, hsame⟩ := hstuck
  have hiterated : ∀ j, s.iterated (get_index 0) true (j + 1) = s.next (get_index 0) true := by
    intro j
    induction j with
    | zero => rfl
    | succ j ih =>
      rw [iterated_succ, ih]
      exact hsame
  rw [h.prediction_after]
  cases k with
  | zero => exact congrArg some hfirst
  | succ j =>
    rw [hiterated]
    exact congrArg some hsecond

end TPredictorHelper

end Sniper.Predictors
