import Mathlib.Algebra.BigOperators.Fin
import Mathlib.Data.UInt
import Sniper.Memory.AddressHash

/-! # Statistics of samples

`StatHist`, and the moving averages over a ring that has one place more than the window. -/

namespace Sniper.Sampling.Statistics
open Memory.AddressHash (floorLog2 floorLog2_eq)

/-! ### Histograms -/

def HIST_MAX : ℕ := 20

/-- The fields are 64-bit words. -/
@[ext]
structure StatHist where
  (n s s2 min max : ℕ)
  hist : Fin HIST_MAX → ℕ

def cap (bin : ℕ) : Fin HIST_MAX :=
  if h : bin < HIST_MAX then ⟨bin, h⟩ else ⟨HIST_MAX - 1, by decide⟩

/-- `floorLog2` takes a word of 32 bits. -/
def bin (v : UInt64) : Fin HIST_MAX := cap (floorLog2 (v.toNat % 2 ^ 32) + 1).toNat

namespace StatHist

def new : StatHist := ⟨0, 0, 0, 0, 0, fun _ => 0⟩

def update (h : StatHist) (v : UInt64) : StatHist :=
  let min := if h.n = 0 then v.toNat else h.min
  let max := if h.n = 0 then v.toNat else h.max
  { n := (h.n + 1) % 2 ^ 64
    s := (h.s + v.toNat) % 2 ^ 64
    s2 := (h.s2 + v.toNat * v.toNat) % 2 ^ 64
    min := if v.toNat < min then v.toNat else min
    max := if max < v.toNat then v.toNat else max
    hist := Function.update h.hist (bin v) ((h.hist (bin v) + 1) % 2 ^ 64) }

/-- `operator+=`. -/
def add (h stat : StatHist) : StatHist :=
  let min := if h.n = 0 then stat.min else h.min
  let max := if h.n = 0 then stat.max else h.max
  { n := (h.n + stat.n) % 2 ^ 64
    s := (h.s + stat.s) % 2 ^ 64
    s2 := (h.s2 + stat.s2) % 2 ^ 64
    min := if stat.n ≠ 0 ∧ stat.min < min then stat.min else min
    max := if stat.n ≠ 0 ∧ max < stat.max then stat.max else max
    hist := fun i => (h.hist i + stat.hist i) % 2 ^ 64 }

def ofSamples (l : List UInt64) : StatHist := l.foldl update new

/-- What the samples come to, where `bin` tells the bin of each. -/
def summary (bin : UInt64 → Fin HIST_MAX) (l : List UInt64) : StatHist where
  n := l.length
  s := (l.map (·.toNat)).sum % 2 ^ 64
  s2 := (l.map (·.toNat ^ 2)).sum % 2 ^ 64
  min := (l.map (·.toNat)).min?.getD 0
  max := (l.map (·.toNat)).max?.getD 0
  hist b := l.countP (bin · = b)

end StatHist

def bitLength (n : ℕ) : ℕ := if n = 0 then 0 else n.log2 + 1

/-- The bin that a sample belongs to. -/
def lengthBin (v : UInt64) : Fin HIST_MAX := cap (bitLength v.toNat)

/-- The histogram is what the samples come to, and its bins have them all. -/
def StatHist.Tells (h : StatHist) (l : List UInt64) : Prop :=
  h = summary lengthBin l ∧ ∑ b, h.hist b = h.n

def StatHist.Merges (l₁ l₂ : List UInt64) : Prop :=
  (ofSamples l₁).Tells l₁ ∧ (ofSamples l₂).Tells l₂ ∧
    (ofSamples l₁).add (ofSamples l₂) = ofSamples (l₁ ++ l₂)

/-- What is cut off does not matter for the bin. -/
def Fits (v : UInt64) : Prop := v.toNat < 2 ^ 32 ∨ 2 ^ 18 ≤ v.toNat % 2 ^ 32

instance : DecidablePred Fits := fun _ => inferInstanceAs (Decidable (_ ∨ _))

theorem lt_bitLength {k n : ℕ} : k < bitLength n ↔ 2 ^ k ≤ n := by
  unfold bitLength
  split
  · next h => simp [h]
  · next h => rw [Nat.lt_succ_iff, Nat.le_log2 h]

theorem bin_eq (v : UInt64) : bin v = cap (bitLength (v.toNat % 2 ^ 32)) := by
  unfold bin bitLength
  split
  · next h => rw [h]; rfl
  · next h =>
    rw [floorLog2_eq (Nat.pos_of_ne_zero h) (Nat.mod_lt _ (by decide))]
    rfl

theorem cap_eq_iff {a b : ℕ} : cap a = cap b ↔ a = b ∨ 18 < a ∧ 18 < b := by
  have hmax : HIST_MAX = 20 := rfl
  unfold cap
  split <;> split <;> rw [Fin.mk.injEq] <;> omega

theorem cap_eq_last {a : ℕ} : cap a = cap 19 ↔ 18 < a := by
  rw [cap_eq_iff]
  omega

theorem bin_eq_iff {v : UInt64} : bin v = lengthBin v ↔ Fits v := by
  rw [bin_eq, lengthBin, cap_eq_iff, lt_bitLength, lt_bitLength, Fits]
  rcases Nat.lt_or_ge v.toNat (2 ^ 32) with h | h
  · simp only [Nat.mod_eq_of_lt h, h, true_or]
  · have hlong := lt_bitLength.mpr h
    have hshort : ¬32 < bitLength (v.toNat % 2 ^ 32) :=
      fun h => Nat.not_lt.mpr (lt_bitLength.mp h) (Nat.mod_lt _ (by decide))
    omega

namespace StatHist
variable {f g : UInt64 → Fin HIST_MAX} {l l₁ l₂ : List UInt64}

theorem foldl_both {op : ℕ → ℕ → ℕ} [Std.Associative op] {l₁ l₂ : List ℕ} {v w : ℕ} :
    (l₁ ++ w :: l₂).foldl op v = op (l₁.foldl op v) (l₂.foldl op w) := by
  rw [List.foldl_append, List.foldl_cons, List.foldl_assoc]

theorem summary_add (h : l₁.length + l₂.length < 2 ^ 64) :
    (summary f l₁).add (summary f l₂) = summary f (l₁ ++ l₂) := by
  ext1
  · exact (Nat.mod_eq_of_lt h).trans List.length_append.symm
  · simp [add, summary]
  · simp [add, summary]
  · rcases l₁ with _ | ⟨v, l₁⟩ <;> rcases l₂ with _ | ⟨w, l₂⟩
    case cons.cons =>
      simp only [add, summary, List.map_append, List.map_cons, List.cons_append,
        List.min?_cons', foldl_both, Option.getD_some]
      rw [Nat.min_comm, min_def_lt]
      simp
    all_goals simp [add, summary]
  · rcases l₁ with _ | ⟨v, l₁⟩ <;> rcases l₂ with _ | ⟨w, l₂⟩
    case cons.cons =>
      simp only [add, summary, List.map_append, List.map_cons, List.cons_append,
        List.max?_cons', foldl_both, Option.getD_some]
      simp [max_def_lt]
    all_goals simp [add, summary]
  · funext b
    refine (Nat.mod_eq_of_lt ?_).trans List.countP_append.symm
    exact Nat.lt_of_le_of_lt (Nat.add_le_add List.countP_le_length List.countP_le_length) h

theorem update_eq_add {h : StatHist} (hword : ∀ b, h.hist b < 2 ^ 64) (v : UInt64) :
    h.update v = h.add (summary bin [v]) := by
  ext1
  case hist =>
    funext b
    by_cases hb : bin v = b
    · simp [update, add, summary, hb]
    · have hkept : h.hist b % 2 ^ 64 = h.hist b := Nat.mod_eq_of_lt (hword b)
      simpa [update, add, summary, hb, Function.update_of_ne (Ne.symm hb)] using hkept.symm
  all_goals simp [update, add, summary, sq]

theorem ofSamples_eq (h : l.length < 2 ^ 64) : ofSamples l = summary bin l := by
  induction l using List.reverseRecOn with
  | nil => rfl
  | append_singleton l v ih =>
    rw [List.length_append, List.length_singleton] at h
    have hword : ∀ b, (summary bin l).hist b < 2 ^ 64 := fun b =>
      Nat.lt_of_le_of_lt List.countP_le_length (by omega)
    rw [ofSamples, List.foldl_append, ← ofSamples, ih (by omega), List.foldl_cons, List.foldl_nil,
      update_eq_add hword, summary_add h]

theorem sum_countP (f : UInt64 → Fin HIST_MAX) (l : List UInt64) :
    ∑ b, l.countP (f · = b) = l.length := by
  induction l with
  | nil => simp
  | cons v l ih => simp [List.countP_cons, Finset.sum_add_distrib, ih]

theorem tells_iff (h : l.length < 2 ^ 64) : (ofSamples l).Tells l ↔ ∀ v ∈ l, Fits v := by
  rw [Tells, ofSamples_eq h]
  constructor
  · intro ⟨heq, _⟩ v hv
    by_contra hcut
    -- One sample that belongs in the last bin is counted elsewhere.
    obtain ⟨hlong, hlow⟩ := not_or.mp hcut
    have hlast : ∀ v, bin v = cap 19 → lengthBin v = cap 19 := by
      intro v
      rw [bin_eq, lengthBin, cap_eq_last, cap_eq_last, lt_bitLength, lt_bitLength]
      omega
    have hmissed : ¬bin v = cap 19 := by
      rwa [bin_eq, cap_eq_last, lt_bitLength]
    have hbelongs : lengthBin v = cap 19 := by
      rw [lengthBin, cap_eq_last, lt_bitLength]
      omega
    obtain ⟨a, b, rfl⟩ := List.append_of_mem hv
    have hcount := congrArg (fun s => s.hist (cap 19)) heq
    simp only [summary, List.countP_append, List.countP_cons] at hcount
    have ha : a.countP (bin · = cap 19) ≤ a.countP (lengthBin · = cap 19) :=
      List.countP_mono_left fun v _ => by simpa using hlast v
    have hb : b.countP (bin · = cap 19) ≤ b.countP (lengthBin · = cap 19) :=
      List.countP_mono_left fun v _ => by simpa using hlast v
    simp only [hmissed, hbelongs, decide_true, decide_false, if_true, Bool.false_eq_true,
      if_false] at hcount
    omega
  · intro hfits
    refine ⟨?_, sum_countP bin l⟩
    have hbins : ∀ b, l.countP (bin · = b) = l.countP (lengthBin · = b) := fun b =>
      List.countP_congr fun v hv => by rw [bin_eq_iff.mpr (hfits v hv)]
    simp only [summary, hbins]

theorem merges_iff (h : l₁.length + l₂.length < 2 ^ 64) :
    Merges l₁ l₂ ↔ ∀ v ∈ l₁ ++ l₂, Fits v := by
  have h₁ : l₁.length < 2 ^ 64 := by omega
  have h₂ : l₂.length < 2 ^ 64 := by omega
  have hadd : (ofSamples l₁).add (ofSamples l₂) = ofSamples (l₁ ++ l₂) := by
    rw [ofSamples_eq h₁, ofSamples_eq h₂, ofSamples_eq (by rwa [List.length_append]), summary_add h]
  rw [Merges, tells_iff h₁, tells_iff h₂, List.forall_mem_append]
  exact ⟨fun h => ⟨h.1, h.2.1⟩, fun h => ⟨h.1, h.2, hadd⟩⟩

theorem merges_small : Merges [3, 2 ^ 20] [7, 0, 2 ^ 20] := by
  refine (merges_iff (by decide)).mpr fun v hv => ?_
  simp only [List.cons_append, List.nil_append, List.mem_cons, List.not_mem_nil, or_false] at hv
  rcases hv with rfl | rfl | rfl | rfl | rfl <;> decide

/-- A sample of `2 ^ 32` is counted as zero. -/
theorem not_merges_33_bits : ¬Merges [2 ^ 32] [] := fun h =>
  absurd ((tells_iff (by decide)).mp h.1 _ (List.mem_singleton_self _)) (by decide)

end StatHist

/-! ### Moving averages

Positions are numbers modulo the length of the ring, a 32-bit word. -/

structure MovingAverage (T : Type) where
  m_max_window_size : ℕ
  m_num_list : ℕ → T
  (m_curr_window_front m_curr_window_back : ℕ)

namespace MovingAverage
variable {T : Type}

def new [Inhabited T] (max_window_size : ℕ) : MovingAverage T :=
  ⟨max_window_size, fun _ => default, 0, 0⟩

def max_value (a : MovingAverage T) : ℕ := (a.m_max_window_size + 1) % 2 ^ 32

/-- `operator+` of `ModuloNum`. -/
def plus (a : MovingAverage T) (m value : ℕ) : ℕ :=
  (m + value % a.max_value) % 2 ^ 32 % a.max_value

/-- `operator-` of `ModuloNum`. -/
def curr_window_size (a : MovingAverage T) : ℕ :=
  if a.m_curr_window_front ≤ a.m_curr_window_back then a.m_curr_window_back - a.m_curr_window_front
  else a.max_value - a.m_curr_window_front + a.m_curr_window_back

/-- A ring of length zero has no place to write to. -/
def addToWindow (a : MovingAverage T) (next_num : T) : Option (MovingAverage T) :=
  if a.m_curr_window_back < a.max_value then
    let back := a.plus a.m_curr_window_back 1
    some { a with
      m_num_list := Function.update a.m_num_list a.m_curr_window_back next_num
      m_curr_window_back := back
      m_curr_window_front :=
        if back = a.m_curr_window_front then a.plus a.m_curr_window_front 1
        else a.m_curr_window_front }
  else none

/-- `MovingMedian::compute`. -/
def median (a : MovingAverage T) : T :=
  a.m_num_list (a.plus a.m_curr_window_front (a.curr_window_size / 2))

end MovingAverage

structure MovingArithmeticMean extends MovingAverage UInt64 where
  sum : UInt64

namespace MovingArithmeticMean

def update (a : MovingArithmeticMean) (next_num : UInt64) : Option MovingArithmeticMean :=
  let sum := if a.curr_window_size = a.m_max_window_size
    then a.sum - a.m_num_list a.m_curr_window_front else a.sum
  (a.addToWindow next_num).map (⟨·, sum + next_num⟩)

def compute (a : MovingArithmeticMean) : ℕ := a.sum.toNat / a.curr_window_size

end MovingArithmeticMean

/-- The last values. -/
def window {T} (w : ℕ) (l : List T) : List T := l.drop (l.length - w)

def total (w : ℕ) (l : List UInt64) : ℕ := ((window w l).map (·.toNat)).sum

def IsMedian (l : List UInt64) (m : UInt64) : Prop :=
  l.length ≤ 2 * l.countP (· ≤ m) ∧ l.length ≤ 2 * l.countP (m ≤ ·)

instance (l m) : Decidable (IsMedian l m) := inferInstanceAs (Decidable (_ ∧ _))

/-- What is computed after the values, and that the next update can take the oldest one away. -/
def Exact (w : ℕ) (l : List UInt64) : Prop :=
  (∃ a, l.foldlM MovingArithmeticMean.update ⟨.new w, 0⟩ = some a ∧
    a.compute = total w l / (window w l).length ∧
    (a.curr_window_size = w → a.m_num_list a.m_curr_window_front ≤ a.sum)) ∧
  ∃ a, l.foldlM MovingAverage.addToWindow (.new w) = some a ∧ IsMedian (window w l) a.median

/-- The place in the middle of the window, in the order of arrival. A position that does not fit
into 32 bits is another one. -/
def middle (w n : ℕ) : ℕ :=
  if (n - w) % (w + 1) + min n w / 2 < 2 ^ 32 then min n w / 2
  else min n w / 2 + (w + 1) - 2 ^ 32

/-- The ring of `w + 1` places holds the last values. -/
structure Holds {T} (w : ℕ) (l : List T) (a : MovingAverage T) : Prop where
  size : a.m_max_window_size = w
  front : a.m_curr_window_front = (l.length - w) % (w + 1)
  back : a.m_curr_window_back = l.length % (w + 1)
  value : ∀ i < l.length, l.length ≤ i + w → l[i]? = some (a.m_num_list (i % (w + 1)))

section
variable {T : Type} {w : ℕ} {l : List T} {a : MovingAverage T} {v : T}

theorem place_lt (w n : ℕ) : n % (w + 1) < w + 1 := Nat.mod_lt _ (Nat.succ_pos w)

theorem mod_succ (w n : ℕ) : n % (w + 1) =
    if n < w then n else if (n - w) % (w + 1) = 0 then w else (n - w) % (w + 1) - 1 := by
  split
  · exact Nat.mod_eq_of_lt (by omega)
  · have hlt := place_lt w (n - w)
    have hmod : n % (w + 1) = ((n - w) % (w + 1) + w) % (w + 1) := by
      rw [Nat.mod_add_mod, Nat.sub_add_cancel (by omega)]
    rw [hmod]
    split
    · next hzero => rw [hzero, Nat.zero_add, Nat.mod_eq_of_lt (Nat.lt_succ_self w)]
    · next hpos =>
      rw [show (n - w) % (w + 1) + w = (n - w) % (w + 1) - 1 + (w + 1) by omega, Nat.add_mod_right,
        Nat.mod_eq_of_lt (by omega)]

theorem length_window : (window w l).length = min l.length w := by
  rw [window, List.length_drop]
  omega

namespace Holds

theorem max_value (h : Holds w l a) (hw : w + 1 < 2 ^ 32) : a.max_value = w + 1 := by
  rw [MovingAverage.max_value, h.size, Nat.mod_eq_of_lt hw]

theorem curr_window_size (h : Holds w l a) (hw : w + 1 < 2 ^ 32) :
    a.curr_window_size = min l.length w := by
  have hlt := place_lt w (l.length - w)
  rw [MovingAverage.curr_window_size, h.max_value hw, h.front, h.back, mod_succ w l.length]
  split
  · rw [Nat.sub_eq_zero_of_le (by omega), Nat.zero_mod, if_pos (Nat.zero_le _)]
    omega
  · split <;> split <;> omega

theorem next (h : Holds w l a) (hw : w + 1 < 2 ^ 32) (hpos : 1 ≤ w) (v : T) :
    ∃ a', a.addToWindow v = some a' ∧ Holds w (l ++ [v]) a' := by
  have hmax := h.max_value hw
  have hplus : ∀ m, a.plus (m % (w + 1)) 1 = (m + 1) % (w + 1) := by
    intro m
    have hlt := place_lt w m
    rw [MovingAverage.plus, hmax, Nat.mod_eq_of_lt (by omega : 1 < w + 1),
      Nat.mod_eq_of_lt (by omega : m % (w + 1) + 1 < 2 ^ 32), Nat.mod_add_mod]
  have hlen : (l ++ [v]).length = l.length + 1 := List.length_append
  refine ⟨_, if_pos (by rw [hmax, h.back]; exact place_lt ..), h.size, ?_, ?_, ?_⟩
  · dsimp only
    rw [h.back, hplus, h.front, hplus, hlen]
    rcases Nat.lt_or_ge l.length w with hfew | hfull
    · rw [Nat.sub_eq_zero_of_le hfew.le, Nat.sub_eq_zero_of_le hfew, Nat.zero_mod,
        Nat.mod_eq_of_lt (Nat.succ_lt_succ hfew), if_neg (Nat.succ_ne_zero _)]
    · rw [if_pos, Nat.sub_add_comm hfull]
      rw [← Nat.add_mod_right (l.length - w), ← Nat.add_assoc, Nat.sub_add_cancel hfull]
  · rw [hlen, ← hplus, ← h.back]
  · intro i hi hlast
    rw [hlen] at hi hlast
    dsimp only
    rw [h.back]
    rcases Nat.lt_succ_iff_lt_or_eq.mp hi with hi | rfl
    · have hother : i % (w + 1) ≠ l.length % (w + 1) := fun heq => by
        have hzero := Nat.sub_mod_eq_zero_of_mod_eq heq.symm
        rw [Nat.mod_eq_of_lt (by omega)] at hzero
        omega
      rw [Function.update_of_ne hother, List.getElem?_append_left hi, h.value i hi (by omega)]
    · rw [Function.update_self, List.getElem?_concat_length]

theorem median (h : Holds w l a) (hw : w + 1 < 2 ^ 32) (hpos : 1 ≤ w) (hl : l ≠ []) :
    (window w l)[middle w l.length]? = some a.median := by
  have hlen := List.length_pos_iff.mpr hl
  have hlt := place_lt w (l.length - w)
  have hslot : a.plus a.m_curr_window_front (a.curr_window_size / 2) =
      (l.length - w + middle w l.length) % (w + 1) := by
    rw [MovingAverage.plus, h.max_value hw, h.curr_window_size hw, h.front,
      Nat.mod_eq_of_lt (by omega : min l.length w / 2 < w + 1), ← Nat.mod_add_mod (_ - w), middle]
    split
    · next hsmall => rw [Nat.mod_eq_of_lt hsmall]
    · next hcut =>
      have heq : ((l.length - w) % (w + 1) + min l.length w / 2) % 2 ^ 32 + (w + 1) =
          (l.length - w) % (w + 1) + (min l.length w / 2 + (w + 1) - 2 ^ 32) := by omega
      rw [← heq, Nat.add_mod_right]
  have hmiddle : middle w l.length < min l.length w := by
    rw [middle]
    split <;> omega
  rw [window, List.getElem?_drop, h.value _ (by omega) (by omega), MovingAverage.median, hslot]

end Holds

theorem addToWindow_full [Inhabited T] (hw : w + 1 = 2 ^ 32) :
    (MovingAverage.new w).addToWindow v = none :=
  if_neg (by simp [MovingAverage.new, MovingAverage.max_value, hw])

theorem holds_nil [Inhabited T] (w : ℕ) : Holds w ([] : List T) (.new w) :=
  ⟨rfl, (by simp [MovingAverage.new]), rfl, fun _ hi => absurd hi (Nat.not_lt_zero _)⟩

theorem exists_holds [Inhabited T] (hw : w + 1 < 2 ^ 32) (hpos : 1 ≤ w) (l : List T) :
    ∃ a, l.foldlM MovingAverage.addToWindow (.new w) = some a ∧ Holds w l a := by
  induction l using List.reverseRecOn with
  | nil => exact ⟨_, rfl, holds_nil w⟩
  | append_singleton l v ih =>
    obtain ⟨a, ha, h⟩ := ih
    obtain ⟨a', ha', h'⟩ := h.next hw hpos v
    exact ⟨a', by simp [List.foldlM_append, ha, ha'], h'⟩

end

section
variable {w : ℕ} {l : List UInt64}

theorem total_concat (hpos : 1 ≤ w) (v : UInt64) : total w (l ++ [v]) + (if w ≤ l.length then
    (l[l.length - w]?.map (·.toNat)).getD 0 else 0) = total w l + v.toNat := by
  rw [total, total, window, window, List.length_append, List.length_singleton,
    List.drop_append_of_le_length (by omega), List.map_append, List.sum_append]
  split
  · next hfull =>
    have hlt : l.length - w < l.length := by omega
    rw [List.drop_eq_getElem_cons hlt, List.getElem?_eq_getElem hlt, ← Nat.sub_add_comm hfull]
    simp only [List.map_cons, List.sum_cons, Option.map_some, Option.getD_some, List.map_nil,
      List.sum_nil]
    omega
  · next hfew =>
    rw [Nat.sub_eq_zero_of_le (by omega), Nat.sub_eq_zero_of_le (by omega)]
    simp

theorem exists_mean (hw : w + 1 < 2 ^ 32) (hpos : 1 ≤ w) (l : List UInt64) :
    ∃ a, l.foldlM MovingArithmeticMean.update ⟨.new w, 0⟩ = some a ∧ Holds w l a.toMovingAverage ∧
      a.sum.toNat = total w l % 2 ^ 64 := by
  induction l using List.reverseRecOn with
  | nil => exact ⟨_, rfl, holds_nil w, by simp [total, window]⟩
  | append_singleton l v ih =>
    obtain ⟨a, ha, h, hsum⟩ := ih
    obtain ⟨a', ha', h'⟩ := h.next hw hpos v
    refine ⟨_, by simp [List.foldlM_append, ha, MovingArithmeticMean.update, ha']; rfl, h', ?_⟩
    have hnext := total_concat (l := l) hpos v
    dsimp only
    rw [h.curr_window_size hw, h.size]
    split
    · next hfull =>
      rw [if_pos (by omega), h.value _ (by omega) (by omega), ← h.front] at hnext
      rw [UInt64.toNat_add, UInt64.toNat_sub, hsum]
      have hold := (a.m_num_list a.m_curr_window_front).toNat_lt
      simp only [Option.map_some, Option.getD_some] at hnext
      omega
    · next hfew =>
      rw [if_neg (by omega)] at hnext
      rw [UInt64.toNat_add, hsum]
      omega

theorem mod_div_eq {n k : ℕ} (hpos : 0 < k) (hk : k ≤ 2 ^ 64) :
    n % 2 ^ 64 / k = n / k ↔ n < 2 ^ 64 := by
  refine ⟨fun h => ?_, fun h => by rw [Nat.mod_eq_of_lt h]⟩
  by_contra hlarge
  have hle : n % 2 ^ 64 + k ≤ n := by omega
  have hdiv := Nat.div_le_div_right (c := k) hle
  rw [Nat.add_div_right _ hpos] at hdiv
  omega

theorem mean_iff {a : MovingArithmeticMean} (h : Holds w l a.toMovingAverage)
    (hsum : a.sum.toNat = total w l % 2 ^ 64) (hw : w + 1 < 2 ^ 32) (hpos : 1 ≤ w) (hl : l ≠ []) :
    (a.compute = total w l / (window w l).length ∧
      (a.curr_window_size = w → a.m_num_list a.m_curr_window_front ≤ a.sum)) ↔
      total w l < 2 ^ 64 := by
  have hlen := List.length_pos_iff.mpr hl
  rw [MovingArithmeticMean.compute, hsum, length_window, h.curr_window_size hw,
    mod_div_eq (by omega) (by omega), and_iff_left_iff_imp]
  intro htotal hfull
  have hold := total_concat (l := l) hpos 0
  rw [if_pos (by omega), h.value _ (by omega) (by omega), ← h.front] at hold
  rw [UInt64.le_iff_toNat_le, hsum, Nat.mod_eq_of_lt htotal]
  simp only [Option.map_some, Option.getD_some, UInt64.toNat_zero] at hold
  omega

theorem exact_iff (hpos : 1 ≤ w) (hword : w < 2 ^ 32) (hl : l ≠ []) : Exact w l ↔
    w + 1 < 2 ^ 32 ∧ total w l < 2 ^ 64 ∧
      ∃ m ∈ (window w l)[middle w l.length]?, IsMedian (window w l) m := by
  rcases Nat.lt_or_ge (w + 1) (2 ^ 32) with hw | hw
  · obtain ⟨a, ha, h, hsum⟩ := exists_mean hw hpos l
    obtain ⟨b, hb, hmedian⟩ := exists_holds hw hpos l
    simp only [Exact, ha, hb, Option.some.injEq, Option.mem_def, exists_eq_left',
      mean_iff h hsum hw hpos hl, hmedian.median hw hpos hl, hw, true_and]
  · obtain ⟨v, l, rfl⟩ := List.exists_cons_of_ne_nil hl
    have hnone : (MovingAverage.new w).addToWindow v = none := addToWindow_full (by omega)
    constructor
    · rintro ⟨_, b, hb, _⟩
      rw [List.foldlM_cons, hnone] at hb
      cases hb
    · exact fun h => absurd h.1 (Nat.not_lt.mpr hw)

theorem exact_three : Exact 3 [1, 2, 3] :=
  (exact_iff (by decide) (by decide) (by decide)).mpr (by decide)

theorem not_exact_unsorted : ¬Exact 3 [1, 3, 2] := by
  rintro ⟨_, b, hb, hmedian⟩
  cases hb
  revert hmedian
  decide

end
end Sniper.Sampling.Statistics
