import Sniper.Lib.Path
import Sniper.Timing.WindowForm

/-! # The account of the critical path

Between two dispatches the critical path runs over the micro-ops of the old window, each behind
the other by its contribution, and the statistics of the window sum the contributions up. While
a micro-op is dispatched, the path already reaches over it.
-/
namespace Sniper.Timing.Interval
open Lib Relation

variable {Reg C : Type} {cfg : IntervalConfig Reg C}

namespace Windows
variable {ws ws' : Windows Reg C} {cutoff settled : Nat}

/-- The type under which the contribution of an entry is counted. -/
def typeOf (e : WindowEntry Reg) : Option CpContrType := e.uop.map getCpContrType

/-- The entry of a sequence number. -/
def entryOf (ws : Windows Reg C) (s : Nat) : WindowEntry Reg := ws.m_double_window (ws.slotOf s)

/-- The first entries from the head of the old window. -/
def entries (ws : Windows Reg C) (n : Nat) : List (WindowEntry Reg) :=
  (List.range n).map fun k => ws.entryOf (ws.oldNumber + k)

/-- The path runs over the old window and so many entries behind it, the statistics are about the
old window, and the other entries of the window have not moved the path. -/
structure Accounted (cutoff settled : Nat) (ws : Windows Reg C) : Prop where
  ring : Ring ws
  path : Path WindowEntry.execTime WindowEntry.cpContr ws.m_critical_path_head
    (ws.entries (ws.m_old_window_length + settled)) ws.m_critical_path_tail
  total : ws.m_cpcontr_total =
    ((ws.entries ws.m_old_window_length).map WindowEntry.cpContr).sum
  bytype : ∀ type, ws.m_cpcontr_bytype type =
    sumBy typeOf WindowEntry.cpContr (some type) (ws.entries ws.m_old_window_length)
  small : ∀ e ∈ ws.entries (ws.m_old_window_length + settled), e.cpContr ≤ cutoff - 1
  waiting : ∀ s, ws.headNumber + settled ≤ s → s < ws.m_next_sequence_number →
    (ws.entryOf s).cpContr = 0 ∧ (ws.entryOf s).execTime ≤ ws.m_critical_path_tail

theorem entries_succ (ws : Windows Reg C) (n : Nat) :
    ws.entries (n + 1) = ws.entries n ++ [ws.entryOf (ws.oldNumber + n)] := by
  unfold entries
  rw [List.range_succ, List.map_append, List.map_singleton]

theorem mem_entries {n e} :
    e ∈ ws.entries n ↔ ∃ k < n, ws.entryOf (ws.oldNumber + k) = e := by
  unfold entries
  simp only [List.mem_map, List.mem_range]

theorem entries_congr {n first} (hfirst : ws'.oldNumber = first)
    (h : ∀ k < n, ws'.entryOf (first + k) = ws.entryOf (ws.oldNumber + k)) :
    ws'.entries n = ws.entries n := by
  refine List.map_congr_left ?_
  intro k hk
  rw [hfirst]
  exact h k (List.mem_range.mp hk)

/-! ### Marks and restarts -/

theorem Accounted.touch (h : Accounted cutoff 0 ws)
    (hrest : ws' = { ws with m_double_window := ws'.m_double_window })
    (hnumber : ws'.numberAt = ws.numberAt)
    (hold : ∀ s, ws.oldNumber ≤ s → s < ws.headNumber → ws'.entryOf s = ws.entryOf s)
    (hwindow : ∀ s, ws.headNumber ≤ s → s < ws.m_next_sequence_number →
      (ws'.entryOf s).cpContr = 0 ∧ (ws'.entryOf s).execTime ≤ ws.m_critical_path_tail) :
    Accounted cutoff 0 ws' := by
  obtain ⟨hhead, hlast⟩ := h.ring.oldNumber_add
  generalize ws'.m_double_window = d at hrest
  subst hrest
  have hring : Ring { ws with m_double_window := d } :=
    h.ring.congr ⟨rfl, hnumber, rfl, rfl, rfl, rfl⟩ (Nat.le_refl _) h.ring.oldHead h.ring.started
  have hentries : Windows.entries { ws with m_double_window := d } ws.m_old_window_length =
      ws.entries ws.m_old_window_length := by
    refine entries_congr (rfl : _ = ws.oldNumber) ?_
    intro k hk
    exact hold _ (Nat.le_add_right _ _) (by omega)
  refine ⟨hring, ?_, ?_, ?_, ?_, hwindow⟩
  · exact hentries.symm ▸ h.path
  · exact hentries.symm ▸ h.total
  · exact hentries.symm ▸ h.bytype
  · exact hentries.symm ▸ h.small

theorem Ring.accounted_clear (h : Ring ws) (contention : IntervalContention Reg C) (cutoff : Nat)
    {newCpHead} (hne : 0 < ws.m_window_length)
    (hwindow : ∀ s, ws.headNumber ≤ s → s < ws.m_next_sequence_number →
      (ws.entryOf s).cpContr = 0 ∧ (ws.entryOf s).execTime ≤ newCpHead) :
    Accounted cutoff 0 (ws.clearOldWindow contention newCpHead) := by
  have hring : Ring (ws.clearOldWindow contention newCpHead) :=
    h.congr ⟨rfl, rfl, rfl, rfl, rfl, rfl⟩ (Nat.zero_le _) h.head (fun _ => by omega)
  refine ⟨hring, ?_, rfl, ?_, ?_, hwindow⟩
  · exact Path.nil newCpHead
  · intro type
    rfl
  · intro e he
    cases he

theorem Accounted.settle (h : Accounted cutoff 0 ws) (hne : 0 < ws.m_window_length) :
    Accounted cutoff 1 ws := by
  obtain ⟨hhead, hlast⟩ := h.ring.oldNumber_add
  obtain ⟨hcpContr, hexecTime⟩ := h.waiting ws.headNumber (Nat.le_refl _) (by omega)
  have hsucc := entries_succ ws ws.m_old_window_length
  rw [hhead] at hsucc
  refine ⟨h.ring, ?_, h.total, h.bytype, ?_, ?_⟩
  · have hpath := h.path.snoc (a := ws.entryOf ws.headNumber) (by omega) (by omega)
    rw [hcpContr] at hpath
    rw [hsucc]
    exact hpath
  · intro e he
    rw [hsucc, List.mem_append, List.mem_singleton] at he
    rcases he with he | rfl
    · exact h.small e he
    · omega
  · intro s hs hnext
    exact h.waiting s (by omega) hnext

/-! ### The head of the window -/

theorem mem_indices {fuel a b i} (hab : a ≤ b) (h : i ∈ ws.indices fuel (ws.slotOf a) (ws.slotOf b)) :
    ∃ s, a ≤ s ∧ s < b ∧ i = ws.slotOf s := by
  induction fuel generalizing a with
  | zero => cases h
  | succ fuel ih =>
    rw [indices] at h
    split at h
    · cases h
    · next hne =>
      have hlt : a < b := lt_of_le_of_ne hab (fun heq => hne (congrArg _ heq))
      rcases List.mem_cons.mp h with rfl | h
      · exact ⟨a, Nat.le_refl _, hlt, rfl⟩
      · rw [slotOf_succ] at h
        obtain ⟨s, hs, hsb, rfl⟩ := ih hlt h
        exact ⟨s, by omega, hsb, rfl⟩

theorem Ring.mem_getWindowIterator (h : Ring ws) {i} (hi : i ∈ ws.getWindowIterator) :
    ∃ s, ws.headNumber ≤ s ∧ s < ws.m_next_sequence_number ∧ i = ws.slotOf s := by
  unfold getWindowIterator at hi
  rw [h.head, h.tail] at hi
  exact mem_indices (Nat.sub_le ..) hi

theorem Ring.slotOf_inj (h : Ring ws) {a b} (ha : ws.oldNumber ≤ a)
    (ha' : a < ws.m_next_sequence_number) (hb : ws.oldNumber ≤ b)
    (hb' : b < ws.m_next_sequence_number) (heq : ws.slotOf a = ws.slotOf b) : a = b := by
  obtain ⟨hhead, hlast⟩ := h.oldNumber_add
  have hwindow := h.window
  have hold := h.old
  have hdouble : ws.m_double_window_size = 2 * ws.m_window_size := rfl
  rcases Nat.lt_trichotomy a b with hlt | rfl | hlt
  · exact absurd heq (slotOf_ne hlt (by omega))
  · rfl
  · exact absurd heq.symm (slotOf_ne hlt (by omega))

theorem Ring.entryOf_modify_head (h : Ring ws) (f : WindowEntry Reg → WindowEntry Reg) :
    (ws.modify ws.m_window_head__old_window_tail f).entryOf ws.headNumber =
      f (ws.entryOf ws.headNumber) := by
  rw [h.head]
  exact modify_self _ _

theorem Ring.entryOf_modify_head_of_ne (h : Ring ws) (hne : 0 < ws.m_window_length)
    (f : WindowEntry Reg → WindowEntry Reg) {s} (hold : ws.oldNumber ≤ s)
    (hnext : s < ws.m_next_sequence_number) (hs : s ≠ ws.headNumber) :
    (ws.modify ws.m_window_head__old_window_tail f).entryOf s = ws.entryOf s := by
  obtain ⟨hhead, hlast⟩ := h.oldNumber_add
  unfold entryOf
  rw [h.head]
  refine modify_of_ne ?_ f
  intro heq
  exact hs (h.slotOf_inj hold hnext (by omega) (by omega) heq)

theorem numberAt_modify {index f}
    (h : (f (ws.m_double_window index)).uop.map (·.sequenceNumber) = ws.numberAt index) (i : Nat) :
    (ws.modify index f).numberAt i = ws.numberAt i := by
  unfold numberAt
  by_cases hi : i = index
  · rw [hi, modify_self]
    exact h
  · rw [modify_of_ne hi]

theorem Accounted.modify_head (h : Accounted cutoff 0 ws) (hne : 0 < ws.m_window_length) {f}
    (hnumber : ∀ e, (f e).uop.map (·.sequenceNumber) = e.uop.map (·.sequenceNumber))
    (hcpContr : (f (ws.entryOf ws.headNumber)).cpContr = 0)
    (hexecTime : (f (ws.entryOf ws.headNumber)).execTime ≤ ws.m_critical_path_tail) :
    Accounted cutoff 0 (ws.modify ws.m_window_head__old_window_tail f) := by
  obtain ⟨hhead, hlast⟩ := h.ring.oldNumber_add
  refine h.touch rfl (funext (numberAt_modify (hnumber _))) ?_ ?_
  · intro s hs hlt
    exact h.ring.entryOf_modify_head_of_ne hne f hs (by omega) (by omega)
  · intro s hs hnext
    by_cases heq : s = ws.headNumber
    · rw [heq, h.ring.entryOf_modify_head f]
      exact ⟨hcpContr, hexecTime⟩
    · rw [h.ring.entryOf_modify_head_of_ne hne f (by omega) hnext heq]
      exact h.waiting s hs hnext

theorem Accounted.extend (h : Accounted cutoff 0 ws) (hne : 0 < ws.m_window_length) {f time}
    (htime : ws.m_critical_path_tail < time) (hsmall : time - ws.m_critical_path_tail ≤ cutoff - 1)
    (hnumber : ∀ e, (f e).uop.map (·.sequenceNumber) = e.uop.map (·.sequenceNumber))
    (hcpContr : (f (ws.entryOf ws.headNumber)).cpContr = time - ws.m_critical_path_tail)
    (hexecTime : (f (ws.entryOf ws.headNumber)).execTime = time) :
    Accounted cutoff 1 { ws.modify ws.m_window_head__old_window_tail f with
      m_critical_path_tail := time } := by
  obtain ⟨hhead, hlast⟩ := h.ring.oldNumber_add
  have hself := h.ring.entryOf_modify_head f
  have hring : Ring { ws.modify ws.m_window_head__old_window_tail f with
      m_critical_path_tail := time } :=
    h.ring.congr ⟨rfl, funext (numberAt_modify (hnumber _)), rfl, rfl, rfl, rfl⟩
      (Nat.le_refl _) h.ring.oldHead h.ring.started
  have hentries : (ws.modify ws.m_window_head__old_window_tail f).entries ws.m_old_window_length =
      ws.entries ws.m_old_window_length := by
    refine entries_congr (rfl : _ = ws.oldNumber) ?_
    intro k hk
    exact h.ring.entryOf_modify_head_of_ne hne f (by omega) (by omega) (by omega)
  have hsucc : (ws.modify ws.m_window_head__old_window_tail f).entries
      (ws.m_old_window_length + 1) =
      ws.entries ws.m_old_window_length ++ [f (ws.entryOf ws.headNumber)] := by
    rw [entries_succ, hentries, ← hself]
    congr 3
  refine ⟨hring, ?_, ?_, ?_, ?_, ?_⟩
  · have hpath := h.path.snoc (a := f (ws.entryOf ws.headNumber)) (by omega) (by omega)
    rw [hcpContr, Nat.add_sub_cancel' htime.le] at hpath
    exact hsucc.symm ▸ hpath
  · exact hentries.symm ▸ h.total
  · exact hentries.symm ▸ h.bytype
  · intro e he
    replace he := hsucc ▸ he
    rw [List.mem_append, List.mem_singleton] at he
    rcases he with he | rfl
    · exact h.small e he
    · omega
  · intro s hs hnext
    have hs : ws.headNumber + 1 ≤ s := hs
    have hother := h.ring.entryOf_modify_head_of_ne hne f (by omega) hnext (by omega)
    obtain ⟨hcpContr', hexecTime'⟩ := h.waiting s (by omega) hnext
    have hentry : ({ ws.modify ws.m_window_head__old_window_tail f with
        m_critical_path_tail := time } : Windows Reg C).entryOf s = ws.entryOf s := hother
    rw [hentry]
    exact ⟨hcpContr', hexecTime'.trans htime.le⟩

end Windows
end Sniper.Timing.Interval
