import Mathlib.Data.List.FinRange

/-! # The indirect branch target buffer

`IndirectBranchTargetBuffer` with the 256 entries of the Pentium M. A key is the low half of an
address, and key 0 also says that the entry is not used. -/
namespace Sniper.Predictors

structure IndirectBranchTargetBuffer where
  history : UInt32
  lru : Fin 256
  m_table : Fin 256 → UInt32 × UInt64

namespace IndirectBranchTargetBuffer
variable (s : IndirectBranchTargetBuffer) (ip target : UInt64)

def create : IndirectBranchTargetBuffer := ⟨0x00000FFF, 0, fun _ => (0, 0)⟩

def predict : Bool :=
  match (List.finRange 256).find? fun i => (s.m_table i).1 = ip.toUInt32 with
  | some i => (s.m_table i).2 = target
  | none => false

/-- The loop of `update` does not stop at the first entry that it writes. -/
def writes (i : Fin 256) : Bool := (s.m_table i).1 = ip.toUInt32 || (s.m_table i).1 = 0

def update (actual : Bool) : IndirectBranchTargetBuffer :=
  match actual with
  | false => { s with history := s.history >>> 1 }
  | true =>
    let history := s.history >>> 1 ||| 0x00000800
    if (List.finRange 256).any (s.writes ip) then
      { s with
        history
        m_table := fun i => if s.writes ip i then (ip.toUInt32, target) else s.m_table i }
    else
      { history
        lru := s.lru + 1
        m_table := Function.update s.m_table s.lru (ip.toUInt32, target) }

variable {s ip target}

theorem predict_taken : (s.update ip target true).predict ip target = true := by
  have hfound : ∃ i, ((s.update ip target true).m_table i).1 = ip.toUInt32 := by
    unfold update
    dsimp only
    split
    · next h =>
      obtain ⟨i, -, hi⟩ := List.any_eq_true.mp h
      exact ⟨i, by simp [hi]⟩
    · exact ⟨s.lru, by simp⟩
  have htarget : ∀ i, ((s.update ip target true).m_table i).1 = ip.toUInt32 →
      ((s.update ip target true).m_table i).2 = target := by
    intro i
    unfold update
    dsimp only
    split
    · dsimp only
      split
      · exact fun _ => rfl
      · next h => exact fun hi => absurd (by simp [writes, hi]) h
    · next h =>
      intro hi
      by_cases hlru : i = s.lru
      · simp [hlru]
      · dsimp only at hi
        rw [Function.update_of_ne hlru] at hi
        exact absurd (List.any_eq_true.mpr ⟨i, List.mem_finRange i, by simp [writes, hi]⟩) h
  unfold predict
  split
  · next h =>
    have hkey := List.find?_some h
    exact decide_eq_true (htarget _ (of_decide_eq_true hkey))
  · next h =>
    obtain ⟨i, hi⟩ := hfound
    exact absurd (decide_eq_true hi) (List.find?_eq_none.mp h i (List.mem_finRange i))

end IndirectBranchTargetBuffer
end Sniper.Predictors
