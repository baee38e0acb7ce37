import Mathlib.Data.List.Basic

/-! # Channels that carry messages of many lanes

A first-in first-out channel whose messages each name a lane, seen from one lane.
-/
namespace Sniper.Lib.Channel

variable {κ α β : Type*} [DecidableEq κ]

/-- The messages of one lane, in their order. -/
def lane (k : κ) (l : List (κ × α)) : List α :=
  l.filterMap fun p => if p.1 = k then some p.2 else none

@[simp] theorem lane_nil (k : κ) : lane k ([] : List (κ × α)) = [] := rfl

@[simp] theorem lane_append (k : κ) (l l' : List (κ × α)) :
    lane k (l ++ l') = lane k l ++ lane k l' := by simp [lane]

theorem lane_cons_self (k : κ) (m : α) (l : List (κ × α)) :
    lane k ((k, m) :: l) = m :: lane k l := by simp [lane]

theorem lane_cons_other {k k' : κ} (h : k' ≠ k) (m : α) (l : List (κ × α)) :
    lane k ((k', m) :: l) = lane k l := by simp [lane, h]

theorem mem_lane {k : κ} {m : α} {l : List (κ × α)} (h : (k, m) ∈ l) : m ∈ lane k l :=
  List.mem_filterMap.mpr ⟨(k, m), h, if_pos rfl⟩

@[simp] theorem lane_self (k : κ) (l : List α) : lane k (l.map (k, ·)) = l := by
  simp [lane, List.filterMap_map]

theorem lane_other {k k' : κ} (h : k' ≠ k) (l : List α) : lane k' (l.map (k, ·)) = [] := by
  simp [lane, List.filterMap_map, h.symm]

theorem lane_filterMap (k : κ) (f : α → Option β) (l : List (κ × α)) :
    lane k (l.filterMap fun p => (f p.2).map (p.1, ·)) = (lane k l).filterMap f := by
  induction l with
  | nil => rfl
  | cons p l ih =>
    obtain ⟨k', m⟩ := p
    by_cases hk : k' = k
    · subst hk
      rw [lane_cons_self, List.filterMap_cons, List.filterMap_cons]
      cases hf : f m with
      | none => simpa [hf] using ih
      | some b => simp only [Option.map_some, lane_cons_self, ih]
    · rw [lane_cons_other hk, List.filterMap_cons]
      cases hf : f m with
      | none => simpa [hf] using ih
      | some b => simp only [Option.map_some, lane_cons_other hk, ih]

end Sniper.Lib.Channel
