import Mathlib.Algebra.GroupWithZero.Nat
import Mathlib.Data.List.Basic

/-! # Contention model

`ContentionModel`, the part a timer uses: the slots of a queue, each with the time until which
it is taken and the tag that takes it. What is only counted is left out.
-/
namespace Sniper.Timing

structure ContentionModel where
  m_time : List (Nat × Nat)
  m_t_last : Nat

namespace ContentionModel
variable (m : ContentionModel)

/-- `hasFreeSlot` with the default tag. -/
def hasFreeSlot (t_start : Nat) : Bool :=
  m.m_time.any fun (time, tag) => time ≤ t_start || tag = 2 ^ 64 - 1

/-- The search for a slot: the first that is free, else the first that becomes free. -/
def findUnit (t_start : Nat) : List (Nat × Nat) → Nat → Nat → Nat → Nat
  | [], _, unit, _ => unit
  | (time, _) :: rest, i, unit, best =>
    if time ≤ t_start then i
    else if time < best then findUnit t_start rest (i + 1) i time
    else findUnit t_start rest (i + 1) unit best

def getCompletionTime (t_start t_delay tag : Nat) : Nat × ContentionModel :=
  match m.m_time with
  | [] => (t_start + t_delay, m)
  | first :: _ =>
    if t_start = 0 then (t_delay, m)
    else if t_start < m.m_t_last then (t_start + t_delay, m)
    else
      let unit := findUnit t_start m.m_time 0 0 first.1
      let t_begin := max t_start (m.m_time.getD unit first).1
      (t_begin + t_delay, ⟨m.m_time.set unit (t_begin + t_delay, tag), t_start⟩)

end ContentionModel
end Sniper.Timing
