import Sniper.Timing.RobExecution

/-! # Barriers

What a barrier asks of the order of the events, when the steps of a timer respect it, and what
the log and the record of the last barrier say about the barriers that have entered.
-/
namespace Sniper.Timing.Rob

variable {Reg K M : Type}

/-! ### The order -/

/-- A barrier or serializing micro-op. -/
def Fences (uop : MicroOp Reg) : Prop := (uop.serializing || uop.m_membar) = true

instance (uop : MicroOp Reg) : Decidable (Fences uop) := inferInstanceAs (Decidable (_ = true))

def accesses (uop : MicroOp Reg) : Bool := uop.isLoad || uop.isStore

/-- Everything older is done when a barrier issues, and its result is available when a load or
store behind it issues. -/
def Fenced : Event Reg → List (Event Reg) → Prop
  | .issued i, log =>
    (Fences i.uop → i.last_store_done ≤ i.issued ∧
      ∀ n < i.seqnr, ∃ j ∈ issues log, j.seqnr = n ∧ j.done ≤ i.issued) ∧
    (accesses i.uop = true → ∀ b uop producers, .entered b uop producers ∈ log → b < i.seqnr →
      uop.m_membar = true → ∃ j ∈ issues log, j.seqnr = b ∧ j.available ≤ i.issued)
  | _, _ => True

/-- Every event respects the barriers before it. -/
def Barred : List (Event Reg) → Prop
  | [] => True
  | event :: log => Fenced event log ∧ Barred log

/-! ### Careful steps -/

/-- `doIssue` begins. -/
def initCycle (cfg : Config Reg K M) (s : RobTimer Reg K M) : RobTimer Reg K M :=
  { s with contention := match cfg.m_rob_contention with
      | some model => model.initCycle s.contention s.now
      | none => s.contention }

def Scan.start : Scan := ⟨0, ⊤, true, false, false, false⟩

/-- Everything in front of a position is done. -/
def Clear (s : RobTimer Reg K M) (k : Nat) : Prop :=
  ∀ j < k, ∀ p ∈ s.rob[j]?, p.done ≤ (s.now : Time)

/-- A micro-op in front of a position makes its result available in the cycle it issues. -/
def Instant (s : RobTimer Reg K M) (k : Nat) : Prop :=
  ∃ j < k, ∃ p ∈ s.rob[j]?, p.done = ⊤ ∧ p.uop.execLatency = 0 ∧ p.uop.m_uop.isStore = false

/-- The entry at a position may issue in this cycle, as far as it and the stores go. -/
def MayIssue (s : RobTimer Reg K M) (k : Nat) (b : RobEntry Reg) : Prop :=
  b.done = ⊤ ∧ s.last_store_done ≤ s.now ∧
    (k < s.m_num_in_rob ∧ b.ready ≤ (s.now : Time) ∨ b.ready = ⊤ ∧ Instant s k)

/-- The oldest micro-op that has not issued is in front of a position, and it is a store or
cannot issue. -/
def Blocked (cfg : Config Reg K M) (s : RobTimer Reg K M) (scan : Scan) (k : Nat) : Prop :=
  ∃ o < k, ∃ p ∈ s.rob[o]?, p.done = ⊤ ∧ (∀ j < o, ∀ q ∈ s.rob[j]?, q.done ≠ ⊤) ∧
    (p.uop.m_uop.isStore = true ∨ HeldBack cfg s scan p)

/-- A barrier that may issue has everything older done, or the scan does not come to it with
`head_of_queue`. -/
def Sheltered (cfg : Config Reg K M) (s : RobTimer Reg K M) : Prop :=
  ∀ k < s.rob.length, ∀ b ∈ s.rob[k]?, Fences b.uop.m_uop → MayIssue s k b →
    Clear s k ∨ Blocked cfg (initCycle cfg s) .start k

/-- Loads and stores are no barriers themselves, and do not enter while the last barrier is the
oldest micro-op and is not done; the clock is not set back. -/
def Careful (cfg : Config Reg K M) (s : RobTimer Reg K M) : Call Reg → Prop
  | .enter uop => uop.squashed = false → accesses uop.m_uop = true → uop.m_uop.m_membar = false ∧
      ∀ front ∈ s.rob.head?, s.memoryDependencies.membar = some front.seqnr →
        front.done ≤ (s.now : Time)
  | .execute => starved cfg s = false → Sheltered cfg s
  | .synchronize time => s.now ≤ time
  | .setPeriod _ => True

instance (s : RobTimer Reg K M) (k : Nat) : Decidable (Clear s k) :=
  inferInstanceAs (Decidable (∀ j < k, ∀ p ∈ s.rob[j]?, _))

instance (s : RobTimer Reg K M) (k : Nat) : Decidable (Instant s k) :=
  inferInstanceAs (Decidable (∃ j < k, ∃ p ∈ s.rob[j]?, _ ∧ _ ∧ _))

instance (s : RobTimer Reg K M) (k : Nat) (b : RobEntry Reg) : Decidable (MayIssue s k b) :=
  inferInstanceAs (Decidable (_ ∧ _ ∧ (_ ∧ _ ∨ _ ∧ _)))

instance (cfg : Config Reg K M) (s : RobTimer Reg K M) (scan : Scan) (p : RobEntry Reg) :
    Decidable (HeldBack cfg s scan p) := inferInstanceAs (Decidable (_ ∨ _))

instance (s : RobTimer Reg K M) (scan : Scan) (k : Nat) : Decidable (Blocked cfg s scan k) :=
  inferInstanceAs (Decidable (∃ o < k, ∃ p ∈ s.rob[o]?, _ ∧ (∀ j < o, ∀ q ∈ s.rob[j]?, _) ∧ _))

instance (s : RobTimer Reg K M) : Decidable (Sheltered cfg s) :=
  inferInstanceAs (Decidable (∀ k < s.rob.length, ∀ b ∈ s.rob[k]?, _ → _ → _))

instance (s : RobTimer Reg K M) (call : Call Reg) : Decidable (Careful cfg s call) :=
  match call with
  | .enter _ => inferInstanceAs (Decidable (_ → _ → _ ∧ ∀ front ∈ s.rob.head?, _ → _))
  | .execute => inferInstanceAs (Decidable (_ → _))
  | .synchronize _ => inferInstanceAs (Decidable (_ ≤ _))
  | .setPeriod _ => inferInstanceAs (Decidable True)

def CarefulStep [DecidableEq Reg] (cfg : Config Reg K M) (s s' : RobTimer Reg K M) : Prop :=
  ∃ call, Allowed cfg call ∧ Careful cfg s call ∧ exec cfg s call = .ok s'

/-! ### What the log says -/

/-- A barrier that has entered. -/
def IsBarrier (log : List (Event Reg)) (b : Nat) : Prop :=
  ∃ uop producers, .entered b uop producers ∈ log ∧ uop.m_membar = true

theorem Disciplined.entered_lt {log : List (Event Reg)} (h : Disciplined log) {x : Nat}
    {uop : MicroOp Reg} {producers : List Nat} (hx : .entered x uop producers ∈ log) :
    x < (entered log).length := by
  induction log with
  | nil => cases hx
  | cons event log ih =>
    rcases List.mem_cons.mp hx with heq | hx
    · cases heq
      have hlength : x = (entered log).length := h.1
      show x < (x :: entered log).length
      rw [List.length_cons]
      omega
    · have hlt := ih h.2 hx
      cases event with
      | entered y =>
        show x < (y :: entered log).length
        rw [List.length_cons]
        omega
      | dispatched | issued | committed => exact hlt

theorem Disciplined.entered_unique {log : List (Event Reg)} (h : Disciplined log) {x : Nat}
    {uop uop' : MicroOp Reg} {producers producers' : List Nat}
    (hx : .entered x uop producers ∈ log) (hx' : .entered x uop' producers' ∈ log) :
    uop = uop' ∧ producers = producers' := by
  induction log with
  | nil => cases hx
  | cons event log ih =>
    rcases List.mem_cons.mp hx with heq | hx
    · rcases List.mem_cons.mp hx' with heq' | hx'
      · obtain ⟨-, huop, hproducers⟩ := Event.entered.inj (heq.trans heq'.symm)
        exact ⟨huop, hproducers⟩
      · have hlt := h.2.entered_lt hx'
        rw [← heq] at h
        exact absurd h.1.symm (Nat.ne_of_gt hlt)
    · rcases List.mem_cons.mp hx' with heq' | hx'
      · have hlt := h.2.entered_lt hx
        rw [← heq'] at h
        exact absurd h.1.symm (Nat.ne_of_gt hlt)
      · exact ih h.2 hx hx'

theorem Disciplined.issued_entered {log} (h : Disciplined log) {j : Issue Reg} (hj : j ∈ issues log) :
    .entered j.seqnr j.uop j.producers ∈ log := by
  induction log with
  | nil => cases hj
  | cons event log ih =>
    cases event with
    | issued i =>
      rcases List.mem_cons.mp hj with rfl | hj
      · exact List.mem_cons_of_mem _ h.1.2.1
      · exact List.mem_cons_of_mem _ (ih h.2 hj)
    | entered | dispatched | committed => exact List.mem_cons_of_mem _ (ih h.2 hj)

theorem issues_mono {event : Event Reg} {log : List (Event Reg)} {j : Issue Reg}
    (hj : j ∈ issues log) : j ∈ issues (event :: log) := by
  rw [issues, List.filterMap_cons]
  split
  · exact hj
  · exact List.mem_cons_of_mem _ hj

theorem Barred.done {log : List (Event Reg)} (h : Barred log) {j : Issue Reg} (hj : j ∈ issues log)
    (hfences : Fences j.uop) {n : Nat} (hn : n < j.seqnr) :
    ∃ i ∈ issues log, i.seqnr = n ∧ i.done ≤ j.issued := by
  induction log with
  | nil => cases hj
  | cons event log ih =>
    have hrest : j ∈ issues log → ∃ i ∈ issues (event :: log), i.seqnr = n ∧ i.done ≤ j.issued := by
      intro hj
      obtain ⟨i, hi, hin⟩ := ih h.2 hj
      exact ⟨i, issues_mono hi, hin⟩
    cases event with
    | issued e =>
      rcases List.mem_cons.mp hj with rfl | hj
      · obtain ⟨i, hi, hin⟩ := (h.1.1 hfences).2 n hn
        exact ⟨i, List.mem_cons_of_mem _ hi, hin⟩
      · exact hrest hj
    | entered | dispatched | committed => exact hrest hj

theorem Barred.available {log : List (Event Reg)} (h : Barred log) (hdisciplined : Disciplined log)
    {j : Issue Reg} (hj : j ∈ issues log) (hacc : accesses j.uop = true) {b : Nat}
    (hb : IsBarrier log b) (hlt : b < j.seqnr) :
    ∃ i ∈ issues log, i.seqnr = b ∧ i.available ≤ j.issued := by
  induction log with
  | nil => cases hj
  | cons event log ih =>
    obtain ⟨uop, producers, hb, hmembar⟩ := hb
    have hentered : j ∈ issues log → .entered b uop producers ∈ log →
        ∃ i ∈ issues (event :: log), i.seqnr = b ∧ i.available ≤ j.issued := by
      intro hj hb
      obtain ⟨i, hi, hib⟩ := ih h.2 hdisciplined.2 hj ⟨uop, producers, hb, hmembar⟩
      exact ⟨i, issues_mono hi, hib⟩
    cases event with
    | issued e =>
      have hold : .entered b uop producers ∈ log := (List.mem_cons.mp hb).resolve_left nofun
      rcases List.mem_cons.mp hj with rfl | hj
      · obtain ⟨i, hi, hib⟩ := h.1.2 hacc b uop producers hold hlt hmembar
        exact ⟨i, List.mem_cons_of_mem _ hi, hib⟩
      · exact hentered hj hold
    | entered x uop' producers' =>
      have hj : j ∈ issues log := hj
      refine hentered hj ((List.mem_cons.mp hb).resolve_left fun heq => ?_)
      -- what enters now is younger than what has issued
      have hold := hdisciplined.2.entered_lt (hdisciplined.2.issued_entered hj)
      have hnew : x = (entered log).length := hdisciplined.1
      cases heq
      omega
    | dispatched | committed => exact hentered hj ((List.mem_cons.mp hb).resolve_left nofun)

/-! ### What the timer remembers -/

/-- What the log and the record of the last barrier have to do with each other. -/
structure Fencing (base now : Nat) (membar : Option Nat) (log : List (Event Reg)) : Prop where
  old : ∀ j ∈ issues log, j.seqnr < base → j.done ≤ now
  within : ∀ j ∈ issues log, j.issued ≤ j.available
  plain : ∀ b uop producers, .entered b uop producers ∈ log → accesses uop = true →
    uop.m_membar = false
  recorded : ∀ b, IsBarrier log b → ∃ m, membar = some m ∧ b ≤ m
  barrier : ∀ m, membar = some m → IsBarrier log m
  behind : ∀ x uop producers, .entered x uop producers ∈ log → accesses uop = true →
    ∀ b < x, IsBarrier log b → (∃ j ∈ issues log, j.seqnr = b ∧ j.available ≤ now) ∨
      ∃ m ∈ producers, b ≤ m ∧ IsBarrier log m
  barred : Barred log

namespace Fencing
variable {base base' now now' : Nat} {membar membar' : Option Nat} {log : List (Event Reg)}

theorem tick (h : Fencing base now membar log) (hle : now ≤ now') :
    Fencing base now' membar log := by
  refine ⟨fun j hj hlt => (h.old j hj hlt).trans hle, h.within, h.plain, h.recorded, h.barrier,
    fun x uop producers hx hacc b hb hbar => ?_, h.barred⟩
  refine (h.behind x uop producers hx hacc b hb hbar).imp_left fun hj => ?_
  obtain ⟨j, hj, hjb, hle'⟩ := hj
  exact ⟨j, hj, hjb, hle'.trans hle⟩

theorem cons (h : Fencing base now membar log) {event : Event Reg}
    (hevent : ∀ x uop producers, event ≠ .entered x uop producers) (hfenced : Fenced event log)
    (hold : ∀ j ∈ issues (event :: log), j.seqnr < base' → j.done ≤ now)
    (hwithin : ∀ i, event = .issued i → i.issued ≤ i.available) :
    Fencing base' now membar (event :: log) := by
  have hmem : ∀ {x uop producers}, .entered x uop producers ∈ event :: log →
      .entered x uop producers ∈ log := fun hx =>
    (List.mem_cons.mp hx).resolve_left fun heq => hevent _ _ _ heq.symm
  have hbarrier : ∀ {b}, IsBarrier log b → IsBarrier (event :: log) b := by
    intro b hb
    obtain ⟨uop, producers, hb, hmembar⟩ := hb
    exact ⟨uop, producers, List.mem_cons_of_mem _ hb, hmembar⟩
  have hbarrier' : ∀ {b}, IsBarrier (event :: log) b → IsBarrier log b := by
    intro b hb
    obtain ⟨uop, producers, hb, hmembar⟩ := hb
    exact ⟨uop, producers, hmem hb, hmembar⟩
  refine ⟨hold, fun j hj => ?_, fun b uop producers hb => h.plain b uop producers (hmem hb),
    fun b hb => h.recorded b (hbarrier' hb), fun m hm => hbarrier (h.barrier m hm),
    fun x uop producers hx hacc b hb hbar => ?_, hfenced, h.barred⟩
  · cases event with
    | issued i =>
      rcases List.mem_cons.mp hj with rfl | hj
      · exact hwithin j rfl
      · exact h.within j hj
    | entered x uop producers => exact absurd rfl (hevent x uop producers)
    | dispatched | committed => exact h.within j hj
  · rcases h.behind x uop producers (hmem hx) hacc b hb (hbarrier' hbar) with hj | hm
    · obtain ⟨j, hj, hjb⟩ := hj
      exact .inl ⟨j, issues_mono hj, hjb⟩
    · obtain ⟨m, hm, hle, hbm⟩ := hm
      exact .inr ⟨m, hm, hle, hbarrier hbm⟩

theorem dispatched (h : Fencing base now membar log) (x : Nat) :
    Fencing base now membar (.dispatched x :: log) :=
  h.cons (fun _ _ _ => nofun) trivial h.old fun _ => nofun

theorem entered (h : Fencing base now membar log) {x uop producers}
    (hplain : accesses uop = true → uop.m_membar = false)
    (hmembar : membar' = if !accesses uop && uop.m_membar then some x else membar)
    (hlt : ∀ y uop producers, .entered y uop producers ∈ log → y < x)
    (hbehind : accesses uop = true → ∀ b, IsBarrier log b →
      (∃ j ∈ issues log, j.seqnr = b ∧ j.available ≤ now) ∨
        ∃ m ∈ producers, b ≤ m ∧ IsBarrier log m) :
    Fencing base now membar' (.entered x uop producers :: log) := by
  have hbarrier : ∀ {b}, IsBarrier log b → IsBarrier (.entered x uop producers :: log) b := by
    intro b hb
    obtain ⟨uop', producers', hb, hmem⟩ := hb
    exact ⟨uop', producers', List.mem_cons_of_mem _ hb, hmem⟩
  have hbarrier' : ∀ {b}, IsBarrier (.entered x uop producers :: log) b →
      b = x ∧ uop.m_membar = true ∨ IsBarrier log b := by
    intro b hb
    obtain ⟨uop', producers', hb, hmem⟩ := hb
    rcases List.mem_cons.mp hb with heq | hb
    · cases heq
      exact .inl ⟨rfl, hmem⟩
    · exact .inr ⟨uop', producers', hb, hmem⟩
  refine ⟨h.old, h.within, fun b uop' producers' hb hacc => ?_, fun b hb => ?_, fun m hm => ?_,
    fun y uop' producers' hy hacc b hb hbar => ?_, trivial, h.barred⟩
  · rcases List.mem_cons.mp hb with heq | hb
    · cases heq
      exact hplain hacc
    · exact h.plain b uop' producers' hb hacc
  · rw [hmembar]
    rcases hbarrier' hb with ⟨rfl, hmem⟩ | hb
    · cases hacc : accesses uop with
      | true => exact absurd (hplain hacc) (by rw [hmem]; decide)
      | false =>
        rw [hmem]
        exact ⟨b, rfl, Nat.le_refl b⟩
    · split
      · obtain ⟨uop', producers', hb, -⟩ := hb
        exact ⟨x, rfl, Nat.le_of_lt (hlt b uop' producers' hb)⟩
      · exact h.recorded b hb
  · rw [hmembar] at hm
    split at hm
    case isTrue hnew =>
      cases hm
      exact ⟨uop, producers, List.mem_cons_self .., (Bool.and_eq_true_iff.mp hnew).2⟩
    case isFalse => exact hbarrier (h.barrier m hm)
  · have hold : (∃ j ∈ issues log, j.seqnr = b ∧ j.available ≤ now) ∨
        ∃ m ∈ producers', b ≤ m ∧ IsBarrier log m := by
      rcases List.mem_cons.mp hy with heq | hy
      · cases heq
        exact hbehind hacc b ((hbarrier' hbar).resolve_left fun hbx => Nat.ne_of_lt hb hbx.1)
      · refine h.behind y uop' producers' hy hacc b hb ((hbarrier' hbar).resolve_left fun hbx => ?_)
        have hlt := hlt y uop' producers' hy
        omega
    refine hold.imp_right fun hm => ?_
    obtain ⟨m, hm, hle, hbm⟩ := hm
    exact ⟨m, hm, hle, hbarrier hbm⟩

end Fencing
end Sniper.Timing.Rob
