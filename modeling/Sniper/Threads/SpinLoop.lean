import Mathlib.Data.List.Nodup
import Sniper.Lib.AssocList
import Sniper.Lib.Prefixes
import Sniper.Threads.Manager

/-! # Spin loops

`SpinLoopDetector`: a table of backward branches and a buffer of the registers that were written
since. A register is saved with the value that it had before, and with a bit for each branch that
it changed for. A branch spins if no register has its bit.
-/
namespace Sniper.Threads.Spin
open Lib.AssocList Function

/-- An entry of the table; the number of its bit, and the counts when the branch was executed. -/
structure SdtEntry where
  eip : UInt64
  id : Fin 16
  icount : UInt64
  tcount : SubsecondTime

abbrev Reg := UInt16

/-- The value that was saved and the bits of the loops. -/
abbrev RubEntry := UInt64 × BitVec 16

structure SpinLoopDetector where
  m_rub : List (Reg × RubEntry)
  m_sdt : List SdtEntry
  m_sdt_bitmask : BitVec 16
  m_sdt_nextid : Fin 16

/-- `1 << id`. -/
def bit (id : Fin 16) : BitVec 16 := .twoPow 16 id

namespace SpinLoopDetector
variable (s : SpinLoopDetector)

def create : SpinLoopDetector := ⟨[], [], 0, 0⟩

/-- An unknown branch. -/
def addEntry (eip icount : UInt64) (tcount : SubsecondTime) : SpinLoopDetector :=
  let sdt := s.m_sdt ++ [⟨eip, s.m_sdt_nextid, icount, tcount⟩]
  let sdt := if 16 < sdt.length then sdt.tail else sdt
  { s with
    m_sdt := sdt
    m_sdt_nextid := s.m_sdt_nextid + 1
    m_sdt_bitmask := sdt.foldl (fun mask entry => mask ||| bit entry.id) 0 }

/-- `commitBCT`, with the counts of the core; what `updateSpinCount` is called with. -/
def commitBCT (eip icount : UInt64) (tcount : SubsecondTime) :
    Option (UInt64 × SubsecondTime) × SpinLoopDetector :=
  let index := s.m_sdt.findIdx fun entry => entry.eip = eip
  match s.m_sdt[index]? with
  | none => (none, s.addEntry eip icount tcount)
  | some entry =>
    let spinning := s.m_rub.all fun e => !e.2.2.getLsbD entry.id
    (if spinning then some (icount - entry.icount, tcount - entry.tcount) else none,
      { s with
        m_rub := s.m_rub.map fun e => (e.1, e.2.1, e.2.2 &&& ~~~bit entry.id)
        m_sdt := s.m_sdt.set index { entry with icount := icount, tcount := tcount } })

def commitNonSilentStore : SpinLoopDetector := { s with m_sdt := [], m_rub := [] }

def commitRegisterWrite (reg : Reg) (old_value value : UInt64) : SpinLoopDetector :=
  match lookup reg s.m_rub with
  | none =>
    if value ≠ old_value then { s with m_rub := assign reg (old_value, s.m_sdt_bitmask) s.m_rub }
    else s
  | some (saved, mask) =>
    if value = saved then { s with m_rub := erase reg s.m_rub }
    else if value ≠ old_value then
      { s with m_rub := assign reg (saved, mask ||| s.m_sdt_bitmask) s.m_rub }
    else s

end SpinLoopDetector

/-! ## Bits -/

theorem getLsbD_bit (i j : Fin 16) : (bit i).getLsbD j = decide (i = j) := by
  unfold bit
  rw [BitVec.getLsbD_twoPow, decide_eq_true i.isLt, Bool.true_and]
  exact decide_eq_decide.mpr Fin.val_inj

theorem getLsbD_clear (mask : BitVec 16) (i j : Fin 16) :
    (mask &&& ~~~bit i).getLsbD j = (mask.getLsbD j && !decide (i = j)) := by
  rw [BitVec.getLsbD_and, BitVec.getLsbD_not, getLsbD_bit, decide_eq_true j.isLt, Bool.true_and]

theorem getLsbD_bitmask (sdt : List SdtEntry) (mask : BitVec 16) (j : Fin 16) :
    (sdt.foldl (fun mask entry => mask ||| bit entry.id) mask).getLsbD j =
      (mask.getLsbD j || sdt.any fun entry => decide (entry.id = j)) := by
  induction sdt generalizing mask with
  | nil => exact (Bool.or_false _).symm
  | cons entry sdt ih =>
    rw [List.foldl_cons, ih, BitVec.getLsbD_or, getLsbD_bit, List.any_cons, Bool.or_assoc]

/-! ## The numbers of the branches -/

/-- The numbers are consecutive, up to the next one. -/
structure Consecutive (ids : List (Fin 16)) (nextid : Fin 16) : Prop where
  small : ids.length ≤ 16
  numbers : ∃ start, ids = (List.range ids.length).map (fun k => Fin.ofNat 16 (start + k)) ∧
    nextid = Fin.ofNat 16 (start + ids.length)

theorem Consecutive.nodup {ids nextid} (h : Consecutive ids nextid) :
    ids.Nodup := by
  obtain ⟨start, hids, _⟩ := h.numbers
  have hsmall := h.small
  rw [hids]
  refine List.Nodup.map_on (fun j hj k hk heq => ?_) List.nodup_range
  rw [List.mem_range] at hj hk
  have hmod : (start + j) % 16 = (start + k) % 16 := congrArg Fin.val heq
  omega

theorem Consecutive.nil (nextid : Fin 16) : Consecutive [] nextid :=
  ⟨Nat.zero_le _, nextid, rfl, (Fin.ofNat_val_eq_self nextid).symm⟩

theorem Consecutive.push {ids nextid} (h : Consecutive ids nextid) :
    Consecutive (if 16 < (ids ++ [nextid]).length then (ids ++ [nextid]).tail else ids ++ [nextid])
      (nextid + 1) := by
  obtain ⟨start, hids, hnext⟩ := h.numbers
  have hsmall := h.small
  generalize ids.length = n at hids hnext hsmall
  have hnumbers : ids ++ [nextid] =
      (List.range (n + 1)).map (fun k => Fin.ofNat 16 (start + k)) := by
    rw [List.range_succ, List.map_append, ← hids, hnext]
    rfl
  have hsucc : nextid + 1 = Fin.ofNat 16 (start + n + 1) := by
    rw [hnext]
    exact Fin.ext (by simp [Fin.val_add])
  rw [hnumbers, List.length_map, List.length_range]
  split
  case isTrue hfull =>
    have htail : ((List.range (n + 1)).map fun k => Fin.ofNat 16 (start + k)).tail =
        (List.range n).map fun k => Fin.ofNat 16 (start + 1 + k) := by
      rw [List.range_succ_eq_map, List.map_cons, List.tail_cons, List.map_map]
      refine List.map_congr_left fun k _ => ?_
      exact congrArg (Fin.ofNat 16) (by simp only [Nat.succ_eq_add_one]; omega)
    have hlength : ((List.range n).map fun k => Fin.ofNat 16 (start + 1 + k)).length = n := by
      rw [List.length_map, List.length_range]
    rw [htail]
    refine ⟨hlength.trans_le hsmall, start + 1, by rw [hlength], ?_⟩
    rw [hlength, hsucc, Nat.add_right_comm]
  case isFalse hroom =>
    have hlength : ((List.range (n + 1)).map fun k => Fin.ofNat 16 (start + k)).length = n + 1 := by
      rw [List.length_map, List.length_range]
    refine ⟨hlength.trans_le (Nat.not_lt.mp hroom), start, by rw [hlength], ?_⟩
    rw [hlength, hsucc, Nat.add_assoc]

/-! ## The table and the buffer -/

namespace SpinLoopDetector
variable {s : SpinLoopDetector} {eip icount : UInt64} {tcount : SubsecondTime}

/-- The register has the bit of the branch. -/
def Covers (s : SpinLoopDetector) (reg : Reg) (id : Fin 16) : Prop :=
  ∃ e, lookup reg s.m_rub = some e ∧ e.2.getLsbD id = true

structure WellNumbered (s : SpinLoopDetector) : Prop where
  ids : Consecutive (s.m_sdt.map SdtEntry.id) s.m_sdt_nextid
  eips : (s.m_sdt.map SdtEntry.eip).Nodup
  mask : ∀ entry ∈ s.m_sdt, s.m_sdt_bitmask.getLsbD entry.id = true

theorem commitBCT_cases (s : SpinLoopDetector) (eip icount : UInt64) (tcount : SubsecondTime) :
    (∀ entry ∈ s.m_sdt, entry.eip ≠ eip) ∧
        s.commitBCT eip icount tcount = (none, s.addEntry eip icount tcount) ∨
      ∃ (index : Nat) (entry : SdtEntry), s.m_sdt[index]? = some entry ∧ entry.eip = eip ∧
        s.commitBCT eip icount tcount =
          (if s.m_rub.all fun e => !e.2.2.getLsbD entry.id then
              some (icount - entry.icount, tcount - entry.tcount) else none,
            { s with
              m_rub := s.m_rub.map fun e => (e.1, e.2.1, e.2.2 &&& ~~~bit entry.id)
              m_sdt := s.m_sdt.set index { entry with icount := icount, tcount := tcount } }) := by
  unfold commitBCT
  dsimp only
  split
  case h_1 hnone =>
    refine .inl ⟨fun entry hentry heip => ?_, rfl⟩
    have hlt : s.m_sdt.findIdx (fun entry => decide (entry.eip = eip)) < s.m_sdt.length :=
      List.findIdx_lt_length_of_exists ⟨entry, hentry, decide_eq_true heip⟩
    exact absurd (List.getElem?_eq_none_iff.mp hnone) (Nat.not_le.mpr hlt)
  case h_2 entry hentry =>
    have heip := List.findIdx_of_getElem?_eq_some hentry
    exact .inr ⟨_, entry, hentry, of_decide_eq_true heip, rfl⟩

theorem map_addEntry {α : Type} (f : SdtEntry → α) :
    (s.addEntry eip icount tcount).m_sdt.map f =
      if 16 < (s.m_sdt.map f ++ [f ⟨eip, s.m_sdt_nextid, icount, tcount⟩]).length then
        (s.m_sdt.map f ++ [f ⟨eip, s.m_sdt_nextid, icount, tcount⟩]).tail
      else s.m_sdt.map f ++ [f ⟨eip, s.m_sdt_nextid, icount, tcount⟩] := by
  have happend : s.m_sdt.map f ++ [f ⟨eip, s.m_sdt_nextid, icount, tcount⟩] =
      (s.m_sdt ++ [SdtEntry.mk eip s.m_sdt_nextid icount tcount]).map f := by
    rw [List.map_append, List.map_singleton]
  rw [happend, List.length_map]
  unfold addEntry
  dsimp only
  split
  · rw [List.map_tail]
  · rfl

theorem mem_addEntry {entry} (h : entry ∈ (s.addEntry eip icount tcount).m_sdt) :
    entry ∈ s.m_sdt ∨ entry = ⟨eip, s.m_sdt_nextid, icount, tcount⟩ := by
  have hmem : entry ∈ s.m_sdt ++ [⟨eip, s.m_sdt_nextid, icount, tcount⟩] := by
    unfold addEntry at h
    dsimp only at h
    split at h
    · exact List.mem_of_mem_tail h
    · exact h
  exact (List.mem_append.mp hmem).imp_right List.mem_singleton.mp

theorem WellNumbered.addEntry (h : s.WellNumbered) (hnew : ∀ entry ∈ s.m_sdt, entry.eip ≠ eip) :
    (s.addEntry eip icount tcount).WellNumbered := by
  refine ⟨?_, ?_, fun entry hentry => ?_⟩
  · rw [map_addEntry]
    exact h.ids.push
  · rw [map_addEntry]
    have hnodup : (s.m_sdt.map SdtEntry.eip ++ [eip]).Nodup := by
      refine List.nodup_append.mpr ⟨h.eips, List.nodup_singleton _, fun a ha b hb hab => ?_⟩
      obtain ⟨entry, hentry, rfl⟩ := List.mem_map.mp ha
      exact hnew entry hentry (hab.trans (List.mem_singleton.mp hb))
    split
    · exact hnodup.sublist (List.tail_sublist _)
    · exact hnodup
  · change BitVec.getLsbD (List.foldl _ _ (s.addEntry eip icount tcount).m_sdt) _ = _
    rw [getLsbD_bitmask, Bool.or_eq_true]
    exact .inr (List.any_eq_true.mpr ⟨entry, hentry, decide_eq_true rfl⟩)

theorem WellNumbered.set (h : s.WellNumbered) {index entry} (hget : s.m_sdt[index]? = some entry)
    (rub : List (Reg × RubEntry)) :
    WellNumbered { s with
      m_rub := rub
      m_sdt := s.m_sdt.set index { entry with icount := icount, tcount := tcount } } := by
  have hset : ∀ {α : Type} (f : SdtEntry → α) (new : SdtEntry), f new = f entry →
      (s.m_sdt.set index new).map f = s.m_sdt.map f := fun f new hf => by
    obtain ⟨hlt, rfl⟩ := List.getElem?_eq_some_iff.mp hget
    rw [List.map_set, hf, ← List.map_set, List.set_getElem_self]
  refine ⟨?_, ?_, fun other hother => ?_⟩
  · rw [hset SdtEntry.id { entry with icount := icount, tcount := tcount } rfl]
    exact h.ids
  · rw [hset SdtEntry.eip { entry with icount := icount, tcount := tcount } rfl]
    exact h.eips
  · rcases List.mem_or_eq_of_mem_set hother with hold | rfl
    · exact h.mask other hold
    · exact h.mask entry (List.mem_of_getElem? hget)

theorem Covers.clear {reg id other} (h : s.Covers reg other) (hne : id ≠ other)
    (sdt : List SdtEntry) :
    Covers { s with
      m_rub := s.m_rub.map fun e => (e.1, e.2.1, e.2.2 &&& ~~~bit id)
      m_sdt := sdt } reg other := by
  obtain ⟨e, hget, hbit⟩ := h
  have hclear := lookup_map (fun a : RubEntry => (a.1, a.2 &&& ~~~bit id)) reg s.m_rub
  refine ⟨(e.1, e.2 &&& ~~~bit id), hclear.trans ?_, ?_⟩
  · rw [hget]
    rfl
  · rw [getLsbD_clear, hbit, decide_eq_false hne]
    rfl

theorem not_covers {id : Fin 16} (h : (s.m_rub.all fun e => !e.2.2.getLsbD id) = true) (reg : Reg) :
    ¬ s.Covers reg id := by
  rintro ⟨e, hget, hbit⟩
  have hclear := List.all_eq_true.mp h (reg, e) (mem_of_lookup hget)
  rw [hbit] at hclear
  exact Bool.false_ne_true hclear

end SpinLoopDetector

/-! ## Runs -/

inductive Event where
  | bct (eip icount : UInt64) (tcount : SubsecondTime)
  | store
  | write (reg : Reg) (value : UInt64)

/-- The detector and the registers of the thread. -/
structure Machine where
  detector : SpinLoopDetector
  regs : Reg → UInt64

def Machine.step (m : Machine) : Event → Machine
  | .bct eip icount tcount => { m with detector := (m.detector.commitBCT eip icount tcount).2 }
  | .store => { m with detector := m.detector.commitNonSilentStore }
  | .write reg value =>
    { detector := m.detector.commitRegisterWrite reg (m.regs reg) value
      regs := update m.regs reg value }

def run (regs : Reg → UInt64) (events : List Event) : Machine :=
  events.foldl Machine.step ⟨.create, regs⟩

variable {regs : Reg → UInt64} {before events front : List Event} {event : Event} {eip : UInt64}

/-- After `front` the branch was executed for the last time, and there was no store since. -/
def LastRun (before : List Event) (eip : UInt64) (front : List Event) : Prop :=
  ∃ icount tcount since, before = front ++ .bct eip icount tcount :: since ∧
    ∀ e ∈ since, e ≠ .store ∧ ∀ icount tcount, e ≠ .bct eip icount tcount

/-- The branch was executed before with the same registers, and there was no store since. -/
def Repeats (regs : Reg → UInt64) (before : List Event) (eip : UInt64) : Prop :=
  ∃ front, LastRun before eip front ∧ (run regs front).regs = (run regs before).regs

/-- A register that gets back the value that was saved had it at the last run of each branch. -/
def Careful (regs : Reg → UInt64) (before : List Event) : Event → Prop
  | .write reg value => ∀ e, lookup reg (run regs before).detector.m_rub = some e → e.1 = value →
      ∀ entry ∈ (run regs before).detector.m_sdt, ∀ front, LastRun before entry.eip front →
        (run regs front).regs reg = value
  | _ => True

/-- Each register either has the value of the last run of a branch, or the bit of the branch. -/
structure Sound (regs : Reg → UInt64) (before : List Event) : Prop where
  numbered : (run regs before).detector.WellNumbered
  tracked : ∀ entry ∈ (run regs before).detector.m_sdt, ∃ front, LastRun before entry.eip front ∧
    ∀ reg, (run regs front).regs reg = (run regs before).regs reg ∨
      (run regs before).detector.Covers reg entry.id

theorem run_concat (regs : Reg → UInt64) (before : List Event) (event : Event) :
    run regs (before ++ [event]) = (run regs before).step event := by
  unfold run
  rw [List.foldl_concat]

theorem LastRun.concat (h : LastRun before eip front) (hstore : event ≠ .store)
    (hbct : ∀ icount tcount, event ≠ .bct eip icount tcount) :
    LastRun (before ++ [event]) eip front := by
  obtain ⟨icount, tcount, since, rfl, hsince⟩ := h
  refine ⟨icount, tcount, since ++ [event], ?_, fun e he => ?_⟩
  · rw [List.append_assoc, List.cons_append]
  · rcases List.mem_append.mp he with hold | hnew
    · exact hsince e hold
    · rw [List.mem_singleton.mp hnew]
      exact ⟨hstore, hbct⟩

theorem lastRun_bct (before : List Event) (eip icount : UInt64) (tcount : SubsecondTime) :
    LastRun (before ++ [.bct eip icount tcount]) eip before :=
  ⟨icount, tcount, [], rfl, fun _ he => absurd he List.not_mem_nil⟩

theorem Sound.nil (regs : Reg → UInt64) : Sound regs [] := by
  refine ⟨⟨.nil 0, List.nodup_nil, fun entry hentry => ?_⟩, fun entry hentry => ?_⟩
  all_goals exact absurd hentry List.not_mem_nil

theorem Sound.store (regs : Reg → UInt64) (before : List Event) :
    Sound regs (before ++ [.store]) := by
  constructor <;> rw [run_concat]
  · exact ⟨.nil _, List.nodup_nil, fun entry hentry => absurd hentry List.not_mem_nil⟩
  · exact fun entry hentry => absurd hentry List.not_mem_nil

theorem Sound.bct (h : Sound regs before) (eip icount : UInt64) (tcount : SubsecondTime) :
    Sound regs (before ++ [.bct eip icount tcount]) := by
  have hregs : (run regs (before ++ [.bct eip icount tcount])).regs = (run regs before).regs := by
    rw [run_concat]
    rfl
  have hdetector : (run regs (before ++ [.bct eip icount tcount])).detector =
      ((run regs before).detector.commitBCT eip icount tcount).2 := by
    rw [run_concat]
    rfl
  -- The branch itself was run last with the registers that there are now.
  have hself : ∃ front, LastRun (before ++ [.bct eip icount tcount]) eip front ∧
      ∀ reg, (run regs front).regs reg = (run regs before).regs reg :=
    ⟨before, lastRun_bct before eip icount tcount, fun _ => rfl⟩
  have hother : ∀ {other front}, other ≠ eip → LastRun before other front →
      LastRun (before ++ [.bct eip icount tcount]) other front := fun hne hlast =>
    hlast.concat (fun heq => by cases heq) (fun _ _ heq => by cases heq; exact hne rfl)
  rcases SpinLoopDetector.commitBCT_cases (run regs before).detector eip icount tcount with
    ⟨hnew, hcommit⟩ | ⟨index, entry, hget, rfl, hcommit⟩
  case inl =>
    rw [hcommit] at hdetector
    constructor <;> rw [hdetector]
    case numbered => exact h.numbered.addEntry hnew
    case tracked =>
      intro other hentry
      rw [hregs]
      rcases SpinLoopDetector.mem_addEntry hentry with hold | rfl
      · obtain ⟨front, hlast, hreg⟩ := h.tracked other hold
        exact ⟨front, hother (hnew other hold) hlast, hreg⟩
      · obtain ⟨front, hlast, hreg⟩ := hself
        exact ⟨front, hlast, fun reg => .inl (hreg reg)⟩
  case inr =>
    rw [hcommit] at hdetector
    constructor <;> rw [hdetector]
    case numbered => exact h.numbered.set hget _
    case tracked =>
      intro other hentry
      rw [hregs]
      by_cases heip : other.eip = entry.eip
      · obtain ⟨front, hlast, hreg⟩ := hself
        exact ⟨front, heip ▸ hlast, fun reg => .inl (hreg reg)⟩
      · have hold : other ∈ (run regs before).detector.m_sdt := by
          rcases List.mem_or_eq_of_mem_set hentry with hold | rfl
          · exact hold
          · exact absurd rfl heip
        obtain ⟨front, hlast, hreg⟩ := h.tracked other hold
        have hid : entry.id ≠ other.id := fun heq => heip (congrArg SdtEntry.eip
          (List.inj_on_of_nodup_map h.numbered.ids.nodup (List.mem_of_getElem? hget) hold heq)).symm
        exact ⟨front, hother heip hlast,
          fun reg => (hreg reg).imp_right fun hcovers => hcovers.clear hid _⟩

theorem commitRegisterWrite_sdt (s : SpinLoopDetector) (reg : Reg) (old_value value : UInt64) :
    ∃ rub, s.commitRegisterWrite reg old_value value = { s with m_rub := rub } := by
  unfold SpinLoopDetector.commitRegisterWrite
  split
  · split
    · exact ⟨_, rfl⟩
    · exact ⟨_, rfl⟩
  · split
    · exact ⟨_, rfl⟩
    · split
      · exact ⟨_, rfl⟩
      · exact ⟨_, rfl⟩

theorem covers_write_of_ne {s : SpinLoopDetector} {reg other} (hne : other ≠ reg) {old_value value}
    (id : Fin 16) :
    (s.commitRegisterWrite reg old_value value).Covers other id ↔ s.Covers other id := by
  have hget : lookup other (s.commitRegisterWrite reg old_value value).m_rub =
      lookup other s.m_rub := by
    unfold SpinLoopDetector.commitRegisterWrite
    split
    · split
      · exact lookup_assign_of_ne hne _ _
      · rfl
    · split
      · exact lookup_erase_of_ne hne _
      · split
        · exact lookup_assign_of_ne hne _ _
        · rfl
  unfold SpinLoopDetector.Covers
  rw [hget]

/-- A write either gives the saved value back, or writes nothing new, or sets the bits. -/
theorem commitRegisterWrite_cases (s : SpinLoopDetector) (reg : Reg) (old_value value : UInt64) :
    (∃ e, lookup reg s.m_rub = some e ∧ e.1 = value) ∨
      value = old_value ∧ s.commitRegisterWrite reg old_value value = s ∨
      ∃ e, lookup reg (s.commitRegisterWrite reg old_value value).m_rub = some e ∧
        ∀ id : Fin 16, s.m_sdt_bitmask.getLsbD id = true → e.2.getLsbD id = true := by
  unfold SpinLoopDetector.commitRegisterWrite
  split
  case h_1 hget =>
    split
    case isTrue hne =>
      exact .inr (.inr ⟨_, lookup_assign_self _ _ _, fun _ hbit => hbit⟩)
    case isFalse heq => exact .inr (.inl ⟨not_not.mp heq, rfl⟩)
  case h_2 saved mask hget =>
    split
    case isTrue hback => exact .inl ⟨_, hget, hback.symm⟩
    case isFalse hback =>
      split
      case isTrue hne =>
        refine .inr (.inr ⟨_, lookup_assign_self _ _ _, fun id hbit => ?_⟩)
        rw [BitVec.getLsbD_or, hbit, Bool.or_true]
      case isFalse heq => exact .inr (.inl ⟨not_not.mp heq, rfl⟩)

theorem Sound.write (h : Sound regs before) {reg value}
    (hcareful : Careful regs before (.write reg value)) :
    Sound regs (before ++ [.write reg value]) := by
  have hregs : (run regs (before ++ [.write reg value])).regs =
      update (run regs before).regs reg value := by
    rw [run_concat]
    rfl
  have hdetector : (run regs (before ++ [.write reg value])).detector =
      (run regs before).detector.commitRegisterWrite reg ((run regs before).regs reg) value := by
    rw [run_concat]
    rfl
  obtain ⟨rub, hrub⟩ := commitRegisterWrite_sdt (run regs before).detector reg
    ((run regs before).regs reg) value
  constructor <;> rw [hdetector]
  case numbered =>
    rw [hrub]
    exact ⟨h.numbered.ids, h.numbered.eips, h.numbered.mask⟩
  case tracked =>
    intro entry hentry
    have hold : entry ∈ (run regs before).detector.m_sdt := by
      rw [hrub] at hentry
      exact hentry
    obtain ⟨front, hlast, hreg⟩ := h.tracked entry hold
    refine ⟨front, hlast.concat (fun heq => by cases heq) (fun _ _ heq => by cases heq),
      fun other => ?_⟩
    rw [hregs]
    by_cases hother : other = reg
    case neg =>
      rw [update_of_ne hother, covers_write_of_ne hother]
      exact hreg other
    case pos =>
      subst hother
      rw [update_self]
      rcases commitRegisterWrite_cases (run regs before).detector other
        ((run regs before).regs other) value with ⟨e, hget, hback⟩ | ⟨heq, hsame⟩ | ⟨e, hget, hbits⟩
      · exact .inl (hcareful e hget hback entry hold front hlast)
      · rw [hsame, heq]
        exact hreg other
      · exact .inr ⟨e, hget, hbits entry.id (h.numbered.mask entry hold)⟩

theorem Sound.step (h : Sound regs before) (hcareful : Careful regs before event) :
    Sound regs (before ++ [event]) := by
  cases event with
  | bct eip icount tcount => exact h.bct eip icount tcount
  | store => exact .store regs before
  | write reg value => exact h.write hcareful

/-- Each write of the run is careful. -/
def CarefulRun (regs : Reg → UInt64) (events : List Event) : Prop :=
  ∀ before event, before ++ [event] <+: events → Careful regs before event

theorem Sound.of_carefulRun {events} (h : CarefulRun regs events) :
    ∀ before, before <+: events → Sound regs before := by
  intro before
  induction before using List.reverseRecOn with
  | nil => exact fun _ => .nil regs
  | append_singleton front event ih =>
    intro hprefix
    exact (ih ((List.prefix_append front [event]).trans hprefix)).step (h front event hprefix)

/-- In a run of careful writes a branch is reported to spin only if it repeats. -/
theorem repeats_of_spinning (regs : Reg → UInt64) (events : List Event)
    (hcareful : CarefulRun regs events) (before : List Event) (eip icount : UInt64)
    (tcount : SubsecondTime) (hlist : before ++ [.bct eip icount tcount] <+: events)
    (hspins : ((run regs before).detector.commitBCT eip icount tcount).1 ≠ none) :
    Repeats regs before eip := by
  have hsound := Sound.of_carefulRun hcareful before ((List.prefix_append _ _).trans hlist)
  rcases SpinLoopDetector.commitBCT_cases (run regs before).detector eip icount tcount with
    ⟨_, hcommit⟩ | ⟨index, entry, hget, rfl, hcommit⟩
  · rw [hcommit] at hspins
    exact absurd rfl hspins
  · obtain ⟨front, hlast, hreg⟩ := hsound.tracked entry (List.mem_of_getElem? hget)
    rw [hcommit] at hspins
    have hall : ((run regs before).detector.m_rub.all fun e => !e.2.2.getLsbD entry.id) = true := by
      by_contra hnot
      exact hspins (if_neg hnot)
    exact ⟨front, hlast, funext fun reg =>
      (hreg reg).resolve_right (SpinLoopDetector.not_covers hall reg)⟩

theorem repeats_of_spinning_thrice :
    CarefulRun (fun _ => 0) [.bct 64 0 0, .write 1 1, .bct 64 1 0, .bct 64 2 0] ∧
      Repeats (fun _ => 0) [.bct 64 0 0, .write 1 1, .bct 64 1 0] 64 := by
  have hcareful : CarefulRun (fun _ => 0)
      [.bct 64 0 0, .write 1 1, .bct 64 1 0, .bct 64 2 0] := by
    rintro before event ⟨rest, hprefix⟩
    rcases before with _ | ⟨first, _ | ⟨second, before⟩⟩
    · cases hprefix
      trivial
    · cases hprefix
      exact fun e hget => by cases hget
    · cases event with
      | bct | store => trivial
      | write reg value =>
        have hmem : Event.write reg value ∈ [Event.bct 64 1 0, .bct 64 2 0] := by
          rw [← (List.cons.inj (List.cons.inj hprefix).2).2]
          exact List.mem_append_left _ (List.mem_append_right _ List.mem_cons_self)
        simp at hmem
  refine ⟨hcareful, repeats_of_spinning (fun _ => 0) _ hcareful _ 64 2 0 ⟨[], rfl⟩ ?_⟩
  decide +kernel

/-- The branch loses its bit when register 1 is 1, but the register keeps its first value 0, and
loses its entry when it has that value again. -/
theorem spinning_after_change :
    ((run (fun _ => 0) [.bct 64 0 0, .write 1 1, .bct 64 1 0, .write 1 0]).detector.commitBCT
        64 2 0).1 = some (1, 0) ∧
      ¬ Repeats (fun _ => 0) [.bct 64 0 0, .write 1 1, .bct 64 1 0, .write 1 0] 64 := by
  refine ⟨by decide +kernel, ?_⟩
  rintro ⟨front, ⟨icount, tcount, since, hbefore, hsince⟩, hregs⟩
  rcases front with _ | ⟨first, _ | ⟨second, _ | ⟨third, front⟩⟩⟩
  · cases hbefore
    exact (hsince (.bct 64 1 0) (by simp)).2 1 0 rfl
  · cases hbefore
  · cases hbefore
    exact absurd (congrFun hregs 1) (by decide +kernel)
  · simp only [List.cons_append, List.cons.injEq] at hbefore
    rcases front with _ | ⟨fourth, front⟩
    all_goals exact absurd hbefore.2.2.2 (by simp)

end Sniper.Threads.Spin
