import Sniper.Timing.Dependencies
import Sniper.Timing.RobSmtTimer

/-! # The limits of the dependency list

The intra-instruction dependencies of a micro-op are a range of sequence numbers, kept as a count.
Removing one that is not the oldest spills the older ones into the array, and a number that is not
below the range is looked for in the range. So every order of removals goes through if and only if
the array has room for the whole range and nothing in it is as young as the micro-ops of the same
type; and the loop of the timers that inserts the micro-op writes at most eight producers if and
only if no more of them have issued.
-/
namespace Sniper.Timing
open Lib.Simulation

variable {Reg : Type}

namespace DynamicMicroOp
variable {uop uop' : DynamicMicroOp Reg}

/-- The intra-instruction dependencies have sequence numbers. -/
structure InRange (uop : DynamicMicroOp Reg) : Prop where
  intra : uop.microOpTypeOffset + uop.intraInstructionDependencies ≤ uop.sequenceNumber
  width : uop.sequenceNumber < 2 ^ 64

/-- What removing listed dependencies leads to. -/
inductive Removed : DynamicMicroOp Reg → DynamicMicroOp Reg → Prop
  | refl (uop : DynamicMicroOp Reg) : Removed uop uop
  | remove {uop uop₁ uop₂ : DynamicMicroOp Reg} {d : Nat} : d ∈ uop.getDependencies →
      uop.removeDependency d = .ok uop₁ → Removed uop₁ uop₂ → Removed uop uop₂

/-- Whatever has been removed, the array has room for what is left, and any of it can be removed
without anything else. -/
def Removable (uop : DynamicMicroOp Reg) : Prop :=
  ∀ uop₁, Removed uop uop₁ →
    uop₁.dependencies.length ≤ MAXIMUM_NUMBER_OF_DEPENDENCIES ∧
    ∀ d ∈ uop₁.getDependencies, ∃ uop₂, uop₁.removeDependency d = .ok uop₂ ∧
      uop₁.getDependencies.Perm (d :: uop₂.getDependencies)

/-! ### The range -/

theorem intraDependency_eq {behind} (h : uop.microOpTypeOffset + behind ≤ uop.sequenceNumber)
    (hwidth : uop.sequenceNumber < 2 ^ 64) :
    uop.intraDependency behind = uop.sequenceNumber - (uop.microOpTypeOffset + behind) := by
  rw [intraDependency]
  omega

theorem mem_intraDependencies {behind x} (h : uop.microOpTypeOffset + behind ≤ uop.sequenceNumber)
    (hwidth : uop.sequenceNumber < 2 ^ 64) :
    x ∈ uop.intraDependencies behind ↔
      uop.sequenceNumber ≤ x + uop.microOpTypeOffset + behind ∧
        x + uop.microOpTypeOffset < uop.sequenceNumber := by
  induction behind with
  | zero =>
    have hnone : ¬ (uop.sequenceNumber ≤ x + uop.microOpTypeOffset + 0 ∧
        x + uop.microOpTypeOffset < uop.sequenceNumber) := by omega
    exact ⟨fun h => absurd h List.not_mem_nil, fun h => absurd h hnone⟩
  | succ behind ih =>
    have hle : uop.microOpTypeOffset + behind ≤ uop.sequenceNumber := by omega
    rw [intraDependencies, List.mem_cons, ih hle, intraDependency_eq h hwidth]
    omega

theorem length_intraDependencies (uop : DynamicMicroOp Reg) (behind : Nat) :
    (uop.intraDependencies behind).length = behind := by
  induction behind with
  | zero => rfl
  | succ behind ih => rw [intraDependencies, List.length_cons, ih]

/-! ### Spilling -/

theorem popIntra_spills {d n n' l l'} (h : uop.popIntra d n l = .ok (n', l')) :
    d = uop.intraDependency (n' + 1) ∧ n' + 1 ≤ n ∧ l'.length + (n' + 1) = l.length + n ∧
    (n' + 1 < n → l'.length < MAXIMUM_NUMBER_OF_DEPENDENCIES) ∧
    ∀ x ∈ l', x ∈ l ∨ x ∈ uop.intraDependencies n := by
  induction n generalizing l with
  | zero => cases h
  | succ n ih =>
    rw [popIntra] at h
    split at h
    case isTrue hd =>
      cases h
      exact ⟨hd, Nat.le_refl _, rfl, fun h => absurd h (Nat.lt_irrefl _), fun x hx => .inl hx⟩
    case isFalse =>
      split at h
      case isFalse => cases h
      case isTrue hroom =>
        obtain ⟨hd, hle, hlength, hlast, hmem⟩ := ih h
        rw [List.length_append, List.length_singleton] at hlength
        refine ⟨hd, Nat.le_succ_of_le hle, by omega, fun _ => ?_, fun x hx => ?_⟩
        · -- the last one spilled has passed the check
          by_cases hmore : n' + 1 < n
          · exact hlast hmore
          · omega
        · rw [intraDependencies, List.mem_cons]
          rcases hmem x hx with hx | hx
          · rcases List.mem_append.mp hx with hx | hx
            · exact .inl hx
            · exact .inr (.inl (List.mem_singleton.mp hx))
          · exact .inr (.inr hx)

theorem popIntra_total {d n l} (hrange : uop.microOpTypeOffset + n ≤ uop.sequenceNumber)
    (hwidth : uop.sequenceNumber < 2 ^ 64) (hd : d ∈ uop.intraDependencies n)
    (hroom : 2 ≤ n → n + l.length ≤ MAXIMUM_NUMBER_OF_DEPENDENCIES) :
    ∃ r, uop.popIntra d n l = .ok r := by
  induction n generalizing l with
  | zero => exact absurd hd List.not_mem_nil
  | succ n ih =>
    rw [popIntra]
    by_cases hfirst : d = uop.intraDependency (n + 1)
    · rw [if_pos hfirst]
      exact ⟨_, rfl⟩
    · rw [intraDependencies] at hd
      have hd : d ∈ uop.intraDependencies n := (List.mem_cons.mp hd).resolve_left hfirst
      have hpos : 0 < n := by
        have hlength := length_intraDependencies uop n
        exact hlength ▸ List.length_pos_of_mem hd
      have hfits := hroom (by omega)
      rw [if_neg hfirst, if_pos (by omega)]
      refine ih (by omega) hd fun _ => ?_
      rw [List.length_append, List.length_singleton]
      omega

theorem popIntra_fails {d n l} (hrange : uop.microOpTypeOffset + n ≤ uop.sequenceNumber)
    (hwidth : uop.sequenceNumber < 2 ^ 64) (hd : d ∉ uop.intraDependencies n) {r} :
    uop.popIntra d n l ≠ .ok r := by
  intro h
  obtain ⟨hdr, hle, -, -, -⟩ := popIntra_spills h
  have hmem := (mem_intraDependencies (x := d) hrange hwidth).not.mp hd
  rw [intraDependency_eq (by omega) hwidth] at hdr
  omega

theorem swapRemove_total {l d} (h : d ∈ l) : ∃ l', swapRemove l d = .ok l' := by
  rw [swapRemove]
  cases hlast : l.getLast? with
  | none =>
    rw [List.getLast?_eq_none_iff.mp hlast] at h
    exact absurd h List.not_mem_nil
  | some final =>
    dsimp only
    by_cases heq : final = d
    · rw [if_pos heq]
      exact ⟨_, rfl⟩
    · rw [if_neg heq, if_pos h]
      exact ⟨_, rfl⟩

/-! ### Removing in any order -/

/-- What keeps every order of removals going. -/
structure Fitting (uop : DynamicMicroOp Reg) : Prop extends InRange uop where
  room : uop.dependencies.length ≤ MAXIMUM_NUMBER_OF_DEPENDENCIES
  spills : 2 ≤ uop.intraInstructionDependencies →
    uop.intraInstructionDependencies + uop.dependencies.length ≤ MAXIMUM_NUMBER_OF_DEPENDENCIES
  older : ∀ d ∈ uop.dependencies, d + uop.microOpTypeOffset < uop.sequenceNumber

theorem Fitting.remove (h : Fitting uop) {d} (hd : d ∈ uop.getDependencies) :
    ∃ uop', uop.removeDependency d = .ok uop' := by
  have hrange := mem_intraDependencies (x := d) h.intra h.width
  rw [removeDependency]
  by_cases hyoung : uop.intraDependency uop.intraInstructionDependencies ≤ d
  · -- a younger one of the array is in the range, too
    have hin : d ∈ uop.intraDependencies uop.intraInstructionDependencies := by
      rcases List.mem_append.mp hd with hd | hd
      · exact hd
      · have holder := h.older d hd
        rw [intraDependency_eq h.intra h.width] at hyoung
        exact hrange.mpr (by omega)
    obtain ⟨r, hr⟩ := popIntra_total h.intra h.width hin h.spills
    rw [if_pos hyoung, hr]
    exact ⟨_, rfl⟩
  · have hin : d ∈ uop.dependencies := by
      rcases List.mem_append.mp hd with hd | hd
      · rw [intraDependency_eq h.intra h.width] at hyoung
        have := hrange.mp hd
        omega
      · exact hd
    obtain ⟨l, hl⟩ := swapRemove_total hin
    rw [if_neg hyoung, hl]
    exact ⟨_, rfl⟩

theorem Fitting.removed (h : Fitting uop) {d} (hr : uop.removeDependency d = .ok uop') :
    Fitting uop' := by
  rw [removeDependency] at hr
  split at hr
  case isTrue =>
    obtain ⟨⟨n, l⟩, hpop, rfl⟩ := of_map_ok hr
    obtain ⟨-, hle, hlength, hlast, hmem⟩ := popIntra_spills hpop
    have hintra := h.intra
    have hroom := h.room
    have hspills := h.spills
    refine ⟨⟨?_, h.width⟩, ?_, fun h2 => ?_, fun x hx => ?_⟩
    · dsimp only
      omega
    · dsimp only
      omega
    · dsimp only at h2 ⊢
      omega
    · rcases hmem x hx with hx | hx
      · exact h.older x hx
      · exact ((mem_intraDependencies h.intra h.width).mp hx).2
  case isFalse =>
    obtain ⟨l, hswap, rfl⟩ := of_map_ok hr
    have hperm := swapRemove_perm hswap
    have hlength : uop.dependencies.length = l.length + 1 := hperm.length_eq
    have hroom := h.room
    have hspills := h.spills
    refine ⟨⟨h.intra, h.width⟩, ?_, fun h2 => ?_, fun x hx => ?_⟩
    · dsimp only
      omega
    · dsimp only at h2 ⊢
      omega
    · exact h.older x (hperm.mem_iff.mpr (List.mem_cons_of_mem _ hx))

theorem Fitting.run (h : Fitting uop) (hr : Removed uop uop') : Fitting uop' := by
  induction hr with
  | refl => exact h
  | remove hd hr _ ih => exact ih (h.removed hr)

theorem Fitting.removable (h : Fitting uop) : Removable uop := by
  intro uop₁ hr
  have h₁ := h.run hr
  refine ⟨h₁.room, fun d hd => ?_⟩
  obtain ⟨uop₂, h₂⟩ := h₁.remove hd
  exact ⟨uop₂, h₂, (removeDependency_ok h₂).2⟩

theorem Removable.fitting (h : Removable uop) (hrange : InRange uop) : Fitting uop := by
  obtain ⟨hroom, hremove⟩ := h uop (.refl uop)
  have hintra := hrange.intra
  refine ⟨hrange, hroom, fun h2 => ?_, fun d hd => ?_⟩
  · -- the youngest of the range is removed first
    have hyoungest : uop.sequenceNumber - (uop.microOpTypeOffset + 1) ∈
        uop.intraDependencies uop.intraInstructionDependencies :=
      (mem_intraDependencies hrange.intra hrange.width).mpr (by omega)
    obtain ⟨uop', hr, -⟩ := hremove _ (List.mem_append_left _ hyoungest)
    rw [removeDependency, intraDependency_eq hrange.intra hrange.width, if_pos (by omega)] at hr
    obtain ⟨⟨n, l⟩, hpop, -⟩ := of_map_ok hr
    obtain ⟨hd, hle, hlength, hlast, -⟩ := popIntra_spills hpop
    rw [intraDependency_eq (by omega) hrange.width] at hd
    have := hlast (by omega)
    omega
  · obtain ⟨uop', hr, -⟩ := hremove d (List.mem_append_right _ hd)
    by_contra hyoung
    have hnot : d ∉ uop.intraDependencies uop.intraInstructionDependencies := fun hin =>
      hyoung ((mem_intraDependencies hrange.intra hrange.width).mp hin).2
    rw [removeDependency, intraDependency_eq hrange.intra hrange.width, if_pos (by omega)] at hr
    obtain ⟨r, hpop, -⟩ := of_map_ok hr
    exact popIntra_fails hrange.intra hrange.width hnot hpop

/-! ### Adding -/

/-- The array with the new dependencies. -/
def withAdded (uop : DynamicMicroOp Reg) (ds : List Nat) : List Nat :=
  uop.dependencies ++ (ds.filter (· ∉ uop.dependencies)).dedup

theorem withAdded_cons_mem {d ds} (h : d ∈ uop.dependencies) :
    uop.withAdded (d :: ds) = uop.withAdded ds := by
  rw [withAdded, withAdded, List.filter_cons_of_neg (by simpa using h)]

theorem withAdded_cons_perm {d ds} (h : d ∉ uop.dependencies) :
    (uop.withAdded (d :: ds)).Perm (withAdded
      { uop with dependencies := uop.dependencies ++ [d] } ds) := by
  rw [withAdded, withAdded, List.filter_cons_of_pos (by simpa using h), List.append_assoc]
  refine List.Perm.append_left _ ((List.perm_ext_iff_of_nodup (List.nodup_dedup _) ?_).mpr ?_)
  · refine List.nodup_cons.mpr ⟨fun hmem => ?_, List.nodup_dedup _⟩
    have := List.of_mem_filter (List.mem_dedup.mp hmem)
    simp at this
  · intro x
    by_cases hx : x = d <;> simp [hx]

end DynamicMicroOp

namespace Rob
open DynamicMicroOp
variable {uop uop' : DynamicMicroOp Reg}

theorem addDependencies_eq {ds} (h : addDependencies ds uop = .ok uop') :
    ∃ l, uop' = { uop with dependencies := l } ∧ l.Perm (uop.withAdded ds) := by
  induction ds generalizing uop with
  | nil =>
    cases h
    exact ⟨_, rfl, by simp [withAdded]⟩
  | cons d ds ih =>
    obtain ⟨uop₁, hadd, h⟩ := of_bind_ok h
    rw [addDependency] at hadd
    split at hadd
    case isTrue hmem =>
      cases hadd
      rw [withAdded_cons_mem hmem]
      exact ih h
    case isFalse hmem =>
      split at hadd
      case isFalse => cases hadd
      case isTrue =>
        cases hadd
        obtain ⟨l, rfl, hl⟩ := ih h
        exact ⟨l, rfl, hl.trans (withAdded_cons_perm hmem).symm⟩

theorem addDependencies_total {ds : List Nat}
    (h : (uop.withAdded ds).length ≤ MAXIMUM_NUMBER_OF_DEPENDENCIES) :
    ∃ uop', addDependencies ds uop = .ok uop' := by
  induction ds generalizing uop with
  | nil => exact ⟨uop, rfl⟩
  | cons d ds ih =>
    by_cases hmem : d ∈ uop.dependencies
    · have hadd : uop.addDependency d = .ok uop := by rw [addDependency, if_pos hmem]
      rw [withAdded_cons_mem hmem] at h
      exact exists_bind_ok hadd (ih h)
    · rw [(withAdded_cons_perm hmem).length_eq] at h
      have hlt : uop.dependencies.length < MAXIMUM_NUMBER_OF_DEPENDENCIES := by
        rw [withAdded, List.length_append, List.length_append, List.length_singleton] at h
        omega
      have hadd : uop.addDependency d =
          .ok { uop with dependencies := uop.dependencies ++ [d] } := by
        rw [addDependency, if_neg hmem, if_pos hlt]
      exact exists_bind_ok hadd (ih h)

/-! ### The insertion loops -/

/-- The insertion loop of `RobTimer`, or that of `RobSmtTimer` with its lowest valid number. -/
def insertion (lowestValid : Option Nat) (sequenceNumber : Nat) (dependencies : List Nat)
    (rob : List (RobEntry Reg)) (readyMax : Time) :
    Except Stop (List (RobEntry Reg) × List Nat × Time) :=
  match lowestValid with
  | none => link sequenceNumber dependencies rob [] readyMax
  | some lowest => linkValid lowest sequenceNumber dependencies rob [] readyMax

/-- A producer that an insertion loop removes: committed, or issued. -/
def atOnce (lowestValid : Option Nat) (rob : List (RobEntry Reg)) (d : Nat) : Bool :=
  d < lowestValid.getD 0 ||
    match findEntryBySequenceNumber rob d with
    | .ok prodEntry => prodEntry.done ≠ ⊤
    | .error _ => false

theorem linkValid_zero (x : Nat) (deps : List Nat) (rob : List (RobEntry Reg)) (dtr : List Nat)
    (t : Time) : linkValid 0 x deps rob dtr t = link x deps rob dtr t := by
  induction deps generalizing rob dtr t with
  | nil => rfl
  | cons d deps ih =>
    rw [linkValid, link, if_neg (Nat.not_lt_zero d)]
    refine congrArg _ (funext fun prodEntry => ?_)
    simp only [ih]

theorem insertion_eq (lowestValid : Option Nat) (x : Nat) (deps : List Nat)
    (rob : List (RobEntry Reg)) (t : Time) :
    insertion lowestValid x deps rob t = linkValid (lowestValid.getD 0) x deps rob [] t := by
  cases lowestValid with
  | none => exact (linkValid_zero x deps rob [] t).symm
  | some lowest => rfl

theorem findEntry_map {g : RobEntry Reg → RobEntry Reg} (hg : ∀ p, (g p).seqnr = p.seqnr)
    (rob : List (RobEntry Reg)) (d : Nat) :
    findEntryBySequenceNumber (rob.map g) d = (findEntryBySequenceNumber rob d).map g := by
  cases rob with
  | nil => rfl
  | cons front rob =>
    rw [List.map_cons, findEntryBySequenceNumber, findEntryBySequenceNumber, hg]
    by_cases hlt : d < front.seqnr
    · rw [if_pos hlt, if_pos hlt]
      rfl
    · rw [if_neg hlt, if_neg hlt, ← List.map_cons, List.getElem?_map]
      cases (front :: rob)[d - front.seqnr]? with
      | none => rfl
      | some entry =>
        dsimp only [Option.map_some]
        rw [hg]
        by_cases heq : entry.seqnr = d
        · rw [if_pos heq, if_pos heq]
          rfl
        · rw [if_neg heq, if_neg heq]
          rfl

theorem linkValid_fits {lowestValid : Option Nat} {x : Nat} {deps : List Nat}
    {rob : List (RobEntry Reg)} {dtr : List Nat} {t : Time} (hlength : dtr.length ≤ 8)
    (hfound : ∀ d ∈ deps, lowestValid.getD 0 ≤ d →
      ∃ p, findEntryBySequenceNumber rob d = .ok p) :
    linkValid (lowestValid.getD 0) x deps rob dtr t ≠ .error .overflow ↔
      dtr.length + deps.countP (atOnce lowestValid rob) ≤ 8 := by
  induction deps generalizing rob dtr t with
  | nil => exact ⟨fun _ => hlength, fun _ => nofun⟩
  | cons d deps ih =>
    have hrest := fun d' hd' => hfound d' (List.mem_cons_of_mem d hd')
    -- one more to remove
    have hnote (t : Time) (hd : atOnce lowestValid rob d = true) :
        (if dtr.length < 8 then
          linkValid (lowestValid.getD 0) x deps rob (dtr ++ [d]) t
        else .error .overflow) ≠ .error .overflow ↔
          dtr.length + (d :: deps).countP (atOnce lowestValid rob) ≤ 8 := by
      rw [List.countP_cons_of_pos hd]
      by_cases hroom : dtr.length < 8
      · rw [if_pos hroom, ih (by rw [List.length_append]; exact hroom) hrest, List.length_append,
          List.length_singleton]
        omega
      · rw [if_neg hroom]
        exact ⟨fun h => absurd rfl h, fun h => by omega⟩
    rw [linkValid]
    by_cases hlow : d < lowestValid.getD 0
    · rw [if_pos hlow]
      exact hnote t (by simp [atOnce, hlow])
    · obtain ⟨p, hp⟩ := hfound d (List.mem_cons_self ..) (Nat.not_lt.mp hlow)
      rw [if_neg hlow, hp]
      dsimp only [bind, Except.bind]
      by_cases hdone : p.done = ⊤
      · -- a dependant more changes neither what is found nor what has issued
        let g : RobEntry Reg → RobEntry Reg := fun entry =>
          if entry.seqnr = d then { entry with dependants := entry.dependants ++ [x] } else entry
        have hg (q : RobEntry Reg) : (g q).seqnr = q.seqnr ∧ (g q).done = q.done := by
          dsimp only [g]
          split <;> exact ⟨rfl, rfl⟩
        have hfind := findEntry_map (fun q => (hg q).1) rob
        have hsame : atOnce lowestValid (rob.map g) = atOnce lowestValid rob := by
          funext y
          rw [atOnce, atOnce, hfind]
          cases findEntryBySequenceNumber rob y with
          | error => rfl
          | ok q =>
            dsimp only [Except.map]
            rw [(hg q).2]
        have hcount : atOnce lowestValid rob d = false := by simp [atOnce, hlow, hp, hdone]
        rw [if_pos hdone, List.countP_cons_of_neg (by simp [hcount]), ← hsame]
        refine ih hlength fun d' hd' hle => ?_
        obtain ⟨q, hq⟩ := hrest d' hd' hle
        refine ⟨g q, ?_⟩
        show findEntryBySequenceNumber (rob.map g) d' = _
        rw [hfind, hq]
        rfl
      · rw [if_neg hdone]
        exact hnote _ (by simp [atOnce, hp, hdone])

/-! ### The whole bookkeeping -/

/-- The dependencies are added, the micro-op is inserted, and then any of them are removed. -/
def Bookkept (lowestValid : Option Nat) (rob : List (RobEntry Reg)) (readyMax : Time)
    (uop : DynamicMicroOp Reg) (ds : List Nat) : Prop :=
  ∃ uop', addDependencies ds uop = .ok uop' ∧ uop'.Removable ∧
    insertion lowestValid uop.sequenceNumber uop'.getDependencies rob readyMax ≠ .error .overflow

/-- The limits that nothing in the code makes sure of. -/
structure Fits (lowestValid : Option Nat) (rob : List (RobEntry Reg)) (uop : DynamicMicroOp Reg)
    (ds : List Nat) : Prop where
  /-- The array has room. -/
  room : (uop.withAdded ds).length ≤ MAXIMUM_NUMBER_OF_DEPENDENCIES
  /-- It also has room for all intra-instruction dependencies, unless there is at most one. -/
  spills : 2 ≤ uop.intraInstructionDependencies →
    uop.intraInstructionDependencies + (uop.withAdded ds).length ≤ MAXIMUM_NUMBER_OF_DEPENDENCIES
  /-- Nothing is as young as the micro-ops of the same type of the instruction. -/
  older : ∀ d ∈ uop.dependencies ++ ds, d + uop.microOpTypeOffset < uop.sequenceNumber
  /-- At most eight of the producers have issued. -/
  issued : (uop.intraDependencies uop.intraInstructionDependencies ++
    uop.withAdded ds).countP (atOnce lowestValid rob) ≤ 8

theorem mem_withAdded {ds x} :
    x ∈ uop.withAdded ds ↔ x ∈ uop.dependencies ++ ds := by
  by_cases hx : x ∈ uop.dependencies <;> simp [withAdded, hx]

/-- The bookkeeping of a micro-op, for any dependencies and any order of removals. -/
theorem bookkept_iff (lowestValid : Option Nat) (rob : List (RobEntry Reg)) (readyMax : Time)
    (uop : DynamicMicroOp Reg) (ds : List Nat) (hrange : uop.InRange)
    (hfound : ∀ d ∈ uop.getDependencies ++ ds, lowestValid.getD 0 ≤ d →
      ∃ p, findEntryBySequenceNumber rob d = .ok p) :
    Bookkept lowestValid rob readyMax uop ds ↔ Fits lowestValid rob uop ds := by
  have hlist (l : List Nat) (hl : l.Perm (uop.withAdded ds)) :
      ({ uop with dependencies := l } : DynamicMicroOp Reg).getDependencies.Perm
        (uop.intraDependencies uop.intraInstructionDependencies ++ uop.withAdded ds) := by
    rw [getDependencies, intraDependencies_congr uop { uop with dependencies := l } rfl rfl]
    exact hl.append_left _
  have hinsert (l : List Nat) (hl : l.Perm (uop.withAdded ds)) :
      insertion lowestValid uop.sequenceNumber
        ({ uop with dependencies := l } : DynamicMicroOp Reg).getDependencies rob readyMax ≠
          .error .overflow ↔
      (uop.intraDependencies uop.intraInstructionDependencies ++
        uop.withAdded ds).countP (atOnce lowestValid rob) ≤ 8 := by
    rw [insertion_eq, linkValid_fits (List.length_nil.trans_le (Nat.zero_le 8)),
      (hlist l hl).countP_eq, List.length_nil, Nat.zero_add]
    intro d hd hle
    refine hfound d ?_ hle
    rcases List.mem_append.mp ((hlist l hl).mem_iff.mp hd) with hd | hd
    · exact List.mem_append_left _ (List.mem_append_left _ hd)
    · rcases List.mem_append.mp (mem_withAdded.mp hd) with hd | hd
      · exact List.mem_append_left _ (List.mem_append_right _ hd)
      · exact List.mem_append_right _ hd
  constructor
  · rintro ⟨uop', hadd, hremovable, hoverflow⟩
    obtain ⟨l, rfl, hl⟩ := addDependencies_eq hadd
    have hfitting := hremovable.fitting ⟨hrange.intra, hrange.width⟩
    exact {
      room := hl.length_eq ▸ hfitting.room
      spills := fun h2 => hl.length_eq ▸ hfitting.spills h2
      older := fun d hd => hfitting.older d (hl.mem_iff.mpr (mem_withAdded.mpr hd))
      issued := (hinsert l hl).mp hoverflow }
  · intro h
    obtain ⟨uop', hadd⟩ := addDependencies_total h.room
    obtain ⟨l, rfl, hl⟩ := addDependencies_eq hadd
    have hfitting : Fitting ({ uop with dependencies := l } : DynamicMicroOp Reg) := {
      intra := hrange.intra
      width := hrange.width
      room := hl.length_eq ▸ h.room
      spills := fun h2 => hl.length_eq ▸ h.spills h2
      older := fun d hd => h.older d (mem_withAdded.mp (hl.mem_iff.mp hd)) }
    exact ⟨_, hadd, hfitting.removable, (hinsert l hl).mpr h.issued⟩

/-! ### A gather -/

/-- A micro-op with the micro-ops of its instruction before it. -/
def ofInstruction (uop_type : UopType) (sequenceNumber intra : Nat) : DynamicMicroOp Unit where
  m_uop := ⟨uop_type, [], [], [], false, false, false⟩
  sequenceNumber := sequenceNumber
  address := 0
  squashed := false
  intraInstructionDependencies := intra
  microOpTypeOffset := 0
  dependencies := []
  execLatency := 1
  branchMispredicted := false
  dCacheHitWhere := .L1I
  iCacheHitWhere := .L1I
  iCacheLatency := 0

/-- A reorder buffer of loads. -/
def loads (n : Nat) : List (RobEntry Unit) :=
  (List.range n).map fun i => RobEntry.init (ofInstruction .load i 0) i

/-- Two loads of an execute and an older load of its source. -/
theorem bookkept_iff_pair : Bookkept none (loads 3) 0 (ofInstruction .execute 3 2) [0] := by
  refine (bookkept_iff none (loads 3) 0 (ofInstruction .execute 3 2) [0] ⟨by decide, by decide⟩
    fun d hd _ => ?_).mpr ⟨by decide, by decide, by decide, by decide⟩
  have hd : d = 1 ∨ d = 2 ∨ d = 0 := by
    have hmem : (ofInstruction .execute 3 2).getDependencies ++ [0] = [1, 2, 0] := by decide
    rw [hmem] at hd
    simpa using hd
  rcases hd with rfl | rfl | rfl <;> exact ⟨_, rfl⟩

/-- An execute that gathers sixteen loads: the youngest cannot be removed first. -/
theorem gather_spills : (ofInstruction .execute 16 16).InRange ∧
    (ofInstruction .execute 16 16).getDependencies = List.range 16 ∧
    ¬ Bookkept none (loads 16) 0 (ofInstruction .execute 16 16) [] := by
  refine ⟨⟨by decide, by decide⟩, by decide, ?_⟩
  rintro ⟨uop', hadd, hremovable, -⟩
  cases hadd
  have hmem : 15 ∈ (ofInstruction .execute 16 16).getDependencies := by decide
  obtain ⟨uop₁, hremove, -⟩ := (hremovable _ (.refl _)).2 15 hmem
  have hstop : (ofInstruction .execute 16 16).removeDependency 15 = .error .assertion := by decide
  rw [hstop] at hremove
  cases hremove

end Rob
end Sniper.Timing
