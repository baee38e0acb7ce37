import Sniper.Memory.ReplacementPolicies

/-! # Recency

`CacheSetLRU` without query-based selection, and `CacheSetNRU`, over any sequence of accesses,
insertions and changes of blocks. The positions of the first are the ranks of the ways by their
last access or insertion; the second marks the ways that were touched, and counts the touches. -/

namespace Sniper.Memory.Replacement
open Lib.Simulation SetAssoc Function

inductive Call (n : Nat) (V : Type) where
  /-- `updateReplacementIndex`, on a hit. -/
  | hit (accessed_index : Fin (n + 1))
  | insert (block : Block V)
  /-- An invalidation, or another change of a block. -/
  | change (index : Fin (n + 1)) (block : Block V)

/-! ## Least recently used -/

namespace LRU
variable {n : Nat} {V : Type}

/-- A set and the ways that were accessed or filled, the latest first. -/
structure History (n : Nat) (V : Type) where
  blocks : Blocks n V
  m_lru_bits : Bits n
  touched : List (Fin (n + 1))

def exec (s : History n V) : Call n V → Except Stop (History n V)
  | .hit accessed_index => .ok { s with
      m_lru_bits := moveToMRU s.m_lru_bits accessed_index
      touched := accessed_index :: s.touched }
  | .insert block => do
    let (index, m_lru_bits) ← getReplacementIndex none s.blocks 1 s.m_lru_bits
    return ⟨update s.blocks index block, m_lru_bits, index :: s.touched⟩
  | .change index block => .ok { s with blocks := update s.blocks index block }

/-- No way waits for an upgrade when a line is inserted. -/
def Allowed (s : History n V) : Call n V → Prop
  | .insert _ => ∀ i, isValidReplacement s.blocks i = true
  | _ => True

def Init (s : History n V) : Prop := s.m_lru_bits = Repl.initialBits n ∧ s.touched = []

def Step (s s' : History n V) : Prop := ∃ call, Allowed s call ∧ exec s call = .ok s'

/-- How many ways are more recent; the ways that were never touched follow in order. -/
def age (touched : List (Fin (n + 1))) (way : Fin (n + 1)) : Nat :=
  (touched ++ List.finRange (n + 1)).idxOf way

theorem age_cons_self (touched : List (Fin (n + 1))) (way : Fin (n + 1)) :
    age (way :: touched) way = 0 := List.idxOf_cons_self

theorem age_cons_ne {touched : List (Fin (n + 1))} {way i : Fin (n + 1)} (hne : i ≠ way) :
    age (i :: touched) way = age touched way + 1 := List.idxOf_cons_ne _ hne

theorem age_injective (touched : List (Fin (n + 1))) : Injective (age touched) := by
  intro way way' h
  exact (List.idxOf_inj (List.mem_append_right _ (List.mem_finRange way))).mp h

/-- The positions are below the associativity and order the ways by age. -/
structure Ordered (bits : Bits n) (touched : List (Fin (n + 1))) : Prop where
  below : ∀ way, (bits way).toNat < n + 1
  order : ∀ way way', (bits way).toNat < (bits way').toNat ↔ age touched way < age touched way'

theorem Ordered.injective {bits : Bits n} {touched : List (Fin (n + 1))} (h : Ordered bits touched) :
    Injective fun way => (bits way).toNat := by
  intro way way' heq
  refine age_injective touched (Nat.le_antisymm ?_ ?_)
  · exact not_lt.mp fun hlt => heq.not_gt ((h.order ..).mpr hlt)
  · exact not_lt.mp fun hlt => heq.not_lt ((h.order ..).mpr hlt)

theorem toNat_moveToMRU (bits : Bits n) (i way : Fin (n + 1)) :
    (moveToMRU bits i way).toNat = if way = i then 0
      else if (bits way).toNat < (bits i).toNat then (bits way).toNat + 1
      else (bits way).toNat := by
  unfold moveToMRU
  split_ifs with heq hlt hlt' hlt'
  · rfl
  · have hbyte := (bits i).toNat_lt
    exact Nat.mod_eq_of_lt (by simp; omega)
  · exact absurd (UInt8.lt_iff_toNat_lt.mp hlt) hlt'
  · exact absurd (UInt8.lt_iff_toNat_lt.mpr hlt') hlt
  · rfl

theorem Ordered.touch {bits : Bits n} {touched : List (Fin (n + 1))} (h : Ordered bits touched)
    (i : Fin (n + 1)) : Ordered (moveToMRU bits i) (i :: touched) := by
  have hbits := h.below i
  constructor
  · intro way
    have hway := h.below way
    rw [toNat_moveToMRU]
    split_ifs <;> omega
  · intro way way'
    rw [toNat_moveToMRU, toNat_moveToMRU]
    by_cases hw : way = i
    · rw [hw, if_pos rfl, age_cons_self]
      by_cases hw' : way' = i
      · rw [hw', if_pos rfl, age_cons_self]
      · have hpos : (bits way').toNat ≠ (bits i).toNat := fun heq => hw' (h.injective heq)
        rw [if_neg hw', age_cons_ne (Ne.symm hw')]
        split_ifs <;> omega
    · rw [if_neg hw, age_cons_ne (Ne.symm hw)]
      by_cases hw' : way' = i
      · rw [hw', if_pos rfl, age_cons_self]
        exact iff_of_false (Nat.not_lt_zero _) (Nat.not_lt_zero _)
      · -- between two others a place is made where `i` was
        rw [if_neg hw', age_cons_ne (Ne.symm hw')]
        have hi : (bits way).toNat ≠ (bits i).toNat := fun heq => hw (h.injective heq)
        have hi' : (bits way').toNat ≠ (bits i).toNat := fun heq => hw' (h.injective heq)
        have horder := h.order way way'
        split_ifs <;> omega

theorem ordered_initialBits (hn : n < 256) : Ordered (Repl.initialBits n) [] := by
  have hbits : ∀ way, (Repl.initialBits n way).toNat = way.val := by
    intro way
    exact Nat.mod_eq_of_lt (way.isLt.trans_le hn)
  constructor
  · intro way
    rw [hbits]
    exact way.isLt
  · intro way way'
    rw [hbits, hbits, age, age, List.nil_append, List.idxOf_finRange, List.idxOf_finRange]

/-! ### The victim -/

theorem le_scan {blocks : Blocks n V} (bits : Bits n)
    (hready : ∀ i, isValidReplacement blocks i = true) (way : Fin (n + 1)) :
    bits way ≤ bits (scan blocks bits) := by
  have hfold : ∀ (ways : List (Fin (n + 1))) (best : Fin (n + 1) × UInt8), best.2 ≤ bits best.1 →
      (ways.foldl (improve blocks bits) best).2 ≤ bits (ways.foldl (improve blocks bits) best).1 ∧
        best.2 ≤ (ways.foldl (improve blocks bits) best).2 ∧
        ∀ way ∈ ways, bits way ≤ (ways.foldl (improve blocks bits) best).2 := by
    intro ways
    induction ways with
    | nil => exact fun best hbest => ⟨hbest, UInt8.le_refl _, nofun⟩
    | cons way ways ih =>
      intro best hbest
      rw [List.foldl_cons, improve]
      split_ifs with hlt
      · obtain ⟨hfirst, hge, hall⟩ := ih (way, bits way) (UInt8.le_refl _)
        refine ⟨hfirst, UInt8.le_trans (UInt8.le_of_lt hlt.1) hge, ?_⟩
        intro x hx
        obtain rfl | hx := List.mem_cons.mp hx
        · exact hge
        · exact hall x hx
      · obtain ⟨hfirst, hge, hall⟩ := ih best hbest
        refine ⟨hfirst, hge, ?_⟩
        intro x hx
        obtain rfl | hx := List.mem_cons.mp hx
        · exact UInt8.le_trans (UInt8.not_lt.mp fun hless => hlt ⟨hless, hready x⟩) hge
        · exact hall x hx
  obtain ⟨hfirst, -, hall⟩ := hfold (List.finRange (n + 1)) (0, 0) (UInt8.zero_le)
  exact UInt8.le_trans (hall way (List.mem_finRange way)) hfirst

theorem exec_insert {s : History n V} {block} {s' : History n V}
    (hexec : exec s (.insert block) = .ok s') :
    ∃ index, s'.m_lru_bits = moveToMRU s.m_lru_bits index ∧ s'.touched = index :: s.touched := by
  unfold exec getReplacementIndex at hexec
  cases hfirst : firstInvalid s.blocks with
  | some i =>
    rw [hfirst] at hexec
    cases hexec
    exact ⟨i, rfl, rfl⟩
  | none =>
    rw [hfirst] at hexec
    cases hexec
    exact ⟨_, rfl, rfl⟩

theorem Ordered.exec {s s' : History n V} (h : Ordered s.m_lru_bits s.touched) {call}
    (hexec : exec s call = .ok s') : Ordered s'.m_lru_bits s'.touched := by
  cases call with
  | hit accessed_index =>
    cases hexec
    exact h.touch accessed_index
  | insert block =>
    obtain ⟨index, hbits, htouched⟩ := exec_insert hexec
    rw [hbits, htouched]
    exact h.touch index
  | change index block =>
    cases hexec
    exact h

theorem ordered_of_reachable (hn : n < 256) {s : History n V} (hs : Reachable Init Step s) :
    Ordered s.m_lru_bits s.touched := by
  refine hs.invariant (P := fun s => Ordered s.m_lru_bits s.touched) ?_ ?_
  · intro s hinit
    rw [hinit.1, hinit.2]
    exact ordered_initialBits hn
  · rintro s s' h ⟨call, -, hexec⟩
    exact h.exec hexec

theorem Ordered.perm {bits touched} (h : Ordered bits touched) :
    ((List.finRange (n + 1)).map fun way => (bits way).toNat).Perm (List.range (n + 1)) := by
  have hnodup := (List.nodup_finRange (n + 1)).map h.injective
  have hsub : ((List.finRange (n + 1)).map fun way => (bits way).toNat) ⊆ List.range (n + 1) := by
    intro position hin
    obtain ⟨way, -, rfl⟩ := List.mem_map.mp hin
    exact List.mem_range.mpr (h.below way)
  exact (hnodup.subperm hsub).perm_of_length_le (by simp)

/-- Where all ways hold a line the victim is the one that was not touched for longest. -/
theorem victim_least_recent (hn : n < 256) {s : History n V} (hs : Reachable Init Step s) :
    ((List.finRange (n + 1)).map fun way => (s.m_lru_bits way).toNat).Perm (List.range (n + 1)) ∧
      (∀ way way', (s.m_lru_bits way).toNat < (s.m_lru_bits way').toNat ↔
        age s.touched way < age s.touched way') ∧
      ((∀ i, (s.blocks i).isValid = true) → (∀ i, isValidReplacement s.blocks i = true) →
        ∃ victim m_lru_bits, getReplacementIndex none s.blocks 1 s.m_lru_bits =
            .ok (victim, m_lru_bits) ∧
          ∀ way ≠ victim, age s.touched way < age s.touched victim) := by
  have hordered := ordered_of_reachable hn hs
  refine ⟨hordered.perm, hordered.order, fun hvalid hready => ?_⟩
  refine ⟨scan s.blocks s.m_lru_bits,
    moveToMRU s.m_lru_bits (scan s.blocks s.m_lru_bits), ?_, ?_⟩
  · rw [getReplacementIndex, firstInvalid_none.mpr hvalid]
    exact attempts_last none
  · intro way hne
    have hle := UInt8.le_iff_toNat_le.mp (le_scan s.m_lru_bits hready way)
    exact (hordered.order ..).mp (hle.lt_of_ne fun heq => hne (hordered.injective heq))

/-- Two lines are stored in two ways and the first one is hit, so the second is the victim. -/
theorem victim_least_recent_two :
    ∃ s : History 1 Unit, s.touched = [0, 1, 0] ∧ (∀ i, (s.blocks i).isValid = true) ∧
      ∃ victim m_lru_bits, getReplacementIndex none s.blocks 1 s.m_lru_bits =
          .ok (victim, m_lru_bits) ∧
        ∀ way ≠ victim, age s.touched way < age s.touched victim := by
  let line (tag : IntPtr) : Block Unit := ⟨tag, .SHARED, false, ()⟩
  have hinit : Init (⟨fun _ => .empty (), Repl.initialBits 1, []⟩ : History 1 Unit) := ⟨rfl, rfl⟩
  have hstart : Reachable Init Step _ := .init hinit
  have hfirst := hstart.step ⟨.insert (line 1), fun _ => rfl, rfl⟩
  have hsecond := hfirst.step ⟨.insert (line 2), by simp only [Allowed]; decide, rfl⟩
  have hreach := hsecond.step ⟨.hit 0, trivial, rfl⟩
  exact ⟨_, rfl, by decide, (victim_least_recent (by decide) hreach).2.2 (by decide) (by decide)⟩

end LRU

/-! ## Not recently used -/

namespace NRU
variable {n : Nat} {V : Type}

/-- The set and what it has marked. -/
structure Marks (n : Nat) (V : Type) where
  blocks : Blocks n V
  nru : NRU n

/-- What a call does, with the way it touches. -/
def exec (s : Marks n V) : Call n V → Except Stop (Marks n V × Option (Fin (n + 1)))
  | .hit accessed_index =>
    .ok ({ s with nru := s.nru.updateReplacementIndex accessed_index }, some accessed_index)
  | .insert block => do
    let (index, nru) ← getReplacementIndex s.blocks s.nru
    return (⟨update s.blocks index block, nru⟩, some index)
  | .change index block => .ok ({ s with blocks := update s.blocks index block }, none)

/-- The ways whose used bit is set. -/
def used (m_lru_bits : Bits n) : Finset (Fin (n + 1)) := Finset.univ.filter (m_lru_bits · = 1)

/-- No way is touched whose used bit is set already, and the count fits in its byte. -/
def Unmarked (s : Marks n V) (call : Call n V) : Prop :=
  match call with
  | .hit accessed_index => s.nru.m_lru_bits accessed_index = 0 ∧
      (n + 1 < 256 ∨ (used s.nru.m_lru_bits).card < 255)
  | .insert _ => (match firstInvalid s.blocks with
      | some index => s.nru.m_lru_bits index = 0
      | none => ∃ index, s.nru.m_lru_bits index = 0 ∧ isValidReplacement s.blocks index = true) ∧
      (n + 1 < 256 ∨ (used s.nru.m_lru_bits).card < 255)
  | .change _ _ => True

def Init (s : Marks n V) : Prop :=
  s.nru.m_lru_bits = (fun _ => 0) ∧ s.nru.m_num_bits_set = 0

def Step (s s' : Marks n V) : Prop :=
  ∃ call way, Unmarked s call ∧ exec s call = .ok (s', way)

/-- The count is the number of used bits that are set. -/
structure Counted (nru : NRU n) : Prop where
  binary : ∀ way, nru.m_lru_bits way = 0 ∨ nru.m_lru_bits way = 1
  count : nru.m_num_bits_set.toNat = (used nru.m_lru_bits).card

/-- A touch sets the used bit of the way, or clears all bits when the way was the last without
one. -/
def Touches (m_lru_bits m_lru_bits' : Bits n) (way : Fin (n + 1)) : Prop :=
  m_lru_bits' = if ∀ other ≠ way, m_lru_bits other = 1 then fun _ => 0
    else update m_lru_bits way 1

theorem mem_used {m_lru_bits : Bits n} {way : Fin (n + 1)} :
    way ∈ used m_lru_bits ↔ m_lru_bits way = 1 := by
  simp [used]

theorem used_zero : used (fun _ : Fin (n + 1) => 0) = ∅ :=
  Finset.filter_eq_empty_iff.mpr fun _ _ => (by decide : (0 : UInt8) ≠ 1)

theorem card_used_eq {m_lru_bits : Bits n} {way : Fin (n + 1)} (hway : way ∉ used m_lru_bits) :
    (used m_lru_bits).card = n ↔ ∀ other ≠ way, m_lru_bits other = 1 := by
  have hsub : used m_lru_bits ⊆ Finset.univ.erase way := by
    intro other hother
    exact Finset.mem_erase.mpr ⟨fun heq => hway (heq ▸ hother), Finset.mem_univ other⟩
  have herase : (Finset.univ.erase way).card = n := by
    rw [Finset.card_erase_of_mem (Finset.mem_univ way), Finset.card_univ, Fintype.card_fin,
      Nat.add_sub_cancel]
  constructor
  · intro hcard other hne
    rw [← mem_used, Finset.eq_of_subset_of_card_le hsub (by rw [herase, hcard])]
    exact Finset.mem_erase.mpr ⟨hne, Finset.mem_univ other⟩
  · intro hall
    have heq : used m_lru_bits = Finset.univ.erase way := by
      refine hsub.antisymm fun other hother => mem_used.mpr ?_
      exact hall other (Finset.ne_of_mem_erase hother)
    rw [heq, herase]

theorem used_update {m_lru_bits : Bits n} {way : Fin (n + 1)} (hway : way ∉ used m_lru_bits) :
    used (update m_lru_bits way 1) = Finset.cons way (used m_lru_bits) hway := by
  ext other
  rw [Finset.mem_cons, mem_used, mem_used]
  by_cases heq : other = way
  · rw [heq, update_self]
    simp
  · simp [heq]

theorem Counted.touch {nru : NRU n} (h : Counted nru) {way} (hway : nru.m_lru_bits way = 0)
    (hfits : n + 1 < 256 ∨ (used nru.m_lru_bits).card < 255) :
    Counted (nru.updateReplacementIndex way) ∧
      Touches nru.m_lru_bits (nru.updateReplacementIndex way).m_lru_bits way := by
  have hout : way ∉ used nru.m_lru_bits := by
    rw [mem_used, hway]
    decide
  have hle : (used nru.m_lru_bits).card ≤ n := by
    have hcons := Finset.card_le_univ (Finset.cons way (used nru.m_lru_bits) hout)
    rw [Finset.card_cons, Fintype.card_fin] at hcons
    omega
  have hcount : (nru.m_num_bits_set + 1).toNat = (used nru.m_lru_bits).card + 1 := by
    rw [UInt8.toNat_add, h.count]
    exact Nat.mod_eq_of_lt (by simp; omega)
  have hlast := card_used_eq hout
  unfold updateReplacementIndex Touches
  by_cases hall : (used nru.m_lru_bits).card = n
  · rw [if_pos (by rw [hcount, hall]), if_pos (hlast.mp hall)]
    refine ⟨⟨fun _ => .inl rfl, ?_⟩, rfl⟩
    rw [used_zero]
    rfl
  · rw [if_neg (by rw [hcount]; omega), if_neg (mt hlast.mpr hall)]
    refine ⟨⟨?_, ?_⟩, rfl⟩
    · intro other
      dsimp only
      by_cases heq : other = way
      · rw [heq, update_self]
        exact .inr rfl
      · rw [update_of_ne heq]
        exact h.binary other
    · rw [hcount, used_update hout, Finset.card_cons]

/-! ### The way that is chosen -/

theorem pointerSearch_eligible {blocks : Blocks n V} {eligible : Fin (n + 1) → Bool} {left : Nat}
    {p p' : Pointer n} {i : Fin (n + 1)} (h : pointerSearch blocks eligible left p = .ok (i, p')) :
    eligible i = true := by
  induction left generalizing p with
  | zero => cases h
  | succ left ih =>
    rw [pointerSearch] at h
    split at h
    case isTrue hway =>
      cases h
      exact (Bool.and_eq_true_iff.mp hway).1
    case isFalse => exact ih h

theorem getReplacementIndex_spec {blocks : Blocks n V} {nru nru' : NRU n} {index : Fin (n + 1)}
    (h : getReplacementIndex blocks nru = .ok (index, nru')) :
    ∃ p, nru' = { nru with m_replacement_pointer := p }.updateReplacementIndex index ∧
      match firstInvalid blocks with
      | some i => index = i
      | none => (∃ i, nru.m_lru_bits i = 0 ∧ isValidReplacement blocks i = true) →
          nru.m_lru_bits index = 0 := by
  unfold getReplacementIndex at h
  cases hfirst : firstInvalid blocks with
  | some i =>
    rw [hfirst] at h
    cases h
    exact ⟨nru.m_replacement_pointer, rfl, rfl⟩
  | none =>
    rw [hfirst] at h
    obtain ⟨⟨i, p⟩, hsearch, hrest⟩ := of_bind_ok h
    cases hrest
    refine ⟨p, rfl, fun hzero => ?_⟩
    have heligible := pointerSearch_eligible hsearch
    obtain ⟨i, hi, hready⟩ := hzero
    have hhave : ((List.finRange (n + 1)).any fun i =>
        nru.m_lru_bits i == 0 && isValidReplacement blocks i) = true :=
      List.any_eq_true.mpr ⟨i, List.mem_finRange i, by rw [hi, hready]; rfl⟩
    rw [hhave] at heligible
    simpa using heligible

theorem Counted.pointer {nru} (h : Counted nru) (p : Pointer n) :
    Counted { nru with m_replacement_pointer := p } := ⟨h.binary, h.count⟩

theorem Counted.exec {s s' : Marks n V} (h : Counted s.nru) {call : Call n V}
    {way : Option (Fin (n + 1))} (hcall : Unmarked s call) (hexec : exec s call = .ok (s', way)) :
    Counted s'.nru ∧ ∀ w, way = some w →
      Touches s.nru.m_lru_bits s'.nru.m_lru_bits w ∧ s.nru.m_lru_bits w = 0 := by
  cases call with
  | hit accessed_index =>
    cases hexec
    obtain ⟨hcounted, htouches⟩ := h.touch hcall.1 hcall.2
    refine ⟨hcounted, ?_⟩
    intro w hw
    cases hw
    exact ⟨htouches, hcall.1⟩
  | insert block =>
    obtain ⟨⟨index, nru⟩, hindex, hrest⟩ := of_bind_ok hexec
    cases hrest
    obtain ⟨p, rfl, hchosen⟩ := getReplacementIndex_spec hindex
    have hzero : s.nru.m_lru_bits index = 0 := by
      obtain ⟨hfree, -⟩ := hcall
      cases hfirst : firstInvalid s.blocks with
      | some i =>
        rw [hfirst] at hchosen hfree
        rw [hchosen]
        exact hfree
      | none =>
        rw [hfirst] at hchosen hfree
        exact hchosen hfree
    obtain ⟨hcounted, htouches⟩ := (h.pointer p).touch hzero hcall.2
    refine ⟨hcounted, ?_⟩
    intro w hw
    cases hw
    exact ⟨htouches, hzero⟩
  | change index block =>
    cases hexec
    exact ⟨h, nofun⟩

/-- In runs that touch unmarked ways only, the count is right, the bits are cleared exactly when
the last way without one is touched, and no marked way is chosen. -/
theorem counted_of_reachable {s : Marks n V} (hs : Reachable Init Step s) :
    Counted s.nru ∧ ∀ call s' way, Unmarked s call → exec s call = .ok (s', some way) →
      Counted s'.nru ∧ Touches s.nru.m_lru_bits s'.nru.m_lru_bits way ∧
        s.nru.m_lru_bits way = 0 := by
  have hcounted : Counted s.nru := by
    refine hs.invariant (P := fun s => Counted s.nru) ?_ ?_
    · intro s hinit
      exact ⟨fun way => .inl (by rw [hinit.1]), by rw [hinit.1, hinit.2, used_zero]; rfl⟩
    · intro s s' h ⟨call, way, hcall, hexec⟩
      exact (h.exec hcall hexec).1
  refine ⟨hcounted, fun call s' way hcall hexec => ?_⟩
  obtain ⟨hnext, htouch⟩ := hcounted.exec hcall hexec
  obtain ⟨htouches, hzero⟩ := htouch way rfl
  exact ⟨hnext, htouches, hzero⟩

/-- Three ways after a hit on the first one. -/
theorem counted_of_reachable_three :
    ∃ s : Marks 2 Unit, s.nru.m_lru_bits 0 = 1 ∧ Counted s.nru := by
  have hinit : Init (⟨fun _ => .empty (), ⟨fun _ => 0, 0, .start 2⟩⟩ : Marks 2 Unit) := ⟨rfl, rfl⟩
  have hstart : Reachable Init Step _ := .init hinit
  have hreach := hstart.step ⟨.hit 0, some 0, ⟨rfl, .inl (by decide)⟩, rfl⟩
  exact ⟨_, rfl, (counted_of_reachable hreach).1⟩

open scoped Lib.Sizes

/-- A new set of a number of ways, after two hits on the first one. -/
def hitTwice (n : Nat) : NRU n :=
  (NRU.updateReplacementIndex ⟨fun _ => 0, 0, .start n⟩ 0).updateReplacementIndex 0

/-- Two hits on one of three ways count as two, and on one of two ways clear the bits. -/
theorem two_hits_count_twice :
    (hitTwice 2).m_num_bits_set = 2 ∧ used (hitTwice 2).m_lru_bits = {0} ∧
      used (hitTwice 1).m_lru_bits = ∅ := by
  decide

end NRU
end Sniper.Memory.Replacement
