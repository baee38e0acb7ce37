import Sniper.Directory.DirectoryEntry

/-! # The directory cache

`DramDirectoryCache`: the set array of entries and the list of replaced entries that still
have sharers to invalidate. `none` is `INVALID_ADDRESS`. Entries the source creates on
their first use exist from the start here, with whatever forwarder they will get. The
replacement pointers are `UInt32`s that nothing initialises.
-/
namespace Sniper.Directory.SetArray
open Directory.DirectoryEntry

/-- A `DirectoryEntry` with its `m_address`. -/
structure Slot (A : Type) (n : Nat) where
  address : Option A
  entry : Entry n

/-- The shape of the directory; `setIndex` is the set half of `splitAddress`. -/
structure Geometry (A : Type) where
  numSets : Nat
  assoc : Nat
  setIndex : A → Fin numSets

structure DirectoryCache {A : Type} (G : Geometry A) (n : Nat) where
  ways : Fin G.numSets → Fin G.assoc → Slot A n
  replaced : List (Slot A n)
  replacementPtrs : Fin G.numSets → BitVec 32

inductive Loc {A : Type} (G : Geometry A) where
  | way (set : Fin G.numSets) (i : Fin G.assoc)
  | replaced (k : Nat)
  deriving DecidableEq

variable {A : Type} [DecidableEq A] {G : Geometry A} {n : Nat}

namespace DirectoryCache

/-- The first way of a set with the given `m_address`. -/
def findWay (d : DirectoryCache G n) (set : Fin G.numSets) (address : Option A) :
    Option (Fin G.assoc) :=
  (List.finRange G.assoc).find? fun i => (d.ways set i).address = address

def findReplaced (d : DirectoryCache G n) (address : A) : Option Nat :=
  d.replaced.findIdx? fun s => s.address = some address

def setWay (d : DirectoryCache G n) (set : Fin G.numSets) (i : Fin G.assoc) (s : Slot A n) :
    DirectoryCache G n :=
  { d with ways := Function.update d.ways set (Function.update (d.ways set) i s) }

/-- `getDirectoryEntry`: the entry of an address, else a free way that is given the
address, else the entry on the replaced list. -/
def getDirectoryEntry (d : DirectoryCache G n) (address : A) :
    Option (Loc G) × DirectoryCache G n :=
  let set := G.setIndex address
  match d.findWay set (some address) with
  | some i => (some (.way set i), d)
  | none =>
    match d.findWay set none with
    | some i =>
      (some (.way set i), d.setWay set i { d.ways set i with address := some address })
    | none => ((d.findReplaced address).map .replaced, d)

/-- `getReplacementCandidates`: the ways of the set, from the rotating pointer on. The sum
`i + m_replacement_ptrs[set_index]` is a `UInt32`. -/
def getReplacementCandidates (d : DirectoryCache G n) (address : A) :
    List (Fin G.assoc) × DirectoryCache G n :=
  let set := G.setIndex address
  ((List.finRange G.assoc).map fun (i : Fin G.assoc) =>
      ⟨(BitVec.ofNat 32 i + d.replacementPtrs set).toNat % G.assoc,
        Nat.mod_lt _ (Nat.zero_lt_of_lt i.isLt)⟩,
    { d with replacementPtrs :=
      Function.update d.replacementPtrs set (d.replacementPtrs set + 1) })

/-- `replaceDirectoryEntry`: the entry of `replacedAddress` moves to the replaced list, and
its way gets a new entry for `address`. -/
def replaceDirectoryEntry (d : DirectoryCache G n) (replacedAddress address : A)
    (forwarder : Option (Fin n)) : Except String (DirectoryCache G n) :=
  let set := G.setIndex replacedAddress
  match d.findWay set (some replacedAddress) with
  | some i =>
    .ok ({ d with replaced := d.replaced ++ [d.ways set i] }.setWay set i
      ⟨some address, .create forwarder⟩)
  | none => .error "Should not reach here"

/-- `invalidateDirectoryEntry`: the entry leaves the replaced list. -/
def invalidateDirectoryEntry (d : DirectoryCache G n) (address : A) :
    Except String (DirectoryCache G n) :=
  match d.findReplaced address with
  | some k => .ok { d with replaced := d.replaced.eraseIdx k }
  | none => .error "Should not reach here"

def slot? (d : DirectoryCache G n) : Loc G → Option (Slot A n)
  | .way set i => some (d.ways set i)
  | .replaced k => d.replaced[k]?

/-- A write through a `DirectoryEntry*`. -/
def setEntry (d : DirectoryCache G n) (entry : Entry n) : Loc G → DirectoryCache G n
  | .way set i => d.setWay set i { d.ways set i with entry }
  | .replaced k => { d with replaced := d.replaced.modify k fun s => { s with entry } }

/-! ## The directory as a map from addresses to entries -/

/-- Each address has one way at most, in its own set, or one place on the replaced list;
the set of a replaced address has no free way. -/
structure Unique (d : DirectoryCache G n) : Prop where
  ways : ∀ s i j a, (d.ways s i).address = some a → (d.ways s j).address = some a → i = j
  home : ∀ s i a, (d.ways s i).address = some a → G.setIndex a = s
  listed : (d.replaced.map (·.address)).Nodup
  apart : ∀ t i u a, u ∈ d.replaced → (d.ways t i).address = some a → u.address ≠ some a
  full : ∀ u a i, u ∈ d.replaced → u.address = some a →
    (d.ways (G.setIndex a) i).address ≠ none

/-- The address is on the replaced list. -/
def Listed (d : DirectoryCache G n) (a : A) : Prop := ∃ s ∈ d.replaced, s.address = some a

/-- Where the entry of an address is. -/
def locOf (d : DirectoryCache G n) (a : A) : Option (Loc G) :=
  match d.findWay (G.setIndex a) (some a) with
  | some i => some (.way (G.setIndex a) i)
  | none => (d.findReplaced a).map .replaced

/-- The entry of an address, if the directory has one. -/
def entryOf (d : DirectoryCache G n) (a : A) : Option (Entry n) :=
  ((d.locOf a).bind d.slot?).map (·.entry)

theorem findWay_some {d : DirectoryCache G n} {s x i} (h : d.findWay s x = some i) :
    (d.ways s i).address = x := by
  simpa using List.find?_some h

theorem findWay_none {d : DirectoryCache G n} {s x} :
    d.findWay s x = none ↔ ∀ i, (d.ways s i).address ≠ x := by
  simp [findWay, List.find?_eq_none]

theorem findReplaced_some {d : DirectoryCache G n} {a k} (h : d.findReplaced a = some k) :
    ∃ s, d.replaced[k]? = some s ∧ s.address = some a := by
  obtain ⟨hk, hs, -⟩ := List.findIdx?_eq_some_iff_getElem.mp h
  exact ⟨d.replaced[k], List.getElem?_eq_getElem hk, by simpa using hs⟩

theorem findReplaced_none {d : DirectoryCache G n} {a} :
    d.findReplaced a = none ↔ ¬ d.Listed a := by
  simp [findReplaced, Listed, List.findIdx?_eq_none_iff]

theorem slot?_of_locOf {d : DirectoryCache G n} {a loc} (h : d.locOf a = some loc) :
    ∃ s, d.slot? loc = some s ∧ s.address = some a := by
  unfold locOf at h
  split at h
  · rename_i i hi; cases h; exact ⟨_, rfl, findWay_some hi⟩
  · obtain ⟨k, hk, rfl⟩ := Option.map_eq_some_iff.mp h
    exact findReplaced_some hk

theorem Unique.locOf {d : DirectoryCache G n} (h : d.Unique) {a loc} {s : Slot A n}
    (hs : d.slot? loc = some s) (ha : s.address = some a) : d.locOf a = some loc := by
  cases loc with
  | way t i =>
    cases hs
    have ht := h.home t i a ha
    subst ht
    unfold DirectoryCache.locOf
    cases hf : d.findWay (G.setIndex a) (some a) with
    | none => exact absurd ha (findWay_none.mp hf i)
    | some j => rw [h.ways _ _ _ a (findWay_some hf) ha]
  | replaced k =>
    have hmem : s ∈ d.replaced := List.mem_of_getElem? hs
    unfold DirectoryCache.locOf
    cases hf : d.findWay (G.setIndex a) (some a) with
    | some j => exact absurd ha (h.apart _ j s a hmem (findWay_some hf))
    | none =>
      cases hr : d.findReplaced a with
      | none => exact absurd ⟨s, hmem, ha⟩ (findReplaced_none.mp hr)
      | some j =>
        obtain ⟨s', hs', ha'⟩ := findReplaced_some hr
        have hjk : (d.replaced.map (·.address))[j]? = (d.replaced.map (·.address))[k]? := by
          rw [List.getElem?_map, List.getElem?_map, hs',
            show d.replaced[k]? = some s from hs, Option.map_some, Option.map_some, ha, ha']
        have hj : j < (d.replaced.map (·.address)).length := by
          rw [List.length_map]; exact (List.getElem?_eq_some_iff.mp hs').1
        rw [(List.getElem?_inj hj h.listed).mp hjk]
        rfl

theorem entryOf_eq_some {d : DirectoryCache G n} {a loc} {s : Slot A n} (hl : d.locOf a = some loc)
    (hs : d.slot? loc = some s) : d.entryOf a = some s.entry := by
  simp [entryOf, hl, hs]

theorem Unique.entryOf_iff {d : DirectoryCache G n} (h : d.Unique) {a e} :
    d.entryOf a = some e ↔
      (∃ s i, (d.ways s i).address = some a ∧ (d.ways s i).entry = e) ∨
      ∃ u ∈ d.replaced, u.address = some a ∧ u.entry = e := by
  constructor
  · intro he
    cases hl : d.locOf a with
    | none => rw [entryOf, hl] at he; cases he
    | some loc =>
      obtain ⟨s, hs, ha⟩ := slot?_of_locOf hl
      rw [entryOf_eq_some hl hs] at he
      cases loc with
      | way t i => cases hs; exact .inl ⟨t, i, ha, Option.some.inj he⟩
      | replaced k => exact .inr ⟨s, List.mem_of_getElem? hs, ha, Option.some.inj he⟩
  · rintro (⟨t, i, ha, rfl⟩ | ⟨u, hu, ha, rfl⟩)
    · exact entryOf_eq_some (h.locOf (show d.slot? (.way t i) = some _ from rfl) ha) rfl
    · obtain ⟨k, hk⟩ := List.getElem?_of_mem hu
      exact entryOf_eq_some (h.locOf (show d.slot? (.replaced k) = some u from hk) ha) hk

theorem locOf_eq_none {d : DirectoryCache G n} {a} :
    d.locOf a = none ↔ d.entryOf a = none := by
  constructor
  · intro h; simp [entryOf, h]
  · intro h
    cases hl : d.locOf a with
    | none => rfl
    | some loc =>
      obtain ⟨s, hs, -⟩ := slot?_of_locOf hl
      rw [entryOf_eq_some hl hs] at h
      cases h

theorem Listed.locOf {d : DirectoryCache G n} (h : d.Unique) {a} (ha : d.Listed a) :
    ∃ k, d.locOf a = some (.replaced k) := by
  obtain ⟨s, hs, hsa⟩ := ha
  obtain ⟨k, hk⟩ := List.getElem?_of_mem hs
  exact ⟨k, h.locOf hk hsa⟩

/-! ## What each operation does to the map -/

theorem locOf_congr {d d' : DirectoryCache G n}
    (hw : ∀ s i, (d'.ways s i).address = (d.ways s i).address)
    (hr : d'.replaced.map (·.address) = d.replaced.map (·.address)) (a : A) :
    d'.locOf a = d.locOf a := by
  have hf : d'.findWay (G.setIndex a) (some a) = d.findWay (G.setIndex a) (some a) := by
    simp [findWay, hw]
  have hr' : d'.findReplaced a = d.findReplaced a := by
    have hmap : ∀ l : List (Slot A n), l.findIdx? (fun s => s.address = some a) =
        (l.map (·.address)).findIdx? fun x => x = some a := by
      intro l; simp [List.findIdx?_map, Function.comp_def]
    rw [findReplaced, findReplaced, hmap, hmap, hr]
  rw [locOf, locOf, hf, hr']

omit [DecidableEq A] in
theorem Unique.congr {d d' : DirectoryCache G n} (h : d.Unique)
    (hw : ∀ s i, (d'.ways s i).address = (d.ways s i).address)
    (hr : d'.replaced.map (·.address) = d.replaced.map (·.address)) : d'.Unique := by
  have hmem : ∀ u, u ∈ d'.replaced → ∃ u₀ ∈ d.replaced, u₀.address = u.address := by
    intro u hu
    have : u.address ∈ d.replaced.map (·.address) := hr ▸ List.mem_map_of_mem hu
    exact List.mem_map.mp this
  refine ⟨?_, ?_, ?_, ?_, ?_⟩
  · intro s i j a hi hj
    rw [hw] at hi hj; exact h.ways s i j a hi hj
  · intro s i a hi
    rw [hw] at hi; exact h.home s i a hi
  · rw [hr]; exact h.listed
  · intro t i u a hu ha hua
    obtain ⟨u₀, hu₀, he⟩ := hmem u hu
    rw [hw] at ha
    exact h.apart t i u₀ a hu₀ ha (he.trans hua)
  · intro u a i hu hua
    obtain ⟨u₀, hu₀, he⟩ := hmem u hu
    rw [hw]
    exact h.full u₀ a i hu₀ (he.trans hua)

omit [DecidableEq A] in
theorem setWay_ways (d : DirectoryCache G n) (s : Fin G.numSets) (i : Fin G.assoc)
    (x : Slot A n) (t : Fin G.numSets) (j : Fin G.assoc) :
    (d.setWay s i x).ways t j = if t = s ∧ j = i then x else d.ways t j := by
  simp only [setWay, Function.update_apply]
  by_cases ht : t = s
  · subst ht; simp [Function.update_apply]
  · simp [ht]

omit [DecidableEq A] in
theorem setEntry_ways_address (d : DirectoryCache G n) (e : Entry n) (loc : Loc G) (s i) :
    ((d.setEntry e loc).ways s i).address = (d.ways s i).address := by
  cases loc with
  | way t j =>
    rw [setEntry, setWay_ways]
    split
    · rename_i h; rw [h.1, h.2]
    · rfl
  | replaced k => rfl

omit [DecidableEq A] in
theorem setEntry_replaced_address (d : DirectoryCache G n) (e : Entry n) (loc : Loc G) :
    (d.setEntry e loc).replaced.map (·.address) = d.replaced.map (·.address) := by
  cases loc with
  | way t j => rfl
  | replaced k =>
    apply List.ext_getElem?
    intro i
    simp only [setEntry, List.getElem?_map, List.getElem?_modify]
    cases d.replaced[i]? with
    | none => rfl
    | some s => by_cases h : k = i <;> simp [h]

theorem setEntry_slot? (d : DirectoryCache G n) (e : Entry n) (loc loc' : Loc G) :
    (d.setEntry e loc).slot? loc' =
      if loc' = loc then (d.slot? loc').map ({ · with entry := e }) else d.slot? loc' := by
  cases loc with
  | way s i =>
    cases loc' with
    | way t j =>
      by_cases h : t = s ∧ j = i
      · obtain ⟨rfl, rfl⟩ := h
        simp [setEntry, slot?, setWay_ways]
      · simp [setEntry, slot?, setWay_ways, h]
    | replaced k => rfl
  | replaced k =>
    cases loc' with
    | way t j => rfl
    | replaced k' =>
      simp only [setEntry, slot?, List.getElem?_modify, Loc.replaced.injEq]
      by_cases h : k = k'
      · subst h; simp
      · simp [h, Ne.symm h]

theorem Unique.setEntry {d : DirectoryCache G n} (h : d.Unique) {a loc} (hl : d.locOf a = some loc)
    (e : Entry n) :
    (d.setEntry e loc).Unique ∧ (d.setEntry e loc).locOf = d.locOf ∧
      (d.setEntry e loc).entryOf = Function.update d.entryOf a (some e) := by
  have hloc : ∀ b, (d.setEntry e loc).locOf b = d.locOf b :=
    locOf_congr (setEntry_ways_address d e loc) (setEntry_replaced_address d e loc)
  refine ⟨h.congr (setEntry_ways_address d e loc) (setEntry_replaced_address d e loc),
    funext hloc, funext fun b => ?_⟩
  obtain ⟨s, hs, ha⟩ := slot?_of_locOf hl
  rw [Function.update_apply, entryOf, hloc]
  by_cases hb : b = a
  · subst hb
    simp [hl, setEntry_slot?, hs]
  · rw [if_neg hb, entryOf]
    cases hlb : d.locOf b with
    | none => rfl
    | some loc' =>
      have hne : loc' ≠ loc := by
        rintro rfl
        obtain ⟨s', hs', hb'⟩ := slot?_of_locOf hlb
        rw [hs] at hs'; cases hs'
        rw [ha] at hb'; cases hb'; exact hb rfl
      simp [setEntry_slot?, hne]

theorem Unique.fillWay {d : DirectoryCache G n} (h : d.Unique) {a i} (ha : d.locOf a = none)
    (hfree : (d.ways (G.setIndex a) i).address = none) (e : Entry n) :
    (d.setWay (G.setIndex a) i ⟨some a, e⟩).Unique ∧
      (d.setWay (G.setIndex a) i ⟨some a, e⟩).entryOf =
        Function.update d.entryOf a (some e) := by
  have hnone : ∀ loc s, d.slot? loc = some s → s.address ≠ some a := by
    intro loc s hs hsa
    rw [h.locOf hs hsa] at ha; cases ha
  have hu : (d.setWay (G.setIndex a) i ⟨some a, e⟩).Unique := by
    refine ⟨?_, ?_, h.listed, ?_, ?_⟩
    · intro s j k b hj hk
      rw [setWay_ways] at hj hk
      split_ifs at hj hk with h1 h2 h2
      · exact h1.2.trans h2.2.symm
      · cases hj; exact absurd hk (hnone (.way s k) _ rfl)
      · cases hk; exact absurd hj (hnone (.way s j) _ rfl)
      · exact h.ways s j k b hj hk
    · intro s j b hj
      rw [setWay_ways] at hj
      split_ifs at hj with h1
      · cases hj; exact h1.1.symm
      · exact h.home s j b hj
    · intro t j u b hu' hj hub
      rw [setWay_ways] at hj
      split_ifs at hj with h1
      · cases hj
        obtain ⟨k, hk⟩ := List.getElem?_of_mem hu'
        exact hnone (.replaced k) u hk hub
      · exact h.apart t j u b hu' hj hub
    · intro u b j hu' hub
      rw [setWay_ways]
      split
      · simp
      · exact h.full u b j hu' hub
  refine ⟨hu, funext fun b => Option.ext fun x => ?_⟩
  rw [hu.entryOf_iff, Function.update_apply]
  by_cases hb : b = a
  · subst hb
    rw [if_pos rfl]
    constructor
    · rintro (⟨s, j, hj, rfl⟩ | ⟨u, hu', hub, -⟩)
      · rw [setWay_ways] at hj ⊢
        split_ifs at hj ⊢
        · rfl
        · exact absurd hj (hnone (.way s j) _ rfl)
      · obtain ⟨k, hk⟩ := List.getElem?_of_mem hu'
        exact absurd hub (hnone (.replaced k) u hk)
    · intro hx
      cases hx
      exact .inl ⟨G.setIndex b, i, by simp [setWay_ways], by simp [setWay_ways]⟩
  · rw [if_neg hb, h.entryOf_iff]
    refine or_congr ?_ Iff.rfl
    constructor
    · intro ⟨s, j, hj, hx⟩
      rw [setWay_ways] at hj hx
      split_ifs at hj hx
      · cases hj; exact absurd rfl hb
      · exact ⟨s, j, hj, hx⟩
    · intro ⟨s, j, hj, hx⟩
      have : ¬ (s = G.setIndex a ∧ j = i) := by
        rintro ⟨rfl, rfl⟩; rw [hfree] at hj; cases hj
      exact ⟨s, j, by rwa [setWay_ways, if_neg this], by rwa [setWay_ways, if_neg this]⟩

theorem Unique.getDirectoryEntry {d : DirectoryCache G n} (h : d.Unique) (a : A) :
    (∃ loc, d.getDirectoryEntry a = (some loc, d) ∧ d.locOf a = some loc) ∨
    (∃ i, (d.ways (G.setIndex a) i).address = none ∧ d.entryOf a = none ∧
      d.getDirectoryEntry a = (some (.way (G.setIndex a) i),
        d.setWay (G.setIndex a) i ⟨some a, (d.ways (G.setIndex a) i).entry⟩)) ∨
    (d.getDirectoryEntry a = (none, d) ∧ d.entryOf a = none ∧
      ∀ i, (d.ways (G.setIndex a) i).address ≠ none) := by
  unfold DirectoryCache.getDirectoryEntry
  dsimp only
  cases hf : d.findWay (G.setIndex a) (some a) with
  | some i => exact .inl ⟨_, rfl, by simp [DirectoryCache.locOf, hf]⟩
  | none =>
    have hl : d.locOf a = (d.findReplaced a).map .replaced := by
      simp [DirectoryCache.locOf, hf]
    cases hn : d.findWay (G.setIndex a) none with
    | some i =>
      have hfree := findWay_some hn
      refine .inr (.inl ⟨i, hfree, locOf_eq_none.mp ?_, rfl⟩)
      rw [hl]
      cases hr : d.findReplaced a with
      | none => rfl
      | some k =>
        obtain ⟨s, hs, hsa⟩ := findReplaced_some hr
        exact absurd hfree (h.full s a i (List.mem_of_getElem? hs) hsa)
    | none =>
      cases hr : d.findReplaced a with
      | some k => exact .inl ⟨_, rfl, by rw [hl, hr]; rfl⟩
      | none =>
        refine .inr (.inr ⟨rfl, locOf_eq_none.mp ?_, findWay_none.mp hn⟩)
        rw [hl, hr]; rfl

theorem Unique.replaceDirectoryEntry {d d' : DirectoryCache G n} (h : d.Unique) {c a f}
    (hd : d.replaceDirectoryEntry c a f = .ok d') (hset : G.setIndex a = G.setIndex c)
    (ha : d.entryOf a = none) (hfull : ∀ i, (d.ways (G.setIndex a) i).address ≠ none) :
    d'.Unique ∧ d'.entryOf = Function.update d.entryOf a (some (.create f)) ∧
      ∀ b, d'.Listed b ↔ d.Listed b ∨ b = c := by
  unfold DirectoryCache.replaceDirectoryEntry at hd
  cases hf : d.findWay (G.setIndex c) (some c) with
  | none => simp [hf] at hd
  | some i =>
    simp only [hf, Except.ok.injEq] at hd
    have hci := findWay_some hf
    have hways : ∀ t j, d'.ways t j =
        if t = G.setIndex c ∧ j = i then ⟨some a, .create f⟩ else d.ways t j := by
      intro t j; rw [← hd, setWay_ways]
    have hrep : d'.replaced = d.replaced ++ [d.ways (G.setIndex c) i] := by rw [← hd]; rfl
    have hnone : ∀ e, ¬ ((∃ s i, (d.ways s i).address = some a ∧ (d.ways s i).entry = e) ∨
        ∃ u ∈ d.replaced, u.address = some a ∧ u.entry = e) := by
      intro e he; rw [h.entryOf_iff.mpr he] at ha; cases ha
    have hway : ∀ s j, (d.ways s j).address ≠ some a :=
      fun s j hj => hnone _ (.inl ⟨s, j, hj, rfl⟩)
    have hlist : ∀ u ∈ d.replaced, u.address ≠ some a :=
      fun u hu hua => hnone _ (.inr ⟨u, hu, hua, rfl⟩)
    have hu : d'.Unique := by
      refine ⟨?_, ?_, ?_, ?_, ?_⟩
      · intro s j k b hj hk
        rw [hways] at hj hk
        split_ifs at hj hk with h1 h2 h2
        · exact h1.2.trans h2.2.symm
        · cases hj; exact absurd hk (hway s k)
        · cases hk; exact absurd hj (hway s j)
        · exact h.ways s j k b hj hk
      · intro s j b hj
        rw [hways] at hj
        split_ifs at hj with h1
        · cases hj; rw [h1.1, hset]
        · exact h.home s j b hj
      · rw [hrep, List.map_append, List.map_singleton, hci]
        refine List.Nodup.append h.listed (List.nodup_singleton _) ?_
        intro x hx hx'
        obtain ⟨u, hu, hux⟩ := List.mem_map.mp hx
        rw [List.mem_singleton.mp hx'] at hux
        exact h.apart _ i u c hu hci hux
      · intro t j u b hu hj hub
        rw [hways] at hj
        rw [hrep, List.mem_append, List.mem_singleton] at hu
        split_ifs at hj with h1
        · cases hj
          obtain hu | rfl := hu
          · exact hlist u hu hub
          · exact hway _ i hub
        · obtain hu | rfl := hu
          · exact h.apart t j u b hu hj hub
          · rw [hci] at hub; cases hub
            have ht := h.home t j c hj
            exact h1 ⟨ht.symm, h.ways _ j i c (ht ▸ hj) hci⟩
      · intro u b j hu hub
        rw [hways]
        split_ifs with h1
        · simp
        · rw [hrep, List.mem_append, List.mem_singleton] at hu
          obtain hu | rfl := hu
          · exact h.full u b j hu hub
          · rw [hci] at hub; cases hub
            rw [← hset]; exact hfull j
    refine ⟨hu, funext fun b => Option.ext fun x => ?_, fun b => ?_⟩
    · rw [hu.entryOf_iff, Function.update_apply]
      by_cases hb : b = a
      · subst hb
        rw [if_pos rfl]
        constructor
        · rintro (⟨s, j, hj, rfl⟩ | ⟨u, hu', hub, -⟩)
          · rw [hways] at hj ⊢
            split_ifs at hj ⊢
            · rfl
            · exact absurd hj (hway s j)
          · rw [hrep, List.mem_append, List.mem_singleton] at hu'
            obtain hu' | rfl := hu'
            · exact absurd hub (hlist u hu')
            · exact absurd hub (hway _ i)
        · intro hx
          cases hx
          exact .inl ⟨G.setIndex c, i, by simp [hways], by simp [hways]⟩
      · rw [if_neg hb, h.entryOf_iff]
        constructor
        · rintro (⟨s, j, hj, hx⟩ | ⟨u, hu', hub, hx⟩)
          · rw [hways] at hj hx
            split_ifs at hj hx
            · cases hj; exact absurd rfl hb
            · exact .inl ⟨s, j, hj, hx⟩
          · rw [hrep, List.mem_append, List.mem_singleton] at hu'
            obtain hu' | rfl := hu'
            · exact .inr ⟨u, hu', hub, hx⟩
            · exact .inl ⟨_, i, hub, hx⟩
        · rintro (⟨s, j, hj, hx⟩ | ⟨u, hu', hub, hx⟩)
          · by_cases h1 : s = G.setIndex c ∧ j = i
            · obtain ⟨rfl, rfl⟩ := h1
              exact .inr ⟨_, by rw [hrep]; simp, hj, hx⟩
            · exact .inl ⟨s, j, by rwa [hways, if_neg h1], by rwa [hways, if_neg h1]⟩
          · exact .inr ⟨u, by rw [hrep]; exact List.mem_append_left _ hu', hub, hx⟩
    · simp only [Listed, hrep, List.mem_append, List.mem_singleton]
      constructor
      · rintro ⟨u, hu | rfl, hub⟩
        · exact .inl ⟨u, hu, hub⟩
        · rw [hci] at hub; exact .inr (Option.some.inj hub).symm
      · rintro (⟨u, hu, hub⟩ | rfl)
        · exact ⟨u, .inl hu, hub⟩
        · exact ⟨_, .inr rfl, hci⟩

theorem Unique.invalidateDirectoryEntry {d d' : DirectoryCache G n} (h : d.Unique) {a}
    (hd : d.invalidateDirectoryEntry a = .ok d') :
    d'.Unique ∧ d'.entryOf = Function.update d.entryOf a none ∧ d.Listed a ∧
      ∀ b, d'.Listed b ↔ d.Listed b ∧ b ≠ a := by
  unfold DirectoryCache.invalidateDirectoryEntry at hd
  cases hf : d.findReplaced a with
  | none => simp [hf] at hd
  | some k =>
    simp only [hf, Except.ok.injEq] at hd
    subst hd
    obtain ⟨s, hs, hsa⟩ := findReplaced_some hf
    have hsm : s ∈ d.replaced := List.mem_of_getElem? hs
    -- the other slots of the list are the ones with another address
    have hmem : ∀ u, u.address ≠ none →
        (u ∈ d.replaced.eraseIdx k ↔ u ∈ d.replaced ∧ u.address ≠ some a) := by
      intro u _
      rw [List.mem_eraseIdx_iff_getElem?]
      constructor
      · intro ⟨i, hik, hi⟩
        refine ⟨List.mem_of_getElem? hi, fun hua => hik ?_⟩
        have hlt : i < (d.replaced.map (·.address)).length := by
          rw [List.length_map]; exact (List.getElem?_eq_some_iff.mp hi).1
        refine (List.getElem?_inj hlt h.listed).mp ?_
        rw [List.getElem?_map, List.getElem?_map, hi, hs, Option.map_some, Option.map_some,
          hua, hsa]
      · intro ⟨hu, hua⟩
        obtain ⟨i, hi⟩ := List.getElem?_of_mem hu
        refine ⟨i, ?_, hi⟩
        rintro rfl
        rw [hs] at hi; cases hi; exact hua hsa
    have hsub : d.replaced.eraseIdx k ⊆ d.replaced := List.eraseIdx_subset
    have hu : ({ d with replaced := d.replaced.eraseIdx k } : DirectoryCache G n).Unique :=
      ⟨h.ways, h.home, h.listed.sublist ((List.eraseIdx_sublist _ _).map _),
        fun t i u b hu => h.apart t i u b (hsub hu), fun u b i hu => h.full u b i (hsub hu)⟩
    refine ⟨hu, funext fun b => Option.ext fun x => ?_, ⟨s, hsm, hsa⟩, fun b => ?_⟩
    · rw [hu.entryOf_iff, Function.update_apply]
      by_cases hb : b = a
      · subst hb
        rw [if_pos rfl]
        constructor
        · rintro (⟨t, i, hi, -⟩ | ⟨u, hu', hub, -⟩)
          · exact absurd hsa (h.apart t i s b hsm hi)
          · exact absurd hub ((hmem u (by rw [hub]; simp)).mp hu').2
        · intro hx; cases hx
      · rw [if_neg hb, h.entryOf_iff]
        refine or_congr Iff.rfl ⟨?_, ?_⟩
        · intro ⟨u, hu', hub, hx⟩
          exact ⟨u, hsub hu', hub, hx⟩
        · intro ⟨u, hu', hub, hx⟩
          refine ⟨u, (hmem u (by rw [hub]; simp)).mpr ⟨hu', ?_⟩, hub, hx⟩
          rw [hub]; exact fun he => hb (Option.some.inj he)
    · constructor
      · intro ⟨u, hu', hub⟩
        have := (hmem u (by rw [hub]; simp)).mp hu'
        exact ⟨⟨u, this.1, hub⟩, by rintro rfl; exact this.2 hub⟩
      · intro ⟨⟨u, hu', hub⟩, hb⟩
        refine ⟨u, (hmem u (by rw [hub]; simp)).mpr ⟨hu', ?_⟩, hub⟩
        rw [hub]; exact fun he => hb (Option.some.inj he)

end DirectoryCache
end Sniper.Directory.SetArray
