import Mathlib.Data.List.TakeWhile
import Sniper.Config.Locations

/-! # The lookup law

What a lookup returns, from the writes to its path: the latest override of the index after the
latest default, and otherwise that default. `hasKey` without an index also accepts a name that
has only overrides, and the lookup then follows a missing entry.
-/
namespace Sniper.Configuration
open Lib

variable {D : Type*}

/-! ## Writes -/

/-- The path, index and value that a call writes. -/
def Call.write? : Call D → Option (Text × UInt64 × Value D)
  | .addKey path value index => some (path, index, value)
  | .set path value => some (path, noIndex, value)
  | _ => none

/-- The index and value of a call that writes to a path. -/
def Call.writeTo? (path : Text) (call : Call D) : Option (UInt64 × Value D) :=
  match call.write? with
  | some (path', w) => if SamePath false path' path then some w else none
  | none => none

/-- The writes to a path, latest first. -/
def writes (path : Text) (calls : List (Call D)) : List (UInt64 × Value D) :=
  (calls.filterMap (·.writeTo? path)).reverse

/-- The latest value written without an index. -/
def lastDefault (ws : List (UInt64 × Value D)) : Option (Value D) :=
  (ws.find? (·.1 = noIndex)).map (·.2)

/-- The latest value written at an index after the latest one without an index. -/
def lastOverride (index : UInt64) (ws : List (UInt64 × Value D)) : Option (Value D) :=
  ((ws.takeWhile (·.1 ≠ noIndex)).find? (·.1 = index)).map (·.2)

/-- The value that a lookup has to return. -/
def latest (index : UInt64) (ws : List (UInt64 × Value D)) : Option (Value D) :=
  (lastOverride index ws).or (lastDefault ws)

/-! ## Slots and writes -/

section Slots
variable (castDouble : D → Text)

structure Holds (ws : List (UInt64 × Value D)) (slot : Slot) : Prop where
  default : slot.default.map (·.m_value) = (lastDefault ws).map (·.lexicalCast castDouble)
  override : ∀ index, index ≠ noIndex → (slot.override index).map (·.m_value) =
    (lastOverride index ws).map (·.lexicalCast castDouble)
  overrides : slot.overrides.isSome ↔ ∃ w ∈ ws.head?, w.1 ≠ noIndex

variable {castDouble}

theorem Holds.empty : Holds castDouble [] .empty := by
  refine ⟨rfl, fun index h => rfl, ?_⟩
  simp [Slot.empty]

theorem toNat_succ {index} (h : index ≠ noIndex) :
    (index + 1).toNat = index.toNat + 1 := by
  have hlt := index.toNat_lt
  have hne : index.toNat ≠ 2 ^ 64 - 1 := fun he => h (UInt64.toNat_inj.mp he)
  simp
  omega

theorem Slot.length_overrideArray {slot : Slot} {index : UInt64} (h : index ≠ noIndex) :
    index.toNat < (slot.overrideArray index).length := by
  have hsucc := toNat_succ h
  unfold overrideArray
  cases slot.overrides with
  | none => simp [Section.resize, hsucc]
  | some arr =>
    dsimp only
    split
    · simp [Section.resize, hsucc]
      omega
    · simp
      omega

theorem Slot.getElem?_overrideArray {slot : Slot} {index i : UInt64} (h : index ≠ noIndex)
    (hi : i ≠ noIndex) (hne : i ≠ index) :
    (slot.overrideArray index)[i.toNat]?.join = slot.override i := by
  have hnat : index.toNat ≠ i.toNat := fun he => hne (UInt64.toNat_inj.mp he.symm)
  have hgrow : ∀ arr : List (Option Key), arr.length ≤ index.toNat →
      (Section.resize (index + 1) arr)[i.toNat]?.join = arr[i.toNat]?.join := by
    intro arr hlen
    unfold Section.resize
    rw [toNat_succ h, List.take_of_length_le (by omega)]
    by_cases hlt : i.toNat < arr.length
    · rw [List.getElem?_append_left hlt]
    · rw [List.getElem?_append_right (by omega), List.getElem?_replicate,
        List.getElem?_eq_none (by omega)]
      split <;> rfl
  have hshort : ∀ arr : List (Option Key), arr[i.toNat]?.join =
      if arr.length ≥ (i + 1).toNat then arr[i.toNat]?.join else none := by
    intro arr
    rw [toNat_succ hi]
    split
    · rfl
    · rw [List.getElem?_eq_none (by omega)]
      rfl
  unfold overrideArray override
  cases slot.overrides with
  | none => exact hgrow [] (Nat.zero_le _)
  | some arr =>
    dsimp only
    rw [← hshort]
    split
    · next hlen => exact hgrow arr (by rw [toNat_succ h] at hlen; omega)
    · rw [List.getElem?_set_ne hnat]

theorem Slot.override_addKey {slot : Slot} {index i} (key : Key) (h : index ≠ noIndex)
    (hi : i ≠ noIndex) :
    (slot.addKey key index).override i = if i = index then some key else slot.override i := by
  have hlen := slot.length_overrideArray h
  have hset : (slot.addKey key index).overrides =
      some ((slot.overrideArray index).set index.toNat (some key)) := by
    simp [addKey, h]
  rw [override, hset]
  dsimp only
  rw [List.length_set, toNat_succ hi]
  split_ifs with hge heq heq
  · rw [heq, List.getElem?_set_self hlen]
    rfl
  · rw [List.getElem?_set_ne fun he => heq (UInt64.toNat_inj.mp he.symm)]
    exact slot.getElem?_overrideArray h hi heq
  · rw [heq] at hge
    omega
  · rw [← slot.getElem?_overrideArray h hi heq, List.getElem?_eq_none (by omega)]
    rfl

theorem Holds.addKey {ws} {slot : Slot} (h : Holds castDouble ws slot) (name : Text)
    (value : Value D) (index : UInt64) :
    Holds castDouble ((index, value) :: ws)
      (slot.addKey ⟨name, value.lexicalCast castDouble⟩ index) := by
  by_cases hindex : index = noIndex
  · subst hindex
    refine ⟨by simp [Slot.addKey, lastDefault], fun i hi => ?_, by simp [Slot.addKey]⟩
    simp [Slot.addKey, Slot.override, lastOverride]
  · refine ⟨?_, fun i hi => ?_, by simp [Slot.addKey, hindex]⟩
    · have hdefault : (slot.addKey ⟨name, value.lexicalCast castDouble⟩ index).default =
          slot.default := by simp [Slot.addKey, hindex]
      rw [hdefault, h.default, lastDefault, lastDefault,
        List.find?_cons_of_neg (by simpa using hindex)]
    · rw [Slot.override_addKey _ hindex hi, lastOverride, List.takeWhile_cons_of_pos (by simpa)]
      split
      · next heq => simp [heq]
      · next heq =>
        rw [List.find?_cons_of_neg (by simpa using Ne.symm heq)]
        exact h.override i hi

end Slots

/-! ## Accesses -/

theorem Acts.of_unchanged {α : Type} {f : Section → Except Fault (α × Section)} {es : List Text}
    {n : Text} {r : Slot → Except Fault α} (hresult : ∀ s, (·.1) <$> f s = r (s.slotAt es n))
    (heffect : ∀ s a s', f s = .ok (a, s') → ∀ es n, s'.slotAt es n = s.slotAt es n) :
    Acts f es n r id := by
  refine ⟨hresult, fun s a s' h es' n' => ?_⟩
  rw [heffect s a s' h]
  split
  · next heq =>
    obtain ⟨rfl, rfl⟩ := heq
    rfl
  · rfl

namespace Config
variable {c c' : Config}

theorem slot_congr {path path'} (h : SamePath c.m_case_sensitive path path') :
    c.slot path = c.slot path' := by
  unfold slot
  rw [(location_eq_iff c.m_case_sensitive path path').mpr h]

theorem Changes.unchanged {path} (h : Changes path id c c') (path' : Text) :
    c'.slot path' = c.slot path' := by
  rw [h.slots]
  split
  · next hsame => exact (slot_congr hsame).symm
  · rfl

theorem hasKey_slot (c : Config) (path : Text) (index : UInt64) :
    (·.1) <$> c.hasKey path index = .ok ((c.slot path).hasKey index) ∧
      ∀ a c', c.hasKey path index = .ok (a, c') → Changes path id c c' := by
  refine atKey_acts (r := fun slot => .ok (slot.hasKey index)) (.of_unchanged ?_ ?_)
  · intro s
    exact congrArg Except.ok (s.hasKey_slot ..)
  · intro s a s' h es n
    cases h
    rfl

/-- What a lookup returns, given what its slot holds. -/
def found (path iname : Text) (index : UInt64) (slot : Slot) : Except Fault Key :=
  if slot.hasKey index then
    match slot.find? index with
    | some key => .ok key
    | none => .error (.missingKey iname)
  else .error (notFound path index)

theorem getKey_slot (c : Config) (path : Text) (index : UInt64) :
    (·.1) <$> c.getKey path index =
        found path (location c.m_case_sensitive path).2 index (c.slot path) ∧
      ∀ a c', c.getKey path index = .ok (a, c') → Changes path id c c' := by
  refine atKey_acts (r := found path (location c.m_case_sensitive path).2 index)
    (.of_unchanged ?_ ?_)
  · intro s
    rw [found, s.hasKey_slot, s.getKey_slot]
    have hslot : s.slotAt [] (location c.m_case_sensitive path).2 =
        s.slot (Section.iname c.m_case_sensitive ((pathElements path).getLastD [])) := rfl
    have hiname : (location c.m_case_sensitive path).2 =
        Section.iname c.m_case_sensitive ((pathElements path).getLastD []) := rfl
    rw [hslot, hiname]
    cases ((s.slot (Section.iname c.m_case_sensitive ((pathElements path).getLastD []))).hasKey
        index) with
    | false => rfl
    | true =>
      cases (s.slot (Section.iname c.m_case_sensitive ((pathElements path).getLastD []))).find?
          index with
      | some key | none => rfl
  · intro s a s' h es n
    split at h
    · cases h
    · obtain ⟨key, -, h⟩ := Simulation.of_bind_ok h
      cases h
      rfl

theorem addKey_slot (castDouble : D → Text) (c : Config) (path : Text) (value : Value D)
    (index : UInt64) :
    (·.1) <$> c.addKey castDouble path value index = .ok () ∧
      ∀ a c', c.addKey castDouble path value index = .ok (a, c') →
        Changes path (·.addKey ⟨(pathElements path).getLastD [], value.lexicalCast castDouble⟩
          index) c c' := by
  refine atKey_acts (r := fun _ => .ok ()) ⟨fun s => rfl, ?_⟩
  intro s a s' h es n
  cases h
  cases es with
  | cons e es =>
    exact Section.slotAt_congr (Section.subSections_addKey ..) (by simp) n
  | nil =>
    by_cases hn : n = (location c.m_case_sensitive path).2
    · subst hn
      rw [if_pos ⟨rfl, rfl⟩]
      exact Section.slot_addKey_self ..
    · rw [if_neg (by simpa using hn)]
      exact Section.slot_addKey_of_ne _ hn ..

theorem getSection_unsafe_slots (c : Config) (path : Text)
    {f : Section → Except Fault (Unit × Section)} (hresult : ∀ s, (·.1) <$> f s = .ok ())
    (heffect : ∀ s a s', f s = .ok (a, s') → ∀ es n, s'.slotAt es n = s.slotAt es n) :
    (·.1) <$> c.getSection_unsafe path f = .ok () ∧ ∀ a c', c.getSection_unsafe path f = .ok (a, c') →
      c'.m_case_sensitive = c.m_case_sensitive ∧ ∀ path', c'.slot path' = c.slot path' := by
  have hacts : ∀ n, Acts f [] n (fun _ => .ok ()) id := fun n => .of_unchanged hresult heffect
  have hdescend := fun n => (hacts n).descend c.m_case_sensitive
    (if isLeaf path then [path] else pathElements path)
  refine ⟨getSection_unsafe_result (hdescend []), fun a c' hrun => ?_⟩
  obtain ⟨root, hf, rfl⟩ := getSection_unsafe_ok hrun
  refine ⟨rfl, fun path' => ?_⟩
  refine ((hdescend (location c.m_case_sensitive path').2).effect _ _ _ hf _ _).trans ?_
  by_cases heq : (location c.m_case_sensitive path').1 =
      List.map (Section.iname c.m_case_sensitive)
        (if isLeaf path then [path] else pathElements path)
  · rw [if_pos ⟨heq, rfl⟩, ← heq]
    rfl
  · rw [if_neg fun h => heq h.1]
    rfl

end Config

/-! ## Runs -/

section Runs
variable (castDouble : D → Text)

theorem exec_slot {c c' call} (hcase : c.m_case_sensitive = false)
    (h : exec castDouble c call = .ok c') :
    c'.m_case_sensitive = false ∧ ∀ path,
      match call.writeTo? path with
      | some (index, value) => ∃ name,
        c'.slot path = (c.slot path).addKey ⟨name, value.lexicalCast castDouble⟩ index
      | none => c'.slot path = c.slot path := by
  have hwrite : ∀ path value index, (·.2) <$> c.addKey castDouble path value index = .ok c' →
      c'.m_case_sensitive = false ∧ ∀ path',
        if SamePath false path path' then ∃ name,
          c'.slot path' = (c.slot path').addKey ⟨name, value.lexicalCast castDouble⟩ index
        else c'.slot path' = c.slot path' := by
    intro path value index h
    obtain ⟨⟨a, c₁⟩, hrun, rfl⟩ := Simulation.of_map_ok h
    have hchanges := (c.addKey_slot castDouble path value index).2 _ _ hrun
    refine ⟨hchanges.caseSensitive.trans hcase, fun path' => ?_⟩
    rw [hchanges.slots, hcase]
    split_ifs with hsame hsame' hsame'
    · exact ⟨_, by rw [Config.slot_congr (hcase ▸ hsame)]⟩
    · exact absurd hsame.symm hsame'
    · exact absurd hsame'.symm hsame
    · rfl
  have hread : ∀ path, Config.Changes path id c c' → c'.m_case_sensitive = false ∧
      ∀ path', c'.slot path' = c.slot path' :=
    fun path hchanges => ⟨hchanges.caseSensitive.trans hcase, hchanges.unchanged⟩
  cases call with
  | addKey path value index =>
    obtain ⟨hflag, hslots⟩ := hwrite path value index h
    refine ⟨hflag, fun path' => ?_⟩
    have hslot := hslots path'
    have hto : (Call.addKey path value index).writeTo? path' =
        if SamePath false path path' then some (index, value) else none := rfl
    rw [hto]
    split_ifs at hslot ⊢ <;> exact hslot
  | set path value =>
    obtain ⟨hflag, hslots⟩ := hwrite path value noIndex h
    refine ⟨hflag, fun path' => ?_⟩
    have hslot := hslots path'
    have hto : (Call.set path value).writeTo? path' =
        if SamePath false path path' then some (noIndex, value) else none := rfl
    rw [hto]
    split_ifs at hslot ⊢ <;> exact hslot
  | hasKey path index =>
    obtain ⟨⟨a, c₁⟩, hrun, rfl⟩ := Simulation.of_map_ok h
    exact hread path ((c.hasKey_slot path index).2 _ _ hrun)
  | getKey path index =>
    obtain ⟨⟨a, c₁⟩, hrun, rfl⟩ := Simulation.of_map_ok h
    exact hread path ((c.getKey_slot path index).2 _ _ hrun)
  | getSection path =>
    obtain ⟨⟨a, c₁⟩, hrun, rfl⟩ := Simulation.of_map_ok h
    have hslots := Config.getSection_unsafe_slots c path
      (f := fun s => .ok ((), s)) (fun s => rfl) (fun s a s' h es n => by cases h; rfl)
    obtain ⟨hflag, hsame⟩ := hslots.2 _ _ hrun
    exact ⟨hflag.trans hcase, hsame⟩
  | addSection path =>
    obtain ⟨⟨a, c₁⟩, hrun, rfl⟩ := Simulation.of_map_ok h
    have hslots := Config.getSection_unsafe_slots c (splitPath path).1
      (f := fun s => .ok ((), s.addSubsection c.m_case_sensitive (splitPath path).2))
      (fun s => rfl) (fun s a s' h es n => by
        cases h
        exact Section.slotAt_addSubsection ..)
    obtain ⟨hflag, hsame⟩ := hslots.2 _ _ hrun
    exact ⟨hflag.trans hcase, hsame⟩

variable {castDouble}

theorem Holds.exec {c c' call ws path} (hcase : c.m_case_sensitive = false)
    (h : exec castDouble c call = .ok c') (hholds : Holds castDouble ws (c.slot path)) :
    Holds castDouble ((call.writeTo? path).toList ++ ws) (c'.slot path) := by
  have hslot := (exec_slot castDouble hcase h).2 path
  cases hw : call.writeTo? path with
  | none =>
    rw [hw] at hslot
    rw [hslot]
    exact hholds
  | some w =>
    obtain ⟨index, value⟩ := w
    rw [hw] at hslot
    obtain ⟨name, hslot⟩ := hslot
    rw [hslot]
    exact hholds.addKey name value index

theorem Holds.run {calls c} (h : run castDouble calls = .ok c) (path : Text) :
    c.m_case_sensitive = false ∧ Holds castDouble (writes path calls) (c.slot path) := by
  have hruns : ∀ (calls : List (Call D)) (c₀ : Config) (ws : List (UInt64 × Value D)),
      c₀.m_case_sensitive = false → Holds castDouble ws (c₀.slot path) →
      calls.foldlM (Configuration.exec castDouble) c₀ = .ok c →
      c.m_case_sensitive = false ∧ Holds castDouble (writes path calls ++ ws) (c.slot path) := by
    intro calls
    induction calls with
    | nil =>
      intro c₀ ws hcase hholds hrun
      cases hrun
      exact ⟨hcase, hholds⟩
    | cons call calls ih =>
      intro c₀ ws hcase hholds hrun
      obtain ⟨c₁, hexec, hrun⟩ := Simulation.of_bind_ok hrun
      have hnext := ih c₁ _ (exec_slot castDouble hcase hexec).1 (hholds.exec hcase hexec) hrun
      have hwrites : writes path (call :: calls) =
          writes path calls ++ (call.writeTo? path).toList := by
        unfold writes
        rw [List.filterMap_cons]
        cases call.writeTo? path with
        | none | some w => simp
      rw [hwrites, List.append_assoc]
      exact hnext
  have hempty : (Config.new false).slot path = .empty := Section.slotAt_new ..
  have hrun := hruns calls (.new false) [] rfl (hempty ▸ Holds.empty) h
  rwa [List.append_nil] at hrun

end Runs

/-! ## The law -/

section Law
variable (castDouble : D → Text)

/-- The law for lookups of one path and index, given the writes to the path. -/
structure Lawful (c : Config) (ws : List (UInt64 × Value D)) (path : Text) (index : UInt64) :
    Prop where
  /-- `hasKey` holds exactly when `getKey` returns. -/
  has : (·.1) <$> c.hasKey path index = .ok true ↔ ∃ found, c.getKey path index = .ok found
  /-- `getKey` returns the value that the writes leave. -/
  value : ((·.1.m_value) <$> c.getKey path index).toOption =
    (latest index ws).map (·.lexicalCast castDouble)
  /-- Calls that do not write to the path leave both as they are. -/
  apart : ∀ (call : Call D) c', exec castDouble c call = .ok c' → call.writeTo? path = none →
    (·.1) <$> c'.hasKey path index = (·.1) <$> c.hasKey path index ∧
      (·.1) <$> c'.getKey path index = (·.1) <$> c.getKey path index

variable {castDouble}

theorem latest_noIndex (ws : List (UInt64 × Value D)) : latest noIndex ws = lastDefault ws := by
  have hnone : lastOverride noIndex ws = none := by
    unfold lastOverride
    rw [Option.map_eq_none_iff, List.find?_eq_none]
    intro w hw
    have hne := List.mem_takeWhile_imp hw
    simpa using hne
  rw [latest, hnone, Option.none_or]

theorem Holds.find? {ws slot} (h : Holds castDouble ws slot) (index : UInt64) :
    (slot.find? index).map (·.m_value) = (latest index ws).map (·.lexicalCast castDouble) := by
  unfold Slot.find?
  split
  · next hindex => rw [hindex, latest_noIndex, h.default]
  · next hindex => rw [latest, Option.map_or, Option.map_or, h.override index hindex, h.default]

theorem Slot.hasKey_eq_find? (slot : Slot) (index : UInt64) :
    (slot.hasKey index = true ↔ (slot.find? index).isSome) ↔
      (index = noIndex → slot.overrides.isSome → slot.default.isSome) := by
  unfold hasKey find?
  by_cases hindex : index = noIndex
  · cases slot.default <;> cases slot.overrides <;> simp [hindex]
  · simp [hindex]

theorem Config.getKey_value {c : Config} {path index} :
    ((·.1.m_value) <$> c.getKey path index).toOption =
      if (c.slot path).hasKey index then ((c.slot path).find? index).map (·.m_value) else none := by
  have hget := (c.getKey_slot path index).1
  have hmap : (·.1.m_value) <$> c.getKey path index =
      (·.m_value) <$> (·.1) <$> c.getKey path index := by
    cases c.getKey path index with
    | error e | ok p => rfl
  rw [hmap, hget]
  unfold Config.found
  split
  · cases (c.slot path).find? index with
    | none | some key => rfl
  · rfl

theorem Config.getKey_returns {c : Config} {path index} :
    (∃ found, c.getKey path index = .ok found) ↔
      (c.slot path).hasKey index ∧ ((c.slot path).find? index).isSome := by
  have hget := (c.getKey_slot path index).1
  unfold Config.found at hget
  constructor
  · intro ⟨found, hfound⟩
    rw [hfound] at hget
    split at hget
    · next hhas =>
      cases hfind : (c.slot path).find? index with
      | none =>
        rw [hfind] at hget
        cases hget
      | some key => exact ⟨hhas, rfl⟩
    · cases hget
  · intro ⟨hhas, hfind⟩
    obtain ⟨key, hkey⟩ := Option.isSome_iff_exists.mp hfind
    rw [if_pos hhas, hkey] at hget
    obtain ⟨p, hp, -⟩ := Simulation.of_map_ok hget
    exact ⟨p, hp⟩

theorem Slot.hasKey_of_find? {slot : Slot} {index} (h : (slot.find? index).isSome) :
    slot.hasKey index := by
  unfold find? at h
  unfold hasKey
  split at h <;> simp_all

theorem Holds.overrides_only {ws slot} (h : Holds castDouble ws slot) :
    (slot.overrides.isSome → slot.default.isSome) ↔
      (ws ≠ [] → ∃ w ∈ ws, w.1 = noIndex) := by
  have hdefault : slot.default.isSome ↔ ∃ w ∈ ws, w.1 = noIndex := by
    have hmap := congrArg Option.isSome h.default
    rw [Option.isSome_map, Option.isSome_map, lastDefault, Option.isSome_map] at hmap
    rw [hmap, List.find?_isSome]
    simp
  rw [hdefault, h.overrides]
  cases ws with
  | nil => simp
  | cons w ws =>
    by_cases hw : w.1 = noIndex
    · simp [hw]
    · simp [hw]

/-- The law holds after a run exactly where a lookup has an index, or the path has been
written without one, or not at all. -/
theorem lookup_lawful (castDouble : D → Text) (calls : List (Call D)) (c : Config)
    (h : run castDouble calls = .ok c) (path : Text) (index : UInt64) :
    Lawful castDouble c (writes path calls) path index ↔
      (index = noIndex → writes path calls ≠ [] → ∃ w ∈ writes path calls, w.1 = noIndex) := by
  obtain ⟨hcase, hholds⟩ := Holds.run h path
  have hhas : (·.1) <$> c.hasKey path index = .ok true ↔ (c.slot path).hasKey index = true := by
    rw [(c.hasKey_slot path index).1, Except.ok.injEq]
  have hreturns : (∃ found, c.getKey path index = .ok found) ↔
      ((c.slot path).find? index).isSome :=
    Config.getKey_returns.trans ⟨(·.2), fun h => ⟨Slot.hasKey_of_find? h, h⟩⟩
  have hexact : ((·.1) <$> c.hasKey path index = .ok true ↔
      ∃ found, c.getKey path index = .ok found) ↔
      (index = noIndex → writes path calls ≠ [] → ∃ w ∈ writes path calls, w.1 = noIndex) := by
    rw [hhas, hreturns, Slot.hasKey_eq_find?, hholds.overrides_only]
  refine ⟨fun h => hexact.mp h.has, fun hcond => ⟨hexact.mpr hcond, ?_, ?_⟩⟩
  · rw [Config.getKey_value, ← hholds.find?]
    split
    · rfl
    · next hno =>
      have hnone : ¬ ((c.slot path).find? index).isSome := fun h => hno (Slot.hasKey_of_find? h)
      rw [Option.not_isSome_iff_eq_none.mp hnone]
      rfl
  · intro call c' hexec hwrite
    obtain ⟨hcase', hslots⟩ := exec_slot castDouble hcase hexec
    have hslot := hslots path
    rw [hwrite] at hslot
    constructor
    · rw [(c'.hasKey_slot path index).1, (c.hasKey_slot path index).1, hslot]
    · rw [(c'.getKey_slot path index).1, (c.getKey_slot path index).1, hslot, hcase, hcase']

/-- A default, an override, and a lookup at its index and at another one. -/
theorem lookup_lawful_override : ∃ c,
    run (D := Empty) nofun [.set ['a', '/', 'B'] (.int 1), .addKey ['A', '/', 'b'] (.int 2) 3] =
        .ok c ∧
      (writes ['a', '/', 'b'] [.set ['a', '/', 'B'] (.int 1),
        .addKey ['A', '/', 'b'] (.int (D := Empty) 2) 3] ≠ []) ∧
      Lawful (D := Empty) nofun c (writes ['a', '/', 'b'] [.set ['a', '/', 'B'] (.int 1),
        .addKey ['A', '/', 'b'] (.int 2) 3]) ['a', '/', 'b'] 3 := by
  refine ⟨_, rfl, by decide, ?_⟩
  exact (lookup_lawful _ _ _ rfl ['a', '/', 'b'] 3).mpr fun h => absurd h (by decide)

/-- One override and no default: the key is said to be there, and the lookup follows a missing
entry. -/
theorem override_only_unlawful : ∃ c,
    run (D := Empty) nofun [.addKey ['a', '/', 'b'] (.string ['x']) 0] = .ok c ∧
      (·.1) <$> c.hasKey ['a', '/', 'b'] noIndex = .ok true ∧
      (·.1) <$> c.getKey ['a', '/', 'b'] noIndex = .error (.missingKey ['b']) ∧
      ¬ Lawful (D := Empty) nofun c
        (writes ['a', '/', 'b'] [.addKey ['a', '/', 'b'] (.string ['x']) 0])
        ['a', '/', 'b'] noIndex := by
  refine ⟨_, rfl, by rfl, by rfl, fun h => ?_⟩
  obtain ⟨found, hfound⟩ := h.has.mp rfl
  cases hfound

end Law
end Sniper.Configuration
