import Sniper.Config.Contents

/-! # Paths as locations

Splitting a path at its last `/` and walking the elements of what stands before it leads to the
location that the elements of the path name. Two paths have one location when they are equal up
to case.
-/
namespace Sniper.Configuration
open Lib

/-! ## Splitting -/

theorem pathElements_of_isLeaf {path} (h : isLeaf path) : pathElements path = [path] := by
  unfold isLeaf at h
  exact List.splitOn_eq_singleton (by simpa using h)

theorem exists_rfind {path} (h : ¬ isLeaf path) :
    ∃ base name, path = base ++ '/' :: name ∧ '/' ∉ name ∧ rfind path = some base.length := by
  unfold isLeaf at h
  have hmem : '/' ∈ path.reverse := by simpa using h
  obtain ⟨as, bs, hrev, has⟩ := List.eq_append_cons_of_mem hmem
  have hpath : path = bs.reverse ++ '/' :: as.reverse := by
    simpa using congrArg List.reverse hrev
  refine ⟨bs.reverse, as.reverse, hpath, by simpa using has, ?_⟩
  have hidx : path.reverse.idxOf? '/' = some as.length := by
    rw [hrev, List.idxOf?, List.findIdx?_append]
    have hnone : List.findIdx? (· == '/') as = none := by
      rw [List.findIdx?_eq_none_iff]
      intro c hc
      exact beq_false_of_ne fun h => has (h ▸ hc)
    simp [hnone, List.findIdx?_cons]
  unfold rfind
  rw [hidx, hpath]
  simp

theorem splitPath_append (base : Text) {name : Text} (h : '/' ∉ name) :
    splitPath (base ++ '/' :: name) = (base, name) := by
  have hleaf : ¬ isLeaf (base ++ '/' :: name) := by simp [isLeaf]
  obtain ⟨base', name', hpath, hname', hrfind⟩ := exists_rfind hleaf
  have hsplit : base.splitOn '/' ++ [name] = base'.splitOn '/' ++ [name'] := by
    rw [← List.splitOn_eq_singleton h, ← List.splitOn_eq_singleton hname',
      ← List.splitOn_append_cons_self, ← List.splitOn_append_cons_self, hpath]
  have hname : name = name' := by simpa using (List.append_inj' hsplit rfl).2
  subst hname
  have hbase : base = base' := List.append_cancel_right hpath
  subst hbase
  simp [splitPath, hrfind, pathElements, List.splitOn_append_cons_self,
    List.splitOn_eq_singleton h]

theorem baseElements {path} (h : ¬ isLeaf path) :
    (if isLeaf (splitPath path).1 then [(splitPath path).1] else pathElements (splitPath path).1) =
      (pathElements path).dropLast ∧
    (splitPath path).2 = (pathElements path).getLastD [] := by
  obtain ⟨base, name, rfl, hname, -⟩ := exists_rfind h
  rw [splitPath_append base hname]
  have hsplit : pathElements (base ++ '/' :: name) = pathElements base ++ [name] := by
    rw [pathElements, List.splitOn_append_cons_self, List.splitOn_eq_singleton hname]
    rfl
  rw [hsplit, List.dropLast_concat]
  refine ⟨?_, by simp⟩
  split
  · next hleaf => exact (pathElements_of_isLeaf hleaf).symm
  · rfl

/-! ## Case -/

theorem toLower_eq_slash (c : Char) : c.toLower = '/' ↔ c = '/' := by
  unfold Char.toLower
  split
  · next h =>
    constructor
    · intro hc
      have hval := congrArg Char.val hc
      have hge : 'A'.val ≤ c.val := h.1
      have hle : c.val ≤ 'Z'.val := h.2
      have := congrArg UInt32.toNat hval
      simp only [UInt32.le_iff_toNat_le] at hge hle
      simp at this hge hle
      omega
    · intro hc
      subst hc
      exact absurd h (by decide)
  · rfl

theorem iname_slash (caseSensitive : Bool) (path : Text) :
    pathElements (Section.iname caseSensitive path) =
      (pathElements path).map (Section.iname caseSensitive) := by
  unfold Section.iname
  cases caseSensitive with
  | true => simp
  | false =>
    simp only [Bool.false_eq_true, ↓reduceIte]
    unfold pathElements
    induction path with
    | nil => simp
    | cons c path ih =>
      simp only [List.map_cons, List.splitOn_cons_eq_if_modifyHead, ih]
      by_cases hc : c = '/'
      · simp [hc]
      · have hlower : c.toLower ≠ '/' := fun h => hc ((toLower_eq_slash c).mp h)
        simp only [beq_iff_eq, hc, hlower, ↓reduceIte]
        cases path.splitOn '/' with
        | nil | cons e es => rfl

/-! ## Locations -/

/-- The canonical names of the sections on the way to a key, and of the key. -/
def location (caseSensitive : Bool) (path : Text) : List Text × Text :=
  ((pathElements path).dropLast.map (Section.iname caseSensitive),
    Section.iname caseSensitive ((pathElements path).getLastD []))

/-- Two paths that differ in case only. -/
def SamePath (caseSensitive : Bool) (path path' : Text) : Prop :=
  Section.iname caseSensitive path = Section.iname caseSensitive path'

instance (caseSensitive : Bool) (path path' : Text) :
    Decidable (SamePath caseSensitive path path') := inferInstanceAs (Decidable (_ = _))

theorem location_eq_iff (caseSensitive : Bool) (path path' : Text) :
    location caseSensitive path = location caseSensitive path' ↔
      SamePath caseSensitive path path' := by
  have hsplit : ∀ path : Text, (pathElements path).map (Section.iname caseSensitive) =
      (location caseSensitive path).1 ++ [(location caseSensitive path).2] := by
    intro path
    have hne : pathElements path ≠ [] := List.splitOn_ne_nil '/' path
    conv_lhs => rw [← List.dropLast_concat_getLast hne]
    rw [List.map_append, location, List.getLastD_eq_getLast?, List.getLast?_eq_some_getLast hne]
    rfl
  constructor
  · intro h
    have helements : pathElements (Section.iname caseSensitive path) =
        pathElements (Section.iname caseSensitive path') := by
      rw [iname_slash, iname_slash, hsplit, hsplit, h]
    have hjoin := congrArg (List.intercalate ['/']) helements
    simp only [pathElements, List.intercalate_splitOn] at hjoin
    exact hjoin
  · intro h
    have hmap := hsplit path
    rw [← iname_slash, h, iname_slash, hsplit path'] at hmap
    obtain ⟨h₁, h₂⟩ := List.append_inj' hmap rfl
    exact (Prod.ext h₁ (by simpa using h₂)).symm

/-! ## The configuration as a map -/

namespace Config

/-- What the configuration holds under a path. -/
def slot (c : Config) (path : Text) : Slot :=
  c.m_root.slotAt (location c.m_case_sensitive path).1 (location c.m_case_sensitive path).2

/-- The change that an access makes: `g` on the slot of one path. -/
structure Changes (path : Text) (g : Slot → Slot) (c c' : Config) : Prop where
  caseSensitive : c'.m_case_sensitive = c.m_case_sensitive
  slots : ∀ path', c'.slot path' =
    if SamePath c.m_case_sensitive path' path then g (c.slot path) else c.slot path'

variable {α : Type}

theorem Changes.of_acts {f : Section → Except Fault (α × Section)} {c : Config} {path : Text}
    {r : Slot → Except Fault α} {g : Slot → Slot}
    (h : Acts f (location c.m_case_sensitive path).1 (location c.m_case_sensitive path).2 r g)
    {a : α} {root : Section} (hf : f c.m_root = .ok (a, root)) :
    Changes path g c { c with m_root := root } := by
  refine ⟨rfl, fun path' => ?_⟩
  unfold slot
  rw [h.effect _ _ _ hf]
  simp only [← Prod.ext_iff, location_eq_iff]

theorem getSection_unsafe_result {f : Section → Except Fault (α × Section)} {es : List Text}
    {n : Text} {r : Slot → Except Fault α} {g : Slot → Slot} {path : Text} {c : Config}
    (h : Acts (descend c.m_case_sensitive f
      (if isLeaf path then [path] else pathElements path)) es n r g) :
    (·.1) <$> c.getSection_unsafe path f = r (c.m_root.slotAt es n) := by
  rw [← h.result, getSection_unsafe]
  cases descend c.m_case_sensitive f (if isLeaf path then [path] else pathElements path)
    c.m_root with
  | error e | ok p => rfl

theorem getSection_unsafe_ok {f : Section → Except Fault (α × Section)} {path : Text}
    {c c' : Config} {a : α} (h : c.getSection_unsafe path f = .ok (a, c')) :
    ∃ root, descend c.m_case_sensitive f (if isLeaf path then [path] else pathElements path)
      c.m_root = .ok (a, root) ∧ c' = { c with m_root := root } := by
  obtain ⟨⟨a', root⟩, hrun, h⟩ := Simulation.of_bind_ok h
  cases h
  exact ⟨root, hrun, rfl⟩

theorem atKey_acts {f : Text → Section → Except Fault (α × Section)} {path : Text} {c : Config}
    {r : Slot → Except Fault α} {g : Slot → Slot}
    (h : Acts (f ((pathElements path).getLastD [])) [] (location c.m_case_sensitive path).2 r g) :
    (·.1) <$> c.atKey path f = r (c.slot path) ∧
      ∀ a c', c.atKey path f = .ok (a, c') → Changes path g c c' := by
  unfold atKey
  split
  · next hleaf =>
    have hlocation : (location c.m_case_sensitive path).1 = [] := by
      simp [location, pathElements_of_isLeaf hleaf]
    have hname : (pathElements path).getLastD [] = path := by
      simp [pathElements_of_isLeaf hleaf]
    rw [hname, ← hlocation] at h
    constructor
    · rw [slot, ← h.result]
      cases f path c.m_root with
      | error e | ok p => rfl
    · intro a c' hrun
      obtain ⟨⟨a', root⟩, hf, hrun⟩ := Simulation.of_bind_ok hrun
      cases hrun
      exact .of_acts h hf
  · next hleaf =>
    obtain ⟨hbase, hname⟩ := baseElements hleaf
    have hdescend := h.descend c.m_case_sensitive (pathElements path).dropLast
    rw [← hbase] at hdescend
    have hacts : Acts (descend c.m_case_sensitive (f (splitPath path).2)
        (if isLeaf (splitPath path).1 then [(splitPath path).1]
          else pathElements (splitPath path).1))
        (location c.m_case_sensitive path).1 (location c.m_case_sensitive path).2 r g := by
      have hes : (location c.m_case_sensitive path).1 =
          (pathElements path).dropLast.map (Section.iname c.m_case_sensitive) := rfl
      rw [hes, ← hbase]
      exact hdescend
    refine ⟨getSection_unsafe_result hacts, fun a c' hrun => ?_⟩
    obtain ⟨root, hf, rfl⟩ := getSection_unsafe_ok hrun
    exact .of_acts hacts hf

end Config
end Sniper.Configuration
