import Sniper.Tracing.StrideTable

/-! # Clusters of addresses

Every address goes into the bag of the scan once, and a bag that is left at the end is lost. When
none is left, each address is in one cluster and gets its number.
-/
namespace Sniper.Tracing.Clustering
open Lib.SortedMap Lib.Simulation

/-! ### Numbers as text -/

theorem digitValue_digitChar : ∀ d < 16, digitValue d.digitChar = d := by decide

theorem digitChar_ne_x : ∀ d < 16, d.digitChar ≠ 'x' := by decide

theorem readDigits_append (l l' : Text) (number : Nat) :
    readDigits (l ++ l') number = readDigits l' (readDigits l number) :=
  List.foldl_append ..

theorem readDigits_toDigits (number : Nat) : readDigits (Nat.toDigits 16 number) 0 = number := by
  induction number using Nat.strongRecOn with
  | ind number ih =>
    rw [Nat.toDigits_eq_if (by omega)]
    split
    case isTrue hlt => simp [readDigits, digitValue_digitChar number hlt]
    case isFalse hge =>
      have hdigit := digitValue_digitChar (number % 16) (Nat.mod_lt _ (by omega))
      rw [readDigits_append, ih (number / 16) (by omega)]
      simp only [readDigits, List.foldl_cons, List.foldl_nil, hdigit]
      omega

theorem x_not_mem_toDigits (number : Nat) : 'x' ∉ Nat.toDigits 16 number := by
  induction number using Nat.strongRecOn with
  | ind number ih =>
    rw [Nat.toDigits_eq_if (by omega)]
    split
    case isTrue hlt => exact fun h => digitChar_ne_x number hlt (List.mem_singleton.mp h).symm
    case isFalse hge =>
      have hdigit := digitChar_ne_x (number % 16) (Nat.mod_lt _ (by omega))
      rw [List.mem_append, List.mem_singleton, not_or]
      exact ⟨ih (number / 16) (by omega), hdigit.symm⟩

theorem hex_injective : Function.Injective hex := by
  intro a b h
  have hread := congrArg (fun digits => readDigits digits 0) h
  simp only [hex, readDigits_toDigits] at hread
  exact UInt64.toNat_inj.mp hread

theorem readHex_hex (address : UInt64) : readHex (hex address) = value address := by
  rw [readHex.eq_def]
  split
  case h_1 digits heq =>
    have hmem : 'x' ∈ hex address := by simp [heq]
    exact absurd hmem (x_not_mem_toDigits _)
  case h_2 => rw [hex, readDigits_toDigits, value]

theorem diff_nonneg (a b : Text) : 0 ≤ diff a b := by
  rw [diff]
  split <;> omega

/-! ### Recording accesses -/

section Recording
variable {s s' : StrideTable} {texts : List Text} {h : Text}

theorem setStride_spec {order} (hne : order ≠ []) :
    ∃ order', setStride order h = .ok order' ∧ order' ≠ [] ∧
      ∀ a, a ∈ order'.map StrideOrder.address ↔ a = h ∨ a ∈ order.map StrideOrder.address := by
  have hback := List.getLast?_eq_getLast_of_ne_nil hne
  have hsplit := List.dropLast_append_getLast hne
  generalize order.getLast hne = back at hback hsplit
  rw [setStride, hback]
  refine ⟨_, rfl, ?_, fun a => ?_⟩
  · split <;> simp
  · split
    case isTrue heq =>
      rw [← hsplit, List.dropLast_concat]
      simp only [List.map_append, List.map_cons, List.map_nil, List.mem_append,
        List.mem_singleton, heq]
      tauto
    case isFalse =>
      simp only [List.map_append, List.map_cons, List.map_nil, List.mem_append,
        List.mem_singleton]
      tauto

/-- The orders hold the addresses that have been recorded. -/
structure Holds (s : StrideTable) (texts : List Text) : Prop where
  sorted : Sorted s.strideClusterInfo
  keys : ∀ k, k ∈ s.table ↔ k ∈ s.strideClusterInfo.map Prod.fst
  filled : ∀ e ∈ s.strideClusterInfo, e.2 ≠ []
  addresses : ∀ a, (∃ e ∈ s.strideClusterInfo, a ∈ e.2.map StrideOrder.address) ↔ a ∈ texts

theorem Holds.assign {k order} (old : List Text) (hs : Holds s texts) {table}
    (htable : ∀ k', k' ∈ table ↔ k' = k ∨ k' ∈ s.table)
    (hold : ∀ a, (∃ e ∈ s.strideClusterInfo, e.1 = k ∧ a ∈ e.2.map StrideOrder.address) ↔ a ∈ old)
    (hne : order ≠ []) (horder : ∀ a, a ∈ order.map StrideOrder.address ↔ a = h ∨ a ∈ old) :
    Holds ⟨table, assign k order s.strideClusterInfo⟩ (texts ++ [h]) := by
  refine ⟨hs.sorted.assign k order, fun k' => ?_, fun e he => ?_, fun a => ?_⟩
  · rw [htable, hs.keys]
    simp only [List.mem_map, hs.sorted.mem_assign]
    constructor
    · rintro (rfl | ⟨e, he, rfl⟩)
      · exact ⟨_, .inl rfl, rfl⟩
      · by_cases hek : e.1 = k
        · exact ⟨_, .inl rfl, hek.symm⟩
        · exact ⟨e, .inr ⟨he, hek⟩, rfl⟩
    · rintro ⟨e, rfl | ⟨he, -⟩, rfl⟩
      · exact .inl rfl
      · exact .inr ⟨e, he, rfl⟩
  · rcases hs.sorted.mem_assign.mp he with rfl | ⟨he, -⟩
    · exact hne
    · exact hs.filled e he
  · simp only [hs.sorted.mem_assign, List.mem_append, List.mem_singleton, ← hs.addresses]
    constructor
    · rintro ⟨e, rfl | ⟨he, -⟩, ha⟩
      · rcases (horder a).mp ha with rfl | ha
        · exact .inr rfl
        · obtain ⟨e, he, -, ha⟩ := (hold a).mpr ha
          exact .inl ⟨e, he, ha⟩
      · exact .inl ⟨e, he, ha⟩
    · rintro (⟨e, he, ha⟩ | rfl)
      · by_cases hek : e.1 = k
        · exact ⟨_, .inl rfl, (horder a).mpr (.inr ((hold a).mp ⟨e, he, hek, ha⟩))⟩
        · exact ⟨e, .inr ⟨he, hek⟩, ha⟩
      · exact ⟨_, .inl rfl, (horder a).mpr (.inl rfl)⟩

theorem lookupAndUpdate_holds (hs : Holds s texts) (access : UInt64 × UInt64) :
    ∃ s', lookupAndUpdate s access = .ok s' ∧ Holds s' (texts ++ [hex access.2]) := by
  rw [lookupAndUpdate]
  split
  case isTrue hin =>
    obtain ⟨e, he, hkey⟩ := List.mem_map.mp ((hs.keys _).mp hin)
    have hfind : find (hex access.1) s.strideClusterInfo = some e.2 :=
      hs.sorted.find_eq_some_iff.mpr (hkey ▸ he)
    obtain ⟨order, horder, hne, hmem⟩ := setStride_spec (h := hex access.2) (hs.filled e he)
    rw [hfind]
    refine ⟨_, bind_eq_of_ok horder rfl, hs.assign _ (fun k => ?_) (fun a => ?_) hne hmem⟩
    · constructor
      · exact .inr
      · rintro (rfl | hk)
        · exact hin
        · exact hk
    · constructor
      · rintro ⟨e', he', hkey', ha⟩
        rwa [hs.sorted.eq_of_key he' he (hkey'.trans hkey.symm)] at ha
      · exact fun ha => ⟨e, he, hkey, ha⟩
  case isFalse hnotin =>
    refine ⟨_, rfl, hs.assign [] (fun k => List.mem_cons) (fun a => ?_) (by simp) (by simp)⟩
    constructor
    · rintro ⟨e, he, hkey, -⟩
      exact absurd ((hs.keys _).mpr (List.mem_map.mpr ⟨e, he, hkey⟩)) hnotin
    · nofun

theorem record_holds (accesses : List (UInt64 × UInt64)) :
    ∃ s, record accesses = .ok s ∧ Holds s (recorded accesses) := by
  have hrun : ∀ (s : StrideTable) (texts : List Text), Holds s texts →
      ∃ s', accesses.foldlM lookupAndUpdate s = .ok s' ∧ Holds s' (texts ++ recorded accesses) := by
    induction accesses with
    | nil => exact fun s texts hs => ⟨s, rfl, by simpa [recorded] using hs⟩
    | cons access rest ih =>
      intro s texts hs
      obtain ⟨s₁, h₁, hs₁⟩ := lookupAndUpdate_holds hs access
      obtain ⟨s', h', hs'⟩ := ih s₁ _ hs₁
      refine ⟨s', ?_, by simpa [recorded] using hs'⟩
      exact bind_eq_of_ok h₁ h'
  obtain ⟨s, hs, hholds⟩ := hrun ⟨[], []⟩ [] ⟨List.Pairwise.nil, by simp, by simp, by simp⟩
  exact ⟨s, hs, by simpa using hholds⟩

end Recording

/-! ### Collecting addresses -/

section Collecting
variable {m : List (Text × Count)} {f : Text → Int} {a : Text}

/-- The map lists the addresses once each, with their clusters. -/
structure Lists (m : List (Text × Count)) (f : Text → Int) (texts : List Text) : Prop where
  sorted : Sorted m
  addresses : ∀ a, a ∈ m.map Prod.fst ↔ a ∈ texts
  clusters : ∀ e ∈ m, e.2.cluster = f e.1

theorem Lists.assign {texts texts' f'} (h : Lists m f texts) {count} (hcount : count.cluster = f' a)
    (hothers : ∀ e ∈ m, e.1 ≠ a → f' e.1 = f e.1) (htexts : ∀ b, b ∈ texts' ↔ b = a ∨ b ∈ texts) :
    Lists (assign a count m) f' texts' := by
  refine ⟨h.sorted.assign a count, fun b => ?_, fun e he => ?_⟩
  · rw [htexts, ← h.addresses]
    simp only [List.mem_map, h.sorted.mem_assign]
    constructor
    · rintro ⟨e, rfl | ⟨he, -⟩, rfl⟩
      · exact .inl rfl
      · exact .inr ⟨e, he, rfl⟩
    · rintro (rfl | ⟨e, he, rfl⟩)
      · exact ⟨_, .inl rfl, rfl⟩
      · by_cases hea : e.1 = a
        · exact ⟨_, .inl rfl, hea.symm⟩
        · exact ⟨e, .inr ⟨he, hea⟩, rfl⟩
  · rcases h.sorted.mem_assign.mp he with rfl | ⟨he, hea⟩
    · exact hcount
    · rw [hothers e he hea]
      exact h.clusters e he

theorem countAddr_lists {texts} (h : Lists m (fun _ => -1) texts) (a : Text) :
    Lists (countAddr m a) (fun _ => -1) (texts ++ [a]) := by
  have htexts : ∀ b, b ∈ texts ++ [a] ↔ b = a ∨ b ∈ texts := by
    intro b
    rw [List.mem_append, List.mem_singleton, or_comm]
  rw [countAddr.eq_def]
  split
  · exact h.assign rfl (fun _ _ _ => rfl) htexts
  case h_2 count hfound =>
    refine h.assign ?_ (fun _ _ _ => rfl) htexts
    exact h.clusters _ (h.sorted.find_eq_some_iff.mp hfound)

theorem countAddrs_lists {texts} (addresses : List Text) (h : Lists m (fun _ => -1) texts) :
    Lists (addresses.foldl countAddr m) (fun _ => -1)
      (texts ++ addresses) := by
  induction addresses generalizing m texts with
  | nil => simpa using h
  | cons a rest ih => simpa using ih (countAddr_lists h a)

theorem uniqueAddr_lists {s texts} (hs : Holds s texts) :
    Lists (uniqueAddr true s) (fun _ => -1) texts := by
  have hnil : Lists [] (fun _ => -1) [] := ⟨List.Pairwise.nil, by simp, by simp⟩
  have hall := countAddrs_lists ((s.strideClusterInfo.flatMap Prod.snd).map StrideOrder.address)
    hnil
  refine ⟨hall.sorted, fun a => ?_, hall.clusters⟩
  rw [uniqueAddr, if_pos rfl, hall.addresses, ← hs.addresses]
  simp only [List.nil_append, List.mem_map, List.mem_flatMap]
  constructor
  · rintro ⟨o, ⟨e, he, ho⟩, rfl⟩
    exact ⟨e, he, o, ho, rfl⟩
  · rintro ⟨e, he, o, ho, rfl⟩
    exact ⟨o, ⟨e, he, ho⟩, rfl⟩

end Collecting

/-! ### Numbers of clusters -/

section Numbering
variable {m : List (Text × Count)} {f : Text → Int} {texts : List Text} {a : Text} {i : Nat}
  {clusters : List (List Text)}

local instance lawfulText : LawfulBEq Text := inferInstance

/-- The number that an address has after the loop over the clusters. -/
def number : Nat → List (List Text) → (Text → Int) → Text → Int
  | _, [], f => f
  | i, cluster :: rest, f => number (i + 1) rest fun a => if a ∈ cluster then (i : Int) else f a

theorem setCluster_lists (h : Lists m f texts) (i : Nat) (a : Text) :
    Lists (setCluster i m a) (fun b => if b = a then (i : Int) else f b) texts := by
  rw [setCluster.eq_def]
  split
  case h_1 hnone =>
    refine ⟨h.sorted, h.addresses, fun e he => ?_⟩
    rw [if_neg (find_eq_none_iff.mp hnone e he)]
    exact h.clusters e he
  case h_2 count hfound =>
    have hmem := h.sorted.find_eq_some_iff.mp hfound
    refine h.assign (if_pos rfl).symm (fun e _ hea => if_neg hea) fun b => ?_
    constructor
    · exact .inr
    · rintro (rfl | hb)
      · exact (h.addresses b).mp (List.mem_map.mpr ⟨_, hmem, rfl⟩)
      · exact hb

theorem setCluster_all_lists (h : Lists m f texts) (i : Nat) (cluster : List Text) :
    Lists (cluster.foldl (setCluster i) m) (fun a => if a ∈ cluster then (i : Int) else f a)
      texts := by
  induction cluster generalizing m f with
  | nil => simpa using h
  | cons b rest ih =>
    have hrest := ih (setCluster_lists h i b)
    have hsame : (fun a => if a ∈ rest then (i : Int) else if a = b then (i : Int) else f a) =
        fun a => if a ∈ b :: rest then (i : Int) else f a := by
      funext a
      by_cases har : a ∈ rest
      · simp [har]
      · simp [har]
    rwa [hsame] at hrest

theorem setClusters_lists (h : Lists m f texts) (i : Nat) (clusters : List (List Text)) :
    Lists (setClusters i clusters m) (number i clusters f) texts := by
  induction clusters generalizing m f i with
  | nil => exact h
  | cons cluster rest ih => exact ih (setCluster_all_lists h i cluster) (i + 1)

theorem number_of_not_mem (h : a ∉ clusters.flatten) : number i clusters f a = f a := by
  induction clusters generalizing i f with
  | nil => rfl
  | cons cluster rest ih =>
    rw [List.flatten_cons, List.mem_append, not_or] at h
    rw [number, ih h.2, if_neg h.1]

theorem number_of_mem (hnodup : clusters.flatten.Nodup) {j cluster}
    (hcluster : clusters[j]? = some cluster) (ha : a ∈ cluster) :
    number i clusters f a = ((i + j : Nat) : Int) := by
  induction clusters generalizing i f j with
  | nil => simp at hcluster
  | cons first rest ih =>
    rw [List.flatten_cons, List.nodup_append] at hnodup
    cases j with
    | zero =>
      obtain rfl : first = cluster := by simpa using hcluster
      have hrest : a ∉ rest.flatten := fun hmem => hnodup.2.2 a ha a hmem rfl
      rw [number, number_of_not_mem hrest, if_pos ha]
      rfl
    | succ j =>
      have hrest : rest[j]? = some cluster := by simpa using hcluster
      rw [number, ih hnodup.2.1 hrest]
      congr 1
      omega

end Numbering

/-! ### Lines -/

section Lines

theorem forall₂_of_mapM {α β ε : Type} {f : α → Except ε β} {l : List α} {l' : List β}
    (h : l.mapM f = .ok l') : List.Forall₂ (fun a b => f a = .ok b) l l' := by
  induction l generalizing l' with
  | nil =>
    cases h
    exact .nil
  | cons a l ih =>
    rw [List.mapM_cons] at h
    obtain ⟨b, hb, h⟩ := of_bind_ok h
    obtain ⟨bs, hbs, h⟩ := of_bind_ok h
    cases h
    exact .cons hb (ih hbs)

theorem exists_mapM {α β ε : Type} {f : α → Except ε β} {l : List α}
    (h : ∀ a ∈ l, ∃ b, f a = .ok b) : ∃ l', l.mapM f = .ok l' := by
  induction l with
  | nil => exact ⟨[], rfl⟩
  | cons a l ih =>
    obtain ⟨⟨b, hb⟩, hrest⟩ := List.forall_mem_cons.mp h
    obtain ⟨l', hl'⟩ := ih hrest
    rw [List.mapM_cons]
    exact ⟨b :: l', bind_eq_of_ok hb (bind_eq_of_ok hl' rfl)⟩

variable {clusters : List (List Text)} {e : Text × Count} {line : Line}

theorem lineOf_eq_ok (h : lineOf clusters e = .ok line) :
    line.address = e.1 ∧ line.clusterNo = e.2.cluster ∧ ∃ i cluster,
      e.2.cluster = (i : Nat) ∧ clusters[i]? = some cluster ∧
      line.clusterSize = cluster.length := by
  rw [lineOf] at h
  split at h
  · cases h
  case isFalse hneg =>
    split at h
    · cases h
    case h_2 cluster hcluster =>
      cases h
      exact ⟨rfl, rfl, e.2.cluster.toNat, cluster, (Int.toNat_of_nonneg (by omega)).symm, hcluster,
        rfl⟩

theorem lineOf_ok {i cluster} (he : e.2.cluster = (i : Nat))
    (hcluster : clusters[i]? = some cluster) : ∃ line, lineOf clusters e = .ok line := by
  rw [lineOf, he, if_neg (by omega), Int.toNat_natCast, hcluster]
  exact ⟨_, rfl⟩

end Lines

/-! ### The scan -/

section Scanning
variable {s s' : Scan} {a w u z : Text} {d : Int} {i bound : Nat}

/-- Each address goes into the bag; a cluster is finished where the difference changes, and the
address goes with it where it grows. -/
theorem visit_spec (hprev : 0 ≤ s.prev) (a : Text) (d : Int) :
    (visit s a d).clusters.flatten ++ (visit s a d).bag = s.clusters.flatten ++ s.bag ++ [a] ∧
    (visit s a d).prev = d ∧ ((visit s a d).bag = [] ↔ s.prev < d) := by
  rw [visit, if_neg (by omega)]
  by_cases hd : d = s.prev
  · simp [hd]
  · rw [if_pos hd]
    by_cases hgrows : s.prev < d
    · simp [hgrows]
    · by_cases hbag : s.bag = []
      · simp [hgrows, hbag]
      · simp [hgrows, hbag]

theorem scan_rest {xs} (hne : xs ≠ []) (hbound : bound + 1 = i + xs.length)
    (hint : i + xs.length < 2 ^ 31) (hprev : ∀ a rest, xs = a :: rest → s.prev = diff w a) :
    ∃ s', scan bound i (xs ++ [z]) s = .ok s' ∧
      s'.clusters.flatten ++ s'.bag = s.clusters.flatten ++ s.bag ++ xs ∧
      ∀ ys v u, w :: xs = ys ++ [v, u] → (s'.bag = [] ↔ diff v u < diff u z) := by
  induction xs generalizing i s w with
  | nil => exact absurd rfl hne
  | cons a rest ih =>
    have hw := hprev a rest rfl
    have hnonneg : 0 ≤ s.prev := hw ▸ diff_nonneg w a
    rw [List.length_cons] at hbound hint
    cases rest with
    | nil =>
      obtain ⟨hall, -, hempty⟩ := visit_spec hnonneg a (diff a z)
      refine ⟨visit s a (diff a z), ?_, hall, fun ys v u hsplit => ?_⟩
      · simp only [List.cons_append, List.nil_append, List.length_nil] at hbound ⊢
        rw [scan, if_pos (by omega), if_pos (by simp at hint; omega), scan, if_neg (by omega)]
      · obtain ⟨rfl, rfl⟩ : v = w ∧ u = a := by
          cases ys with
          | nil => simpa [eq_comm] using hsplit
          | cons y ys =>
            have hlength := congrArg List.length hsplit
            simp at hlength
        rw [hempty, hw]
    | cons b rest =>
      obtain ⟨hall, hprev', -⟩ := visit_spec hnonneg a (diff a b)
      rw [List.length_cons] at hbound hint
      obtain ⟨s', hs', hall', hempty'⟩ := ih (w := a) (i := i + 1) (s := visit s a (diff a b))
        (by simp) (by rw [List.length_cons]; omega) (by rw [List.length_cons]; omega)
        (by
          intro a' rest' heq
          rw [hprev', (List.cons.inj heq).1])
      refine ⟨s', ?_, ?_, fun ys v u hsplit => ?_⟩
      · simp only [List.cons_append] at hs' ⊢
        rw [scan, if_pos (by omega), if_pos (by omega), hs']
      · rw [hall', hall]
        simp
      · cases ys with
        | nil => simp at hsplit
        | cons y ys => exact hempty' ys v u (List.cons.inj hsplit).2

theorem scan_overflow {xs} (hne : xs ≠ []) (hbound : bound + 1 = i + xs.length) (hi : i < 2 ^ 31)
    (hint : 2 ^ 31 ≤ i + xs.length) :
    scan bound i (xs ++ [z]) s = .error "signed overflow" := by
  induction xs generalizing i s with
  | nil => exact absurd rfl hne
  | cons a rest ih =>
    rw [List.length_cons] at hbound hint
    cases rest with
    | nil =>
      simp only [List.length_nil] at hbound hint
      simp only [List.cons_append, List.nil_append]
      rw [scan, if_pos (by omega), if_neg (by omega)]
    | cons b rest =>
      simp only [List.cons_append]
      rw [scan, if_pos (by omega)]
      split
      case isTrue hlt =>
        exact ih (by simp) (by omega) hlt (by omega)
      case isFalse => rfl

end Scanning

/-! ### The output -/

section Writing
variable {m : List (Text × Count)} {texts : List Text} {clusters : List (List Text)}
  {lines : List Line} {accesses : List (UInt64 × UInt64)}

theorem numbered_lists (h : Lists m (fun _ => -1) texts) (clusters : List (List Text)) :
    Lists (setClusters 0 clusters (setClusters 0 clusters m))
      (number 0 clusters (number 0 clusters fun _ => -1)) texts :=
  setClusters_lists (setClusters_lists h 0 clusters) 0 clusters

theorem lines_iff (h : Lists m (fun _ => -1) texts) (hnodup : clusters.flatten.Nodup) :
    (∃ lines, (setClusters 0 clusters (setClusters 0 clusters m)).mapM (lineOf clusters) =
      .ok lines) ↔ ∀ a ∈ texts, a ∈ clusters.flatten := by
  have hnumbered := numbered_lists h clusters
  constructor
  · rintro ⟨lines, hlines⟩ a ha
    by_contra hnot
    obtain ⟨e, he, rfl⟩ := List.mem_map.mp ((hnumbered.addresses a).mpr ha)
    have hcluster : e.2.cluster = -1 := by
      rw [hnumbered.clusters e he, number_of_not_mem hnot, number_of_not_mem hnot]
    obtain ⟨k, hk, hke⟩ := List.mem_iff_getElem.mp he
    have hline := (List.forall₂_iff_get.mp (forall₂_of_mapM hlines)).2 k hk
      ((forall₂_of_mapM hlines).length_eq ▸ hk)
    obtain ⟨-, -, j, cluster, hj, -⟩ := lineOf_eq_ok hline
    rw [List.get_eq_getElem, hke, hcluster] at hj
    omega
  · intro hall
    refine exists_mapM fun e he => ?_
    have ha : e.1 ∈ texts := (hnumbered.addresses e.1).mp (List.mem_map_of_mem he)
    obtain ⟨cluster, hmem, hin⟩ := List.mem_flatten.mp (hall e.1 ha)
    obtain ⟨j, hj, rfl⟩ := List.mem_iff_getElem.mp hmem
    have hcluster : clusters[j]? = some clusters[j] := List.getElem?_eq_getElem hj
    refine lineOf_ok (i := 0 + j) ?_ (by rw [Nat.zero_add]; exact hcluster)
    rw [hnumbered.clusters e he]
    exact number_of_mem hnodup hcluster hin

theorem right_of_flatten (h : Lists m (fun _ => -1) (recorded accesses))
    (hnodup : clusters.flatten.Nodup) (hall : ∀ a, a ∈ clusters.flatten ↔ a ∈ recorded accesses)
    (hlines : (setClusters 0 clusters (setClusters 0 clusters m)).mapM (lineOf clusters) =
      .ok lines) : Right accesses ⟨clusters, lines⟩ := by
  have hnumbered := numbered_lists h clusters
  have hforall := forall₂_of_mapM hlines
  generalize setClusters 0 clusters (setClusters 0 clusters m) = m' at hnumbered hforall
  have haddresses : lines.map Line.address = m'.map Prod.fst := by
    clear hlines hnumbered
    induction hforall with
    | nil => rfl
    | cons hline _ ih => rw [List.map_cons, List.map_cons, ih, (lineOf_eq_ok hline).1]
  refine ⟨fun a => ?_, ?_, fun a => ?_, fun line hmem => ?_⟩
  · split
    case isTrue ha => exact List.count_eq_one_of_mem hnodup ((hall a).mpr ha)
    case isFalse ha => exact List.count_eq_zero_of_not_mem fun hmem => ha ((hall a).mp hmem)
  · change (lines.map Line.address).Nodup
    rw [haddresses]
    exact List.pairwise_map.mpr (hnumbered.sorted.imp fun hlt => hlt.ne)
  · change a ∈ lines.map Line.address ↔ _
    rw [haddresses, hnumbered.addresses]
  · obtain ⟨k, hk, hline⟩ := List.mem_iff_getElem.mp hmem
    have hk' : k < m'.length := hforall.length_eq ▸ hk
    have hlineOf := (List.forall₂_iff_get.mp hforall).2 k hk' hk
    rw [List.get_eq_getElem, List.get_eq_getElem, hline] at hlineOf
    obtain ⟨haddress, hno, i, cluster, hi, hcluster, hsize⟩ := lineOf_eq_ok hlineOf
    have he : m'[k] ∈ m' := List.getElem_mem hk'
    have hin : m'[k].1 ∈ clusters.flatten :=
      (hall _).mpr ((hnumbered.addresses _).mp (List.mem_map_of_mem he))
    obtain ⟨own, hown, hmem'⟩ := List.mem_flatten.mp hin
    obtain ⟨j, hj, rfl⟩ := List.mem_iff_getElem.mp hown
    have hjown : clusters[j]? = some clusters[j] := List.getElem?_eq_getElem hj
    have hnumber : m'[k].2.cluster = ((0 + j : Nat) : Int) :=
      (hnumbered.clusters _ he).trans (number_of_mem hnodup hjown hmem')
    have hij : i = j := by
      have hcast := hi.symm.trans hnumber
      omega
    subst hij
    obtain rfl : clusters[i] = cluster := Option.some.inj (hjown.symm.trans hcluster)
    exact ⟨i, clusters[i], hno.trans hi, hjown, haddress ▸ hmem', hsize⟩

/-! ### The last two addresses -/

theorem readHex_zero : readHex "0x0".toList = 0 := by decide

theorem diff_lt_iff (v u : Text) : diff v u < diff u "0x0".toList ↔
    0 < readHex v ∧ readHex v < 2 * readHex u := by
  rw [diff, diff, readHex_zero]
  split <;> split <;> omega

theorem scan_addresses {z addrs} (hlen : 2 ≤ addrs.length) (hint : addrs.length < 2 ^ 31) :
    ∃ s', scan (lastIndex (addrs ++ [z]).length) 0 (addrs ++ [z])
        ⟨(addrs ++ [z]).take 1, [], -1⟩ = .ok s' ∧
      s'.clusters.flatten ++ s'.bag = addrs ∧
      ∀ ys v u, addrs = ys ++ [v, u] → (s'.bag = [] ↔ diff v u < diff u z) := by
  match addrs with
  | a :: b :: rest =>
    obtain ⟨s', hs', hall, hempty⟩ : ∃ s',
        scan (rest.length + 1) 1 (b :: rest ++ [z]) ⟨[a], [], diff a b⟩ = .ok s' ∧
        s'.clusters.flatten ++ s'.bag = [] ++ [a] ++ b :: rest ∧
        ∀ ys v u, a :: b :: rest = ys ++ [v, u] → (s'.bag = [] ↔ diff v u < diff u z) := by
      refine scan_rest (by simp) (by simp; omega) (by simp at hint ⊢; omega) fun a' rest' heq => ?_
      rw [(List.cons.inj heq).1]
    refine ⟨s', ?_, hall, hempty⟩
    have hbound : lastIndex (a :: b :: rest ++ [z]).length = rest.length + 1 := by
      simp [lastIndex]
    rw [hbound]
    simp only [List.cons_append] at hs' ⊢
    rw [scan, if_pos (by omega), if_pos (by omega), ← hs']
    rfl

theorem exists_last_two {α : Type} {l : List α} (h : 2 ≤ l.length) :
    ∃ ys v u, l = ys ++ [v, u] := by
  rcases List.eq_nil_or_concat l with rfl | ⟨l', u, rfl⟩
  · simp at h
  · rcases List.eq_nil_or_concat l' with rfl | ⟨ys, v, rfl⟩
    · simp at h
    · exact ⟨ys, v, u, by simp⟩

theorem scan_fails {z addrs scanned}
    (hscan : scan (lastIndex (addrs ++ [z]).length) 0 (addrs ++ [z])
      ⟨(addrs ++ [z]).take 1, [], -1⟩ = .ok scanned)
    (h : ¬ (2 ≤ addrs.length ∧ addrs.length < 2 ^ 31)) :
    addrs ≠ [] ∧ scanned.clusters = [] := by
  match addrs with
  | [] =>
    have herror : (Except.error "index out of range" : Except String Scan) = .ok scanned := hscan
    cases herror
  | [a] =>
    refine ⟨by simp, ?_⟩
    have hone : scan (lastIndex 2) 0 [a, z] ⟨[a], [], -1⟩ = .ok ⟨[a], [], diff a z⟩ := by
      rfl
    have heq := hone.symm.trans hscan
    rw [← Except.ok.inj heq]
  | a :: b :: rest =>
    have hbound : lastIndex (a :: b :: rest ++ [z]).length + 1 = 0 + (a :: b :: rest).length := by
      simp [lastIndex]
    rw [scan_overflow (by simp) hbound (by omega) (by simp at h ⊢; omega)] at hscan
    cases hscan

/-- A bag that is left loses its addresses, and then a line cannot be written. -/
theorem write_iff {s} (h : Lists (uniqueAddr true s) (fun _ => -1) (recorded accesses)) :
    (∃ out, write true s = .ok out ∧ Right accesses out) ↔
      ((uniqueAddr true s).map Prod.fst).length < 2 ^ 31 ∧
      ∃ ys v u, (uniqueAddr true s).map Prod.fst = ys ++ [v, u] ∧
        0 < readHex v ∧ readHex v < 2 * readHex u := by
  have hnodup : ((uniqueAddr true s).map Prod.fst).Nodup :=
    List.pairwise_map.mpr (h.sorted.imp fun hlt => hlt.ne)
  have haddresses := h.addresses
  generalize haddrs : (uniqueAddr true s).map Prod.fst = addrs at hnodup haddresses
  constructor
  · rintro ⟨out, hout, -⟩
    obtain ⟨scanned, hscan, hout⟩ := of_bind_ok hout
    obtain ⟨lines, hlines, -⟩ := of_bind_ok hout
    rw [haddrs] at hscan
    by_cases hlen : 2 ≤ addrs.length ∧ addrs.length < 2 ^ 31
    · obtain ⟨s', hs', hall, hempty⟩ := scan_addresses hlen.1 hlen.2
      obtain rfl : s' = scanned := Except.ok.inj (hs'.symm.trans hscan)
      obtain ⟨ys, v, u, hsplit⟩ := exists_last_two hlen.1
      refine ⟨hlen.2, ys, v, u, hsplit, (diff_lt_iff v u).mp ((hempty ys v u hsplit).mp ?_)⟩
      rw [← hall, List.nodup_append] at hnodup
      have hcovered := (lines_iff h hnodup.1).mp ⟨lines, hlines⟩
      refine List.eq_nil_iff_forall_not_mem.mpr fun a ha => ?_
      have hrecorded : a ∈ recorded accesses :=
        (haddresses a).mp (hall ▸ List.mem_append_right _ ha)
      exact hnodup.2.2 a (hcovered a hrecorded) a ha rfl
    · obtain ⟨hne, hnone⟩ := scan_fails hscan hlen
      obtain ⟨a, ha⟩ := List.exists_mem_of_ne_nil _ hne
      have hcovered := (lines_iff h (by simp [hnone])).mp ⟨lines, hlines⟩ a ((haddresses a).mp ha)
      simp [hnone] at hcovered
  · rintro ⟨hint, ys, v, u, hsplit, hnear⟩
    have hlen : 2 ≤ addrs.length := by simp [hsplit]
    obtain ⟨s', hs', hall, hempty⟩ := scan_addresses hlen hint
    have hbag : s'.bag = [] := (hempty ys v u hsplit).mpr ((diff_lt_iff v u).mpr hnear)
    rw [hbag, List.append_nil] at hall
    have hmem : ∀ a, a ∈ s'.clusters.flatten ↔ a ∈ recorded accesses := fun a => hall ▸ haddresses a
    obtain ⟨lines, hlines⟩ := (lines_iff h (hall ▸ hnodup)).mpr fun a ha => (hmem a).mpr ha
    refine ⟨⟨s'.clusters, lines⟩, ?_, right_of_flatten h (hall ▸ hnodup) hmem hlines⟩
    refine bind_eq_of_ok (a := s') (by rw [haddrs]; exact hs') (bind_eq_of_ok hlines rfl)

theorem mem_recorded {text} :
    text ∈ recorded accesses ↔ ∃ a ∈ accesses.map Prod.snd, hex a = text := by
  have hmap : recorded accesses = (accesses.map Prod.snd).map hex := by simp [recorded]
  rw [hmap, List.mem_map]

theorem le_of_last_two {addrs ys : List Text} {v u text} (hsorted : addrs.Pairwise (· < ·))
    (hsplit : addrs = ys ++ [v, u]) (hmem : text ∈ addrs) :
    text = u ∨ text ≤ v := by
  rw [hsplit, List.pairwise_append] at hsorted
  rw [hsplit, List.mem_append, List.mem_cons, List.mem_singleton] at hmem
  rcases hmem with hys | rfl | rfl
  · exact .inr (hsorted.2.2 text hys v (by simp)).le
  · exact .inr le_rfl
  · exact .inl rfl

theorem lastTwoNear_iff {addrs : List Text} (hsorted : addrs.Pairwise (· < ·))
    (hmem : ∀ a, a ∈ addrs ↔ a ∈ recorded accesses) :
    LastTwoNear accesses ↔ addrs.length < 2 ^ 31 ∧
      ∃ ys v u, addrs = ys ++ [v, u] ∧ 0 < readHex v ∧ readHex v < 2 * readHex u := by
  have hlength : (accesses.map Prod.snd).dedup.length = addrs.length := by
    have hnodup : ((accesses.map Prod.snd).dedup.map hex).Nodup :=
      (List.nodup_dedup _).map hex_injective
    have hperm : ((accesses.map Prod.snd).dedup.map hex).Perm addrs := by
      refine (List.perm_ext_iff_of_nodup hnodup (hsorted.imp fun hlt => hlt.ne)).mpr fun a => ?_
      rw [hmem, mem_recorded]
      simp
    rw [← hperm.length_eq, List.length_map]
  have hlisted : ∀ a ∈ accesses.map Prod.snd, hex a ∈ addrs :=
    fun a ha => (hmem _).mpr (mem_recorded.mpr ⟨a, ha, rfl⟩)
  rw [LastTwoNear, hlength]
  refine and_congr_right fun _ => ?_
  constructor
  · rintro ⟨w, hw, u, hu, hwu, hlast, hpos, hnear⟩
    have htwo : 2 ≤ addrs.length := by
      have hnodup : [hex w, hex u].Nodup := by simpa using hwu.ne
      have hsub : [hex w, hex u] ⊆ addrs := by simp [hlisted w hw, hlisted u hu]
      exact (List.subperm_of_subset hnodup hsub).length_le
    obtain ⟨ys, v', u', hsplit⟩ := exists_last_two htwo
    have hlt : v' < u' := by
      have hpair := (List.pairwise_append.mp (hsplit ▸ hsorted)).2.1
      simpa using hpair
    have horigin : ∀ text ∈ addrs, ∃ a ∈ accesses.map Prod.snd, hex a = text :=
      fun text htext => mem_recorded.mp ((hmem text).mp htext)
    -- The greatest string is that of `u`, and below it that of `w`.
    have hu' : hex u = u' := by
      obtain ⟨a, ha, hau⟩ := horigin u' (by simp [hsplit])
      rcases hlast a ha with rfl | hle
      · exact hau
      · rcases le_of_last_two hsorted hsplit (hlisted u hu) with heq | hle'
        · exact heq
        · exact absurd (hle.trans_lt hwu) (hau ▸ (hle'.trans_lt hlt).not_gt)
    have hw' : hex w = v' := by
      obtain ⟨a, ha, hav⟩ := horigin v' (by simp [hsplit])
      rcases le_of_last_two hsorted hsplit (hlisted w hw) with heq | hle
      · exact absurd (heq.trans hu'.symm) hwu.ne
      · rcases hlast a ha with rfl | hle'
        · exact absurd (hu'.symm.trans hav) hlt.ne'
        · exact le_antisymm hle (hav ▸ hle')
    exact ⟨ys, v', u', hsplit, by rw [← hw', readHex_hex]; exact hpos,
      by rw [← hw', ← hu', readHex_hex, readHex_hex]; exact hnear⟩
  · rintro ⟨ys, v, u, hsplit, hpos, hnear⟩
    obtain ⟨w, hw, rfl⟩ := mem_recorded.mp ((hmem v).mp (by simp [hsplit]))
    obtain ⟨x, hx, rfl⟩ := mem_recorded.mp ((hmem u).mp (by simp [hsplit]))
    rw [readHex_hex] at hpos hnear
    rw [readHex_hex] at hnear
    have hlt : hex w < hex x := by
      have hpair := (List.pairwise_append.mp (hsplit ▸ hsorted)).2.1
      simpa using hpair
    refine ⟨w, hw, x, hx, hlt, fun a ha => ?_, hpos, hnear⟩
    exact (le_of_last_two hsorted hsplit (hlisted a ha)).imp (fun heq => hex_injective heq) id

/-- Every address is written in one cluster, with its number and size, if and only if the file of
the orders can be opened, the addresses are at least two and no more than an `int` counts, and of
the last two in the order of their strings the first is not zero and less than twice the second. -/
theorem clusters_cover_iff (is_open : Bool) (accesses : List (UInt64 × UInt64)) :
    (∃ out, (record accesses >>= write is_open) = .ok out ∧ Right accesses out) ↔
      is_open = true ∧ LastTwoNear accesses := by
  obtain ⟨s, hs, hholds⟩ := record_holds accesses
  rw [hs]
  cases is_open with
  | false =>
    refine iff_of_false ?_ (by simp)
    rintro ⟨out, hout, -⟩
    cases hout
  | true =>
    have hlists := uniqueAddr_lists hholds
    have hsorted : ((uniqueAddr true s).map Prod.fst).Pairwise (· < ·) :=
      List.pairwise_map.mpr hlists.sorted
    rw [lastTwoNear_iff hsorted hlists.addresses]
    exact (write_iff hlists).trans (iff_of_eq (by simp))

/-- Nothing is written of no address, or of a single one, or when the last one is much smaller
than the one before it. -/
theorem cluster_lost :
    (record [] >>= write true) = .error "index out of range" ∧
    (record [(1, 0x40)] >>= write true) = .error "index out of range" ∧
    (record [(1, 0x10), (1, 0x20), (1, 0x7)] >>= write true) = .error "index out of range" :=
  ⟨rfl, rfl, rfl⟩

end Writing

end Sniper.Tracing.Clustering
