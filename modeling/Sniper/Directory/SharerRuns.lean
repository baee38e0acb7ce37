import Sniper.Directory.SharerSets

/-! # Entries and the sets they record

Whatever the calls were, an entry tells of one set of sharers. The penalty of a limitless entry is
about the size of its container instead, which is not the number of sharers.
-/
namespace Sniper.Directory.SharerSets
open Lib.Simulation DirectorySharers

variable {S : Type} [DirectorySharers S] {m_sharers : S} {sharers : Finset ℕ}

/-! ### One container -/

def Represents (m_sharers : S) (sharers : Finset ℕ) : Prop :=
  ∀ i, get m_sharers i = true ↔ i ∈ sharers

/-- What is told of the sharers is told of one set. -/
structure Agrees (m_sharers : S) (sharers : Finset ℕ) : Prop where
  hasSharer : ∀ sharer_id, sharerAt m_sharers sharer_id =
    if sharer_id < size m_sharers then .ok (decide (sharer_id ∈ sharers)) else .error .outOfRange
  getNumSharers : getNumSharers m_sharers = sharers.card
  getSharersList : getSharersList m_sharers = .ok (false, sharers.sort (· ≤ ·))

theorem Represents.lt (h : Represents m_sharers sharers) {i} (hi : i ∈ sharers) :
    i < size m_sharers := by
  by_contra hle
  have hget := get_behind (Nat.le_of_not_lt hle)
  rw [(h i).mpr hi] at hget
  cases hget

theorem Represents.sort_eq (h : Represents m_sharers sharers) :
    sharers.sort (· ≤ ·) = (List.range (size m_sharers)).filter (get m_sharers) := by
  have hset : ((List.range (size m_sharers)).filter (get m_sharers)).toFinset = sharers := by
    ext i
    rw [List.mem_toFinset, List.mem_filter, List.mem_range, h i]
    exact ⟨fun hi => hi.2, fun hi => ⟨h.lt hi, hi⟩⟩
  have hnodup : ((List.range (size m_sharers)).filter (get m_sharers)).Nodup :=
    List.nodup_range.filter _
  rw [← hset]
  refine (List.toFinset_sort (· ≤ ·) hnodup).mpr ?_
  exact (List.pairwise_le_range.filter _)

theorem Represents.count (h : Represents m_sharers sharers) : count m_sharers = sharers.card := by
  rw [count_eq, List.countP_eq_length_filter, ← h.sort_eq, Finset.length_sort]

/-- The loop writes the sharers one after the other, and there is room for them. -/
theorem fillList_eq (js second : List ℕ) (i : ℕ)
    (hlength : second.length = i + (js.filter (get m_sharers)).length)
    (hsize : second.length ≤ size m_sharers) :
    fillList m_sharers js (second, i) =
      .ok (second.take i ++ js.filter (get m_sharers), second.length) := by
  induction js generalizing second i with
  | nil =>
    rw [List.filter_nil, List.length_nil, Nat.add_zero] at hlength
    rw [fillList, List.filter_nil, List.append_nil, ← hlength, List.take_length]
  | cons j rest ih =>
    rw [fillList]
    cases hj : get m_sharers j with
    | false =>
      rw [List.filter_cons_of_neg (by simp [hj])] at hlength ⊢
      exact ih second i hlength hsize
    | true =>
      rw [List.filter_cons_of_pos hj] at hlength ⊢
      rw [List.length_cons] at hlength
      have hi : i < second.length := by omega
      have hassert : assert (decide (i + 1 ≤ size m_sharers)) = .ok () := by
        rw [assert, if_pos (decide_eq_true (by omega))]
      have hnext := ih (second.set i j) (i + 1)
        (by rw [List.length_set]; omega) (by rw [List.length_set]; exact hsize)
      rw [if_pos rfl, if_pos hi, hassert]
      refine Eq.trans hnext ?_
      have htake : (second.set i j).take (i + 1) = second.take i ++ [j] := by
        rw [List.take_add_one, List.getElem?_set_self hi, List.take_set,
          List.set_eq_of_length_le (List.length_take_le ..)]
        rfl
      rw [List.length_set, htake, List.append_assoc, List.singleton_append]

theorem Represents.agrees (h : Represents m_sharers sharers) : Agrees m_sharers sharers := by
  refine ⟨fun sharer_id => ?_, h.count, ?_⟩
  · refine if_congr Iff.rfl (congrArg _ ?_) rfl
    exact Bool.eq_iff_iff.mpr ((h sharer_id).trans decide_eq_true_iff.symm)
  · have hlength : (List.replicate (SharerSets.getNumSharers m_sharers) 0).length =
        0 + ((List.range (size m_sharers)).filter (get m_sharers)).length := by
      rw [List.length_replicate, SharerSets.getNumSharers, h.count, ← h.sort_eq, Finset.length_sort,
        Nat.zero_add]
    have hsize : (List.replicate (SharerSets.getNumSharers m_sharers) 0).length ≤
        size m_sharers := by
      rw [hlength, Nat.zero_add]
      exact (List.length_filter_le _ _).trans (Nat.le_of_eq List.length_range)
    rw [SharerSets.getSharersList, fillList_eq _ _ 0 hlength hsize, h.sort_eq]
    rfl

/-! ### One call -/

theorem assert_ok {c} (h : assert c = .ok ()) : c = true := by
  cases c with
  | true => rfl
  | false => cases h

theorem sharerAt_ok {sharer_id b} (h : sharerAt m_sharers sharer_id = .ok b) :
    sharer_id < size m_sharers ∧ get m_sharers sharer_id = b := by
  rw [sharerAt] at h
  split at h
  case isTrue hlt =>
    cases h
    exact ⟨hlt, rfl⟩
  case isFalse => cases h

theorem absent_ok {sharer_id : ℕ} {α : Type} {k : Except Fault α} {a : α}
    (h : (do assert !(← sharerAt m_sharers sharer_id); k) = .ok a) :
    sharer_id < size m_sharers ∧ get m_sharers sharer_id = false ∧ k = .ok a := by
  obtain ⟨b, hat, h⟩ := of_bind_ok h
  obtain ⟨⟨⟩, hassert, h⟩ := of_bind_ok h
  obtain ⟨hlt, hget⟩ := sharerAt_ok hat
  have hb := assert_ok hassert
  cases b with
  | true => cases hb
  | false => exact ⟨hlt, hget, h⟩

theorem removeSharer_ok {sharer_id reply_expected m_sharers'}
    (h : removeSharer m_sharers sharer_id reply_expected = .ok m_sharers') :
    sharer_id < size m_sharers ∧ m_sharers' = set m_sharers sharer_id false := by
  obtain ⟨⟨⟩, -, h⟩ := of_bind_ok h
  obtain ⟨b, hat, h⟩ := of_bind_ok h
  obtain ⟨⟨⟩, -, h⟩ := of_bind_ok h
  cases h
  exact ⟨(sharerAt_ok hat).1, rfl⟩

theorem Represents.insert (h : Represents m_sharers sharers) {sharer_id}
    (hlt : sharer_id < size m_sharers) :
    Represents (set m_sharers sharer_id true) (insert sharer_id sharers) := by
  intro i
  rw [get_set hlt, Finset.mem_insert]
  by_cases hi : sharer_id = i
  · simp [hi]
  · rw [if_neg hi, h i]
    exact ⟨.inr, fun hmem => hmem.resolve_left (Ne.symm hi)⟩

theorem Represents.erase (h : Represents m_sharers sharers) {sharer_id}
    (hlt : sharer_id < size m_sharers) :
    Represents (set m_sharers sharer_id false) (sharers.erase sharer_id) := by
  intro i
  rw [get_set hlt, Finset.mem_erase]
  by_cases hi : sharer_id = i
  · simp [hi]
  · rw [if_neg hi, h i]
    exact ⟨fun hmem => ⟨Ne.symm hi, hmem⟩, fun hmem => hmem.2⟩

theorem Represents.card_lt (h : Represents m_sharers sharers) {sharer_id}
    (hlt : sharer_id < size m_sharers) (habsent : get m_sharers sharer_id = false) :
    sharers.card < size m_sharers := by
  have hsub : sharers ⊆ (Finset.range (size m_sharers)).erase sharer_id := by
    intro i hi
    refine Finset.mem_erase.mpr ⟨?_, Finset.mem_range.mpr (h.lt hi)⟩
    rintro rfl
    rw [(h i).mpr hi] at habsent
    cases habsent
  have hcard := Finset.card_le_card hsub
  rw [Finset.card_erase_of_mem (Finset.mem_range.mpr hlt), Finset.card_range] at hcard
  omega

/-! ### Limited -/

namespace DirectoryEntryLimitedNoBroadcast
variable {entry entry' : DirectoryEntryLimitedNoBroadcast S} {max_hw_sharers : ℕ}

theorem addSharer_ok {sharer_id : ℕ} {added : Bool}
    (h : entry.addSharer sharer_id max_hw_sharers = .ok (added, entry')) :
    sharer_id < size entry.m_sharers ∧ get entry.m_sharers sharer_id = false ∧
      ((added = false ∧ entry' = entry ∧ max_hw_sharers ≤ count entry.m_sharers) ∨
        (added = true ∧ count entry.m_sharers < max_hw_sharers ∧
          entry' = { entry with m_sharers := set entry.m_sharers sharer_id true })) := by
  obtain ⟨hlt, habsent, h⟩ := absent_ok h
  refine ⟨hlt, habsent, ?_⟩
  split at h
  case isTrue hfull =>
    cases h
    exact .inl ⟨rfl, rfl, hfull⟩
  case isFalse hroom =>
    cases h
    exact .inr ⟨rfl, Nat.lt_of_not_le hroom, rfl⟩

/-- What holds of a limited entry behind some calls. -/
def Records (max_hw_sharers : ℕ) (entry : DirectoryEntryLimitedNoBroadcast S)
    (calls : List Call) : Prop :=
  Represents entry.m_sharers (recorded (some max_hw_sharers) calls) ∧
    (recorded (some max_hw_sharers) calls).card ≤ max_hw_sharers

theorem Records.call {calls} (h : Records max_hw_sharers entry calls) {call}
    (hcall : entry.call max_hw_sharers call = .ok entry') :
    Records max_hw_sharers entry' (calls ++ [call]) := by
  obtain ⟨hset, hcard⟩ := h
  unfold Records
  rw [recorded, List.foldl_append, ← recorded, List.foldl_cons, List.foldl_nil]
  generalize recorded (some max_hw_sharers) calls = sharers at hset hcard
  cases call with
  | addSharer sharer_id =>
    obtain ⟨⟨added, entry₁⟩, hadd, rfl⟩ := of_map_ok hcall
    obtain ⟨hlt, habsent, ⟨-, rfl, hfull⟩ | ⟨-, hroom, rfl⟩⟩ := addSharer_ok hadd
    · rw [hset.count] at hfull
      have hrecord : record (some max_hw_sharers) sharers (.addSharer sharer_id) = sharers :=
        if_neg (by simpa using hfull)
      rw [hrecord]
      exact ⟨hset, hcard⟩
    · rw [hset.count] at hroom
      have hrecord : record (some max_hw_sharers) sharers (.addSharer sharer_id) =
          insert sharer_id sharers := if_pos (by simpa using hroom)
      rw [hrecord]
      exact ⟨hset.insert hlt, (Finset.card_insert_le _ _).trans hroom⟩
  | removeSharer sharer_id =>
    obtain ⟨m_sharers', hremove, rfl⟩ := of_map_ok hcall
    obtain ⟨hlt, rfl⟩ := removeSharer_ok hremove
    exact ⟨hset.erase hlt, (Finset.card_le_card (Finset.erase_subset _ _)).trans hcard⟩

theorem run_records {max_num_sharers calls}
    (h : run max_hw_sharers max_num_sharers calls = .ok entry) :
    Records max_hw_sharers entry calls := by
  obtain ⟨start, hcreate, hrun⟩ := of_bind_ok h
  obtain ⟨m_sharers, hsharers, rfl⟩ := of_map_ok hcreate
  refine foldlM_history (fun _ _ _ _ hrecords hcall => hrecords.call hcall) ⟨fun i => ?_, ?_⟩ hrun
  · rw [get_create hsharers]
    simp [recorded]
  · exact Nat.zero_le _

theorem getOneSharer_mem (h : Represents entry.m_sharers sharers) :
    (∀ sharer_id entry', entry.getOneSharer = .ok (sharer_id, entry') → sharer_id ∈ sharers) ∧
      (sharers.Nonempty → ∃ result, entry.getOneSharer = .ok result) := by
  have hlist := h.agrees.getSharersList
  constructor
  · intro sharer_id entry' hone
    unfold getOneSharer at hone
    rw [hlist] at hone
    obtain ⟨sharers_list, hsame, hone⟩ := of_bind_ok hone
    cases hsame
    obtain ⟨⟨⟩, -, hone⟩ := of_bind_ok hone
    obtain ⟨⟨⟩, -, hone⟩ := of_bind_ok hone
    dsimp only at hone
    split at hone
    case h_1 hget =>
      cases hone
      exact (Finset.mem_sort _).mp (List.mem_of_getElem? hget)
    case h_2 => cases hone
  · intro hne
    have hpos : 0 < (sharers.sort (· ≤ ·)).length := by
      rw [Finset.length_sort]
      exact hne.card_pos
    have hindex : (next entry.m_rand_num (sharers.sort (· ≤ ·)).length).1 <
        (sharers.sort (· ≤ ·)).length := Nat.mod_lt _ hpos
    refine ⟨((sharers.sort (· ≤ ·))[(next entry.m_rand_num (sharers.sort (· ≤ ·)).length).1],
      { entry with m_rand_num := (next entry.m_rand_num (sharers.sort (· ≤ ·)).length).2 }), ?_⟩
    unfold getOneSharer
    rw [hlist]
    refine bind_eq_of_ok rfl (bind_eq_of_ok rfl (bind_eq_of_ok (if_pos (decide_eq_true hpos)) ?_))
    dsimp only
    rw [List.getElem?_eq_getElem hindex]
    rfl

end DirectoryEntryLimitedNoBroadcast

/-! ### Limitless -/

theorem Trapped.append {max_hw_sharers calls call} :
    Trapped max_hw_sharers (calls ++ [call]) ↔ Trapped max_hw_sharers calls ∨
      ∃ sharer_id, call = .addSharer sharer_id ∧ max_hw_sharers ≤ (recorded none calls).card := by
  constructor
  · rintro ⟨before, sharer_id, after, hcalls, hfull⟩
    rcases List.eq_nil_or_concat after with rfl | ⟨init, final, rfl⟩
    · obtain ⟨rfl, hlast⟩ := List.append_inj' hcalls rfl
      exact .inr ⟨sharer_id, List.head_eq_of_cons_eq hlast, hfull⟩
    · rw [List.concat_eq_append, ← List.cons_append, ← List.append_assoc] at hcalls
      obtain ⟨rfl, -⟩ := List.append_inj' hcalls rfl
      exact .inl ⟨before, sharer_id, init, rfl, hfull⟩
  · rintro (⟨before, sharer_id, after, rfl, hfull⟩ | ⟨sharer_id, rfl, hfull⟩)
    · exact ⟨before, sharer_id, after ++ [call], by simp, hfull⟩
    · exact ⟨calls, sharer_id, [], rfl, hfull⟩

namespace DirectoryEntryLimitless
variable {entry entry' : DirectoryEntryLimitless S} {max_hw_sharers : ℕ}

theorem addSharer_ok {sharer_id : ℕ} {added : Bool}
    (h : entry.addSharer sharer_id max_hw_sharers = .ok (added, entry')) :
    sharer_id < size entry.m_sharers ∧ get entry.m_sharers sharer_id = false ∧ added = true ∧
      entry' = { entry with
        m_software_trap_enabled :=
          entry.m_software_trap_enabled || size entry.m_sharers == max_hw_sharers
        m_sharers := set entry.m_sharers sharer_id true } := by
  obtain ⟨hlt, habsent, h⟩ := absent_ok h
  cases h
  exact ⟨hlt, habsent, rfl, rfl⟩

/-- What holds of a limitless entry behind some calls; `n` is the size of its container. -/
structure Records (max_hw_sharers penalty n : ℕ) (entry : DirectoryEntryLimitless S)
    (calls : List Call) : Prop where
  set : Represents entry.m_sharers (recorded none calls)
  size : size entry.m_sharers = n
  penalty : entry.m_software_trap_penalty = penalty
  trap : entry.m_software_trap_enabled = true ↔
    n = max_hw_sharers ∧ ∃ sharer_id, .addSharer sharer_id ∈ calls
  room : Trapped max_hw_sharers calls → max_hw_sharers < n

theorem Records.call {penalty n calls} (h : Records max_hw_sharers penalty n entry calls) {call}
    (hcall : entry.call max_hw_sharers call = .ok entry') :
    Records max_hw_sharers penalty n entry' (calls ++ [call]) := by
  have hrecorded : recorded none (calls ++ [call]) = record none (recorded none calls) call := by
    rw [recorded, List.foldl_append]
    rfl
  have hadds : (∃ sharer_id, Call.addSharer sharer_id ∈ calls ++ [call]) ↔
      (∃ sharer_id, .addSharer sharer_id ∈ calls) ∨ ∃ sharer_id, call = .addSharer sharer_id := by
    simp only [List.mem_append, List.mem_singleton, exists_or, eq_comm]
  cases call with
  | addSharer sharer_id =>
    obtain ⟨⟨added, entry₁⟩, hadd, rfl⟩ := of_map_ok hcall
    obtain ⟨hlt, habsent, -, rfl⟩ := addSharer_ok hadd
    have hcard := h.set.card_lt hlt habsent
    rw [h.size] at hcard
    refine ⟨hrecorded ▸ h.set.insert hlt, (size_set _ _ _).trans h.size, h.penalty, ?_, ?_⟩
    · rw [hadds, Bool.or_eq_true_iff, h.trap, h.size, beq_iff_eq]
      exact ⟨fun h => h.elim (fun h => ⟨h.1, .inl h.2⟩) fun h => ⟨h, .inr ⟨_, rfl⟩⟩,
        fun h => .inr h.1⟩
    · intro htrapped
      rcases Trapped.append.mp htrapped with hbefore | ⟨other, hsame, hfull⟩
      · exact h.room hbefore
      · exact Nat.lt_of_le_of_lt hfull hcard
  | removeSharer sharer_id =>
    obtain ⟨m_sharers', hremove, rfl⟩ := of_map_ok hcall
    obtain ⟨hlt, rfl⟩ := removeSharer_ok hremove
    refine ⟨hrecorded ▸ h.set.erase hlt, (size_set _ _ _).trans h.size, h.penalty, ?_, ?_⟩
    · rw [hadds, h.trap]
      simp
    · intro htrapped
      rcases Trapped.append.mp htrapped with hbefore | ⟨other, hne, hfull⟩
      · exact h.room hbefore
      · cases hne

theorem run_records {max_num_sharers penalty calls}
    (h : run max_hw_sharers max_num_sharers penalty calls = .ok entry) :
    Records max_hw_sharers penalty (size entry.m_sharers) entry calls := by
  obtain ⟨start, hcreate, hrun⟩ := of_bind_ok h
  obtain ⟨m_sharers, hsharers, rfl⟩ := of_map_ok hcreate
  have hrecords : Records max_hw_sharers penalty (size m_sharers) entry calls := by
    refine foldlM_history (fun _ _ _ _ hrecords hcall => hrecords.call hcall)
      ⟨fun i => ?_, rfl, rfl, ?_, ?_⟩ hrun
    · rw [get_create hsharers]
      simp [recorded]
    · simp
    · rintro ⟨before, sharer_id, after, hnil, -⟩
      simp at hnil
  rwa [hrecords.size]

theorem getOneSharer_mem (h : Represents entry.m_sharers sharers) :
    (∀ sharer_id, entry.getOneSharer = .ok sharer_id → sharer_id ∈ sharers) ∧
      (sharers.Nonempty → ∃ sharer_id, entry.getOneSharer = .ok sharer_id) := by
  unfold getOneSharer
  constructor
  · intro sharer_id hone
    split at hone
    case h_1 hfind =>
      cases hone
      exact (h sharer_id).mp (List.find?_some hfind)
    case h_2 => cases hone
  · rintro ⟨i, hi⟩
    cases hfind : (List.range (size entry.m_sharers)).find? (get entry.m_sharers) with
    | some sharer_id => exact ⟨sharer_id, rfl⟩
    | none =>
      have hget := List.find?_eq_none.mp hfind i (List.mem_range.mpr (h.lt hi))
      exact absurd ((h i).mpr hi) hget

/-- The penalty tells of a trap when it is zero, or nothing was added to a container of that size,
or nothing at the limit to another. -/
theorem Records.latency_iff {penalty n calls} (h : Records max_hw_sharers penalty n entry calls) :
    (Trapped max_hw_sharers calls → entry.getLatency = penalty) ∧
        (¬ Trapped max_hw_sharers calls → entry.getLatency = 0) ↔
      penalty = 0 ∨ (n = max_hw_sharers ∧ ∀ sharer_id, .addSharer sharer_id ∉ calls) ∨
        (n ≠ max_hw_sharers ∧ ¬ Trapped max_hw_sharers calls) := by
  have hlatency : entry.getLatency = if entry.m_software_trap_enabled then penalty else 0 := by
    rw [getLatency, h.penalty]
  by_cases hzero : penalty = 0
  · have hall : entry.getLatency = 0 := by rw [hlatency, hzero, ite_self]
    exact ⟨fun _ => .inl hzero, fun _ => ⟨fun _ => hall.trans hzero.symm, fun _ => hall⟩⟩
  · by_cases hsize : n = max_hw_sharers
    · have hnot : ¬ Trapped max_hw_sharers calls := fun htrapped =>
        (h.room htrapped).ne hsize.symm
      have htrap : entry.m_software_trap_enabled = true ↔
          ∃ sharer_id, .addSharer sharer_id ∈ calls := h.trap.trans (and_iff_right hsize)
      constructor
      · rintro ⟨-, hnone⟩
        refine .inr (.inl ⟨hsize, fun sharer_id hmem => hzero ?_⟩)
        have hlat := hnone hnot
        rwa [hlatency, if_pos (htrap.mpr ⟨sharer_id, hmem⟩)] at hlat
      · rintro (hpenalty | ⟨-, hnone⟩ | ⟨hne, -⟩)
        · exact absurd hpenalty hzero
        · refine ⟨fun htrapped => absurd htrapped hnot, fun _ => ?_⟩
          rw [hlatency, if_neg fun henabled => (htrap.mp henabled).elim hnone]
        · exact absurd hsize hne
    · have hoff : ¬ entry.m_software_trap_enabled = true := fun henabled =>
        hsize (h.trap.mp henabled).1
      rw [hlatency, if_neg hoff]
      constructor
      · rintro ⟨htrapped, -⟩
        exact .inr (.inr ⟨hsize, fun h => hzero (htrapped h).symm⟩)
      · rintro (hpenalty | ⟨hsame, -⟩ | ⟨-, hnot⟩)
        · exact absurd hpenalty hzero
        · exact absurd hsame hsize
        · exact ⟨fun htrapped => absurd htrapped hnot, fun _ => rfl⟩

end DirectoryEntryLimitless

/-! ### Every run -/

/-- Both entries tell of the set that the calls have made, over either container. A limited entry
refuses a sharer exactly when it records as many as it may; a limitless one accepts every sharer,
and its latency does not always tell of a trap. -/
theorem entries_represent_sets (S : Type) [DirectorySharers S]
    (max_hw_sharers max_num_sharers : ℕ) (calls : List Call) :
    (∀ entry : DirectoryEntryLimitedNoBroadcast S,
      DirectoryEntryLimitedNoBroadcast.run max_hw_sharers max_num_sharers calls = .ok entry →
      let sharers := recorded (some max_hw_sharers) calls
      Agrees entry.m_sharers sharers ∧
      (∀ sharer_id entry', entry.getOneSharer = .ok (sharer_id, entry') → sharer_id ∈ sharers) ∧
      (sharers.Nonempty → ∃ result, entry.getOneSharer = .ok result) ∧
      ∀ sharer_id added entry', entry.addSharer sharer_id max_hw_sharers = .ok (added, entry') →
        (added = false ↔ sharers.card = max_hw_sharers) ∧ (added = false → entry' = entry)) ∧
    ∀ (penalty : ℕ) (entry : DirectoryEntryLimitless S),
      DirectoryEntryLimitless.run max_hw_sharers max_num_sharers penalty calls = .ok entry →
      let sharers := recorded none calls
      Agrees entry.m_sharers sharers ∧
      (∀ sharer_id, entry.getOneSharer = .ok sharer_id → sharer_id ∈ sharers) ∧
      (sharers.Nonempty → ∃ sharer_id, entry.getOneSharer = .ok sharer_id) ∧
      (∀ sharer_id added entry', entry.addSharer sharer_id max_hw_sharers = .ok (added, entry') →
        added = true) ∧
      ((Trapped max_hw_sharers calls → entry.getLatency = penalty) ∧
          (¬ Trapped max_hw_sharers calls → entry.getLatency = 0) ↔
        penalty = 0 ∨
          (size entry.m_sharers = max_hw_sharers ∧ ∀ sharer_id, .addSharer sharer_id ∉ calls) ∨
          (size entry.m_sharers ≠ max_hw_sharers ∧ ¬ Trapped max_hw_sharers calls)) := by
  constructor
  · intro entry hrun
    obtain ⟨hset, hcard⟩ := DirectoryEntryLimitedNoBroadcast.run_records hrun
    obtain ⟨hmem, hsome⟩ := DirectoryEntryLimitedNoBroadcast.getOneSharer_mem hset
    refine ⟨hset.agrees, hmem, hsome, fun sharer_id added entry' hadd => ?_⟩
    obtain ⟨-, -, ⟨hadded, hsame, hfull⟩ | ⟨hadded, hroom, -⟩⟩ :=
      DirectoryEntryLimitedNoBroadcast.addSharer_ok hadd
    · rw [hset.count] at hfull
      exact ⟨iff_of_true hadded (Nat.le_antisymm hcard hfull), fun _ => hsame⟩
    · rw [hset.count] at hroom
      have hnot : added ≠ false := by simp [hadded]
      exact ⟨iff_of_false hnot hroom.ne, fun h => absurd h hnot⟩
  · intro penalty entry hrun
    have hrecords := DirectoryEntryLimitless.run_records hrun
    obtain ⟨hmem, hsome⟩ := DirectoryEntryLimitless.getOneSharer_mem hrecords.set
    exact ⟨hrecords.set.agrees, hmem, hsome,
      fun _ _ _ hadd => (DirectoryEntryLimitless.addSharer_ok hadd).2.2.1, hrecords.latency_iff⟩

/-- Two sharers are added and one of them leaves again. -/
def twoAdded : List Call := [.addSharer 0, .addSharer 3, .removeSharer 0]

theorem entries_represent_sets_two :
    (∀ entry : DirectoryEntryLimitedNoBroadcast (DirectorySharersBitset 64),
      DirectoryEntryLimitedNoBroadcast.run 2 4 twoAdded = .ok entry →
      let sharers := recorded (some 2) twoAdded
      Agrees entry.m_sharers sharers ∧
      (∀ sharer_id entry', entry.getOneSharer = .ok (sharer_id, entry') → sharer_id ∈ sharers) ∧
      (sharers.Nonempty → ∃ result, entry.getOneSharer = .ok result) ∧
      ∀ sharer_id added entry', entry.addSharer sharer_id 2 = .ok (added, entry') →
        (added = false ↔ sharers.card = 2) ∧ (added = false → entry' = entry)) ∧
    ∀ (penalty : ℕ) (entry : DirectoryEntryLimitless (DirectorySharersBitset 64)),
      DirectoryEntryLimitless.run 2 4 penalty twoAdded = .ok entry →
      let sharers := recorded none twoAdded
      Agrees entry.m_sharers sharers ∧
      (∀ sharer_id, entry.getOneSharer = .ok sharer_id → sharer_id ∈ sharers) ∧
      (sharers.Nonempty → ∃ sharer_id, entry.getOneSharer = .ok sharer_id) ∧
      (∀ sharer_id added entry', entry.addSharer sharer_id 2 = .ok (added, entry') →
        added = true) ∧
      ((Trapped 2 twoAdded → entry.getLatency = penalty) ∧
          (¬ Trapped 2 twoAdded → entry.getLatency = 0) ↔
        penalty = 0 ∨
          (size entry.m_sharers = 2 ∧ ∀ sharer_id, .addSharer sharer_id ∉ twoAdded) ∨
          (size entry.m_sharers ≠ 2 ∧ ¬ Trapped 2 twoAdded)) :=
  entries_represent_sets (DirectorySharersBitset 64) 2 4 twoAdded

/-- A third sharer over a limit of two is free of charge, and the first sharer of two that there
can be is charged for. -/
theorem trap_penalty_misplaced :
    (∃ entry : DirectoryEntryLimitless (DirectorySharersBitset 64),
      DirectoryEntryLimitless.run 2 4 100 [.addSharer 0, .addSharer 1, .addSharer 2] = .ok entry ∧
      Trapped 2 [.addSharer 0, .addSharer 1, .addSharer 2] ∧ entry.getLatency = 0) ∧
    ∃ entry : DirectoryEntryLimitless DirectorySharersVector,
      DirectoryEntryLimitless.run 2 2 100 [.addSharer 0] = .ok entry ∧
      ¬ Trapped 2 [.addSharer 0] ∧ entry.getLatency = 100 := by
  refine ⟨⟨_, rfl, ⟨[.addSharer 0, .addSharer 1], 2, [], rfl, Nat.le_refl 2⟩, rfl⟩, _, rfl, ?_, rfl⟩
  rintro ⟨before, sharer_id, after, hcalls, hfull⟩
  cases before with
  | nil => exact absurd hfull (by simp [recorded])
  | cons call before => simp at hcalls

end Sniper.Directory.SharerSets
