import Sniper.Memory.GhbPrefetcher

/-! # The history in the buffer

The ring holds the last deltas of the history, and each entry of the table and each link leads to
where the history has the deltas that came after one of them.
-/
namespace Sniper.Memory.Ghb
open SetAssoc (IntPtr)
open Lib.Log

variable {cfg : GhbConfig} {log : List (BitVec 64)} {delta x : BitVec 64} {i : Nat}
  {table : List TableEntry} {entry : TableEntry} {tableHead : Nat} {s : GhbPrefetcher}

/-! ## The table -/

/-- The entry is for the last delta that was recorded after its own. -/
def Pointed (cfg : GhbConfig) (log : List (BitVec 64)) (entry : TableEntry) : Prop :=
  ∃ p older, following log entry.delta log.length = p :: older ∧
    entry.ghbIndex = p % cfg.m_ghbSize ∧ entry.generation = p / cfg.m_ghbSize % 4

structure Indexed (cfg : GhbConfig) (log : List (BitVec 64)) (table : List TableEntry)
    (tableHead : Nat) : Prop where
  length : table.length = cfg.m_tableSize
  head_lt : tableHead < cfg.m_tableSize
  pointed : ∀ (i : Nat) entry, table[i]? = some entry → entry.delta ≠ INVALID_DELTA →
    Pointed cfg log entry
  unused : ∀ (i : Nat) entry, table[i]? = some entry → entry.delta = INVALID_DELTA →
    tableHead ≤ i ∧ ∀ (j : Nat) other, i ≤ j → table[j]? = some other → other.delta = INVALID_DELTA
  once : ∀ (i j : Nat) entry other, table[i]? = some entry → table[j]? = some other →
    entry.delta = other.delta → entry.delta ≠ INVALID_DELTA → i = j

theorem findEntry_some (h : s.findEntry delta = some (i, entry)) :
    s.m_ghbTable[i]? = some entry ∧ entry.delta = delta := by
  unfold GhbPrefetcher.findEntry at h
  dsimp only at h
  split at h
  case h_1 found hget =>
    split at h
    case isTrue heq =>
      obtain ⟨rfl, rfl⟩ := Prod.mk.inj (Option.some.inj h)
      exact ⟨hget, heq⟩
    case isFalse => cases h
  case h_2 => cases h

theorem findEntry_none (h : Indexed cfg log s.m_ghbTable tableHead) (hne : delta ≠ INVALID_DELTA)
    (hnone : s.findEntry delta = none) (hget : s.m_ghbTable[i]? = some entry) :
    entry.delta ≠ delta := by
  intro hdelta
  unfold GhbPrefetcher.findEntry at hnone
  dsimp only at hnone
  generalize hk : s.m_ghbTable.findIdx
    (fun entry => entry.delta = INVALID_DELTA || entry.delta = delta) = k at hnone
  split at hnone
  case h_1 found hfound =>
    split at hnone
    case isTrue => cases hnone
    case isFalse hother =>
      have hstop := List.findIdx_of_getElem?_eq_some (hk.symm ▸ hfound)
      have hinvalid : found.delta = INVALID_DELTA := by simpa [hother] using hstop
      have hlt : i < k := by
        by_contra hle
        refine hne (hdelta ▸ (h.unused k found hfound hinvalid).2 i entry ?_ hget)
        exact Nat.not_lt.mp hle
      obtain ⟨hlength, rfl⟩ := List.getElem?_eq_some_iff.mp hget
      have hskip := List.not_of_lt_findIdx (hk.symm ▸ hlt)
      simp [hdelta] at hskip
  case h_2 hend =>
    have hlength : s.m_ghbTable.length = k :=
      Nat.le_antisymm (List.getElem?_eq_none_iff.mp hend) (hk ▸ List.findIdx_le_length)
    have hall := List.findIdx_eq_length.mp (hk.trans hlength.symm) entry (List.mem_of_getElem? hget)
    simp [hdelta] at hall

theorem Pointed.keep (h : Pointed cfg log entry) (hlast : log.getLast? ≠ some entry.delta) :
    Pointed cfg (log ++ [delta]) entry := by
  unfold Pointed
  rw [List.length_append, List.length_singleton, following_concat, if_neg hlast]
  exact h

theorem pointed_last (hlast : log.getLast? = some x) : Pointed cfg (log ++ [delta])
    ⟨log.length % cfg.m_ghbSize, x, log.length / cfg.m_ghbSize % 4⟩ := by
  refine ⟨log.length, following log x log.length, ?_, rfl, rfl⟩
  rw [List.length_append, List.length_singleton, following_concat, if_pos hlast]

theorem Indexed.keep (h : Indexed cfg log table tableHead)
    (hlast : ∀ x ≠ INVALID_DELTA, log.getLast? ≠ some x) :
    Indexed cfg (log ++ [delta]) table tableHead := by
  refine ⟨h.length, h.head_lt, fun i entry hget hvalid => ?_, h.unused, h.once⟩
  exact (h.pointed i entry hget hvalid).keep (hlast _ hvalid)

theorem Indexed.update (h : Indexed cfg log table tableHead) (hget : table[i]? = some entry)
    (hvalid : entry.delta ≠ INVALID_DELTA) (hlast : log.getLast? = some entry.delta) :
    Indexed cfg (log ++ [delta]) (table.set i { entry with
      ghbIndex := log.length % cfg.m_ghbSize
      generation := log.length / cfg.m_ghbSize % 4 }) tableHead := by
  -- The deltas of the table are those that it had.
  have hold : ∀ (j : Nat) new, (table.set i { entry with
      ghbIndex := log.length % cfg.m_ghbSize
      generation := log.length / cfg.m_ghbSize % 4 })[j]? = some new →
        ∃ other, table[j]? = some other ∧ other.delta = new.delta := by
    intro j new hnew
    rcases set_cases hnew with ⟨rfl, rfl⟩ | ⟨_, hother⟩
    · exact ⟨entry, hget, rfl⟩
    · exact ⟨new, hother, rfl⟩
  refine ⟨(List.length_set ..).trans h.length, h.head_lt, fun j new hnew hne => ?_,
    fun j new hnew hinvalid => ?_, fun j k new new' hnew hnew' heq hne => ?_⟩
  · rcases set_cases hnew with ⟨_, rfl⟩ | ⟨hij, hother⟩
    · exact pointed_last hlast
    · refine (h.pointed j new hother hne).keep fun hsame => hij ?_
      have hdelta : entry.delta = new.delta := Option.some.inj (hlast.symm.trans hsame)
      exact h.once i j entry new hget hother hdelta hvalid
  · obtain ⟨other, hother, hdelta⟩ := hold j new hnew
    obtain ⟨hhead, hrest⟩ := h.unused j other hother (hdelta.trans hinvalid)
    refine ⟨hhead, fun k new' hle hnew' => ?_⟩
    obtain ⟨other', hother', hdelta'⟩ := hold k new' hnew'
    exact hdelta'.symm.trans (hrest k other' hle hother')
  · obtain ⟨other, hother, hdelta⟩ := hold j new hnew
    obtain ⟨other', hother', hdelta'⟩ := hold k new' hnew'
    refine h.once j k other other' hother hother' ?_ (hdelta.trans_ne hne)
    exact hdelta.trans (heq.trans hdelta'.symm)

theorem Indexed.add (h : Indexed cfg log table tableHead)
    (hnew : ∀ (i : Nat) entry, table[i]? = some entry → entry.delta ≠ x)
    (hvalid : x ≠ INVALID_DELTA) (hlast : log.getLast? = some x) :
    Indexed cfg (log ++ [delta]) (table.set tableHead
      ⟨log.length % cfg.m_ghbSize, x, log.length / cfg.m_ghbSize % 4⟩)
      ((tableHead + 1) % cfg.m_tableSize) := by
  have hpos : 0 < cfg.m_tableSize := Nat.zero_lt_of_lt h.head_lt
  refine ⟨(List.length_set ..).trans h.length, Nat.mod_lt _ hpos, fun j new hget hne => ?_,
    fun j new hget hinvalid => ?_, fun j k new new' hget hget' heq hne => ?_⟩
  · rcases set_cases hget with ⟨_, rfl⟩ | ⟨_, hother⟩
    · exact pointed_last hlast
    · refine (h.pointed j new hother hne).keep fun hsame => hnew j new hother ?_
      exact Option.some.inj (hsame.symm.trans hlast)
  · rcases set_cases hget with ⟨_, rfl⟩ | ⟨hne, hother⟩
    · exact absurd hinvalid hvalid
    · obtain ⟨hhead, hrest⟩ := h.unused j new hother hinvalid
      have hlt : tableHead < j := lt_of_le_of_ne hhead hne
      refine ⟨(Nat.mod_le _ _).trans hlt, fun k other hle hk => ?_⟩
      rcases set_cases hk with ⟨rfl, _⟩ | ⟨_, hother'⟩
      · exact absurd hle (Nat.not_le.mpr hlt)
      · exact hrest k other hle hother'
  · rcases set_cases hget with ⟨hj, rfl⟩ | ⟨_, hother⟩
    · rcases set_cases hget' with ⟨hk, _⟩ | ⟨_, hother'⟩
      · exact hj.symm.trans hk
      · exact absurd heq.symm (hnew k new' hother')
    · rcases set_cases hget' with ⟨_, rfl⟩ | ⟨_, hother'⟩
      · exact absurd heq (hnew j new hother)
      · exact h.once j k new new' hother hother' heq hne

/-! ## The ring -/

/-- The link leads to what came after the delta the time before. -/
def Linked (cfg : GhbConfig) (log : List (BitVec 64)) (p next : Nat) : Prop :=
  next = INVALID_INDEX ∨ ∃ x q older, log[p - 1]? = some x ∧
    following log x p = q :: older ∧ next = q % cfg.m_ghbSize

/-- What a slot holds that was written for a position of the history. -/
structure Written (cfg : GhbConfig) (log : List (BitVec 64)) (p : Nat) (slot : GHBEntry) :
    Prop where
  delta : log[p]? = some slot.delta
  generation : slot.generation = p / cfg.m_ghbSize % 4
  link : Linked cfg log p slot.nextIndex

structure Recorded (cfg : GhbConfig) (log : List (BitVec 64)) (s : GhbPrefetcher) : Prop where
  ring : Holds cfg.m_ghbSize .create (Written cfg log) log.length s.m_ghb
  head : s.m_ghbHead = log.length % cfg.m_ghbSize
  generation : s.m_generation = log.length / cfg.m_ghbSize % 4
  table : Indexed cfg log s.m_ghbTable s.m_tableHead

theorem Written.append {p slot} (h : Written cfg log p slot) :
    Written cfg (log ++ [delta]) p slot := by
  have hlt : p < log.length := (List.getElem?_eq_some_iff.mp h.delta).1
  refine ⟨(List.getElem?_append_left hlt).trans h.delta, h.generation, h.link.imp_right ?_⟩
  intro ⟨x, q, older, hx, hfollowing, hnext⟩
  refine ⟨x, q, older, ?_, (following_append hlt.le).trans hfollowing, hnext⟩
  exact (List.getElem?_append_left (by omega)).trans hx

theorem Recorded.push (h : Recorded cfg log s) (hpos : 0 < cfg.m_ghbSize) {next}
    (hnext : Linked cfg (log ++ [delta]) log.length next) :
    Holds cfg.m_ghbSize .create (Written cfg (log ++ [delta])) (log ++ [delta]).length
      (s.m_ghb.set s.m_ghbHead ⟨next, delta, s.m_generation⟩) := by
  rw [h.head, List.length_append, List.length_singleton]
  exact (h.ring.mono fun p _ slot hslot => hslot.append).push hpos
    ⟨List.getElem?_concat_length, h.generation, hnext⟩

theorem Recorded.prev (h : Recorded cfg log s) (hsize : 2 ≤ cfg.m_ghbSize) (new : GHBEntry) :
    ∃ prev, (s.m_ghb.set s.m_ghbHead new)[
        if 0 < s.m_ghbHead then s.m_ghbHead - 1 else cfg.m_ghbSize - 1]? = some prev ∧
      prev.delta = log.getLast?.getD INVALID_DELTA := by
  rcases log.eq_nil_or_concat' with rfl | ⟨front, z, rfl⟩
  · have hhead : s.m_ghbHead = 0 := h.head.trans (Nat.zero_mod _)
    refine ⟨.create, ?_, rfl⟩
    rw [hhead, if_neg (Nat.lt_irrefl 0), List.getElem?_set_ne (by omega)]
    exact h.ring.unused _ (by omega) (Nat.zero_le _)
  · have hlength : (front ++ [z]).length = front.length + 1 := List.length_append
    have hlt := Nat.mod_lt front.length (show 0 < cfg.m_ghbSize by omega)
    have hprev : (if 0 < s.m_ghbHead then s.m_ghbHead - 1 else cfg.m_ghbSize - 1) =
        front.length % cfg.m_ghbSize := by
      rw [h.head, hlength, (mod_succ (show 0 < cfg.m_ghbSize by omega)).1]
      grind
    obtain ⟨slot, hget, hslot⟩ := h.ring.held front.length (by omega) (by omega)
    refine ⟨slot, ?_, ?_⟩
    · rw [hprev, h.head, hlength,
        List.getElem?_set_ne (mod_ne (by omega) (by omega)).symm]
      exact hget
    · have hz := hslot.delta
      rw [List.getElem?_concat_length] at hz
      rw [List.getLast?_concat]
      exact (Option.some.inj hz).symm

theorem set_modify (list : List GHBEntry) (i : Nat) (slot : GHBEntry) (f : GHBEntry → GHBEntry) :
    (list.set i slot).modify i f = list.set i (f slot) := by
  refine List.ext_getElem? fun j => ?_
  by_cases hij : i = j
  · subst hij
    rw [List.getElem?_modify_eq, List.getElem?_set_self', List.getElem?_set_self']
    cases list[i]? with
    | none | some => rfl
  · rw [List.getElem?_modify_ne _ _ hij, List.getElem?_set_ne hij, List.getElem?_set_ne hij]

/-- What `updateTable` makes of the state with the new entry. -/
structure Updated (cfg : GhbConfig) (log : List (BitVec 64)) (delta : BitVec 64)
    (s s' : GhbPrefetcher) : Prop where
  lastAddress : s'.m_lastAddress = s.m_lastAddress
  head : s'.m_ghbHead = s.m_ghbHead
  generation : s'.m_generation = s.m_generation
  ring : ∃ next, Linked cfg (log ++ [delta]) log.length next ∧
    s'.m_ghb = s.m_ghb.set s.m_ghbHead ⟨next, delta, s.m_generation⟩
  table : Indexed cfg (log ++ [delta]) s'.m_ghbTable s'.m_tableHead

theorem updateTable_spec (delta : BitVec 64) (h : Recorded cfg log s) (hpos : 0 < cfg.m_ghbSize)
    {prevDelta} (hprev : prevDelta = log.getLast?.getD INVALID_DELTA) :
    ∃ s', GhbPrefetcher.updateTable cfg { s with
        m_ghb := s.m_ghb.set s.m_ghbHead ⟨INVALID_INDEX, delta, s.m_generation⟩ } prevDelta =
          some s' ∧
      Updated cfg log delta s s' := by
  unfold GhbPrefetcher.updateTable
  by_cases hinvalid : prevDelta = INVALID_DELTA
  · rw [if_pos hinvalid]
    refine ⟨_, rfl, rfl, rfl, rfl, ⟨INVALID_INDEX, .inl rfl, rfl⟩, ?_⟩
    refine h.table.keep fun x hx hlast => ?_
    rw [hlast] at hprev
    exact hx (hprev.symm.trans hinvalid)
  · have hlast : log.getLast? = some prevDelta := by
      cases hlog : log.getLast? with
      | none =>
        rw [hlog] at hprev
        exact absurd hprev hinvalid
      | some x =>
        rw [hlog] at hprev
        exact congrArg some hprev.symm
    rw [if_neg hinvalid]
    split
    case h_1 i entry hfind =>
      obtain ⟨hget, rfl⟩ := findEntry_some hfind
      obtain ⟨p, older, hfollowing, hindex, _⟩ := h.table.pointed i entry hget hinvalid
      have hlt : entry.ghbIndex <
          (s.m_ghb.set s.m_ghbHead ⟨INVALID_INDEX, delta, s.m_generation⟩).length := by
        rw [List.length_set, h.ring.length, hindex]
        exact Nat.mod_lt p hpos
      unfold GhbPrefetcher.isLive
      dsimp only
      rw [List.getElem?_eq_getElem hlt, Option.map_some, Option.map_some]
      refine ⟨_, rfl, rfl, rfl, rfl, ⟨_, ?_, set_modify ..⟩, ?_⟩
      · split
        case isTrue =>
          refine .inr ⟨entry.delta, p, older, ?_,
            (following_append le_rfl).trans hfollowing, hindex⟩
          rw [List.getLast?_eq_getElem?] at hlast
          exact (List.getElem?_append_left (List.getElem?_eq_some_iff.mp hlast).1).trans hlast
        case isFalse => exact .inl rfl
      · dsimp only
        rw [h.head, h.generation]
        exact h.table.update hget hinvalid hlast
    case h_2 hfind =>
      rw [if_pos (h.table.length.symm ▸ h.table.head_lt)]
      refine ⟨_, rfl, rfl, rfl, rfl, ⟨INVALID_INDEX, .inl rfl, rfl⟩, ?_⟩
      dsimp only
      rw [h.head, h.generation]
      exact h.table.add (fun i entry hget => findEntry_none h.table hinvalid hfind hget) hinvalid
        hlast

theorem record_spec (delta : BitVec 64) (h : Recorded cfg log s) (hsize : 2 ≤ cfg.m_ghbSize) :
    ∃ s', s.record cfg delta = some s' ∧ s'.m_lastAddress = s.m_lastAddress ∧
      Recorded cfg (log ++ [delta]) s' := by
  have hpos : 0 < cfg.m_ghbSize := by omega
  have hplace : s.m_ghbHead < s.m_ghb.length := by
    rw [h.head, h.ring.length]
    exact Nat.mod_lt _ hpos
  obtain ⟨prev, hget, hprev⟩ := h.prev hsize ⟨INVALID_INDEX, delta, s.m_generation⟩
  obtain ⟨s', hupdate, hs⟩ := updateTable_spec delta h hpos hprev
  obtain ⟨next, hnext, hring⟩ := hs.ring
  obtain ⟨hmod, hdiv⟩ := mod_succ (n := log.length) hpos
  have hlength : (log ++ [delta]).length = log.length + 1 := List.length_append
  refine ⟨s'.advance cfg, ?_, ?_, ?_⟩
  · unfold GhbPrefetcher.record
    dsimp only
    rw [if_pos hplace, hget]
    dsimp only
    rw [hupdate, Option.map_some]
  · unfold GhbPrefetcher.advance
    split
    · exact hs.lastAddress
    · exact hs.lastAddress
  · have hnew := hring ▸ h.push hpos hnext
    unfold GhbPrefetcher.advance
    rw [hs.head, hs.generation, h.head, h.generation]
    split
    case isTrue hwrap =>
      rw [if_pos hwrap] at hmod hdiv
      refine ⟨hnew, ?_, ?_, hs.table⟩
      · rw [hlength, hmod]
      · rw [hlength, hdiv]
        exact Nat.mod_add_mod ..
    case isFalse hwrap =>
      rw [if_neg hwrap] at hmod hdiv
      refine ⟨hnew, ?_, ?_, hs.table⟩
      · rw [hlength, hmod]
      · rw [hlength, hdiv]

end Sniper.Memory.Ghb
