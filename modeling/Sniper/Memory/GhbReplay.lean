import Sniper.Lib.Prefixes
import Sniper.Memory.GhbHistory

/-! # Replays of the history

What `getNextAddress` returns is a replay of the deltas that came after the current one before, as
long as it leaves alone the slots that were overwritten.
-/
namespace Sniper.Memory.Ghb
open SetAssoc (IntPtr)
open Lib.Log
open Lib.Prefixes (prefix_of_concat)

variable {cfg : GhbConfig} {log : List (BitVec 64)} {delta : BitVec 64} {s : GhbPrefetcher}
  {currentAddress : IntPtr} {prefetchList : List IntPtr} {before : List IntPtr} {a last : IntPtr}

/-- The deltas between consecutive addresses. -/
def deltas : List IntPtr → List (BitVec 64)
  | a :: b :: rest => (b - a) :: deltas (b :: rest)
  | _ => []

theorem deltas_concat (hlast : before.getLast? = some last) :
    deltas (before ++ [a]) = deltas before ++ [a - last] := by
  induction before using deltas.induct with
  | case1 b c rest ih =>
    rw [List.getLast?_cons_cons] at hlast
    exact congrArg _ (ih hlast)
  | case2 addresses hshort =>
    match addresses with
    | [] => cases hlast
    | [b] =>
      cases hlast
      rfl
    | b :: c :: rest => exact absurd rfl (hshort b c rest)

/-- The address is reached by the deltas from a position of the history on. -/
def ReplayedFrom (cfg : GhbConfig) (log : List (BitVec 64)) (p : Nat)
    (currentAddress address : IntPtr) : Prop :=
  ∃ k ≤ cfg.m_prefetchDepth, 1 ≤ k ∧ p + k ≤ log.length ∧
    address = currentAddress + ((log.drop p).take k).sum

/-- These deltas came after the current one, and they are among the last ones recorded. -/
def Replayed (cfg : GhbConfig) (log : List (BitVec 64)) (delta : BitVec 64)
    (currentAddress address : IntPtr) : Prop :=
  ∃ p < log.length, 0 < p ∧ log[p - 1]? = some delta ∧ log.length ≤ p + cfg.m_ghbSize ∧
    ReplayedFrom cfg log p currentAddress address

instance {p : Nat} {address : IntPtr} :
    Decidable (ReplayedFrom cfg log p currentAddress address) :=
  inferInstanceAs (Decidable (∃ k ≤ cfg.m_prefetchDepth, _))

instance {address : IntPtr} : Decidable (Replayed cfg log delta currentAddress address) :=
  inferInstanceAs (Decidable (∃ p < log.length, _))

/-! ## What has to hold of a call -/

/-- The replay from a slot ends after `e` deltas, and its index does not overflow. -/
def StopsAt (cfg : GhbConfig) (s : GhbPrefetcher) (ghbIndex e : Nat) : Prop :=
  ghbIndex + e ≤ 2 ^ 32 ∧ (e = cfg.m_prefetchDepth ∨
    (s.m_ghb[GhbPrefetcher.slotAt cfg ghbIndex e]?).map GHBEntry.delta = some INVALID_DELTA)

/-- Of `n` deltas the walk comes to slots that were not overwritten: the positions are those that
came after the current delta, the latest first, and the head is not before the end of a replay. -/
def Fresh (cfg : GhbConfig) (s : GhbPrefetcher) (n : Nat) : Nat → Nat → List Nat → Prop
  | left + 1, ghbIndex, p :: older => ghbIndex = INVALID_INDEX ∨
      n ≤ p + cfg.m_ghbSize ∧ (∃ e ≤ n - p, StopsAt cfg s ghbIndex e) ∧
        ∀ slot ∈ s.m_ghb[ghbIndex]?, Fresh cfg s n left (s.follow ghbIndex slot.nextIndex) older
  | _, _, _ => True

structure Careful (cfg : GhbConfig) (before : List IntPtr) (s : GhbPrefetcher) (a : IntPtr) :
    Prop where
  started : s.m_lastAddress ≠ INVALID_ADDRESS
  size : 2 ≤ cfg.m_ghbSize
  table : 0 < cfg.m_tableSize
  searches : a - s.m_lastAddress ≠ INVALID_DELTA ∨
    ∀ entry ∈ s.m_ghbTable, entry.delta ≠ INVALID_DELTA
  fresh : ∀ found ∈ s.findEntry (a - s.m_lastAddress), s.isLive found.2 = some true →
    Fresh cfg s (deltas before).length cfg.m_prefetchWidth found.2.ghbIndex
      (following (deltas before) (a - s.m_lastAddress) (deltas before).length)

theorem careful_of_miss (hstarted : s.m_lastAddress ≠ INVALID_ADDRESS) (hsize : 2 ≤ cfg.m_ghbSize)
    (htable : 0 < cfg.m_tableSize) (hdelta : a - s.m_lastAddress ≠ INVALID_DELTA)
    (hmiss : s.findEntry (a - s.m_lastAddress) = none) : Careful cfg before s a := by
  refine ⟨hstarted, hsize, htable, .inl hdelta, fun found hfound => ?_⟩
  rw [hmiss] at hfound
  cases hfound

/-! ## A replay -/

theorem Recorded.slotAt (h : Recorded cfg log s) {p d} (hlive : log.length ≤ p + cfg.m_ghbSize)
    (hlt : p + d < log.length) (hindex : p % cfg.m_ghbSize + d < 2 ^ 32) :
    ∃ slot, s.m_ghb[GhbPrefetcher.slotAt cfg (p % cfg.m_ghbSize) d]? = some slot ∧
      log[p + d]? = some slot.delta := by
  obtain ⟨slot, hget, hslot⟩ := h.ring.held (p + d) hlt (by omega)
  refine ⟨slot, ?_, hslot.delta⟩
  unfold GhbPrefetcher.slotAt
  rw [Nat.mod_eq_of_lt hindex, Nat.mod_add_mod]
  exact hget

theorem mem_push {list : List IntPtr} {x y : IntPtr}
    (h : y ∈ if x ∈ list then list else list ++ [x]) : y ∈ list ∨ y = x := by
  split at h
  · exact .inl h
  · exact (List.mem_append.mp h).imp_right List.mem_singleton.mp

theorem replay_spec (currentAddress : IntPtr) (prefetchList : List IntPtr)
    (h : Recorded cfg log s) {p e : Nat} (hlive : log.length ≤ p + cfg.m_ghbSize)
    (he : p + e ≤ log.length) (hstop : StopsAt cfg s (p % cfg.m_ghbSize) e) {left d : Nat}
    (hleft : d + left = cfg.m_prefetchDepth) (hd : d ≤ e) {newAddress : IntPtr}
    (hnew : newAddress = currentAddress + ((log.drop p).take d).sum) :
    ∃ result, s.replay cfg (p % cfg.m_ghbSize) left d newAddress prefetchList = some result ∧
      ∀ address ∈ result,
        address ∈ prefetchList ∨ ReplayedFrom cfg log p currentAddress address := by
  obtain ⟨hindex, hend⟩ := hstop
  induction left generalizing d newAddress prefetchList with
  | zero => exact ⟨prefetchList, rfl, fun _ hmem => .inl hmem⟩
  | succ left ih =>
    unfold GhbPrefetcher.replay
    -- The loop is where it stops, or at a slot that still has the delta of its position.
    rcases hd.eq_or_lt with rfl | hlt
    · obtain ⟨slot, hget, hslot⟩ := Option.map_eq_some_iff.mp (hend.resolve_left (by omega))
      rw [hget]
      dsimp only
      rw [if_pos hslot]
      exact ⟨prefetchList, rfl, fun _ hmem => .inl hmem⟩
    · obtain ⟨slot, hget, hslot⟩ := h.slotAt hlive (show p + d < log.length by omega)
        (show p % cfg.m_ghbSize + d < 2 ^ 32 by omega)
      rw [hget]
      dsimp only
      split
      case isTrue => exact ⟨prefetchList, rfl, fun _ hmem => .inl hmem⟩
      case isFalse =>
        have hsum : newAddress + slot.delta =
            currentAddress + ((log.drop p).take (d + 1)).sum := by
          rw [List.take_add_one, List.getElem?_drop, hslot, Option.toList_some, List.sum_append,
            List.sum_singleton, hnew, add_assoc]
        refine (ih _ (by omega) hlt hsum).imp fun result hresult => ⟨hresult.1, ?_⟩
        intro address hmem
        rcases hresult.2 address hmem with hlist | hreplayed
        · refine (mem_push hlist).imp_right fun heq => ⟨d + 1, by omega, by omega, by omega, ?_⟩
          exact heq.trans hsum
        · exact .inr hreplayed

/-! ## The walk -/

theorem follow_cases (ghbIndex nextIndex : Nat) :
    s.follow ghbIndex nextIndex = INVALID_INDEX ∨ s.follow ghbIndex nextIndex = nextIndex := by
  unfold GhbPrefetcher.follow
  split
  · exact .inl rfl
  · exact .inr rfl

theorem walk_spec (prefetchList : List IntPtr) (h : Recorded cfg log s) {left n ghbIndex}
    (hn : n ≤ log.length) (hat : ghbIndex = INVALID_INDEX ∨
      ∃ p older, following log delta n = p :: older ∧ ghbIndex = p % cfg.m_ghbSize)
    (hfresh : Fresh cfg s log.length left ghbIndex (following log delta n)) :
    ∃ result, s.walk cfg currentAddress left ghbIndex prefetchList = some result ∧
      ∀ address ∈ result, address ∈ prefetchList ∨
        Replayed cfg log delta currentAddress address := by
  induction left generalizing n ghbIndex prefetchList with
  | zero => exact ⟨prefetchList, rfl, fun _ hmem => .inl hmem⟩
  | succ left ih =>
    unfold GhbPrefetcher.walk
    split
    case isTrue => exact ⟨prefetchList, rfl, fun _ hmem => .inl hmem⟩
    case isFalse hindex =>
      obtain ⟨p, older, hfollowing, rfl⟩ := hat.resolve_left hindex
      obtain ⟨hpos, hlt, hdelta, rfl⟩ := following_cons hfollowing
      rw [hfollowing] at hfresh
      obtain ⟨hlive, ⟨e, he, hstop⟩, hnext⟩ := hfresh.resolve_left hindex
      have hp : p < log.length := hlt.trans_le hn
      obtain ⟨slot, hget, hslot⟩ := h.ring.held p hp hlive
      obtain ⟨mid, hmid, hreplayed⟩ := replay_spec currentAddress prefetchList h hlive
        (show p + e ≤ log.length by omega) hstop (Nat.zero_add _) (Nat.zero_le e)
        (add_zero currentAddress).symm
      rw [hmid, hget]
      dsimp only
      refine (ih mid hp.le ?_ (hnext slot hget)).imp fun result hresult => ⟨hresult.1, ?_⟩
      -- A link that is taken leads to the position before `p`, which is next in `following`.
      · rcases follow_cases (s := s) (p % cfg.m_ghbSize) slot.nextIndex with hend | hlink
        · exact .inl hend
        · rw [hlink]
          refine hslot.link.imp_right ?_
          intro ⟨x, q, older, hx, hbefore, hq⟩
          obtain rfl := Option.some.inj (hx.symm.trans hdelta)
          exact ⟨q, older, hbefore, hq⟩
      · intro address hmem
        rcases hresult.2 address hmem with hmid | hlater
        · refine (hreplayed address hmid).imp_right fun hfrom => ?_
          exact ⟨p, hp, hpos, hdelta, hlive, hfrom⟩
        · exact .inr hlater

/-! ## Calls -/

theorem prefetch_spec (currentAddress : IntPtr) (h : Recorded cfg log s)
    (hpos : 0 < cfg.m_ghbSize)
    (hsearches : delta ≠ INVALID_DELTA ∨ ∀ entry ∈ s.m_ghbTable, entry.delta ≠ INVALID_DELTA)
    (hfresh : ∀ found ∈ s.findEntry delta, s.isLive found.2 = some true →
      Fresh cfg s log.length cfg.m_prefetchWidth found.2.ghbIndex
        (following log delta log.length)) :
    ∃ result, s.prefetch cfg currentAddress delta = some result ∧
      ∀ address ∈ result, Replayed cfg log delta currentAddress address := by
  have hnil : ∀ address ∈ ([] : List IntPtr), Replayed cfg log delta currentAddress address :=
    fun _ hmem => absurd hmem List.not_mem_nil
  unfold GhbPrefetcher.prefetch
  split
  case h_1 => exact ⟨[], rfl, hnil⟩
  case h_2 i entry hfind =>
    obtain ⟨hget, rfl⟩ := findEntry_some hfind
    have hvalid : entry.delta ≠ INVALID_DELTA :=
      hsearches.elim id fun hall => hall entry (List.mem_of_getElem? hget)
    obtain ⟨p, older, hfollowing, hindex, _⟩ := h.table.pointed i entry hget hvalid
    split
    case h_1 hrange =>
      have hout : s.m_ghb[entry.ghbIndex]? = none := Option.map_eq_none_iff.mp hrange
      rw [List.getElem?_eq_none_iff, h.ring.length, hindex] at hout
      exact absurd (Nat.mod_lt p hpos) (Nat.not_lt.mpr hout)
    case h_2 => exact ⟨[], rfl, hnil⟩
    case h_3 hlive =>
      obtain ⟨result, hresult, hall⟩ := walk_spec [] h le_rfl (.inr ⟨p, older, hfollowing, hindex⟩)
        (hfresh (i, entry) hfind hlive)
      refine ⟨result, hresult, fun address hmem => ?_⟩
      exact (hall address hmem).resolve_left List.not_mem_nil

theorem getNextAddress_spec (h : Recorded cfg (deltas before) s) (hcareful : Careful cfg before s a)
    (hlast : before.getLast? = some s.m_lastAddress) :
    ∃ result s', s.getNextAddress cfg a = some (result, s') ∧ s'.m_lastAddress = a ∧
      Recorded cfg (deltas (before ++ [a])) s' ∧
        ∀ address ∈ result, Replayed cfg (deltas before) (a - s.m_lastAddress) a address := by
  have hstored : Recorded cfg (deltas before) { s with m_lastAddress := a } :=
    ⟨h.ring, h.head, h.generation, h.table⟩
  have hpos : 0 < cfg.m_ghbSize := Nat.zero_lt_of_lt hcareful.size
  obtain ⟨result, hresult, hall⟩ := prefetch_spec a h hpos hcareful.searches hcareful.fresh
  obtain ⟨s', hrecord, haddress, hs'⟩ := record_spec (a - s.m_lastAddress) hstored hcareful.size
  refine ⟨result, s', ?_, haddress, deltas_concat hlast ▸ hs', hall⟩
  unfold GhbPrefetcher.getNextAddress
  rw [if_neg hcareful.started]
  dsimp only
  rw [hresult, hrecord]

/-! ## Runs -/

theorem create_recorded (hpos : 0 < cfg.m_tableSize) :
    Recorded cfg [] (GhbPrefetcher.create cfg) := by
  have hentry : ∀ (i : Nat) entry, (List.replicate cfg.m_tableSize TableEntry.create)[i]? =
      some entry → entry = .create := fun i entry hget =>
    List.eq_of_mem_replicate (List.mem_of_getElem? hget)
  refine ⟨holds_blank, (Nat.zero_mod _).symm, by simp [GhbPrefetcher.create], ?_⟩
  refine ⟨List.length_replicate, hpos, fun i entry hget hne => ?_,
    fun i entry hget _ => ⟨Nat.zero_le i, fun j other _ hother => ?_⟩,
    fun i j entry other hget _ _ hne => ?_⟩
  · exact absurd (hentry i entry hget ▸ rfl) hne
  · rw [hentry j other hother]
    rfl
  · exact absurd (hentry i entry hget ▸ rfl) hne

/-- What holds of the state after these addresses. -/
structure Reached (cfg : GhbConfig) (before : List IntPtr) (s : GhbPrefetcher) : Prop where
  lastAddress : s.m_lastAddress = before.getLast?.getD INVALID_ADDRESS
  recorded : 0 < cfg.m_tableSize → Recorded cfg (deltas before) s

theorem Reached.step (h : Reached cfg before s) (hcareful : before = [] ∨ Careful cfg before s a) :
    ∃ result s', s.getNextAddress cfg a = some (result, s') ∧ Reached cfg (before ++ [a]) s' ∧
      ∀ address ∈ result, ∃ delta ∈ (deltas (before ++ [a])).getLast?,
        Replayed cfg (deltas before) delta a address := by
  rcases hcareful with rfl | hcareful
  · refine ⟨[], { s with m_lastAddress := a }, if_pos h.lastAddress, ⟨rfl, fun htable => ?_⟩,
      fun _ hmem => absurd hmem List.not_mem_nil⟩
    have hrecorded := h.recorded htable
    exact ⟨hrecorded.ring, hrecorded.head, hrecorded.generation, hrecorded.table⟩
  · have hlast : before.getLast? = some s.m_lastAddress := by
      have haddress := h.lastAddress
      cases hbefore : before.getLast? with
      | none =>
        rw [hbefore] at haddress
        exact absurd haddress hcareful.started
      | some last =>
        rw [hbefore] at haddress
        exact congrArg some haddress.symm
    obtain ⟨result, s', hcall, haddress, hrecorded, hall⟩ :=
      getNextAddress_spec (h.recorded hcareful.table) hcareful hlast
    refine ⟨result, s', hcall, ⟨?_, fun _ => hrecorded⟩, fun address hmem => ?_⟩
    · rw [List.getLast?_concat]
      exact haddress
    · refine ⟨a - s.m_lastAddress, ?_, hall address hmem⟩
      rw [deltas_concat hlast, List.getLast?_concat]
      rfl

theorem run_append {before} : GhbPrefetcher.run cfg (before ++ [a]) =
    (GhbPrefetcher.run cfg before).bind fun s => (s.getNextAddress cfg a).map Prod.snd := by
  unfold GhbPrefetcher.run
  rw [List.foldlM_append]
  refine congrArg _ (funext fun s => ?_)
  exact bind_pure _

/-- Each call of a run after the first is careful. -/
def CarefulRun (cfg : GhbConfig) (addresses : List IntPtr) : Prop :=
  ∀ before a, before ++ [a] <+: addresses → ∀ s ∈ GhbPrefetcher.run cfg before,
    before = [] ∨ Careful cfg before s a

theorem CarefulRun.reached {addresses} (hcareful : CarefulRun cfg addresses)
    (hbefore : before <+: addresses) :
    ∃ s, GhbPrefetcher.run cfg before = some s ∧ Reached cfg before s := by
  induction before using List.reverseRecOn with
  | nil => exact ⟨.create cfg, rfl, rfl, create_recorded⟩
  | append_singleton before a ih =>
    obtain ⟨s, hs, hreached⟩ := ih (prefix_of_concat hbefore)
    obtain ⟨result, s', hcall, hs', _⟩ := hreached.step (hcareful before a hbefore s hs)
    refine ⟨s', ?_, hs'⟩
    rw [run_append, hs, Option.bind_some, hcall, Option.map_some]

theorem CarefulRun.concat {addresses} (h : CarefulRun cfg addresses)
    (hlast : ∀ s ∈ GhbPrefetcher.run cfg addresses, addresses = [] ∨ Careful cfg addresses s a) :
    CarefulRun cfg (addresses ++ [a]) := by
  intro before b hbefore
  rcases List.prefix_concat_iff.mp hbefore with heq | hprefix
  · obtain ⟨rfl, hb⟩ := List.append_inj' heq rfl
    obtain rfl : b = a := List.singleton_inj.mp hb
    exact hlast
  · exact h before b hprefix

/-- Every address that is returned in a careful run is a replay of the history. -/
theorem replays_history (addresses : List IntPtr) (hcareful : CarefulRun cfg addresses)
    (hbefore : before ++ [a] <+: addresses) :
    ∃ result, GhbPrefetcher.returned cfg before a = some result ∧
      ∀ address ∈ result, ∃ delta ∈ (deltas (before ++ [a])).getLast?,
        Replayed cfg (deltas before) delta a address := by
  obtain ⟨s, hs, hreached⟩ := hcareful.reached (prefix_of_concat hbefore)
  obtain ⟨result, s', hcall, _, hall⟩ := hreached.step (hcareful before a hbefore s hs)
  refine ⟨result, ?_, hall⟩
  unfold GhbPrefetcher.returned
  rw [hs, Option.bind_some, hcall, Option.map_some]

/-- Two slots, which hold the deltas of three addresses with one stride. -/
def twoSlots : GhbConfig := ⟨1, 1, 2, 1, by decide⟩

theorem twoSlots_careful : CarefulRun twoSlots [0, 1, 2, 3] := by
  have hempty : CarefulRun twoSlots [] := fun before a hbefore =>
    absurd (List.prefix_nil.mp hbefore) (List.concat_ne_nil a before)
  have hfirst : CarefulRun twoSlots [0] := hempty.concat fun s _ => .inl rfl
  have hsecond : CarefulRun twoSlots [0, 1] := by
    refine hfirst.concat fun s hs => .inr ?_
    have hrun : GhbPrefetcher.run twoSlots [0] =
        some ⟨0, 0, 0, [.create, .create], 0, [.create]⟩ := by decide +kernel
    cases hrun.symm.trans hs
    exact careful_of_miss (by decide) (by decide) (by decide) (by decide) (by decide)
  have hthird : CarefulRun twoSlots [0, 1, 2] := by
    refine hsecond.concat fun s hs => .inr ?_
    have hrun : GhbPrefetcher.run twoSlots [0, 1] =
        some ⟨1, 1, 0, [⟨INVALID_INDEX, 1, 0⟩, .create], 0, [.create]⟩ := by decide +kernel
    cases hrun.symm.trans hs
    exact careful_of_miss (by decide) (by decide) (by decide) (by decide) (by decide)
  refine hthird.concat fun s hs => .inr ?_
  have hrun : GhbPrefetcher.run twoSlots [0, 1, 2] =
      some ⟨2, 0, 1, [⟨INVALID_INDEX, 1, 0⟩, ⟨INVALID_INDEX, 1, 0⟩], 0, [⟨1, 1, 0⟩]⟩ := by
    decide +kernel
  cases hrun.symm.trans hs
  refine ⟨by decide, by decide, by decide, .inl (by decide), fun found hfound _ => ?_⟩
  cases hfound
  exact .inr ⟨by decide, ⟨1, by decide, by decide, .inl rfl⟩, fun _ _ => trivial⟩

theorem replays_stride : ∃ result, GhbPrefetcher.returned twoSlots [0, 1, 2] 3 = some result ∧
    ∀ address ∈ result, ∃ delta ∈ (deltas [0, 1, 2, 3]).getLast?,
      Replayed twoSlots (deltas [0, 1, 2]) delta 3 address :=
  replays_history [0, 1, 2, 3] twoSlots_careful (List.prefix_refl _)

/-- Three slots and a replay of two deltas. -/
def threeSlots : GhbConfig := ⟨1, 2, 3, 4, (by decide : 3 < 4294967296)⟩

/-- The second delta of the replay is the oldest in the ring. -/
theorem replays_across_head : ¬ ∀ cfg before a result,
    GhbPrefetcher.returned cfg before a = some result → ∀ address ∈ result,
      ∃ delta ∈ (deltas (before ++ [a])).getLast?,
        Replayed cfg (deltas before) delta a address := by
  intro h
  have hreturned : GhbPrefetcher.returned threeSlots [0, 5, 6, 8] 9 = some [11, 16] := by
    decide +kernel
  have hdeltas : deltas [0, 5, 6, 8] = [5, 1, 2] := by decide
  have hlast : (deltas ([0, 5, 6, 8] ++ [9])).getLast? = some 1 := by decide
  obtain ⟨delta, hdelta, hreplayed⟩ := h threeSlots _ 9 _ hreturned 16 (by decide)
  obtain rfl : delta = 1 := Option.some.inj (hdelta.symm.trans hlast)
  rw [hdeltas] at hreplayed
  exact absurd hreplayed (by decide)

end Sniper.Memory.Ghb
