import Sniper.Lib.SortedMap

/-! # Segments by their ends

Half-open segments with a value each, in a map from the end of a segment to its start and value.
Recording a segment cuts the one that its start lies in.
-/
namespace Sniper.Lib.Segments
open SortedMap

variable {T V : Type} [LinearOrder T]

abbrev SegmentMap (T V : Type) := List (T × (T × V))

/-- The value of the segment that holds `x`. -/
def holder (x : T) (m : SegmentMap T V) : Option V :=
  match upper_bound x m with
  | some (_, start, v) => if start ≤ x then some v else none
  | none => none

/-- The segment that holds `lower` loses what lies in `[lower, upper)`. -/
def cut (lower upper : T) (m : SegmentMap T V) : SegmentMap T V :=
  match upper_bound lower m with
  | some (stop, start, w) =>
    if start ≤ lower then
      let m := if start < lower then assign lower (start, w) m else m
      if upper < stop then assign stop (upper, w) m else erase stop m
    else m
  | none => m

/-- The segment `[lower, upper)` with the value `v`. -/
def record (lower upper : T) (v : V) (m : SegmentMap T V) : SegmentMap T V :=
  assign upper (lower, v) (cut lower upper m)

structure Cover (m : SegmentMap T V) : Prop where
  sorted : Sorted m
  ordered : ∀ e ∈ m, e.2.1 ≤ e.1
  disjoint : ∀ e ∈ m, ∀ e' ∈ m, e.1 < e'.1 → e.1 ≤ e'.2.1

/-- What the new segment may meet. -/
structure Clear (lower upper : T) (m : SegmentMap T V) : Prop where
  le : lower ≤ upper
  inside : ∀ e ∈ m, lower < e.2.1 → e.2.1 < upper → e.1 = upper
  empty : lower = upper → ∀ e ∈ m, e.2.1 < lower → e.1 < lower

variable {m : SegmentMap T V} {e q : T × (T × V)} {lower upper x : T} {v w : V}

theorem Cover.holder_eq_some_iff (h : Cover m) :
    holder x m = some v ↔ ∃ e ∈ m, e.2.1 ≤ x ∧ x < e.1 ∧ e.2.2 = v := by
  constructor
  · intro hholder
    unfold holder at hholder
    cases hfirst : upper_bound x m with
    | none =>
      rw [hfirst] at hholder
      cases hholder
    | some e =>
      rw [hfirst] at hholder
      obtain ⟨hmem, hlt, _⟩ := h.sorted.upper_bound_eq_some_iff.mp hfirst
      dsimp only at hholder
      split at hholder
      case isTrue hle => exact ⟨e, hmem, hle, hlt, Option.some.inj hholder⟩
      case isFalse => cases hholder
  · rintro ⟨e, hmem, hle, hlt, rfl⟩
    have hfirst : upper_bound x m = some e := by
      refine h.sorted.upper_bound_eq_some_iff.mpr ⟨hmem, hlt, fun other hother hx => ?_⟩
      by_contra hbefore
      exact absurd (h.disjoint other hother e hmem (not_le.mp hbefore)) (hle.trans_lt hx).not_ge
    unfold holder
    rw [hfirst]
    exact if_pos hle

def pieces (lower upper : T) (q : T × (T × V)) : SegmentMap T V :=
  if q.1 ≤ lower ∨ upper ≤ q.2.1 then [q]
  else (if q.2.1 < lower then [(lower, (q.2.1, q.2.2))] else []) ++
    if upper < q.1 then [(q.1, (upper, q.2.2))] else []

theorem mem_pieces : e ∈ pieces lower upper q ↔
    (q.1 ≤ lower ∨ upper ≤ q.2.1) ∧ e = q ∨ (lower < q.1 ∧ q.2.1 < upper) ∧
      (q.2.1 < lower ∧ e = (lower, (q.2.1, q.2.2)) ∨ upper < q.1 ∧ e = (q.1, (upper, q.2.2))) := by
  unfold pieces
  split
  case isTrue hapart =>
    rw [List.mem_singleton]
    constructor
    · exact fun heq => .inl ⟨hapart, heq⟩
    · rintro (⟨_, heq⟩ | ⟨⟨hlower, hupper⟩, _⟩)
      · exact heq
      · exact absurd hapart (not_or.mpr ⟨hlower.not_ge, hupper.not_ge⟩)
  case isFalse hmeet =>
    have hmeet' := not_or.mp hmeet
    rw [not_le, not_le] at hmeet'
    rw [List.mem_append]
    constructor
    · intro hmem
      refine .inr ⟨hmeet', hmem.imp (fun hleft => ?_) fun hright => ?_⟩
      · split at hleft
        · exact ⟨‹_›, List.mem_singleton.mp hleft⟩
        · cases hleft
      · split at hright
        · exact ⟨‹_›, List.mem_singleton.mp hright⟩
        · cases hright
    · rintro (⟨hapart, _⟩ | ⟨_, ⟨hlt, rfl⟩ | ⟨hlt, rfl⟩⟩)
      · exact absurd hapart hmeet
      · exact .inl (by rw [if_pos hlt]; exact List.mem_singleton_self _)
      · exact .inr (by rw [if_pos hlt]; exact List.mem_singleton_self _)

theorem Cover.behind (h : Cover m) {first} (hfirst : upper_bound lower m = some first) (hq : q ∈ m)
    (hne : q ≠ first) :
    q.1 ≤ lower ∨ first.1 ≤ q.2.1 := by
  obtain ⟨hmem, hlt, hleast⟩ := h.sorted.upper_bound_eq_some_iff.mp hfirst
  rcases le_or_gt q.1 lower with hle | hgt
  · exact .inl hle
  · have hkey : first.1 ≠ q.1 := fun heq => hne (h.sorted.eq_of_key hq hmem heq.symm)
    exact .inr (h.disjoint first hmem q hq ((hleast q hq hgt).lt_of_ne hkey))

theorem Cover.sorted_first (h : Cover m) (start : T) (w : V) :
    Sorted (if start < lower then assign lower (start, w) m else m) := by
  split
  · exact h.sorted.assign _ _
  · exact h.sorted

theorem Cover.sorted_cut (h : Cover m) (stop : T) {start w} :
    Sorted (if upper < stop then
        assign stop (upper, w) (if start < lower then assign lower (start, w) m else m)
      else erase stop (if start < lower then assign lower (start, w) m else m)) := by
  split
  · exact (h.sorted_first start w).assign _ _
  · exact (h.sorted_first start w).erase _

theorem Cover.mem_cut (h : Cover m) {stop start} (hmem : (stop, (start, w)) ∈ m)
    (hlt : lower < stop) :
    e ∈ (if upper < stop then
        assign stop (upper, w) (if start < lower then assign lower (start, w) m else m)
      else erase stop (if start < lower then assign lower (start, w) m else m)) ↔
      upper < stop ∧ e = (stop, (upper, w)) ∨
        (start < lower ∧ e = (lower, (start, w)) ∨ e ∈ m) ∧ e.1 ≠ stop := by
  have hsorted : Sorted (if start < lower then assign lower (start, w) m else m) :=
    h.sorted_first start w
  have hfirst : e ∈ (if start < lower then assign lower (start, w) m else m) ↔
      start < lower ∧ e = (lower, (start, w)) ∨ e ∈ m := by
    split
    case isTrue hbefore =>
      rw [h.sorted.mem_assign]
      constructor
      · exact Or.imp (fun heq => ⟨hbefore, heq⟩) And.left
      · refine Or.imp And.right fun he => ⟨he, fun hkey => ?_⟩
        -- No segment ends in the one that holds `lower`.
        exact absurd hbefore (hkey ▸ h.disjoint e he _ hmem (hkey ▸ hlt)).not_gt
    case isFalse hle =>
      exact ⟨.inr, fun hor => hor.resolve_left fun hnew => hle hnew.1⟩
  split
  case isTrue hupper =>
    rw [hsorted.mem_assign, hfirst]
    exact or_congr_left ⟨fun heq => ⟨hupper, heq⟩, And.right⟩
  case isFalse hupper =>
    rw [mem_erase, hfirst]
    exact ⟨.inr, fun hor => hor.resolve_left fun hnew => hupper hnew.1⟩

theorem Cover.mem_record (h : Cover m) (hclear : Clear lower upper m) :
    e ∈ record lower upper v m ↔
      e = (upper, (lower, v)) ∨ (∃ q ∈ m, e ∈ pieces lower upper q) ∧ e.1 ≠ upper := by
  -- What is there before the new segment is added.
  have hassign : ∀ rest : SegmentMap T V, Sorted rest →
      (e.1 ≠ upper → (e ∈ rest ↔ ∃ q ∈ m, e ∈ pieces lower upper q)) →
      (e ∈ assign upper (lower, v) rest ↔
        e = (upper, (lower, v)) ∨ (∃ q ∈ m, e ∈ pieces lower upper q) ∧ e.1 ≠ upper) := by
    intro rest hsorted hrest
    rw [hsorted.mem_assign]
    exact or_congr_right (and_congr_left hrest)
  -- A segment that starts behind `lower` is kept, or has the key of the new one.
  have hkept : ∀ q ∈ m, e.1 ≠ upper → q.1 ≤ lower ∨ lower < q.2.1 →
      (e ∈ pieces lower upper q ↔ e = q) := by
    intro q hq hne hapart
    rw [mem_pieces]
    constructor
    · rintro (⟨_, heq⟩ | ⟨⟨hlower, hupper⟩, ⟨hlt, _⟩ | ⟨hlt, _⟩⟩)
      · exact heq
      · exact absurd (hapart.resolve_left hlower.not_ge) hlt.not_gt
      · exact absurd (hclear.inside q hq (hapart.resolve_left hlower.not_ge) hupper) hlt.ne'
    · rintro rfl
      rcases hapart with hle | hgt
      · exact .inl ⟨.inl hle, rfl⟩
      · refine .inl ⟨.inr (not_lt.mp fun hlt => hne (hclear.inside e hq hgt hlt)), rfl⟩
  have hall : (∀ q ∈ m, q.1 ≤ lower ∨ lower < q.2.1) → e.1 ≠ upper →
      (e ∈ m ↔ ∃ q ∈ m, e ∈ pieces lower upper q) := by
    intro hapart hne
    constructor
    · exact fun hmem => ⟨e, hmem, (hkept e hmem hne (hapart e hmem)).mpr rfl⟩
    · rintro ⟨q, hq, hpiece⟩
      rw [(hkept q hq hne (hapart q hq)).mp hpiece]
      exact hq
  unfold record cut
  cases hfirst : upper_bound lower m with
  | none =>
    exact hassign m h.sorted (hall fun q hq => .inl (upper_bound_eq_none_iff.mp hfirst q hq))
  | some first =>
    obtain ⟨stop, start, w⟩ := first
    obtain ⟨hmem, hlt, _⟩ := h.sorted.upper_bound_eq_some_iff.mp hfirst
    dsimp only
    split
    case isFalse hstart =>
      refine hassign m h.sorted (hall fun q hq => ?_)
      by_cases hq' : q = (stop, (start, w))
      · subst hq'
        exact .inr (not_le.mp hstart)
      · exact (h.behind hfirst hq hq').imp_right hlt.trans_le
    case isTrue hstart =>
      refine hassign _ (h.sorted_cut stop) fun hne => ?_
      rw [h.mem_cut hmem hlt]
      constructor
      · rintro (⟨hupper, rfl⟩ | ⟨⟨hbefore, rfl⟩ | hother, hstop⟩)
        · refine ⟨_, hmem, mem_pieces.mpr ?_⟩
          rcases lt_or_ge start upper with hmeet | hapart
          · exact .inr ⟨⟨hlt, hmeet⟩, .inr ⟨hupper, rfl⟩⟩
          · rw [le_antisymm hapart (hstart.trans hclear.le)]
            exact .inl ⟨.inr le_rfl, rfl⟩
        · exact ⟨_, hmem, mem_pieces.mpr
            (.inr ⟨⟨hlt, hbefore.trans_le hclear.le⟩, .inl ⟨hbefore, rfl⟩⟩)⟩
        · have hapart := h.behind hfirst hother fun heq => hstop (congrArg Prod.fst heq)
          exact ⟨e, hother, (hkept e hother hne (hapart.imp_right hlt.trans_le)).mpr rfl⟩
      · rintro ⟨q, hq, hpiece⟩
        by_cases hq' : q = (stop, (start, w))
        case pos =>
          subst hq'
          rcases mem_pieces.mp hpiece with ⟨hapart, rfl⟩ | ⟨_, ⟨hbefore, rfl⟩ | ⟨hupper, rfl⟩⟩
          · have hstart' := hapart.resolve_left hlt.not_ge
            rw [le_antisymm (hstart.trans hclear.le) hstart']
            exact .inl ⟨(hstart'.trans hstart).trans_lt hlt, rfl⟩
          · exact .inr ⟨.inl ⟨hbefore, rfl⟩, hlt.ne⟩
          · exact .inl ⟨hupper, rfl⟩
        case neg =>
          have hapart := (h.behind hfirst hq hq').imp_right hlt.trans_le
          obtain rfl := (hkept q hq hne hapart).mp hpiece
          exact .inr ⟨.inr hq, fun heq => hq' (h.sorted.eq_of_key hq hmem heq)⟩

theorem Cover.piece (h : Cover m) (hq : q ∈ m) (hpiece : e ∈ pieces lower upper q) :
    (q.2.1 ≤ e.2.1 ∧ e.1 ≤ q.1) ∧ e.2.1 ≤ e.1 ∧ (e.1 ≤ lower ∨ upper ≤ e.2.1) ∧ e.2.2 = q.2.2 := by
  have hordered := h.ordered q hq
  rcases mem_pieces.mp hpiece with ⟨hapart, rfl⟩ | ⟨⟨hlower, hupper⟩, ⟨hlt, rfl⟩ | ⟨hlt, rfl⟩⟩
  · exact ⟨⟨le_rfl, le_rfl⟩, hordered, hapart, rfl⟩
  · exact ⟨⟨le_rfl, hlower.le⟩, hlt.le, .inl le_rfl, rfl⟩
  · exact ⟨⟨hupper.le, le_rfl⟩, hlt.le, .inr le_rfl, rfl⟩

theorem Cover.record (h : Cover m) (hclear : Clear lower upper m) (v : V) :
    Cover (record lower upper v m) := by
  refine ⟨?_, fun e he => ?_, fun e he e' he' hlt => ?_⟩
  case refine_1 =>
    refine Sorted.assign ?_ upper _
    unfold cut
    cases upper_bound lower m with
    | none => exact h.sorted
    | some first =>
      obtain ⟨stop, start, w⟩ := first
      dsimp only
      split
      · exact h.sorted_cut stop
      · exact h.sorted
  case refine_2 =>
    rcases (h.mem_record hclear).mp he with rfl | ⟨⟨q, hq, hpiece⟩, _⟩
    · exact hclear.le
    · exact (h.piece hq hpiece).2.1
  case refine_3 =>
    rcases (h.mem_record hclear).mp he with rfl | ⟨⟨q, hq, hpiece⟩, hne⟩ <;>
      rcases (h.mem_record hclear).mp he' with rfl | ⟨⟨q', hq', hpiece'⟩, hne'⟩
    · exact absurd hlt (lt_irrefl _)
    · obtain ⟨_, _, hapart, _⟩ := h.piece hq' hpiece'
      exact hapart.resolve_left fun hle => (hle.trans hclear.le).not_gt hlt
    · obtain ⟨_, hordered, hapart, _⟩ := h.piece hq hpiece
      exact hapart.resolve_right fun hle => (hle.trans hordered).not_gt hlt
    · obtain ⟨⟨hstart, hstop⟩, hordered, _⟩ := h.piece hq hpiece
      obtain ⟨⟨hstart', hstop'⟩, hordered', _⟩ := h.piece hq' hpiece'
      rcases lt_trichotomy q.1 q'.1 with hbefore | hkey | hbehind
      · exact (hstop.trans (h.disjoint q hq q' hq' hbefore)).trans hstart'
      · -- Two pieces of one segment lie to both sides of the new one.
        obtain rfl := h.sorted.eq_of_key hq hq' hkey
        rcases mem_pieces.mp hpiece with ⟨hapart, rfl⟩ | ⟨hmeet, ⟨_, rfl⟩ | ⟨_, rfl⟩⟩
        · exact absurd hlt hstop'.not_gt
        · rcases mem_pieces.mp hpiece' with ⟨hapart, rfl⟩ | ⟨_, ⟨_, rfl⟩ | ⟨_, rfl⟩⟩
          · exact absurd hapart (not_or.mpr ⟨hmeet.1.not_ge, hmeet.2.not_ge⟩)
          · exact absurd hlt (lt_irrefl _)
          · exact hclear.le
        · exact absurd hlt hstop'.not_gt
      · have hdisjoint := h.disjoint q' hq' q hq hbehind
        exact absurd hlt ((hstop'.trans hdisjoint).trans (hstart.trans hordered)).not_gt

theorem Cover.holder_record (h : Cover m) (hclear : Clear lower upper m) (v : V) (x : T) :
    holder x (Segments.record lower upper v m) =
      if lower ≤ x ∧ x < upper then some v else holder x m := by
  have hrecord := h.record hclear v
  split
  case isTrue hin =>
    exact hrecord.holder_eq_some_iff.mpr
      ⟨_, (h.mem_record hclear).mpr (.inl rfl), hin.1, hin.2, rfl⟩
  case isFalse hout =>
    refine Option.ext fun w => ?_
    rw [hrecord.holder_eq_some_iff, h.holder_eq_some_iff]
    constructor
    · rintro ⟨e, he, hle, hlt, rfl⟩
      rcases (h.mem_record hclear).mp he with rfl | ⟨⟨q, hq, hpiece⟩, _⟩
      · exact absurd ⟨hle, hlt⟩ hout
      · obtain ⟨⟨hstart, hstop⟩, _, _, hvalue⟩ := h.piece hq hpiece
        exact ⟨q, hq, hstart.trans hle, hlt.trans_le hstop, hvalue.symm⟩
    · rintro ⟨q, hq, hle, hlt, rfl⟩
      have hmem : ∀ e, e ∈ pieces lower upper q → e.1 ≠ upper →
          e ∈ Segments.record lower upper v m := fun e hpiece hne =>
        (h.mem_record hclear).mpr (.inr ⟨⟨q, hq, hpiece⟩, hne⟩)
      rcases lt_or_ge x lower with hbefore | hin
      · -- An empty segment does not hide what ends there.
        have hne : lower = upper → q.1 < lower := fun heq =>
          hclear.empty heq q hq (hle.trans_lt hbefore)
        rcases le_or_gt q.1 lower with hapart | hgt
        · refine ⟨q, hmem q (mem_pieces.mpr (.inl ⟨.inl hapart, rfl⟩)) fun heq => ?_, hle, hlt, rfl⟩
          have hsame := le_antisymm hclear.le (heq ▸ hapart)
          exact (hne hsame).ne (heq.trans hsame.symm)
        · have hmeet : q.2.1 < upper := (hle.trans_lt hbefore).trans_le hclear.le
          refine ⟨_, hmem (lower, (q.2.1, q.2.2)) (mem_pieces.mpr
            (.inr ⟨⟨hgt, hmeet⟩, .inl ⟨hle.trans_lt hbefore, rfl⟩⟩)) fun heq => ?_, hle, hbefore, rfl⟩
          exact (hne heq).not_gt hgt
      · have hbehind : upper ≤ x := not_lt.mp fun hlt => hout ⟨hin, hlt⟩
        have hupper := hbehind.trans_lt hlt
        rcases le_or_gt upper q.2.1 with hapart | hmeet
        · exact ⟨q, hmem q (mem_pieces.mpr (.inl ⟨.inr hapart, rfl⟩)) hupper.ne', hle, hlt, rfl⟩
        · exact ⟨_, hmem (q.1, (upper, q.2.2)) (mem_pieces.mpr
            (.inr ⟨⟨hclear.le.trans_lt hupper, hmeet⟩, .inr ⟨hupper, rfl⟩⟩)) hupper.ne', hbehind, hlt,
            rfl⟩

end Sniper.Lib.Segments
