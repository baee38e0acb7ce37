import Mathlib.Data.List.Nodup

/-! # Parked threads

A family of queues in which a thread waits at one place at most, once. Entering a queue,
leaving it from any position and moving on to another one keep that discipline, and keep
the set of parked threads in step with a predicate that says who is stalled.
-/
namespace Sniper.Lib.Parking
open Function

variable {P T : Type*} {waiting : P → List T} {stalled : T → Prop}

/-- Every stalled thread waits at exactly one place, once, and nobody else waits. -/
structure Parked (waiting : P → List T) (stalled : T → Prop) : Prop where
  nodup : ∀ p, (waiting p).Nodup
  place : ∀ p q t, t ∈ waiting p → t ∈ waiting q → p = q
  stalled_iff : ∀ t, stalled t ↔ ∃ p, t ∈ waiting p

namespace Parked

theorem existsUnique (h : Parked waiting stalled) {t} (ht : stalled t) :
    ∃! p, t ∈ waiting p := by
  obtain ⟨p, hp⟩ := (h.stalled_iff t).mp ht
  exact ⟨p, hp, fun q hq => h.place q p t hq hp⟩

theorem not_mem (h : Parked waiting stalled) {t} (ht : ¬ stalled t) (p : P) :
    t ∉ waiting p :=
  fun hp => ht ((h.stalled_iff t).mpr ⟨p, hp⟩)

theorem congr {stalled'} (h : Parked waiting stalled) (hs : ∀ t, stalled' t ↔ stalled t) :
    Parked waiting stalled' :=
  ⟨h.nodup, h.place, fun t => (hs t).trans (h.stalled_iff t)⟩

theorem empty (hw : ∀ p, waiting p = []) (hs : ∀ t, ¬ stalled t) : Parked waiting stalled := by
  refine ⟨fun p => ?_, fun p q t ht => ?_, fun t => ⟨fun ht => absurd ht (hs t), ?_⟩⟩
  · rw [hw]; exact List.nodup_nil
  · rw [hw] at ht; cases ht
  · intro ⟨p, hp⟩
    rw [hw] at hp
    cases hp

theorem enter [DecidableEq P] (h : Parked waiting stalled) (p : P) {x} (hx : ¬ stalled x) :
    Parked (update waiting p (waiting p ++ [x])) (fun t => t = x ∨ stalled t) := by
  have hno := h.not_mem hx
  have hmem : ∀ q t, t ∈ update waiting p (waiting p ++ [x]) q ↔
      t ∈ waiting q ∨ q = p ∧ t = x := by
    intro q t
    by_cases hq : q = p
    · subst hq; simp
    · simp [hq]
  refine ⟨fun q => ?_, fun q r t hq hr => ?_, fun t => ⟨fun ht => ?_, fun ht => ?_⟩⟩
  · by_cases hq : q = p
    · subst hq
      rw [update_self]
      exact List.nodup_append'.mpr ⟨h.nodup q, List.nodup_singleton x, by simpa using hno q⟩
    · rw [update_of_ne hq]
      exact h.nodup q
  · rw [hmem] at hq hr
    rcases hq with hq | ⟨hqp, hqx⟩ <;> rcases hr with hr | ⟨hrp, hrx⟩
    · exact h.place q r t hq hr
    · exact absurd (hrx ▸ hq) (hno q)
    · exact absurd (hqx ▸ hr) (hno r)
    · rw [hqp, hrp]
  · rcases ht with rfl | ht
    · exact ⟨p, (hmem p t).mpr (.inr ⟨rfl, rfl⟩)⟩
    · obtain ⟨q, hq⟩ := (h.stalled_iff t).mp ht
      exact ⟨q, (hmem q t).mpr (.inl hq)⟩
  · obtain ⟨q, hq⟩ := ht
    rcases (hmem q t).mp hq with hq | ⟨-, rfl⟩
    · exact .inr ((h.stalled_iff t).mpr ⟨q, hq⟩)
    · exact .inl rfl

theorem leave [DecidableEq P] (h : Parked waiting stalled) {p l₁ l₂ x}
    (hp : waiting p = l₁ ++ x :: l₂) :
    Parked (update waiting p (l₁ ++ l₂)) (fun t => t ≠ x ∧ stalled t) := by
  have hx : x ∈ waiting p := by rw [hp]; simp
  have hnd := h.nodup p
  rw [hp] at hnd
  have hout := (List.nodup_middle.mp hnd)
  have hmem : ∀ q t, t ∈ update waiting p (l₁ ++ l₂) q ↔ t ∈ waiting q ∧ t ≠ x := by
    intro q t
    by_cases hq : q = p
    · subst hq
      have hxn := (List.nodup_cons.mp hout).1
      rw [update_self, hp]
      simp only [List.mem_append, List.mem_cons] at hxn ⊢
      grind
    · rw [update_of_ne hq]
      refine ⟨fun ht => ⟨ht, ?_⟩, fun ht => ht.1⟩
      rintro rfl
      exact hq (h.place q p t ht hx)
  refine ⟨fun q => ?_, fun q r t hq hr => ?_, fun t => ⟨fun ht => ?_, fun ht => ?_⟩⟩
  · by_cases hq : q = p
    · subst hq
      rw [update_self]
      exact (List.nodup_cons.mp hout).2
    · rw [update_of_ne hq]
      exact h.nodup q
  · rw [hmem] at hq hr
    exact h.place q r t hq.1 hr.1
  · obtain ⟨q, hq⟩ := (h.stalled_iff t).mp ht.2
    exact ⟨q, (hmem q t).mpr ⟨hq, ht.1⟩⟩
  · obtain ⟨q, hq⟩ := ht
    obtain ⟨hq, hne⟩ := (hmem q t).mp hq
    exact ⟨hne, (h.stalled_iff t).mpr ⟨q, hq⟩⟩

end Parked

/-! ## Taking the first match -/

section TakeFirst
variable {A : Type*} {p : A → Bool}

/-- The first element that matches, and the list without it. -/
def takeFirst (p : A → Bool) : List A → Option (A × List A)
  | [] => none
  | a :: l => if p a then some (a, l) else (takeFirst p l).map (Prod.map id (List.cons a))

theorem takeFirst_some {l l' a} (h : takeFirst p l = some (a, l')) :
    ∃ l₁ l₂, l = l₁ ++ a :: l₂ ∧ l' = l₁ ++ l₂ ∧ p a = true ∧ ∀ b ∈ l₁, p b = false := by
  induction l generalizing l' with
  | nil => cases h
  | cons b l ih =>
    rw [takeFirst] at h
    split at h
    case isTrue hb => cases h; exact ⟨[], l, rfl, rfl, hb, nofun⟩
    case isFalse hb =>
      obtain ⟨⟨a', l''⟩, hl, he⟩ := Option.map_eq_some_iff.mp h
      cases he
      obtain ⟨l₁, l₂, rfl, rfl, ha, hbefore⟩ := ih hl
      refine ⟨b :: l₁, l₂, rfl, rfl, ha, fun c hc => ?_⟩
      rcases List.mem_cons.mp hc with rfl | hc
      · exact Bool.not_eq_true _ ▸ hb
      · exact hbefore c hc

theorem takeFirst_none {l} (h : takeFirst p l = none) : ∀ a ∈ l, p a = false := by
  induction l with
  | nil => nofun
  | cons b l ih =>
    rw [takeFirst] at h
    split at h
    case isTrue => cases h
    case isFalse hb =>
      intro a ha
      rcases List.mem_cons.mp ha with rfl | ha
      · exact Bool.not_eq_true _ ▸ hb
      · exact ih (Option.map_eq_none_iff.mp h) a ha

end TakeFirst

/-! ## Order in a queue -/

/-- `a` waits ahead of `b`. -/
def Ahead (a b : T) (l : List T) : Prop := [a, b].Sublist l

namespace Ahead
variable {a b w : T} {l : List T}

theorem append (h : Ahead a b l) (l' : List T) : Ahead a b (l ++ l') :=
  List.Sublist.trans h (List.sublist_append_left l l')

theorem tail (h : Ahead a b (w :: l)) (hw : w ≠ a) : Ahead a b l := by
  cases h with
  | cons _ h => exact h
  | cons_cons _ h => exact absurd rfl hw

theorem prepend (h : Ahead a b l) (l' : List T) : Ahead a b (l' ++ l) :=
  List.Sublist.trans h (List.sublist_append_right l' l)

theorem mem_left (h : Ahead a b l) : a ∈ l := h.subset (by simp)

theorem mem_right (h : Ahead a b l) : b ∈ l := h.subset (by simp)

theorem of_append {l'} (h : Ahead a b (l' ++ l)) (ha : a ∉ l') : Ahead a b l := by
  induction l' with
  | nil => exact h
  | cons c l' ih =>
    have hc : c ≠ a := fun hc => ha (hc ▸ List.mem_cons_self)
    exact ih (h.tail hc) fun h => ha (List.mem_cons_of_mem c h)

theorem sublist {l'} (hl : l'.Sublist l) (hn : l.Nodup) (h : Ahead a b l) (ha : a ∈ l')
    (hb : b ∈ l') : Ahead a b l' := by
  induction hl with
  | slnil => exact h
  | cons c hl ih =>
    obtain ⟨hc, hn⟩ := List.nodup_cons.mp hn
    have hca : c ≠ a := fun he => hc (he ▸ hl.subset ha)
    exact ih hn (h.tail hca) ha hb
  | cons_cons c hl ih =>
    obtain ⟨hc, hn⟩ := List.nodup_cons.mp hn
    by_cases hca : c = a
    · subst hca
      have hbl := (List.cons_sublist_cons.mp h).subset (List.mem_singleton_self b)
      have hbc : b ≠ c := fun he => hc (he ▸ hbl)
      have hb' := (List.mem_cons.mp hb).resolve_left hbc
      exact List.cons_sublist_cons.mpr (List.singleton_sublist.mpr hb')
    · have hal := (List.mem_cons.mp ha).resolve_left (Ne.symm hca)
      have hbc : b ≠ c := fun he => hc (he ▸ (h.tail hca).mem_right)
      have hbl := (List.mem_cons.mp hb).resolve_left hbc
      exact (ih hn (h.tail hca) hal hbl).prepend [c]

end Ahead
end Sniper.Lib.Parking
