import Sniper.Timing.RobMoves

/-! # The grid of the cycles

Whatever the timer waits for, it recorded as the current time and a number of cycles. So as long
as the clock only moves by whole cycles, every time that is still to come is a whole number of
cycles away, and so is the next event.
-/
namespace Sniper.Timing.Rob
open Lib.Simulation

variable {Reg K M : Type} {cfg : Config Reg K M} {s s' : RobTimer Reg K M}

/-! ### Times on the grid -/

/-- A time that is never reached, is not in the future, or is a number of cycles away. -/
def OnGrid (now period : Nat) (t : Time) : Prop :=
  t = ⊤ ∨ t ≤ (now : Time) ∨ ∃ k, t = ((now + k * period : Nat) : Time)

namespace OnGrid
variable {now period : Nat} {t t' : Time}

theorem top : OnGrid now period ⊤ := .inl rfl

theorem zero : OnGrid now period 0 := .inr (.inl (time_zero_le _))

theorem cycles (k : Nat) : OnGrid now period ((now + k * period : Nat) : Time) :=
  .inr (.inr ⟨k, rfl⟩)

theorem next : OnGrid now period ((now + period : Nat) : Time) := by
  have h : OnGrid now period ((now + 1 * period : Nat) : Time) := cycles 1
  rwa [Nat.one_mul] at h

theorem max (h : OnGrid now period t) (h' : OnGrid now period t') :
    OnGrid now period (max t t') := by
  rcases max_choice t t' with hmax | hmax
  · rwa [hmax]
  · rwa [hmax]

theorem min (h : OnGrid now period t) (h' : OnGrid now period t') :
    OnGrid now period (min t t') := by
  rcases min_choice t t' with hmin | hmin
  · rwa [hmin]
  · rwa [hmin]

theorem ahead {event : Nat} (h : OnGrid now period (event : Time)) (hlt : now < event) :
    ∃ k, event = now + k * period := by
  rcases h with h | h | ⟨k, h⟩
  · exact absurd h (time_ne_top _)
  · exact absurd (time_le.mp h) (Nat.not_le.mpr hlt)
  · exact ⟨k, WithTop.coe_injective h⟩

instance : Decidable (OnGrid now period t) :=
  match t with
  | none => isTrue .top
  | some event => decidable_of_iff (event ≤ now ∨ (event - now) % period = 0) <| by
      constructor
      · rintro (hle | hmod)
        · exact .inr (.inl (time_le.mpr hle))
        · rcases Nat.le_total event now with hle | hle
          · exact .inr (.inl (time_le.mpr hle))
          · have hevent : event = now + (event - now) / period * period := by
              rw [Nat.div_mul_cancel (Nat.dvd_of_mod_eq_zero hmod), Nat.add_sub_cancel' hle]
            exact .inr (.inr ⟨_, congrArg (fun n : Nat => (n : Time)) hevent⟩)
      · intro h
        rcases Nat.lt_or_ge now event with hlt | hle
        · obtain ⟨k, hk⟩ := h.ahead hlt
          exact .inr (by rw [hk, Nat.add_sub_cancel_left, Nat.mul_mod_left])
        · exact .inl hle

theorem later (h : OnGrid now period t) (k : Nat) : OnGrid (now + k * period) period t := by
  rcases h with h | h | ⟨j, rfl⟩
  · exact .inl h
  · exact .inr (.inl (h.trans (time_le.mpr (Nat.le_add_right _ _))))
  · rcases Nat.le_total j k with hjk | hkj
    · exact .inr (.inl (time_le.mpr (Nat.add_le_add_left (Nat.mul_le_mul_right _ hjk) _)))
    · obtain ⟨i, rfl⟩ := Nat.exists_eq_add_of_le hkj
      refine .inr (.inr ⟨i, congrArg _ ?_⟩)
      rw [Nat.add_mul, Nat.add_assoc]

end OnGrid

/-- The times of an entry that something waits for. -/
structure RobEntry.Aligned (now period : Nat) (e : RobEntry Reg) : Prop where
  ready : OnGrid now period e.ready
  readyMax : OnGrid now period e.readyMax
  done : OnGrid now period e.done

/-- Every time in the future is a number of cycles away. -/
structure Aligned (s : RobTimer Reg K M) : Prop where
  entries : ∀ e ∈ s.rob, e.Aligned s.now s.period
  stalled : OnGrid s.now s.period s.frontend_stalled_until

instance : Decidable (Aligned s) :=
  decidable_of_iff ((∀ e ∈ s.rob, OnGrid s.now s.period e.ready ∧ OnGrid s.now s.period e.readyMax ∧
      OnGrid s.now s.period e.done) ∧ OnGrid s.now s.period s.frontend_stalled_until)
    ⟨fun h => ⟨fun e he => ⟨(h.1 e he).1, (h.1 e he).2.1, (h.1 e he).2.2⟩, h.2⟩, fun h =>
      ⟨fun e he =>
        have haligned := h.entries e he
        ⟨haligned.ready, haligned.readyMax, haligned.done⟩, h.stalled⟩⟩

theorem Aligned.later (h : Aligned s) (k : Nat) :
    Aligned { s with now := s.now + k * s.period } where
  entries e he :=
    have haligned := h.entries e he
    ⟨haligned.ready.later k, haligned.readyMax.later k, haligned.done.later k⟩
  stalled := h.stalled.later k

/-- The state is aligned, and so is the next event. -/
structure Foreseen (now period : Nat) (s : RobTimer Reg K M) (next_event : Time) : Prop where
  now_eq : s.now = now
  period_eq : s.period = period
  aligned : Aligned s
  event : OnGrid now period next_event

/-! ### Entering -/

theorem mem_updateEntry_forall {rob : List (RobEntry Reg)} {x : Nat}
    {f : RobEntry Reg → RobEntry Reg} {P : RobEntry Reg → Prop} (h : ∀ e ∈ rob, P e)
    (hf : ∀ e ∈ rob, P e → P (f e)) : ∀ e ∈ updateEntry rob x f, P e := by
  intro e he
  obtain ⟨p, hp, rfl⟩ := mem_updateEntry.mp he
  split
  · exact hf p hp (h p hp)
  · exact h p hp

section Enter
variable {now period : Nat}

theorem link_aligned {x : Nat} {deps dtr dtr' : List Nat} {rob rob' : List (RobEntry Reg)}
    {t t' : Time} (hrob : ∀ e ∈ rob, e.Aligned now period) (ht : OnGrid now period t)
    (h : link x deps rob dtr t = .ok (rob', dtr', t')) :
    (∀ e ∈ rob', e.Aligned now period) ∧ OnGrid now period t' := by
  induction deps generalizing rob dtr t with
  | nil =>
    cases h
    exact ⟨hrob, ht⟩
  | cons d deps ih =>
    rw [link] at h
    obtain ⟨p, hfind, h⟩ := of_bind_ok h
    split at h
    case isTrue =>
      refine ih ?_ ht h
      exact mem_updateEntry_forall hrob fun e _ he => ⟨he.ready, he.readyMax, he.done⟩
    case isFalse =>
      split at h
      case isTrue => exact ih hrob (ht.max (hrob p (findEntry_ok hfind).1).done) h
      case isFalse => cases h

theorem Aligned.enter [DecidableEq Reg] (h : Aligned s) {uop : DynamicMicroOp Reg}
    (hs' : Rob.enter cfg s uop = .ok s') : Aligned s' := by
  rcases enter_cases hs' with ⟨-, rfl⟩ | ⟨-, e₁, registers, uop₁, memory, uop₂, uop₃, rob, dtr,
    readyMax, uop₄, haddr, -, -, -, hlink, -, rfl⟩
  · exact h
  · obtain ⟨hrest, -⟩ := setAddress_ok haddr rfl rfl rfl
    have hmax₁ : e₁.readyMax = 0 := by rw [hrest]; rfl
    obtain ⟨hrob, hmax⟩ := link_aligned h.entries (hmax₁ ▸ OnGrid.zero) hlink
    refine ⟨fun e he => ?_, h.stalled⟩
    rcases List.mem_append.mp he with he | he
    · exact hrob e he
    · rw [List.mem_singleton.mp he]
      refine ⟨?_, hmax, ?_⟩
      · split
        · exact hmax
        · rw [hrest]
          exact .top
      · rw [hrest]
        exact .top

end Enter

/-! ### Dispatch -/

theorem Aligned.dispatch (h : Aligned s) (e : RobEntry Reg) : Aligned (Rob.dispatch s e) where
  entries := mem_updateEntry_forall h.entries fun _ _ he =>
    ⟨he.ready.max .next, he.readyMax, he.done⟩
  stalled := h.stalled

theorem dispatchLoop_foreseen {width now period t t'} (hs : Foreseen now period s t)
    (h : dispatchLoop cfg width s t = .ok (s', t')) :
    Foreseen now period s' t' := by
  refine dispatchLoop_invariant (P := Foreseen now period) (fun s t k hs => ?_) (fun s t hs => ?_)
    (fun s t e he _ _ hs => ?_) (fun s t hs => ?_) hs h
  · obtain ⟨rfl, rfl, ha, ht⟩ := hs
    exact ⟨rfl, rfl, ⟨ha.entries, .cycles _⟩, ht⟩
  · exact ⟨hs.now_eq, hs.period_eq, ⟨hs.aligned.entries, hs.aligned.stalled⟩, hs.event⟩
  · obtain ⟨rfl, rfl, ha, ht⟩ := hs
    have hready := (ha.entries e (List.mem_of_getElem? he)).ready
    exact ⟨rfl, rfl, ha.dispatch e, ht.min (hready.max .next)⟩
  · exact ⟨hs.now_eq, hs.period_eq, ⟨hs.aligned.entries, .top⟩, hs.event⟩

theorem doDispatch_foreseen (hs : Aligned s) {t} (h : doDispatch cfg s = .ok (s', t)) :
    Foreseen s.now s.period s' t := by
  -- the end of the loop, or the beginning of the cycle where the front end is stalled
  obtain ⟨t₁, h₁, h⟩ : ∃ t₁, Foreseen s.now s.period s' t₁ ∧
      t = if s'.m_num_in_rob = cfg.windowSize then t₁ else min s'.frontend_stalled_until t₁ := by
    rw [doDispatch] at h
    split at h
    · obtain ⟨⟨s₁, t₁⟩, hloop, h⟩ := of_bind_ok h
      cases h
      exact ⟨t₁, dispatchLoop_foreseen ⟨rfl, rfl, hs, .top⟩ hloop, rfl⟩
    · cases h
      exact ⟨⊤, ⟨rfl, rfl, hs, .top⟩, rfl⟩
  refine ⟨h₁.now_eq, h₁.period_eq, h₁.aligned, ?_⟩
  rw [h]
  split
  · exact h₁.event
  · have hstalled := h₁.aligned.stalled
    rw [h₁.now_eq, h₁.period_eq] at hstalled
    exact hstalled.min h₁.event

/-! ### Issue -/

section Issue
variable {now period : Nat}

theorem notify_aligned {rob x} (k : Nat) {e e' : RobEntry Reg} (he : e.Aligned now period)
    (h : notify rob x (now + k * period) e = .ok e') :
    e'.Aligned now period := by
  rw [notify] at h
  split at h
  case isTrue => cases h
  case isFalse =>
    obtain ⟨uop, -, h⟩ := of_bind_ok h
    have hmax : OnGrid now period (max e.readyMax ((now + k * period : Nat) : Time)) :=
      he.readyMax.max (.cycles k)
    rw [(resolve_ok h).rest]
    refine ⟨?_, hmax, he.done⟩
    dsimp only
    split
    · exact hmax
    · exact he.ready

theorem notifyAll_aligned {x : Nat} (k : Nat) {dependants : List Nat}
    {rob rob' : List (RobEntry Reg)} (hrob : ∀ e ∈ rob, e.Aligned now period)
    (h : notifyAll x (now + k * period) dependants rob = .ok rob') :
    ∀ e ∈ rob', e.Aligned now period := by
  induction dependants generalizing rob with
  | nil =>
    cases h
    exact hrob
  | cons y dependants ih =>
    rw [notifyAll] at h
    obtain ⟨e, hfind, h⟩ := of_bind_ok h
    obtain ⟨e', hnotify, h⟩ := of_bind_ok h
    have he' := notify_aligned k (hrob e (findEntry_ok hfind).1) hnotify
    exact ih (mem_updateEntry_forall hrob fun _ _ _ => he') h

theorem issueInstruction_foreseen {e : RobEntry Reg} {t t' : Time} (hs : Foreseen now period s t)
    (h : issueInstruction cfg s e t = .ok (s', t')) : Foreseen now period s' t' := by
  obtain ⟨rfl, rfl, ha, ht⟩ := hs
  obtain ⟨issue, hissue, htimed, rfl⟩ := issueInstruction_spec h
  -- both times are a number of cycles after the current one
  obtain ⟨j, k, havailable, hdone⟩ := htimed.cycles
  obtain ⟨uop, -, -, hnotify⟩ := hissue.rob
  rw [havailable, hdone] at hnotify
  rw [hdone]
  refine ⟨hissue.now, hissue.period, ⟨?_, ?_⟩, ht.min (.cycles k)⟩
  · rw [hissue.now, hissue.period]
    refine notifyAll_aligned j ?_ hnotify
    exact mem_updateEntry_forall ha.entries fun _ _ he => ⟨he.ready, he.readyMax, .cycles k⟩
  · rw [hissue.now, hissue.period, htimed.stalled]
    split
    · exact .cycles _
    · exact ha.stalled

/-- **What the scan keeps.** The next event comes from the times of the entries and from the
instructions that issue. -/
theorem issueLoop_invariant {P : RobTimer Reg K M → Time → Prop}
    (hdone : ∀ s t, ∀ e ∈ s.rob, P s t → P s (min t e.done))
    (hready : ∀ s t, ∀ e ∈ s.rob, P s t → P s (min t e.ready))
    (hcontention : ∀ s t k, P s t → P { s with contention := k } t)
    (hissue : ∀ s t s' t', ∀ e ∈ s.rob, P s t → issueInstruction cfg s e t = .ok (s', t') →
      P s' t') {count i : Nat} {scan : Scan} {t : Time}
    (hs : P s scan.next_event) (h : issueLoop cfg count i s scan = .ok (s', t)) : P s' t := by
  induction count generalizing i s scan with
  | zero =>
    cases h
    exact hs
  | succ count ih =>
    rw [issueLoop.eq_def] at h
    dsimp only at h
    split at h
    case h_1 => cases h
    case h_2 e he =>
      have hmem : e ∈ s.rob := List.mem_of_getElem? he
      split at h
      case isTrue => exact ih (hdone s _ e hmem hs) h
      case isFalse =>
        have hs₀ := hready s _ e hmem hs
        generalize hscan : ({ scan with next_event := min scan.next_event e.ready } : Scan) = scan₀
          at h
        have hevent : (canIssue cfg s scan₀ e).2.next_event = min scan.next_event e.ready := by
          rw [← hscan]
          simp only [canIssue, apply_ite Prod.snd, apply_ite Scan.next_event, ite_self]
        rcases hcan : canIssue cfg s scan₀ e with ⟨decision, scan₁⟩
        rw [hcan] at h hevent
        rw [← hevent] at hs₀
        split at h
        case h_1 heq =>
          cases heq
          cases h
          exact hs₀
        case h_2 heq =>
          cases heq
          have htried : ∀ tried : Bool × RobTimer Reg K M,
              (if decision = .issue then tryIssue cfg s e else (false, s)) = tried →
              P tried.2 scan₁.next_event ∧ e ∈ tried.2.rob := by
            rintro tried rfl
            split
            · obtain ⟨k, hk⟩ := tryIssue_contends cfg s e
              rw [hk]
              exact ⟨hcontention s _ k hs₀, hmem⟩
            · exact ⟨hs₀, hmem⟩
          generalize htry : (if decision = .issue then tryIssue cfg s e else (false, s)) = tried
            at h
          obtain ⟨issued, s₁⟩ := tried
          obtain ⟨hs₁, hmem₁⟩ := htried _ htry
          split at h
          case isTrue =>
            obtain ⟨⟨s₂, t₂⟩, hs₂, h⟩ := of_bind_ok h
            have hP₂ := hissue s₁ _ s₂ t₂ e hmem₁ hs₁ hs₂
            split at h
            · cases h
              exact hP₂
            · exact ih hP₂ h
          case isFalse =>
            split at h
            · cases h
              exact hs₁
            · have hnext : (holdBack s₁ scan₁ e).next_event = scan₁.next_event := rfl
              exact ih (hnext ▸ hs₁) h

theorem doIssue_foreseen (hs : Aligned s) {t : Time} (h : doIssue cfg s = .ok (s', t)) :
    Foreseen s.now s.period s' t := by
  refine issueLoop_invariant (P := Foreseen s.now s.period) (fun s₁ t e he h₁ => ?_)
    (fun s₁ t e he h₁ => ?_) (fun s₁ t k h₁ => ?_) (fun s₁ t s₂ t₂ e _ h₁ hs₂ => ?_)
    ?_ h
  · obtain ⟨hnow, hperiod, h₁, ht⟩ := h₁
    exact ⟨hnow, hperiod, h₁, ht.min (hnow ▸ hperiod ▸ (h₁.entries e he).done)⟩
  · obtain ⟨hnow, hperiod, h₁, ht⟩ := h₁
    exact ⟨hnow, hperiod, h₁, ht.min (hnow ▸ hperiod ▸ (h₁.entries e he).ready)⟩
  · exact ⟨h₁.now_eq, h₁.period_eq, ⟨h₁.aligned.entries, h₁.aligned.stalled⟩, h₁.event⟩
  · exact issueInstruction_foreseen h₁ hs₂
  · exact ⟨rfl, rfl, ⟨hs.entries, hs.stalled⟩, .top⟩

end Issue

/-! ### Commit -/

theorem commitLoop_eq (cfg : Config Reg K M) (s : RobTimer Reg K M) (rob : List (RobEntry Reg))
    (num_committed : Nat) :
    ∃ rob' num log, rob' <:+ rob ∧
      commitLoop cfg s rob num_committed =
        { s with rob := rob', m_num_in_rob := num, log := log } := by
  induction rob generalizing s num_committed with
  | nil => exact ⟨[], s.m_num_in_rob, s.log, List.suffix_refl _, rfl⟩
  | cons front rob ih =>
    rw [commitLoop]
    split
    case isTrue =>
      dsimp only
      split
      · exact ⟨rob, _, _, List.suffix_cons _ _, rfl⟩
      · obtain ⟨rob', num, log, hsuffix, heq⟩ :=
          ih (commitFront s front rob) (num_committed + 1)
        exact ⟨rob', num, log, hsuffix.trans (List.suffix_cons _ _), heq⟩
    case isFalse => exact ⟨front :: rob, s.m_num_in_rob, s.log, List.suffix_refl _, rfl⟩

theorem doCommit_foreseen (cfg : Config Reg K M) (hs : Aligned s) :
    Foreseen s.now s.period (doCommit cfg s).1 (doCommit cfg s).2 := by
  obtain ⟨rob, num, log, hsuffix, heq⟩ := commitLoop_eq cfg s s.rob 0
  rw [doCommit, heq]
  have hentries : ∀ e ∈ rob, e.Aligned s.now s.period := fun e he =>
    hs.entries e (hsuffix.subset he)
  refine ⟨rfl, rfl, ⟨hentries, hs.stalled⟩, ?_⟩
  cases rob with
  | nil => exact .top
  | cons front rob => exact (hentries front (List.mem_cons_self ..)).done

/-! ### Cycles -/

theorem cycle_foreseen (hs : Aligned s) {t} (h : cycle cfg s = .ok (s', t)) :
    Foreseen s.now s.period s' t := by
  obtain ⟨⟨s₁, t₁⟩, hdispatch, h⟩ := of_bind_ok h
  obtain ⟨⟨s₂, t₂⟩, hissue, h⟩ := of_bind_ok h
  cases h
  obtain ⟨hnow₁, hperiod₁, h₁, ht₁⟩ := doDispatch_foreseen hs hdispatch
  have hs₂ := doIssue_foreseen h₁ hissue
  rw [hnow₁, hperiod₁] at hs₂
  obtain ⟨hnow₂, hperiod₂, h₂, ht₂⟩ := hs₂
  have hs₃ := doCommit_foreseen cfg h₂
  rw [hnow₂, hperiod₂] at hs₃
  exact ⟨hs₃.now_eq, hs₃.period_eq, hs₃.aligned, ht₁.min (ht₂.min hs₃.event)⟩

/-- The time from now to the next cycle that is executed. -/
def skip (now period : Nat) : Time → Nat
  | some event => if now + period < event then event - now else period
  | none => period

theorem execute_eq (cfg : Config Reg K M) (s : RobTimer Reg K M) (h : starved cfg s = false) :
    execute cfg s = cycle cfg s >>= fun p =>
      .ok ({ p.1 with now := p.1.now + skip p.1.now p.1.period p.2 },
        skip p.1.now p.1.period p.2) := by
  rw [execute, if_neg (by rw [h]; exact Bool.false_ne_true)]
  refine bind_congr fun p => ?_
  obtain ⟨s₁, t⟩ := p
  cases t <;> rfl

theorem OnGrid.skip_eq {now period : Nat} {t : Time} (h : OnGrid now period t) :
    ∃ k, skip now period t = (k + 1) * period := by
  have hone : ∃ k, period = (k + 1) * period := ⟨0, by rw [Nat.zero_add, Nat.one_mul]⟩
  cases t with
  | none => exact hone
  | some event =>
    simp only [skip]
    split
    case isTrue hlt =>
      have hevent : OnGrid now period (event : Time) := h
      obtain ⟨k, hk⟩ := hevent.ahead (by omega)
      cases k with
      | zero => omega
      | succ k => exact ⟨k, by omega⟩
    case isFalse => exact hone

theorem Aligned.execute (h : Aligned s) {latency} (hs' : Rob.execute cfg s = .ok (s', latency)) :
    Aligned s' ∧ s'.now = s.now + latency ∧
      s'.period = s.period ∧ ∃ k, latency = k * s.period := by
  cases hstarved : starved cfg s with
  | true =>
    rw [Rob.execute, if_pos hstarved] at hs'
    cases hs'
    exact ⟨h, rfl, rfl, 0, (Nat.zero_mul _).symm⟩
  | false =>
    rw [execute_eq cfg s hstarved] at hs'
    obtain ⟨⟨s₁, t⟩, hcycle, hs'⟩ := of_bind_ok hs'
    obtain ⟨hnow, hperiod, h₁, ht⟩ := cycle_foreseen h hcycle
    rw [← hnow, ← hperiod] at ht
    obtain ⟨k, hk⟩ := ht.skip_eq
    cases hs'
    rw [hk]
    refine ⟨h₁.later _, by rw [hnow], hperiod, k + 1, by rw [hperiod]⟩

end Sniper.Timing.Rob
