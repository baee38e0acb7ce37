import Sniper.Directory.Outcomes
import Sniper.Directory.Refinement
import Mathlib.Data.Int.ModEq

/-! # Directory entries are unique and kept

The controller under any sequence of messages: each address has one place, found by a
lookup, and a recorded sharer is forgotten only when its own invalidate or flush reply
arrives. The candidates for a replacement are every way once exactly where the rotating
`UInt32` counter does not wrap in the middle of the list, or wraps evenly.
-/
namespace Sniper.Directory.EntryLifetime
open Directory.DirectoryEntry Directory.SetArray Directory.Handlers
open Directory.Controller Directory.Refinement Directory.Outcomes
open Lib.Simulation

variable {n : Nat} {V : Type} {cfg : Config} {ch : Choice n V} {fresh : Option (Fin n)}

/-! ## One line -/

/-- An uncached entry has no sharers. -/
def Empty (e : Entry n) : Prop := e.dstate = .UNCACHED → e.sharers = ∅

theorem Joins.keeps {req : ShmemReq n V} {e e' : Entry n} {reply : V → ToCache V}
    (h : Joins cfg req e e' reply) : e.sharers ⊆ e'.sharers ∧ e'.dstate ≠ .UNCACHED := by
  cases h with
  | exclusive | first | firstExclusive => exact ⟨Finset.subset_insert _ _, by simp⟩
  | shares _ hd _ _ => exact ⟨Finset.subset_insert _ _, by simp [hd]⟩
  | again _ hd _ => exact ⟨Finset.Subset.refl _, by simp [hd]⟩

theorem modifyFront_types (l : Line n V) (f : ShmemReq n V → ShmemReq n V)
    (hf : ∀ r, (f r).msgType = r.msgType) :
    (l.modifyFront f).queue.map (·.msgType) = l.queue.map (·.msgType) := by
  unfold Line.modifyFront
  cases hq : l.queue with
  | nil => simp [hq]
  | cons r rest => simp [hf]

@[simp] theorem modifyFront_entry (l : Line n V) (f : ShmemReq n V → ShmemReq n V) :
    (l.modifyFront f).entry = l.entry := by
  unfold Line.modifyFront; cases l.queue <;> rfl

/-- What is the same in a line whatever is done with its front request. -/
structure Keeps (l l' : Line n V) : Prop where
  sharers : l.entry.sharers ⊆ l'.entry.sharers
  empty : Empty l.entry → Empty l'.entry
  types : l'.queue.map (·.msgType) = l.queue.map (·.msgType)

theorem Retrieves.keeps {req reply buf l o} (h : Retrieves cfg ch req reply buf l o) :
    Keeps l o.line := by
  cases h with
  | given | nuca => exact ⟨Finset.Subset.refl _, id, rfl⟩
  | forward | dram => exact ⟨by simp, by simp, modifyFront_types _ _ fun _ => rfl⟩

theorem Front.keeps {buf : Option V} {req : ShmemReq n V} {l : Line n V} {o : Outcome n V}
    (h : Front cfg ch buf req l o) : Keeps l o.line := by
  cases h with
  | upgraded => exact ⟨Finset.Subset.refl _, fun _ hd => (nomatch hd), rfl⟩
  | fetch hj hf =>
    obtain ⟨hsub, hd⟩ := Joins.keeps hj
    have hk := Retrieves.keeps hf
    exact ⟨hsub.trans hk.sharers, fun _ => hk.empty fun hd' => absurd hd' hd, hk.types⟩
  | _ => exact ⟨Finset.Subset.refl _, id, rfl⟩

def sharersOf (v : LineView n V) : Finset (Fin n) := (v.entry.getD (.create none)).sharers

/-- The entry of a line is empty when it is uncached, and a line on the replaced list has
its nullify request at the front. -/
structure Listing (v : LineView n V) : Prop where
  empty : ∀ e, v.entry = some e → Empty e
  listed : v.replaced = true → FrontNullify v.queue

/-- Besides, a line with requests has an entry. -/
structure Orderly (v : LineView n V) : Prop extends Listing v where
  served : v.queue ≠ [] → v.entry ≠ none

theorem sharersOf_getD (v : LineView n V) (f : Option (Fin n)) :
    (v.entry.getD (.create f)).sharers = sharersOf v := by
  cases he : v.entry <;> simp [sharersOf, he, Entry.create]

theorem Listing.getD {v : LineView n V} (h : Listing v) (f : Option (Fin n)) :
    Empty (v.entry.getD (.create f)) := by
  cases he : v.entry with
  | none => exact fun _ => rfl
  | some e => exact h.empty e he

theorem Listing.of_keeps {v : LineView n V} (h : Listing v) {e} {l : Line n V} (he : Empty e)
    (hk : Keeps ⟨e, v.queue⟩ l) : Listing ⟨some l.entry, v.replaced, l.queue⟩ :=
  ⟨fun _ hx => Option.some.inj hx ▸ hk.empty he,
    fun hr => (frontNullify_congr hk.types).mpr (h.listed hr)⟩

theorem processNullifyReq_listing {v v' : LineView n V} {sent next} (h : Listing v)
    (hv : v.processNullifyReq = .ok (v', sent, next)) :
    Listing v' ∧ sharersOf v ⊆ sharersOf v' ∧ (next = true → v'.replaced = false) ∧
      (next = false → v'.entry ≠ none) := by
  unfold LineView.processNullifyReq at hv
  cases he : v.entry with
  | none => simp [he] at hv
  | some e =>
    rw [he] at hv
    obtain ⟨o, ho, hv⟩ := of_bind_ok hv
    obtain ⟨hline, hnext⟩ := nullifyReq_line ho
    rw [hline] at hv
    split at hv
    · rename_i hn
      split at hv
      · cases hv
        refine ⟨⟨fun _ hx => (nomatch hx), fun hr => (nomatch hr)⟩, ?_, fun _ => rfl, by simp⟩
        -- the entry goes once it is uncached
        rw [sharersOf, he, Option.getD_some, h.empty e he (hnext hn)]
        exact Finset.empty_subset _
      · cases hv
    · cases hv
      refine ⟨⟨fun _ hx => Option.some.inj hx ▸ h.empty e he, h.listed⟩, ?_, by simp, by simp⟩
      simp [sharersOf, he]

theorem processFront_listing {buf} {v v' : LineView n V} {sent next} (h : Listing v)
    (hv : v.processFront cfg ch fresh buf = .ok (v', sent, next)) :
    Listing v' ∧ sharersOf v ⊆ sharersOf v' ∧ (next = true → v'.replaced = false) ∧
      (next = false → v'.entry ≠ none) := by
  unfold LineView.processFront at hv
  split at hv
  · cases hv
  · rename_i req rest hq
    split at hv
    · exact processNullifyReq_listing h hv
    · rename_i ht
      obtain ⟨o, ho, hv⟩ := of_bind_ok hv
      cases hv
      have hk := Front.keeps (processFront_cases hq ho)
      refine ⟨h.of_keeps (h.getD fresh) hk, ?_, fun _ => ?_, by simp⟩
      · have := hk.sharers
        rw [← sharersOf_getD v fresh]
        exact this
      · by_contra hr
        have hfront := h.listed (by simpa using hr)
        rw [hq] at hfront
        exact ht hfront

theorem serve_listing (rest : List (ShmemReq n V)) : ∀ {v v' : LineView n V} {sent},
    (∀ e, v.entry = some e → Empty e) → v.replaced = false →
    v.serve cfg ch fresh rest = .ok (v', sent) →
    Orderly v' ∧ sharersOf v ⊆ sharersOf v' := by
  induction rest with
  | nil =>
    intro v v' sent he hr hv
    cases hv
    exact ⟨⟨⟨he, fun h => by rw [hr] at h; cases h⟩, fun h => absurd rfl h⟩,
      Finset.Subset.refl _⟩
  | cons req rest ih =>
    intro v v' sent he hr hv
    unfold LineView.serve at hv
    split at hv
    · cases hv
    · obtain ⟨⟨v₁, s₁, next⟩, hp, hv⟩ := of_bind_ok hv
      have hl : Listing { v with queue := req :: rest } :=
        ⟨he, fun h => by rw [hr] at h; cases h⟩
      obtain ⟨hl₁, hsub, hrep, hsome⟩ := processFront_listing hl hp
      cases next with
      | false => cases hv; exact ⟨⟨hl₁, fun _ => hsome rfl⟩, hsub⟩
      | true =>
        obtain ⟨y, hs, hv⟩ := of_bind_ok hv
        cases hv
        obtain ⟨ho, hsub'⟩ := ih hl₁.empty (hrep rfl) hs
        exact ⟨ho, hsub.trans hsub'⟩

theorem finish_listing {v v' s sent next} (h : Listing v) (hn : next = true → v.replaced = false)
    (hs : next = false → v.entry ≠ none) (hv : v.finish cfg ch fresh s next = .ok (v', sent)) :
    Orderly v' ∧ sharersOf v ⊆ sharersOf v' := by
  unfold LineView.finish at hv
  cases next with
  | false => cases hv; exact ⟨⟨h, fun _ => hs rfl⟩, Finset.Subset.refl _⟩
  | true =>
    simp only [if_true] at hv
    split at hv
    · cases hv
    · rename_i req rest hq
      obtain ⟨y, hr, hv⟩ := of_bind_ok hv
      cases hv
      exact serve_listing rest h.empty (hn rfl) hr

theorem perform_listing {v v' s sent act} (h : Listing v)
    (hd : act = .done → v.queue ≠ [] → v.entry ≠ none)
    (hv : v.perform cfg ch fresh s act = .ok (v', sent)) :
    Orderly v' ∧ sharersOf v ⊆ sharersOf v' := by
  cases act with
  | done => cases hv; exact ⟨⟨h, hd rfl⟩, Finset.Subset.refl _⟩
  | process buf =>
    unfold LineView.perform at hv
    obtain ⟨x, hp, hv⟩ := of_bind_ok hv
    obtain ⟨hl₁, hsub, hrep, hsome⟩ := processFront_listing h hp
    obtain ⟨ho, hsub'⟩ := finish_listing hl₁ hrep hsome hv
    exact ⟨ho, hsub.trans hsub'⟩

/-- The replies that give a copy up. -/
def Leaves (msg : FromCache V) : Prop := msg = .INV_REP ∨ ∃ data, msg = .FLUSH_REP data

theorem receiveReply_keeps {sender l msg r} (h : receiveReply ch sender l msg = .ok r) :
    (Empty l.entry → Empty r.line.entry) ∧
      ∀ x ∈ l.entry.sharers, x ∈ r.line.entry.sharers ∨ x = sender ∧ Leaves msg := by
  have hleave : ∀ o f, Empty l.entry → Empty (leave sender o f l.entry) := by
    intro o f he hd
    by_cases hs : l.entry.sharers.erase sender = ∅
    · exact hs
    · simp only [leave, hs, if_false] at hd
      exact absurd (by rw [he hd, Finset.erase_empty]) hs
  have herase : ∀ x ∈ l.entry.sharers, Leaves msg →
      x ∈ l.entry.sharers.erase sender ∨ x = sender ∧ Leaves msg := by
    intro x hx hm
    by_cases hxs : x = sender
    · exact .inr ⟨hxs, hm⟩
    · exact .inl (Finset.mem_erase.mpr ⟨hxs, hx⟩)
  cases msg with
  | INV_REP =>
    obtain ⟨-, -, rfl⟩ := invRep_cases h
    exact ⟨hleave _ _, fun x hx => herase x hx (.inl rfl)⟩
  | FLUSH_REP data =>
    obtain ⟨-, -, hr⟩ := flushRep_cases h
    have hm : Leaves (FromCache.FLUSH_REP data) := .inr ⟨data, rfl⟩
    cases hr with
    | upgrade =>
      rw [modifyFront_entry]
      exact ⟨hleave _ _, fun x hx => herase x hx hm⟩
    | _ => exact ⟨hleave _ _, fun x hx => herase x hx hm⟩
  | WB_REP data =>
    obtain ⟨-, -, rfl⟩ := wbRep_cases h
    exact ⟨fun _ hd => (by cases hd), fun x hx => .inl hx⟩
  | EX_REQ | SH_REQ | UPGRADE_REQ => cases h

theorem handleMsgFromL2Cache_orderly {v v' : LineView n V} {sender msg sent} (h : Orderly v)
    (hv : v.handleMsgFromL2Cache cfg ch fresh sender msg = .ok (v', sent)) :
    Orderly v' ∧ ∀ x ∈ sharersOf v, x ∈ sharersOf v' ∨ x = sender ∧ Leaves msg := by
  unfold LineView.handleMsgFromL2Cache at hv
  split at hv
  · rename_i t ht
    have hl : Listing { v with queue := v.queue ++ [ShmemReq.create t sender] } := by
      refine ⟨h.empty, fun hr => ?_⟩
      have hfront := h.listed hr
      cases hq : v.queue with
      | nil => rw [hq] at hfront; exact hfront.elim
      | cons r rest => rw [hq] at hfront; exact hfront
    obtain ⟨ho, hsub⟩ := perform_listing hl (fun hact _ => by
      split at hact
      · cases hact
      · rename_i hlen
        exact h.served fun hq => hlen (by rw [hq]; rfl)) hv
    exact ⟨ho, fun x hx => .inl (hsub hx)⟩
  · obtain ⟨r, hr, hv⟩ := of_bind_ok hv
    obtain ⟨hempty, hsh⟩ := receiveReply_keeps hr
    have hl : Listing ⟨some r.line.entry, v.replaced, r.line.queue⟩ :=
      ⟨fun _ hx => Option.some.inj hx ▸ hempty (h.getD fresh),
        fun hrep => (frontNullify_congr (receiveReply_types hr)).mpr (h.listed hrep)⟩
    obtain ⟨ho, hsub⟩ := perform_listing hl (fun _ _ => by simp) hv
    refine ⟨ho, fun x hx => ?_⟩
    rw [← sharersOf_getD v fresh] at hx
    obtain hx' | hx' := hsh x hx
    · exact .inl (hsub hx')
    · exact .inr hx'

theorem handleMsgFromDRAM_orderly {v v' : LineView n V} {data sent} (h : Orderly v)
    (hv : v.handleMsgFromDRAM cfg ch fresh data = .ok (v', sent)) :
    Orderly v' ∧ sharersOf v ⊆ sharersOf v' := by
  unfold LineView.handleMsgFromDRAM at hv
  obtain ⟨o, hr, hv⟩ := of_bind_ok hv
  obtain ⟨req, rest, reply, hq, rfl, ht⟩ := dramReply_cases hr
  have hl : Listing ⟨some (v.entry.getD (.create fresh)), v.replaced, v.queue⟩ :=
    ⟨fun _ hx => Option.some.inj hx ▸ h.getD fresh, h.listed⟩
  have hrep : v.replaced = false := by
    by_contra hrep
    have hfront := h.listed (by simpa using hrep)
    rw [show v.queue = req :: rest from hq] at hfront
    change req.msgType = .NULLIFY_REQ at hfront
    rw [hfront] at ht
    simp at ht
  obtain ⟨ho, hsub⟩ := finish_listing hl (fun _ => hrep) (fun _ => by simp) hv
  exact ⟨ho, fun x hx => hsub (by rw [← sharersOf_getD v fresh] at hx; exact hx)⟩

theorem nullified_orderly {v v' : LineView n V} {sent : List (Send n V)}
    (hn : Nullified v v' sent) (h : Orderly v) :
    Orderly v' ∧ sharersOf v ⊆ sharersOf v' := by
  induction hn with
  | refl v => exact ⟨h, Finset.Subset.refl _⟩
  | @step v v₁ v₂ requester sent more hq hr hv ht ih =>
    unfold LineView.nullify at hv
    generalize hw : ({ v with
      replaced := true, queue := [ShmemReq.create .NULLIFY_REQ requester] } :
        LineView n V) = w at hv
    have hl : Listing w := by
      rw [← hw]; exact ⟨h.empty, fun _ => rfl⟩
    have hsh : sharersOf w = sharersOf v := by rw [← hw]; rfl
    obtain ⟨⟨v₃, s₃, next⟩, hp, hv⟩ := of_bind_ok hv
    obtain ⟨hl₃, hsub, hrep, hsome⟩ := processNullifyReq_listing hl hp
    rw [hsh] at hsub
    cases next with
    | false =>
      cases hv
      obtain ⟨ho, hsub'⟩ := ih ⟨hl₃, fun _ => hsome rfl⟩
      exact ⟨ho, hsub.trans hsub'⟩
    | true =>
      cases hv
      obtain ⟨ho, hsub'⟩ := ih ⟨⟨hl₃.empty, fun hr => by
        simp only [if_true, hrep rfl] at hr; cases hr⟩, fun hne => absurd rfl hne⟩
      exact ⟨ho, hsub.trans hsub'⟩

/-! ## Runs of the controller -/

variable {A : Type} [DecidableEq A] {G : Geometry A}

/-- A message the controller receives. -/
inductive Event (A : Type) (n : Nat) (V : Type) where
  | fromCache (sender : Fin n) (address : A) (msg : FromCache V)
  | fromDram (address : A) (data : V)

def handle (cfg : Config) (ch : Choice n V) (st : Cntlr G n V) :
    Event A n V → Except String (Cntlr G n V × Sends A n V)
  | .fromCache sender a msg => st.handleMsgFromL2Cache cfg ch sender a msg
  | .fromDram a data => st.handleMsgFromDRAM cfg ch a data

/-- The event is the invalidate or flush reply of the cache `c` for the address `a`. -/
def Event.Leaves (c : Fin n) (a : A) : Event A n V → Prop
  | .fromCache sender b msg => sender = c ∧ b = a ∧ EntryLifetime.Leaves msg
  | .fromDram _ _ => False

/-- A directory without entries; the replacement pointers hold anything. -/
def Init (st : Cntlr G n V) : Prop :=
  (∀ s i, (st.cache.ways s i).address = none ∧ ∃ f, (st.cache.ways s i).entry = .create f) ∧
    st.cache.replaced = [] ∧ ∀ a, st.queues a = []

/-- Any message arrives; a failed assertion ends the run. -/
def Step (cfg : Config) (st st' : Cntlr G n V) : Prop :=
  ∃ ch ev sent, handle cfg ch st ev = .ok (st', sent)

structure Inv (st : Cntlr G n V) : Prop where
  sound : Sound st.cache
  line : ∀ a, Orderly (view st a)

theorem Inv.served {st : Cntlr G n V} (h : Inv st) (a : A) : Served st a := (h.line a).served

omit [DecidableEq A] in
theorem Init.sound {st : Cntlr G n V} (h : Init st) : Sound st.cache := by
  obtain ⟨hw, hr, hq⟩ := h
  have hnone : ∀ s i a, (st.cache.ways s i).address ≠ some a := by
    intro s i a; rw [(hw s i).1]; simp
  refine ⟨⟨fun s i j a hi => absurd hi (hnone s i a), fun s i a hi => absurd hi (hnone s i a),
    ?_, ?_, ?_⟩, fun s i _ => (hw s i).2⟩
  · rw [hr]; exact List.nodup_nil
  · intro t i u a hu; rw [hr] at hu; cases hu
  · intro u a i hu; rw [hr] at hu; cases hu

theorem Init.view {st : Cntlr G n V} (h : Init st) (a : A) : view st a = ⟨none, false, []⟩ := by
  have hent : st.cache.entryOf a = none := by
    refine Option.eq_none_iff_forall_ne_some.mpr fun e he => ?_
    obtain ⟨s, i, hi, -⟩ | ⟨u, hu', -⟩ := h.sound.unique.entryOf_iff.mp he
    · rw [(h.1 s i).1] at hi; cases hi
    · rw [h.2.1] at hu'; cases hu'
  have hrep : (st.cache.findReplaced a).isSome = false := by
    by_contra hne
    obtain ⟨u, hu', -⟩ := findReplaced_isSome.mp (Bool.eq_true_of_not_eq_false hne)
    rw [h.2.1] at hu'; cases hu'
  rw [Refinement.view, hent, hrep, h.2.2]

theorem init_inv {st : Cntlr G n V} (h : Init st) : Inv st := by
  refine ⟨h.sound, fun a => ?_⟩
  rw [h.view a]
  exact ⟨⟨fun e he => (nomatch he), fun hrep => (nomatch hrep)⟩, fun hne => absurd rfl hne⟩

theorem handle_inv {st st' : Cntlr G n V} {ev : Event A n V} {sent : Sends A n V} (h : Inv st)
    (hst : handle cfg ch st ev = .ok (st', sent)) :
    Inv st' ∧ ∀ a, ∀ x ∈ sharersOf (view st a),
      ev.Leaves x a ∨ x ∈ sharersOf (view st' a) := by
  have hothers : ∀ {a v s}, Effect a st st' sent v s → Orderly v →
      Inv st' ∧ ∀ b, b ≠ a → sharersOf (view st b) ⊆ sharersOf (view st' b) := by
    intro a v s heff hv
    refine ⟨⟨heff.sound, fun b => ?_⟩, fun b hb => ?_⟩
    · by_cases hb : b = a
      · rw [hb, heff.self]; exact hv
      · exact (nullified_orderly (heff.others b hb) (h.line b)).1
    · exact (nullified_orderly (heff.others b hb) (h.line b)).2
  cases ev with
  | fromCache sender a msg =>
    obtain ⟨fresh, href⟩ := handleMsgFromL2Cache_refines h.sound cfg ch sender (h.served a) msg
    obtain ⟨⟨v, s⟩, hv, heff⟩ := href.of_ok hst
    obtain ⟨ho, hsh⟩ := handleMsgFromL2Cache_orderly (h.line a) hv
    obtain ⟨hinv, hsub⟩ := hothers heff ho
    refine ⟨hinv, fun b x hx => ?_⟩
    by_cases hb : b = a
    · subst hb
      rw [heff.self]
      obtain hx' | ⟨rfl, hm⟩ := hsh x hx
      · exact .inr hx'
      · exact .inl ⟨rfl, rfl, hm⟩
    · exact .inr (hsub b hb hx)
  | fromDram a data =>
    obtain ⟨fresh, href⟩ := handleMsgFromDRAM_refines h.sound cfg ch a data
    obtain ⟨⟨v, s⟩, hv, heff⟩ := href.of_ok hst
    obtain ⟨ho, hsh⟩ := handleMsgFromDRAM_orderly (h.line a) hv
    obtain ⟨hinv, hsub⟩ := hothers heff ho
    refine ⟨hinv, fun b x hx => .inr ?_⟩
    by_cases hb : b = a
    · subst hb; rw [heff.self]; exact hsh hx
    · exact hsub b hb hx

theorem reachable_inv {st : Cntlr G n V} (h : Reachable Init (Step cfg) st) : Inv st :=
  h.invariant (fun _ => init_inv) fun _ _ hi ⟨_, _, _, hst⟩ => (handle_inv hi hst).1

/-! ## The places of the entries -/

/-- No address has two places, in the set array and the replaced list together. -/
def OnePlace (d : DirectoryCache G n) : Prop :=
  ∀ a loc loc' s s', d.slot? loc = some s → s.address = some a →
    d.slot? loc' = some s' → s'.address = some a → loc = loc'

/-- A lookup of its address finds every entry. -/
def Findable (d : DirectoryCache G n) : Prop :=
  ∀ a loc s, d.slot? loc = some s → s.address = some a →
    (d.getDirectoryEntry a).1 = some loc

/-- The entry a lookup finds records the sharer. -/
def Records (d : DirectoryCache G n) (a : A) (c : Fin n) : Prop :=
  ∃ loc s, (d.getDirectoryEntry a).1 = some loc ∧ d.slot? loc = some s ∧
    s.address = some a ∧ c ∈ s.entry.sharers

/-- A replaced address has a nullify request at the front of its queue. -/
def NullifyFirst (st : Cntlr G n V) : Prop :=
  ∀ a, st.cache.Listed a →
    ∃ req rest, st.queues a = req :: rest ∧ req.msgType = .NULLIFY_REQ

theorem Unique.findable {d : DirectoryCache G n} (h : d.Unique) : Findable d := by
  intro a loc s hs ha
  have hl := h.locOf hs ha
  obtain ⟨loc', hg, hl'⟩ | ⟨_, -, he, -⟩ | ⟨-, he, -⟩ := h.getDirectoryEntry a
  · rw [hg, ← hl', hl]
  all_goals rw [DirectoryCache.entryOf_eq_some hl hs] at he; cases he

theorem Unique.records_iff {st : Cntlr G n V} (h : st.cache.Unique) (a : A) (c : Fin n) :
    Records st.cache a c ↔ c ∈ sharersOf (view st a) := by
  constructor
  · rintro ⟨loc, s, -, hs, ha, hc⟩
    have he : (view st a).entry = some s.entry :=
      DirectoryCache.entryOf_eq_some (h.locOf hs ha) hs
    rw [sharersOf, he]; exact hc
  · intro hc
    cases he : (view st a).entry with
    | none => simp [sharersOf, he, Entry.create] at hc
    | some e =>
      rw [sharersOf, he] at hc
      have he' : st.cache.entryOf a = some e := he
      cases hl : st.cache.locOf a with
      | none => rw [DirectoryCache.locOf_eq_none.mp hl] at he'; cases he'
      | some loc =>
        obtain ⟨s, hs, ha⟩ := DirectoryCache.slot?_of_locOf hl
        rw [DirectoryCache.entryOf_eq_some hl hs] at he'
        cases he'
        exact ⟨loc, s, Unique.findable h a loc s hs ha, hs, ha, hc⟩

/-! ## The candidates -/

theorem map_finRange_perm_iff {m} (g : Fin m → Fin m) :
    ((List.finRange m).map g).Perm (List.finRange m) ↔ Function.Injective g := by
  constructor
  · intro h i j hij
    have hnd : ((List.finRange m).map g).Nodup := h.nodup_iff.mpr (List.nodup_finRange m)
    exact List.inj_on_of_nodup_map hnd (List.mem_finRange i) (List.mem_finRange j) hij
  · intro h
    refine (List.perm_ext_iff_of_nodup ((List.nodup_finRange m).map h)
      (List.nodup_finRange m)).mpr fun i => ?_
    obtain ⟨j, hj⟩ := (Finite.injective_iff_surjective.mp h) i
    simp only [List.mem_map, List.mem_finRange, true_and, iff_true]
    exact ⟨j, hj⟩

/-- The counter of a set does not wrap while the candidates are listed, or wraps evenly. -/
def CounterFits (assoc : Nat) (p : BitVec 32) : Prop :=
  assoc ∣ 2 ^ 32 ∨ p.toNat + assoc ≤ 2 ^ 32

instance (assoc : Nat) (p : BitVec 32) : Decidable (CounterFits assoc p) :=
  inferInstanceAs (Decidable (_ ∨ _))

theorem rotation_injective {assoc p} (h : assoc ∣ 2 ^ 32 ∨ p + assoc ≤ 2 ^ 32) {i j}
    (hi : i < assoc) (hj : j < assoc) (hij : (i + p) % 2 ^ 32 % assoc = (j + p) % 2 ^ 32 % assoc) :
    i = j := by
  have hmod : (i + p) % assoc = (j + p) % assoc := by
    obtain hd | hle := h
    · rwa [Nat.mod_mod_of_dvd _ hd, Nat.mod_mod_of_dvd _ hd] at hij
    · rwa [Nat.mod_eq_of_lt (by omega : i + p < 2 ^ 32),
        Nat.mod_eq_of_lt (by omega : j + p < 2 ^ 32)] at hij
  have hij' : i % assoc = j % assoc := Nat.ModEq.add_right_cancel' p hmod
  rwa [Nat.mod_eq_of_lt hi, Nat.mod_eq_of_lt hj] at hij'

theorem rotation_collision {assoc p} (hp : p < 2 ^ 32) (hd : ¬ assoc ∣ 2 ^ 32)
    (hw : 2 ^ 32 < p + assoc) :
    ∃ i j, i < assoc ∧ j < assoc ∧ i ≠ j ∧
      (i + p) % 2 ^ 32 % assoc = (j + p) % 2 ^ 32 % assoc := by
  have hpos : 0 < assoc := by omega
  by_cases hbig : 2 ^ 32 < assoc
  · refine ⟨0, 2 ^ 32, hpos, hbig, (Nat.two_pow_pos 32).ne, ?_⟩
    rw [Nat.add_mod_left, Nat.zero_add]
  obtain ⟨r, hr⟩ : ∃ r, r = 2 ^ 32 % assoc := ⟨_, rfl⟩
  obtain ⟨q, hq⟩ : ∃ q, q = 2 ^ 32 / assoc := ⟨_, rfl⟩
  have hdiv : assoc * q + r = 2 ^ 32 := by rw [hr, hq]; exact Nat.div_add_mod _ _
  have hr0 : 0 < r := by
    rw [hr]; exact Nat.pos_of_ne_zero fun h => hd (Nat.dvd_of_mod_eq_zero h)
  have hrlt : r < assoc := by rw [hr]; exact Nat.mod_lt _ hpos
  obtain ⟨k, hk⟩ : ∃ k, p + k = 2 ^ 32 := ⟨2 ^ 32 - p, by omega⟩
  -- an index before the wrap counts back from the end, one after it up from zero
  have hbefore : ∀ m, m ≤ r → m ≤ k → 0 < m → (k - m + p) % 2 ^ 32 % assoc = r - m := by
    intro m hm hmk hm0
    have hval : k - m + p = assoc * q + (r - m) := by omega
    rw [Nat.mod_eq_of_lt (show k - m + p < 2 ^ 32 by omega), hval, Nat.mul_add_mod,
      Nat.mod_eq_of_lt (show r - m < assoc by omega)]
  have hafter : ∀ x, k + x < assoc → (k + x + p) % 2 ^ 32 % assoc = x := by
    intro x hx
    have hval : k + x + p = x + 2 ^ 32 := by omega
    rw [hval, Nat.add_mod_right, Nat.mod_eq_of_lt (show x < 2 ^ 32 by omega),
      Nat.mod_eq_of_lt (show x < assoc by omega)]
  by_cases hcase : r + k ≤ assoc
  · refine ⟨k - 1, k + (r - 1), by omega, by omega, by omega, ?_⟩
    rw [hbefore 1 hr0 (by omega) Nat.one_pos, hafter _ (by omega)]
  · refine ⟨k - (r + k + 1 - assoc), k + (assoc - k - 1), by omega, by omega, by omega, ?_⟩
    rw [hbefore _ (by omega) (by omega) (by omega), hafter _ (by omega)]
    omega

omit [DecidableEq A] in
theorem candidates_perm_iff (d : DirectoryCache G n) (a : A) :
    (d.getReplacementCandidates a).1.Perm (List.finRange G.assoc) ↔
      CounterFits G.assoc (d.replacementPtrs (G.setIndex a)) := by
  have hval : ∀ i : Fin G.assoc,
      (BitVec.ofNat 32 i + d.replacementPtrs (G.setIndex a)).toNat % G.assoc =
        (i + (d.replacementPtrs (G.setIndex a)).toNat) % 2 ^ 32 % G.assoc := by
    intro i
    rw [BitVec.toNat_add, BitVec.toNat_ofNat, Nat.mod_add_mod]
  unfold DirectoryCache.getReplacementCandidates
  rw [map_finRange_perm_iff]
  constructor
  · intro hinj
    by_contra hn
    obtain ⟨hd, hw⟩ := not_or.mp hn
    obtain ⟨i, j, hi, hj, hne, hij⟩ := rotation_collision
      (d.replacementPtrs (G.setIndex a)).isLt hd (Nat.lt_of_not_le hw)
    have heq : (⟨i, hi⟩ : Fin G.assoc) = ⟨j, hj⟩ :=
      hinj (Fin.ext ((hval ⟨i, hi⟩).trans (hij.trans (hval ⟨j, hj⟩).symm)))
    exact hne (Fin.mk.inj heq)
  · intro h i j hij
    refine Fin.ext (rotation_injective h i.isLt j.isLt ?_)
    rw [← hval, ← hval]
    exact Fin.mk.inj hij

/-- **Each address has one entry, found by its lookup; a recorded sharer stays until its own reply
arrives; a replaced address has its nullify request in front.** The candidates are every way once
exactly where the counter fits. -/
theorem entries_unique_and_kept {st : Cntlr G n V} (h : Reachable Init (Step cfg) st) :
    OnePlace st.cache ∧ Findable st.cache ∧
      (∀ ch ev st' sent, handle cfg ch st ev = .ok (st', sent) → ∀ a c,
        Records st.cache a c → ev.Leaves c a ∨ Records st'.cache a c) ∧
      NullifyFirst st ∧
      ∀ a, (st.cache.getReplacementCandidates a).1.Perm (List.finRange G.assoc) ↔
        CounterFits G.assoc (st.cache.replacementPtrs (G.setIndex a)) := by
  have hinv := reachable_inv h
  have hu := hinv.sound.unique
  refine ⟨?_, Unique.findable hu, ?_, ?_, candidates_perm_iff st.cache⟩
  · intro a loc loc' s s' hs ha hs' ha'
    exact Option.some.inj ((hu.locOf hs ha).symm.trans (hu.locOf hs' ha'))
  · intro ch ev st' sent hst a c hc
    obtain ⟨hinv', hkeep⟩ := handle_inv hinv hst
    exact (hkeep a c ((Unique.records_iff hu a c).mp hc)).imp_right
      (Unique.records_iff hinv'.sound.unique a c).mpr
  · intro a ha
    have hfront : FrontNullify (st.queues a) := (hinv.line a).listed (view_replaced.mpr ha)
    cases hq : st.queues a with
    | nil => rw [hq] at hfront; exact hfront.elim
    | cons req rest => rw [hq] at hfront; exact ⟨req, rest, rfl, hfront⟩

/-! ## A counter that wraps -/

/-- The controller after a list of messages. -/
def handleAll (cfg : Config) (ch : Choice n V) (st : Cntlr G n V) :
    List (Event A n V) → Except String (Cntlr G n V)
  | [] => .ok st
  | ev :: evs => do
    let (st, _) ← handle cfg ch st ev
    handleAll cfg ch st evs

theorem Reachable.handleAll {evs} : ∀ {st st' : Cntlr G n V},
    Reachable Init (Step cfg) st → handleAll cfg ch st evs = .ok st' →
    Reachable Init (Step cfg) st' := by
  induction evs with
  | nil => intro st st' h he; cases he; exact h
  | cons ev evs ih =>
    intro st st' h he
    unfold EntryLifetime.handleAll at he
    obtain ⟨⟨st₁, sent⟩, hst, he⟩ := of_bind_ok he
    exact ih (.step h ⟨ch, ev, sent, hst⟩) he

/-- One set of three ways. -/
def threeWays : Geometry Nat := ⟨1, 3, fun _ => 0⟩

/-- An empty directory whose counter is at its last value. -/
def wrapping : Cntlr threeWays 1 Nat :=
  ⟨⟨fun _ _ => ⟨none, .create none⟩, [], fun _ => BitVec.ofNat 32 (2 ^ 32 - 1)⟩, fun _ => []⟩

theorem wrapping_init : Init wrapping := ⟨fun _ _ => ⟨rfl, none, rfl⟩, rfl, fun _ => rfl⟩

def fullMap : Config := ⟨.FULL_MAP, 1, .MSI⟩

/-- The cache reads three lines. -/
def threeReads : List (Event Nat 1 Nat) :=
  [.fromCache 0 0 .SH_REQ, .fromCache 0 1 .SH_REQ, .fromCache 0 2 .SH_REQ]

theorem threeReads_fill : ∃ st, handleAll fullMap ⟨0, none, none, 0⟩ wrapping threeReads = .ok st ∧
    (st.cache.getDirectoryEntry 3).1 = none ∧
    st.cache.replacementPtrs (threeWays.setIndex 3) = BitVec.ofNat 32 (2 ^ 32 - 1) :=
  ⟨_, rfl, rfl, rfl⟩

/-- The theorem at the directory that is full of these lines. -/
theorem entries_unique_and_kept_threeReads :
    ∃ st, handleAll fullMap ⟨0, none, none, 0⟩ wrapping threeReads = .ok st ∧
      OnePlace st.cache ∧ Findable st.cache ∧ NullifyFirst st := by
  obtain ⟨st, hst, -⟩ := threeReads_fill
  obtain ⟨h1, h2, -, h4, -⟩ :=
    entries_unique_and_kept (Reachable.handleAll (.init wrapping_init) hst)
  exact ⟨st, hst, h1, h2, h4⟩

/-- A fourth line is then offered the first way twice, and not the last one. -/
theorem candidates_repeat : ∃ st : Cntlr threeWays 1 Nat, Reachable Init (Step fullMap) st ∧
    (st.cache.getDirectoryEntry 3).1 = none ∧
    ¬ (st.cache.getReplacementCandidates 3).1.Perm (List.finRange 3) := by
  obtain ⟨st, hst, hnone, hptr⟩ := threeReads_fill
  refine ⟨st, Reachable.handleAll (.init wrapping_init) hst, hnone, fun hperm => ?_⟩
  have hfits := (candidates_perm_iff st.cache 3).mp hperm
  rw [hptr] at hfits
  exact absurd hfits (by decide)

end Sniper.Directory.EntryLifetime
