import Sniper.Directory.Outcomes
import Sniper.Directory.Refinement

/-! # From the parts of a handler to the whole handler

What holds of a line while the directory waits (`settled`) and what holds when its front
request is about to be processed (`ready`), each with what surrounds the line: the caches,
the channels, DRAM. When every part of a handler leads from one to the other, a whole
handler keeps what holds while the directory waits.
-/
namespace Sniper.Protocol.LineInvariant
open Directory.Handlers Directory.Refinement

variable {n : Nat} {V : Type}

/-- The line of a view; one without an entry is as one with a new entry. -/
def lineOf (v : LineView n V) (fresh : Option (Fin n)) : Line n V :=
  ⟨v.entry.getD (.create fresh), v.queue⟩

end Sniper.Protocol.LineInvariant

namespace Sniper.Protocol.Handling
open Directory.DirectoryEntry Directory.Handlers Directory.Outcomes
open Directory.Refinement Protocol.LineInvariant Lib.Simulation

/-- What is left to do after a message: to wait, or to process the front request. -/
def Continues {n : Nat} {V : Type} {Env : Type} (ready : Option V → Line n V → Env → Prop)
    (settled : Line n V → Env → Prop) (l : Line n V) (e : Env) : Action V → Prop
  | .done => settled l e
  | .process buf => l.queue ≠ [] ∧ ready buf l e

/-- What holds of a line and its surroundings between the parts of a handler, kept by each
part. `pops` takes a message of a cache from its channel and `answers` a reply of DRAM; only
the messages that `admits` allows are taken. -/
structure Discipline (cfg : Config) (n : Nat) (V : Type) where
  Env : Type
  emit : List (Send n V) → Env → Env
  pops : Fin n → FromCache V → Env → Env → Prop
  answers : V → Env → Env → Prop
  chooses : Choice n V → Prop
  admits : Line n V → Env → Fin n → FromCache V → Prop
  ready : Option V → Line n V → Env → Prop
  settled : Line n V → Env → Prop
  emit_nil : ∀ e, emit [] e = e
  emit_append : ∀ s t e, emit (s ++ t) e = emit t (emit s e)
  renewReady : ∀ {buf l e}, ready buf l e → l.entry.dstate = .UNCACHED → ∀ f,
    ready buf ⟨.create f, l.queue⟩ e
  renewSettled : ∀ {l e}, settled l e → l.entry.dstate = .UNCACHED → ∀ f,
    settled ⟨.create f, l.queue⟩ e
  settle : ∀ {l e}, ready none l e → l.queue = [] → settled l e
  front : ∀ {ch buf l e r q o}, chooses ch → ready buf l e → l.queue = r :: q →
    Front cfg ch buf r l o →
    (o.next = true → ready none ⟨o.line.entry, q⟩ (emit o.sent e)) ∧
      (o.next = false → settled o.line (emit o.sent e))
  request_idle : ∀ {l e e' c m t}, settled l e → l.queue = [] → pops c m e e' →
    m.request? = some t → ready none ⟨l.entry, [ShmemReq.create t c]⟩ e'
  request_busy : ∀ {l e e' c m t}, settled l e → l.queue ≠ [] → pops c m e e' →
    m.request? = some t → settled ⟨l.entry, l.queue ++ [ShmemReq.create t c]⟩ e'
  received : ∀ {ch l e e' c m r}, chooses ch → settled l e → admits l e c m → pops c m e e' →
    receiveReply ch c l m = .ok r → Continues ready settled r.line (emit r.sent e') r.action
  dramReply : ∀ {l e e' d o}, settled l e → answers d e e' → processDRAMReply d l = .ok o →
    ∃ r q, o.line.queue = r :: q ∧ ready none ⟨o.line.entry, q⟩ (emit o.sent e')
  nullifies : ∀ {l e}, settled l e → l.queue = [] → ∀ requester,
    ready none ⟨l.entry, [ShmemReq.create .NULLIFY_REQ requester]⟩ e

variable {cfg : Config} {n : Nat} {V : Type}

theorem front_queue {ch buf r q} {l : Line n V} {o : Outcome n V} (h : Front cfg ch buf r l o)
    (hq : l.queue = r :: q) (hn : o.next = true) : o.line.queue = r :: q := by
  cases h with
  | upgraded | nullified => exact hq
  | fetch hj hr =>
    cases hr with
    | given | nuca => exact hq
    | forward | dram => cases hn
  | flushOwner | askOwner | invalidate | upgradeInvalidate | makeRoom => cases hn

namespace Discipline
variable (D : Discipline cfg n V) {ch : Choice n V} {fresh : Option (Fin n)} {buf : Option V}
  {v v' : LineView n V} {e e' : D.Env} {sent : List (Send n V)} {next : Bool}
  {r : ShmemReq n V} {q : List (ShmemReq n V)} {c : Fin n} {m : FromCache V}

theorem settled_at (h : D.settled (lineOf v none) e) (f : Option (Fin n)) :
    D.settled (lineOf v f) e := by
  cases he : v.entry with
  | none =>
    have hd : (lineOf v none).entry.dstate = .UNCACHED := by simp [lineOf, he, Entry.create]
    simpa [lineOf, he] using D.renewSettled h hd f
  | some _ => simpa [lineOf, he] using h

theorem ready_at (h : D.ready buf (lineOf v none) e) (f : Option (Fin n)) :
    D.ready buf (lineOf v f) e := by
  cases he : v.entry with
  | none =>
    have hd : (lineOf v none).entry.dstate = .UNCACHED := by simp [lineOf, he, Entry.create]
    simpa [lineOf, he] using D.renewReady h hd f
  | some _ => simpa [lineOf, he] using h

theorem processed (hc : D.chooses ch) (h : D.ready buf (lineOf v none) e) (hq : v.queue = r :: q)
    (hok : v.processFront cfg ch fresh buf = .ok (v', sent, next)) :
    (next = true ∧ v'.queue = r :: q ∧
      D.ready none (lineOf { v' with queue := q } none) (D.emit sent e)) ∨
    (next = false ∧ D.settled (lineOf v' none) (D.emit sent e)) := by
  unfold LineView.processFront at hok
  rw [hq] at hok
  dsimp only at hok
  split at hok
  · rename_i ht
    unfold LineView.processNullifyReq at hok
    split at hok
    · cases hok
    · rename_i entry he
      have hline : lineOf v none = ⟨entry, v.queue⟩ := by simp [lineOf, he]
      rw [hline] at h
      obtain ⟨o, ho, hok⟩ := of_bind_ok hok
      obtain ⟨hl, hd⟩ := nullifyReq_line ho
      have hf : Front cfg ch buf r ⟨entry, v.queue⟩ o := nullifyReq_cases ht ho
      obtain ⟨hready, hsettled⟩ := D.front hc h hq hf
      cases hnext : o.next with
      | true =>
        rw [hnext, if_pos rfl] at hok
        split at hok
        · cases hok
          have hd : o.line.entry.dstate = .UNCACHED := by rw [hl]; exact hd hnext
          exact .inl ⟨rfl, by rw [hl]; exact hq, D.renewReady (hready hnext) hd none⟩
        · cases hok
      | false =>
        rw [hnext, if_neg (by simp)] at hok
        cases hok
        exact .inr ⟨rfl, hsettled hnext⟩
  · obtain ⟨o, ho, hok⟩ := of_bind_ok hok
    cases hok
    have h' : D.ready buf ⟨v.entry.getD (.create fresh), r :: q⟩ e := by
      have := D.ready_at h fresh
      rwa [lineOf, hq] at this
    have hf : Front cfg ch buf r ⟨v.entry.getD (.create fresh), r :: q⟩ o :=
      processFront_cases rfl ho
    obtain ⟨hready, hsettled⟩ := D.front hc h' rfl hf
    cases hnext : o.next with
    | true => exact .inl ⟨rfl, front_queue hf rfl hnext, hready hnext⟩
    | false => exact .inr ⟨rfl, hsettled hnext⟩

theorem serve (hc : D.chooses ch) {q} : ∀ {v v' : LineView n V} {e : D.Env}
    {sent : List (Send n V)}, D.ready none (lineOf { v with queue := q } none) e →
    v.serve cfg ch fresh q = .ok (v', sent) → D.settled (lineOf v' none) (D.emit sent e) := by
  induction q with
  | nil =>
    intro v v' e sent h hok
    cases hok
    rw [D.emit_nil]
    exact D.settle h rfl
  | cons r q ih =>
    intro v v' e sent h hok
    unfold LineView.serve at hok
    split at hok
    · cases hok
    · obtain ⟨⟨v₁, first, next⟩, hp, hok⟩ := of_bind_ok hok
      rcases D.processed hc h rfl hp with ⟨rfl, -, hready⟩ | ⟨rfl, hsettled⟩
      · obtain ⟨p, hr, hok⟩ := of_bind_ok hok
        cases hok
        rw [D.emit_append]
        exact ih hready hr
      · cases hok
        exact hsettled

theorem perform (hc : D.chooses ch) {a first}
    (h : Continues D.ready D.settled (lineOf v none) (D.emit first e) a)
    (hok : v.perform cfg ch fresh first a = .ok (v', sent)) :
    D.settled (lineOf v' none) (D.emit sent e) := by
  cases a with
  | done =>
    cases hok
    exact h
  | process buf =>
    obtain ⟨hne, h⟩ := h
    obtain ⟨r, q, hq⟩ := List.exists_cons_of_ne_nil hne
    unfold LineView.perform at hok
    obtain ⟨⟨v₁, more, next⟩, hp, hok⟩ := of_bind_ok hok
    rcases D.processed hc h hq hp with ⟨rfl, hq₁, hready⟩ | ⟨rfl, hsettled⟩
    · unfold LineView.finish at hok
      dsimp only at hok
      rw [if_pos rfl, hq₁] at hok
      obtain ⟨p, hr, hok⟩ := of_bind_ok hok
      cases hok
      rw [D.emit_append, D.emit_append]
      exact D.serve hc hready hr
    · cases hok
      rw [D.emit_append]
      exact hsettled

/-! ## Whole handlers -/

theorem handleMsgFromL2Cache (hc : D.chooses ch) (h : D.settled (lineOf v none) e)
    (ha : ∀ f, D.admits (lineOf v f) e c m) (hp : D.pops c m e e')
    (hok : v.handleMsgFromL2Cache cfg ch fresh c m = .ok (v', sent)) :
    D.settled (lineOf v' none) (D.emit sent e') := by
  unfold LineView.handleMsgFromL2Cache at hok
  split at hok
  · rename_i t ht
    by_cases hq : v.queue = []
    · have hready := D.request_idle h hq hp ht
      rw [if_pos (by rw [hq]; rfl)] at hok
      have hcont : Continues D.ready D.settled
          (lineOf { v with queue := v.queue ++ [ShmemReq.create t c] } none) (D.emit [] e')
          (.process none) := by
        rw [D.emit_nil]
        exact ⟨by simp [lineOf], by simpa [lineOf, hq] using hready⟩
      exact D.perform hc hcont hok
    · have hsettled := D.request_busy h hq hp ht
      rw [if_neg (by simpa using hq)] at hok
      cases hok
      rw [D.emit_nil]
      exact hsettled
  · obtain ⟨r, hr, hok⟩ := of_bind_ok hok
    have hcont := D.received hc (D.settled_at h fresh) (ha fresh) hp hr
    exact D.perform hc (v := ⟨some r.line.entry, v.replaced, r.line.queue⟩) hcont hok

theorem handleMsgFromDRAM (hc : D.chooses ch) (h : D.settled (lineOf v none) e) {d}
    (hans : D.answers d e e') (hok : v.handleMsgFromDRAM cfg ch fresh d = .ok (v', sent)) :
    D.settled (lineOf v' none) (D.emit sent e') := by
  unfold LineView.handleMsgFromDRAM at hok
  obtain ⟨o, ho, hok⟩ := of_bind_ok hok
  obtain ⟨r, q, hq, hready⟩ := D.dramReply (D.settled_at h fresh) hans ho
  have hnext : o.next = true := by
    obtain ⟨-, -, -, -, rfl, -⟩ := dramReply_cases ho
    rfl
  simp only [LineView.finish, hnext, if_true, hq] at hok
  obtain ⟨p, hs, hok⟩ := of_bind_ok hok
  cases hok
  rw [D.emit_append]
  exact D.serve hc (v := ⟨some o.line.entry, v.replaced, r :: q⟩) hready hs

theorem nullify (hc : D.chooses ch) (h : D.settled (lineOf v none) e) (hq : v.queue = [])
    {requester} (hok : v.nullify requester = .ok (v', sent)) :
    D.settled (lineOf v' none) (D.emit sent e) := by
  have hready := D.nullifies h hq requester
  unfold LineView.nullify at hok
  obtain ⟨⟨v₁, first, next⟩, hp, hok⟩ := of_bind_ok hok
  cases hok
  have hfront : LineView.processFront cfg ch none none { v with
      replaced := true, queue := [ShmemReq.create .NULLIFY_REQ requester] } =
      .ok (v₁, sent, next) := by
    simpa [LineView.processFront, ShmemReq.create] using hp
  rcases D.processed hc (v := { v with
      replaced := true, queue := [ShmemReq.create .NULLIFY_REQ requester] }) hready rfl hfront
    with ⟨rfl, -, hready⟩ | ⟨rfl, hsettled⟩
  · exact D.settle hready rfl
  · exact hsettled

theorem nullified (hc : D.chooses ch) (hn : Nullified v v' sent) :
    ∀ {e : D.Env}, D.settled (lineOf v none) e → D.settled (lineOf v' none) (D.emit sent e) := by
  induction hn with
  | refl v =>
    intro e h
    rw [D.emit_nil]
    exact h
  | step hq hr hn _ ih =>
    intro e h
    rw [D.emit_append]
    exact ih (D.nullify hc h hq hn)

end Discipline
end Sniper.Protocol.Handling
