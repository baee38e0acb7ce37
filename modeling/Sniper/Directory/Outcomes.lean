import Sniper.Directory.Handlers
import Sniper.Lib.Simulation

/-! # What the processing of a request can do

Each handler of `Handlers` inverted once: the ways it can end, with what held before. The
invariants are proved by cases on these.
-/
namespace Sniper.Directory.Outcomes
open Directory.DirectoryEntry Directory.Handlers Lib.Simulation

variable {n : Nat} {V : Type}

/-- A requester becomes a sharer, and the entry then decides which reply it gets. -/
inductive Joins (cfg : Config) (req : ShmemReq n V) (e : Entry n) :
    Entry n → (V → ToCache V) → Prop
  | exclusive (ht : req.msgType = .EX_REQ ∨ req.msgType = .UPGRADE_REQ)
      (hd : e.dstate = .UNCACHED) (hr : req.requester ∉ e.sharers) :
      Joins cfg req e { e with
        dstate := .MODIFIED
        sharers := insert req.requester e.sharers
        owner := some req.requester } .EX_REP
  | first (ht : req.msgType = .SH_REQ) (hp : cfg.protocol = .MSI) (hd : e.dstate = .UNCACHED)
      (hr : req.requester ∉ e.sharers) :
      Joins cfg req e { e with
        dstate := .SHARED
        sharers := insert req.requester e.sharers
        owner := some req.requester } .SH_REP
  | firstExclusive (ht : req.msgType = .SH_REQ) (hp : cfg.protocol ≠ .MSI)
      (hd : e.dstate = .UNCACHED) (hr : req.requester ∉ e.sharers) :
      Joins cfg req e { e with
        dstate := .EXCLUSIVE
        sharers := insert req.requester e.sharers
        owner := some req.requester } .EX_REP
  | shares (ht : req.msgType = .SH_REQ) (hd : e.dstate = .SHARED)
      (hr : req.requester ∉ e.sharers)
      (hroom : cfg.directoryType = .LIMITLESS ∨
        e.sharers.card < Entry.getMaxHwSharers cfg n) :
      Joins cfg req e { e with sharers := insert req.requester e.sharers } .SH_REP
  | again (ht : req.msgType = .SH_REQ) (hd : e.dstate = .SHARED)
      (hr : req.requester ∈ e.sharers) : Joins cfg req e e .SH_REP

/-- How the data of a reply is found. -/
inductive Retrieves (cfg : Config) (ch : Choice n V) (req : ShmemReq n V)
    (reply : V → ToCache V) (buf : Option V) (l : Line n V) : Outcome n V → Prop
  | given {d} (hb : buf = some d) : Retrieves cfg ch req reply buf l
      ⟨l.setForwarder (some req.requester), [.cache req.requester (reply d)], true⟩
  | nuca {d} (hb : buf = none) (hn : ch.nuca = some d) : Retrieves cfg ch req reply buf l
      ⟨l, [.cache req.requester (reply d)], true⟩
  | forward {f} (hb : buf = none) (hf : l.entry.forwarder = some f)
      (hp : cfg.protocol = .MESIF) (hn : req.forwardingFrom = none)
      (hd : l.entry.dstate = .SHARED) : Retrieves cfg ch req reply buf l
      ⟨l.modifyFront ({ · with forwardingFrom := some f }), [.cache f .WB_REQ], false⟩
  | dram (hb : buf = none) (hn : ch.nuca = none) : Retrieves cfg ch req reply buf l
      ⟨l.modifyFront ({ · with waitForData := true }), [.DRAM_READ_REQ], false⟩

/-- The data an upgrade can use besides what a message brought. -/
def bufOf (buf : Option V) (req : ShmemReq n V) : Option V :=
  match req.msgType with
  | .UPGRADE_REQ => buf <|> req.dataBuf
  | _ => buf

/-- The ways the processing of the front request can end. -/
inductive Front (cfg : Config) (ch : Choice n V) (buf : Option V) (req : ShmemReq n V)
    (l : Line n V) : Outcome n V → Prop
  | flushOwner {o} (ht : req.msgType ≠ .SH_REQ)
      (hd : l.entry.dstate = .EXCLUSIVE ∨ l.entry.dstate = .MODIFIED)
      (ho : l.entry.owner = some o)
      (hu : req.msgType = .UPGRADE_REQ → ∃ c ∈ l.entry.sharers, c ≠ req.requester) :
      Front cfg ch buf req l ⟨l, [.cache o .FLUSH_REQ], false⟩
  | askOwner {o} (ht : req.msgType = .SH_REQ)
      (hd : l.entry.dstate = .EXCLUSIVE ∨ l.entry.dstate = .MODIFIED)
      (ho : l.entry.owner = some o) : Front cfg ch buf req l ⟨l, [.cache o .WB_REQ], false⟩
  | invalidate (ht : req.msgType = .EX_REQ ∨ req.msgType = .NULLIFY_REQ)
      (hd : l.entry.dstate = .SHARED) :
      Front cfg ch buf req l ⟨l, sendAll l.entry.getSharersList .INV_REQ, false⟩
  | upgradeInvalidate (ht : req.msgType = .UPGRADE_REQ) (hd : l.entry.dstate = .SHARED)
      (hs : l.entry.sharers ≠ {req.requester}) :
      Front cfg ch buf req l ⟨l, upgradeInvalidations req.requester l.entry, false⟩
  | makeRoom {s} (ht : req.msgType = .SH_REQ) (hd : l.entry.dstate = .SHARED)
      (hr : req.requester ∉ l.entry.sharers) (hs : s ∈ l.entry.sharers)
      (hfull : cfg.directoryType ≠ .LIMITLESS ∧
        Entry.getMaxHwSharers cfg n ≤ l.entry.sharers.card) :
      Front cfg ch buf req l ⟨l, [.cache s .INV_REQ], false⟩
  | upgraded (ht : req.msgType = .UPGRADE_REQ) (hr : req.requester ∈ l.entry.sharers)
      (hd : l.entry.dstate = .SHARED ∧ l.entry.sharers = {req.requester} ∨
        (l.entry.dstate = .EXCLUSIVE ∨ l.entry.dstate = .MODIFIED) ∧
          l.entry.owner = some req.requester) :
      Front cfg ch buf req l
        ⟨{ l with entry := { l.entry with dstate := .MODIFIED, owner := some req.requester } },
          [.cache req.requester .UPGRADE_REP], true⟩
  | fetch {e reply o} (hj : Joins cfg req l.entry e reply)
      (hf : Retrieves cfg ch req reply (bufOf buf req) { l with entry := e } o) :
      Front cfg ch buf req l o
  | nullified (ht : req.msgType = .NULLIFY_REQ) (hd : l.entry.dstate = .UNCACHED) :
      Front cfg ch buf req l ⟨l, [], true⟩

variable {cfg : Config} {ch : Choice n V} {buf : Option V} {req : ShmemReq n V}
  {rest : List (ShmemReq n V)} {l : Line n V} {o : Outcome n V}

theorem retrieve_cases {reply} (hq : l.queue = req :: rest)
    (h : retrieveDataAndSendToL2Cache cfg ch reply req.requester buf l = .ok o) :
    Retrieves cfg ch req reply buf l o := by
  unfold retrieveDataAndSendToL2Cache at h
  cases buf with
  | some d => cases h; exact .given rfl
  | none =>
    cases hn : ch.nuca with
    | some d => simp only [hn] at h; cases h; exact .nuca rfl hn
    | none =>
      simp only [hn, hq] at h
      split at h
      · rename_i f hf
        split at h
        · rename_i hc; cases h; exact .forward rfl hf hc.1 hc.2.1 hc.2.2
        · cases h; exact .dram rfl hn
      · cases h; exact .dram rfl hn

theorem sendOwner_cases {msg} (h : sendOwner l msg = .ok o) :
    ∃ c, l.entry.owner = some c ∧ o = ⟨l, [.cache c msg], false⟩ := by
  unfold sendOwner at h
  split at h
  · rename_i c hc; cases h; exact ⟨c, hc, rfl⟩
  · cases h

theorem join_cases {α : Type} {f : Entry n → Except String α} {e : Entry n} {r msg o}
    (h : (do
      let (added, entry) ← e.addSharer cfg r
      if !added then .error msg
      else
        let entry ← entry.setOwner r
        f entry) = .ok o) :
    r ∉ e.sharers ∧ f { e with sharers := insert r e.sharers, owner := some r } = .ok o := by
  obtain ⟨⟨added, e₁⟩, ha, h⟩ := of_bind_ok h
  obtain ⟨hr, ⟨rfl, -⟩ | ⟨rfl, rfl, -⟩⟩ := Entry.addSharer_ok ha
  · cases h
  · obtain ⟨e₂, ho, h⟩ := of_bind_ok h
    exact ⟨hr, (Entry.setOwner_ok ho).2 ▸ h⟩

theorem exReq_cases (ht : req.msgType = .EX_REQ) (hq : l.queue = req :: rest)
    (h : processExReqFromL2Cache cfg ch req buf l = .ok o) : Front cfg ch buf req l o := by
  have hnot : req.msgType ≠ .SH_REQ ∧ req.msgType ≠ .UPGRADE_REQ := by rw [ht]; simp
  have hbuf : bufOf buf req = buf := by simp [bufOf, ht]
  unfold processExReqFromL2Cache at h
  split at h
  · rename_i hd
    split at h
    · cases h
    · obtain ⟨c, ho, rfl⟩ := sendOwner_cases h
      exact .flushOwner hnot.1 (.inl hd) ho fun h => absurd h hnot.2
  · rename_i hd
    split at h
    · cases h
    · obtain ⟨c, ho, rfl⟩ := sendOwner_cases h
      exact .flushOwner hnot.1 (.inr hd) ho fun h => absurd h hnot.2
  · rename_i hd
    split at h
    · cases h
    · cases h; exact .invalidate (.inl ht) hd
  · rename_i hd
    obtain ⟨hr, h⟩ := join_cases h
    refine .fetch (.exclusive (.inl ht) hd hr) ?_
    rw [hbuf]
    exact retrieve_cases hq h
  · cases h

theorem shReq_cases (ht : req.msgType = .SH_REQ) (hq : l.queue = req :: rest)
    (h : processShReqFromL2Cache cfg ch req buf l = .ok o) : Front cfg ch buf req l o := by
  have hbuf : bufOf buf req = buf := by simp [bufOf, ht]
  unfold processShReqFromL2Cache at h
  split at h
  · rename_i hd
    split at h
    · cases h
    · split at h
      · cases h
      · obtain ⟨c, ho, rfl⟩ := sendOwner_cases h
        exact .askOwner ht (.inl hd) ho
  · rename_i hd
    split at h
    · cases h
    · obtain ⟨c, ho, rfl⟩ := sendOwner_cases h
      exact .askOwner ht (.inr hd) ho
  · rename_i hd
    split at h
    · rename_i hs
      refine .fetch (.again ht hd (by simpa [Entry.hasSharer] using hs)) ?_
      rw [hbuf]
      exact retrieve_cases hq h
    · obtain ⟨⟨added, e₁⟩, ha, h⟩ := of_bind_ok h
      obtain ⟨hr, ⟨rfl, rfl, hfull⟩ | ⟨rfl, rfl, hroom⟩⟩ := Entry.addSharer_ok ha
      · obtain ⟨s, hs, h⟩ := of_bind_ok h
        cases h
        exact .makeRoom ht hd hr (Entry.getOneSharer_ok hs) hfull
      · refine .fetch (.shares ht hd hr hroom) ?_
        rw [hbuf]
        exact retrieve_cases hq h
  · rename_i hd
    obtain ⟨hr, h⟩ := join_cases h
    split at h
    · rename_i hp
      refine .fetch (.first ht hp hd hr) ?_
      rw [hbuf]
      exact retrieve_cases hq h
    · rename_i hp
      refine .fetch (.firstExclusive ht hp hd hr) ?_
      rw [hbuf]
      exact retrieve_cases hq h
  · cases h

theorem upgradeOwned_cases (ht : req.msgType = .UPGRADE_REQ)
    (hd : l.entry.dstate = .EXCLUSIVE ∨ l.entry.dstate = .MODIFIED)
    (h : (match l.entry.getSharersList with
      | [] => .error "sharers_list_pair.second[0]"
      | c :: _ =>
        if c = req.requester then
          if l.entry.owner = some req.requester then
            .ok ⟨l.setDState .MODIFIED, [.cache req.requester .UPGRADE_REP], true⟩
          else .error "directory_entry->getOwner() == requester"
        else sendOwner l .FLUSH_REQ) = Except.ok o) : Front cfg ch buf req l o := by
  split at h
  · cases h
  · rename_i c cs hcs
    have hc : c ∈ l.entry.sharers := Entry.mem_getSharersList.mp (by rw [hcs]; simp)
    split at h
    · rename_i hcr
      split at h
      · rename_i ho
        cases h
        have : l.setDState .MODIFIED = { l with entry :=
            { l.entry with dstate := .MODIFIED, owner := some req.requester } } := by
          rw [Line.setDState, ← ho]
        rw [this]
        exact .upgraded ht (hcr ▸ hc) (.inr ⟨hd, ho⟩)
      · cases h
    · rename_i hcr
      obtain ⟨c', ho, rfl⟩ := sendOwner_cases h
      exact .flushOwner (by rw [ht]; simp) hd ho fun _ => ⟨c, hc, hcr⟩

theorem upgradeReq_cases (ht : req.msgType = .UPGRADE_REQ) (hq : l.queue = req :: rest)
    (h : processUpgradeReqFromL2Cache cfg ch req buf l = .ok o) : Front cfg ch buf req l o := by
  have hbuf : bufOf buf req = (buf <|> req.dataBuf) := by simp [bufOf, ht]
  unfold processUpgradeReqFromL2Cache at h
  split at h
  · exact upgradeOwned_cases ht (.inl (by assumption)) h
  · exact upgradeOwned_cases ht (.inr (by assumption)) h
  · rename_i hd
    split at h
    · rename_i hs
      have hs' := Entry.getSharersList_eq_singleton.mp hs
      obtain ⟨e, ho, h⟩ := of_bind_ok h
      obtain ⟨hr, rfl⟩ := Entry.setOwner_ok ho
      cases h
      exact .upgraded ht hr (.inl ⟨hd, hs'⟩)
    · rename_i hs
      cases h
      exact .upgradeInvalidate ht hd fun h' => hs (Entry.getSharersList_eq_singleton.mpr h')
  · rename_i hd
    split at h
    · cases h
    · obtain ⟨hr, h⟩ := join_cases h
      refine .fetch (.exclusive (.inr ht) hd hr) ?_
      rw [hbuf]
      exact retrieve_cases hq h
  · cases h

theorem nullifyReq_cases (ht : req.msgType = .NULLIFY_REQ)
    (h : processNullifyReq l = .ok o) : Front cfg ch buf req l o := by
  have hnot : req.msgType ≠ .SH_REQ ∧ req.msgType ≠ .UPGRADE_REQ := by rw [ht]; simp
  unfold processNullifyReq at h
  split at h
  · obtain ⟨c, ho, rfl⟩ := sendOwner_cases h
    exact .flushOwner hnot.1 (.inl (by assumption)) ho fun h => absurd h hnot.2
  · obtain ⟨c, ho, rfl⟩ := sendOwner_cases h
    exact .flushOwner hnot.1 (.inr (by assumption)) ho fun h => absurd h hnot.2
  · cases h; exact .invalidate (.inr ht) (by assumption)
  · cases h; exact .nullified ht (by assumption)
  · cases h

theorem nullifyReq_line (h : processNullifyReq l = .ok o) :
    o.line = l ∧ (o.next = true → l.entry.dstate = .UNCACHED) := by
  unfold processNullifyReq at h
  split at h
  · obtain ⟨c, -, rfl⟩ := sendOwner_cases h; exact ⟨rfl, by simp⟩
  · obtain ⟨c, -, rfl⟩ := sendOwner_cases h; exact ⟨rfl, by simp⟩
  · cases h; exact ⟨rfl, by simp⟩
  · cases h; exact ⟨rfl, fun _ => by assumption⟩
  · cases h

theorem processFront_cases (hq : l.queue = req :: rest)
    (h : processFront cfg ch buf l = .ok o) : Front cfg ch buf req l o := by
  unfold processFront at h
  rw [hq] at h
  dsimp only at h
  split at h
  · exact exReq_cases (by assumption) hq h
  · exact shReq_cases (by assumption) hq h
  · exact upgradeReq_cases (by assumption) hq h
  · exact nullifyReq_cases (by assumption) h

/-! ## Replies -/

/-- The entry without the sharer `c`. -/
def leave (c : Fin n) (owner forwarder : Option (Fin n)) (e : Entry n) : Entry n where
  dstate := if e.sharers.erase c = ∅ then .UNCACHED else e.dstate
  sharers := e.sharers.erase c
  owner := owner
  forwarder := forwarder

/-- Whether an invalidate reply lets the front request go on. -/
def wakes (sender : Fin n) (l : Line n V) : Bool :=
  match l.queue with
  | [] => false
  | req :: _ =>
    match req.msgType with
    | .EX_REQ => l.entry.dstate = .UNCACHED
    | .UPGRADE_REQ =>
      (l.entry.getNumSharers = 1 && l.entry.hasSharer req.requester) || l.entry.getNumSharers = 0
    | .SH_REQ => !req.waitForData && !(req.isForwarding && req.forwardingFrom != some sender)
    | .NULLIFY_REQ => l.entry.dstate = .UNCACHED

def invLine (sender : Fin n) (l : Line n V) : Line n V :=
  let forwarder := if l.entry.forwarder = some sender then none else l.entry.forwarder
  { l with entry := leave sender l.entry.owner forwarder l.entry }

def flushLine (sender : Fin n) (l : Line n V) : Line n V :=
  { l with entry := leave sender none none l.entry }

theorem invRep_cases {sender r} (h : processInvRepFromL2Cache sender l = .ok r) :
    sender ∈ l.entry.sharers ∧ (l.entry.dstate = .SHARED ∨ l.entry.dstate = .EXCLUSIVE) ∧
      r = ⟨invLine sender l, [],
        if wakes sender (invLine sender l) then .process none else .done⟩ := by
  unfold processInvRepFromL2Cache at h
  split at h
  · cases h
  · rename_i hd
    obtain ⟨e, hr, h⟩ := of_bind_ok h
    obtain ⟨hmem, rfl⟩ := Entry.removeSharer_ok hr
    refine ⟨hmem, ?_, ?_⟩
    · by_contra hn
      exact hd ⟨fun he => hn (.inl he), fun he => hn (.inr he)⟩
    · simp only [Except.ok.injEq] at h
      have hentry : ∀ e₁ : Entry n, e₁ = (if l.entry.forwarder = some sender then
          { l.entry with sharers := l.entry.sharers.erase sender, forwarder := none }
          else { l.entry with sharers := l.entry.sharers.erase sender }) →
          (if e₁.getNumSharers = 0 then { e₁ with dstate := .UNCACHED } else e₁) =
            (invLine sender l).entry := by
        rintro e₁ rfl
        by_cases hf : l.entry.forwarder = some sender <;>
          by_cases he : l.entry.sharers.erase sender = ∅ <;>
          simp [invLine, leave, hf, he, Entry.getNumSharers]
      rw [hentry _ rfl] at h
      exact h.symm

/-- The ways a flush reply can be received. -/
inductive FlushRep (ch : Choice n V) (sender : Fin n) (data : V) (l : Line n V) :
    Received n V → Prop
  | idle (hq : l.queue = []) :
      FlushRep ch sender data l ⟨flushLine sender l, [.DRAM_WRITE_REQ data], .done⟩
  | exclusive {r rs} (hq : l.queue = r :: rs) (ht : r.msgType = .EX_REQ) :
      FlushRep ch sender data l ⟨flushLine sender l, [], .process (some data)⟩
  | shared {r rs} (hq : l.queue = r :: rs) (ht : r.msgType = .SH_REQ) :
      FlushRep ch sender data l
        ⟨flushLine sender l, [.DRAM_WRITE_REQ data], .process (some data)⟩
  | upgradeLast {r rs} (hq : l.queue = r :: rs) (ht : r.msgType = .UPGRADE_REQ)
      (hs : l.entry.sharers.erase sender = ∅) :
      FlushRep ch sender data l ⟨flushLine sender l, [], .process (some data)⟩
  | upgrade {r rs} (hq : l.queue = r :: rs) (ht : r.msgType = .UPGRADE_REQ)
      (hs : l.entry.sharers.erase sender ≠ ∅) :
      FlushRep ch sender data l
        ⟨(flushLine sender l).modifyFront ({ · with dataBuf := some ch.freed }), [], .done⟩
  | nullify {r rs} (hq : l.queue = r :: rs) (ht : r.msgType = .NULLIFY_REQ) :
      FlushRep ch sender data l
        ⟨flushLine sender l, [.DRAM_WRITE_REQ data], .process none⟩

theorem flushRep_cases {sender data r} (h : processFlushRepFromL2Cache ch sender data l = .ok r) :
    sender ∈ l.entry.sharers ∧
      (l.entry.sharers.erase sender = ∅ ∨ l.entry.dstate = .SHARED) ∧
      FlushRep ch sender data l r := by
  unfold processFlushRepFromL2Cache at h
  obtain ⟨e, hr, h⟩ := of_bind_ok h
  obtain ⟨hmem, rfl⟩ := Entry.removeSharer_ok hr
  have hline : (⟨if (Entry.getNumSharers { l.entry with
        sharers := l.entry.sharers.erase sender, forwarder := none, owner := none }) = 0
      then ⟨.UNCACHED, l.entry.sharers.erase sender, none, none⟩
      else ⟨l.entry.dstate, l.entry.sharers.erase sender, none, none⟩, l.queue⟩ : Line n V) =
      flushLine sender l := by
    by_cases he : l.entry.sharers.erase sender = ∅ <;>
      simp [flushLine, leave, he, Entry.getNumSharers]
  simp only at h
  split at h
  · cases h
  · rename_i hd
    refine ⟨hmem, ?_, ?_⟩
    · by_contra hn
      refine hd ⟨fun he => hn (.inl ?_), fun he => hn (.inr he)⟩
      simpa [Entry.getNumSharers] using he
    · rw [hline] at h
      split at h
      · cases h; exact .idle (by assumption)
      · rename_i hq
        split at h
        · cases h; exact .exclusive hq (by assumption)
        · cases h; exact .shared hq (by assumption)
        · by_cases he : l.entry.sharers.erase sender = ∅
          · simp only [Entry.getNumSharers, he, Finset.card_empty, if_true] at h
            cases h; exact .upgradeLast hq (by assumption) he
          · simp only [Entry.getNumSharers, Finset.card_eq_zero, he, if_false] at h
            cases h; exact .upgrade hq (by assumption) he
        · cases h; exact .nullify hq (by assumption)

theorem wbRep_cases {sender data r} (h : processWbRepFromL2Cache sender data l = .ok r) :
    sender ∈ l.entry.sharers ∧ (∃ req rest, l.queue = req :: rest ∧ req.msgType = .SH_REQ) ∧
      r = ⟨{ l with entry := { l.entry with owner := none, dstate := .SHARED } }, [],
        .process (some data)⟩ := by
  unfold processWbRepFromL2Cache at h
  split at h
  · rename_i hs
    dsimp only at h
    split at h
    · cases h
    · rename_i req rest hq
      split at h
      · rename_i ht
        cases h
        exact ⟨by simpa [Entry.hasSharer] using hs, ⟨req, rest, hq, ht⟩, rfl⟩
      · cases h
  · cases h

theorem dramReply_cases {data} (h : processDRAMReply data l = .ok o) :
    ∃ req rest, ∃ reply : V → ToCache V, l.queue = req :: rest ∧
      o = ⟨l, [.cache req.requester (reply data)], true⟩ ∧
      ((req.msgType = .SH_REQ ∧ l.entry.dstate = .EXCLUSIVE ∧ reply = .EX_REP) ∨
        (req.msgType = .SH_REQ ∧ l.entry.dstate = .SHARED ∧ reply = .SH_REP) ∨
        (req.msgType = .EX_REQ ∧ l.entry.dstate = .MODIFIED ∧ reply = .EX_REP) ∨
        (req.msgType = .UPGRADE_REQ ∧ reply = .EX_REP)) := by
  unfold processDRAMReply at h
  split at h
  · cases h
  · rename_i req rest hq
    split at h
    · rename_i ht
      split at h
      · rename_i hd; cases h; exact ⟨req, rest, _, hq, rfl, .inl ⟨ht, hd, rfl⟩⟩
      · rename_i hd; cases h; exact ⟨req, rest, _, hq, rfl, .inr (.inl ⟨ht, hd, rfl⟩)⟩
      · cases h
    · rename_i ht
      split at h
      · rename_i hd; cases h; exact ⟨req, rest, _, hq, rfl, .inr (.inr (.inl ⟨ht, hd, rfl⟩))⟩
      · cases h
    · rename_i ht; cases h; exact ⟨req, rest, _, hq, rfl, .inr (.inr (.inr ⟨ht, rfl⟩))⟩
    · cases h

end Sniper.Directory.Outcomes
