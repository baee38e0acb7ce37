import Sniper.Protocol.Processing

/-! # Receiving a message

The directory takes a message of a cache, or a reply of DRAM, from its channel: either it
goes on waiting, or the front request is about to be processed.
-/
namespace Sniper.Protocol.LineInvariant
open Directory.DirectoryEntry Directory.Handlers Directory.Outcomes Function
open Protocol.CacheInvariant

variable {n : Nat} {V : Type} {cfg : Config} {l : Line n V} {x : Fin n → Cell V} {reads : Nat}
  {c : Fin n} {m : FromCache V} {up : List (FromCache V)}

/-- The cells after a message of `c` is taken, which leaves `up`. -/
def take (c : Fin n) (up : List (FromCache V)) (x : Fin n → Cell V) : Fin n → Cell V :=
  update x c { x c with up := up }

theorem take_self (x : Fin n → Cell V) : take c up x c = { x c with up := up } :=
  update_self ..

theorem take_other {s} (h : s ≠ c) (x : Fin n → Cell V) : take c up x s = x s :=
  update_of_ne h ..

/-! ## Requests -/

theorem Common.request (h : Common true l x) (hu : (x c).up = m :: up) {t}
    (hm : m.request? = some t) {rest} (hcalm : rest = true ∧ l.queue ≠ [] ∨ l.queue = [])
    (s : Fin n) :
    Fits (seen rest ⟨l.entry, l.queue ++ [ShmemReq.create t c]⟩ s) (take c up x s) := by
  have hpend : pending (l.queue ++ [ShmemReq.create t c]) s = pending l.queue s := by
    cases hq : l.queue <;> simp [pending, ShmemReq.create, ShmemReq.isForwarding]
  have hallow : Allows (seen rest ⟨l.entry, l.queue ++ [ShmemReq.create t c]⟩ s) (x s).tally := by
    have ha := (h.fits s).toBalance.allows
    rcases hcalm with ⟨rfl, hq⟩ | hq
    · obtain ⟨r, q, hq⟩ := List.exists_cons_of_ne_nil hq
      refine ha.mono id ?_ ?_ ?_
      · simp [seen, wbWait, hq]
      · simp [seen, flushing, gathers, hq]
      · simp [seen, gathers, hq]
    · refine ha.of_calm ⟨?_, ?_, ?_⟩ id
      · simp [seen, wbWait, hq]
      · simp [seen, flushing, hq]
      · simp [seen, gathers, hq]
  have ht := FromCache.request?_ne hm
  by_cases hs : s = c
  · subst hs
    rw [take_self]
    refine (h.fits s).queue hu hm rfl hpend ?_ hallow
    show requestsOf s (l.queue ++ [ShmemReq.create t s]) = requestsOf s l.queue ++ [t]
    rw [requestsOf_append]
    simp [requestsOf, ShmemReq.create, ht]
  · rw [take_other hs]
    refine (h.fits s).relax rfl hpend ?_ hallow
    show requestsOf s (l.queue ++ [ShmemReq.create t c]) = requestsOf s l.queue
    rw [requestsOf_append, requestsOf_cons_other (Ne.symm hs)]
    simp [requestsOf]

theorem fresh_create (t : ReqType) (c : Fin n) : Fresh (ShmemReq.create t c : ShmemReq n V) :=
  ⟨rfl, rfl⟩

theorem Settled.request_idle (h : Settled cfg l x reads) (hq : l.queue = [])
    (hu : (x c).up = m :: up) {t} (hm : m.request? = some t) :
    reads = 0 ∧ Ready cfg none ⟨l.entry, l.queue ++ [ShmemReq.create t c]⟩ (take c up x) := by
  refine ⟨by simpa [hq] using h.reading, ⟨h.shaped, ?_, ?_, ?_, ?_⟩, ?_, ?_⟩
  · simp [hq]
  · rw [hq]; rintro _ ⟨⟩ hw; cases hw
  · rw [hq]; rintro _ ⟨⟩ hw; cases hw
  · exact h.request hu hm (.inr hq)
  · refine .inl fun hp hd hroom f hf => ⟨(h.forwarder hp hd hroom f hf).1, ?_⟩
    simp [hq, pending, ShmemReq.create, ShmemReq.isForwarding]
  · rw [hq]; rintro _ ⟨⟩; rfl

/-- What is awaited does not depend on the requests that come, and not on a cache that is no
sharer any more. -/
theorem Awaits.congr {l' y r} (h : Awaits l x r) (he : l'.entry = l.entry)
    (hy : ∀ s, ((x s).Asked → (y s).Asked) ∧ ((x s).AskedWb → (y s).AskedWb)) : Awaits l' y r := by
  unfold Awaits at h ⊢
  rw [he]
  cases hm : r.msgType with
  | EX_REQ | NULLIFY_REQ => simp only [hm] at h ⊢; exact ⟨h.1, fun s hs => (hy s).1 (h.2 s hs)⟩
  | UPGRADE_REQ => simp only [hm] at h ⊢; exact ⟨h.1, fun s hs hr => (hy s).1 (h.2 s hs hr)⟩
  | SH_REQ =>
    simp only [hm] at h ⊢
    cases hf : r.forwardingFrom with
    | some f => simp only [hf] at h ⊢; exact ⟨h.1, h.2.1, (hy f).2 h.2.2⟩
    | none =>
      simp only [hf] at h ⊢
      refine ⟨h.1, ?_⟩
      rcases h.2 with ⟨o, ho, ha⟩ | ⟨hd, s, hs, ha⟩
      · exact .inl ⟨o, ho, (hy o).2 ha⟩
      · exact .inr ⟨hd, s, hs, (hy s).1 ha⟩

theorem Settled.request_busy (h : Settled cfg l x reads) (hq : l.queue ≠ [])
    (hu : (x c).up = m :: up) {t} (hm : m.request? = some t) :
    Settled cfg ⟨l.entry, l.queue ++ [ShmemReq.create t c]⟩ (take c up x) reads := by
  obtain ⟨r, q, hq'⟩ := List.exists_cons_of_ne_nil hq
  have hhead : (l.queue ++ [ShmemReq.create t c]).head? = l.queue.head? := by simp [hq']
  refine ⟨⟨h.shaped, ?_, ?_, ?_, ?_⟩, ?_, ?_, ?_⟩
  · intro r' hr'
    simp only [hq', List.cons_append, List.tail_cons, List.mem_append, List.mem_singleton] at hr'
    rcases hr' with hr' | rfl
    · exact h.tail r' (by rw [hq']; exact hr')
    · exact ⟨fresh_create t c, FromCache.request?_ne hm⟩
  · rw [hhead]; exact h.waits
  · rw [hhead]; exact h.forwards
  · exact h.request hu hm (.inl ⟨rfl, hq⟩)
  · intro hp hd hroom f hf
    refine ⟨(h.forwarder hp hd hroom f hf).1, ?_⟩
    have := (h.forwarder hp hd hroom f hf).2
    simpa [hq', pending] using this
  · intro r' hr' hw
    rw [hhead] at hr'
    refine (h.awaits r' hr' hw).congr rfl fun s => ?_
    by_cases hs : s = c
    · subst hs
      rw [take_self]
      have hk : isLeave m = false ∧ isWbRep m = false := by
        cases m <;> simp_all [FromCache.request?, isLeave, isWbRep]
      have hlive : Cell.live { x s with up := up } = (x s).live := rfl
      simp only [Cell.Asked, Cell.AskedWb, Cell.tally, hlive, hu, List.countP_cons, hk]
      simp
    · rw [take_other hs]
      exact ⟨id, id⟩
  · rw [hhead]; exact h.reading

/-! ## Copies that are given up -/

theorem Shaped.left {e} (h : Shaped e) (hc : c ∈ e.sharers) (o f : Option (Fin n)) :
    Shaped (leave c o f e) ∧
      (e.sharers.erase c = ∅ ∧ (leave c o f e).dstate = .UNCACHED ∨
        e.sharers.erase c ≠ ∅ ∧ e.dstate = .SHARED ∧ (leave c o f e).dstate = .SHARED) := by
  by_cases hempty : e.sharers.erase c = ∅
  · have hd : (leave c o f e).dstate = .UNCACHED := if_pos hempty
    exact ⟨⟨by simp [hd]; exact hempty, by simp [hd], by simp [hd]⟩, .inl ⟨hempty, hd⟩⟩
  · have hs : e.dstate = .SHARED := by
      have howned : ¬ (e.dstate = .EXCLUSIVE ∨ e.dstate = .MODIFIED) := by
        intro hd
        obtain ⟨o, -, hs⟩ := h.owned hd
        rw [hs, Finset.mem_singleton] at hc
        exact hempty (by rw [hs, hc]; simp)
      have hne : e.sharers ≠ ∅ := fun h0 => by rw [h0] at hc; simp at hc
      have := h.notOwned
      have := mt h.uncached.mp hne
      cases hd : e.dstate <;> simp_all
    have hd : (leave c o f e).dstate = .SHARED := (if_neg hempty).trans hs
    refine ⟨⟨?_, by simp [hd], by simp [hd]⟩, .inr ⟨hempty, hs, hd⟩⟩
    rw [hd]
    exact ⟨by simp, fun h0 => absurd h0 hempty⟩

theorem Settled.leave_common (h : Settled cfg l x reads) (hu : (x c).up = m :: up)
    (hm : isLeave m = true) (o f : Option (Fin n)) {rest}
    (hcalm : rest = false → ∀ s ∈ l.entry.sharers.erase c, (seen true l s).Calm) :
    Common rest ⟨leave c o f l.entry, l.queue⟩ (take c up x) := by
  obtain ⟨hinv, hfill, hone, hpend, hsh⟩ :=
    (h.fits c).leaving (by simp [Cell.tally, hu, hm] : 0 < (x c).tally.leaves)
  have hc : c ∈ l.entry.sharers := of_decide_eq_true hsh
  obtain ⟨hshape, hstate⟩ := h.shaped.left hc o f
  have hpend : pending l.queue c = false := hpend
  have hother : ∀ r ∈ l.queue.head?, r.waitForData = true ∨ r.isForwarding = true →
      r.requester ∈ l.entry.sharers → r.requester ∈ l.entry.sharers.erase c ∧
        l.entry.dstate = .SHARED ∧ (leave c o f l.entry).dstate = .SHARED := by
    intro r hr hw hmem
    have hne : r.requester ≠ c := by
      rintro rfl
      obtain ⟨q, hq⟩ := List.head?_eq_some_iff.mp hr
      rw [hq] at hpend
      rcases hw with hw | hw <;> simp [pending, hw] at hpend
    have hmem' := Finset.mem_erase.mpr ⟨hne, hmem⟩
    rcases hstate with ⟨hempty, -⟩ | ⟨-, hs⟩
    · rw [hempty] at hmem'; simp at hmem'
    · exact ⟨hmem', hs⟩
  refine ⟨hshape, h.tail, ?_, ?_, fun s => ?_⟩
  · intro r hr hw
    obtain ⟨hmem, hcase⟩ := h.waits r hr hw
    obtain ⟨hmem', hs, hs'⟩ := hother r hr (.inl hw) hmem
    refine ⟨hmem', ?_⟩
    rcases hcase with ⟨ht, -⟩ | ⟨-, hd⟩
    · exact .inl ⟨ht, .inl hs'⟩
    · rw [hs] at hd; cases hd
  · intro r hr hw
    obtain ⟨ht, -, hmem⟩ := h.forwards r hr hw
    obtain ⟨hmem', -, hs'⟩ := hother r hr (.inr hw) hmem
    exact ⟨ht, hs', hmem'⟩
  · by_cases hs : s = c
    · subst hs
      rw [take_self]
      refine (h.fits s).popLeave hu hm ?_ rfl rfl
      exact decide_eq_false (by simp [leave])
    · rw [take_other hs]
      have hmem : s ∈ (leave c o f l.entry).sharers ↔ s ∈ l.entry.sharers := by
        simp [leave, hs]
      refine (h.fits s).relax (decide_eq_decide.mpr hmem) rfl rfl ?_
      by_cases hss : s ∈ l.entry.sharers
      · have herase := Finset.mem_erase.mpr ⟨hs, hss⟩
        have hd : l.entry.dstate = .SHARED ∧ (leave c o f l.entry).dstate = .SHARED := by
          rcases hstate with ⟨hempty, -⟩ | ⟨-, hd⟩
          · rw [hempty] at herase; simp at herase
          · exact hd
        have hx : (seen true l s).excl = true →
            (seen rest ⟨leave c o f l.entry, l.queue⟩ s).excl = true := by
          intro ho
          rw [show (seen true l s).excl = owns l.entry s from rfl, owns_shared hd.1] at ho
          cases ho
        cases rest with
        | false => exact (h.fits s).toBalance.allows.of_calm (hcalm rfl s herase) hx
        | true =>
          have hg : gathers l = true → gathers ⟨leave c o f l.entry, l.queue⟩ = true := by
            unfold gathers
            cases hq : l.queue with
            | nil => simp
            | cons r q => simp +contextual [hd.1, leave, Finset.ne_empty_of_mem herase]
          refine (h.fits s).toBalance.allows.mono hx ?_ ?_ hg
          · simp only [seen, Bool.true_and, wbWait]
            cases l.queue with
            | nil => simp
            | cons r q => simp +contextual [owns_shared hd.1, leave, hs]
          · simp only [seen, Bool.true_and, flushing] at hg ⊢
            cases hq : l.queue with
            | nil => simp
            | cons r q =>
              simp only [owns_shared hd.1, Bool.false_or, Bool.and_eq_true]
              exact fun hf => ⟨hf.1, by rw [hq] at hg; simp [hg hf.2]⟩
      · exact (h.fits s).allows_not_sharer (decide_eq_false hss) _

theorem Settled.leave_forwardable (h : Settled cfg l x reads) (hu : (x c).up = m :: up)
    (hm : isLeave m = true) {o f} (hf : ∀ f', f = some f' → f' ≠ c ∧ l.entry.forwarder = some f') :
    Forwardable cfg ⟨leave c o f l.entry, l.queue⟩ := by
  intro hp hd hroom f' hf'
  obtain ⟨hne, hfw⟩ := hf f' hf'
  have hc : c ∈ l.entry.sharers := of_decide_eq_true
    ((h.fits c).leaving (by simp [Cell.tally, hu, hm] : 0 < (x c).tally.leaves)).2.2.2.2
  have hs : l.entry.dstate = .SHARED := by
    rcases (h.shaped.left hc o f).2 with ⟨-, hd'⟩ | ⟨-, hs, -⟩
    · rw [hd'] at hd; cases hd
    · exact hs
  obtain ⟨hmem, hpend⟩ := h.forwarder hp hs hroom f' hfw
  exact ⟨Finset.mem_erase.mpr ⟨hne, hmem⟩, hpend⟩

theorem Settled.leave_ready (h : Settled cfg l x reads) (hu : (x c).up = m :: up)
    (hm : isLeave m = true) (o f : Option (Fin n)) (buf : Option V)
    (hf : ∀ f', f = some f' → f' ≠ c ∧ l.entry.forwarder = some f')
    (hidle : ∀ r ∈ l.queue.head?, r.waitForData = false)
    (hcalm : ∀ s ∈ l.entry.sharers.erase c, (seen true l s).Calm) :
    Ready cfg buf ⟨leave c o f l.entry, l.queue⟩ (take c up x) :=
  ⟨h.leave_common hu hm o f fun _ => hcalm, .inl (h.leave_forwardable hu hm hf), hidle⟩

theorem Settled.leave_settled (h : Settled cfg l x reads) (hu : (x c).up = m :: up)
    (hm : isLeave m = true) (o f : Option (Fin n))
    (hf : ∀ f', f = some f' → f' ≠ c ∧ l.entry.forwarder = some f')
    (ha : ∀ r ∈ l.queue.head?, r.waitForData = false →
      Awaits ⟨leave c o f l.entry, l.queue⟩ (take c up x) r) :
    Settled cfg ⟨leave c o f l.entry, l.queue⟩ (take c up x) reads :=
  ⟨h.leave_common hu hm o f (by simp), h.leave_forwardable hu hm hf, ha, h.reading⟩

/-- How the directory goes on after a reply. -/
def Continues (cfg : Config) (l : Line n V) (x : Fin n → Cell V) (reads : Nat) : Action V → Prop
  | .done => Settled cfg l x reads
  | .process buf => reads = 0 ∧ Ready cfg buf l x

theorem Settled.reads_zero (h : Settled cfg l x reads)
    (hidle : ∀ r ∈ l.queue.head?, r.waitForData = false) : reads = 0 := by
  rw [h.reading]
  cases hq : l.queue with
  | nil => rfl
  | cons r q => simp [hidle r (by rw [hq]; rfl)]

theorem wakes_cases (hw : wakes c (invLine c l) = true) :
    (invLine c l).entry.dstate = .UNCACHED ∨ l.entry.sharers.erase c = ∅ ∨
      ∃ r q, l.queue = r :: q ∧
        (r.msgType = .UPGRADE_REQ ∧ l.entry.sharers.erase c = {r.requester} ∨
          r.msgType = .SH_REQ ∧ r.waitForData = false ∧
            (r.forwardingFrom = none ∨ r.forwardingFrom = some c)) := by
  unfold wakes at hw
  split at hw
  · cases hw
  · rename_i r q hq
    have hsh : (invLine c l).entry.sharers = l.entry.sharers.erase c := rfl
    split at hw
    · exact .inl (of_decide_eq_true hw)
    · rename_i ht
      simp only [Entry.getNumSharers, Entry.hasSharer, hsh, Bool.or_eq_true, Bool.and_eq_true,
        decide_eq_true_eq, Finset.card_eq_zero] at hw
      rcases hw with ⟨hone, hmem⟩ | h0
      · obtain ⟨a, ha⟩ := Finset.card_eq_one.mp hone
        rw [ha, Finset.mem_singleton] at hmem
        exact .inr (.inr ⟨r, q, hq, .inl ⟨ht, by rw [ha, hmem]⟩⟩)
      · exact .inr (.inl h0)
    · rename_i ht
      refine .inr (.inr ⟨r, q, hq, .inr ⟨ht, ?_⟩⟩)
      cases hf : r.forwardingFrom with
      | none | some f => simpa [ShmemReq.isForwarding, hf] using hw
    · exact .inl (of_decide_eq_true hw)

theorem Settled.wakes_ready (h : Settled cfg l x reads) (hu : (x c).up = m :: up)
    (hm : isLeave m = true) (hw : wakes c (invLine c l) = true) :
    (∀ r ∈ l.queue.head?, r.waitForData = false) ∧
      ∀ s ∈ l.entry.sharers.erase c, (seen true l s).Calm := by
  have hc : c ∈ l.entry.sharers := of_decide_eq_true
    ((h.fits c).leaving (by simp [Cell.tally, hu, hm] : 0 < (x c).tally.leaves)).2.2.2.2
  have hstate := (h.shaped.left hc l.entry.owner
    (if l.entry.forwarder = some c then none else l.entry.forwarder)).2
  have hcom : Common true (invLine c l) (take c up x) := h.leave_common hu hm _ _ (by simp)
  have hempty : l.entry.sharers.erase c = ∅ →
      (∀ r ∈ l.queue.head?, r.waitForData = false) ∧
        ∀ s ∈ l.entry.sharers.erase c, (seen true l s).Calm := by
    intro h0
    refine ⟨fun r hr => ?_, fun s hs => by rw [h0] at hs; simp at hs⟩
    by_contra hwait
    have hmem := (hcom.waits r hr (by simpa using hwait)).1
    rw [show (invLine c l).entry.sharers = ∅ from h0] at hmem
    simp at hmem
  rcases wakes_cases hw with hd | h0 | ⟨r, q, hq, hr⟩
  · exact hempty (hcom.shaped.uncached.mp hd)
  · exact hempty h0
  · by_cases h0 : l.entry.sharers.erase c = ∅
    · exact hempty h0
    · have hs : l.entry.dstate = .SHARED ∧ (invLine c l).entry.dstate = .SHARED :=
        (hstate.resolve_left fun hn => h0 hn.1).2
      have hmem : ∀ s ∈ l.entry.sharers.erase c, s ≠ c ∧ s ∈ l.entry.sharers := fun s hs =>
        Finset.mem_erase.mp hs
      rcases hr with ⟨ht, hone⟩ | ⟨ht, hwait, hf⟩
      · refine ⟨?_, fun s hse => ?_⟩
        · rw [hq]
          rintro _ ⟨⟩
          by_contra hwait
          rcases (hcom.waits r (by rw [show (invLine c l).queue = l.queue from rfl, hq]; rfl)
            (by simpa using hwait)).2 with ⟨ht', -⟩ | ⟨-, hm'⟩
          · rw [ht] at ht'; cases ht'
          · rw [hs.2] at hm'; cases hm'
        · have hr : r.requester ∈ l.entry.sharers := (hmem _ (by rw [hone]; simp)).2
          refine ⟨?_, ?_, ?_⟩ <;> simp [seen, wbWait, flushing, gathers, hq, ht, hr, owns_shared hs.1]
      · refine ⟨?_, fun s hse => ?_⟩
        · rw [hq]
          rintro _ ⟨⟩
          exact hwait
        · have hne : r.forwardingFrom ≠ some s := by
            rcases hf with hf | hf
            · simp [hf]
            · rw [hf]
              exact fun hsc => (hmem s hse).1 (Option.some.inj hsc).symm
          refine ⟨?_, ?_, ?_⟩ <;>
            simp [seen, wbWait, flushing, gathers, hq, ht, hne, owns_shared hs.1]

theorem Settled.not_wakes_awaits (h : Settled cfg l x reads) (hu : (x c).up = m :: up)
    (hm : isLeave m = true) (hw : wakes c (invLine c l) = false) :
    ∀ r ∈ l.queue.head?, r.waitForData = false → Awaits (invLine c l) (take c up x) r := by
  intro r hr hwait
  obtain ⟨q, hq⟩ := List.head?_eq_some_iff.mp hr
  have hcom : Common true (invLine c l) (take c up x) := h.leave_common hu hm _ _ (by simp)
  have hsh : (invLine c l).entry.sharers = l.entry.sharers.erase c := rfl
  have hmem : ∀ s ∈ l.entry.sharers.erase c, s ≠ c ∧ s ∈ l.entry.sharers := fun s hs =>
    Finset.mem_erase.mp hs
  have hasked : ∀ s ∈ l.entry.sharers.erase c, (x s).Asked → (take c up x s).Asked :=
    fun s hs ha => by rw [take_other (hmem s hs).1]; exact ha
  have ha := h.awaits r hr hwait
  unfold wakes at hw
  rw [show (invLine c l).queue = r :: q from hq] at hw
  unfold Awaits at ha ⊢
  cases ht : r.msgType with
  | EX_REQ | NULLIFY_REQ =>
    simp only [ht] at ha hw ⊢
    refine ⟨fun h0 => of_decide_eq_false hw (hcom.shaped.uncached.mpr h0), fun s hs => ?_⟩
    exact hasked s hs (ha.2 s (hmem s hs).2)
  | UPGRADE_REQ =>
    simp only [ht, Entry.getNumSharers, Entry.hasSharer, hsh, Bool.or_eq_false_iff,
      decide_eq_false_iff_not, Finset.card_eq_zero] at ha hw ⊢
    refine ⟨?_, fun s hs hsr => hasked s hs (ha.2 s (hmem s hs).2 hsr)⟩
    by_contra hn
    have hall : ∀ s ∈ l.entry.sharers.erase c, s = r.requester := fun s hs => by
      by_contra hsr
      exact hn ⟨s, hs, hsr⟩
    have hone := Finset.eq_singleton_iff_nonempty_unique_mem.mpr
      ⟨Finset.nonempty_iff_ne_empty.mpr hw.2, hall⟩
    simp [hone] at hw
  | SH_REQ =>
    simp only [ht] at ha hw ⊢
    cases hf : r.forwardingFrom with
    | none => simp [hwait, ShmemReq.isForwarding, hf] at hw
    | some f =>
      simp only [hf] at ha ⊢
      have hfc : f ≠ c := by simpa [hwait, ShmemReq.isForwarding, hf] using hw
      exact ⟨Finset.mem_erase.mpr ⟨hfc, ha.1⟩, ha.2.1, by rw [take_other hfc]; exact ha.2.2⟩

theorem Settled.invRep (h : Settled cfg l x reads) (hu : (x c).up = .INV_REP :: up) {r}
    (hr : processInvRepFromL2Cache c l = .ok r) :
    r.sent = [] ∧ Continues cfg r.line (take c up x) reads r.action := by
  obtain ⟨-, -, rfl⟩ := invRep_cases hr
  refine ⟨rfl, ?_⟩
  have hf : ∀ f, (if l.entry.forwarder = some c then none else l.entry.forwarder) = some f →
      f ≠ c ∧ l.entry.forwarder = some f := by
    intro f hf
    split at hf
    · cases hf
    · rename_i hne
      exact ⟨fun hfc => hne (hfc ▸ hf), hf⟩
  cases hw : wakes c (invLine c l) with
  | true =>
    obtain ⟨hidle, hcalm⟩ := h.wakes_ready hu rfl hw
    exact ⟨h.reads_zero hidle, h.leave_ready hu rfl _ _ none hf hidle hcalm⟩
  | false => exact h.leave_settled hu rfl _ _ hf (h.not_wakes_awaits hu rfl hw)

theorem Settled.setDataBuf {r q e} (h : Settled cfg ⟨e, r :: q⟩ x reads) (d : Option V) :
    Settled cfg ⟨e, { r with dataBuf := d } :: q⟩ x reads where
  shaped := h.shaped
  tail := h.tail
  waits := by rintro _ ⟨⟩; exact h.waits r rfl
  forwards := by rintro _ ⟨⟩; exact h.forwards r rfl
  fits := fun c => by
    refine (h.fits c).relax rfl rfl (requestsOf_congr rfl rfl) ?_
    exact (h.fits c).toBalance.allows.mono id id id id
  forwarder := h.forwarder
  awaits := by rintro _ ⟨⟩ hw; exact h.awaits r rfl hw
  reading := h.reading

/-- The last copy leaves with its data, but while an upgrade collects the copies. -/
theorem Settled.flush_last (h : Settled cfg l x reads) {d} (hu : (x c).up = .FLUSH_REP d :: up)
    (hg : gathers l = false) : l.entry.sharers.erase c = ∅ := by
  have hflushed : owns l.entry c = true ∨ gathers l = true :=
    (h.fits c).flushed (by simp [Cell.tally, hu, isFlushRep])
  have ho := hflushed.resolve_right (by simp [hg])
  rw [h.shaped.sharers_of_owns ho]
  simp

theorem Settled.flushRep (h : Settled cfg l x reads) {d} (hu : (x c).up = .FLUSH_REP d :: up) {ch r}
    (hr : processFlushRepFromL2Cache ch c d l = .ok r) :
    (∀ s, toCache s r.sent = []) ∧ r.sent.countP isRead = 0 ∧
      Continues cfg r.line (take c up x) reads r.action := by
  obtain ⟨hc, -, hr⟩ := flushRep_cases hr
  have hflushed : owns l.entry c = true ∨ gathers l = true :=
    (h.fits c).flushed (by simp [Cell.tally, hu, isFlushRep])
  have hlast := h.flush_last hu
  have hready : l.entry.sharers.erase c = ∅ → ∀ buf,
      Continues cfg (flushLine c l) (take c up x) reads (.process buf) := by
    intro h0 buf
    have hcom : Common true (flushLine c l) (take c up x) := h.leave_common hu rfl _ _ (by simp)
    have hidle : ∀ r ∈ l.queue.head?, r.waitForData = false := by
      intro r hr
      by_contra hwait
      have hmem := (hcom.waits r hr (by simpa using hwait)).1
      rw [show (flushLine c l).entry.sharers = ∅ from h0] at hmem
      simp at hmem
    exact ⟨h.reads_zero hidle, h.leave_ready hu rfl _ _ buf (by simp) hidle
      fun s hs => by rw [h0] at hs; simp at hs⟩
  cases hr with
  | idle hq =>
    exact ⟨fun _ => rfl, rfl, h.leave_settled hu rfl _ _ (by simp) (by simp [hq])⟩
  | exclusive hq ht | shared hq ht | nullify hq ht =>
    exact ⟨fun _ => rfl, rfl, hready (hlast (by simp [gathers, hq, ht])) _⟩
  | upgradeLast hq ht hs => exact ⟨fun _ => rfl, rfl, hready hs _⟩
  | @upgrade r q hq ht hs =>
    refine ⟨fun _ => rfl, rfl, ?_⟩
    have hg : gathers l = true := hflushed.resolve_left fun ho =>
      hs (by rw [h.shaped.sharers_of_owns ho]; simp)
    have hnot : r.requester ∉ l.entry.sharers := by
      simp only [gathers, hq, Bool.and_eq_true, decide_eq_true_eq] at hg
      simpa using hg.2
    have hsettled : Settled cfg (flushLine c l) (take c up x) reads := by
      refine h.leave_settled hu rfl _ _ (by simp) fun r' hr' hwait => ?_
      have ha := h.awaits r' hr' hwait
      rw [hq] at hr'
      cases hr'
      simp only [Awaits, ht] at ha ⊢
      obtain ⟨s, hse⟩ := Finset.nonempty_iff_ne_empty.mpr hs
      refine ⟨⟨s, hse, ?_⟩, fun s hse hsr => ?_⟩
      · rintro rfl
        exact hnot (Finset.mem_of_mem_erase hse)
      · rw [take_other (Finset.ne_of_mem_erase hse)]
        exact ha.2 s (Finset.mem_of_mem_erase hse) hsr
    have hline : flushLine c l = ⟨leave c none none l.entry, r :: q⟩ := by rw [flushLine, hq]
    rw [hline] at hsettled ⊢
    exact hsettled.setDataBuf _

theorem Settled.wbWait_of_wbRep (h : Settled cfg l x reads) {d} (hu : (x c).up = .WB_REP d :: up) :
    wbWait l c = true := by
  have hle := (h.fits c).writeback
  have hpos : 0 < (x c).tally.wbReps := by simp [Cell.tally, hu, isWbRep]
  cases hk : wbWait l c with
  | true => rfl
  | false =>
    rw [show (seen true l c).wbWait = false from by simp [seen, hk], Bool.toNat_false] at hle
    omega

theorem Settled.wbRep (h : Settled cfg l x reads) {d} (hu : (x c).up = .WB_REP d :: up) {r}
    (hr : processWbRepFromL2Cache c d l = .ok r) :
    r.sent = [] ∧ Continues cfg r.line (take c up x) reads r.action := by
  obtain ⟨hc, ⟨req, q, hq, ht⟩, rfl⟩ := wbRep_cases hr
  have hwb := h.wbWait_of_wbRep hu
  obtain ⟨hwait, hfrom⟩ : req.waitForData = false ∧
      (owns l.entry c = true ∨ req.forwardingFrom = some c) := by
    simp only [wbWait, hq, ht, Bool.and_eq_true, Bool.or_eq_true, decide_eq_true_eq] at hwb
    exact ⟨by simpa using hwb.1.1.2, hwb.2⟩
  have hidle : ∀ r ∈ l.queue.head?, r.waitForData = false := by
    rw [hq]; rintro _ ⟨⟩; exact hwait
  have hshared : req.forwardingFrom = some c → l.entry.dstate = .SHARED := fun hf =>
    (h.forwards req (by rw [hq]; rfl) (by simp [ShmemReq.isForwarding, hf])).2.1
  have hne : l.entry.sharers ≠ ∅ := Finset.ne_empty_of_mem hc
  have hshape : Shaped { l.entry with owner := none, dstate := .SHARED } :=
    ⟨by simp [hne], by simp, by simp⟩
  refine ⟨rfl, h.reads_zero hidle, ⟨hshape, h.tail, ?_, ?_, fun s => ?_⟩, ?_, hidle⟩
  · intro r hr hw
    rw [hidle r hr] at hw
    cases hw
  · intro r hr hw
    obtain ⟨ht, -, hmem⟩ := h.forwards r hr hw
    exact ⟨ht, rfl, hmem⟩
  · by_cases hs : s = c
    · subst hs
      rw [take_self]
      exact (h.fits s).popWb hu rfl rfl rfl
    · rw [take_other hs]
      refine (h.fits s).relax rfl rfl rfl ?_
      by_cases hss : s ∈ l.entry.sharers
      · -- with two sharers the line is shared, and its data come from `c`
        have hdown : owns l.entry s = false ∧ req.forwardingFrom ≠ some s := by
          rcases hfrom with ho | hf
          · rw [h.shaped.sharers_of_owns ho, Finset.mem_singleton] at hss
            exact absurd hss hs
          · exact ⟨owns_shared (hshared hf), by rw [hf]; exact fun hsc => hs (Option.some.inj hsc).symm⟩
        refine (h.fits s).toBalance.allows.of_calm ⟨?_, ?_, ?_⟩ ?_
        · simp [seen, wbWait, hq, hdown]
        · simp [seen, flushing, hq, ht]
        · simp [seen, gathers, hq, ht]
        · simp [seen, hdown.1]
      · exact (h.fits s).allows_not_sharer (decide_eq_false hss) _
  · rcases hfrom with ho | hf
    · refine .inr ⟨rfl, rfl, ?_, req, by rw [hq]; rfl, ht⟩
      show l.entry.sharers.card = 1
      rw [h.shaped.sharers_of_owns ho, Finset.card_singleton]
    · exact .inl fun hp _ hroom f hf' => h.forwarder hp (hshared hf) hroom f hf'

theorem Settled.dramReply (h : Settled cfg l x reads) (hpos : 0 < reads) {d o}
    (ho : processDRAMReply d l = .ok o) :
    reads = 1 ∧ o.next = true ∧ o.sent.countP isRead = 0 ∧ ∃ r q, o.line.queue = r :: q ∧
      Ready cfg none ⟨o.line.entry, q⟩ (deliver o.sent x) := by
  obtain ⟨r, q, reply, hq, rfl, hreply⟩ := dramReply_cases ho
  have hwait : r.waitForData = true := by
    by_contra hn
    have := h.reading
    rw [hq] at this
    simp [hn] at this
    omega
  have hhead : r ∈ l.queue.head? := by rw [hq]; rfl
  obtain ⟨hmem, hstate⟩ := h.waits r hhead hwait
  have hn : r.msgType ≠ .NULLIFY_REQ := by
    rcases hstate with ⟨ht, -⟩ | ⟨ht | ht, -⟩ <;> simp [ht]
  obtain ⟨hreq, hnone⟩ := h.front_requests hq hn
  have hpend : pending l.queue r.requester = true := by simp [pending, hq, hwait]
  have hfresh : ∀ r' ∈ q.head?, Fresh r' := fun r' hr' =>
    (h.tail r' (by rw [hq]; exact List.mem_of_mem_head? hr')).1
  have hcalm : ∀ c, (seen true l c).Calm := by
    intro c
    refine ⟨?_, ?_, ?_⟩
    · simp [seen, wbWait, hq, hwait]
    · simp [seen, flushing, hq, hwait]
    · rcases hstate with ⟨ht, -⟩ | ⟨-, hm⟩
      · simp [seen, gathers, hq, ht]
      · simp [seen, gathers, hq, hm]
  have howns : l.entry.dstate = .EXCLUSIVE ∨ l.entry.dstate = .MODIFIED →
      owns l.entry r.requester = true := by
    intro hd
    obtain ⟨o, ho, hs⟩ := h.shaped.owned hd
    rw [hs, Finset.mem_singleton] at hmem
    exact owns_iff.mpr ⟨hd, hmem ▸ ho⟩
  have hfill : isFill (reply d) = true ∧ (isExRep (reply d) = true →
      owns l.entry r.requester = true) := by
    rcases hreply with ⟨-, hd, rfl⟩ | ⟨-, -, rfl⟩ | ⟨-, hd, rfl⟩ | ⟨ht, rfl⟩
    · exact ⟨rfl, fun _ => howns (.inl hd)⟩
    · exact ⟨rfl, by simp [isExRep]⟩
    · exact ⟨rfl, fun _ => howns (.inr hd)⟩
    · refine ⟨rfl, fun _ => howns (.inr ?_)⟩
      rcases hstate with ⟨ht', -⟩ | ⟨-, hm⟩
      · rw [ht] at ht'; cases ht'
      · exact hm
  refine ⟨by rw [h.reading, hq]; simp [hwait], rfl, rfl, r, q, hq, ?_⟩
  refine h.complete hq hcalm h.shaped (fun _ _ => Iff.rfl) (fun _ _ ho => ho)
    (fun hp hd hroom f hf => (h.forwarder hp hd hroom f hf).1) ?_ ?_
  · intro c hc
    rw [toCache_single, if_neg (Ne.symm hc)]
  · rw [deliver, toCache_single, if_pos rfl]
    exact (h.fits r.requester).grant (h.front_absent hq (.inr (.inr (.inr hpend))))
      (hcalm _).wbWait hreq hfill.1 (decide_eq_true hmem) (pending_of_fresh hfresh) hnone hfill.2

end Sniper.Protocol.LineInvariant
