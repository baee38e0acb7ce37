import Mathlib.Algebra.BigOperators.Intervals
import Sniper.Network.Routing

/-! # What the network charges a packet

The time and the queueing delay of a unicast packet at delivery. The buffer that is delivered
is made after the first hop, so the delays of later links are missing from its `queue_delay`,
and a core that is not the master of its node sends past all hops.
-/
namespace Sniper.Network

/-! ## Queues -/

namespace Queues
variable {q q' : Queues}

/-- The queues after `n` more answers. -/
def after (q : Queues) (n : Nat) : Queues := { q with asked := q.asked + n }

@[simp] theorem after_zero : q.after 0 = q := rfl

@[simp] theorem after_after (a b : Nat) : (q.after a).after b = q.after (a + b) := by
  simp [after, Nat.add_assoc]

theorem met_after_succ (n : Nat) :
    (q.after (n + 1)).met = (q.after n).met + q.answers (q.asked + n) := by
  unfold met after
  rw [← Nat.add_assoc, Finset.sum_range_succ]

theorem met_after_le (n : Nat) : q.met ≤ (q.after n).met := by
  induction n with
  | zero => exact Nat.le_refl _
  | succ n ih =>
    rw [met_after_succ]
    omega

theorem met_after_eq_iff {j n} (h : j ≤ n) :
    (q.after j).met = (q.after n).met ↔
      ∀ k, j ≤ k → k < n → q.answers (q.asked + k) = 0 := by
  induction n, h using Nat.le_induction with
  | base =>
    constructor
    · intro _ k hj hk
      exact absurd hj (Nat.not_le.mpr hk)
    · intro _
      rfl
  | succ n hjn ih =>
    have hle : (q.after j).met ≤ (q.after n).met := by
      obtain ⟨d, rfl⟩ := Nat.exists_eq_add_of_le hjn
      rw [← after_after]
      exact met_after_le d
    rw [met_after_succ]
    constructor
    · intro heq k hj hk
      by_cases hkn : k = n
      · subst hkn
        omega
      · exact ih.mp (by omega) k hj (by omega)
    · intro hzero
      rw [hzero n hjn (Nat.lt_succ_self n), Nat.add_zero]
      exact ih.mpr fun k hj hk => hzero k hj (Nat.lt_succ_of_lt hk)

end Queues

namespace Mesh
variable {m : Mesh} {c r : Nat} {q : Queues}

/-- The answers asked for on `n` links. -/
def asks (m : Mesh) (n : Nat) : Nat := if m.m_queue_model_enabled then n else 0

theorem asks_succ (n : Nat) : m.asks (n + 1) = m.asks 1 + m.asks n := by
  unfold asks
  split <;> omega

/-! ## One node -/

theorem addHop_fake {direction} (h : direction.fake = true) (final_dest : Receiver)
    (next_dest pkt_time requester : Nat) :
    m.addHop direction final_dest next_dest pkt_time requester q =
      (⟨final_dest, next_dest, pkt_time⟩, 0, q) := by
  unfold addHop
  rw [if_pos h]

theorem addHop_link {direction} (h : direction.fake = false) (henabled : m.m_enabled = true)
    {requester} (hreq : requester < m.applicationCores) (final_dest : Receiver)
    (next_dest pkt_time : Nat) :
    ∃ delay, m.addHop direction final_dest next_dest pkt_time requester q =
        (⟨final_dest, next_dest, pkt_time + (m.hopLatency + delay)⟩, delay, q.after (m.asks 1)) ∧
      (q.after (m.asks 1)).met = q.met + delay := by
  have happ : ¬ requester ≥ m.applicationCores := Nat.not_le.mpr hreq
  unfold addHop computeLatency asks
  cases m.m_queue_model_enabled with
  | false => exact ⟨0, by simp [h, henabled, happ], by simp⟩
  | true =>
    refine ⟨q.answers q.asked, by simp [h, henabled, happ, Queues.computeQueueDelay,
      Queues.after], ?_⟩
    exact q.met_after_succ 0

theorem injection_spec (hr : r ≠ c) : ∃ delay,
    m.computeInjectionPortQueueDelay c (.core r) q = (delay, q.after (m.asks 1)) ∧
      (q.after (m.asks 1)).met = q.met + delay := by
  unfold computeInjectionPortQueueDelay asks
  cases m.m_queue_model_enabled with
  | false => exact ⟨0, rfl, rfl⟩
  | true =>
    refine ⟨q.answers q.asked, ?_, q.met_after_succ 0⟩
    simp [hr, Queues.computeQueueDelay, Queues.after]

theorem injection_self : m.computeInjectionPortQueueDelay c (.core c) q = (0, q) := by
  unfold computeInjectionPortQueueDelay
  split <;> simp

/-! ## The way -/

/-- A packet on its way at the master of a node. -/
structure OnWay (m : Mesh) (c r : Nat) (packet : NetPacket) : Prop where
  master : m.IsMaster c
  receiver : r < m.applicationCores
  requester : packet.requester < m.applicationCores
  enabled : m.m_enabled = true
  sender : m.hopsTo c r < m.hopsTo packet.sender r

theorem OnWay.ne_sender {packet} (h : OnWay m c r packet) : packet.sender ≠ c := by
  intro heq
  have hlt := h.sender
  rw [heq] at hlt
  exact Nat.lt_irrefl _ hlt

theorem OnWay.routePacket {packet} (h : OnWay m c r packet) {t hop queue_delay q'}
    (hadd : m.addHop (m.getNextDest c r).2 (.core r) (m.getNextDest c r).1 t packet.requester q =
      (hop, queue_delay, q')) :
    m.routePacket c { packet with time := t, receiver := .core r } q =
      some ([hop], { packet with
        time := t, receiver := .core r, queue_delay := packet.queue_delay + queue_delay }, q') := by
  have hfake := (fakeNode_eq_false h.master.2).mpr h.master
  have hrequester : NetPacket.requester { packet with time := t, receiver := .core r } =
      packet.requester := rfl
  unfold Mesh.routePacket
  dsimp only
  rw [hfake, if_neg h.ne_sender, if_neg (by simp)]
  rw [hrequester, Nat.add_zero, hadd, Nat.add_zero]

theorem shortcut_stop (fuel t : Nat) (packet : NetPacket) :
    m.shortcut (fuel + 1) packet ⟨.core r, r, t⟩ q = some (packet, ⟨.core r, r, t⟩, q) := by
  unfold shortcut
  rw [if_pos rfl]

theorem shortcut_next {fuel t packet packet' hop q'} (hne : c ≠ r)
    (hroute : m.routePacket c { packet with time := t, receiver := .core r } q =
      some ([hop], packet', q')) :
    m.shortcut (fuel + 1) packet ⟨.core r, c, t⟩ q = m.shortcut fuel packet' hop q' := by
  conv_lhs => unfold shortcut
  rw [if_neg (by simpa using hne.symm)]
  dsimp only
  rw [hroute]
  rfl

theorem shortcut_spec (n : Nat) : ∀ (fuel c t : Nat) (packet : NetPacket) (q : Queues),
    m.hopsTo c r = n → n + 1 < fuel → OnWay m c r packet →
    ∃ packet' t', m.shortcut fuel packet ⟨.core r, c, t⟩ q =
        some (packet', ⟨.core r, r, t'⟩, q.after (m.asks n)) ∧
      t' + q.met = t + n * m.hopLatency + (q.after (m.asks n)).met := by
  induction n with
  | zero =>
    intro fuel c t packet q hhops hfuel hway
    obtain ⟨fuel, rfl⟩ : ∃ k, fuel = k + 2 := ⟨fuel - 2, by omega⟩
    have hsame : m.SameNode c r := (hopsTo_eq_zero hway.master.2 hway.receiver).mp hhops
    have hasks : q.after (m.asks 0) = q := by simp [asks]
    rw [hasks]
    by_cases hc : c = r
    · subst hc
      exact ⟨packet, t, shortcut_stop .., by omega⟩
    · have hadd : m.addHop (m.getNextDest c r).2 (.core r) (m.getNextDest c r).1 t
          packet.requester q = (⟨.core r, r, t⟩, 0, q) := by
        rw [getNextDest_sameNode hway.receiver hsame]
        exact addHop_fake rfl ..
      have hstop := shortcut_stop (m := m) (r := r) (q := q) fuel t
        { packet with time := t, receiver := .core r, queue_delay := packet.queue_delay + 0 }
      exact ⟨_, t, (shortcut_next hc (hway.routePacket hadd)).trans hstop, by omega⟩
  | succ n ih =>
    intro fuel c t packet q hhops hfuel hway
    obtain ⟨fuel, rfl⟩ : ∃ k, fuel = k + 1 := ⟨fuel - 1, by omega⟩
    have hsame : ¬ m.SameNode c r := by
      rw [← hopsTo_eq_zero hway.master.2 hway.receiver]
      omega
    have hne : c ≠ r := by
      intro h
      exact hsame (congrArg (· / m.m_concentration) h)
    obtain ⟨c', direction, hnext, hdirection, hmaster, hcloser⟩ :=
      getNextDest_closer hway.master hway.receiver hsame
    obtain ⟨delay, hlink, hmet⟩ := addHop_link (q := q) hdirection hway.enabled
      hway.requester (.core r) c' t
    have hadd : m.addHop (m.getNextDest c r).2 (.core r) (m.getNextDest c r).1 t
        packet.requester q =
        (⟨.core r, c', t + (m.hopLatency + delay)⟩, delay, q.after (m.asks 1)) := by
      rw [hnext]
      exact hlink
    have hroute := hway.routePacket hadd
    have hnextWay : OnWay m c' r { packet with
        time := t, receiver := .core r, queue_delay := packet.queue_delay + delay } := by
      refine ⟨hmaster, hway.receiver, hway.requester, hway.enabled, ?_⟩
      have hlt := hway.sender
      dsimp only
      omega
    obtain ⟨packet', t', hrun, ht⟩ := ih fuel c' (t + (m.hopLatency + delay)) _
      (q.after (m.asks 1)) (by omega) (by omega) hnextWay
    rw [Queues.after_after, ← asks_succ] at hrun ht
    refine ⟨packet', t', ?_, ?_⟩
    · rw [shortcut_next hne hroute]
      exact hrun
    · have hmul : (n + 1) * m.hopLatency = n * m.hopLatency + m.hopLatency := by ring
      omega

/-! ## The whole way -/

theorem netSend_unicast {fuel packet packet' packet'' hop hop' q' q''}
    (hroute : m.routePacket c packet q = some ([hop], packet', q'))
    (hfinal : hop.final_dest = .core r)
    (hrun : m.shortcut fuel packet' hop q' = some (packet'', hop', q''))
    (hsender : packet'.sender = c) :
    m.netSend fuel c packet q = some ([(hop'.next_dest, { packet' with
      start_time := packet'.time, time := hop'.time, receiver := hop'.final_dest })], q'') := by
  unfold netSend sendHop
  rw [hroute]
  simp only [Option.bind_eq_bind, Option.bind_some, List.foldlM_cons, List.foldlM_nil, hfinal,
    hrun, hsender, ↓reduceIte, List.nil_append, Option.pure_def]

theorem netSend_fake {fuel t l s ty} (hfuel : 0 < fuel) (hc : c < m.applicationCores)
    (h : ¬ m.IsMaster c) :
    m.netSend fuel c (.new t ty c (.core r) l s) q = some ([(r,
      { NetPacket.new t ty c (.core r) l s with start_time := t })], q) := by
  have hfake : m.fakeNode c = true := by
    rw [← Bool.not_eq_false, fakeNode_eq_false hc]
    exact h
  obtain ⟨fuel, rfl⟩ : ∃ k, fuel = k + 1 := ⟨fuel - 1, by omega⟩
  refine netSend_unicast (r := r) (c := c) ?_ rfl
    (shortcut_stop fuel t (.new t ty c (.core r) l s)) rfl
  simp only [routePacket, NetPacket.new, hfake, ↓reduceIte]
  rw [addHop_fake rfl]

theorem netSend_master {fuel t l s : Nat} {ty : PacketType}
    (hfuel : m.m_mesh_width + m.m_mesh_height < fuel) (henabled : m.m_enabled = true)
    (hc : m.IsMaster c) (hr : r < m.applicationCores)
    (hreq : (NetPacket.new t ty c (.core r) l s).requester < m.applicationCores)
    (hq : q.asked = 0) :
    ∃ t' n j, m.netSend fuel c (.new t ty c (.core r) l s) q = some ([(r,
        { NetPacket.new t ty c (.core r) l s with
          start_time := t, time := t', queue_delay := (q.after j).met })], q.after n) ∧
      t' = t + m.hopsTo c r * m.hopLatency + (q.after n).met ∧ j ≤ n ∧
      ((q.after j).met = (q.after n).met ↔ (m.m_queue_model_enabled = true →
        ∀ k, 2 ≤ k → k ≤ m.hopsTo c r → q.answers k = 0)) := by
  have hfake := (fakeNode_eq_false hc.2).mpr hc
  have hmet : q.met = 0 := by simp [Queues.met, hq]
  have hhops := hopsTo_lt hc.2 hr
  by_cases hsame : m.SameNode c r
  · obtain ⟨fuel, rfl⟩ : ∃ k, fuel = k + 1 := ⟨fuel - 1, by omega⟩
    have hzero : m.hopsTo c r = 0 := (hopsTo_eq_zero hc.2 hr).mpr hsame
    obtain ⟨delay, n, hinject, hdelay⟩ : ∃ delay n,
        m.computeInjectionPortQueueDelay c (.core r) q = (delay, q.after n) ∧
          (q.after n).met = q.met + delay := by
      by_cases hrc : r = c
      · subst hrc
        exact ⟨0, 0, injection_self, rfl⟩
      · obtain ⟨delay, h⟩ := injection_spec (m := m) (q := q) hrc
        exact ⟨delay, _, h⟩
    refine ⟨t + delay, n, n, ?_, by rw [hzero, hdelay, hmet]; omega, Nat.le_refl _, ?_⟩
    · rw [hdelay, hmet, Nat.zero_add]
      refine netSend_unicast (r := r) (c := c) ?_ rfl (shortcut_stop fuel (t + delay)
        { NetPacket.new t ty c (.core r) l s with queue_delay := delay }) rfl
      simp only [routePacket, NetPacket.new, hfake, ↓reduceIte, hinject,
        getNextDest_sameNode hr hsame, Bool.false_eq_true, Nat.zero_add]
      rfl
    · refine ⟨fun _ _ k h₂ hk => ?_, fun _ => rfl⟩
      omega
  · have hne : r ≠ c := by
      intro h
      exact hsame (congrArg (· / m.m_concentration) h.symm)
    obtain ⟨delay, hinject, hdelay⟩ := injection_spec (m := m) (q := q) hne
    obtain ⟨c', direction, hnext, hdirection, hmaster, hcloser⟩ := getNextDest_closer hc hr hsame
    obtain ⟨delay', hlink, hdelay'⟩ := addHop_link (q := q.after (m.asks 1)) hdirection henabled
      hreq (.core r) c' (t + delay)
    rw [Queues.after_after] at hlink hdelay'
    have hway : OnWay m c' r { NetPacket.new t ty c (.core r) l s with
        queue_delay := 0 + delay + delay' } := by
      refine ⟨hmaster, hr, hreq, henabled, ?_⟩
      dsimp only [NetPacket.new]
      omega
    obtain ⟨packet', t', hrun, ht⟩ := shortcut_spec (m.hopsTo c' r) fuel c'
      (t + delay + (m.hopLatency + delay')) _ (q.after (m.asks 1 + m.asks 1)) rfl (by omega) hway
    rw [Queues.after_after] at hrun ht
    have hasked : ∀ a, m.asks 1 + m.asks 1 + m.asks a = m.asks (a + 2) := by
      intro a
      unfold asks
      split <;> omega
    have hfirst : m.asks 1 + m.asks 1 = m.asks 2 := by
      unfold asks
      split <;> omega
    rw [hasked] at hrun ht
    rw [hfirst] at hdelay' ht hrun hlink
    refine ⟨t', m.asks (m.hopsTo c' r + 2), m.asks 2, ?_, ?_, ?_, ?_⟩
    · have hbuffer : (q.after (m.asks 2)).met = 0 + delay + delay' := by omega
      rw [hbuffer]
      refine netSend_unicast (r := r) (c := c) ?_ rfl hrun rfl
      simp only [routePacket, NetPacket.new, hfake, ↓reduceIte, hinject, Bool.false_eq_true, hnext]
      rw [show NetPacket.requester ⟨0, t, 0, ty, c, .core r, l, s⟩ =
        (NetPacket.new t ty c (.core r) l s).requester from rfl, hlink]
    · have hmul : m.hopsTo c r * m.hopLatency =
          m.hopsTo c' r * m.hopLatency + m.hopLatency := by
        rw [← hcloser]
        ring
      omega
    · unfold asks
      split <;> omega
    · unfold asks
      cases hqueue : m.m_queue_model_enabled with
      | false => simp
      | true =>
        simp only [↓reduceIte, forall_const]
        rw [Queues.met_after_eq_iff (by omega), hq]
        simp only [Nat.zero_add]
        constructor
        · intro h k hk hle
          exact h k hk (by omega)
        · intro h k hk hlt
          exact h k hk (by omega)

/-! ## Adding up -/

/-- The accounts of a packet that arrives at a core, where `q` are the queues it asked. -/
structure AddsUp (m : Mesh) (m_core_id : Nat) (pkt : NetPacket) (q : Queues) : Prop where
  /-- The latency covers the distance, so `contention_delay` does not underflow. -/
  covers : m.computeDistance pkt.sender m_core_id * m.hopLatency ≤ packetLatency pkt
  contention : m.contentionDelay m_core_id pkt = q.met
  queue_delay : pkt.queue_delay = q.met

/-- Every hop of the distance is charged, and every queue that is asked is on the first link or
before it. -/
def ChargedInFull (m : Mesh) (answers : Nat → Nat) (sender receiver : Nat) : Prop :=
  (m.SameNode sender receiver ∨ m.hopLatency = 0 ∨
    (m.IsMaster sender ∧ ¬ m.Detour sender receiver)) ∧
  (m.IsMaster sender → m.m_queue_model_enabled = true →
    ∀ k, 2 ≤ k → k ≤ m.hopsTo sender receiver → answers k = 0)

theorem mul_hops_eq (hc : c < m.applicationCores) (hr : r < m.applicationCores) :
    m.hopsTo c r * m.hopLatency = m.computeDistance c r * m.hopLatency ↔
      m.SameNode c r ∨ m.hopLatency = 0 ∨ ¬ m.Detour c r := by
  rw [← hopsTo_eq_zero hc hr, ← hopsTo_eq_distance]
  have hle := distance_le_hopsTo (m := m) (c := c) (r := r)
  constructor
  · intro h
    rcases Nat.eq_zero_or_pos m.hopLatency with hzero | hpos
    · exact .inr (.inl hzero)
    · exact .inr (.inr (Nat.eq_of_mul_eq_mul_right hpos h))
  · rintro (h | h | h)
    · rw [h]
      have hzero : m.computeDistance c r = 0 := by omega
      rw [hzero]
    · rw [h, Nat.mul_zero, Nat.mul_zero]
    · rw [h]

/-- A unicast packet between application cores is delivered, and its accounts add up exactly
when it is charged in full. -/
theorem delivered_addsUp (m : Mesh) (answers : Nat → Nat) (henabled : m.m_enabled = true)
    (t l s : Nat) (ty : PacketType) (sender receiver : Nat) (hs : sender < m.applicationCores)
    (hr : receiver < m.applicationCores)
    (hreq : (NetPacket.new t ty sender (.core receiver) l s).requester < m.applicationCores)
    (fuel : Nat) (hfuel : m.m_mesh_width + m.m_mesh_height < fuel) :
    ∃ pkt q, m.netSend fuel sender (.new t ty sender (.core receiver) l s) ⟨answers, 0⟩ =
        some ([(receiver, pkt)], q) ∧
      (AddsUp m receiver pkt q ↔ m.ChargedInFull answers sender receiver) := by
  by_cases hmaster : m.IsMaster sender
  · obtain ⟨t', n, j, hsend, ht, -, hmet⟩ := netSend_master (q := ⟨answers, 0⟩) hfuel henabled
      hmaster hr hreq rfl
    refine ⟨_, _, hsend, ?_⟩
    have hle := Nat.mul_le_mul_right m.hopLatency
      (distance_le_hopsTo (m := m) (c := sender) (r := receiver))
    have hhops := mul_hops_eq (m := m) hs hr
    unfold ChargedInFull
    constructor
    · intro h
      have hcontention := h.contention
      simp only [contentionDelay, packetLatency, NetPacket.new] at hcontention
      refine ⟨?_, fun _ => hmet.mp h.queue_delay⟩
      rcases hhops.mp (by omega) with hsame | hzero | hdetour
      · exact .inl hsame
      · exact .inr (.inl hzero)
      · exact .inr (.inr ⟨hmaster, hdetour⟩)
    · intro ⟨hway, hqueue⟩
      have hcharged := hhops.mpr (hway.imp_right (Or.imp_right And.right))
      refine ⟨?_, ?_, hmet.mpr (hqueue hmaster)⟩
      · simp only [packetLatency, NetPacket.new]
        omega
      · simp only [contentionDelay, packetLatency, NetPacket.new]
        omega
  · refine ⟨_, _, netSend_fake (by omega) hs hmaster, ?_⟩
    have hzero : m.computeDistance sender receiver * m.hopLatency = 0 ↔
        m.SameNode sender receiver ∨ m.hopLatency = 0 := by
      rw [Nat.mul_eq_zero]
      have hdistance : m.computeDistance sender receiver = 0 ↔ m.SameNode sender receiver := by
        rw [sameNode_iff, computeDistance_eq, Nat.add_eq_zero_iff,
          Axis.distance_eq_zero position_fst_lt position_fst_lt,
          Axis.distance_eq_zero (position_snd_lt hs) (position_snd_lt hr), Prod.ext_iff]
      rw [hdistance]
    constructor
    · intro h
      have hcovers := h.covers
      simp only [packetLatency, NetPacket.new] at hcovers
      refine ⟨?_, fun hm => absurd hm hmaster⟩
      rcases hzero.mp (by omega) with hsame | hlatency
      · exact .inl hsame
      · exact .inr (.inl hlatency)
    · rintro ⟨hway, -⟩
      have hnone := hzero.mpr (by
        rcases hway with hsame | hlatency | ⟨hm, -⟩
        · exact .inl hsame
        · exact .inr hlatency
        · exact absurd hm hmaster)
      refine ⟨?_, ?_, rfl⟩
      · simp only [packetLatency, NetPacket.new]
        omega
      · simp only [contentionDelay, packetLatency, NetPacket.new, Queues.met]
        simp [hnone]

/-- A row of three nodes with a hop latency of 10. -/
def row (wrap : Bool) (concentration : Nat) (h : 0 < concentration) : Mesh where
  m_mesh_width := 3
  m_mesh_height := 1
  m_concentration := concentration
  m_wrap_around := wrap
  m_enabled := true
  m_queue_model_enabled := true
  m_broadcast_tree_enabled := false
  totalCores := 3 * concentration
  hopLatency := 10
  roundedLatency := id
  width_pos := by decide
  height_pos := Nat.one_pos
  concentration_pos := h

/-- Over two links, with delays at the injection port and on the first link. -/
theorem delivered_addsUp_row : ∃ pkt q,
    (row false 1 Nat.one_pos).netSend 5 0 (.new 100 .SHARED_MEM_1 0 (.core 2) 8 1)
        ⟨fun k => if k < 2 then 4 else 0, 0⟩ = some ([(2, pkt)], q) ∧
      AddsUp (row false 1 Nat.one_pos) 2 pkt q := by
  obtain ⟨pkt, q, hsend, hiff⟩ := delivered_addsUp (row false 1 Nat.one_pos)
    (fun k => if k < 2 then 4 else 0) rfl 100 8 1 .SHARED_MEM_1 0 2 (by decide) (by decide)
    (by decide) 5 (by decide)
  refine ⟨pkt, q, hsend, hiff.mpr ⟨.inr (.inr (by decide)), fun _ _ k hk _ => ?_⟩⟩
  exact if_neg (by omega)

/-- A delay on the second link is missing; on a ring the longer way is charged as contention; and
nothing is charged to a core that is not a master. -/
theorem accounts_lost :
    (∃ pkt q, (row false 1 Nat.one_pos).netSend 5 0 (.new 100 .SHARED_MEM_1 0 (.core 2) 8 0)
        ⟨fun _ => 4, 0⟩ = some ([(2, pkt)], q) ∧ packetLatency pkt = 32 ∧ q.met = 12 ∧
        pkt.queue_delay = 8 ∧ ¬ AddsUp (row false 1 Nat.one_pos) 2 pkt q) ∧
    (∃ pkt q, (row true 1 Nat.one_pos).netSend 5 0 (.new 100 .SHARED_MEM_1 0 (.core 2) 8 0)
        ⟨fun _ => 0, 0⟩ = some ([(2, pkt)], q) ∧
        (row true 1 Nat.one_pos).contentionDelay 2 pkt = 10 ∧ q.met = 0 ∧
        ¬ AddsUp (row true 1 Nat.one_pos) 2 pkt q) ∧
    (∃ pkt q, (row false 2 Nat.two_pos).netSend 5 1 (.new 100 .SHARED_MEM_1 1 (.core 2) 8 1)
        ⟨fun _ => 0, 0⟩ = some ([(2, pkt)], q) ∧
        (row false 2 Nat.two_pos).contentionDelay 2 pkt = -10 ∧
        ¬ AddsUp (row false 2 Nat.two_pos) 2 pkt q) := by
  refine ⟨⟨_, _, rfl, by decide, by decide, by decide, ?_⟩,
    ⟨_, _, rfl, by decide, by decide, ?_⟩, ⟨_, _, rfl, by decide, ?_⟩⟩
  · intro h
    exact absurd h.queue_delay (by decide)
  · intro h
    exact absurd h.contention (by decide)
  · intro h
    exact absurd h.covers (by decide)

end Mesh
end Sniper.Network
