import Sniper.Network.Accounting

/-! # The broadcast tree

Every core that gets a packet of a broadcast forwards it and processes it. The tree has no leaves:
above and below the row of the sender the packet goes on past the edge of the mesh, to the row at
the other end.
-/
namespace Sniper.Network
open Relation

/-- The packets that the transport holds, each with its core, and the cores that have processed
one. -/
structure Transport where
  inFlight : List (Nat × NetPacket)
  processed : List Nat
  queues : Queues

def Hop.dest (hop : Hop) : Nat × Receiver := (hop.next_dest, hop.final_dest)

namespace Mesh
variable (m : Mesh) (fuel : Nat)

/-- A round of `Network::netPullFromTransport`: what the core hands to the transport, and whether
it processes the packet. -/
def netPull (core : Nat) (packet : NetPacket) (q : Queues) :
    Option (List (Nat × NetPacket) × Bool × Queues) :=
  if packet.receiver = .core core then
    let (_, _, q) := m.processReceivedPacket core packet q
    some ([], true, q)
  else do
    let (sent, q) ← m.netSend fuel core packet q
    if packet.receiver = .broadcast then
      let (_, _, q) := m.processReceivedPacket core packet q
      return (sent, true, q)
    else return (sent, false, q)

/-- A core pulls one of the packets. -/
inductive Pull : Transport → Transport → Prop
  | pull (before after : List (Nat × NetPacket)) {sent : List (Nat × NetPacket)} {core : Nat}
      {packet : NetPacket} {processed : List Nat} {q q' : Queues} (accepted : Bool)
      (h : m.netPull fuel core packet q = some (sent, accepted, q')) :
      Pull ⟨before ++ (core, packet) :: after, processed, q⟩
        ⟨before ++ after ++ sent, if accepted then core :: processed else processed, q'⟩

/-- The forwarding ends, and then each core has processed the packet once. -/
structure DeliversOnce (t : Transport) : Prop where
  ends : Acc (fun a b => m.Pull fuel b a) t
  once : ∀ t', ReflTransGen (m.Pull fuel) t t' → t'.inFlight = [] →
    ∀ c < m.applicationCores, t'.processed.count c = 1

/-! ### The hops of a node -/

variable {m fuel} {c : Nat} {q : Queues} {packet : NetPacket}

theorem addHop_dest (direction : OutputDirection) (final_dest : Receiver)
    (next_dest pkt_time requester : Nat) :
    (m.addHop direction final_dest next_dest pkt_time requester q).1.dest =
      (next_dest, final_dest) := by
  unfold addHop
  split <;> rfl

/-- The branches of the tree at a node. -/
def branches (m : Mesh) (m_core_id : Nat) (pkt : NetPacket) :
    List (Bool × OutputDirection × Receiver × Nat) :=
  let (sx, sy) := m.computePosition pkt.sender
  let (cx, cy) := m.computePosition m_core_id
  let row := decide (cy = sy)
  [(cy ≥ sy, .UP, .broadcast, m.computeCoreId cx (cy + 1)),
    (cy ≤ sy, .DOWN, .broadcast, m.computeCoreId cx (cy - 1)),
    (row && cx ≥ sx, .RIGHT, .broadcast, m.computeCoreId (cx + 1) cy),
    (row && cx ≤ sx, .LEFT, .broadcast, m.computeCoreId (cx - 1) cy),
    (row && cx = sx, .SELF, .core m_core_id, m_core_id)]

theorem branchFold_dests {step : List Hop × Queues → Bool × OutputDirection × Receiver × Nat →
      List Hop × Queues}
    (hstep : ∀ hops q b, (step (hops, q) b).1.map Hop.dest =
      hops.map Hop.dest ++ if b.1 then [(b.2.2.2, b.2.2.1)] else [])
    (bs : List (Bool × OutputDirection × Receiver × Nat)) (hops : List Hop) (q : Queues) :
    (bs.foldl step (hops, q)).1.map Hop.dest =
      hops.map Hop.dest ++ (bs.filter (·.1)).map fun b => (b.2.2.2, b.2.2.1) := by
  induction bs generalizing hops q with
  | nil => simp
  | cons b bs ih =>
    rw [List.foldl_cons]
    refine (ih _ _).trans ?_
    rw [hstep]
    cases ht : b.1 <;> simp [ht]

theorem treeHops_dests (curr_time : Nat) : (m.treeHops c packet curr_time q).1.map Hop.dest =
    ((m.branches c packet).filter (·.1)).map fun b => (b.2.2.2, b.2.2.1) := by
  unfold treeHops
  refine branchFold_dests (fun hops q b => ?_) (m.branches c packet) [] q
  obtain ⟨taken, direction, final_dest, next_dest⟩ := b
  have hdest := addHop_dest (m := m) (q := q) direction final_dest next_dest curr_time
    packet.requester
  cases taken with
  | false => simp
  | true => simp [hdest]

theorem computeCoreId_lt (x y : Int) : m.computeCoreId x y < m.applicationCores := by
  have hx := Int.emod_lt_of_pos (x + m.m_mesh_width) (Int.natCast_pos.mpr m.width_pos)
  have hx0 := Int.emod_nonneg (x + m.m_mesh_width) (Int.natCast_pos.mpr m.width_pos).ne'
  have hy := Int.emod_lt_of_pos (y + m.m_mesh_height) (Int.natCast_pos.mpr m.height_pos)
  have hy0 := Int.emod_nonneg (y + m.m_mesh_height) (Int.natCast_pos.mpr m.height_pos).ne'
  obtain ⟨a, ha⟩ := Int.eq_ofNat_of_zero_le hx0
  obtain ⟨b, hb⟩ := Int.eq_ofNat_of_zero_le hy0
  have hid : m.computeCoreId x y = m.coreAt a b := computeCoreId_eq ha hb
  rw [hid]
  exact (isMaster_coreAt (by omega) (by omega)).2

/-- For a copy to forward, or for the core that it goes to. -/
def Addressed (dest : Nat × Receiver) : Prop := dest.2 = .broadcast ∨ dest.2 = .core dest.1
deriving Decidable

theorem branches_valid (hc : c < m.applicationCores) : ∀ b ∈ m.branches c packet,
    b.2.2.2 < m.applicationCores ∧ Addressed (b.2.2.2, b.2.2.1) := by
  intro b hb
  simp only [branches, List.mem_cons, List.not_mem_nil, or_false] at hb
  obtain rfl | rfl | rfl | rfl | rfl := hb
  case inr.inr.inr.inr => exact ⟨hc, .inr rfl⟩
  all_goals
    refine ⟨?_, .inl rfl⟩
    dsimp only
    exact computeCoreId_lt _ _

theorem branches_broadcast (c : Nat) (packet : NetPacket) :
    ∃ b ∈ m.branches c packet, b.1 = true ∧ b.2.2.1 = .broadcast := by
  rcases Nat.le_total (m.computePosition packet.sender).2 (m.computePosition c).2 with h | h
  · exact ⟨_, List.mem_cons_self, decide_eq_true h, rfl⟩
  · exact ⟨_, List.mem_cons_of_mem _ List.mem_cons_self, decide_eq_true h, rfl⟩

theorem routePacket_tree (htree : m.m_broadcast_tree_enabled = true) (hc : m.IsMaster c)
    (hreceiver : packet.receiver = .broadcast) :
    ∃ hops q', m.routePacket c packet q = some (hops, packet, q') ∧
      hops.map Hop.dest = ((m.branches c packet).filter (·.1)).map fun b => (b.2.2.2, b.2.2.1) := by
  have hfake : m.fakeNode c = false := (fakeNode_eq_false hc.2).mpr hc
  simp only [routePacket, hreceiver, hfake, htree, Bool.false_eq_true, if_false, if_true]
  exact ⟨_, _, rfl, treeHops_dests _⟩

/-! ### Sending -/

/-- The node and the receiver of a packet on the transport. -/
def dest (p : Nat × NetPacket) : Nat × Receiver := (p.1, p.2.receiver)

theorem sendHop_addressed (hfuel : 0 < fuel) {hop} (h : Addressed hop.dest) (start_time : Nat)
    (sent : List (Nat × NetPacket)) (packet buff_pkt : NetPacket) (q : Queues) :
    ∃ buff_pkt', m.sendHop fuel c start_time sent packet buff_pkt hop q =
      some (sent ++ [(hop.next_dest, buff_pkt')], packet, buff_pkt', q) ∧
      buff_pkt'.receiver = hop.final_dest := by
  obtain ⟨fuel, rfl⟩ : ∃ k, fuel = k + 1 := ⟨fuel - 1, by omega⟩
  obtain ⟨final_dest, next_dest, time⟩ := hop
  rcases h with h | h
  · change final_dest = .broadcast at h
    subst h
    exact ⟨_, rfl, rfl⟩
  · change final_dest = .core next_dest at h
    subst h
    unfold sendHop
    simp only [shortcut_stop]
    exact ⟨_, rfl, rfl⟩

theorem sendHops_addressed (hfuel : 0 < fuel) (start_time : Nat)
    (step : List (Nat × NetPacket) × NetPacket × NetPacket × Queues → Hop →
      Option (List (Nat × NetPacket) × NetPacket × NetPacket × Queues))
    (hstep : ∀ sent packet buff_pkt q hop, step (sent, packet, buff_pkt, q) hop =
      m.sendHop fuel c start_time sent packet buff_pkt hop q) (hops : List Hop)
    (sent : List (Nat × NetPacket)) (packet buff_pkt : NetPacket) (q : Queues)
    (hall : ∀ hop ∈ hops, Addressed hop.dest) :
    ∃ sent' buff_pkt', hops.foldlM step (sent, packet, buff_pkt, q) =
      some (sent ++ sent', packet, buff_pkt', q) ∧ sent'.map dest = hops.map Hop.dest := by
  induction hops generalizing sent buff_pkt with
  | nil => exact ⟨[], buff_pkt, by simp, rfl⟩
  | cons hop hops ih =>
    obtain ⟨buff_pkt', hhop, hrec⟩ := sendHop_addressed (m := m) (c := c) hfuel
      (hall hop List.mem_cons_self) start_time sent packet buff_pkt q
    obtain ⟨sent', buff_pkt'', hrest, hdests⟩ := ih (sent ++ [(hop.next_dest, buff_pkt')])
      buff_pkt' fun hop hmem => hall hop (List.mem_cons_of_mem _ hmem)
    refine ⟨(hop.next_dest, buff_pkt') :: sent', buff_pkt'', ?_, ?_⟩
    · rw [List.foldlM_cons, hstep, hhop, Option.bind_eq_bind, Option.bind_some, hrest,
        List.append_assoc]
      rfl
    · rw [List.map_cons, List.map_cons, hdests, dest, hrec]
      rfl

theorem netSend_tree (hfuel : 0 < fuel) (htree : m.m_broadcast_tree_enabled = true)
    (hc : m.IsMaster c) (hreceiver : packet.receiver = .broadcast) :
    ∃ sent q', m.netSend fuel c packet q = some (sent, q') ∧
      sent.map dest = ((m.branches c packet).filter (·.1)).map fun b => (b.2.2.2, b.2.2.1) := by
  obtain ⟨hops, q', hroute, hdests⟩ := routePacket_tree (q := q) htree hc hreceiver
  have hall : ∀ hop ∈ hops, Addressed hop.dest := by
    intro hop hmem
    have hdest : hop.dest ∈ hops.map Hop.dest := List.mem_map_of_mem hmem
    rw [hdests] at hdest
    obtain ⟨b, hb, hbdest⟩ := List.mem_map.mp hdest
    rw [← hbdest]
    exact (branches_valid hc.2 b (List.mem_filter.mp hb).1).2
  obtain ⟨sent, buff_pkt, hrun, hsent⟩ := sendHops_addressed (m := m) (c := c) hfuel packet.time
    (fun s hop => m.sendHop fuel c packet.time s.1 s.2.1 s.2.2.1 hop s.2.2.2)
    (fun _ _ _ _ _ => rfl) hops [] packet packet q' hall
  refine ⟨sent, q', ?_, hsent.trans hdests⟩
  unfold netSend
  rw [hroute]
  exact Option.bind_eq_some_iff.mpr ⟨_, rfl, Option.bind_eq_some_iff.mpr ⟨_, hrun, rfl⟩⟩

theorem mem_dests {b} {dests : List (Nat × NetPacket)} (hb : b ∈ m.branches c packet)
    (htaken : b.1 = true)
    (h : dests.map dest = ((m.branches c packet).filter (·.1)).map fun b => (b.2.2.2, b.2.2.1)) :
    ∃ p ∈ dests, p.2.receiver = b.2.2.1 := by
  have hmem : (b.2.2.2, b.2.2.1) ∈ dests.map dest := by
    rw [h]
    exact List.mem_map_of_mem (f := fun b : Bool × OutputDirection × Receiver × Nat =>
      (b.2.2.2, b.2.2.1)) (List.mem_filter.mpr ⟨hb, htaken⟩)
  obtain ⟨p, hp, hdest⟩ := List.mem_map.mp hmem
  exact ⟨p, hp, congrArg Prod.snd hdest⟩

/-! ### The flood -/

/-- Packets that nodes of the mesh can take, one of them to be forwarded. -/
structure Spreading (m : Mesh) (inFlight : List (Nat × NetPacket)) : Prop where
  addressed : ∀ p ∈ inFlight, p.1 < m.applicationCores ∧ Addressed (dest p)
  going : ∃ p ∈ inFlight, p.2.receiver = .broadcast

theorem netSend_spreading (hfuel : 0 < fuel) (htree : m.m_broadcast_tree_enabled = true)
    (hc : m.IsMaster c) (hreceiver : packet.receiver = .broadcast) :
    ∃ sent q', m.netSend fuel c packet q = some (sent, q') ∧ m.Spreading sent := by
  obtain ⟨sent, q', hsend, hdests⟩ := netSend_tree (q := q) hfuel htree hc hreceiver
  refine ⟨sent, q', hsend, ⟨?_, ?_⟩⟩
  · intro p hp
    have hdest : dest p ∈ sent.map dest := List.mem_map_of_mem hp
    rw [hdests] at hdest
    obtain ⟨b, hb, hbdest⟩ := List.mem_map.mp hdest
    have hvalid := branches_valid hc.2 b (List.mem_filter.mp hb).1
    rw [hbdest] at hvalid
    exact ⟨(congrArg Prod.fst hbdest) ▸ hvalid.1, hvalid.2⟩
  · obtain ⟨b, hb, htaken, hbroadcast⟩ := branches_broadcast (m := m) c packet
    obtain ⟨p, hp, hrec⟩ := mem_dests hb htaken hdests
    exact ⟨p, hp, hrec.trans hbroadcast⟩

theorem Spreading.pull {t} (hconc : m.m_concentration = 1) (hfuel : 0 < fuel)
    (htree : m.m_broadcast_tree_enabled = true) (h : m.Spreading t.inFlight) :
    ∃ t', m.Pull fuel t t' ∧ m.Spreading t'.inFlight := by
  obtain ⟨inFlight, processed, q⟩ := t
  obtain ⟨⟨core, packet⟩, hmem, hreceiver⟩ := h.going
  change packet.receiver = .broadcast at hreceiver
  have hcore : m.IsMaster core := ⟨by rw [hconc, Nat.mod_one], (h.addressed _ hmem).1⟩
  obtain ⟨before, after, rfl⟩ := List.append_of_mem hmem
  obtain ⟨sent, q', hsend, hsent⟩ := netSend_spreading (q := q) hfuel htree hcore hreceiver
  have hpull : m.netPull fuel core packet q =
      some (sent, true, (m.processReceivedPacket core packet q').2.2) := by
    unfold netPull
    rw [if_neg (by rw [hreceiver]; exact nofun), hsend]
    dsimp only [Option.bind_eq_bind, Option.bind_some]
    rw [if_pos hreceiver]
    rfl
  refine ⟨_, .pull before after true hpull, ⟨?_, ?_⟩⟩
  · intro p hp
    rcases List.mem_append.mp hp with hp | hp
    · refine h.addressed p ?_
      rcases List.mem_append.mp hp with hp | hp
      · exact List.mem_append_left _ hp
      · exact List.mem_append_right _ (List.mem_cons_of_mem _ hp)
    · exact hsent.addressed p hp
  · obtain ⟨p, hp, hrec⟩ := hsent.going
    exact ⟨p, List.mem_append_right _ hp, hrec⟩

theorem Spreading.endless {t} (hconc : m.m_concentration = 1) (hfuel : 0 < fuel)
    (htree : m.m_broadcast_tree_enabled = true) (h : m.Spreading t.inFlight) :
    ¬ Acc (fun a b => m.Pull fuel b a) t := by
  intro hacc
  induction hacc with
  | intro t _ ih =>
    obtain ⟨t', hpull, h'⟩ := h.pull hconc hfuel htree
    exact ih t' hpull h'

/-- **A broadcast over the tree is never over.** -/
theorem broadcast_never_delivered (m : Mesh) (hconc : m.m_concentration = 1)
    (htree : m.m_broadcast_tree_enabled = true) (fuel : Nat) (hfuel : 0 < fuel) (packet : NetPacket)
    (hsender : packet.sender < m.applicationCores) (hreceiver : packet.receiver = .broadcast)
    (q : Queues) : ∃ sent q', m.netSend fuel packet.sender packet q = some (sent, q') ∧
      ¬ m.DeliversOnce fuel ⟨sent, [], q'⟩ := by
  have hmaster : m.IsMaster packet.sender := ⟨by rw [hconc, Nat.mod_one], hsender⟩
  obtain ⟨sent, q', hsend, hspread⟩ := netSend_spreading (q := q) hfuel htree hmaster hreceiver
  exact ⟨sent, q', hsend, fun h => Spreading.endless hconc hfuel htree hspread h.ends⟩

/-- The row of three nodes with the tree. -/
def tree : Mesh := { row false 1 Nat.one_pos with m_broadcast_tree_enabled := true }

theorem broadcast_never_delivered_tree : ∃ sent q',
    tree.netSend 5 1 (.new 100 .SHARED_MEM_1 1 .broadcast 8 1) ⟨fun _ => 0, 0⟩ = some (sent, q') ∧
      ¬ tree.DeliversOnce 5 ⟨sent, [], q'⟩ :=
  broadcast_never_delivered tree rfl rfl 5 (by decide) (.new 100 .SHARED_MEM_1 1 .broadcast 8 1)
    (by decide) rfl ⟨fun _ => 0, 0⟩

/-- The copy that goes up from the only row comes back to its node, which then processes the
broadcast a second time and sends the same copies again. -/
theorem broadcast_goes_round : ∃ sent q',
    tree.netSend 5 0 (.new 100 .SHARED_MEM_1 0 .broadcast 8 0) ⟨fun _ => 0, 0⟩ = some (sent, q') ∧
      sent.map dest = [(0, .broadcast), (0, .broadcast), (1, .broadcast), (2, .broadcast),
        (0, .core 0)] ∧
      (∃ t, ReflTransGen (tree.Pull 5) ⟨sent, [], q'⟩ t ∧ t.processed.count 0 = 2) ∧
      ¬ tree.DeliversOnce 5 ⟨sent, [], q'⟩ := by
  refine ⟨_, _, rfl, by decide, ⟨_, .tail (.single (.pull [] _ true rfl)) (.pull [] _ true rfl), ?_⟩,
    fun h => ?_⟩
  · decide
  · refine Spreading.endless rfl (by decide) rfl ⟨by decide, ?_⟩ h.ends
    exact ⟨_, List.mem_cons_self, rfl⟩

end Mesh
end Sniper.Network
