import Mathlib.Data.Int.Basic
import Mathlib.Algebra.BigOperators.Group.Finset.Basic

/-! # The hop-by-hop mesh network

`NetworkModelEMeshHopByHop` with `Network::netSend`: a packet is routed dimension by dimension
through the master cores of concentrated nodes, and every link on the way adds its hop latency
and the delay that its queue model answers. Core numbers and times are natural numbers.
-/
namespace Sniper.Network

inductive OutputDirection
  | UP | DOWN | LEFT | RIGHT | SELF | PEER | DESTINATION
deriving DecidableEq

/-- The directions with a queue are the ones before `NUM_OUTPUT_DIRECTIONS`. -/
def OutputDirection.fake : OutputDirection → Bool
  | .UP | .DOWN | .LEFT | .RIGHT => false
  | .SELF | .PEER | .DESTINATION => true

inductive PacketType
  | INVALID_PACKET_TYPE
  | SHARED_MEM_1
  | SIM_THREAD_TERMINATE_THREADS
  | CORE_THREAD_TERMINATE_THREADS
deriving DecidableEq

/-- A core, or `NetPacket::BROADCAST`. -/
inductive Receiver
  | core (id : Nat)
  | broadcast
deriving DecidableEq

structure NetPacket where
  start_time : Nat
  time : Nat
  queue_delay : Nat
  type : PacketType
  sender : Nat
  receiver : Receiver
  /-- `getModeledLength`. -/
  length : Nat
  /-- `getShmemRequester` of the data of a shared-memory packet. -/
  shmemRequester : Nat

/-- The constructor with a receiver and data. -/
def NetPacket.new (t : Nat) (ty : PacketType) (s : Nat) (r : Receiver) (l : Nat)
    (shmemRequester : Nat) : NetPacket :=
  ⟨0, t, 0, ty, s, r, l, shmemRequester⟩

def NetPacket.requester (pkt : NetPacket) : Nat :=
  if pkt.type = .SHARED_MEM_1 then pkt.shmemRequester else pkt.sender

structure Hop where
  final_dest : Receiver
  next_dest : Nat
  time : Nat

/-- The queue models of all ports: what they answer, in the order in which they are asked. -/
structure Queues where
  answers : Nat → Nat
  asked : Nat

/-- The delays answered so far. -/
def Queues.met (q : Queues) : Nat := ∑ k ∈ Finset.range q.asked, q.answers k

def Queues.computeQueueDelay (q : Queues) : Nat × Queues :=
  (q.answers q.asked, { q with asked := q.asked + 1 })

/-- The parameters that every node of a mesh shares. -/
structure Mesh where
  m_mesh_width : Nat
  m_mesh_height : Nat
  m_concentration : Nat
  m_wrap_around : Bool
  m_enabled : Bool
  m_queue_model_enabled : Bool
  m_broadcast_tree_enabled : Bool
  totalCores : Nat
  /-- `m_hop_latency.getLatency()`. -/
  hopLatency : Nat
  /-- `m_link_bandwidth.getRoundedLatency` of a number of bits. -/
  roundedLatency : Nat → Nat
  width_pos : 0 < m_mesh_width
  height_pos : 0 < m_mesh_height
  concentration_pos : 0 < m_concentration

namespace Mesh

/-- `computeMeshDimensions` asserts that the mesh has room for exactly these. -/
def applicationCores (m : Mesh) : Nat := m.m_concentration * m.m_mesh_height * m.m_mesh_width

/-- `m_fake_node`: not the master of a concentrated node. -/
def fakeNode (m : Mesh) (m_core_id : Nat) : Bool :=
  m_core_id % m.m_concentration ≠ 0 ||
    m_core_id ≥ m.m_concentration * m.m_mesh_width * m.m_mesh_height

def computePosition (m : Mesh) (core_id : Nat) : Nat × Nat :=
  (core_id / m.m_concentration % m.m_mesh_width, core_id / m.m_concentration / m.m_mesh_width)

def computeCoreId (m : Mesh) (x y : Int) : Nat :=
  let x := (x + m.m_mesh_width) % m.m_mesh_width
  let y := (y + m.m_mesh_height) % m.m_mesh_height
  ((y * m.m_mesh_width + x) * m.m_concentration).toNat

/-- `abs(a - b)`. -/
def gap (a b : Nat) : Nat := ((a : Int) - b).natAbs

def computeDistance (m : Mesh) (sender receiver : Nat) : Nat :=
  let (sx, sy) := m.computePosition sender
  let (dx, dy) := m.computePosition receiver
  if m.m_wrap_around then
    min (gap sx dx) (m.m_mesh_width - gap sx dx) + min (gap sy dy) (m.m_mesh_height - gap sy dy)
  else gap sx dx + gap sy dy

def getNextDest (m : Mesh) (m_core_id final_dest : Nat) : Nat × OutputDirection :=
  if final_dest ≥ m.applicationCores then (final_dest, .DESTINATION)
  else if m_core_id / m.m_concentration = final_dest / m.m_concentration then
    (final_dest, .DESTINATION)
  else if m.fakeNode m_core_id then (m_core_id - m_core_id % m.m_concentration, .PEER)
  else
    let (sx, sy) := m.computePosition m_core_id
    let (dx, dy) := m.computePosition final_dest
    if xor (sx > dx) (m.m_wrap_around && gap sx dx > (m.m_mesh_width + 1) / 2) then
      (m.computeCoreId (sx - 1) sy, .LEFT)
    else if sx ≠ dx then (m.computeCoreId (sx + 1) sy, .RIGHT)
    else if xor (sy > dy) (m.m_wrap_around && gap sy dy > (m.m_mesh_height + 1) / 2) then
      (m.computeCoreId sx (sy - 1), .DOWN)
    else if sy ≠ dy then (m.computeCoreId sx (sy + 1), .UP)
    else (m_core_id, .SELF)

def computeProcessingTime (m : Mesh) (pkt_length : Nat) : Nat :=
  m.roundedLatency (pkt_length * 8)

/-- The latency of a link, and the queueing delay in it. -/
def computeLatency (m : Mesh) (requester : Nat) (q : Queues) :
    Nat × Nat × Queues :=
  if !m.m_enabled || requester ≥ m.applicationCores then (0, 0, q)
  else if m.m_queue_model_enabled then
    let (queue_delay, q) := q.computeQueueDelay
    (m.hopLatency + queue_delay, queue_delay, q)
  else (m.hopLatency, 0, q)

def computeInjectionPortQueueDelay (m : Mesh) (m_core_id : Nat) (pkt_receiver : Receiver)
    (q : Queues) : Nat × Queues :=
  if !m.m_queue_model_enabled then (0, q)
  else if pkt_receiver = .core m_core_id then (0, q)
  else q.computeQueueDelay

def computeEjectionPortQueueDelay (m : Mesh) (q : Queues) : Nat × Queues :=
  if !m.m_queue_model_enabled then (0, q) else q.computeQueueDelay

/-- The hop, the queueing delay on its link, and the queues after it. -/
def addHop (m : Mesh) (direction : OutputDirection) (final_dest : Receiver) (next_dest : Nat)
    (pkt_time : Nat) (requester : Nat) (q : Queues) :
    Hop × Nat × Queues :=
  if direction.fake then (⟨final_dest, next_dest, pkt_time⟩, 0, q)
  else
    let (latency, queue_delay, q) := m.computeLatency requester q
    (⟨final_dest, next_dest, pkt_time + latency⟩, queue_delay, q)

/-- The hops of a broadcast, when a node copies the packet along the tree. -/
def treeHops (m : Mesh) (m_core_id : Nat) (pkt : NetPacket) (curr_time : Nat)
    (q : Queues) : List Hop × Queues :=
  let (sx, sy) := m.computePosition pkt.sender
  let (cx, cy) := m.computePosition m_core_id
  let row := decide (cy = sy)
  let branches : List (Bool × OutputDirection × Receiver × Nat) := [
    (cy ≥ sy, .UP, .broadcast, m.computeCoreId cx (cy + 1)),
    (cy ≤ sy, .DOWN, .broadcast, m.computeCoreId cx (cy - 1)),
    (row && cx ≥ sx, .RIGHT, .broadcast, m.computeCoreId (cx + 1) cy),
    (row && cx ≤ sx, .LEFT, .broadcast, m.computeCoreId (cx - 1) cy),
    (row && cx = sx, .SELF, .core m_core_id, m_core_id)]
  branches.foldl (fun (nextHops, q) (taken, direction, final_dest, next_dest) =>
    if taken then
      let (hop, _, q) := m.addHop direction final_dest next_dest curr_time pkt.requester q
      (nextHops ++ [hop], q)
    else (nextHops, q)) ([], q)

/-- The hops of a broadcast that is sent to each core on its own. -/
def unicastHops (m : Mesh) (m_core_id : Nat) (pkt : NetPacket) (q : Queues) :
    List Hop × Queues :=
  (List.range m.totalCores).foldl (fun (nextHops, q) i =>
    let (injection_port_queue_delay, q) := m.computeInjectionPortQueueDelay m_core_id (.core i) q
    let (next_dest, direction) := m.getNextDest m_core_id i
    let (hop, _, q) := m.addHop direction (.core i) next_dest
      (pkt.time + injection_port_queue_delay) pkt.requester q
    (nextHops ++ [hop], q)) ([], q)

/-- The next hops of a packet at a node, and the packet with the delays that it met there; none
where a broadcast without a tree is not at its sender. -/
def routePacket (m : Mesh) (m_core_id : Nat) (pkt : NetPacket) (q : Queues) :
    Option (List Hop × NetPacket × Queues) :=
  match pkt.receiver with
  | .broadcast =>
    if m.fakeNode m_core_id then
      some ((List.range m.totalCores).map fun i => ⟨.core i, i, pkt.time⟩, pkt, q)
    else if m.m_broadcast_tree_enabled then
      let (injection_port_queue_delay, q) :=
        if pkt.sender = m_core_id then m.computeInjectionPortQueueDelay m_core_id pkt.receiver q
        else (0, q)
      let (nextHops, q) := m.treeHops m_core_id pkt (pkt.time + injection_port_queue_delay) q
      some (nextHops, pkt, q)
    else if pkt.sender = m_core_id then
      let (nextHops, q) := m.unicastHops m_core_id pkt q
      some (nextHops, pkt, q)
    else none
  | .core receiver =>
    if m.fakeNode m_core_id then
      let (hop, _, q) := m.addHop .DESTINATION pkt.receiver receiver pkt.time pkt.requester q
      some ([hop], pkt, q)
    else
      let (injection_port_queue_delay, q) :=
        if pkt.sender = m_core_id then m.computeInjectionPortQueueDelay m_core_id pkt.receiver q
        else (0, q)
      let curr_time := pkt.time + injection_port_queue_delay
      let (next_dest, direction) := m.getNextDest m_core_id receiver
      let (hop, queue_delay, q) :=
        m.addHop direction pkt.receiver next_dest curr_time pkt.requester q
      some ([hop],
        { pkt with queue_delay := pkt.queue_delay + injection_port_queue_delay + queue_delay }, q)

/-! ## Sending -/

/-- The loop of `netSend` that routes a packet on the nodes of the way until the next one is its
destination, for at most `fuel` nodes. -/
def shortcut (m : Mesh) : Nat → NetPacket → Hop → Queues → Option (NetPacket × Hop × Queues)
  | 0, _, _, _ => none
  | fuel + 1, packet, hop, q =>
    if hop.final_dest = .core hop.next_dest then some (packet, hop, q)
    else do
      let packet := { packet with time := hop.time, receiver := hop.final_dest }
      let (localHopVec, packet, q) ← m.routePacket hop.next_dest packet q
      match localHopVec with
      | [hop] => m.shortcut fuel packet hop q
      | _ => none

/-- One hop: it is followed unless it is part of a broadcast, and the buffer is sent. -/
def sendHop (m : Mesh) (fuel : Nat) (core : Nat) (start_time : Nat)
    (sent : List (Nat × NetPacket)) (packet buff_pkt : NetPacket) (hop : Hop) (q : Queues) :
    Option (List (Nat × NetPacket) × NetPacket × NetPacket × Queues) := do
  let (packet, hop, q) ←
    match hop.final_dest with
    | .broadcast => some (packet, hop, q)
    | .core _ => m.shortcut fuel packet hop q
  let buff_pkt := if core = buff_pkt.sender then { buff_pkt with start_time } else buff_pkt
  let buff_pkt := { buff_pkt with time := hop.time, receiver := hop.final_dest }
  return (sent ++ [(hop.next_dest, buff_pkt)], packet, buff_pkt, q)

/-- What `Network::netSend` of a core hands to the transport, in order. The buffer is made
before the shortcut is taken. -/
def netSend (m : Mesh) (fuel : Nat) (core : Nat) (packet : NetPacket) (q : Queues) :
    Option (List (Nat × NetPacket) × Queues) := do
  let (hopVec, packet, q) ← m.routePacket core packet q
  let buffer := packet
  let start_time := packet.time
  let (sent, _, _, q) ← hopVec.foldlM (fun (sent, packet, buff_pkt, q) hop =>
    m.sendHop fuel core start_time sent packet buff_pkt hop q) ([], packet, buffer, q)
  return (sent, q)

/-! ## Receiving -/

def packetLatency (pkt : NetPacket) : Nat := pkt.time - pkt.start_time

/-- `contention_delay` before the ejection port; the source has an unsigned type here. -/
def contentionDelay (m : Mesh) (m_core_id : Nat) (pkt : NetPacket) : Int :=
  (packetLatency pkt : Int) - (m.computeDistance pkt.sender m_core_id * m.hopLatency : Nat)

/-- The packet after the ejection port, and what is added to `m_total_packet_latency` and
`m_total_contention_delay`. -/
def processReceivedPacket (m : Mesh) (m_core_id : Nat) (pkt : NetPacket) (q : Queues) :
    NetPacket × Option (Nat × Int) × Queues :=
  if !m.m_enabled || pkt.requester ≥ m.applicationCores || m_core_id ≥ m.applicationCores then
    (pkt, none, q)
  else if pkt.sender ≠ m_core_id && !m.fakeNode m_core_id then
    let processing_time := m.computeProcessingTime pkt.length
    let (ejection_port_queue_delay, q) := m.computeEjectionPortQueueDelay q
    ({ pkt with
        time := pkt.time + (ejection_port_queue_delay + processing_time)
        queue_delay := pkt.queue_delay + ejection_port_queue_delay },
      some (packetLatency pkt + (ejection_port_queue_delay + processing_time),
        m.contentionDelay m_core_id pkt + ejection_port_queue_delay), q)
  else (pkt, some (packetLatency pkt, m.contentionDelay m_core_id pkt), q)

end Mesh
end Sniper.Network
