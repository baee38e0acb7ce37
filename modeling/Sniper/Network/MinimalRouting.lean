import Sniper.Network.Accounting

/-! # The number of links on a route

Asked node after node, `getNextDest` leads from a master node to the receiver. It takes as many
links as `computeDistance` counts, but for a detour on each axis.
-/
namespace Sniper.Network
namespace Mesh
variable {m : Mesh} {c r s : Nat} {directions : List OutputDirection}

/-- The directions that `getNextDest` gives from node to node until the next one is the receiver,
for at most `fuel` nodes. -/
def route (m : Mesh) (receiver : Nat) : Nat → Nat → Option (List OutputDirection)
  | 0, _ => none
  | fuel + 1, core =>
    let (next_dest, direction) := m.getNextDest core receiver
    if next_dest = receiver then some [direction]
    else (m.route receiver fuel next_dest).map (direction :: ·)

def links (directions : List OutputDirection) : Nat := directions.countP fun d => !d.fake

/-- The receiver is reached over as many links as its distance. -/
def Minimal (m : Mesh) (sender receiver : Nat) : Prop :=
  ∃ fuel directions, m.route receiver fuel sender = some directions ∧
    links directions = m.computeDistance sender receiver

theorem route_sameNode (hr : r < m.applicationCores) (h : m.SameNode c r) (fuel : Nat) :
    m.route r (fuel + 1) c = some [.DESTINATION] := by
  rw [route, getNextDest_sameNode hr h]
  exact if_pos rfl

theorem route_reaches (hc : m.IsMaster c) (hr : r < m.applicationCores) :
    ∃ fuel directions, m.route r fuel c = some directions := by
  induction hn : m.hopsTo c r generalizing c with
  | zero =>
    exact ⟨1, _, route_sameNode hr ((hopsTo_eq_zero hc.2 hr).mp hn) 0⟩
  | succ n ih =>
    have hnode : ¬ m.SameNode c r := fun h => by
      rw [(hopsTo_eq_zero hc.2 hr).mpr h] at hn
      cases hn
    obtain ⟨c', direction, hnext, -, hc', hcloser⟩ := getNextDest_closer hc hr hnode
    obtain ⟨fuel, directions, hroute⟩ := ih hc' (by omega)
    by_cases hlast : c' = r
    · refine ⟨1, [direction], ?_⟩
      rw [route, hnext]
      exact if_pos hlast
    · refine ⟨fuel + 1, direction :: directions, ?_⟩
      rw [route, hnext]
      dsimp only
      rw [if_neg hlast, hroute]
      rfl

theorem links_route (hc : m.IsMaster c) (hr : r < m.applicationCores) {fuel}
    (h : m.route r fuel c = some directions) : links directions = m.hopsTo c r := by
  induction fuel generalizing c directions with
  | zero => cases h
  | succ fuel ih =>
    by_cases hnode : m.SameNode c r
    · rw [route_sameNode hr hnode] at h
      cases h
      exact ((hopsTo_eq_zero hc.2 hr).mpr hnode).symm
    · obtain ⟨c', direction, hnext, hlink, hc', hcloser⟩ := getNextDest_closer hc hr hnode
      rw [route, hnext] at h
      dsimp only at h
      split at h
      case isTrue hlast =>
        cases h
        have hzero : m.hopsTo c' r = 0 := (hopsTo_eq_zero hc'.2 hr).mpr (by rw [hlast]; rfl)
        rw [← hcloser, hzero, links, List.countP_singleton, hlink]
        rfl
      case isFalse =>
        obtain ⟨rest, hrest, rfl⟩ := Option.map_eq_some_iff.mp h
        rw [← hcloser, ← ih hc' hrest, links, List.countP_cons, hlink]
        rfl

/-- **Routing is minimal unless the packet goes round an odd ring the longer way.** -/
theorem routing_minimal_iff (m : Mesh) (hs : m.IsMaster s) (hr : r < m.applicationCores) :
    m.Minimal s r ↔ ¬ m.Detour s r := by
  rw [← hopsTo_eq_distance]
  constructor
  · intro ⟨fuel, directions, hroute, hlinks⟩
    rw [← links_route hs hr hroute, hlinks]
  · intro hdistance
    obtain ⟨fuel, directions, hroute⟩ := route_reaches hs hr
    exact ⟨fuel, directions, hroute, (links_route hs hr hroute).trans hdistance⟩

/-- Five by four nodes of two cores each, with links round the edges. -/
def torus : Mesh :=
  { row true 2 Nat.two_pos with
    m_mesh_width := 5
    m_mesh_height := 4
    totalCores := 40
    width_pos := by decide
    height_pos := by decide }

/-- One link round the edge and two links up the last column. -/
theorem routing_minimal_torus : torus.computeDistance 0 29 = 3 ∧ torus.Minimal 0 29 :=
  ⟨by decide, (routing_minimal_iff torus (by decide) (by decide)).mpr (by decide)⟩

/-- Two links where there is one. -/
theorem routing_detour : (row true 1 Nat.one_pos).IsMaster 0 ∧
    2 < (row true 1 Nat.one_pos).applicationCores ∧
    (row true 1 Nat.one_pos).route 2 2 0 = some [.RIGHT, .RIGHT] ∧
    (row true 1 Nat.one_pos).computeDistance 0 2 = 1 ∧
    ¬ (row true 1 Nat.one_pos).Minimal 0 2 := by
  have hs : (row true 1 Nat.one_pos).IsMaster 0 := by decide
  have hr : 2 < (row true 1 Nat.one_pos).applicationCores := by decide
  have hroute : (row true 1 Nat.one_pos).route 2 2 0 = some [.RIGHT, .RIGHT] := by decide
  refine ⟨hs, hr, hroute, by decide, ?_⟩
  intro ⟨fuel, directions, h, hlinks⟩
  rw [links_route hs hr h, ← links_route hs hr hroute] at hlinks
  revert hlinks
  decide

end Mesh
end Sniper.Network
