import Mathlib.Data.List.GetD
import Mathlib.Data.List.Nodup
import Mathlib.Data.Nat.ModEq
import Mathlib.Tactic.Ring

/-! # The cores of the memory controllers

`computeMeshDimensions` and `computeMemoryControllerPositions`: the perimeter of the mesh is
listed clockwise, and the controllers are spaced evenly on it.
-/
namespace Sniper.Network
open Function

/-- What the two functions read of the configuration. -/
structure MeshConfig where
  applicationCores : Nat
  logical_cpus : Nat
  /-- `network/emesh_hop_by_hop/concentration`. -/
  cfgConcentration : Nat
  dimensions : Nat
  size : String
  cores_pos : 0 < applicationCores

/-- A `%d`, and what follows it. -/
def scanInt (input : List Char) : Option (Int × List Char) :=
  let input := input.dropWhile Char.isWhitespace
  let (negative, input) : Bool × List Char :=
    match input with
    | '-' :: rest => (true, rest)
    | '+' :: rest => (false, rest)
    | rest => (false, rest)
  let digits := input.takeWhile Char.isDigit
  if digits = [] then none
  else
    let value := digits.foldl (fun n c => n * 10 + (c.toNat - '0'.toNat)) 0
    some (if negative then -value else value, input.dropWhile Char.isDigit)

/-- `sscanf` with the format of the sizes, where it finds both. -/
def sscanf (size : String) : Option (Int × Int) := do
  let (mesh_width, rest) ← scanInt size.toList
  match rest with
  | ':' :: rest => do
    let (mesh_height, _) ← scanInt rest
    return (mesh_width, mesh_height)
  | _ => none

namespace MeshConfig

def concentration (cfg : MeshConfig) : Nat := cfg.cfgConcentration * cfg.logical_cpus

/-- The width and the height before they are checked. -/
def meshSize (cfg : MeshConfig) : Option (Int × Int) :=
  if cfg.size = "" then
    let nodes := cfg.applicationCores / cfg.concentration
    match cfg.dimensions with
    | 1 => some ((nodes : Int), 1)
    | 2 =>
      -- the height is rounded up
      let row := cfg.concentration * nodes.sqrt
      some ((nodes.sqrt : Int), ((cfg.applicationCores + row - 1) / row : Nat))
    | _ => none
  else sscanf cfg.size

/-- None where the program ends with an error. -/
def computeMeshDimensions (cfg : MeshConfig) : Option (Int × Int) := do
  let (mesh_width, mesh_height) ← cfg.meshSize
  if (cfg.applicationCores : Int) = cfg.concentration * mesh_height * mesh_width then
    some (mesh_width, mesh_height)
  else none

/-- The cores on the perimeter in clockwise order from (0,0), without the concentration. A loop
up to a negative bound does nothing. -/
def core_id_list_along_perimeter (dimensions mesh_width mesh_height : Nat) : List Nat :=
  List.range mesh_width ++
    if dimensions > 1 ∧ mesh_height > 1 then
      (List.range' 1 (mesh_height - 2)).map (fun i => i * mesh_width + mesh_width - 1) ++
      (List.range mesh_width).reverse.map (fun i => (mesh_height - 1) * mesh_width + i) ++
      (List.range' 1 (mesh_height - 2)).reverse.map (fun i => i * mesh_width)
    else []

/-- The cores that have memory controllers attached to them. Their spacing is a division by zero
where there are none. -/
def computeMemoryControllerPositions (cfg : MeshConfig) (num_memory_controllers : Nat) :
    Option (List Nat) := do
  let (mesh_width, mesh_height) ← cfg.computeMeshDimensions
  let mesh_width := mesh_width.toNat
  let mesh_height := mesh_height.toNat
  let perimeter := core_id_list_along_perimeter cfg.dimensions mesh_width mesh_height
  if (cfg.dimensions > 1 ∧ mesh_height > 1) ∧
      perimeter.length ≠ 2 * (mesh_width + mesh_height - 2) then none
  else if num_memory_controllers > perimeter.length ∨ num_memory_controllers = 0 then none
  else
    let spacing_between_memory_controllers := perimeter.length / num_memory_controllers
    some ((List.range num_memory_controllers).map fun i =>
      let index := (i * spacing_between_memory_controllers + mesh_width / 2) % perimeter.length
      cfg.concentration * perimeter.getD index 0)

/-! ### The perimeter -/

variable {dimensions mesh_width mesh_height : Nat}

/-- The perimeter of a mesh with several rows as columns and rows. -/
def perimeterNodes (mesh_width mesh_height : Nat) : List (Nat × Nat) :=
  (List.range mesh_width).map (fun i => (i, 0)) ++
    ((List.range' 1 (mesh_height - 2)).map (fun i => (mesh_width - 1, i)) ++
    (List.range mesh_width).reverse.map (fun i => (i, mesh_height - 1)) ++
    (List.range' 1 (mesh_height - 2)).reverse.map (fun i => (0, i)))

/-- The number of a node without the concentration. -/
def nodeId (mesh_width : Nat) (node : Nat × Nat) : Nat := node.2 * mesh_width + node.1

theorem perimeter_eq_nodes (hwidth : 1 ≤ mesh_width) (hdims : 1 < dimensions)
    (hheight : 1 < mesh_height) : core_id_list_along_perimeter dimensions mesh_width mesh_height =
      (perimeterNodes mesh_width mesh_height).map (nodeId mesh_width) := by
  have htop : (List.range mesh_width).map (nodeId mesh_width ∘ fun i => (i, 0)) =
      List.range mesh_width := by
    simp [Function.comp_def, nodeId]
  have hright : (nodeId mesh_width ∘ fun i => (mesh_width - 1, i)) =
      fun i => i * mesh_width + mesh_width - 1 := by
    funext i
    exact (Nat.add_sub_assoc hwidth _).symm
  unfold core_id_list_along_perimeter perimeterNodes
  rw [if_pos ⟨hdims, hheight⟩]
  simp only [List.map_append, List.map_map, htop, hright]
  rfl

theorem mem_perimeterNodes {node} (hwidth : 1 ≤ mesh_width) (hheight : 1 < mesh_height)
    (h : node ∈ perimeterNodes mesh_width mesh_height) :
    node.1 < mesh_width ∧ node.2 < mesh_height := by
  simp only [perimeterNodes, List.mem_append, List.mem_map, List.mem_range, List.mem_range'_1,
    List.mem_reverse] at h
  obtain ⟨i, hi, rfl⟩ | (⟨i, hi, rfl⟩ | ⟨i, hi, rfl⟩) | ⟨i, hi, rfl⟩ := h
  all_goals
    omega

theorem nodeId_inj {node node'} (h : node.1 < mesh_width) (h' : node'.1 < mesh_width)
    (heq : nodeId mesh_width node = nodeId mesh_width node') : node = node' := by
  have hmod := congrArg (· % mesh_width) heq
  have hdiv := congrArg (· / mesh_width) heq
  simp only [nodeId, Nat.mul_comm _ mesh_width, Nat.mul_add_mod, Nat.mod_eq_of_lt h,
    Nat.mod_eq_of_lt h', Nat.mul_add_div (Nat.zero_lt_of_lt h), Nat.div_eq_of_lt h,
    Nat.div_eq_of_lt h', Nat.add_zero] at hmod hdiv
  exact Prod.ext hmod hdiv

theorem perimeterNodes_nodup (h : 2 ≤ mesh_width ∨ mesh_height ≤ 2) (hheight : 1 < mesh_height) :
    (perimeterNodes mesh_width mesh_height).Nodup := by
  have hcolumn : ∀ x : Nat, Injective fun i : Nat => (x, i) := fun x i j hij =>
    congrArg Prod.snd hij
  have hrow : ∀ y : Nat, Injective fun i : Nat => (i, y) := fun y i j hij =>
    congrArg Prod.fst hij
  unfold perimeterNodes
  rw [List.nodup_append, List.nodup_append, List.nodup_append]
  refine ⟨List.nodup_range.map (hrow 0), ⟨⟨(List.nodup_range' 1).map (hcolumn _),
    (List.nodup_reverse.mpr List.nodup_range).map (hrow _), ?_⟩,
    (List.nodup_reverse.mpr (List.nodup_range' 1)).map (hcolumn 0), ?_⟩, ?_⟩
  all_goals
    simp only [List.mem_append, List.mem_map, List.mem_range, List.mem_range'_1, List.mem_reverse]
  · rintro _ ⟨i, hi, rfl⟩ _ ⟨j, hj, rfl⟩ heq
    have hy := congrArg Prod.snd heq
    omega
  · rintro _ (⟨i, hi, rfl⟩ | ⟨i, hi, rfl⟩) _ ⟨j, hj, rfl⟩ heq
    all_goals
      have hx := congrArg Prod.fst heq
      have hy := congrArg Prod.snd heq
      omega
  · rintro _ ⟨i, hi, rfl⟩ _ ((⟨j, hj, rfl⟩ | ⟨j, hj, rfl⟩) | ⟨j, hj, rfl⟩) heq
    all_goals
      have hy := congrArg Prod.snd heq
      omega

theorem perimeter_row (h : ¬ (1 < dimensions ∧ 1 < mesh_height)) :
    core_id_list_along_perimeter dimensions mesh_width mesh_height = List.range mesh_width := by
  unfold core_id_list_along_perimeter
  rw [if_neg h, List.append_nil]

theorem perimeter_length (hdims : 1 < dimensions) (hheight : 1 < mesh_height) :
    (core_id_list_along_perimeter dimensions mesh_width mesh_height).length =
      2 * (mesh_width + mesh_height - 2) := by
  unfold core_id_list_along_perimeter
  rw [if_pos ⟨hdims, hheight⟩]
  simp only [List.length_append, List.length_map, List.length_range, List.length_range',
    List.length_reverse]
  omega

theorem perimeter_lt (hwidth : 1 ≤ mesh_width) (hheight : 1 ≤ mesh_height) :
    ∀ c ∈ core_id_list_along_perimeter dimensions mesh_width mesh_height,
      c < mesh_width * mesh_height := by
  intro c hc
  by_cases hrows : 1 < dimensions ∧ 1 < mesh_height
  · rw [perimeter_eq_nodes hwidth hrows.1 hrows.2] at hc
    obtain ⟨node, hnode, rfl⟩ := List.mem_map.mp hc
    obtain ⟨hx, hy⟩ := mem_perimeterNodes hwidth hrows.2 hnode
    calc nodeId mesh_width node < node.2 * mesh_width + mesh_width := Nat.add_lt_add_left hx _
      _ = mesh_width * (node.2 + 1) := by ring
      _ ≤ mesh_width * mesh_height := Nat.mul_le_mul_left _ hy
  · rw [perimeter_row hrows, List.mem_range] at hc
    exact hc.trans_le (Nat.le_mul_of_pos_right _ hheight)

/-- A single column of at least three rows, which is listed down and up. -/
def Folded (dimensions mesh_width mesh_height : Nat) : Prop :=
  1 < dimensions ∧ mesh_width = 1 ∧ 3 ≤ mesh_height
deriving Decidable

theorem perimeter_nodup (hwidth : 1 ≤ mesh_width)
    (h : ¬ Folded dimensions mesh_width mesh_height) :
    (core_id_list_along_perimeter dimensions mesh_width mesh_height).Nodup := by
  by_cases hrows : 1 < dimensions ∧ 1 < mesh_height
  · rw [perimeter_eq_nodes hwidth hrows.1 hrows.2]
    have hshape : 2 ≤ mesh_width ∨ mesh_height ≤ 2 := by
      unfold Folded at h
      omega
    refine (perimeterNodes_nodup hshape hrows.2).map_on fun node hnode node' hnode' heq => ?_
    exact nodeId_inj (mem_perimeterNodes hwidth hrows.2 hnode).1
      (mem_perimeterNodes hwidth hrows.2 hnode').1 heq
  · rw [perimeter_row hrows]
    exact List.nodup_range

theorem perimeter_folded (h : Folded dimensions mesh_width mesh_height) :
    core_id_list_along_perimeter dimensions mesh_width mesh_height =
      (List.range (2 * (mesh_height - 1))).map fun p => min p (2 * (mesh_height - 1) - p) := by
  obtain ⟨hdims, rfl, hheight⟩ := h
  refine List.ext_getElem ?_ fun p hp hp' => ?_
  · rw [perimeter_length hdims (by omega), List.length_map, List.length_range]
    omega
  · rw [List.length_map, List.length_range] at hp'
    simp only [core_id_list_along_perimeter, if_pos (show 1 < dimensions ∧ 1 < mesh_height by omega),
      List.getElem_append, List.getElem_map, List.getElem_range, List.getElem_range',
      List.getElem_reverse, List.length_append, List.length_map, List.length_range,
      List.length_range', List.length_reverse]
    split_ifs
    all_goals omega

/-! ### The controllers -/

/-- One core for each controller, and each the master of a node. -/
structure Placed (cfg : MeshConfig) (num_memory_controllers : Nat) (cores : List Nat) : Prop where
  length : cores.length = num_memory_controllers
  nodup : cores.Nodup
  master : ∀ c ∈ cores, cfg.concentration ∣ c ∧ c < cfg.applicationCores

/-- The controllers of a folded perimeter of `length` cores where two of them meet: one on the way
down, the other as far from the end of the list on the way up. -/
def Meet (length num_memory_controllers : Nat) : Prop :=
  length / num_memory_controllers ∣ length ∧
    length ≤ (2 * num_memory_controllers - 3) * (length / num_memory_controllers)
deriving Decidable

/-- Where a controller is on the perimeter. -/
def index (length num_memory_controllers offset i : Nat) : Nat :=
  (i * (length / num_memory_controllers) + offset) % length

variable {length n offset : Nat}

theorem spacing_lt (hn : n ≤ length) {i} (hi : i < n) :
    0 < length / n ∧ i * (length / n) < length := by
  have hpos : 0 < length / n := Nat.div_pos hn (Nat.zero_lt_of_lt hi)
  refine ⟨hpos, ?_⟩
  calc i * (length / n) < n * (length / n) := Nat.mul_lt_mul_of_pos_right hi hpos
    _ ≤ length := Nat.mul_div_le _ _

theorem index_lt (hlength : 0 < length) {i} : index length n offset i < length :=
  Nat.mod_lt _ hlength

theorem index_inj (hn : n ≤ length) {i j} (hi : i < n) (hj : j < n)
    (h : index length n offset i = index length n offset j) : i = j := by
  obtain ⟨hpos, hilt⟩ := spacing_lt hn hi
  obtain ⟨-, hjlt⟩ := spacing_lt hn hj
  have hmod : i * (length / n) ≡ j * (length / n) [MOD length] := Nat.ModEq.add_right_cancel' _ h
  exact Nat.eq_of_mul_eq_mul_right hpos (hmod.eq_of_lt_of_lt hilt hjlt)

theorem controllers_nodup {perimeter : List Nat} (hnodup : perimeter.Nodup)
    (hn : n ≤ perimeter.length) {concentration} (hconc : 0 < concentration) :
    ((List.range n).map fun i =>
      concentration * perimeter.getD (index perimeter.length n offset i) 0).Nodup := by
  refine List.nodup_range.map_on fun i hi j hj heq => ?_
  rw [List.mem_range] at hi hj
  have hlength : 0 < perimeter.length := (Nat.zero_lt_of_lt hi).trans_le hn
  have hcore := Nat.eq_of_mul_eq_mul_left hconc heq
  rw [List.getD_eq_getElem _ _ (index_lt hlength), List.getD_eq_getElem _ _ (index_lt hlength)]
    at hcore
  exact index_inj hn hi hj ((hnodup.getElem_inj_iff).mp hcore)

theorem folded_nodup_iff (hn : n ≤ length) (hpos : 1 ≤ n) {concentration}
    (hconc : 0 < concentration) :
    ((List.range n).map fun i => concentration *
      ((List.range length).map fun p => min p (length - p)).getD (index length n 0 i) 0).Nodup ↔
      ¬ Meet length n := by
  have hcore : ∀ i < n, ((List.range length).map fun p => min p (length - p)).getD
      (index length n 0 i) 0 = min (i * (length / n)) (length - i * (length / n)) := by
    intro i hi
    rw [index, Nat.add_zero, Nat.mod_eq_of_lt (spacing_lt hn hi).2, List.getD_eq_getElem _ _
      (by rw [List.length_map, List.length_range]; exact (spacing_lt hn hi).2),
      List.getElem_map, List.getElem_range]
  rw [List.nodup_map_iff_inj_on List.nodup_range]
  constructor
  · intro hinj ⟨⟨q, hq⟩, hle⟩
    obtain ⟨hspacing, -⟩ := spacing_lt hn hpos
    have hq_le : q ≤ 2 * n - 3 := by
      rw [Nat.mul_comm] at hle
      exact Nat.le_of_mul_le_mul_left (hq.symm.trans_le hle) hspacing
    have hn_le : n ≤ q :=
      Nat.le_of_mul_le_mul_left ((Nat.div_mul_le_self length n).trans_eq hq) hspacing
    have hsum : (q - (n - 1)) * (length / n) + (n - 1) * (length / n) = length := by
      rw [← Nat.add_mul, Nat.sub_add_cancel (by omega), Nat.mul_comm]
      exact hq.symm
    have heq := hinj (q - (n - 1)) (List.mem_range.mpr (by omega)) (n - 1)
      (List.mem_range.mpr (by omega)) (by
        rw [hcore _ (by omega), hcore _ (by omega)]
        congr 1
        omega)
    omega
  · intro hmeet i hi j hj heq
    rw [List.mem_range] at hi hj
    rw [hcore i hi, hcore j hj] at heq
    have hcores := Nat.eq_of_mul_eq_mul_left hconc heq
    obtain ⟨hspacing, hilt⟩ := spacing_lt hn hi
    obtain ⟨-, hjlt⟩ := spacing_lt hn hj
    by_contra hne
    have hdist : i * (length / n) ≠ j * (length / n) := fun h =>
      hne (Nat.eq_of_mul_eq_mul_right hspacing h)
    have hsum : (i + j) * (length / n) = length := by
      rw [Nat.add_mul]
      omega
    refine hmeet ⟨⟨i + j, by rw [Nat.mul_comm, hsum]⟩, ?_⟩
    calc length = (i + j) * (length / n) := hsum.symm
      _ ≤ (2 * n - 3) * (length / n) := Nat.mul_le_mul_right _ (by omega)

theorem applicationCores_eq {cfg : MeshConfig} {mesh_width mesh_height : Int}
    (hmesh : cfg.computeMeshDimensions = some (mesh_width, mesh_height)) (hwidth : 1 ≤ mesh_width)
    (hheight : 1 ≤ mesh_height) :
    cfg.applicationCores = cfg.concentration * (mesh_width.toNat * mesh_height.toNat) := by
  obtain ⟨⟨width, height⟩, -, hcores⟩ := Option.bind_eq_some_iff.mp hmesh
  dsimp only at hcores
  split at hcores
  case isFalse => cases hcores
  case isTrue hcount =>
    cases hcores
    obtain ⟨w, rfl⟩ := Int.eq_ofNat_of_zero_le (show 0 ≤ mesh_width by omega)
    obtain ⟨h, rfl⟩ := Int.eq_ofNat_of_zero_le (show 0 ≤ mesh_height by omega)
    rw [Int.toNat_natCast, Int.toNat_natCast, Nat.mul_comm w, ← Nat.mul_assoc]
    exact_mod_cast hcount

theorem computeMemoryControllerPositions_eq {cfg : MeshConfig} {mesh_width mesh_height : Int}
    (hmesh : cfg.computeMeshDimensions = some (mesh_width, mesh_height)) {perimeter : List Nat}
    (hperimeter : core_id_list_along_perimeter cfg.dimensions mesh_width.toNat mesh_height.toNat =
      perimeter) (hpos : 1 ≤ n) (hn : n ≤ perimeter.length) :
    cfg.computeMemoryControllerPositions n = some ((List.range n).map fun i =>
      cfg.concentration *
        perimeter.getD (index perimeter.length n (mesh_width.toNat / 2) i) 0) := by
  unfold computeMemoryControllerPositions
  rw [hmesh]
  dsimp only [Option.bind_eq_bind, Option.bind_some]
  rw [hperimeter, if_neg, if_neg (by omega)]
  · rfl
  · intro ⟨⟨hdims, hrows⟩, hlength⟩
    rw [← hperimeter] at hlength
    exact hlength (perimeter_length hdims hrows)

theorem placed_iff_nodup {cfg : MeshConfig} {mesh_width mesh_height : Int}
    (hmesh : cfg.computeMeshDimensions = some (mesh_width, mesh_height)) (hwidth : 1 ≤ mesh_width)
    (hheight : 1 ≤ mesh_height) {perimeter : List Nat}
    (hperimeter : core_id_list_along_perimeter cfg.dimensions mesh_width.toNat mesh_height.toNat =
      perimeter) (hpos : 1 ≤ n) (hn : n ≤ perimeter.length) :
    cfg.Placed n ((List.range n).map fun i => cfg.concentration *
        perimeter.getD (index perimeter.length n offset i) 0) ↔
      ((List.range n).map fun i => cfg.concentration *
        perimeter.getD (index perimeter.length n offset i) 0).Nodup := by
  refine ⟨Placed.nodup, fun hnodup => ⟨?_, hnodup, ?_⟩⟩
  · rw [List.length_map, List.length_range]
  · intro c hc
    obtain ⟨i, -, rfl⟩ := List.mem_map.mp hc
    refine ⟨Nat.dvd_mul_right _ _, ?_⟩
    have hcores := applicationCores_eq hmesh hwidth hheight
    have hconc : 0 < cfg.concentration := Nat.pos_of_mul_pos_right (hcores ▸ cfg.cores_pos)
    rw [hcores, List.getD_eq_getElem _ _ (index_lt (by omega))]
    refine Nat.mul_lt_mul_of_pos_left ?_ hconc
    have hlt := @perimeter_lt cfg.dimensions _ _ (show 1 ≤ mesh_width.toNat by omega)
      (show 1 ≤ mesh_height.toNat by omega)
    rw [hperimeter] at hlt
    exact hlt _ (List.getElem_mem _)

/-- **The controllers are on distinct cores unless they meet on a single column.** -/
theorem controllers_placed_iff (cfg : MeshConfig) (mesh_width mesh_height : Int)
    (hmesh : cfg.computeMeshDimensions = some (mesh_width, mesh_height)) (hwidth : 1 ≤ mesh_width)
    (hheight : 1 ≤ mesh_height) (num_memory_controllers : Nat) (hpos : 1 ≤ num_memory_controllers)
    (hle : num_memory_controllers ≤ (core_id_list_along_perimeter cfg.dimensions mesh_width.toNat
      mesh_height.toNat).length) :
    (∃ cores, cfg.computeMemoryControllerPositions num_memory_controllers = some cores ∧
        cfg.Placed num_memory_controllers cores) ↔
      ¬ (Folded cfg.dimensions mesh_width.toNat mesh_height.toNat ∧
        Meet (2 * (mesh_height.toNat - 1)) num_memory_controllers) := by
  have hcores := applicationCores_eq hmesh hwidth hheight
  have hconc : 0 < cfg.concentration := Nat.pos_of_mul_pos_right (hcores ▸ cfg.cores_pos)
  have heq := computeMemoryControllerPositions_eq hmesh rfl hpos hle
  simp only [heq, Option.some.injEq, exists_eq_left']
  rw [placed_iff_nodup hmesh hwidth hheight rfl hpos hle]
  by_cases hfold : Folded cfg.dimensions mesh_width.toNat mesh_height.toNat
  · have hone : mesh_width.toNat / 2 = 0 := by rw [hfold.2.1]
    have hlist := perimeter_folded hfold
    rw [hlist, List.length_map, List.length_range] at hle
    rw [hlist, List.length_map, List.length_range, hone, folded_nodup_iff hle hpos hconc]
    simp only [hfold, true_and]
  · simp only [hfold, false_and, not_false_eq_true, iff_true]
    exact controllers_nodup (perimeter_nodup (by omega) hfold) hle hconc

/-- One core for each node of a mesh of a given size. -/
def ofSize (size : String) (applicationCores : Nat) (cores_pos : 0 < applicationCores) :
    MeshConfig :=
  ⟨applicationCores, 1, 1, 2, size, cores_pos⟩

theorem controllers_placed_square : ∃ cores,
    (ofSize "4:4" 16 (by decide)).computeMemoryControllerPositions 4 = some cores ∧
      (ofSize "4:4" 16 (by decide)).Placed 4 cores :=
  (controllers_placed_iff (ofSize "4:4" 16 (by decide)) 4 4 rfl (by decide) (by decide) 4
    (by decide) (by decide)).mpr (by decide)

/-- On a column of four rows the second and the third of three controllers are on one core. -/
theorem controllers_meet :
    (ofSize "1:4" 4 (by decide)).computeMemoryControllerPositions 3 = some [0, 2, 2] ∧
      ¬ ∃ cores, (ofSize "1:4" 4 (by decide)).computeMemoryControllerPositions 3 = some cores ∧
        (ofSize "1:4" 4 (by decide)).Placed 3 cores := by
  have hpositions :
      (ofSize "1:4" 4 (by decide)).computeMemoryControllerPositions 3 = some [0, 2, 2] := rfl
  refine ⟨hpositions, ?_⟩
  intro ⟨cores, hcores, hplaced⟩
  cases hcores
  exact absurd hplaced.nodup (by decide)

end MeshConfig
end Sniper.Network
