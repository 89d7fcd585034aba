import Mathlib.Tactic.Linarith
import Mathlib.Tactic.Ring
import SharedMesh.Proofs.Box.Parts

/-!
# Counting the parts of a box

A form of the parts of a cell is found wherever there is room for it in the cell
(`Pattern.Periodic`), and so a tiling has it wherever there is room for it in the grid
(`Pattern.Fits.exists_part_iff`). The parts with different vertices are therefore as many as the
places of all forms (`Pattern.Fits.length_of_enumerates`). The parts of cubes are the edges and the
squares of the grid; those of simplices are cut from its edges, squares and cubes (`spans_perm`).

So the edges and faces of a box are counted by products of the numbers of its cells, and the counts
of its vertices, edges, faces and elements alternate to one (`mesh_counts`).
-/

namespace SharedMesh

/-- How many parts of a dimension the elements have, if parts with the same vertices count once. -/
def FlatMesh.partCount {α : Type} (m : FlatMesh α) (sub : Nat) : Checked Nat := do
  let parts ← skeleton m.elements m.shape m.dim sub
  return parts.length / (← m.shape.corners sub)

namespace Box

variable {cells : GridPoint}

namespace Pattern

variable {P : Pattern}

/-- The different forms of the parts. -/
def forms (P : Pattern) : List (Finset GridPoint) :=
  (P.indices.map fun f => form (P.part f)).dedup

/-- A form of a part is found wherever there is room for it in the cell. -/
def Periodic (P : Pattern) : Prop :=
  ∀ f ∈ P.indices, ∀ o ∈ places P.extent (span (form (P.part f))),
    ∃ g ∈ P.indices, lowest (P.part g) = o ∧ form (P.part g) = form (P.part f)

/-- The places in a grid that have room for the forms of the parts. -/
def blocks (P : Pattern) (cells : GridPoint) : List (GridPoint × Finset GridPoint) :=
  P.forms.flatMap fun K => (places cells (span K)).map (·, K)

theorem mem_forms {K : Finset GridPoint} :
    K ∈ P.forms ↔ ∃ f ∈ P.indices, form (P.part f) = K := by
  rw [forms, List.mem_dedup, List.mem_map]

theorem mem_blocks {x : GridPoint × Finset GridPoint} :
    x ∈ P.blocks cells ↔ x.2 ∈ P.forms ∧ x.1 + span x.2 ≤ cells := by
  obtain ⟨base, K⟩ := x
  simp only [blocks, List.mem_flatMap, List.mem_map, mem_places, Prod.mk.injEq]
  constructor
  · rintro ⟨_, hK, _, hbase, rfl, rfl⟩
    exact ⟨hK, hbase⟩
  · rintro ⟨hK, hbase⟩
    exact ⟨K, hK, base, hbase, rfl, rfl⟩

theorem nodup_blocks (P : Pattern) (cells : GridPoint) : (P.blocks cells).Nodup := by
  refine nodup_flatMap_of_key Prod.snd (List.nodup_dedup _) (fun K _ => ?_) fun K _ x hx => ?_
  · exact (nodup_places _ _).map fun _ _ h => (Prod.ext_iff.1 h).1
  · obtain ⟨_, -, rfl⟩ := List.mem_map.1 hx
    rfl

theorem length_blocks (P : Pattern) (cells : GridPoint) : (P.blocks cells).length =
    (P.forms.map fun K => (places cells (span K)).length).sum := by
  rw [blocks, List.length_flatMap]
  simp only [List.length_map]

namespace Fits

variable (h : P.Fits)

include h

theorem block_inj_of_mem {x y : GridPoint × Finset GridPoint} (hx : x ∈ P.blocks cells)
    (hy : y ∈ P.blocks cells) (hxy : block cells x.1 x.2 = block cells y.1 y.2) : x = y := by
  have hzero : ∀ K ∈ P.forms, 0 ∈ K := by
    intro K hK
    obtain ⟨f, hf, rfl⟩ := mem_forms.1 hK
    exact h.zero_mem hf
  obtain ⟨hx, hxroom⟩ := mem_blocks.1 hx
  obtain ⟨hy, hyroom⟩ := mem_blocks.1 hy
  exact Prod.ext_iff.2 ((block_inj (hzero _ hx) (hzero _ hy) hxroom hyroom).1 hxy)

/-- The vertices of the parts are the blocks that have room in the grid. -/
theorem exists_part_iff (hperiodic : P.Periodic) (hcells : P.extent ≤ cells) {s : Finset Nat} :
    (∃ part ∈ partList P.degree P.subDegree P.template (P.elements cells), part.toFinset = s) ↔
      ∃ x ∈ P.blocks cells, block cells x.1 x.2 = s := by
  constructor
  · rintro ⟨part, hpart, rfl⟩
    obtain ⟨c, hc, f, hf, rfl⟩ := h.mem_partList_iff.1 hpart
    exact ⟨(c + lowest (P.part f), form (P.part f)),
      mem_blocks.2 ⟨mem_forms.2 ⟨f, hf, rfl⟩, h.add_span_le hc hf⟩,
      (toFinset_map_number ..).symm⟩
  · rintro ⟨⟨base, K⟩, hx, rfl⟩
    obtain ⟨hK, hbase⟩ := mem_blocks.1 hx
    obtain ⟨f, hf, rfl⟩ := mem_forms.1 hK
    -- the cell around the block that is as high as possible
    obtain ⟨c, hc, hroom, ho⟩ := exists_cell_around hcells hbase (h.span_le hf)
    obtain ⟨g, hg, hlowest, hform⟩ := hperiodic f hf (base - c) (mem_places.2 ho)
    refine ⟨_, h.mem_partList_iff.2 ⟨c, mem_places.2 hroom, g, hg, rfl⟩, ?_⟩
    rw [toFinset_map_number, hlowest, hform, add_tsub_cancel_of_le hc]

/-- Parts with different vertices are counted by the places of their forms. -/
theorem length_of_enumerates (hperiodic : P.Periodic) (hcells : P.extent ≤ cells)
    {records : List (List Nat)} (hrecords : Enumerates
      (partList P.degree P.subDegree P.template (P.elements cells)) records) :
    records.length = (P.forms.map fun K => (places cells (span K)).length).sum := by
  rw [← length_blocks]
  have hperm : (records.map List.toFinset).Perm
      ((P.blocks cells).map fun x => block cells x.1 x.2) := by
    refine (List.perm_ext_iff_of_nodup ?_ ?_).2 fun s => ?_
    · exact List.pairwise_map.2 hrecords.distinct
    · exact (nodup_blocks P cells).map_on fun x hx y hy hxy => h.block_inj_of_mem hx hy hxy
    · rw [List.mem_map, hrecords.covers, h.exists_part_iff hperiodic hcells, List.mem_map]
  simpa using hperm.length_eq

end Fits

end Pattern

/-! ## Edges, squares and cells of a grid -/

/-- The number of blocks of some extents in a grid. -/
def blockCount (cells : GridPoint) (extents : List GridPoint) : Nat :=
  (extents.map fun extent => (places cells extent).length).sum

/-- The edges of a grid are blocks of one step along an axis. -/
def edgeExtents : List GridPoint := [(1, 0, 0), (0, 1, 0), (0, 0, 1)]

/-- The squares of a grid are blocks of one step along two axes. -/
def squareExtents : List GridPoint := [(1, 1, 0), (1, 0, 1), (0, 1, 1)]

/-- The number of edges of a grid along `x`, `y` and `z`. -/
def gridEdges (cells : GridPoint) : Nat :=
  cells.1 * (cells.2.1 + 1) * (cells.2.2 + 1) + (cells.1 + 1) * cells.2.1 * (cells.2.2 + 1) +
    (cells.1 + 1) * (cells.2.1 + 1) * cells.2.2

/-- The number of squares of a grid across `z`, `y` and `x`. -/
def gridSquares (cells : GridPoint) : Nat :=
  cells.1 * cells.2.1 * (cells.2.2 + 1) + cells.1 * (cells.2.1 + 1) * cells.2.2 +
    (cells.1 + 1) * cells.2.1 * cells.2.2

/-- The number of cubes of a grid. -/
def gridCubes (cells : GridPoint) : Nat := cells.1 * cells.2.1 * cells.2.2

theorem blockCount_edgeExtents (cells : GridPoint) :
    blockCount cells edgeExtents = gridEdges cells := by
  simp [blockCount, edgeExtents, length_places, gridEdges, Nat.add_assoc]

theorem blockCount_squareExtents (cells : GridPoint) :
    blockCount cells squareExtents = gridSquares cells := by
  simp [blockCount, squareExtents, length_places, gridSquares, Nat.add_assoc]

theorem blockCount_cube (cells : GridPoint) : blockCount cells [(1, 1, 1)] = gridCubes cells := by
  simp [blockCount, length_places, gridCubes]

theorem blockCount_append (cells : GridPoint) (extents others : List GridPoint) :
    blockCount cells (extents ++ others) = blockCount cells extents + blockCount cells others := by
  rw [blockCount, List.map_append, List.sum_append, blockCount, blockCount]

/-- The extents of the parts of dimension `sub` in a box of `dim` dimensions. Simplices have
    diagonals of the squares and the cubes, too. -/
def partExtents : Shape → (dim sub : Nat) → List GridPoint
  | .hypercube, 2, _ => [(1, 0, 0), (0, 1, 0)]
  | .simplex, 2, _ => [(1, 0, 0), (0, 1, 0), (1, 1, 0)]
  | .hypercube, _, 1 => edgeExtents
  | .hypercube, _, _ => squareExtents
  | .simplex, _, 1 => edgeExtents ++ squareExtents ++ [(1, 1, 1)]
  | .simplex, _, _ => squareExtents ++ squareExtents ++ List.replicate 6 (1, 1, 1)

theorem proper_cases {dim sub : Nat} (hsub : 0 < sub) (h : sub < dim) (hdim : dim = 2 ∨ dim = 3) :
    dim = 2 ∧ sub = 1 ∨ dim = 3 ∧ sub = 1 ∨ dim = 3 ∧ sub = 2 := by omega

section

variable (shape : Shape) {dim sub : Nat} (hsub : 0 < sub) (h : sub < dim)
  (hdim : dim = 2 ∨ dim = 3)

include hsub h hdim

theorem spans_perm :
    ((cellPattern shape dim sub).forms.map span).Perm (partExtents shape dim sub) := by
  rcases proper_cases hsub h hdim with ⟨rfl, rfl⟩ | ⟨rfl, rfl⟩ | ⟨rfl, rfl⟩ <;> cases shape <;>
    decide +kernel

theorem periodic_cellPattern : (cellPattern shape dim sub).Periodic := by
  rw [Pattern.Periodic]
  rcases proper_cases hsub h hdim with ⟨rfl, rfl⟩ | ⟨rfl, rfl⟩ | ⟨rfl, rfl⟩ <;> cases shape <;>
    decide +kernel

end

/-! ## Counts of a box -/

variable {α : Type} [Scalar α] {b : Box α} {m : FlatMesh α}

/-- A box has as many parts as there are blocks of their extents in the grid. -/
theorem partCount_layout (hx : 0 < b.nx) (hy : 0 < b.ny) (sub : Nat) (hsub : 0 < sub)
    (h : sub < b.dim) :
    b.layout.partCount sub = .ok (blockCount b.cells (partExtents b.shape b.dim sub)) := by
  have hbetween := between_cellPattern b.shape hsub h.le b.dim_eq
  have hfits := fits_cellPattern b.shape hsub h.le b.dim_eq
  have hperiodic := periodic_cellPattern b.shape hsub h b.dim_eq
  have hcount := (spans_perm b.shape hsub h b.dim_eq).map fun e => (places b.cells e).length
  have hwhole : b.layout.elements.length % (cellPattern b.shape b.dim sub).degree = 0 :=
    (congrArg (· % _) (hfits.length_elements b.cells)).trans (Nat.mul_mod_left _ _)
  obtain ⟨records, hskeleton, hlength, hrecords⟩ :=
    (hbetween.skeletonLaw b.layout.elements).enumerates hwhole fun part hpart =>
      hfits.nodup_of_mem_partList hpart
  have hnumber := hfits.length_of_enumerates hperiodic (extent_le_cells hx hy) hrecords
  have hsum := hcount.sum_eq
  rw [List.map_map] at hsum
  rw [FlatMesh.partCount]
  refine (bind_of_ok hskeleton _).trans ((bind_of_ok hbetween.corners_sub _).trans ?_)
  rw [length_flatten_of_width hlength, Nat.mul_div_cancel _ hbetween.sub_pos, hnumber]
  exact congrArg Except.ok hsum

theorem elementCount_layout (b : Box α) : b.layout.elementCount =
    (places b.cells (cellExtent b.dim)).length * (cellPattern b.shape b.dim 1).size := by
  have hbetween := between_cellPattern b.shape Nat.one_pos b.dim_pos b.dim_eq
  have hfits := fits_cellPattern b.shape Nat.one_pos b.dim_pos b.dim_eq
  rw [FlatMesh.elementCount, show b.layout.shape.corners b.layout.dim = _ from hbetween.corners_dim]
  exact Nat.div_eq_of_eq_mul_left hbetween.degree_pos (hfits.length_elements b.cells)

/-- The counts of a box in three dimensions: `V` vertices, `E` edges, `F` faces and `C` elements. -/
structure SolidCounts (b : Box α) (m : FlatMesh α) (V E F C : Nat) : Prop where
  vertices : m.vertexCount = .ok V
  edges : m.partCount 1 = .ok E
  faces : m.partCount 2 = .ok F
  elements : m.elementCount = C
  vertices_eq : V = (b.nx + 1) * (b.ny + 1) * (b.nz + 1)
  /-- A simplicial box has a diagonal for each square, and one for each cube. -/
  edges_eq : E = match b.shape with
    | .hypercube => gridEdges b.cells
    | .simplex => gridEdges b.cells + gridSquares b.cells + gridCubes b.cells
  /-- Each square is cut into two triangles, and six more triangles are within each cube. -/
  faces_eq : F = match b.shape with
    | .hypercube => gridSquares b.cells
    | .simplex => 2 * gridSquares b.cells + 6 * gridCubes b.cells
  elements_eq : C = match b.shape with
    | .hypercube => gridCubes b.cells
    | .simplex => 6 * gridCubes b.cells
  euler : (V : ℤ) - E + F - C = 1

/-- The counts of a flat box: `V` vertices, `E` edges and `C` elements. -/
structure FlatCounts (b : Box α) (m : FlatMesh α) (V E C : Nat) : Prop where
  vertices : m.vertexCount = .ok V
  edges : m.partCount 1 = .ok E
  elements : m.elementCount = C
  vertices_eq : V = (b.nx + 1) * (b.ny + 1)
  /-- A simplicial box has a diagonal for each cell. -/
  edges_eq : E = match b.shape with
    | .hypercube => gridEdges b.cells
    | .simplex => gridEdges b.cells + b.nx * b.ny
  elements_eq : C = match b.shape with
    | .hypercube => b.nx * b.ny
    | .simplex => 2 * (b.nx * b.ny)
  euler : (V : ℤ) - E + C = 1

theorem blockCount_solidEdges (shape : Shape) (cells : GridPoint) :
    blockCount cells (partExtents shape 3 1) = match shape with
      | .hypercube => gridEdges cells
      | .simplex => gridEdges cells + gridSquares cells + gridCubes cells := by
  cases shape with
  | hypercube => exact blockCount_edgeExtents cells
  | simplex =>
    simp only [partExtents, blockCount_append, blockCount_edgeExtents, blockCount_squareExtents,
      blockCount_cube]

theorem blockCount_solidFaces (shape : Shape) (cells : GridPoint) :
    blockCount cells (partExtents shape 3 2) = match shape with
      | .hypercube => gridSquares cells
      | .simplex => 2 * gridSquares cells + 6 * gridCubes cells := by
  cases shape with
  | hypercube => exact blockCount_squareExtents cells
  | simplex =>
    have hcubes : blockCount cells (List.replicate 6 (1, 1, 1)) = 6 * gridCubes cells := by
      rw [blockCount, List.map_replicate, List.sum_replicate_nat, ← blockCount_cube]
      rfl
    simp only [partExtents, blockCount_append, blockCount_squareExtents, hcubes, Nat.two_mul]

theorem blockCount_flatEdges (shape : Shape) (nx ny : Nat) :
    blockCount (nx, ny, 0) (partExtents shape 2 1) = match shape with
      | .hypercube => gridEdges (nx, ny, 0)
      | .simplex => gridEdges (nx, ny, 0) + nx * ny := by
  cases shape <;> simp [blockCount, partExtents, length_places, gridEdges, Nat.add_assoc]

theorem euler_grid (cells : GridPoint) :
    ((cells.1 + 1) * (cells.2.1 + 1) * (cells.2.2 + 1) : ℤ) - gridEdges cells + gridSquares cells -
      gridCubes cells = 1 := by
  rw [gridEdges, gridSquares, gridCubes]
  push_cast
  ring

theorem euler_flat (nx ny : Nat) :
    ((nx + 1) * (ny + 1) : ℤ) - gridEdges (nx, ny, 0) + nx * ny = 1 := by
  rw [gridEdges]
  push_cast
  ring

omit [Scalar α] in
theorem dim_eq_three (hz : 0 < b.nz) : b.dim = 3 := if_neg (Nat.ne_of_gt hz)

omit [Scalar α] in
theorem dim_eq_two (hz : b.nz = 0) : b.dim = 2 := if_pos hz

theorem elementCount_solid (hz : 0 < b.nz) : b.layout.elementCount = match b.shape with
    | .hypercube => gridCubes b.cells
    | .simplex => 6 * gridCubes b.cells := by
  have hcubes : (places b.cells (cellExtent 3)).length = gridCubes b.cells := by
    rw [length_places, gridCubes]
    rfl
  rw [elementCount_layout, dim_eq_three hz, hcubes]
  cases b.shape with
  | hypercube => exact Nat.mul_one _
  | simplex => exact Nat.mul_comm _ _

theorem elementCount_flat (hz : b.nz = 0) : b.layout.elementCount = match b.shape with
    | .hypercube => b.nx * b.ny
    | .simplex => 2 * (b.nx * b.ny) := by
  have hsquares : (places b.cells (cellExtent 2)).length = b.nx * b.ny := by
    rw [length_places, cells, hz]
    exact Nat.mul_one _
  rw [elementCount_layout, dim_eq_two hz, hsquares]
  cases b.shape with
  | hypercube => exact Nat.mul_one _
  | simplex => exact Nat.mul_comm _ _

theorem solidCounts_layout (hx : 0 < b.nx) (hy : 0 < b.ny) (hz : 0 < b.nz) :
    ∃ V E F C, SolidCounts b b.layout V E F C := by
  have hdim := dim_eq_three hz
  have hedges := partCount_layout hx hy 1 (by decide) (by rw [hdim]; decide)
  have hfaces := partCount_layout hx hy 2 (by decide) (by rw [hdim]; decide)
  rw [hdim, blockCount_solidEdges] at hedges
  rw [hdim, blockCount_solidFaces] at hfaces
  refine ⟨_, _, _, _, vertexCount_layout b, hedges, hfaces, elementCount_solid hz, rfl, rfl, rfl,
    rfl, ?_⟩
  have heuler := euler_grid b.cells
  rw [cells] at heuler ⊢
  cases b.shape <;> push_cast at heuler ⊢ <;> linarith

theorem flatCounts_layout (hx : 0 < b.nx) (hy : 0 < b.ny) (hz : b.nz = 0) :
    ∃ V E C, FlatCounts b b.layout V E C := by
  have hdim := dim_eq_two hz
  have hcells : b.cells = (b.nx, b.ny, 0) := by rw [cells, hz]
  have hvertices := vertexCount_layout b
  have hedges := partCount_layout hx hy 1 (by decide) (by rw [hdim]; decide)
  rw [hz, Nat.mul_one] at hvertices
  rw [hdim, hcells, blockCount_flatEdges] at hedges
  refine ⟨_, _, _, hvertices, hedges, elementCount_flat hz, rfl, hcells ▸ rfl, rfl, ?_⟩
  have heuler := euler_flat b.nx b.ny
  cases b.shape <;> push_cast <;> linarith

/-- A box with cells along `x` and `y` has a mesh exactly if it can be built, and the mesh has as
    many vertices, edges, faces and elements as the grid tells. -/
theorem mesh_counts (b : Box α) (hx : 0 < b.nx) (hy : 0 < b.ny) :
    ((∃ m, b.mesh = .ok m) ↔ b.Buildable) ∧ ∀ m, b.mesh = .ok m →
      (0 < b.nz → ∃ V E F C, SolidCounts b m V E F C) ∧
        (b.nz = 0 → ∃ V E C, FlatCounts b m V E C) := by
  refine ⟨exists_mesh_iff hx hy, fun m hm => ?_⟩
  obtain ⟨-, rfl⟩ := (mesh_eq_ok_iff hx hy).1 hm
  exact ⟨solidCounts_layout hx hy, flatCounts_layout hx hy⟩

/-- Twelve tetrahedra in two cubes have 33 edges and 34 faces. -/
theorem mesh_counts_twoCubes : (0 < (twoCubes .simplex).nx ∧ 0 < (twoCubes .simplex).ny) ∧
    ∃ m, (twoCubes .simplex).mesh = .ok m ∧ SolidCounts (twoCubes .simplex) m 12 33 34 12 := by
  refine ⟨by decide, ?_⟩
  obtain ⟨hiff, hcounts⟩ := mesh_counts (twoCubes .simplex) (by decide) (by decide)
  obtain ⟨m, hm⟩ := hiff.2 (buildable_twoCubes .simplex)
  obtain ⟨V, E, F, C, h⟩ := (hcounts m hm).1 (by decide)
  obtain rfl : V = 12 := h.vertices_eq
  obtain rfl : E = 33 := h.edges_eq
  obtain rfl : F = 34 := h.faces_eq
  obtain rfl : C = 12 := h.elements_eq
  exact ⟨m, hm, h⟩

end Box

end SharedMesh
