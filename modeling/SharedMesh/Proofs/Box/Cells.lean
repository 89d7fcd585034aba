import SharedMesh.Box.Renumber
import SharedMesh.Proofs.Box.Grid
import SharedMesh.Proofs.Checked
import SharedMesh.Proofs.Scalar.Exact
import SharedMesh.Proofs.Shares

/-!
# The cells of a box

The elements of a box are those of one cell, repeated in every cell of the grid (`tiling`). A box
with cells along `x` and `y` has a mesh if its sides are finite and not negative and there is room
for its vertices and elements (`mesh_eq_ok_iff`), and then the mesh is the `layout` of the box: its
vertices are the points of the grid, each at its own number (`recordAt_coords`), and its elements
are a tiling.
-/

namespace SharedMesh.Box

/-- The steps from the lowest corner of a cell to each of its corners. -/
def cornerPoint : Nat → GridPoint
  | 0 => (0, 0, 0)
  | 1 => (1, 0, 0)
  | 2 => (1, 1, 0)
  | 3 => (0, 1, 0)
  | 4 => (0, 0, 1)
  | 5 => (1, 0, 1)
  | 6 => (1, 1, 1)
  | _ => (0, 1, 1)

/-- The elements of a grid whose cells all have the same elements, given by corners. -/
def tiling (cells extent : GridPoint) (slots : List Nat) : List Nat :=
  (places cells extent).flatMap fun c => slots.map fun s => number cells (c + cornerPoint s)

/-- The extent of the cells in a box of two or three dimensions. -/
def cellExtent (dim : Nat) : GridPoint := if dim = 2 then (1, 1, 0) else (1, 1, 1)

/-- The elements of a cell, by its corners. -/
def cellSlots (shape : Shape) (dim : Nat) : List Nat :=
  if dim = 2 then split shape squareTriangles (List.range 4)
  else split shape cubeTetrahedra (List.range 8)

theorem split_map (shape : Shape) (simplices : List (List Nat)) (f : Nat → Nat) (cell : List Nat) :
    split shape simplices (cell.map f) = (split shape simplices cell).map f := by
  cases shape with
  | simplex => simp only [split, List.getElem?_map, List.map_flatMap, List.map_filterMap]
  | hypercube => rfl

theorem squareCorners_eq (nx ny i j : Nat) : squareCorners nx ny i j =
    (List.range 4).map fun s => number (nx, ny, 0) ((i, j, 0) + cornerPoint s) := rfl

theorem cubeCorners_eq (nx ny nz i j k : Nat) : cubeCorners nx ny i j k =
    (List.range 8).map fun s => number (nx, ny, nz) ((i, j, k) + cornerPoint s) := rfl

theorem gridElements_eq_tiling (shape : Shape) (nx ny : Nat) :
    gridElements shape nx ny = tiling (nx, ny, 0) (cellExtent 2) (cellSlots shape 2) := by
  have hflat : places (nx, ny, 0) (cellExtent 2) = (List.range ny).flatMap fun j =>
      (List.range nx).map fun i => (i, j, 0) := List.flatMap_singleton _ _
  simp only [gridElements, squareCorners_eq, split_map, tiling, hflat, List.flatMap_assoc,
    List.flatMap_map, cellSlots, if_true]

theorem cubeElements_eq_tiling (shape : Shape) (nx ny nz : Nat) :
    cubeElements shape nx ny nz = tiling (nx, ny, nz) (cellExtent 3) (cellSlots shape 3) := by
  have hplaces : places (nx, ny, nz) (cellExtent 3) = (List.range nz).flatMap fun k =>
      (List.range ny).flatMap fun j => (List.range nx).map fun i => (i, j, k) := rfl
  simp only [cubeElements, cubeCorners_eq _ _ nz, split_map, tiling, hplaces, List.flatMap_assoc,
    List.flatMap_map, cellSlots]
  rfl

/-! ## Points in the order of their numbers -/

/-- Of records that are listed item by item, the record of an item is found at its position. -/
theorem recordAt_flatMap {α β : Type} {f : α → List β} {width : Nat} {xs : List α}
    (h : ∀ x ∈ xs, (f x).length = width) {i : Nat} {x : α} (hx : xs[i]? = some x) :
    recordAt width (xs.flatMap f) i = f x := by
  induction xs generalizing i with
  | nil => cases hx
  | cons y ys ih =>
    have hfirst := h y List.mem_cons_self
    cases i with
    | zero =>
      cases hx
      rw [recordAt, Nat.zero_mul, List.drop_zero, List.flatMap_cons, List.take_left' hfirst]
    | succ i =>
      rw [← ih (fun z hz => h z (List.mem_cons_of_mem _ hz)) hx, recordAt, Nat.succ_mul,
        Nat.add_comm, ← List.drop_drop, List.flatMap_cons, List.drop_left' hfirst, recordAt]

theorem flatMap_range_mul_add (n b : Nat) :
    ((List.range n).flatMap fun a => (List.range b).map fun c => a * b + c) =
      List.range (n * b) := by
  induction n with
  | zero => simp
  | succ n ih => rw [List.range_succ, List.flatMap_append, ih, List.flatMap_singleton,
      Nat.succ_mul, List.range_add]

/-- The points of a grid, in order, have the numbers from zero on. -/
theorem map_number_places (cells : GridPoint) : (places cells 0).map (number cells) =
    List.range ((cells.2.2 + 1) * (cells.2.1 + 1) * (cells.1 + 1)) := by
  rw [← flatMap_range_mul_add, ← flatMap_range_mul_add]
  simp only [places, List.map_flatMap, List.map_map, Function.comp_def, number_eq,
    List.flatMap_assoc, List.flatMap_map]
  rfl

theorem places_zero (cells : GridPoint) : places cells 0 =
    (List.range ((cells.1 + 1) * (cells.2.1 + 1) * (cells.2.2 + 1))).map (pointOf cells) := by
  have hcount : (cells.1 + 1) * (cells.2.1 + 1) * (cells.2.2 + 1) =
    (cells.2.2 + 1) * (cells.2.1 + 1) * (cells.1 + 1) := by ac_rfl
  rw [hcount, ← map_number_places, List.map_map]
  refine (List.map_id _).symm.trans (List.map_congr_left fun p hp => ?_)
  exact (pointOf_number (mem_places.1 hp)).symm

/-! ## Meshes -/

variable {α : Type} [Scalar α] {b : Box α} {m : FlatMesh α}

/-- The number of dimensions, if there are cells along `x` and `y`. -/
def dim (b : Box α) : Nat := if b.nz = 0 then 2 else 3

/-- The number of cells along each axis. -/
def cells (b : Box α) : GridPoint := (b.nx, b.ny, b.nz)

/-- The coordinates of a point of the grid. -/
def coordinates (b : Box α) (p : GridPoint) : List α :=
  [b.sides.x / Scalar.ofNat b.nx * Scalar.ofNat p.1,
    b.sides.y / Scalar.ofNat b.ny * Scalar.ofNat p.2.1,
    b.sides.z / Scalar.ofNat b.nz * Scalar.ofNat p.2.2].take b.dim

/-- The points of the grid, and the elements of its cells. -/
def layout (b : Box α) : FlatMesh α where
  shape := b.shape
  dim := b.dim
  elements := tiling b.cells (cellExtent b.dim) (cellSlots b.shape b.dim)
  coords := (places b.cells 0).flatMap b.coordinates

/-- How many cells there are, if there are cells along `x` and `y`. -/
def cellCount (b : Box α) : Nat := b.nx * b.ny * if b.nz = 0 then 1 else b.nz

/-- The sides are finite and not negative, and the coordinates of the vertices and the corners of
    the elements fit in memory. -/
structure Buildable (b : Box α) : Prop where
  sides : ∀ side ∈ b.sides.toList,
    Scalar.isFinite side = true ∧ Scalar.lt side Scalar.zero = false
  vertex_room : b.dim * ((b.nx + 1) * (b.ny + 1) * (b.nz + 1)) * 8 < 2 ^ 63
  element_room : (cellSlots b.shape b.dim).length * b.cellCount * 8 < 2 ^ 63

theorem layout_eq (b : Box α) : b.layout =
    if b.nz = 0 then {
      shape := b.shape, dim := 2, elements := gridElements b.shape b.nx b.ny
      coords := (ticks b.sides.y b.ny).flatMap fun y => (ticks b.sides.x b.nx).flatMap fun x =>
        [x, y] }
    else {
      shape := b.shape, dim := 3, elements := cubeElements b.shape b.nx b.ny b.nz
      coords := (ticks b.sides.z b.nz).flatMap fun z => (ticks b.sides.y b.ny).flatMap fun y =>
        (ticks b.sides.x b.nx).flatMap fun x => [x, y, z] } := by
  by_cases hz : b.nz = 0
  · have hdim : b.dim = 2 := if_pos hz
    have hflat : places (b.nx, b.ny, 0) 0 = (List.range (b.ny + 1)).flatMap fun j =>
        (List.range (b.nx + 1)).map fun i => (i, j, 0) := List.flatMap_singleton _ _
    rw [if_pos hz, layout, hdim, gridElements_eq_tiling, cells, hz, hflat]
    simp only [ticks, coordinates, hdim, List.flatMap_assoc, List.flatMap_map]
    rfl
  · have hdim : b.dim = 3 := if_neg hz
    have hplaces : places b.cells 0 = (List.range (b.nz + 1)).flatMap fun k =>
        (List.range (b.ny + 1)).flatMap fun j =>
          (List.range (b.nx + 1)).map fun i => (i, j, k) := rfl
    rw [if_neg hz, layout, hdim, cubeElements_eq_tiling, hplaces]
    simp only [ticks, coordinates, hdim, List.flatMap_assoc, List.flatMap_map]
    rfl

omit [Scalar α] in
theorem checkVertices_eq (hy : 0 < b.ny) : b.checkVertices =
    checkRoom (b.dim * ((b.nx + 1) * (b.ny + 1) * (b.nz + 1))) 8 := by
  rw [checkVertices, dim, if_neg (Nat.ne_of_gt hy)]
  by_cases hz : b.nz = 0
  · rw [if_pos hz, if_pos hz, hz, Nat.mul_one, Nat.mul_assoc]
  · rw [if_neg hz, if_neg hz, Nat.mul_assoc, Nat.mul_assoc, Nat.mul_assoc]

omit [Scalar α] in
theorem checkElements_eq (hy : 0 < b.ny) : b.checkElements =
    checkRoom ((cellSlots b.shape b.dim).length * b.cellCount) 8 := by
  rw [checkElements, cellSlots, dim, cellCount, if_neg (Nat.ne_of_gt hy)]
  by_cases hz : b.nz = 0
  · rw [if_pos hz, if_pos hz, if_pos hz, if_pos rfl, Nat.mul_one]
  · rw [if_neg hz, if_neg hz, if_neg hz, if_neg (by decide)]

theorem mesh_eq (hx : 0 < b.nx) (hy : 0 < b.ny) : b.mesh =
    if b.sides.toList.any fun s => !Scalar.isFinite s || Scalar.lt s Scalar.zero then
      .error (.geometry .badSides)
    else b.checkVertices >>= fun _ => b.checkElements >>= fun _ => .ok b.layout := by
  simp only [mesh, layout_eq, if_neg (Nat.ne_of_gt hx), if_neg (Nat.ne_of_gt hy)]
  split
  · rfl
  · refine congrArg (b.checkVertices >>= ·) (funext fun _ => ?_)
    refine congrArg (b.checkElements >>= ·) (funext fun _ => ?_)
    split <;> rfl

theorem sides_iff : (∀ side ∈ b.sides.toList,
      Scalar.isFinite side = true ∧ Scalar.lt side Scalar.zero = false) ↔
    ¬(b.sides.toList.any fun s => !Scalar.isFinite s || Scalar.lt s Scalar.zero) = true := by
  simp

/-- A box has a mesh exactly if its sides are in order and there is room for its vertices and
    elements, and then the mesh is its layout. -/
theorem mesh_eq_ok_iff (hx : 0 < b.nx) (hy : 0 < b.ny) :
    b.mesh = .ok m ↔ b.Buildable ∧ m = b.layout := by
  rw [mesh_eq hx hy, checkVertices_eq hy, checkElements_eq hy]
  constructor
  · intro h
    split at h
    · cases h
    · next hsides =>
      obtain ⟨_, hvertices, h⟩ := bind_eq_ok h
      obtain ⟨_, helements, hm⟩ := bind_eq_ok h
      exact ⟨⟨sides_iff.2 hsides, lt_of_checkRoom hvertices, lt_of_checkRoom helements⟩,
        (Except.ok.inj hm).symm⟩
  · rintro ⟨h, rfl⟩
    rw [if_neg (sides_iff.1 h.sides), checkRoom_eq_ok h.vertex_room,
      checkRoom_eq_ok h.element_room]
    rfl

theorem exists_mesh_iff (hx : 0 < b.nx) (hy : 0 < b.ny) : (∃ m, b.mesh = .ok m) ↔ b.Buildable :=
  ⟨fun ⟨_, hm⟩ => ((mesh_eq_ok_iff hx hy).1 hm).1, fun h => ⟨_, (mesh_eq_ok_iff hx hy).2 ⟨h, rfl⟩⟩⟩

/-! ## Vertices -/

omit [Scalar α] in
theorem dim_pos (b : Box α) : 0 < b.dim := by
  rw [dim]
  split <;> decide

theorem length_coordinates (p : GridPoint) : (b.coordinates p).length = b.dim := by
  rw [coordinates, List.length_take]
  refine Nat.min_eq_left ?_
  rw [dim]
  split
  · exact Nat.le_succ 2
  · exact Nat.le_refl 3

theorem length_coords (b : Box α) :
    b.layout.coords.length = (b.nx + 1) * (b.ny + 1) * (b.nz + 1) * b.dim := by
  rw [layout, List.length_flatMap]
  simp only [length_coordinates, List.map_const', List.sum_replicate_nat, length_places]
  rfl

theorem vertexCount_layout (b : Box α) :
    b.layout.vertexCount = .ok ((b.nx + 1) * (b.ny + 1) * (b.nz + 1)) := by
  have hdim : b.layout.dim ≠ 0 := Nat.ne_of_gt b.dim_pos
  rw [FlatMesh.vertexCount, if_neg hdim, length_coords]
  exact congrArg Except.ok (Nat.mul_div_cancel _ b.dim_pos)

/-- The vertex with a number is located at the point with this number. -/
theorem recordAt_coords {v : Nat} (hv : v < (b.nx + 1) * (b.ny + 1) * (b.nz + 1)) :
    recordAt b.dim b.layout.coords v = b.coordinates (pointOf b.cells v) := by
  refine recordAt_flatMap (fun p _ => length_coordinates p) ?_
  rw [places_zero, List.getElem?_map]
  exact congrArg _ (List.getElem?_range hv)

/-- Two unit cubes side by side. -/
def twoCubes (shape : Shape) : Box Exact where
  shape := shape
  sides := ⟨.number 2, .number 1, .number 1⟩
  nx := 2
  ny := 1
  nz := 1

theorem buildable_twoCubes (shape : Shape) : (twoCubes shape).Buildable where
  sides := by
    have hsides : ∀ side ∈ [Exact.number 2, .number 1, .number 1],
        Scalar.isFinite side = true ∧ Scalar.lt side Scalar.zero = false := by decide +kernel
    exact hsides
  vertex_room := (by decide : 3 * (3 * 2 * 2) * 8 < 2 ^ 63)
  element_room := by cases shape <;> decide

end SharedMesh.Box
