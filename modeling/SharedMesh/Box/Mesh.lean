import SharedMesh.Record.Rows
import SharedMesh.Scalar.Basic
import SharedMesh.Shape

/-!
# Box meshes

A box from the origin, cut into equal cells along each axis. Without cells along
`y` it is a chain of segments, without cells along `z` a flat grid. A cubical mesh
has the cells as its elements. In a simplicial mesh every square is split along a
diagonal into two triangles, and every cube into the six tetrahedra around a
diagonal of the cube, all oriented alike.

Vertices are numbered along `x` first, then along `y`, then along `z`.
-/

namespace SharedMesh

/-- A mesh on one rank: vertices with coordinates, and elements as lists of
    vertices. -/
structure FlatMesh (α : Type) where
  shape : Shape
  dim : Nat
  /-- The vertices of the elements, one element after the other. -/
  elements : List Nat
  /-- The coordinates of the vertices, `dim` each. -/
  coords : List α
deriving DecidableEq, Repr

/-- The sides of a box, and the number of cells along each. -/
structure Box (α : Type) where
  shape : Shape
  sides : Vec3 α
  nx : Nat
  ny : Nat
  nz : Nat
deriving DecidableEq, Repr

namespace Box

/-- The corners of the six tetrahedra that share the diagonal from corner `0` to
    corner `6` of a cube. -/
def cubeTetrahedra : List (List Nat) :=
  [[0, 1, 2, 6], [0, 5, 1, 6], [0, 2, 3, 6], [0, 3, 7, 6], [0, 4, 5, 6], [0, 7, 4, 6]]

/-- The corners of the two triangles that share the diagonal from corner `0` to
    corner `2` of a square. -/
def squareTriangles : List (List Nat) := [[0, 1, 2], [0, 2, 3]]

/-- The elements of a cell given by its corners, by the templates of its simplices. -/
def split (shape : Shape) (simplices : List (List Nat)) (cell : List Nat) : List Nat :=
  match shape with
  | .simplex => simplices.flatMap fun slots => slots.filterMap (cell[·]?)
  | .hypercube => cell

/-- The vertex at the given steps along the axes. -/
def vertex (nx ny i j k : Nat) : Nat :=
  k * ((nx + 1) * (ny + 1)) + j * (nx + 1) + i

/-- The corners of a square, around it. -/
def squareCorners (nx ny i j : Nat) : List Nat :=
  [vertex nx ny i j 0, vertex nx ny (i + 1) j 0, vertex nx ny (i + 1) (j + 1) 0,
    vertex nx ny i (j + 1) 0]

/-- The corners of a cube: around its lower square, then around its upper one. -/
def cubeCorners (nx ny i j k : Nat) : List Nat :=
  [vertex nx ny i j k, vertex nx ny (i + 1) j k, vertex nx ny (i + 1) (j + 1) k,
    vertex nx ny i (j + 1) k, vertex nx ny i j (k + 1), vertex nx ny (i + 1) j (k + 1),
    vertex nx ny (i + 1) (j + 1) (k + 1), vertex nx ny i (j + 1) (k + 1)]

/-- The elements of a chain of `nx` segments. -/
def chainElements (nx : Nat) : List Nat :=
  (List.range nx).flatMap fun i => [i, i + 1]

/-- The elements of a flat grid. -/
def gridElements (shape : Shape) (nx ny : Nat) : List Nat :=
  (List.range ny).flatMap fun j => (List.range nx).flatMap fun i =>
    split shape squareTriangles (squareCorners nx ny i j)

/-- The elements of a box of cubes. -/
def cubeElements (shape : Shape) (nx ny nz : Nat) : List Nat :=
  (List.range nz).flatMap fun k => (List.range ny).flatMap fun j =>
    (List.range nx).flatMap fun i => split shape cubeTetrahedra (cubeCorners nx ny i j k)

variable {α : Type} [Scalar α]

/-- The coordinates of the lines across an axis with `n` cells of equal size. -/
def ticks (side : α) (n : Nat) : List α :=
  let step := side / Scalar.ofNat n
  (List.range (n + 1)).map fun i => step * Scalar.ofNat i

/-- Checks that the coordinates of the vertices can be listed. A coordinate takes
    eight bytes. -/
def checkVertices (b : Box α) : Checked Unit :=
  let lines := b.nx + 1
  if b.ny = 0 then checkRoom lines 8
  else if b.nz = 0 then checkRoom (2 * lines * (b.ny + 1)) 8
  else checkRoom (3 * lines * (b.ny + 1) * (b.nz + 1)) 8

/-- Checks that the corners of the elements can be listed. A corner takes a word. -/
def checkElements (b : Box α) : Checked Unit :=
  if b.ny = 0 then checkRoom (2 * b.nx) 8
  else if b.nz = 0 then
    checkRoom ((split b.shape squareTriangles (List.range 4)).length * (b.nx * b.ny)) 8
  else
    checkRoom ((split b.shape cubeTetrahedra (List.range 8)).length * (b.nx * b.ny * b.nz)) 8

/-- The mesh of a box. There is at least one cell along `x`, and the sides are
    finite and not negative. -/
def mesh (b : Box α) : Checked (FlatMesh α) := do
  if b.nx = 0 then throw (.geometry .noCells)
  if b.sides.toList.any fun s => !Scalar.isFinite s || Scalar.lt s Scalar.zero then
    throw (.geometry .badSides)
  b.checkVertices
  b.checkElements
  let xs := ticks b.sides.x b.nx
  if b.ny = 0 then
    return { shape := b.shape, dim := 1, elements := chainElements b.nx, coords := xs }
  let ys := ticks b.sides.y b.ny
  if b.nz = 0 then
    return {
      shape := b.shape, dim := 2, elements := gridElements b.shape b.nx b.ny
      coords := ys.flatMap fun y => xs.flatMap fun x => [x, y] }
  let zs := ticks b.sides.z b.nz
  return {
    shape := b.shape, dim := 3, elements := cubeElements b.shape b.nx b.ny b.nz
    coords := zs.flatMap fun z => ys.flatMap fun y => xs.flatMap fun x => [x, y, z] }

end Box

end SharedMesh
