import SharedMesh.Error

/-!
# Shapes

A mesh is made of segments, triangles and tetrahedra, or of segments,
quadrilaterals and hexahedra: its *shape* is simplicial or cubical. The shape says
how many corners an entity of a dimension has, and which corners span the edges
and faces that bound it. Faces are listed as cycles.
-/

namespace SharedMesh

-- Powers are those of core, also beside Mathlib.
attribute [local instance (high)] instPowNat

/-- The shape of a mesh's elements. -/
inductive Shape
  | simplex
  | hypercube
deriving DecidableEq, Repr, Inhabited

namespace Shape

/-- The corners of an entity of dimension `dim`, which is at most three. -/
def corners (shape : Shape) (dim : Nat) : Checked Nat :=
  if 3 < dim then .error (.dimension dim)
  else match shape with
    | simplex => .ok (dim + 1)
    | hypercube => .ok (2 ^ dim)

/-- The edges of a triangle. -/
def triangleEdges : List (List Nat) := [[0, 1], [1, 2], [2, 0]]

/-- The edges of a tetrahedron. -/
def tetrahedronEdges : List (List Nat) := [[0, 1], [1, 2], [2, 0], [0, 3], [1, 3], [2, 3]]

/-- The faces of a tetrahedron. -/
def tetrahedronFaces : List (List Nat) := [[0, 2, 1], [0, 1, 3], [1, 2, 3], [2, 0, 3]]

/-- The edges of a quadrilateral. -/
def quadrilateralEdges : List (List Nat) := [[0, 1], [1, 2], [2, 3], [3, 0]]

/-- The edges of a hexahedron. -/
def hexahedronEdges : List (List Nat) :=
  [[0, 1], [1, 2], [2, 3], [3, 0], [0, 4], [1, 5], [2, 6], [3, 7], [4, 5], [5, 6], [6, 7], [7, 4]]

/-- The faces of a hexahedron. -/
def hexahedronFaces : List (List Nat) :=
  [[1, 0, 3, 2], [0, 1, 5, 4], [1, 2, 6, 5], [2, 3, 7, 6], [3, 0, 4, 7], [4, 5, 6, 7]]

/-- The corners that span each part of dimension `sub` of an entity of dimension
    `dim`: the entity itself, its corners one by one, its edges or its faces. The
    corners are not grouped, as a part of a single corner needs no group. -/
def parts (shape : Shape) (dim sub : Nat) : Checked (List Nat) := do
  if sub = dim then return List.range (← shape.corners dim)
  else if sub = 0 ∧ dim ≤ 3 then return List.range (← shape.corners dim)
  else match shape, dim, sub with
    | simplex, 2, 1 => return triangleEdges.flatten
    | simplex, 3, 1 => return tetrahedronEdges.flatten
    | simplex, 3, 2 => return tetrahedronFaces.flatten
    | hypercube, 2, 1 => return quadrilateralEdges.flatten
    | hypercube, 3, 1 => return hexahedronEdges.flatten
    | hypercube, 3, 2 => return hexahedronFaces.flatten
    | _, _, _ => throw (.dimension (if dim < sub then sub else dim))

/-- How many parts of dimension `sub` bound an entity of dimension `dim`. -/
def partCount (shape : Shape) (dim sub : Nat) : Checked Nat := do
  if sub = 0 then shape.corners dim
  else
    let flat ← shape.parts dim sub
    return flat.length / (← shape.corners sub)

end Shape

end SharedMesh
