import SharedMesh.Box.Mesh
import SharedMesh.Curve.Order
import SharedMesh.Record.Arrange

/-!
# Meshes along the Hilbert curve

`FlatMesh.alongCurve` renumbers the vertices of a mesh in the order in which the
Hilbert curve visits them, and then lists the elements in the order in which it
visits their centroids. The mesh stays the same up to names: entities that are
close in space become close in memory.
-/

namespace SharedMesh.FlatMesh

variable {α : Type} [Scalar α]

/-- How many vertices there are. -/
def vertexCount (m : FlatMesh α) : Checked Nat :=
  if m.dim = 0 then .error (.breach .zeroDivision) else .ok (m.coords.length / m.dim)

/-- How many elements there are. In a dimension without elements, every vertex of
    an element counts for one. -/
def elementCount (m : FlatMesh α) : Nat :=
  match m.shape.corners m.dim with
  | .ok degree => m.elements.length / degree
  | .error _ => m.elements.length

/-- The centroid of an element: the sum of its vertices' shares, in order. -/
def centroid (dim : Nat) (corners : List (List α)) : List α :=
  let degree := corners.length
  corners.foldl (fun sum x => Scalar.addEach sum (x.map (· / Scalar.ofNat degree)))
    (List.replicate dim Scalar.zero)

/-- The coordinates of the corners of an element, all of which are there. -/
def cornerCoords (vertices : Array (List α)) (element : List Nat) : Checked (List (List α)) :=
  element.mapM fun v =>
    match vertices[v]? with
    | some x => .ok x
    | none => .error (.breach .missingIndex)

/-- The mesh with its vertices, then its elements, numbered along the curve. -/
def alongCurve (m : FlatMesh α) : Checked (FlatMesh α) := do
  let degree ← m.shape.corners m.dim
  -- the vertices first, and the elements renamed after them
  let vertexOrder ← Hilbert.order m.dim m.coords
  let newNumber := (positions vertexOrder).toArray
  let vertices := arranged (rows m.dim m.coords) vertexOrder
  let renamed ← m.elements.mapM fun v =>
    match newNumber[v]? with
    | some new => .ok new
    | none => .error (.breach .missingIndex)
  let elements := rows degree renamed
  -- then the elements, by the centroids of their renamed vertices
  let corners ← elements.mapM (cornerCoords vertices.toArray)
  let elementOrder ← Hilbert.order m.dim (corners.flatMap (centroid m.dim))
  return { m with
    elements := (arranged elements elementOrder).flatten
    coords := vertices.flatten }

end SharedMesh.FlatMesh
