import SharedMesh.Box.Mesh
import SharedMesh.Mesh.Slices

/-!
# Excerpts of a mesh

A rank that has a whole mesh keeps its share of the elements: as an *excerpt*, with the
vertices that these need numbered locally (`FlatMesh.excerpt`), or as a slice of the
elements and of the vertices, as a reader would hand it out (`FlatMesh.sliceFor`).
-/

namespace SharedMesh.FlatMesh

variable {α : Type}

/-- The values of the records of `width` values in a slice. -/
def sliceRecords {β : Type} (width : Nat) (slice : Slice) (values : List β) : List β :=
  (values.drop (slice.start * width)).take (slice.size * width)

/-- The elements of this rank, by local vertices, and the number of each local vertex in
    the whole mesh, ascending. -/
def excerpt (m : FlatMesh α) (seat : Seat) : Checked (List Nat × List Nat) := do
  let degree ← m.shape.corners m.dim
  let slice ← Shares.slice ⟨m.elements.length / degree, seat.size⟩ seat.rank
  return localize (sliceRecords degree slice m.elements)

/-- The slice of this rank. -/
def sliceFor (m : FlatMesh α) (seat : Seat) : Checked (MeshSlice α) := do
  let degree ← m.shape.corners m.dim
  let elementTotal := m.elements.length / degree
  let vertexTotal := m.coords.length / m.dim
  let elements ← Shares.slice ⟨elementTotal, seat.size⟩ seat.rank
  let vertices ← Shares.slice ⟨vertexTotal, seat.size⟩ seat.rank
  return {
    shape := m.shape, dim := m.dim, elementTotal, vertexTotal
    elementStart := elements.start
    elements := sliceRecords degree elements m.elements
    vertexStart := vertices.start
    coords := sliceRecords m.dim vertices m.coords }

end SharedMesh.FlatMesh
