import SharedMesh.Bisection.Recursive
import SharedMesh.Shape

/-!
# Assembling a mesh from slices

A mesh that is read from a file reaches the ranks in slices: each has some of the
elements, given by global vertices, and the coordinates of some of the vertices, both
cut into shares. `assemble` partitions the elements by bisecting their centroids, moves
each to its rank, and fetches the coordinates of the vertices that are needed there.

Elements name vertices that other ranks hold, so coordinates are twice broadcast from
where they are held: once to the elements in their slices, once to where they went.
-/

namespace SharedMesh

/-- One number of an ascending list only, where it is repeated. -/
def dropRepeats : List Nat → List Nat
  | a :: b :: rest => if a = b then dropRepeats (b :: rest) else a :: dropRepeats (b :: rest)
  | short => short

/-- The numbers that occur in a list, ascending. -/
def occurring (numbers : List Nat) : List Nat :=
  dropRepeats (numbers.mergeSort (· ≤ ·))

/-- The positions of numbers among those that occur: global vertices as local ones. -/
def localize (numbers : List Nat) : List Nat × List Nat :=
  let present := occurring numbers
  (numbers.map fun g => present.idxOf g, present)

/-- What a rank has of a mesh in slices. -/
structure MeshSlice (α : Type) where
  shape : Shape
  dim : Nat
  /-- The number of elements in the whole mesh. -/
  elementTotal : Nat
  /-- The number of the first element of the slice. -/
  elementStart : Nat
  /-- The global vertices of the elements in the slice. -/
  elements : List Nat
  /-- The number of vertices in the whole mesh. -/
  vertexTotal : Nat
  /-- The number of the first vertex of the slice. -/
  vertexStart : Nat
  /-- The coordinates of the vertices in the slice. -/
  coords : List α
deriving Repr

/-- What a rank has of a mesh after it was partitioned. -/
structure Assembled (α : Type) where
  /-- The local vertices of the elements here. -/
  elements : List Nat
  /-- The global number of each local vertex, ascending. -/
  vertices : List Nat
  /-- The coordinates of the local vertices. -/
  coords : List α
  /-- Where the elements of the slice went. -/
  places : List Place
deriving Repr

/-- The number of records in a list, which holds whole ones. -/
def countSliced (what : Subject) (length width : Nat) : Checked Nat :=
  if width = 0 ∨ length % width ≠ 0 then
    .error (.shape what (length - length % Nat.max width 1) length)
  else .ok (length / width)

/-- Checks that a rank has the slice of its share. -/
def checkSlice (seat : Seat) (what : Subject) (total start count : Nat) : Checked Unit := do
  let expected ← Shares.slice ⟨total, seat.size⟩ seat.rank
  let stop ← word (start + count)
  if expected.start ≠ start ∨ expected.stop ≠ stop then
    throw (.slice what expected.start expected.stop start stop)

namespace MeshSlice

variable {α : Type}

/-- Checks the layout of a slice, and gives its numbers of elements and vertices. -/
def check (s : MeshSlice α) (seat : Seat) (degree : Nat) : Checked (Nat × Nat) := do
  let elementCount ← countSliced .slicedRecords s.elements.length degree
  let vertexCount ← countSliced .slicedCoordinates s.coords.length s.dim
  checkSlice seat .elements s.elementTotal s.elementStart elementCount
  checkSlice seat .vertices s.vertexTotal s.vertexStart vertexCount
  return (elementCount, vertexCount)

end MeshSlice

section

variable {κ α : Type} [Alphabet κ] [Layout κ α] [Scalar α] [AxisSolver α]

/-- The sum of the corners of an element, divided by their number, in three dimensions. -/
def meanCorner (corners : List (List α)) : List α :=
  let sum := corners.foldl (fun sum x =>
      Scalar.addEach sum x ++ sum.drop x.length) (List.replicate 3 Scalar.zero)
  sum.map (· / Scalar.ofNat corners.length)

/-- The coordinates of given vertices, from the ranks that hold their slices. -/
def fetchCoords (seat : Seat) (shares : Shares) (held dim : Nat) (coords : List α)
    (vertices : List Nat) : Proc κ (List α) := do
  let holders ← Proc.ofChecked (shares.holders vertices)
  let route ← Route.plan seat holders held
  route.reverse.broadcast seat dim coords

/-- Partitions the elements of a sliced mesh, and gives this rank its part. All ranks
    assemble together. -/
def assemble (seat : Seat) (settings : BisectionSettings α) (s : MeshSlice α) :
    Proc κ (Assembled α) := do
  if s.dim = 0 ∨ 3 < s.dim then throw (.dimension s.dim)
  let degree ← Proc.ofChecked (s.shape.corners s.dim)
  let (elementCount, vertexCount) ← allPass seat .sliceLayout (s.check seat degree)
  let shares ← Proc.ofChecked (Shares.deal s.vertexTotal seat.size)
  -- where the elements are, by the coordinates of their corners
  let cornerCoords ← fetchCoords seat shares vertexCount s.dim s.coords s.elements
  let corners := (rows (degree * s.dim) cornerCoords).map (rows s.dim)
  let masses : List α := List.replicate elementCount (Scalar.ofNat 1)
  let parts ← bisect seat settings (corners.flatMap meanCorner) masses
  -- the elements move to their parts, and send for their vertices there
  let toParts ← Route.plan seat parts.places parts.count
  let moved ← toParts.carryNumbers seat degree s.elements
  let (elements, vertices) := localize moved
  let coords ← fetchCoords seat shares vertexCount s.dim s.coords vertices
  return { elements, vertices, coords, places := parts.places }

end

end SharedMesh
