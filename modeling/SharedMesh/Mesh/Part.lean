import SharedMesh.Ownership.Number
import SharedMesh.Skeleton

/-!
# Parts of a mesh

A mesh is shared among ranks by its elements: each rank holds a *part*, some of the
elements with their vertices, edges and faces. What lies between two parts is held by
both. A part has one *layer* for each dimension, which lists its entities with their
vertices, their owners, and their numbers in the whole mesh.

`Part.build` makes a part from elements given by local vertices, and the global numbers
of these. Vertices keep their numbers; edges and faces are derived, brought into
canonical form, and numbered by ownership; elements are never shared. On a single rank
there are no other copies to agree with, so nothing has to be sent.
-/

namespace SharedMesh

/-- The entities of one dimension on one rank. -/
structure Layer where
  /-- The local vertices of the entities, one entity after the other. -/
  vertices : List Nat
  /-- The owner of each entity. -/
  owners : List Place
  /-- The global number of each entity. -/
  globals : List Nat
deriving DecidableEq, Repr

namespace Layer

/-- The number of entities. -/
def count (l : Layer) : Nat := l.owners.length

end Layer

/-- What one rank holds of a mesh. -/
structure Part where
  seat : Seat
  shape : Shape
  /-- The dimension of the elements. -/
  dim : Nat
  /-- The entities of each dimension, vertices first. -/
  layers : List Layer
deriving DecidableEq, Repr

namespace Part

/-- The entities of a dimension. -/
def layer (p : Part) (dim : Nat) : Checked Layer :=
  match p.layers[dim]? with
  | some l => .ok l
  | none => .error (.dimension dim)

/-- How many entities of a dimension there are. -/
def entityCount (p : Part) (dim : Nat) : Checked Nat := return (← p.layer dim).count

/-- How many vertices there are. -/
def vertexCount (p : Part) : Nat := (p.layers.head?.map Layer.count).getD 0

/-- How many elements there are. -/
def elementCount (p : Part) : Nat := (p.layers.getLast?.map Layer.count).getD 0

/-- Which entities of a layer this rank owns. -/
def owned (p : Part) (l : Layer) : List Bool := ownedMask p.seat l.owners

section Build

variable {κ : Type} [Alphabet κ]

/-- The layer of vertices with the given numbers, as the ranks agree on it. -/
def sharedVertices (seat : Seat) (numbers : List Nat) : Proc κ Layer := do
  let owners ← ownersOfNumbers seat numbers none .smallest
  return ⟨List.range numbers.length, owners, numbers⟩

/-- The layer of vertices with the given numbers, on a single rank. -/
def soleVertices (seat : Seat) (numbers : List Nat) : Checked Layer := do
  let owners ← soleOwners seat numbers.length
  return ⟨List.range numbers.length, owners, numbers⟩

/-- A layer of derived entities, as the ranks agree on it. -/
def sharedEntities (seat : Seat) (degree : Nat) (vertices numbers : List Nat) :
    Proc κ Layer := do
  let resolved ← resolveCopies seat numbers degree vertices .smallest
  let globals ← numberOwned seat resolved.owners
  return ⟨resolved.vertices, resolved.owners, globals⟩

/-- A layer of derived entities, on a single rank. -/
def soleEntities (seat : Seat) (degree : Nat) (vertices numbers : List Nat) :
    Checked Layer := do
  let canonical ← Canonical.ofRecords degree vertices numbers
  let owners ← soleOwners seat canonical.count
  return ⟨canonical.vertices, owners, List.range canonical.count⟩

/-- The layer of elements, as the ranks agree on it. -/
def sharedElements (seat : Seat) (degree : Nat) (vertices : List Nat) : Proc κ Layer := do
  let owners ← Proc.ofChecked (soleOwners seat (vertices.length / degree))
  let globals ← numberOwned seat owners
  return ⟨vertices, owners, globals⟩

/-- The layer of elements, on a single rank. -/
def soleElements (seat : Seat) (degree : Nat) (vertices : List Nat) : Checked Layer := do
  let owners ← soleOwners seat (vertices.length / degree)
  return ⟨vertices, owners, List.range (vertices.length / degree)⟩

/-- Checks the elements a part is built from, and gives their number of vertices. -/
def checkElements (shape : Shape) (dim : Nat) (vertices numbers : List Nat) :
    Checked Nat := do
  if dim = 0 then throw (.dimension dim)
  let degree ← shape.corners dim
  if vertices.length % degree ≠ 0 then
    throw (.connectivity (.brokenInput vertices.length degree))
  match vertices.find? fun v => numbers.length ≤ v with
  | some v => throw (.connectivity (.missingCorner v numbers.length))
  | none => return degree

/-- The layer of one dimension between vertices and elements. -/
def derivedLayer (seat : Seat) (shape : Shape) (dim : Nat) (vertices numbers : List Nat)
    (sub : Nat) : Proc κ Layer := do
  let records ← Proc.ofChecked (skeleton vertices shape dim sub)
  let degree ← Proc.ofChecked (shape.corners sub)
  if 1 < seat.size then sharedEntities seat degree records numbers
  else Proc.ofChecked (soleEntities seat degree records numbers)

/-- The layers of the given dimensions, in order. -/
def derivedLayers (seat : Seat) (shape : Shape) (dim : Nat) (vertices numbers : List Nat) :
    List Nat → Proc κ (List Layer)
  | [] => return []
  | sub :: rest => do
    let first ← derivedLayer seat shape dim vertices numbers sub
    return first :: (← derivedLayers seat shape dim vertices numbers rest)

/-- Builds the part of this rank from its elements. All ranks build together. -/
def build (seat : Seat) (shape : Shape) (dim : Nat) (vertices numbers : List Nat) :
    Proc κ Part := do
  let degree ← Proc.ofChecked (checkElements shape dim vertices numbers)
  -- the dimensions in ascending order, as every rank takes part in each
  let bottom ← if 1 < seat.size then sharedVertices seat numbers
    else Proc.ofChecked (soleVertices seat numbers)
  let between ← derivedLayers seat shape dim vertices numbers (List.range' 1 (dim - 1))
  let top ← if 1 < seat.size then sharedElements seat degree vertices
    else Proc.ofChecked (soleElements seat degree vertices)
  return ⟨seat, shape, dim, bottom :: between ++ [top]⟩

/-- The mesh of some elements on one rank without a network. Its vertices are numbered
    as they are. -/
def serial (shape : Shape) (dim : Nat) (vertices : List Nat) (vertexCount : Nat) :
    Checked Part := do
  checkRoom vertexCount 8
  (build (κ := UInt8) Seat.serial shape dim vertices (List.range vertexCount)).toProgram.alone

end Build

end Part

end SharedMesh
