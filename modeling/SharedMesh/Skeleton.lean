import SharedMesh.Record.Rows
import SharedMesh.Shape

/-!
# Skeletons

The edges and faces of a mesh are derived from its elements. Walking the elements
in order and the parts of each in order, the *skeleton* keeps a part when it is met
for the first time, with the vertices in the order in which it is met then. Two
parts are the same when they have the same vertices.
-/

namespace SharedMesh

/-- The vertices of a part as a set: in ascending order. -/
def vertexSet (record : List Nat) : List Nat :=
  record.mergeSort (· ≤ ·)

/-- The first number of an ascending list that is listed again. -/
def adjacentRepeat? : List Nat → Option Nat
  | a :: b :: rest => if a = b then some a else adjacentRepeat? (b :: rest)
  | _ => none

/-- A part together with its set of vertices, which may list none twice. -/
def checkedPart (record : List Nat) : Checked (List Nat × List Nat) :=
  match adjacentRepeat? (vertexSet record) with
  | some v => .error (.connectivity (.repeatedVertex v))
  | none => .ok (record, vertexSet record)

/-- The parts whose set of vertices is not among those seen before. -/
def firstSeen : List (List Nat) → List (List Nat × List Nat) → List (List Nat)
  | _, [] => []
  | seen, (record, key) :: rest =>
    if key ∈ seen then firstSeen seen rest else record :: firstSeen (key :: seen) rest

/-- The parts of an element, by the template of its shape. -/
def elementParts (template : List (List Nat)) (element : List Nat) : List (List Nat) :=
  template.map fun slots => slots.filterMap (element[·]?)

/-- The parts of dimension `sub` of elements of dimension `dim`, each listed once, in
    the order of first appearance. -/
def skeleton (elements : List Nat) (shape : Shape) (dim sub : Nat) : Checked (List Nat) := do
  let degree ← shape.corners dim
  let subDegree ← shape.corners sub
  if elements.length % degree ≠ 0 then
    throw (.connectivity (.brokenElements elements.length degree))
  let template ← shape.parts dim sub
  let records := (rows degree elements).flatMap (elementParts (rows subDegree template))
  let parts ← records.mapM checkedPart
  return (firstSeen [] parts).flatten

end SharedMesh
