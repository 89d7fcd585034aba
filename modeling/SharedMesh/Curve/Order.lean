import SharedMesh.Curve.Cell
import SharedMesh.Error
import SharedMesh.Record.Rows
import SharedMesh.Scalar.Basic

/-!
# Points along the Hilbert curve

A cloud of points is sorted along the curve by its cells. The grid lies over the
bounding box of the cloud; the largest side of the box sets the scale, so that
cells are cubes. Points in one cell keep the order in which they were given.
-/

namespace SharedMesh.Hilbert

-- Powers and the order of lists are those of core, also beside Mathlib.
attribute [local instance (high)] instPowNat List.instLE List.decidableLE

variable {α : Type} [Scalar α]

/-- The number of bits that a cell's coordinates have along each axis. -/
def resolution : Nat := 52

/-- The points in a flat list of coordinates: there are one to three axes, every
    point is whole, and every coordinate is finite. -/
def points (dim : Nat) (coords : List α) : Checked (List (List α)) := do
  if dim = 0 ∨ 3 < dim then throw (.dimension dim)
  if coords.length % dim ≠ 0 then
    throw (.shape .curveCoordinates (coords.length - coords.length % dim) coords.length)
  match coords.find? fun c => !Scalar.isFinite c with
  | some c => throw (.geometry (.infiniteCoordinate (Scalar.text c)))
  | none => return rows dim coords

/-- The least coordinates of a cloud, one per axis. -/
def lowerCorner (dim : Nat) (cloud : List (List α)) : List α :=
  cloud.foldl (List.zipWith Scalar.min) (List.replicate dim Scalar.infinity)

/-- The greatest coordinates of a cloud, one per axis. -/
def upperCorner (dim : Nat) (cloud : List (List α)) : List α :=
  cloud.foldl (List.zipWith Scalar.max) (List.replicate dim Scalar.negInfinity)

/-- The largest side of the bounding box of a cloud. -/
def largestSide (lower upper : List α) : α :=
  (upper.zipWith (· - ·) lower).foldl Scalar.max Scalar.zero

/-- The cell along one axis of a coordinate at the distance `offset` from the lower
    corner. A coordinate on the upper side lies in the last cell, and all points of a
    cloud without extent lie in the first one. -/
def cellAlong (side offset : α) : Nat :=
  if Scalar.lt Scalar.zero side then
    Nat.min (Scalar.floor (offset / side * Scalar.ofNat (2 ^ resolution))) (2 ^ resolution - 1)
  else 0

/-- The cell of a point. -/
def cellOf (lower : List α) (side : α) (point : List α) : List Nat :=
  point.zipWith (fun x low => cellAlong side (x - low)) lower

/-- The keys of the points of a cloud. -/
def cloudKeys (dim : Nat) (cloud : List (List α)) : List (List Nat) :=
  let lower := lowerCorner dim cloud
  let side := largestSide lower (upperCorner dim cloud)
  cloud.map fun point => keyWords resolution (cellOf lower side point)

/-- The keys of the points in a flat list of coordinates, `dim` words each. -/
def keys (dim : Nat) (coords : List α) : Checked (List (List Nat)) :=
  return cloudKeys dim (← points dim coords)

/-- The numbers of the keys, sorted by the keys; equal keys stay in order. -/
def sortedBy (keys : List (List Nat)) : List Nat :=
  (keys.zipIdx.mergeSort fun a b => decide (a.1 ≤ b.1)).map (·.2)

/-- The order in which the curve visits the points. -/
def order (dim : Nat) (coords : List α) : Checked (List Nat) :=
  return sortedBy (← keys dim coords)

end SharedMesh.Hilbert
