import SharedMesh.Bisection.Plane
import SharedMesh.Collective.Reduce
import SharedMesh.Wire.Records

/-!
# Cutting a group's points

A group of ranks holds weighted points. Their principal axis is the direction in which
they are spread the most (`findInertia`); a plane across it divides them in the
proportion of the two halves of the group (`cutGroup`). Moments, bounds and masses are
reduced over the group, so that all members find the same axis and the same plane, and
search for it in the same steps.
-/

namespace SharedMesh

/-- A point with its mass, and where it set out. -/
structure Point (α : Type) where
  position : Vec3 α
  mass : α
  origin : Place
deriving Repr

namespace Point

variable {α : Type}

/-- A point as a message carries it. -/
def toRecord (p : Point α) : PointRecord α := ⟨p.position, p.mass, PlaceRecord.ofPlace p.origin⟩

/-- The point in a record. -/
def ofRecord (r : PointRecord α) : Point α := ⟨r.position, r.mass, r.origin.toPlace⟩

theorem ofRecord_toRecord {p : Point α} (hrank : p.origin.rank < UInt32.size)
    (hindex : p.origin.index < UInt64.size) : ofRecord p.toRecord = p := by
  rw [ofRecord, toRecord, PlaceRecord.toPlace_ofPlace hrank hindex]

end Point

/-- How the points of a group are spread. -/
structure Inertia (α : Type) where
  axis : Vec3 α
  centroid : Vec3 α
  mass : α
deriving Repr

/-- A plane across the axis of a group's points, and how it was found. -/
structure Cut (α : Type) where
  inertia : Inertia α
  /-- The smallest distance along the axis. -/
  lowest : α
  /-- The largest distance along the axis. -/
  highest : α
  /-- The mass that belongs below the plane. -/
  target : α
  /-- How far the mass below may be from the target. -/
  allowed : α
  /-- The search for the plane; without mass or bounds there is nothing to search. -/
  search : Option (Search α)
deriving Repr

section Local

variable {α : Type} [Scalar α]

/-- The mass of the points, and their positions weighted and added up. -/
def firstMoments (points : List (Point α)) : List α :=
  points.foldl (fun sums p =>
      Scalar.addEach sums (p.mass :: p.position.toList.map fun x => p.mass * x))
    (List.replicate 4 Scalar.zero)

/-- The products of the components of a vector, without repetition. -/
def products (d : Vec3 α) : List α :=
  [d.x * d.x, d.x * d.y, d.x * d.z, d.y * d.y, d.y * d.z, d.z * d.z]

/-- The products of the points' distances from the centroid, weighted and added up. -/
def secondMoments (centroid : Vec3 α) (points : List (Point α)) : List α :=
  points.foldl (fun sums p =>
      Scalar.addEach sums ((products (p.position.sub centroid)).map fun u => p.mass * u))
    (List.replicate 6 Scalar.zero)

/-- The tensor with the given upper triangle, row by row. -/
def tensorOf (s : List α) : Sym3 α :=
  let entry (i : Nat) : α := s.getD i Scalar.zero
  ⟨entry 0, entry 1, entry 2, entry 3, entry 4, entry 5⟩

/-- How far a point lies along the axis. -/
def Inertia.distance (i : Inertia α) (p : Point α) : α :=
  (p.position.sub i.centroid).dot i.axis

/-- The mass of the points that are not above a plane. -/
def Inertia.massBelow (i : Inertia α) (points : List (Point α)) (plane : α) : α :=
  Scalar.sum ((points.filter fun p => Scalar.le (i.distance p) plane).map Point.mass)

/-- Whether a point lies above the plane of a cut. Where no plane was found, none
    does. -/
def Cut.isAbove (c : Cut α) (p : Point α) : Bool :=
  match c.search with
  | some s => Scalar.lt s.plane (c.inertia.distance p)
  | none => false

end Local

/-- The tag of moments. -/
def momentsTag : UInt16 := 0x2000

/-- The tag of bounds. -/
def boundsTag : UInt16 := 0x2010

/-- The tag of masses below a plane. -/
def planeTag : UInt16 := 0x2020

section Group

variable {κ α : Type} [Alphabet κ] [Layout κ α] [Scalar α] [AxisSolver α]

/-- How the points of a group are spread. Without mass, any axis will do. -/
def findInertia (seat : Seat) (group : Group) (points : List (Point α)) :
    Proc κ (Inertia α) := do
  let first ← sumScalars seat group momentsTag (firstMoments points)
  let entry (i : Nat) : α := first.getD i Scalar.zero
  let mass := entry 0
  if Scalar.le mass Scalar.zero then
    return ⟨Vec3.firstAxis, Vec3.zero, Scalar.zero⟩
  let centroid := (Vec3.mk (entry 1) (entry 2) (entry 3)).divide mass
  let second ← sumScalars seat group momentsTag (secondMoments centroid points)
  return ⟨(AxisSolver.principalAxis (tensorOf second)).oriented, centroid, mass⟩

/-- Finds a plane that divides the points of a group in the proportion of its halves, up
    to a part `tolerance` of a member's fair share, in at most so many steps. -/
def cutGroup (seat : Seat) (group : Group) (tolerance : α) (steps : Nat)
    (points : List (Point α)) : Proc κ (Cut α) := do
  let inertia ← findInertia seat group points
  let distances := points.map inertia.distance
  let lowest ← minScalars seat group boundsTag [Scalar.least distances]
  let highest ← maxScalars seat group boundsTag [Scalar.greatest distances]
  let low := lowest.headD Scalar.zero
  let high := highest.headD Scalar.zero
  let members : α := Scalar.ofNat group.size
  let target := inertia.mass * Scalar.ofNat group.low.size / members
  let allowed := tolerance * inertia.mass / members
  if Scalar.le inertia.mass Scalar.zero || !Scalar.isFinite low then
    return ⟨inertia, low, high, target, allowed, none⟩
  let massBelow (plane : α) : Proc κ α := do
    let sums ← sumScalars seat group planeTag [inertia.massBelow points plane]
    return sums.headD Scalar.zero
  let search ← searchPlane massBelow target allowed steps low high (Search.fresh high)
  return ⟨inertia, low, high, target, allowed, some search⟩

end Group

end SharedMesh
