import SharedMesh.Bisection.Cut
import SharedMesh.Bisection.Spread
import SharedMesh.Route.Carry

/-!
# Recursive bisection

Weighted points are partitioned among the ranks so that each gets nearly the same mass,
in a compact region. All ranks start as one group; at each level every group cuts its
points by a plane, moves them to its halves, and splits into these. When the halvings
are done every group is a single rank. Ranks that are alone early still join the moves
of the others.

Every point remembers where it set out, and in the end its origin is told where it
came to rest.
-/

namespace SharedMesh

/-- How to bisect. -/
structure BisectionSettings (α : Type) where
  /-- The mass by which a rank may miss its fair share, as a part of it. Each level may
      use an equal part. -/
  tolerance : α
  /-- How many planes to try at each level. -/
  steps : Nat
deriving Repr

/-- A twentieth of imbalance, and sixty-four planes. -/
def BisectionSettings.standard {α : Type} [Scalar α] : BisectionSettings α :=
  ⟨Scalar.ofNat 1 / Scalar.ofNat 20, 64⟩

/-- Where the points of a rank came to rest. -/
structure Bisection (α : Type) where
  /-- The place of each point, in the order in which they were given. -/
  places : List Place
  /-- How many points this rank holds now. -/
  count : Nat
  /-- The cuts of the groups this rank was in, the last one first. -/
  cuts : List (Cut α)
deriving Repr

/-- A rank in the course of a bisection. -/
structure Holding (α : Type) where
  group : Group
  points : List (Point α)
  /-- The cuts so far, the last one first. -/
  cuts : List (Cut α)

/-- How often `n` ranks are halved until each is alone: the least `k` with
    `n ≤ 2 ^ k`. -/
def halvings (n : Nat) : Nat :=
  if n ≤ 1 then 0 else Nat.log2 (n - 1) + 1

section

variable {κ α : Type} [Alphabet κ] [Layout κ α] [Scalar α] [AxisSolver α]

/-- Where the points of a rank go at one level, and how many it gets. A rank that is
    alone keeps its points. -/
def chooseSlots (seat : Seat) (tolerance : α) (steps : Nat) (h : Holding α) :
    Proc κ (List Place × Nat × List (Cut α)) := do
  if h.group.size ≤ 1 then
    return (Place.own seat.rank h.points.length, h.points.length, h.cuts)
  let cut ← cutGroup seat h.group tolerance steps h.points
  let (places, count) ← spreadHalves seat h.group (h.points.map cut.isAbove)
  return (places, count, cut :: h.cuts)

/-- One level: the points move, and the group becomes the half that the rank is in. -/
def bisectLevel (seat : Seat) (tolerance : α) (steps : Nat) (h : Holding α) :
    Proc κ (Holding α) := do
  let (places, count, cuts) ← chooseSlots seat tolerance steps h
  -- all ranks move together, those that are alone too
  let route ← Route.plan seat places count
  let records ← route.carry seat 1 (h.points.map Point.toRecord)
  let group := if h.group.size ≤ 1 then h.group else h.group.halfOf seat.rank
  return ⟨group, records.map Point.ofRecord, cuts⟩

/-- Some levels in order. -/
def bisectLevels (seat : Seat) (tolerance : α) (steps : Nat) :
    Nat → Holding α → Proc κ (Holding α)
  | 0, h => return h
  | levels + 1, h => do
    let next ← bisectLevel seat tolerance steps h
    bisectLevels seat tolerance steps levels next

/-- Checks that there are three finite coordinates for every mass, and that all masses
    are positive. -/
def checkPoints (coords masses : List α) : Checked Unit := do
  if coords.length ≠ masses.length * 3 then
    throw (.shape .bisectionCoordinates (masses.length * 3) coords.length)
  if let some c := coords.find? fun c => !Scalar.isFinite c then
    throw (.geometry (.infiniteCoordinate (Scalar.text c)))
  if let some m := masses.find? fun m => !(Scalar.isFinite m && Scalar.lt Scalar.zero m) then
    throw (.geometry (.weightlessPoint (Scalar.text m)))

/-- The points of a rank, each at home. -/
def homePoints (rank : Nat) (coords masses : List α) : List (Point α) :=
  ((rows 3 coords).zip (masses.zip (Place.own rank masses.length))).map
    fun (x, mass, origin) =>
      let entry (i : Nat) : α := x.getD i Scalar.zero
      ⟨⟨entry 0, entry 1, entry 2⟩, mass, origin⟩

/-- Partitions weighted points among all ranks, given by three coordinates and a mass
    each. -/
def bisect (seat : Seat) (settings : BisectionSettings α) (coords masses : List α) :
    Proc κ (Bisection α) := do
  Proc.ofChecked (checkPoints coords masses)
  let levels := halvings seat.size
  let tolerance := if 0 < levels then settings.tolerance / Scalar.ofNat levels
    else settings.tolerance
  let start : Holding α := ⟨Group.all seat, homePoints seat.rank coords masses, []⟩
  let last ← bisectLevels seat tolerance settings.steps levels start
  -- the points call home, and the origins learn where they are
  let home ← Route.plan seat (last.points.map Point.origin) masses.length
  let places ← home.carryPlaces seat (Place.own seat.rank last.points.length)
  return ⟨places, last.points.length, last.cuts⟩

end

end SharedMesh
