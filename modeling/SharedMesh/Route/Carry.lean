import SharedMesh.Route.Plan

/-!
# Carrying data along a route

`Route.carry` moves a record of `width` values from every item to its copy. Records go
to a rank in the order of its copies, so that the receiver only has to walk over its
copies and take the next record of the rank each comes from.

`Route.spread` gives every item the record of its root; followed by `carry`, this
broadcasts from the roots (`Route.broadcast`).
-/

namespace SharedMesh.Route

variable {κ T : Type} [Alphabet κ] [Layout κ T]

/-- The tag of data that moves along a route. -/
def carryTag : UInt16 := 0x1100

/-- Checks that every rank sent a record for each copy that comes from it. -/
def checkReceived (far : Side) (width : Nat) (received : List (List T)) : Checked Unit :=
  received.zipIdx.forM fun (values, rank) =>
    let expected := far.links.countP (·.rank = rank) * width
    if values.length ≠ expected then
      .error (.transport rank (.wrongCount expected values.length))
    else .ok ()

/-- Moves `width` values from every item to its copy. All ranks move together. -/
def carry (r : Route) (seat : Seat) (width : Nat) (data : List T) : Proc κ (List T) := do
  if width = 0 then throw (.shape .routeWidth 1 0)
  let expected ← Proc.ofChecked (word (r.near.itemCount * width))
  if data.length ≠ expected then throw (.shape .routeData expected data.length)
  let received ← swap seat (Group.all seat) carryTag
    ((r.near.bundles seat.size (rows width data)).map List.flatten)
  Proc.ofChecked (checkRoom (r.far.itemCount * width) (Layout.size κ T))
  Proc.ofChecked (checkReceived r.far width received)
  let records ← Proc.ofChecked (draw (r.far.links.map Link.rank) (received.map (rows width)))
  return records.flatten

/-- Gives every item the `width` values of its root. -/
def spread {β : Type} (r : Route) (width : Nat) (data : List β) : Checked (List β) := do
  let expected ← word (r.near.rootCount * width)
  if data.length ≠ expected then throw (.shape .rootData expected data.length)
  return ((rows width data).zipWith (fun record n => (List.replicate n record).flatten)
    r.near.fanCounts).flatten

/-- Moves the `width` values of every root to the copies of its items. -/
def broadcast (r : Route) (seat : Seat) (width : Nat) (data : List T) : Proc κ (List T) := do
  let items ← Proc.ofChecked (r.spread width data)
  r.carry seat width items

/-- Moves `width` numbers from every item to its copy. -/
def carryNumbers (r : Route) (seat : Seat) (width : Nat) (data : List Nat) :
    Proc κ (List Nat) := do
  let words ← r.carry seat width (data.map UInt64.ofNat)
  return words.map UInt64.toNat

/-- Moves a place from every item to its copy. -/
def carryPlaces (r : Route) (seat : Seat) (data : List Place) : Proc κ (List Place) := do
  let records ← r.carry seat 1 (data.map PlaceRecord.ofPlace)
  return records.map PlaceRecord.toPlace

end SharedMesh.Route
