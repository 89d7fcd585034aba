import SharedMesh.Ownership.Settle
import SharedMesh.Record.Canonical
import SharedMesh.Route.Carry
import SharedMesh.Shares

/-!
# Resolving copies

Ranks hold copies of the vertices, edges and faces on the borders of their parts. To
give all copies of one entity the same owner, the copies are sent to a rank on which
they all meet, are settled there, and the owners are sent back.

Vertices carry global numbers, so the copies of a vertex meet where its number is held
among the shares of all numbers (`ownersOfNumbers`). Edges and faces carry none: a copy
is brought into canonical form, and goes where the number of its first vertex is held
(`resolveCopies`). Its key is the canonical list of numbers.
-/

namespace SharedMesh

variable {κ : Type} [Alphabet κ]

/-- The places of `n` entities of which this rank holds the only copies. A place takes
    two words. -/
def soleOwners (seat : Seat) (n : Nat) : Checked (List Place) := do
  checkRoom n 16
  return Place.own seat.rank n

/-- Whether this rank holds the owner of each of its entities. -/
def ownedMask (seat : Seat) (owners : List Place) : List Bool :=
  owners.zipIdx.map fun (owner, i) => owner = ⟨seat.rank, i⟩

/-- One more than the largest number on this rank. -/
def localTotal (globals : List Nat) : Checked Nat :=
  match globals.max? with
  | none => .ok 0
  | some g => word (g + 1)

/-- One more than the largest number on any rank. -/
def totalNumbers (seat : Seat) (globals : List Nat) : Proc κ Nat := do
  let own ← Proc.ofChecked (localTotal globals)
  let total ← maxNumber seat (Group.all seat) reduceTag own
  agree seat .vertexTotal total
  return total

/-- Sends the owner of each served copy back to it. -/
def reportOwners (seat : Seat) (back : Route) (owners : Checked (List Place)) :
    Proc κ (List Place) := do
  let owners ← allPass seat .duplicateOwners owners
  back.carryPlaces seat owners

/-- Settles the copies that this rank serves, and reports their owners. The owners are put
    together from a list for each root, which takes three words. -/
def settleServed (seat : Seat) (back : Route) (choose : List Served → Option Place)
    (copies : List Served) : Proc κ (List Place) := do
  Proc.ofChecked (checkRoom back.near.rootCount 24)
  reportOwners seat back (settle choose back.near.fanCounts copies)

/-- Derived entities whose copies have one owner. -/
structure Resolved where
  /-- The local vertices of the entities, canonically ordered. -/
  vertices : List Nat
  /-- The turn that was applied to each entity. -/
  turns : List Turn
  /-- The owner of each entity. -/
  owners : List Place
deriving DecidableEq, Repr

/-- Brings derived entities into canonical form, and finds an owner for the copies of
    each. `vertices` are the local vertices of the entities, and `numbers` the global
    numbers of the local vertices. -/
def resolveCopies (seat : Seat) (numbers : List Nat) (degree : Nat) (vertices : List Nat)
    (policy : OwnerPolicy) : Proc κ Resolved := do
  let canonical ← allPass seat .derivedRecords (Canonical.ofRecords degree vertices numbers)
  let total ← totalNumbers seat numbers
  let shares ← Proc.ofChecked (Shares.deal total seat.size)
  let servers ← Proc.ofChecked (shares.holders canonical.firstGlobals)
  let served ← Proc.ofChecked (shares.count seat.rank)
  let route ← Route.plan seat servers served
  -- from here on each copy is seen by the rank that serves its first vertex
  let keys ← route.carryNumbers seat degree canonical.globals
  let back := route.reverse
  let origins := back.near.places
  let copies := Served.list origins (rows degree keys) (origins.map fun _ => 0)
  let owners ← settleServed seat back (byPolicy policy) copies
  return { vertices := canonical.vertices, turns := canonical.turns, owners }

/-- Checks that every number comes with a wish, if any does. -/
def checkWishes (globals : List Nat) : Option (List Nat) → Checked Unit
  | none => .ok ()
  | some wishes =>
    if wishes.length ≠ globals.length then
      .error (.shape .ownRanks globals.length wishes.length)
    else .ok ()

/-- Finds an owner for the copies of each global number: the first copy on the rank that
    the copies wish for, or without wishes the one chosen by the policy. -/
def ownersOfNumbers (seat : Seat) (globals : List Nat) (wishes : Option (List Nat))
    (policy : OwnerPolicy) : Proc κ (List Place) := do
  allPass seat .ownRanks (checkWishes globals wishes)
  let total ← totalNumbers seat globals
  let shares ← Proc.ofChecked (Shares.deal total seat.size)
  let servers ← Proc.ofChecked (shares.holders globals)
  let served ← Proc.ofChecked (shares.count seat.rank)
  let route ← Route.plan seat servers served
  let keys ← route.carryNumbers seat 1 globals
  let back := route.reverse
  let origins := back.near.places
  match wishes with
  | some wishes =>
    let wanted ← route.carryNumbers seat 1 wishes
    settleServed seat back byWish (Served.list origins (rows 1 keys) wanted)
  | none =>
    settleServed seat back (byPolicy policy)
      (Served.list origins (rows 1 keys) (origins.map fun _ => 0))

end SharedMesh
