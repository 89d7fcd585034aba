import SharedMesh.Collective.Agree
import SharedMesh.Route.Basic
import SharedMesh.Wire.Records

/-!
# Planning a route

The ranks plan a route together (`Route.plan`): each names a target place for each of
its items, and how many roots it holds itself. The items announce themselves to the
ranks of their roots; each rank sorts what arrives by root, and within a root by the
rank and the number of the item; and then it tells every item where it landed. So both
ends know each other, and no later exchange has to name its items.
-/

namespace SharedMesh

/-- An item as it is announced to the rank that holds its root: `turn` tells the items
    of one rank apart. -/
structure Arrival where
  root : Nat
  rank : Nat
  item : Nat
  turn : Nat
deriving DecidableEq, Repr

namespace Arrival

/-- The order of arrivals: by root, then by the rank and the number of the item. -/
def le (a b : Arrival) : Bool :=
  a.root < b.root || (a.root == b.root && Place.le ⟨a.rank, a.item⟩ ⟨b.rank, b.item⟩)

end Arrival

namespace Route

variable {κ : Type} [Alphabet κ]

/-- The tag of announcements. -/
def setupTag : UInt16 := 0x1000

/-- The tag of landings. -/
def landingTag : UInt16 := 0x1010

/-- Checks that all targets are on ranks of a world of `size` ranks. -/
def checkTargets (size : Nat) (targets : List Place) : Checked Unit :=
  match targets.find? fun p => size ≤ p.rank with
  | some p => .error (.rankRange p.rank size)
  | none => .ok ()

/-- For each rank, the root and the number of every item that goes there. -/
def announcements (size : Nat) (targets : List Place) : List (List (UInt64 × UInt64)) :=
  (List.range size).map fun rank =>
    (targets.zipIdx.filter fun (p, _) => p.rank = rank).map fun (p, item) =>
      (UInt64.ofNat p.index, UInt64.ofNat item)

/-- What the ranks announced, rank by rank. -/
def arrivals (announced : List (List (UInt64 × UInt64))) : List Arrival :=
  announced.zipIdx.flatMap fun (list, rank) =>
    list.zipIdx.map fun ((root, item), turn) => ⟨root.toNat, rank, item.toNat, turn⟩

/-- Checks that this rank holds the roots that the arrivals name. -/
def checkRoots (rank roots : Nat) (arrivals : List Arrival) : Checked Unit :=
  match arrivals.find? fun a => roots ≤ a.root with
  | some a => .error (.rootRange rank a.root roots)
  | none => .ok ()

/-- The side of the copies, in the order in which they landed. -/
def farSide (roots : Nat) (landed : List Arrival) : Side where
  links := landed.map fun a => ⟨a.rank, a.item, a.item⟩
  fan := fanFrom 0 0 roots (landed.map Arrival.root)

/-- For each rank, where its items landed, in the order of their announcement. -/
def landings (size : Nat) (landed : List Arrival) : List (List UInt64) :=
  (List.range size).map fun rank =>
    ((landed.zipIdx.filter fun (a, _) => a.rank = rank).mergeSort
      fun a b => a.1.turn ≤ b.1.turn).map fun (_, slot) => UInt64.ofNat slot

/-- The side of the items, by their targets and the slots where they landed. Every item
    is a root of its own. -/
def nearSide (targets : List Place) (slots : List UInt64) : Side where
  links := targets.zipWith (fun p slot => ⟨p.rank, p.index, slot.toNat⟩) slots
  fan := List.range (targets.length + 1)

/-- Plans a route from the items of this rank to the targets, for a rank that holds
    `roots` roots. All ranks plan together. An arrival takes four words, and a link three. -/
def plan (seat : Seat) (targets : List Place) (roots : Nat) : Proc κ Route := do
  -- the items announce themselves to their roots
  allPass seat .routeRanks (checkTargets seat.size targets)
  let announced ← swap seat (Group.all seat) setupTag (announcements seat.size targets)
  let arrived := arrivals announced
  Proc.ofChecked (checkRoom arrived.length 32)
  allPass seat .routeRoots (checkRoots seat.rank roots arrived)
  -- the copies of each root are counted, in a word for each
  Proc.ofChecked (checkRoom roots 8)
  -- the copies land in the order of roots, and the items are told where
  let landed := arrived.mergeSort Arrival.le
  let told ← swap seat (Group.all seat) landingTag (landings seat.size landed)
  Proc.ofChecked (checkRoom targets.length 24)
  let slots ← Proc.ofChecked (draw (targets.map Place.rank) told)
  -- the fan is one word longer than there are roots
  Proc.ofChecked (checkRoom (roots + 1) 8)
  let route : Route := ⟨nearSide targets slots, farSide roots landed⟩
  Proc.ofChecked (route.near.check seat.size)
  Proc.ofChecked (route.far.check seat.size)
  return route

end Route

end SharedMesh
