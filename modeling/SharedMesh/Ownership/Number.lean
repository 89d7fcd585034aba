import SharedMesh.Ownership.Resolve

/-!
# Numbering by ownership

Entities that have owners get global numbers (`numberOwned`): the owned ones are
numbered in the order of ranks and indices, without gaps, and every copy takes the
number of its owner. Owners must own themselves.
-/

namespace SharedMesh

variable {κ : Type} [Alphabet κ]

/-- Numbers from `next` on for what is owned, and zero for the rest. -/
def numberFrom : Nat → List Bool → List Nat
  | _, [] => []
  | next, true :: rest => next :: numberFrom (next + 1) rest
  | next, false :: rest => 0 :: numberFrom next rest

/-- Checks that every entity that is named as an owner owns itself. -/
def checkReferences (rank : Nat) (named : List Nat) (owned : List Bool) : Checked Unit :=
  match (named.zip owned).findIdx? fun (count, owned) => 0 < count && !owned with
  | some entity => .error (.connectivity (.strayOwner entity rank))
  | none => .ok ()

/-- The global number of each entity, by the owners. -/
def numberOwned (seat : Seat) (owners : List Place) : Proc κ (List Nat) := do
  let owned := ownedMask seat owners
  let (first, _) ← scanNumbers seat (Group.all seat) scanTag (owned.count true)
  let numbers := numberFrom first owned
  -- every entity asks its owner, and the owners answer all who asked
  let toOwner ← Route.plan seat owners owners.length
  let back := toOwner.reverse
  allPass seat .ownerReferences (checkReferences seat.rank back.near.fanCounts owned)
  let words ← back.broadcast seat 1 (numbers.map UInt64.ofNat)
  return words.map UInt64.toNat

end SharedMesh
