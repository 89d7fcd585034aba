import SharedMesh.Error
import SharedMesh.Record.Rows

/-!
# Settling on owners

The copies of an entity meet on one rank, which chooses their owner. The copies that
arrive there come in groups, one for each root; within a group, copies with the same
key are copies of one entity. `settle` sorts each group by origin, so that the order
of arrival does not matter, divides it into classes of equal keys, and has the owner of
each class chosen. An owner that is no member of its class is refused.
-/

namespace SharedMesh

/-- A rule that chooses the owner among the origins of copies, which come sorted. -/
abbrev OwnerPolicy := List Place → Option Place

/-- The copy that comes first by rank and index is the owner. -/
def OwnerPolicy.smallest : OwnerPolicy := Place.first?

/-- A copy on the rank that serves it. -/
structure Served where
  /-- Its number among the copies there. -/
  slot : Nat
  /-- Where it is stored. -/
  origin : Place
  /-- What it shares with the other copies of its entity, and with no other copy. -/
  key : List Nat
  /-- The rank that it wants to be owned by, where copies have a wish. -/
  wish : Nat
deriving DecidableEq, Repr

namespace Served

/-- The copies with the given origins, keys and wishes, numbered in order. -/
def list (origins : List Place) (keys : List (List Nat)) (wishes : List Nat) : List Served :=
  ((origins.zip (keys.zip wishes)).zipIdx).map fun ((origin, key, wish), slot) =>
    ⟨slot, origin, key, wish⟩

/-- Some copies, sorted by origin. -/
def sorted (copies : List Served) : List Served :=
  copies.mergeSort fun a b => a.origin.le b.origin

/-- The classes of copies with equal keys, in the order of their first members. -/
def classes (copies : List Served) : List (List Served) :=
  (copies.map Served.key).eraseDups.map fun key => copies.filter fun c => c.key = key

end Served

/-- The lists of the given lengths that follow each other in a list. -/
def takeCounts {β : Type} : List Nat → List β → List (List β)
  | [], _ => []
  | n :: counts, xs => xs.take n :: takeCounts counts (xs.drop n)

/-- The owner of each member of a class. `vertex` is the root at which they meet. -/
def settleClass (choose : List Served → Option Place) (vertex : Nat) (members : List Served) :
    Checked (List (Nat × Place)) :=
  match choose members with
  | some owner =>
    if members.any fun c => c.origin = owner then .ok (members.map fun c => (c.slot, owner))
    else .error (.unresolved vertex (some owner))
  | none => .error (.unresolved vertex none)

/-- The owner of each copy that meets at a root. -/
def settleRoot (choose : List Served → Option Place) (vertex : Nat) (copies : List Served) :
    Checked (List (Nat × Place)) :=
  return (← (Served.classes (Served.sorted copies)).mapM (settleClass choose vertex)).flatten

/-- The owner of each copy, in the order of the copies, which come grouped by root. If the copies
    of several roots come to no owner, the error is about the first of these; roots are settled
    independently of each other, so that it may as well be about another one. The ranks make sure
    before that there is room for what the roots settle on (`settleServed`). -/
def settle (choose : List Served → Option Place) (counts : List Nat) (copies : List Served) :
    Checked (List Place) := do
  let decided ← (takeCounts counts copies).zipIdx.mapM fun (group, vertex) =>
    settleRoot choose vertex group
  return (decided.flatten.mergeSort fun a b => a.1 ≤ b.1).map (·.2)

/-- The owner by a policy. -/
def byPolicy (policy : OwnerPolicy) (members : List Served) : Option Place :=
  policy (members.map Served.origin)

/-- The first copy on the rank that all copies want to be owned by. -/
def byWish (members : List Served) : Option Place :=
  match members with
  | [] => none
  | first :: _ =>
    if members.all fun c => c.wish = first.wish then
      Place.first? ((members.map Served.origin).filter fun p => p.rank = first.wish)
    else none

/-- The numbers of some origins, sorted by origin between neighbours of the offsets,
    which ascend and do not go beyond the end. With the fan of a side, this is the order
    in which `settle` goes through the copies. -/
def sortBetween (offsets : List Nat) (origins : List Place) : Checked (List Nat) :=
  let bounds := offsets.zip offsets.tail
  if bounds.any fun (start, stop) => stop < start || origins.length < stop then
    .error (.breach .missingIndex)
  else
    let copies := Served.list origins (origins.map fun _ => []) (origins.map fun _ => 0)
    let before := copies.take (offsets.headD 0)
    let groups := takeCounts (bounds.map fun (start, stop) => stop - start)
      (copies.drop (offsets.headD 0))
    let after := copies.drop (offsets.getLastD 0)
    .ok ((before ++ groups.flatMap Served.sorted ++ after).map Served.slot)

end SharedMesh
