import SharedMesh.Collective.Reduce
import SharedMesh.Shares

/-!
# Spreading points over the halves of a group

After a cut the points below the plane go to the first half of the group, those above
to the other half. On each side the points are counted through the whole group, and
dealt out to the ranks of the half in shares (`spreadHalves`), so that the ranks of a
half get equally many points, and points keep their order.
-/

namespace SharedMesh

variable {κ : Type} [Alphabet κ]

/-- The tag of the counts of points. -/
def spreadTag : UInt16 := 0x2030

/-- The slot of the point with the given number, on the ranks of a half. -/
def slotOn (half : Group) (shares : Shares) (number : Nat) : Checked Place := do
  let held ← shares.holder number
  return ⟨half.ranks.getD held.rank 0, held.index⟩

/-- The slots of points, each above or below, that are numbered from `belowNext` and
    `aboveNext` on. -/
def slots (below above : Nat → Checked Place) : Nat → Nat → List Bool → Checked (List Place)
  | _, _, [] => .ok []
  | belowNext, aboveNext, true :: rest => do
    let slot ← above aboveNext
    return slot :: (← slots below above belowNext (aboveNext + 1) rest)
  | belowNext, aboveNext, false :: rest => do
    let slot ← below belowNext
    return slot :: (← slots below above (belowNext + 1) aboveNext rest)

/-- How many points a rank gets. -/
def incoming (group : Group) (below above : Shares) (rank : Nat) : Checked Nat :=
  match group.low.position? rank, group.high.position? rank with
  | some place, _ => below.count place
  | none, some place => above.count place
  | none, none => .ok 0

/-- Where the points of this rank go, by whether they lie above the plane, and how many
    points this rank gets. -/
def spreadHalves (seat : Seat) (group : Group) (above : List Bool) :
    Proc κ (List Place × Nat) := do
  let (belowStart, belowTotal) ← scanNumbers seat group spreadTag (above.count false)
  let (aboveStart, aboveTotal) ← scanNumbers seat group spreadTag (above.count true)
  let belowShares ← Proc.ofChecked (Shares.deal belowTotal group.low.size)
  let aboveShares ← Proc.ofChecked (Shares.deal aboveTotal group.high.size)
  let places ← Proc.ofChecked (slots (slotOn group.low belowShares)
    (slotOn group.high aboveShares) belowStart aboveStart above)
  let count ← Proc.ofChecked (incoming group belowShares aboveShares seat.rank)
  return (places, count)

end SharedMesh
