import SharedMesh.Collective.Group
import SharedMesh.Wire.Layout

/-!
# Swaps

In a *swap* every member of a group has a list of values for every member, and gets
the lists that the members have for it (`swap`). It goes in two rounds: first each
pair of members tell each other how many values will come, under the tag of the swap;
then the values move, under the next tag. Empty lists are not sent. In each round a
member sends everything before it waits, and waits for all even if one receive fails;
the first failure is reported.

All other collectives are swaps: `gather` has the same list for every member.
-/

namespace SharedMesh

variable {κ T : Type} [Alphabet κ] [Layout κ T]

/-- The number of values that a peer announced. -/
def readCount (peer : Nat) : Option (List κ) → Checked Nat
  | none => .error (.transport peer .noCount)
  | some cells => do
    let counts ← Layout.decodeList (T := UInt64) peer 1 cells
    return (counts.headD 0).toNat

/-- The values that a peer sent, as many as it announced. -/
def readValues (peer count : Nat) : Option (List κ) → Checked (List T)
  | none => .error (.transport peer .noPayload)
  | some cells => Layout.decodeList peer count cells

/-- Waits for the announcement of each of some peers, in order. -/
def recvCounts (tag : UInt16) : List Nat → Program κ (List (Checked Nat))
  | [] => .done []
  | peer :: rest =>
    .recv peer tag (Layout.size κ UInt64) fun body =>
      (recvCounts tag rest).bind fun counts => .done (readCount peer body :: counts)

/-- Waits for the values of each of some peers that announced any, in order. -/
def recvValues (tag : UInt16) : List (Nat × Nat) → Program κ (List (Checked (List T)))
  | [] => .done []
  | (peer, count) :: rest =>
    if count = 0 then (recvValues tag rest).bind fun lists => .done (.ok [] :: lists)
    else .recv peer tag (count * Layout.size κ T) fun body =>
      (recvValues tag rest).bind fun lists => .done (readValues peer count body :: lists)

/-- Tells each peer how many values will come, and learns how many come from it. -/
def swapCounts (tag : UInt16) (peers counts : List Nat) : Proc κ (List Nat) := do
  Proc.ofProgram (.sendEach tag
    (peers.zipWith (fun peer n => (peer, Layout.encode (UInt64.ofNat n))) counts))
  let told ← Proc.ofProgram (recvCounts tag peers)
  Proc.ofChecked (told.mapM id)

/-- Sends each peer its values, and receives the values announced. -/
def swapValues (tag : UInt16) (peers : List Nat) (lists : List (List T)) (counts : List Nat) :
    Proc κ (List (List T)) := do
  Proc.ofProgram (.sendEach tag
    (((peers.zip lists).filter fun (_, list) => !list.isEmpty).map fun (peer, list) =>
      (peer, Layout.encodeList list)))
  let arrived ← Proc.ofProgram (recvValues tag (peers.zip counts))
  Proc.ofChecked (arrived.mapM id)

/-- Gives each member of the group its list, and gets the members' lists in the order
    of the group. A member's list for itself stays with it. -/
def swap (seat : Seat) (group : Group) (tag : UInt16) (lists : List (List T)) :
    Proc κ (List (List T)) := do
  if lists.length ≠ group.size then
    throw (.shape .sendBuffers group.size lists.length)
  match group.position? seat.rank with
  | none => throw (.rankRange seat.rank group.size)
  | some place =>
    let peers := group.ranks.eraseIdx place
    let others := lists.eraseIdx place
    let counts ← swapCounts tag peers (others.map List.length)
    let arrived ← swapValues (tag + 1) peers others counts
    return arrived.insertIdx place (lists.getD place [])

/-- Gives every member of the group the same list, and gets the lists of all. -/
def gather (seat : Seat) (group : Group) (tag : UInt16) (values : List T) :
    Proc κ (List (List T)) :=
  swap seat group tag (List.replicate group.size values)

/-- One value of each member. -/
def gatherOne (seat : Seat) (group : Group) (tag : UInt16) (value : T) : Proc κ (List T) := do
  let lists ← gather seat group tag [value]
  Proc.ofChecked ((lists.zip group.ranks).mapM fun (values, rank) =>
    match values with
    | [] => .error (.transport rank .noContribution)
    | first :: _ => .ok first)

end SharedMesh
