import SharedMesh.Network.Program

/-!
# Groups

The ranks that take part in a collective, in an order that all of them know. A group
splits into halves that differ by at most one member.
-/

namespace SharedMesh

/-- The members of a collective, in order. -/
structure Group where
  ranks : List Nat
deriving DecidableEq, Repr

namespace Group

/-- The ranks from `start` on, up to but not including `stop`. -/
def ofRange (start stop : Nat) : Group := ⟨List.range' start (stop - start)⟩

/-- The same group, if its members can be listed: a rank takes a word. -/
def ofRange? (start stop : Nat) : Checked Group := do
  checkRoom (stop - start) 8
  return ofRange start stop

/-- All ranks. There is room for them, as there is for the seats of a world
    (`ofRange?_all`). -/
def all (seat : Seat) : Group := ofRange 0 seat.size

theorem ofRange?_all {seat : Seat} (h : Seat.checkWorld seat.size = .ok ()) :
    ofRange? 0 seat.size = .ok (all seat) := by
  rw [Seat.checkWorld, checkRoom] at h
  split at h
  · next hseats =>
    have hranks : (seat.size - 0) * 8 < UInt64.size / 2 := by omega
    rw [ofRange?, checkRoom, if_pos hranks]
    rfl
  · cases h

/-- The number of members. -/
def size (g : Group) : Nat := g.ranks.length

/-- The position of a member. -/
def position? (g : Group) (rank : Nat) : Option Nat := g.ranks.idxOf? rank

/-- Whether a rank is a member. -/
def contains (g : Group) (rank : Nat) : Bool := g.ranks.contains rank

/-- The first half of the members. -/
def low (g : Group) : Group := ⟨g.ranks.take (g.size / 2)⟩

/-- The other half of the members. -/
def high (g : Group) : Group := ⟨g.ranks.drop (g.size / 2)⟩

/-- The half that a member is in. -/
def halfOf (g : Group) (rank : Nat) : Group :=
  if g.low.contains rank then g.low else g.high

end Group

end SharedMesh
