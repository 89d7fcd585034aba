/-!
# Arranging records

An *order* of some items is the list of their numbers in the sequence in which they are
to come. `arranged` brings items into an order, and `positions` tells for each item at
which position it comes.
-/

namespace SharedMesh

/-- The items in a given order. -/
def arranged {α : Type} (items : List α) (order : List Nat) : List α :=
  let lookup := items.toArray
  order.filterMap (lookup[·]?)

/-- The position of each item in an order. -/
def positions (order : List Nat) : List Nat :=
  (order.zipIdx.mergeSort fun a b => decide (a.1 ≤ b.1)).map (·.2)

end SharedMesh
