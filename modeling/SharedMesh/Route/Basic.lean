import SharedMesh.Error

/-!
# Routes

A *route* sends items to roots. On one rank it has two sides: the *near* side with
the items that are held here, and the *far* side with the copies that arrive here,
grouped by the root they were sent to. Each item on a side is linked to its
counterpart on another rank (`Link`), and the *fan* of a side says which of its items
belong to which root.

Both sides have the same form, so a route is reversed by exchanging them
(`Route.reverse`): copies become items and go back to where they came from.
-/

namespace SharedMesh

/-- The counterpart of an item: the rank that holds it, the root it belongs to there,
    and its number among the items there. -/
structure Link where
  rank : Nat
  root : Nat
  slot : Nat
deriving DecidableEq, Repr, Inhabited

/-- One side of a route. -/
structure Side where
  /-- The counterparts of the items, in order. -/
  links : List Link
  /-- The items of root `r` are those from `fan[r]` up to `fan[r + 1]`. -/
  fan : List Nat
deriving DecidableEq, Repr

namespace Side

/-- The number of items. -/
def itemCount (s : Side) : Nat := s.links.length

/-- The number of roots. -/
def rootCount (s : Side) : Nat := s.fan.length - 1

/-- The number of items of each root. -/
def fanCounts (s : Side) : List Nat :=
  s.fan.zipWith (fun start stop => stop - start) s.fan.tail

/-- Where the counterparts are: the rank, and the root there. -/
def places (s : Side) : List Place :=
  s.links.map fun l => ⟨l.rank, l.root⟩

/-- Whether the fan ascends from zero to the number of items. -/
def fanIsSound (s : Side) : Bool :=
  s.fan.head?.getD 0 == 0 && s.fan.getLast?.getD 0 == s.itemCount &&
    (s.fan.zip s.fan.tail).all fun (start, stop) => start ≤ stop

/-- Checks a side in a world of `size` ranks. -/
def check (s : Side) (size : Nat) : Checked Unit :=
  if !s.fanIsSound then .error (.connectivity .brokenFan)
  else match s.links.find? fun l => size ≤ l.rank with
    | some l => .error (.rankRange l.rank size)
    | none => .ok ()

/-- What the items hold, bundled for each of `size` ranks in the order in which the
    counterparts are numbered there. -/
def bundles {β : Type} (s : Side) (size : Nat) (items : List β) : List (List β) :=
  (List.range size).map fun rank =>
    (((s.links.zip items).filter fun (l, _) => l.rank = rank).mergeSort
      fun a b => a.1.slot ≤ b.1.slot).map (·.2)

end Side

/-- A route between items and roots, as one rank knows it. -/
structure Route where
  near : Side
  far : Side
deriving DecidableEq, Repr

namespace Route

/-- The route back. -/
def reverse (r : Route) : Route := ⟨r.far, r.near⟩

@[simp] theorem reverse_reverse (r : Route) : r.reverse.reverse = r := rfl

/-- A route in words. -/
def text (r : Route) : String :=
  s!"ExchangePattern \x7b nitems: {r.near.itemCount}, nroots: {r.near.rootCount}, ndest_items: {r.far.itemCount}, ndest_roots: {r.far.rootCount} \x7d"

end Route

/-- For each of some ranks in order, the next thing from that rank's list. -/
def draw {β : Type} : List Nat → List (List β) → Checked (List β)
  | [], _ => .ok []
  | rank :: ranks, lists =>
    match lists.getD rank [] with
    | [] => .error (.transport rank .noLanding)
    | first :: rest => do return first :: (← draw ranks (lists.set rank rest))

/-- The fan of items sorted by root: for each of the `count` roots from `root` on, the
    number of the first item that does not belong to an earlier root, after `sofar`
    earlier items; and then the number of all. -/
def fanFrom (root sofar : Nat) : Nat → List Nat → List Nat
  | 0, _ => [sofar]
  | count + 1, sorted =>
    sofar :: fanFrom (root + 1) (sofar + (sorted.takeWhile (· = root)).length) count
      (sorted.dropWhile (· = root))

end SharedMesh
