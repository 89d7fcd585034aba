import SharedMesh.Scalar.Basic

/-!
# Searching for a plane

Points lie at distances along an axis, and a plane across the axis leaves some mass
below it. `searchPlane` looks for a plane that leaves a target mass below, by halving
an interval of distances: it stops when the mass is close enough to the target, when no
distance lies between the ends any more, or when its steps are used up. The best plane
met is the answer.

The mass below a plane is not at hand: finding it takes a collective. So the search
works in any monad.
-/

namespace SharedMesh

/-- How a search for a plane went. -/
structure Search (α : Type) where
  /-- The best plane so far; the upper end of the interval, if none was tried. -/
  plane : α
  /-- How far the mass below that plane is from the target. -/
  error : α
  /-- Whether the mass below the last plane was close enough. -/
  converged : Bool
  /-- The planes that were tried, the last one first. -/
  tried : List α
deriving Repr

namespace Search

variable {α : Type} [Scalar α]

/-- A search that has not tried any plane. -/
def fresh (top : α) : Search α := ⟨top, Scalar.infinity, false, []⟩

/-- The search after another plane was tried. -/
def record (s : Search α) (plane error : α) : Search α :=
  if Scalar.lt error s.error then { s with plane, error, tried := plane :: s.tried }
  else { s with tried := plane :: s.tried }

end Search

variable {α : Type} [Scalar α]

/-- The middle of an interval. -/
def middle (low high : α) : α := Scalar.half * (low + high)

/-- Searches between `low` and `high` for a plane that leaves the target mass below, give
    or take what is allowed, in at most so many steps. -/
def searchPlane {m : Type → Type} [Monad m] (massBelow : α → m α) (target allowed : α) :
    Nat → α → α → Search α → m (Search α)
  | 0, _, _, s => pure s
  | steps + 1, low, high, s => do
    let plane := middle low high
    if Scalar.le plane low || Scalar.le high plane then return s
    let below ← massBelow plane
    let error := Scalar.abs (below - target)
    let s := s.record plane error
    if Scalar.le error allowed then return { s with converged := true }
    if Scalar.lt below target then searchPlane massBelow target allowed steps plane high s
    else searchPlane massBelow target allowed steps low plane s

end SharedMesh
