/-!
# The Hilbert curve on a grid

A grid of `2 ^ bits` cells along each of one to three axes is visited by one curve
that moves from each cell to a neighbour. `Hilbert.key` is the position of a cell
along it; it has as many bits as the coordinates of the cell together.

The key comes in two steps. `Hilbert.transpose` works on the coordinates from the
top bit down: at each bit, it undoes the reflections and exchanges of axes by which
the curve in a cube of that size differs from the curve in the whole grid, and then
turns the sequence of subcubes visited, a Gray code, into a count. What results is
the key with its bits dealt out to the axes; `Hilbert.interleave` collects them,
the top bit of the first axis first.
-/

namespace SharedMesh.Hilbert

-- Powers are those of core, also beside Mathlib.
attribute [local instance (high)] instPowNat

/-- The bits below bit `k`. -/
def below (k : Nat) : Nat := 2 ^ k - 1

/-- One axis against the first at bit `k`: a set bit reflects the first axis in the
    lower bits; otherwise the lower bits of the two axes are exchanged. -/
def reflectOrExchange (k first other : Nat) : Nat × Nat :=
  if other.testBit k then (first ^^^ below k, other)
  else
    let difference := (first ^^^ other) &&& below k
    (first ^^^ difference, other ^^^ difference)

/-- The axes after the first one, in order, each against the first at bit `k`. -/
def undoOthers (k : Nat) : Nat → List Nat → Nat × List Nat
  | first, [] => (first, [])
  | first, other :: rest =>
    let (first, other) := reflectOrExchange k first other
    let (first, rest) := undoOthers k first rest
    (first, other :: rest)

/-- All axes at bit `k`. The first axis against itself is reflected or left alone. -/
def undoBit (k : Nat) : List Nat → List Nat
  | [] => []
  | first :: rest =>
    let first := if first.testBit k then first ^^^ below k else first
    let (first, rest) := undoOthers k first rest
    first :: rest

/-- All axes at the bits from `k` down to one. -/
def undoBits : Nat → List Nat → List Nat
  | 0, cell => cell
  | k + 1, cell => undoBits k (undoBit (k + 1) cell)

/-- Each axis changed by all axes before it. -/
def accumulate : Nat → List Nat → List Nat
  | _, [] => []
  | before, x :: rest => (x ^^^ before) :: accumulate (x ^^^ before) rest

/-- The bits to flip in every axis, by the bits of the last axis from `k` down to
    one. -/
def carry (last : Nat) : Nat → Nat
  | 0 => 0
  | k + 1 => (if last.testBit (k + 1) then below (k + 1) else 0) ^^^ carry last k

/-- The key of a cell with its bits dealt out to the axes. -/
def transpose (bits : Nat) (cell : List Nat) : List Nat :=
  let undone := accumulate 0 (undoBits (bits - 1) cell)
  let flips := carry (undone.getLastD 0) (bits - 1)
  undone.map (· ^^^ flips)

/-- The bits of the axes at bit `k`, the first axis on top. -/
def digit (k : Nat) (axes : List Nat) : Nat :=
  axes.foldl (fun n x => 2 * n + (x.testBit k).toNat) 0

/-- The lowest `bits` bits of all axes, collected from the top bit down. -/
def interleave : Nat → List Nat → Nat
  | 0, _ => 0
  | bits + 1, axes => digit bits axes * 2 ^ (axes.length * bits) + interleave bits axes

/-- The position of a cell along the curve. -/
def key (bits : Nat) (cell : List Nat) : Nat :=
  interleave bits (transpose bits cell)

/-- A number in `count` words of `bits` bits, the most significant word first. -/
def words (bits : Nat) : Nat → Nat → List Nat
  | 0, _ => []
  | count + 1, n => n / 2 ^ (bits * count) % 2 ^ bits :: words bits count n

/-- The position of a cell along the curve, in one word per axis. -/
def keyWords (bits : Nat) (cell : List Nat) : List Nat :=
  words bits cell.length (key bits cell)

end SharedMesh.Hilbert
