import SharedMesh.Error

/-!
# Shares

A range of numbers `0 .. total` is dealt out to `size` ranks in contiguous slices:
the first `total % size` ranks get `total / size + 1` numbers, the others
`total / size`. So a number's holder depends on the number, the total and the size
alone, and every rank can compute it (`Shares.holder`).

Totals and numbers are 64-bit words, and every intermediate value is checked to be
one.
-/

namespace SharedMesh

/-- The numbers from `start` on, up to but not including `stop`. -/
structure Slice where
  start : Nat
  stop : Nat
deriving DecidableEq, Repr, Inhabited

/-- How many numbers a slice holds. -/
def Slice.size (s : Slice) : Nat := s.stop - s.start

/-- A range of `total` numbers, dealt out to `size` ranks. -/
structure Shares where
  total : Nat
  size : Nat
deriving DecidableEq, Repr

namespace Shares

/-- The shares of `total` numbers among `size` ranks; there must be a rank. -/
def deal (total size : Nat) : Checked Shares :=
  if size = 0 then .error (.rankRange 0 size) else .ok ⟨total, size⟩

/-- The least number of numbers a rank gets. -/
def quotient (s : Shares) : Nat := s.total / s.size

/-- How many ranks get one number more. -/
def remainder (s : Shares) : Nat := s.total % s.size

/-- The slice of `rank`. -/
def slice (s : Shares) (rank : Nat) : Checked Slice := do
  if s.size = 0 then throw (.breach .zeroDivision)
  if rank < s.remainder then
    let start ← word (s.quotient * rank + rank)
    let stop ← word (start + s.quotient + 1)
    return ⟨start, stop⟩
  else
    let start ← word (s.quotient * rank + s.remainder)
    let stop ← word (start + s.quotient)
    return ⟨start, stop⟩

/-- How many numbers `rank` holds. -/
def count (s : Shares) (rank : Nat) : Checked Nat :=
  return (← s.slice rank).size

/-- Where the number `global` is held: the rank, and the index in its slice. The
    numbers of the longer slices come first. -/
def holder (s : Shares) (global : Nat) : Checked Place := do
  if s.total ≤ global then throw (.globalRange global s.total)
  if s.size = 0 then throw (.breach .zeroDivision)
  let longer ← word (s.quotient + 1)
  let split ← word (longer * s.remainder)
  if global < split then
    return ⟨global / longer, global % longer⟩
  else
    if s.quotient = 0 then throw (.breach .zeroDivision)
    let rank ← word ((global - split) / s.quotient + s.remainder)
    return ⟨rank, (global - split) % s.quotient⟩

/-- Where each of some numbers is held. -/
def holders (s : Shares) (globals : List Nat) : Checked (List Place) :=
  globals.mapM s.holder

end Shares

end SharedMesh
