import SharedMesh.Collective.Swap
import SharedMesh.Scalar.Basic

/-!
# Reductions

The members of a group combine a contribution of each into one result that all of them
get. Every member gathers the contributions and combines them by itself, always in the
order of the group, so that all come to the same result even where the order of
additions matters.

Sums of words are words again.
-/

namespace SharedMesh

-- Sums start from the zero of core, also beside Mathlib.
attribute [local instance (high)] Zero.ofOfNat0

variable {κ : Type} [Alphabet κ]

/-- The tag of swaps among all ranks. -/
def swapTag : UInt16 := 0x0100

/-- The tag under which all ranks gather a word. -/
def gatherTag : UInt16 := 0x0200

/-- The tag of reductions. -/
def reduceTag : UInt16 := 0x0300

/-- The tag of scans. -/
def scanTag : UInt16 := 0x0400

/-! ## Words -/

/-- The word that each member contributes. -/
def gatherNumbers (seat : Seat) (group : Group) (tag : UInt16) (value : Nat) :
    Proc κ (List Nat) := do
  let words ← gatherOne seat group tag (UInt64.ofNat value)
  return words.map UInt64.toNat

/-- The sum of the members' words. -/
def sumNumbers (seat : Seat) (group : Group) (tag : UInt16) (value : Nat) : Proc κ Nat := do
  let values ← gatherNumbers seat group tag value
  Proc.ofChecked (word values.sum)

/-- The largest of the members' words. -/
def maxNumber (seat : Seat) (group : Group) (tag : UInt16) (value : Nat) : Proc κ Nat := do
  let values ← gatherNumbers seat group tag value
  return values.max?.getD value

/-- Whether it holds for all members. -/
def holdsForAll (seat : Seat) (group : Group) (tag : UInt16) (value : Bool) : Proc κ Bool := do
  let flags ← gatherOne seat group tag value.toUInt8
  return flags.all (· ≠ 0)

/-- Where the part of a member starts if the members' parts are laid end to end, and
    the length of all parts. -/
def scanNumbers (seat : Seat) (group : Group) (tag : UInt16) (value : Nat) :
    Proc κ (Nat × Nat) := do
  let values ← gatherNumbers seat group tag value
  let before := (group.ranks.zip values).takeWhile fun (rank, _) => rank ≠ seat.rank
  let total ← Proc.ofChecked (word values.sum)
  return ((before.map (·.2)).sum, total)

/-! ## Scalars -/

/-- The members' lists combined position by position, from the first member on. All
    lists have the same length, that of the list of this member. -/
def foldContributions {α : Type} (combine : α → α → α) (own : List α) :
    List (List α × Nat) → Checked (List α)
  | [] => .ok own
  | (first, _) :: rest => do
    if first.length ≠ own.length then
      throw (.shape .reductionValues own.length first.length)
    rest.foldlM (fun sofar (next, rank) => do
      if next.length ≠ sofar.length then
        throw (.disagreement .reductionWidth rank sofar.length next.length)
      return sofar.zipWith combine next) first

/-- The members' lists of scalars, combined position by position. -/
def reduceScalars {α : Type} [Layout κ α] (combine : α → α → α) (seat : Seat) (group : Group)
    (tag : UInt16) (values : List α) : Proc κ (List α) := do
  let lists ← gather seat group tag values
  Proc.ofChecked (foldContributions combine values (lists.zip group.ranks))

section Scalars

variable {α : Type} [Layout κ α] [Scalar α] (seat : Seat) (group : Group) (tag : UInt16)

/-- The sums of the members' scalars. -/
def sumScalars (values : List α) : Proc κ (List α) :=
  reduceScalars (· + ·) seat group tag values

/-- The smallest of the members' scalars. -/
def minScalars (values : List α) : Proc κ (List α) :=
  reduceScalars Scalar.min seat group tag values

/-- The largest of the members' scalars. -/
def maxScalars (values : List α) : Proc κ (List α) :=
  reduceScalars Scalar.max seat group tag values

end Scalars

end SharedMesh
