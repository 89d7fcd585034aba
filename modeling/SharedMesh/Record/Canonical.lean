import SharedMesh.Record.Rows
import SharedMesh.Record.Turn

/-!
# Canonical records

Copies of one edge or face may be written from different vertices and in different
directions. Their *canonical* record puts the vertex with the smallest global
number first and, from degree three on, the smaller of its two neighbours in the
cycle second. `Turn.toCanonical` is the turn that takes a record there.

A record that lists a number twice denotes no entity and is refused.
-/

namespace SharedMesh

/-- The slot of the smallest number, the first one of equals. -/
def leastSlot (record : List Nat) : Nat :=
  match record.min? with
  | none => 0
  | some least => record.idxOf least

namespace Turn

/-- The turn that takes a record of `degree` numbers to its canonical form. -/
def toCanonical (degree : Nat) (record : List Nat) : Turn :=
  let least := leastSlot record
  if degree < 3 then pack false (UInt8.ofNat least)
  else
    let next := record.getD ((least + 1) % degree) 0
    let previous := record.getD ((least + degree - 1) % degree) 0
    pack (previous < next) (UInt8.ofNat least)

/-- The turn to canonical form of a list that need not be a whole record: both
    neighbours of the smallest number must be there. -/
def toCanonical? (degree : Nat) (record : List Nat) : Checked Turn :=
  let least := leastSlot record
  if 3 ≤ degree ∧ (record.length ≤ (least + 1) % degree ∨
      record.length ≤ (least + degree - 1) % degree) then
    .error (.breach .missingIndex)
  else .ok (toCanonical degree record)

end Turn

/-- The first number of a record that comes again later in it. -/
def firstRepeat? : List Nat → Option Nat
  | [] => none
  | g :: rest => if g ∈ rest then some g else firstRepeat? rest

/-- How many records of `degree` values a list holds; it must hold whole ones. -/
def countRecords (degree length : Nat) : Checked Nat :=
  if holdsRecords degree length then .ok (length / degree)
  else .error (.connectivity (.brokenRecords length degree))

/-- The turns that take the records of a flat list to canonical form. If several records list
    a number twice, the error is about the first of them; records are checked independently of
    each other, so that it may as well be about another one. -/
def canonicalTurns (degree : Nat) (globals : List Nat) : Checked (List Turn) := do
  let _ ← countRecords degree globals.length
  (rows degree globals).zipIdx.mapM fun (record, e) =>
    match firstRepeat? record with
    | some g => .error (.degenerate e g)
    | none => .ok (Turn.toCanonical degree record)

/-- The flat list with every record turned by its own turn. -/
def turnRecords {α : Type} (degree : Nat) (values : List α) (turns : List Turn) :
    Checked (List α) := do
  let count ← countRecords degree values.length
  if turns.length ≠ count then throw (.shape .canonicalCodes count turns.length)
  return ((rows degree values).zipWith (fun record t => t.apply degree record) turns).flatten

/-- Records in canonical form. -/
structure Canonical where
  degree : Nat
  /-- The turn that was applied to each record. -/
  turns : List Turn
  /-- The local vertices of the records, canonically ordered. -/
  vertices : List Nat
  /-- The global numbers of the same vertices. -/
  globals : List Nat
deriving DecidableEq, Repr

namespace Canonical

/-- How many records there are. -/
def count (c : Canonical) : Nat := c.turns.length

/-- The smallest global number of each record. -/
def firstGlobals (c : Canonical) : List Nat :=
  (rows c.degree c.globals).filterMap List.head?

/-- The global number of a vertex, which must have one. -/
def numberOf (numbers : Array Nat) (v : Nat) : Checked Nat :=
  match numbers[v]? with
  | some g => .ok g
  | none => .error (.connectivity (.missingVertex v numbers.size))

/-- The records of local vertices in canonical form, by the vertices' global
    numbers. -/
def ofRecords (degree : Nat) (vertices numbers : List Nat) : Checked Canonical := do
  let _ ← countRecords degree vertices.length
  let globals ← vertices.mapM (numberOf numbers.toArray)
  let turns ← canonicalTurns degree globals
  return {
    degree, turns
    vertices := ← turnRecords degree vertices turns
    globals := ← turnRecords degree globals turns }

end Canonical

end SharedMesh
