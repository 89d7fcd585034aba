import SharedMesh.Record.Turn
import SharedMesh.Shape

/-!
# Interchange

Places, turns and shapes are kept in files as plain data: a place as a rank and an
index by name, a turn as its byte, a shape by its name. Reading accepts what writing
produces, and besides places as two numbers in order and shapes as names of nothing.
-/

namespace SharedMesh

/-- Plain data, as far as it matters here. -/
inductive Datum
  | null
  | number (n : Nat)
  | text (s : String)
  | list (items : List Datum)
  | fields (entries : List (String × Datum))
  /-- Anything else, such as a number that is no count. -/
  | other
deriving Inhabited

namespace Datum

/-- A count, which is a word. -/
def toCount? : Datum → Option Nat
  | number n => if n < UInt64.size then some n else none
  | _ => none

end Datum

namespace Place

/-- A place as plain data. -/
def toDatum (p : Place) : Datum := .fields [("rank", .number p.rank), ("index", .number p.index)]

/-- The place in plain data. Other fields are passed over. -/
def ofDatum? : Datum → Option Place
  | .fields entries => do
    let rank ← (← entries.lookup "rank").toCount?
    let index ← (← entries.lookup "index").toCount?
    return ⟨rank, index⟩
  | .list [rank, index] => return ⟨← rank.toCount?, ← index.toCount?⟩
  | _ => none

end Place

namespace Turn

/-- A turn as plain data. -/
def toDatum (t : Turn) : Datum := .number t.bits.toNat

/-- The turn in plain data. -/
def ofDatum? : Datum → Option Turn
  | .number n => if n < UInt8.size then some ⟨UInt8.ofNat n⟩ else none
  | _ => none

end Turn

namespace Shape

/-- The name of a shape. -/
def name : Shape → String
  | simplex => "Simplex"
  | hypercube => "Hypercube"

/-- The shape of that name. -/
def ofName? (s : String) : Option Shape :=
  [simplex, hypercube].find? fun shape => shape.name = s

/-- A shape as plain data. -/
def toDatum (s : Shape) : Datum := .text s.name

/-- The shape in plain data. -/
def ofDatum? : Datum → Option Shape
  | .text s => ofName? s
  | .fields [(s, .null)] => ofName? s
  | _ => none

end Shape

end SharedMesh
