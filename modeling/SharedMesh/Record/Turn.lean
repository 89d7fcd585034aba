import SharedMesh.Error

/-!
# Turns

A record of `degree` vertices is a cycle, so it can be written down from any vertex
on and in either direction. A *turn* is such a rewriting: a rotation, perhaps with
a flip that reverses the cycle. Turned by `t`, a record `x` becomes the record that
holds `x[t.source degree i]` at `i`.

A turn is one byte: the flip is the lowest bit, the rotation the seven bits above
it. The rotation is meant modulo the degree, so different bytes may turn alike.
-/

namespace SharedMesh

/-- A rotation and a flip of a record, packed into a byte. -/
structure Turn where
  bits : UInt8
deriving DecidableEq, Repr, Inhabited

namespace Turn

/-- The turn that leaves every record as it is. -/
def identity : Turn := ⟨0⟩

/-- A turn by `rotation`, of which the top bit is lost. -/
def pack (flipped : Bool) (rotation : UInt8) : Turn :=
  ⟨rotation <<< 1 ||| flipped.toUInt8⟩

/-- Whether the turn reverses the cycle. -/
def flipped (t : Turn) : Bool := t.bits &&& 1 == 1

/-- Where the turned record starts. -/
def rotation (t : Turn) : UInt8 := t.bits >>> 1

/-- The slot whose value moves to slot `i`. -/
def source (t : Turn) (degree i : Nat) : Nat :=
  let along := if t.flipped then (degree - i) % degree else i
  (t.rotation.toNat + along) % degree

/-- The turn by `first`, then by `next`. Slot zero tells its rotation, and from
    degree three on slot one tells whether it flips. -/
def compose (degree : Nat) (first next : Turn) : Turn :=
  let start := first.source degree (next.source degree 0)
  if degree < 3 then pack false (UInt8.ofNat start)
  else
    let second := first.source degree (next.source degree 1)
    pack (second ≠ (start + 1) % degree) (UInt8.ofNat start)

/-- The turn that undoes `t`. A flip undoes itself. -/
def inverse (degree : Nat) (t : Turn) : Turn :=
  if t.flipped then t
  else
    let modulus := Nat.max degree 1
    pack false (UInt8.ofNat ((degree - t.rotation.toNat % modulus) % modulus))

/-- The turns by the first one, the first two, … of some turns. Records of no
    vertices have no slots to turn. -/
def products (degree : Nat) : Turn → List Turn → Checked (List Turn)
  | _, [] => .ok []
  | sofar, t :: rest => do
    if degree = 0 then throw (.breach .zeroDivision)
    let next := compose degree sofar t
    return next :: (← products degree next rest)

/-- The record turned by `t`. -/
def apply {α : Type} (t : Turn) (degree : Nat) (record : List α) : List α :=
  (List.range degree).filterMap fun i => record[t.source degree i]?

/-- A turn in words. -/
def text (t : Turn) : String :=
  s!"CanonCode \x7b rot: {t.rotation}, flip: {t.flipped} \x7d"

end Turn

end SharedMesh
