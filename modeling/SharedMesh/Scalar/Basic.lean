/-!
# Scalars

Coordinates and masses are *scalars*: a type with arithmetic, a comparison, a
largest value and a way to write a number down. The geometry of the library is
stated for every scalar type, so that its laws do not hang on rounding:
`SharedMesh.Scalar.Binary64` has the floating-point numbers it runs on.

No law is asked of the operations. Where a result depends on the order in which
scalars are added, the order is fixed by the definition.
-/

namespace SharedMesh

/-- The operations the geometry needs of its numbers. -/
class Scalar (α : Type) extends Add α, Sub α, Mul α, Div α, Neg α where
  /-- The number nearest to a count. -/
  ofNat : Nat → α
  /-- A number above all finite ones; minima start from it. -/
  infinity : α
  /-- The smaller of two numbers; an undefined one gives way, and of equal ones the
      second is kept. -/
  min : α → α → α
  /-- The larger of two numbers; an undefined one gives way, and of equal ones the
      second is kept. -/
  max : α → α → α
  abs : α → α
  lt : α → α → Bool
  le : α → α → Bool
  isFinite : α → Bool
  /-- The largest count that is not above the number, zero if there is none. -/
  floor : α → Nat
  /-- The number in decimal digits. -/
  text : α → String

namespace Scalar

variable {α : Type} [Scalar α]

/-- Zero, where moments start. -/
def zero : α := ofNat 0

/-- One half. -/
def half : α := ofNat 1 / ofNat 2

/-- The number below all finite ones; maxima start from it. -/
def negInfinity : α := -infinity

/-- The sum of some numbers, from left to right. It starts from the opposite of zero,
    which adds nothing even to a signed zero. -/
def sum (xs : List α) : α :=
  xs.foldl (· + ·) (-zero)

/-- The smallest of some numbers. -/
def least (xs : List α) : α :=
  xs.foldl min infinity

/-- The largest of some numbers. -/
def greatest (xs : List α) : α :=
  xs.foldl max negInfinity

/-- The sums of neighbours in step: one sum per position. -/
def addEach (xs ys : List α) : List α :=
  xs.zipWith (· + ·) ys

end Scalar

/-- A vector of three scalars. -/
structure Vec3 (α : Type) where
  x : α
  y : α
  z : α
deriving DecidableEq, Repr

namespace Vec3

variable {α : Type} [Scalar α]

/-- The three components, in order. -/
def toList (v : Vec3 α) : List α := [v.x, v.y, v.z]

/-- The difference of two vectors. -/
def sub (v w : Vec3 α) : Vec3 α := ⟨v.x - w.x, v.y - w.y, v.z - w.z⟩

/-- The vector with every component divided by `s`. -/
def divide (v : Vec3 α) (s : α) : Vec3 α := ⟨v.x / s, v.y / s, v.z / s⟩

/-- The opposite vector. -/
def neg (v : Vec3 α) : Vec3 α := ⟨-v.x, -v.y, -v.z⟩

/-- The inner product, summed from the first component on. -/
def dot (v w : Vec3 α) : α := v.x * w.x + v.y * w.y + v.z * w.z

/-- The zero vector. -/
def zero : Vec3 α := ⟨Scalar.zero, Scalar.zero, Scalar.zero⟩

/-- The first coordinate axis. -/
def firstAxis : Vec3 α := ⟨Scalar.ofNat 1, Scalar.zero, Scalar.zero⟩

/-- The first component of the largest absolute value. -/
def dominant (v : Vec3 α) : α :=
  let larger (a b : α) : α := if Scalar.lt (Scalar.abs a) (Scalar.abs b) then b else a
  larger (larger v.x v.y) v.z

/-- The vector or its opposite, whichever has no negative dominant component. -/
def oriented (v : Vec3 α) : Vec3 α :=
  if Scalar.lt v.dominant Scalar.zero then v.neg else v

end Vec3

/-- A symmetric three by three tensor, by its upper triangle. -/
structure Sym3 (α : Type) where
  xx : α
  xy : α
  xz : α
  yy : α
  yz : α
  zz : α
deriving DecidableEq, Repr

/-- A scalar type for which the principal axis of a tensor can be computed. -/
class AxisSolver (α : Type) where
  /-- A unit vector along which the tensor is largest, up to sign. -/
  principalAxis : Sym3 α → Vec3 α

end SharedMesh
