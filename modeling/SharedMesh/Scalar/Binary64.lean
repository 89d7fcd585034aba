import SharedMesh.Scalar.Axes
import SharedMesh.Scalar.Shortest

/-!
# Double precision

`Binary64` is a floating-point number of double precision, kept as its bit
pattern: two numbers are equal only if their bits are, so that a message moves
undefined numbers and signed zeros unchanged. Arithmetic goes through the
machine's numbers and rounds as they do; an undefined operand is handed on with its
sign and payload.
-/

namespace SharedMesh

-- Powers are those of core, also beside Mathlib.
attribute [local instance (high)] instPowNat

/-- A floating-point number of double precision, by its bits. -/
structure Binary64 where
  bits : UInt64
deriving DecidableEq, Repr, Inhabited

namespace Binary64

/-- The machine's number for the bits. -/
def toFloat (x : Binary64) : Float := Float.ofBits x.bits

/-- The bits of the machine's number. -/
def ofFloat (x : Float) : Binary64 := ⟨x.toBits⟩

/-- The sign bit. -/
def isNegative (x : Binary64) : Bool := x.bits.toNat.testBit 63

/-- How many bits of the significand are stored. -/
def fractionBits : Nat := 52

/-- How many bits the exponent has. -/
def exponentBits : Nat := 11

/-- The bits of the exponent. -/
def exponentField (x : Binary64) : Nat := x.bits.toNat / 2 ^ fractionBits % 2 ^ exponentBits

/-- The bits of the significand that are stored. -/
def fractionField (x : Binary64) : Nat := x.bits.toNat % 2 ^ fractionBits

/-- The absolute value of a finite number other than zero. -/
def toDyadic (x : Binary64) : Dyadic :=
  if x.exponentField = 0 then ⟨x.fractionField, -1074, false⟩
  else
    ⟨2 ^ fractionBits + x.fractionField, (x.exponentField : Int) - 1075,
      x.fractionField == 0 && x.exponentField ≠ 1⟩

/-- The number in the fewest decimal digits that read back, in positional
    notation. -/
def text (x : Binary64) : String :=
  let sign := if x.isNegative then "-" else ""
  if x.exponentField = 2047 then
    if x.fractionField = 0 then sign ++ "inf" else "NaN"
  else if x.exponentField = 0 ∧ x.fractionField = 0 then sign ++ "0"
  else sign ++ x.toDyadic.shortest.positional

/-- Whether the number is undefined. -/
def isUndefined (x : Binary64) : Bool := x.exponentField = 2047 ∧ x.fractionField ≠ 0

/-- The undefined number that an operation yields on operands that are defined. -/
def undefined : Binary64 := ⟨0xfff8000000000000⟩

/-- An undefined number as an operation hands it on: it no longer signals. -/
def quieted (x : Binary64) : Binary64 := ⟨x.bits ||| 0x0008000000000000⟩

/-- An operation of the machine. Of undefined operands the first is handed on. -/
def lift (op : Float → Float → Float) (a b : Binary64) : Binary64 :=
  let result := ofFloat (op a.toFloat b.toFloat)
  if !result.isUndefined then result
  else if a.isUndefined then a.quieted
  else if b.isUndefined then b.quieted
  else undefined

/-- The smaller number; an undefined one gives way, and of equal numbers the second is
    kept. -/
def smaller (a b : Binary64) : Binary64 :=
  if a.toFloat < b.toFloat || b.isUndefined then a else b

/-- The larger number; an undefined one gives way, and of equal numbers the second is
    kept. -/
def larger (a b : Binary64) : Binary64 :=
  if b.toFloat < a.toFloat || b.isUndefined then a else b

instance : Scalar Binary64 where
  add := lift (· + ·)
  sub := lift (· - ·)
  mul := lift (· * ·)
  div := lift (· / ·)
  neg a := ⟨a.bits ^^^ 0x8000000000000000⟩
  ofNat n := ofFloat n.toUInt64.toFloat
  infinity := ⟨0x7ff0000000000000⟩
  min := smaller
  max := larger
  abs a := ⟨a.bits &&& 0x7fffffffffffffff⟩
  lt a b := a.toFloat < b.toFloat
  le a b := a.toFloat ≤ b.toFloat
  isFinite a := a.exponentField ≠ 2047
  floor a := a.toFloat.floor.toUInt64.toNat
  text := text

instance : AxisSolver Binary64 where
  principalAxis a :=
    let v := largestAxis
      ⟨a.xx.toFloat, a.xy.toFloat, a.xz.toFloat, a.yy.toFloat, a.yz.toFloat, a.zz.toFloat⟩
    ⟨ofFloat v.x, ofFloat v.y, ofFloat v.z⟩

end Binary64

end SharedMesh
