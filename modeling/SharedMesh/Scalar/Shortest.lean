/-!
# Shortest decimals

A binary floating-point number is read back from any decimal that lies closer to
it than to its neighbours. `Dyadic.shortest` finds the decimal with the fewest
digits among those, and of several with equally few the nearest: it walks the
decimal grids from coarse to fine and tests, in exact arithmetic, the two points
of a grid next to the number. The first grid with a hit wins.

`Decimal.positional` writes a decimal without an exponent and without a point
where no digit follows it.
-/

namespace SharedMesh

-- Powers are those of core, also beside Mathlib.
attribute [local instance (high)] instPowNat

/-- The positive number `significand * 2 ^ exponent`, with the distances to its
    neighbours: the gap above is one unit of the significand; the gap below is
    half a unit if `tight`. -/
structure Dyadic where
  significand : Nat
  exponent : Int
  tight : Bool
deriving DecidableEq, Repr

/-- The number `digits * 10 ^ exponent`. -/
structure Decimal where
  digits : Nat
  exponent : Int
deriving DecidableEq, Repr

namespace Dyadic

/-- The factor that turns digits on the grid of `10 ^ e` into common units with
    quarters of the significand of `v`. -/
def decimalScale (v : Dyadic) (e : Int) : Nat :=
  10 ^ e.toNat * 2 ^ (2 - v.exponent).toNat

/-- The factor that turns quarters of the significand of `v` into the same units. -/
def binaryScale (v : Dyadic) (e : Int) : Nat :=
  2 ^ (v.exponent - 2).toNat * 10 ^ (-e).toNat

/-- Whether `digits * 10 ^ e` is read back as `v`: it lies between the midpoints to
    the neighbours, which themselves are read as the even significand. -/
def readBack (v : Dyadic) (e : Int) (digits : Nat) : Bool :=
  let point := digits * v.decimalScale e
  let low := (4 * v.significand - (if v.tight then 1 else 2)) * v.binaryScale e
  let high := (4 * v.significand + 2) * v.binaryScale e
  if v.significand % 2 = 0 then low ≤ point && point ≤ high else low < point && point < high

/-- The decimal on the grid of `10 ^ e` that is read back as `v`, if there is one:
    the nearer of the two points around `v`, the upper one at equal distance. -/
def onGrid? (v : Dyadic) (e : Int) : Option Decimal :=
  let exact := 4 * v.significand * v.binaryScale e
  let unit := v.decimalScale e
  let below := exact / unit
  let above := below + 1
  match v.readBack e below, v.readBack e above with
  | true, true =>
    if exact - below * unit < above * unit - exact then some ⟨below, e⟩ else some ⟨above, e⟩
  | true, false => some ⟨below, e⟩
  | false, true => some ⟨above, e⟩
  | false, false => none

/-- The least `k` from `-324` on with `v < 10 ^ k`; double precision needs no more
    than `309`. -/
def magnitude (v : Dyadic) : Int :=
  let isAbove (i : Nat) : Bool :=
    let k : Int := (i : Int) - 324
    4 * v.significand * v.binaryScale k < v.decimalScale k
  (((List.range 634).find? isAbove).getD 634 : Nat) - (324 : Int)

/-- The shortest decimal that is read back as `v`. Seventeen digits always
    suffice in double precision. -/
def shortest (v : Dyadic) : Decimal :=
  let top := v.magnitude
  let tries := (List.range 17).map fun n => v.onGrid? (top - (n + 1 : Nat))
  (tries.findSome? id).getD ⟨0, 0⟩

end Dyadic

namespace Decimal

/-- The digits of `n`, with zeros in front up to `width` digits. -/
def padded (width n : Nat) : List Char :=
  let digits := Nat.toDigits 10 n
  List.replicate (width - digits.length) '0' ++ digits

/-- A fraction's digits without the zeros at their end. -/
def trimmed (digits : List Char) : List Char :=
  (digits.reverse.dropWhile (· == '0')).reverse

/-- The decimal in positional notation: never an exponent, no zeros at the end of
    a fraction, and no point without a fraction. -/
def positional (d : Decimal) : String :=
  if 0 ≤ d.exponent then toString (d.digits * 10 ^ d.exponent.toNat)
  else
    let places := (-d.exponent).toNat
    let whole := toString (d.digits / 10 ^ places)
    let fraction := trimmed (padded places (d.digits % 10 ^ places))
    if fraction.isEmpty then whole else whole ++ "." ++ String.ofList fraction

end Decimal

end SharedMesh
