import Mathlib.Algebra.Order.Field.Rat
import SharedMesh.Scalar.Basic

/-!
# Exact numbers

The rational numbers, with an infinity at either end, are scalars that do not round
(`Exact`). What is said about the operations on scalars can be read as plain arithmetic
here: each operation on numbers yields the number one expects, and comparisons are those of
the rationals.
-/

namespace SharedMesh

/-- A rational number, or an infinity. -/
inductive Exact where
  | negInfinity
  | number (q : ℚ)
  | infinity
deriving DecidableEq

namespace Exact

/-- The rational number; infinities have none. -/
def value : Exact → ℚ
  | number q => q
  | _ => 0

/-- Whether it is not above another one. -/
def le : Exact → Exact → Bool
  | negInfinity, _ => true
  | _, infinity => true
  | number p, number q => decide (p ≤ q)
  | _, _ => false

/-- An operation on numbers. With an infinity it yields an infinity. -/
def operate (f : ℚ → ℚ → ℚ) : Exact → Exact → Exact
  | number p, number q => number (f p q)
  | _, _ => infinity

/-- The number with the opposite sign. -/
def opposite : Exact → Exact
  | negInfinity => infinity
  | number q => number (-q)
  | infinity => negInfinity

instance : Scalar Exact where
  add := operate (· + ·)
  sub := operate (· - ·)
  mul := operate (· * ·)
  div := operate (· / ·)
  neg := opposite
  ofNat n := number n
  infinity := infinity
  min x y := if le y x then y else x
  max x y := if le x y then y else x
  abs
    | number q => number |q|
    | _ => infinity
  lt x y := !le y x
  le := le
  isFinite
    | number _ => true
    | _ => false
  floor x := x.value.floor.toNat
  text x := toString x.value

variable (p q : ℚ) (x y : Exact)

@[simp] theorem value_number : (number q).value = q := rfl

@[simp] theorem number_add : number p + number q = number (p + q) := rfl

@[simp] theorem number_sub : number p - number q = number (p - q) := rfl

@[simp] theorem number_mul : number p * number q = number (p * q) := rfl

@[simp] theorem number_div : number p / number q = number (p / q) := rfl

@[simp] theorem neg_number : -number q = number (-q) := rfl

@[simp] theorem ofNat_eq (n : Nat) : (Scalar.ofNat n : Exact) = number n := rfl

@[simp] theorem abs_number : Scalar.abs (number q) = number |q| := rfl

@[simp] theorem le_number : Scalar.le (number p) (number q) = decide (p ≤ q) := rfl

theorem zero_eq : (Scalar.zero : Exact) = number 0 := congrArg number Nat.cast_zero

theorem lt_eq_not_le : Scalar.lt x y = !Scalar.le y x := rfl

@[simp] theorem lt_number : Scalar.lt (number p) (number q) = decide (p < q) := by
  rw [lt_eq_not_le, le_number, ← decide_not]
  exact decide_eq_decide.2 not_le

variable {x y}

/-- Scalars that are finite are numbers. -/
theorem eq_number (h : Scalar.isFinite x = true) : x = number x.value := by
  cases x with
  | number q => rfl
  | negInfinity => cases h
  | infinity => cases h

/-- Numbers are added up from left to right. -/
theorem foldl_add {β : Type} (f : β → ℚ) (xs : List β) (q : ℚ) :
    xs.foldl (fun sum x => sum + number (f x)) (number q) = number (q + (xs.map f).sum) := by
  induction xs generalizing q with
  | nil => simp
  | cons x xs ih =>
    rw [List.foldl_cons, number_add, ih, List.map_cons, List.sum_cons, add_assoc]

end Exact

end SharedMesh
