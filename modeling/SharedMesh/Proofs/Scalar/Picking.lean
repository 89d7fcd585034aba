import SharedMesh.Proofs.Scalar.Exact

/-!
# Picking exact numbers

Exact numbers and infinities are ordered (`Exact.extended`). Minima and maxima are what comes first
of two numbers in this order or in the opposite one (`pickFirst`), and so what is picked from a list
is the number in it that comes before all others (`Orders.foldl_spec`), however the list is
arranged (`Orders.foldl_perm`).
-/

namespace SharedMesh

namespace Exact

/-- The number among the rational numbers with a bottom and a top. -/
def extended : Exact → WithBot (WithTop ℚ)
  | negInfinity => ⊥
  | number q => ↑(q : WithTop ℚ)
  | infinity => ⊤

theorem extended_injective : Function.Injective extended := by
  intro x y h
  cases x <;> cases y <;> simp_all [extended]

theorem le_iff {x y : Exact} : Scalar.le x y = true ↔ x.extended ≤ y.extended := by
  cases x <;> cases y <;> simp [extended, Scalar.le, le]

end Exact

open Exact

/-- The number that comes first in some order; of equal ones the second is picked. -/
def pickFirst (before : Exact → Exact → Bool) (x y : Exact) : Exact := if before y x then y else x

/-- A comparison by which all numbers are ordered. -/
structure Orders (before : Exact → Exact → Bool) : Prop where
  trans : ∀ {x y z}, before x y = true → before y z = true → before x z = true
  antisymm : ∀ {x y}, before x y = true → before y x = true → x = y
  total : ∀ x y, before x y = true ∨ before y x = true

theorem orders_le : Orders Scalar.le where
  trans hxy hyz := le_iff.2 ((le_iff.1 hxy).trans (le_iff.1 hyz))
  antisymm hxy hyx := extended_injective ((le_iff.1 hxy).antisymm (le_iff.1 hyx))
  total x y := (le_total x.extended y.extended).imp le_iff.2 le_iff.2

namespace Orders

variable {before : Exact → Exact → Bool}

theorem swap (h : Orders before) : Orders fun x y => before y x where
  trans hxy hyz := h.trans hyz hxy
  antisymm hxy hyx := h.antisymm hyx hxy
  total x y := h.total y x

theorem refl (h : Orders before) (x : Exact) : before x x = true := (h.total x x).elim id id

/-- One of two numbers is picked, and comes before both. -/
theorem pickFirst_spec (h : Orders before) (x y : Exact) :
    (pickFirst before x y = x ∨ pickFirst before x y = y) ∧
      before (pickFirst before x y) x = true ∧ before (pickFirst before x y) y = true := by
  rw [pickFirst]
  split
  · next hyx => exact ⟨.inr rfl, hyx, h.refl y⟩
  · next hyx => exact ⟨.inl rfl, h.refl x, (h.total x y).resolve_right hyx⟩

/-- What is picked from some numbers is one of them, and comes before all of them. -/
theorem foldl_spec (h : Orders before) (x : Exact) (xs : List Exact) :
    xs.foldl (pickFirst before) x ∈ x :: xs ∧
      ∀ y ∈ x :: xs, before (xs.foldl (pickFirst before) x) y = true := by
  induction xs generalizing x with
  | nil =>
    simp only [List.mem_singleton, forall_eq]
    exact ⟨rfl, h.refl x⟩
  | cons z xs ih =>
    obtain ⟨hmem, hbefore⟩ := ih (pickFirst before x z)
    obtain ⟨hpicked, hx, hz⟩ := h.pickFirst_spec x z
    rw [List.forall_mem_cons] at hbefore
    rw [List.foldl_cons]
    constructor
    · simp only [List.mem_cons] at hmem ⊢
      rcases hmem with heq | hmem
      · rw [heq]
        exact hpicked.imp_right .inl
      · exact .inr (.inr hmem)
    · simp only [List.forall_mem_cons]
      exact ⟨h.trans hbefore.1 hx, h.trans hbefore.1 hz, hbefore.2⟩

/-- What is picked does not depend on how the numbers are arranged. -/
theorem foldl_perm (h : Orders before) (x : Exact) {xs ys : List Exact} (hperm : xs.Perm ys) :
    xs.foldl (pickFirst before) x = ys.foldl (pickFirst before) x := by
  obtain ⟨hxs, hfirst⟩ := h.foldl_spec x xs
  obtain ⟨hys, hfirst'⟩ := h.foldl_spec x ys
  have hmem : ∀ z, z ∈ x :: xs ↔ z ∈ x :: ys := fun z => (hperm.cons x).mem_iff
  exact h.antisymm (hfirst _ ((hmem _).2 hys)) (hfirst' _ ((hmem _).1 hxs))

end Orders

end SharedMesh
