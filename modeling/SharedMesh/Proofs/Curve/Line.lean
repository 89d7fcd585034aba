import Mathlib.Algebra.Order.Floor.Ring
import Mathlib.Data.Rat.Floor
import SharedMesh.Proofs.Curve.Stability

/-!
# The curve along a line

Along one axis the key of a point is its cell (`cloudKeys_onLine`), and cells ascend with the
coordinates (`lineCell_mono`). Coordinates of different cells are therefore visited in numeric
order. Those of one cell are visited as they were given, whatever their values, so the order of
the curve is the numeric order if and only if the coordinates of each cell were given in it
(`order_numeric_iff`).

The grid has finitely many cells between the least coordinate and the greatest, so there are
coordinates that share a cell and are visited in the wrong order (`not_order_numeric`).
-/

namespace SharedMesh.Hilbert

-- Powers and the order of lists are those of core, also beside Mathlib.
attribute [local instance (high)] instPowNat List.instLE List.decidableLE

/-! ## Cells on a line -/

section

variable {α : Type} {coords : List α}

/-- Coordinates as points on a line. -/
def onLine (coords : List α) : List (List α) := coords.map fun x => [x]

theorem flatten_onLine (coords : List α) : (onLine coords).flatten = coords := by
  induction coords with
  | nil => rfl
  | cons x coords ih => exact congrArg (x :: ·) ih

theorem foldl_zipWith_onLine (f : α → α → α) (start : α) (coords : List α) :
    (onLine coords).foldl (List.zipWith f) [start] = [coords.foldl f start] := by
  induction coords generalizing start with
  | nil => rfl
  | cons x coords ih => exact ih (f start x)

variable [Scalar α]

theorem isCloud_onLine (h : ∀ x ∈ coords, Scalar.isFinite x = true) :
    IsCloud 1 (onLine coords) := by
  intro point hpoint
  obtain ⟨x, hx, rfl⟩ := List.mem_map.1 hpoint
  exact ⟨rfl, by simpa using h x hx⟩

/-- The cell of a coordinate on the line that some coordinates span. -/
def lineCell (coords : List α) (x : α) : Nat :=
  cellAlong (Scalar.max Scalar.zero (Scalar.greatest coords - Scalar.least coords))
    (x - Scalar.least coords)

theorem cloudKeys_onLine (coords : List α) :
    cloudKeys 1 (onLine coords) = coords.map fun x => [lineCell coords x] := by
  have hlower : lowerCorner 1 (onLine coords) = [Scalar.least coords] :=
    foldl_zipWith_onLine ..
  have hupper : upperCorner 1 (onLine coords) = [Scalar.greatest coords] :=
    foldl_zipWith_onLine ..
  rw [cloudKeys, hlower, hupper, onLine, List.map_map]
  exact List.map_congr_left fun x _ => keyWords_singleton (cellAlong_lt _ _)

theorem order_onLine (h : ∀ x ∈ coords, Scalar.isFinite x = true) :
    order 1 coords = .ok (sortedBy (coords.map fun x => [lineCell coords x])) := by
  have horder := order_flatten Nat.one_pos (by decide) (isCloud_onLine h)
  rwa [flatten_onLine, curveOrder, cloudKeys_onLine] at horder

end

/-! ## Numeric order -/

open Exact

variable {coords : List Exact} {visit : List Nat}

/-- An order that lists the number of every coordinate once, along which the coordinates ascend,
    and equal ones are as they were. -/
structure InNumericOrder (coords : List Exact) (visit : List Nat) : Prop where
  perm : visit.Perm (List.range coords.length)
  ascending : (arranged coords visit).Pairwise fun x y => x.value ≤ y.value
  stable : visit.Pairwise fun i j => coords[i]? = coords[j]? → i < j

theorem cellAlong_mono (side low : Exact) {p q : ℚ} (h : p ≤ q) :
    cellAlong side (number p - low) ≤ cellAlong side (number q - low) := by
  cases low with
  | negInfinity => exact Nat.le_refl _
  | infinity => exact Nat.le_refl _
  | number low =>
    cases side with
    | negInfinity => exact Nat.le_refl _
    | infinity => exact Nat.le_refl _
    | number side =>
      rw [cellAlong, cellAlong, zero_eq, lt_number]
      split
      · next hside =>
        have hside : 0 < side := of_decide_eq_true hside
        have hfloor : ⌊(p - low) / side * (2 ^ resolution : Nat)⌋ ≤
            ⌊(q - low) / side * (2 ^ resolution : Nat)⌋ := by
          gcongr
        exact Nat.le_min.2 ⟨(Nat.min_le_left ..).trans (Int.toNat_le_toNat hfloor),
          Nat.min_le_right ..⟩
      · exact Nat.le_refl _

theorem lineCell_mono {x y : Exact} (hx : Scalar.isFinite x = true) (hy : Scalar.isFinite y = true)
    (h : x.value ≤ y.value) : lineCell coords x ≤ lineCell coords y := by
  rw [eq_number hx, eq_number hy]
  exact cellAlong_mono _ _ h

theorem pairwise_arranged_iff {α : Type} {R : α → α → Prop} {items : List α} {order : List Nat} :
    (arranged items order).Pairwise R ↔ order.Pairwise fun i j =>
      ∀ x, items[i]? = some x → ∀ y, items[j]? = some y → R x y := by
  rw [arranged_eq_filterMap, List.pairwise_filterMap]

theorem singleton_le_iff {m n : Nat} : [m] ≤ [n] ↔ m ≤ n := by
  rw [List.cons_le_cons_iff, and_iff_left (List.le_refl _), Nat.le_iff_lt_or_eq]

/-- In an order in which equal keys come as they were, the first of two comes first. -/
theorem StablySorts.rel_of_lt {keys : List (List Nat)} {visit : List Nat}
    (h : StablySorts keys visit) {R : Nat → Nat → Prop} (hR : visit.Pairwise R) {i j : Nat}
    (hij : i < j) (hj : j < keys.length) (heq : keys[i]? = keys[j]?) : R i j := by
  have hmem : ∀ k < keys.length, k ∈ visit := fun k hk => h.perm.mem_iff.2 (List.mem_range.2 hk)
  let S (i j : Nat) : Prop := (keys[i]? = keys[j]? → i < j) ∧ R i j
  have hS : visit.Pairwise fun i j => S i j ∨ S j i := (h.stable.and hR).imp .inl
  have : Std.Symm fun i j => S i j ∨ S j i := ⟨fun _ _ => Or.symm⟩
  rcases hS.forall (hmem i (hij.trans hj)) (hmem j hj) hij.ne with hfirst | hlast
  · exact hfirst.2
  · exact absurd (hlast.1 heq.symm) hij.asymm

/-- Cells that are sorted leave coordinates in numeric order just if those of each cell were. -/
theorem inNumericOrder_iff (hfinite : ∀ x ∈ coords, Scalar.isFinite x = true)
    (h : StablySorts (coords.map fun x => [lineCell coords x]) visit) :
    InNumericOrder coords visit ↔ coords.Pairwise fun x y =>
      lineCell coords x = lineCell coords y → x.value ≤ y.value := by
  have hascending := h.ascending
  have hstable := h.stable
  rw [arranged_map, List.pairwise_map, pairwise_arranged_iff] at hascending
  constructor
  · intro hnumeric
    refine List.pairwise_iff_getElem.2 fun i j hi hj hij hcell => ?_
    have hvalues := pairwise_arranged_iff.1 hnumeric.ascending
    exact h.rel_of_lt hvalues hij (by simpa using hj) (by simp [hi, hj, hcell])
      _ (List.getElem?_eq_getElem hi) _ (List.getElem?_eq_getElem hj)
  · intro hcells
    refine ⟨by simpa using h.perm, pairwise_arranged_iff.2 ?_, ?_⟩
    · refine (hascending.and hstable).imp fun {i j} hij x hx y hy => ?_
      obtain ⟨hle, hfirst⟩ := hij
      by_contra hlt
      -- two that come in the wrong order share a cell, and then they were in the wrong order
      have hmono : lineCell coords y ≤ lineCell coords x :=
        lineCell_mono (hfinite y (List.mem_of_getElem? hy)) (hfinite x (List.mem_of_getElem? hx))
          (le_of_not_ge hlt)
      have hcell : lineCell coords x = lineCell coords y :=
        Nat.le_antisymm (singleton_le_iff.1 (hle x hx y hy)) hmono
      have hij : i < j := hfirst (by simp [hx, hy, hcell])
      obtain ⟨hi, rfl⟩ := List.getElem?_eq_some_iff.1 hx
      obtain ⟨hj, rfl⟩ := List.getElem?_eq_some_iff.1 hy
      exact hlt (List.pairwise_iff_getElem.1 hcells i j hi hj hij hcell)
    · exact hstable.imp fun {i j} hij heq => hij (by simp [heq])

/-- Any finite coordinates are visited in the order of their cells, those of one cell as they were
    given. This is the numeric order if and only if the coordinates of each cell were given in
    numeric order. -/
theorem order_numeric_iff (hfinite : ∀ x ∈ coords, Scalar.isFinite x = true) :
    ∃ visit, order 1 coords = .ok visit ∧
      StablySorts (coords.map fun x => [lineCell coords x]) visit ∧
      (InNumericOrder coords visit ↔ coords.Pairwise fun x y =>
        lineCell coords x = lineCell coords y → x.value ≤ y.value) := by
  have hstable := sortedBy_stable (coords.map fun x => [lineCell coords x])
  exact ⟨_, order_onLine hfinite, hstable, inNumericOrder_iff hfinite hstable⟩

/-- Four coordinates in three cells, of which two are the same. -/
theorem order_numeric_iff_fourCoordinates :
    let coords : List Exact := [.number 1, .number (-1), .number (1 / 2), .number (-1)]
    (∀ x ∈ coords, Scalar.isFinite x = true) ∧
      ∃ visit, order 1 coords = .ok visit ∧ InNumericOrder coords visit := by
  intro coords
  have hfinite : ∀ x ∈ coords, Scalar.isFinite x = true := by decide
  obtain ⟨visit, hvisit, _, hiff⟩ := order_numeric_iff hfinite
  exact ⟨hfinite, visit, hvisit, hiff.2 (by decide +kernel)⟩

/-- Zero and the number `2⁻⁶⁰` share the first of the cells up to one, and are visited as they
    were given. -/
theorem not_order_numeric : ¬∀ coords : List Exact, (∀ x ∈ coords, Scalar.isFinite x = true) →
    ∃ visit, order 1 coords = .ok visit ∧ InNumericOrder coords visit := by
  intro h
  let coords : List Exact := [.number (1 / 2 ^ 60), .number 0, .number 1]
  have hfinite : ∀ x ∈ coords, Scalar.isFinite x = true := by decide
  obtain ⟨visit, hvisit, hnumeric⟩ := h coords hfinite
  rw [order_onLine hfinite] at hvisit
  have hcells :=
    (inNumericOrder_iff hfinite (sortedBy_stable _)).1 (Except.ok.inj hvisit ▸ hnumeric)
  exact absurd hcells (by decide +kernel)

end SharedMesh.Hilbert
