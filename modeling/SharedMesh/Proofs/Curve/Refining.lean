import Mathlib.Order.Interval.Set.Basic
import SharedMesh.Proofs.Curve.Passes
import SharedMesh.Proofs.Curve.Positions

/-!
# Positions refine

The top bits of a position are the position of a coarser cell. Nothing that is done to a bit of
the coordinates depends on the bits below it, so a cell can as well be transposed after the
lowest bits were dropped (`transpose_shiftRight`), and what a level of the grid adds to a
position are its lowest bits, one for each axis (`position_shiftRight`). So the curve visits
the cells of an aligned cube one after the other (`position_refines`).
-/

namespace SharedMesh.Hilbert

-- Powers are those of core, also beside Mathlib.
attribute [local instance (high)] instPowNat

variable {bits axes : Nat} {cell : List Nat}

/-- The cell that is left of a cell in a grid of fewer bits. -/
def coarse (k : Nat) (cell : List Nat) : List Nat := cell.map (· >>> k)

@[simp] theorem length_coarse (k : Nat) (cell : List Nat) :
    (coarse k cell).length = cell.length := List.length_map _

theorem coarse_zero (cell : List Nat) : coarse 0 cell = cell := List.map_id cell

theorem coarse_succ (k : Nat) (cell : List Nat) :
    coarse (k + 1) cell = coarse 1 (coarse k cell) := by
  simp only [coarse, List.map_map]
  exact List.map_congr_left fun x _ => Nat.shiftRight_add x k 1

theorem coarse_mem_grid {k : Nat} (h : cell ∈ grid (bits + k) axes) :
    coarse k cell ∈ grid bits axes := by
  refine ⟨(length_coarse k cell).trans h.1, fun y hy => ?_⟩
  obtain ⟨x, hx, rfl⟩ := List.mem_map.1 hy
  rw [Nat.shiftRight_eq_div_pow]
  exact Nat.div_lt_of_lt_mul (Nat.pow_add .. ▸ Nat.add_comm bits k ▸ h.2 x hx)

/-! ## Dropping the lowest bit -/

theorem undoBits_shiftRight (k : Nat) (cell : List Nat) :
    undoBits (k - 1) (cell.map (· >>> 1)) = (undoBits k cell).map (· >>> 1) := by
  induction k generalizing cell with
  | zero => rfl
  | succ k ih =>
    rw [Nat.add_sub_cancel, undoBits, ← ih, ← (window_shiftRight k).undoBit, undoBits_eq]

theorem carry_shiftRight (last k : Nat) : carry (last >>> 1) (k - 1) = carry last k >>> 1 := by
  induction k with
  | zero => exact (Nat.zero_shiftRight 1).symm
  | succ k ih =>
    rw [Nat.add_sub_cancel, carry_eq, ih, (window_shiftRight k).testBit_eq, carry,
      Nat.shiftRight_xor_distrib]
    split
    · rw [below_shiftRight]
    · rw [Nat.zero_shiftRight]

theorem correct_shiftRight (k : Nat) (cell : List Nat) :
    correct (k - 1) (cell.map (· >>> 1)) = (correct k cell).map (· >>> 1) := by
  rw [correct, getLastD_map_zero (Nat.zero_shiftRight 1), carry_shiftRight, correct,
    List.map_map, List.map_map]
  exact List.map_congr_left fun x _ => Nat.shiftRight_xor_distrib.symm

theorem transpose_shiftRight (bits : Nat) (cell : List Nat) :
    transpose bits (cell.map (· >>> 1)) = (transpose (bits + 1) cell).map (· >>> 1) := by
  have haccumulate := accumulate_map (f := (· >>> 1)) (fun _ _ => Nat.shiftRight_xor_distrib) 0
    (undoBits bits cell)
  rw [Nat.zero_shiftRight] at haccumulate
  rw [transpose_eq, transpose_eq, Nat.add_sub_cancel, undoBits_shiftRight, haccumulate,
    correct_shiftRight]

/-! ## Positions -/

theorem digit_shiftRight (k : Nat) (cell : List Nat) :
    digit k (cell.map (· >>> 1)) = digit (k + 1) cell := by
  simp only [digit, List.foldl_map, (window_shiftRight k).testBit_eq]

/-- The lowest bits of all axes are dropped together. -/
theorem interleave_shiftRight (bits : Nat) (cell : List Nat) :
    interleave bits (cell.map (· >>> 1)) = interleave (bits + 1) cell >>> cell.length := by
  rw [Nat.shiftRight_eq_div_pow]
  induction bits with
  | zero =>
    have hlt := interleave_lt 1 cell
    rw [Nat.mul_one] at hlt
    exact (Nat.div_eq_of_lt hlt).symm
  | succ bits ih =>
    have hpow : 2 ^ (cell.length * (bits + 1)) = 2 ^ cell.length * 2 ^ (cell.length * bits) := by
      rw [Nat.mul_succ, Nat.pow_add, Nat.mul_comm]
    rw [interleave_succ, interleave_succ (bits + 1), ih, digit_shiftRight, List.length_map, hpow,
      Nat.mul_assoc, Nat.mul_add_div (Nat.two_pow_pos _)]

theorem key_shiftRight_one (h : cell ∈ grid (bits + 1) axes) :
    key bits (coarse 1 cell) = key (bits + 1) cell >>> axes := by
  rw [key, coarse, transpose_shiftRight, interleave_shiftRight, (transpose_mem_grid h).1, key]

theorem key_shiftRight {k : Nat} (h : cell ∈ grid (bits + k) axes) :
    key bits (coarse k cell) = key (bits + k) cell >>> (axes * k) := by
  induction k generalizing bits with
  | zero => rw [coarse_zero, Nat.mul_zero, Nat.shiftRight_zero, Nat.add_zero]
  | succ k ih =>
    have h' : cell ∈ grid (bits + 1 + k) axes := by rwa [Nat.add_right_comm]
    rw [coarse_succ, key_shiftRight_one (coarse_mem_grid h'), ih h', Nat.mul_succ,
      Nat.shiftRight_add, Nat.add_right_comm]
    rfl

/-- The position of a coarser cell is what is left of the position when the lowest bits of the
    axes are dropped. -/
theorem position_shiftRight {k : Nat} (h : cell ∈ grid (bits + k) axes) :
    position bits (coarse k cell) = position (bits + k) cell >>> (axes * k) := by
  rw [position_eq_key (coarse_mem_grid h), position_eq_key h, key_shiftRight h]

/-! ## Cubes -/

/-- The cells of a grid in the aligned cube of side `2 ^ k` at a corner, counted in cubes. -/
def cube (bits axes k : Nat) (corner : List Nat) : Set (List Nat) :=
  {cell ∈ grid bits axes | coarse k cell = corner}

/-- The positions of the cells in a cube are those that begin with its own. -/
theorem position_image_cube {k : Nat} (hk : k ≤ bits) {corner : List Nat}
    (h : corner ∈ grid (bits - k) axes) :
    position bits '' cube bits axes k corner =
      Set.Ico (position (bits - k) corner * 2 ^ (axes * k))
        ((position (bits - k) corner + 1) * 2 ^ (axes * k)) := by
  obtain ⟨b, rfl⟩ := Nat.exists_eq_add_of_le' hk
  rw [Nat.add_sub_cancel] at h ⊢
  have hmem (n : Nat) : n ∈ Set.Ico (position b corner * 2 ^ (axes * k))
      ((position b corner + 1) * 2 ^ (axes * k)) ↔ n >>> (axes * k) = position b corner := by
    rw [Nat.shiftRight_eq_div_pow, Nat.div_eq_iff (Nat.two_pow_pos _), Set.mem_Ico, Nat.succ_mul]
    have := Nat.two_pow_pos (axes * k)
    omega
  ext n
  rw [hmem]
  constructor
  · rintro ⟨cell, ⟨hcell, rfl⟩, rfl⟩
    exact (position_shiftRight hcell).symm
  · intro hn
    -- the position belongs to some cell, and the coarser cell is the corner
    have hlt : n < 2 ^ (axes * (b + k)) := by
      have hcorner := (position_bijOn b axes).mapsTo h
      rw [← hn, Set.mem_Iio, Nat.shiftRight_eq_div_pow, Nat.div_lt_iff_lt_mul (Nat.two_pow_pos _),
        ← Nat.pow_add, ← Nat.mul_add] at hcorner
      exact hcorner
    obtain ⟨cell, hcell, rfl⟩ := (position_bijOn (b + k) axes).surjOn hlt
    refine ⟨cell, ⟨hcell, ?_⟩, rfl⟩
    refine (position_bijOn b axes).injOn (coarse_mem_grid hcell) h ?_
    rw [position_shiftRight hcell, hn]

/-- No cell is in a cube outside of the grid. -/
theorem cube_eq_empty {k : Nat} (hk : k ≤ bits) {corner : List Nat}
    (h : corner ∉ grid (bits - k) axes) : cube bits axes k corner = ∅ := by
  obtain ⟨b, rfl⟩ := Nat.exists_eq_add_of_le' hk
  rw [Nat.add_sub_cancel] at h
  rw [Set.eq_empty_iff_forall_notMem]
  rintro cell ⟨hcell, rfl⟩
  exact h (coarse_mem_grid hcell)

/-- A cube that is larger than the grid has no more cells than the grid. -/
theorem cube_of_le {k : Nat} (hk : bits ≤ k) (corner : List Nat) :
    cube bits axes k corner = cube bits axes bits corner := by
  have hzero {cell : List Nat} (hcell : cell ∈ grid bits axes) {j : Nat} (hj : bits ≤ j) :
      coarse j cell = cell.map fun _ => 0 :=
    List.map_congr_left fun x hx => Nat.shiftRight_eq_zero x j
      (Nat.lt_of_lt_of_le (hcell.2 x hx) (Nat.pow_le_pow_right Nat.two_pos hj))
  ext cell
  refine and_congr_right fun hcell => ?_
  rw [hzero hcell hk, hzero hcell (Nat.le_refl _)]

/-- What the positions in a grid promise of coarser grids. -/
structure RefinementLaw (bits axes : Nat) : Prop where
  /-- With one bit less along each axis, the position of a cell loses as many bits as there are
      axes. -/
  coarse_position : 2 ≤ bits → ∀ cell ∈ grid bits axes,
    position (bits - 1) (cell.map (· >>> 1)) = position bits cell >>> axes
  /-- The positions in a cube are those that begin with the position of the cube. -/
  cube_positions : ∀ k ≤ bits, ∀ corner ∈ grid (bits - k) axes,
    position bits '' cube bits axes k corner =
      Set.Ico (position (bits - k) corner * 2 ^ (axes * k))
        ((position (bits - k) corner + 1) * 2 ^ (axes * k))
  /-- The positions in a cube follow each other, wherever it lies. -/
  cube_contiguous : ∀ k corner, ∃ first last,
    position bits '' cube bits axes k corner = Set.Ico first last

/-- The curve refines that of any coarser grid, with any number of axes and bits. -/
theorem position_refines (bits axes : Nat) : RefinementLaw bits axes := by
  have hcontiguous {k : Nat} (hk : k ≤ bits) (corner : List Nat) : ∃ first last,
      position bits '' cube bits axes k corner = Set.Ico first last := by
    by_cases h : corner ∈ grid (bits - k) axes
    · exact ⟨_, _, position_image_cube hk h⟩
    · exact ⟨0, 0, by rw [cube_eq_empty hk h, Set.image_empty, Set.Ico_self]⟩
  refine ⟨fun hbits cell hcell => ?coarse, fun k hk _ h => position_image_cube hk h,
    fun k corner => ?contiguous⟩
  case coarse =>
    obtain ⟨b, rfl⟩ := Nat.exists_eq_add_of_le' (Nat.one_le_of_lt hbits)
    have := position_shiftRight (k := 1) hcell
    rwa [Nat.mul_one] at this
  case contiguous =>
    rcases Nat.le_total k bits with hk | hk
    · exact hcontiguous hk corner
    · rw [cube_of_le hk]
      exact hcontiguous (Nat.le_refl _) corner

-- The lower left quarter of a square comes first.
example : [[0, 0], [1, 0], [1, 1], [0, 1]].map (position 2) = [0, 1, 2, 3] := by decide

end SharedMesh.Hilbert
