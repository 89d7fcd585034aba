import SharedMesh.Proofs.Curve.Bijection

/-!
# Positions along the curve

The words of a key spell one number, the position of the cell along the curve (`position`). It
is the number that the words were cut from (`position_eq_key`), so the cells of a grid have
the positions from zero on, each of them once (`position_bijOn`).
-/

namespace SharedMesh.Hilbert

-- Powers are those of core, also beside Mathlib.
attribute [local instance (high)] instPowNat

variable {bits axes : Nat} {cell : List Nat}

/-- The number that some words of `bits` bits spell, the most significant word first. -/
def ofWords (bits : Nat) (spelled : List Nat) : Nat :=
  spelled.foldl (fun n word => n * 2 ^ bits + word) 0

/-- The words of the key of a cell, read as one number. -/
def position (bits : Nat) (cell : List Nat) : Nat := ofWords bits (keyWords bits cell)

theorem foldl_words (bits count start n : Nat) :
    (words bits count n).foldl (fun n word => n * 2 ^ bits + word) start =
      start * 2 ^ (bits * count) + n % 2 ^ (bits * count) := by
  induction count generalizing start with
  | zero => simp [words, Nat.mod_one]
  | succ count ih =>
    rw [words, List.foldl_cons, ih, Nat.mul_succ, Nat.pow_add, Nat.mod_mul, Nat.add_mul,
      Nat.mul_assoc, Nat.mul_comm (2 ^ bits), Nat.mul_comm (n / _ % _)]
    omega

/-- Words spell the number that they were cut from. -/
theorem ofWords_words {count n : Nat} (h : n < 2 ^ (bits * count)) :
    ofWords bits (words bits count n) = n := by
  rw [ofWords, foldl_words, Nat.zero_mul, Nat.zero_add, Nat.mod_eq_of_lt h]

theorem key_lt (h : cell ∈ grid bits axes) : key bits cell < 2 ^ (axes * bits) := by
  have hlt := interleave_lt bits (transpose bits cell)
  rwa [(transpose_mem_grid h).1] at hlt

theorem position_eq_key (h : cell ∈ grid bits axes) : position bits cell = key bits cell := by
  have hlt := key_lt h
  rw [Nat.mul_comm] at hlt
  rw [position, keyWords, h.1, ofWords_words hlt]

theorem key_injOn (bits axes : Nat) : Set.InjOn (key bits) (grid bits axes) := by
  intro cell hcell cell' hcell' h
  refine keyWords_injOn bits axes hcell hcell' ?_
  rw [keyWords, keyWords, h, hcell.1, hcell'.1]

/-- Every position is that of one cell. -/
theorem position_bijOn (bits axes : Nat) :
    Set.BijOn (position bits) (grid bits axes) (Set.Iio (2 ^ (axes * bits))) := by
  have hwords : Set.SurjOn (keyWords bits) (grid bits axes) (grid bits axes) :=
    (((finite_grid bits axes).injOn_iff_bijOn_of_mapsTo
      fun _ hcell => keyWords_mem_grid hcell.1).1 (keyWords_injOn bits axes)).surjOn
  refine ⟨fun cell hcell => ?_, fun cell hcell cell' hcell' h => ?_, fun n hn => ?_⟩
  · rw [position_eq_key hcell]
    exact key_lt hcell
  · rw [position_eq_key hcell, position_eq_key hcell'] at h
    exact key_injOn bits axes hcell hcell' h
  · obtain ⟨cell, hcell, hkey⟩ := hwords (words_mem_grid bits axes n)
    refine ⟨cell, hcell, ?_⟩
    rw [position, hkey]
    exact ofWords_words (Nat.mul_comm bits axes ▸ hn)

end SharedMesh.Hilbert
