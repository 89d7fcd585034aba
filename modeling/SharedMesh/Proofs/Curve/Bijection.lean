import SharedMesh.Proofs.Curve.Transposing

/-!
# The Hilbert key is a bijection of the grid

Counted from the top, bit `i` of a key is bit `i / axes` of the axis `i % axes`, transposed, and
it goes to bit `i % bits` of the word `i / bits` (`testBit_keyWords`). So every bit of the
transposed axes is in the key once, wherever the words begin and end, and different cells have
different keys. As the keys of a grid are again as many words of as many bits, and a grid is
finite, every such tuple of words is the key of one cell (`keyWords_lawful`).
-/

namespace SharedMesh.Hilbert

-- Powers are those of core, also beside Mathlib.
attribute [local instance (high)] instPowNat

variable {bits axes : Nat} {cell : List Nat}

/-- What the keys of a grid of `2 ^ bits` cells along each axis promise. -/
structure KeyLaw (bits axes : Nat) : Prop where
  /-- Every tuple of words is the key of one cell. -/
  bijOn : Set.BijOn (keyWords bits) (grid bits axes) (grid bits axes)
  /-- The curve starts in the zero cell. -/
  zero : keyWords bits (List.replicate axes 0) = List.replicate axes 0
  /-- Along one axis, the curve is the axis. -/
  single : axes = 1 → ∀ x < 2 ^ bits, keyWords bits [x] = [x]
  /-- The words hold the transposed axes, a bit of every axis in turn, from the top down. -/
  bit : ∀ cell ∈ grid bits axes, ∀ i < bits * axes,
    ((keyWords bits cell).getD (i / bits) 0).testBit (bits - 1 - i % bits) =
      ((transpose bits cell).getD (i % axes) 0).testBit (bits - 1 - i / axes)

/-! ## Digits -/

theorem foldl_digit (k n : Nat) (cell : List Nat) :
    cell.foldl (fun n x => 2 * n + (x.testBit k).toNat) n = 2 ^ cell.length * n + digit k cell := by
  induction cell generalizing n with
  | nil => simp [digit]
  | cons x cell ih =>
    rw [digit.eq_1 k (x :: cell), List.foldl_cons, List.foldl_cons, ih, ih, List.length_cons,
      Nat.pow_succ, Nat.mul_zero, Nat.zero_add, Nat.mul_add, Nat.mul_assoc, Nat.add_assoc]

theorem digit_cons (k x : Nat) (cell : List Nat) :
    digit k (x :: cell) = 2 ^ cell.length * (x.testBit k).toNat + digit k cell := by
  rw [digit, List.foldl_cons, foldl_digit, Nat.mul_zero, Nat.zero_add]

theorem digit_lt (k : Nat) (cell : List Nat) : digit k cell < 2 ^ cell.length := by
  induction cell with
  | nil => exact Nat.one_pos
  | cons x cell ih =>
    have hbit : (x.testBit k).toNat ≤ 1 := Bool.toNat_le _
    calc digit k (x :: cell)
        = 2 ^ cell.length * (x.testBit k).toNat + digit k cell := digit_cons ..
      _ < 2 ^ cell.length * 1 + 2 ^ cell.length :=
        Nat.add_lt_add_of_le_of_lt (Nat.mul_le_mul_left _ hbit) ih
      _ = 2 ^ (x :: cell).length := by rw [List.length_cons, Nat.pow_succ]; omega

theorem testBit_digit (k : Nat) {i : Nat} (h : i < cell.length) :
    (digit k cell).testBit (cell.length - 1 - i) = (cell.getD i 0).testBit k := by
  induction cell generalizing i with
  | nil => exact absurd h (Nat.not_lt_zero i)
  | cons x cell ih =>
    rw [digit_cons, Nat.testBit_two_pow_mul_add _ (digit_lt k cell), List.length_cons]
    cases i with
    | zero =>
      rw [if_neg (by omega), Nat.add_sub_cancel, Nat.sub_zero, Nat.sub_self, List.getD_cons_zero]
      cases x.testBit k <;> rfl
    | succ i =>
      have hi : i < cell.length := Nat.lt_of_succ_lt_succ h
      rw [if_pos (by omega), List.getD_cons_succ, ← ih hi]
      congr 1
      omega

/-! ## Interleaving -/

theorem interleave_succ (bits : Nat) (cell : List Nat) :
    interleave (bits + 1) cell =
      2 ^ (cell.length * bits) * digit bits cell + interleave bits cell := by
  rw [interleave, Nat.mul_comm]

theorem interleave_lt (bits : Nat) (cell : List Nat) :
    interleave bits cell < 2 ^ (cell.length * bits) := by
  induction bits with
  | zero => exact Nat.one_pos
  | succ bits ih =>
    calc interleave (bits + 1) cell
        = 2 ^ (cell.length * bits) * digit bits cell + interleave bits cell := interleave_succ ..
      _ < 2 ^ (cell.length * bits) * (digit bits cell + 1) := Nat.add_lt_add_left ih _
      _ ≤ 2 ^ (cell.length * bits) * 2 ^ cell.length := Nat.mul_le_mul_left _ (digit_lt ..)
      _ = 2 ^ (cell.length * (bits + 1)) := by rw [← Nat.pow_add, Nat.mul_succ]

theorem testBit_interleave {i k : Nat} (hi : i < cell.length) (hk : k < bits) :
    (interleave bits cell).testBit (cell.length * k + (cell.length - 1 - i)) =
      (cell.getD i 0).testBit k := by
  induction bits with
  | zero => exact absurd hk (Nat.not_lt_zero k)
  | succ bits ih =>
    rw [interleave_succ, Nat.testBit_two_pow_mul_add _ (interleave_lt bits cell)]
    rcases Nat.lt_or_eq_of_le (Nat.le_of_lt_succ hk) with hlt | rfl
    · have : cell.length * k + cell.length ≤ cell.length * bits :=
        Nat.mul_le_mul_left cell.length hlt
      rw [if_pos (by omega), ih hlt]
    · rw [if_neg (by omega), Nat.add_sub_cancel_left, testBit_digit k hi]

/-! ## Words -/

@[simp] theorem length_words (bits count n : Nat) : (words bits count n).length = count := by
  induction count with
  | zero => rfl
  | succ count ih => rw [words, List.length_cons, ih]

theorem words_mem_grid (bits count n : Nat) : words bits count n ∈ grid bits count := by
  refine ⟨length_words .., ?_⟩
  induction count with
  | zero => simp [words]
  | succ count ih => exact List.forall_mem_cons.2 ⟨Nat.mod_lt _ (Nat.two_pow_pos bits), ih⟩

theorem testBit_words {count n i k : Nat} (hi : i < count) (hk : k < bits) :
    ((words bits count n).getD i 0).testBit k = n.testBit (bits * (count - 1 - i) + k) := by
  induction count generalizing i with
  | zero => exact absurd hi (Nat.not_lt_zero i)
  | succ count ih =>
    rw [words]
    cases i with
    | zero => simp [Nat.testBit_mod_two_pow, Nat.testBit_div_two_pow, hk, Nat.add_comm]
    | succ i =>
      have hsub : count + 1 - 1 - (i + 1) = count - 1 - i := by omega
      rw [List.getD_cons_succ, ih (Nat.lt_of_succ_lt_succ hi), hsub]

/-! ## Keys -/

theorem keyWords_mem_grid (h : cell.length = axes) : keyWords bits cell ∈ grid bits axes :=
  h ▸ words_mem_grid ..

/-- A place in a table with `b` rows of `a` columns, counted from the end. -/
theorem mul_sub_add_sub {a b i : Nat} (h : i < a * b) :
    a * (b - 1 - i / a) + (a - 1 - i % a) = a * b - 1 - i := by
  have ha : 0 < a := Nat.pos_of_mul_pos_right (Nat.zero_lt_of_lt h)
  obtain ⟨c, hc⟩ := Nat.exists_eq_add_of_lt (Nat.div_lt_of_lt_mul h : i / a < b)
  have hrows : b - 1 - i / a = c := by omega
  have htotal : a * b = a * (i / a) + a * c + a := by rw [hc, Nat.mul_succ, Nat.mul_add]
  have hi := Nat.div_add_mod i a
  have hmod := Nat.mod_lt i ha
  rw [hrows]
  omega

/-- Counted from the top, bit `i` of a key lies in the word `i / bits`. -/
theorem testBit_keyWords (h : cell ∈ grid bits axes) {i : Nat} (hi : i < bits * axes) :
    ((keyWords bits cell).getD (i / bits) 0).testBit (bits - 1 - i % bits) =
      ((transpose bits cell).getD (i % axes) 0).testBit (bits - 1 - i / axes) := by
  have hi' : i < axes * bits := Nat.mul_comm bits axes ▸ hi
  have haxis : i % axes < axes := Nat.mod_lt _ (Nat.pos_of_mul_pos_right (Nat.zero_lt_of_lt hi'))
  have hbits : 0 < bits := Nat.pos_of_mul_pos_right (Nat.zero_lt_of_lt hi)
  have hlength : (transpose bits cell).length = axes := (transpose_mem_grid h).1
  -- both are the bit `bits * axes - 1 - i` of the number that the words spell
  calc ((keyWords bits cell).getD (i / bits) 0).testBit (bits - 1 - i % bits)
      = (key bits cell).testBit (bits * (axes - 1 - i / bits) + (bits - 1 - i % bits)) := by
        rw [keyWords, h.1]
        exact testBit_words (Nat.div_lt_of_lt_mul hi) (by omega)
    _ = (key bits cell).testBit (axes * (bits - 1 - i / axes) + (axes - 1 - i % axes)) := by
        rw [mul_sub_add_sub hi, mul_sub_add_sub hi', Nat.mul_comm]
    _ = ((transpose bits cell).getD (i % axes) 0).testBit (bits - 1 - i / axes) := by
        have hrow : bits - 1 - i / axes < bits :=
          Nat.lt_of_le_of_lt (Nat.sub_le ..) (Nat.sub_one_lt_of_lt hbits)
        have hbit := testBit_interleave (hlength.symm ▸ haxis) hrow
        rwa [hlength] at hbit

theorem keyWords_injOn (bits axes : Nat) : Set.InjOn (keyWords bits) (grid bits axes) := by
  intro cell hcell cell' hcell' h
  have htranspose := transpose_mem_grid hcell
  have htranspose' := transpose_mem_grid hcell'
  refine transpose_injective bits (List.ext_getElem (htranspose.1.trans htranspose'.1.symm) ?_)
  intro axis haxis haxis'
  rw [← List.getD_eq_getElem _ 0 haxis, ← List.getD_eq_getElem _ 0 haxis']
  have haxes : axis < axes := htranspose.1 ▸ haxis
  refine Nat.eq_of_testBit_eq fun k => ?_
  by_cases hk : k < bits
  · -- where the bit is found in the keys
    have hposition : axes * (bits - 1 - k) + axis < bits * axes :=
      calc axes * (bits - 1 - k) + axis
          < axes * (bits - 1 - k) + axes * 1 := by omega
        _ = axes * (bits - 1 - k + 1) := (Nat.mul_add ..).symm
        _ ≤ axes * bits := Nat.mul_le_mul_left _ (by omega)
        _ = bits * axes := Nat.mul_comm ..
    have hbit := testBit_keyWords hcell hposition
    rw [h, testBit_keyWords hcell' hposition, Nat.mul_add_mod, Nat.mod_eq_of_lt haxes,
      Nat.mul_add_div (Nat.zero_lt_of_lt haxes), Nat.div_eq_of_lt haxes, Nat.add_zero,
      Nat.sub_sub_self (Nat.le_sub_one_of_lt hk)] at hbit
    exact hbit.symm
  · have hzero {x : Nat} (hx : x < 2 ^ bits) : x.testBit k = false :=
      Nat.testBit_lt_two_pow (Nat.lt_of_lt_of_le hx
        (Nat.pow_le_pow_right Nat.two_pos (Nat.le_of_not_lt hk)))
    rw [List.getD_eq_getElem _ 0 haxis, List.getD_eq_getElem _ 0 haxis',
      hzero (htranspose.2 _ (List.getElem_mem _)), hzero (htranspose'.2 _ (List.getElem_mem _))]

theorem interleave_replicate (bits axes : Nat) : interleave bits (List.replicate axes 0) = 0 := by
  have hdigit (k : Nat) : digit k (List.replicate axes 0) = 0 := by
    induction axes with
    | zero => rfl
    | succ axes ih => rw [List.replicate_succ, digit_cons, ih, Nat.zero_testBit]; rfl
  induction bits with
  | zero => rfl
  | succ bits ih => rw [interleave_succ, hdigit, ih, Nat.mul_zero]

theorem words_zero (bits count : Nat) : words bits count 0 = List.replicate count 0 := by
  induction count with
  | zero => rfl
  | succ count ih => rw [words, ih, Nat.zero_div, Nat.zero_mod, List.replicate_succ]

theorem keyWords_replicate (bits axes : Nat) :
    keyWords bits (List.replicate axes 0) = List.replicate axes 0 := by
  rw [keyWords, key, transpose_replicate, interleave_replicate, words_zero, List.length_replicate]

theorem interleave_singleton (bits x : Nat) : interleave bits [x] = x % 2 ^ bits := by
  induction bits with
  | zero => exact (Nat.mod_one x).symm
  | succ bits ih =>
    have hdigit : digit bits [x] = x / 2 ^ bits % 2 := by
      rw [← Nat.toNat_testBit, digit_cons]
      simp [digit]
    rw [interleave_succ, ih, hdigit, Nat.mod_pow_succ, List.length_singleton, Nat.one_mul,
      Nat.add_comm]

theorem keyWords_singleton {x : Nat} (h : x < 2 ^ bits) : keyWords bits [x] = [x] := by
  have hmod : x % 2 ^ bits = x := Nat.mod_eq_of_lt h
  simp [keyWords, words, key, transpose_singleton, interleave_singleton, hmod]

/-- The key is a bijection of every grid, with any number of axes and bits. -/
theorem keyWords_lawful (bits axes : Nat) : KeyLaw bits axes := by
  have hmaps : Set.MapsTo (keyWords bits) (grid bits axes) (grid bits axes) :=
    fun _ hcell => keyWords_mem_grid hcell.1
  exact {
    bijOn := ((finite_grid bits axes).injOn_iff_bijOn_of_mapsTo hmaps).1 (keyWords_injOn bits axes)
    zero := keyWords_replicate bits axes
    single := fun _ _ hx => keyWords_singleton hx
    bit := fun _ hcell _ hi => testBit_keyWords hcell hi }

-- With one bit, the curve goes up, over and down.
example : [[0, 0], [0, 1], [1, 1], [1, 0]].map (keyWords 1) =
    [[0, 0], [0, 1], [1, 0], [1, 1]] := by decide

end SharedMesh.Hilbert
