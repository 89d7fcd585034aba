import Mathlib.Data.Nat.Dist
import SharedMesh.Proofs.Curve.GrayCode
import SharedMesh.Proofs.Curve.Passes
import SharedMesh.Proofs.Curve.Positions

/-!
# Blocks of the curve

The top bits of the coordinates of a cell (`tops`) say in which block of a grid it lies, and
the other bits (`lows`) where in that block. The blocks are visited in the order of a Gray code
(`grayRank`). In each of them the curve goes as in a grid of fewer bits, but reflected, with
axes exchanged (`inBlock`), and backwards in every other block
(`key_succ_of_even`, `key_succ_of_odd`). Reflections and exchanges keep the distances of cells
(`distance_inBlock`).
-/

namespace SharedMesh.Hilbert

-- Powers are those of core, also beside Mathlib.
attribute [local instance (high)] instPowNat

variable {bits axes k : Nat} {cell cell' : List Nat}

/-- The bits at `k` of all axes. -/
def tops (k : Nat) (cell : List Nat) : List Bool := cell.map (·.testBit k)

/-- The bits below `k` of all axes. -/
def lows (k : Nat) (cell : List Nat) : List Nat := cell.map (· % 2 ^ k)

/-- The cell of the smaller grid that stands for a cell in its block. -/
def inBlock (k : Nat) (cell : List Nat) : List Nat := lows k (undoBit k cell)

/-- The sum of the differences along all axes. -/
def distance : List Nat → List Nat → Nat
  | x :: cell, x' :: cell' => Nat.dist x x' + distance cell cell'
  | _, _ => 0

theorem tops_cons_inj {x x' : Nat} : tops k (x :: cell) = tops k (x' :: cell') ↔
    x.testBit k = x'.testBit k ∧ tops k cell = tops k cell' := List.cons.injEq .. ▸ Iff.rfl

theorem length_tops (k : Nat) (cell : List Nat) : (tops k cell).length = cell.length :=
  List.length_map _

theorem inBlock_mem_grid (h : cell ∈ grid (k + 1) axes) : inBlock k cell ∈ grid k axes := by
  refine ⟨(List.length_map _).trans (undoBit_mem_grid (Nat.le_succ k) h).1, fun y hy => ?_⟩
  obtain ⟨x, _, rfl⟩ := List.mem_map.1 hy
  exact Nat.mod_lt _ (Nat.two_pow_pos k)

/-! ## Two axes -/

theorem xor_below_mod (k x : Nat) : (x ^^^ below k) % 2 ^ k = below k - x % 2 ^ k := by
  have hlt : x % 2 ^ k < 2 ^ k := Nat.mod_lt _ (Nat.two_pow_pos k)
  have hsub : below k - x % 2 ^ k = 2 ^ k - (x % 2 ^ k + 1) := by rw [below]; omega
  rw [hsub]
  refine Nat.eq_of_testBit_eq fun i => ?_
  rw [Nat.testBit_two_pow_sub_succ hlt, Nat.testBit_mod_two_pow, Nat.testBit_mod_two_pow,
    Nat.testBit_xor, testBit_below]
  by_cases hi : i < k <;> simp [hi]

theorem reflect_mod (k x : Nat) : reflect k x % 2 ^ k =
    if x.testBit k then below k - x % 2 ^ k else x % 2 ^ k := by
  rw [reflect]
  split
  · exact xor_below_mod k x
  · rfl

/-- Below the bit, the first axis is reflected, or the axes are exchanged. -/
theorem reflectOrExchange_mod (k first other : Nat) :
    ((reflectOrExchange k first other).1 % 2 ^ k, (reflectOrExchange k first other).2 % 2 ^ k) =
      if other.testBit k then (below k - first % 2 ^ k, other % 2 ^ k)
      else (other % 2 ^ k, first % 2 ^ k) := by
  cases hbit : other.testBit k with
  | true =>
    rw [reflectOrExchange_of_testBit hbit, xor_below_mod]
    rfl
  | false =>
    have hmask : ((first ^^^ other) &&& below k) % 2 ^ k = first % 2 ^ k ^^^ other % 2 ^ k := by
      rw [below, Nat.and_two_pow_sub_one_eq_mod, Nat.mod_mod, Nat.xor_mod_two_pow]
    rw [reflectOrExchange_of_not_testBit hbit, Nat.xor_mod_two_pow, Nat.xor_mod_two_pow, hmask,
      Nat.xor_xor_cancel_left, Nat.xor_comm (first % _), Nat.xor_xor_cancel_left]
    rfl

/-- From the bit on, nothing is changed. -/
theorem testBit_reflectOrExchange {i : Nat} (hi : k ≤ i) (first other : Nat) :
    (reflectOrExchange k first other).1.testBit i = first.testBit i ∧
      (reflectOrExchange k first other).2.testBit i = other.testBit i := by
  cases hbit : other.testBit k with
  | true => simp [reflectOrExchange_of_testBit hbit, testBit_below, Nat.not_lt.2 hi]
  | false => simp [reflectOrExchange_of_not_testBit hbit, testBit_below, Nat.not_lt.2 hi]

theorem testBit_reflect_of_le {i : Nat} (hi : k ≤ i) (x : Nat) :
    (reflect k x).testBit i = x.testBit i := by
  rw [reflect]
  split
  · simp [testBit_below, Nat.not_lt.2 hi]
  · rfl

/-! ## Distances -/

theorem distance_self (cell : List Nat) : distance cell cell = 0 := by
  induction cell with
  | nil => rfl
  | cons x cell ih => rw [distance, ih, Nat.dist_self]

theorem distance_comm (cell cell' : List Nat) : distance cell cell' = distance cell' cell := by
  induction cell generalizing cell' with
  | nil => cases cell' <;> rfl
  | cons x cell ih =>
    cases cell' with
    | nil => rfl
    | cons x' cell' => rw [distance, distance, ih, Nat.dist_comm]

theorem dist_reflect (k x x' : Nat) :
    Nat.dist (below k - x % 2 ^ k) (below k - x' % 2 ^ k) =
      Nat.dist (x % 2 ^ k) (x' % 2 ^ k) := by
  have hle (y : Nat) : y % 2 ^ k ≤ below k :=
    Nat.le_sub_one_of_lt (Nat.mod_lt _ (Nat.two_pow_pos k))
  have := hle x
  have := hle x'
  simp only [Nat.dist]
  omega

/-- Two pairs of axes that are treated alike keep their distance. -/
theorem dist_reflectOrExchange (first first' : Nat) {other other' : Nat}
    (h : other.testBit k = other'.testBit k) :
    Nat.dist ((reflectOrExchange k first other).1 % 2 ^ k)
        ((reflectOrExchange k first' other').1 % 2 ^ k) +
      Nat.dist ((reflectOrExchange k first other).2 % 2 ^ k)
        ((reflectOrExchange k first' other').2 % 2 ^ k) =
      Nat.dist (first % 2 ^ k) (first' % 2 ^ k) + Nat.dist (other % 2 ^ k) (other' % 2 ^ k) := by
  have hpair := reflectOrExchange_mod k first other
  have hpair' := reflectOrExchange_mod k first' other'
  rw [← h] at hpair'
  split at hpair
  · next hbit =>
    rw [if_pos hbit, Prod.mk.injEq] at hpair'
    rw [Prod.mk.injEq] at hpair
    rw [hpair.1, hpair.2, hpair'.1, hpair'.2, dist_reflect]
  · next hbit =>
    rw [if_neg hbit, Prod.mk.injEq] at hpair'
    rw [Prod.mk.injEq] at hpair
    rw [hpair.1, hpair.2, hpair'.1, hpair'.2, Nat.add_comm]

theorem distance_undoOthers (first first' : Nat) {rest rest' : List Nat}
    (h : tops k rest = tops k rest') :
    Nat.dist ((undoOthers k first rest).1 % 2 ^ k) ((undoOthers k first' rest').1 % 2 ^ k) +
      distance (lows k (undoOthers k first rest).2) (lows k (undoOthers k first' rest').2) =
      Nat.dist (first % 2 ^ k) (first' % 2 ^ k) + distance (lows k rest) (lows k rest') := by
  induction rest generalizing first first' rest' with
  | nil =>
    obtain rfl : rest' = [] := List.map_eq_nil_iff.1 h.symm
    rfl
  | cons other rest ih =>
    cases rest' with
    | nil => cases h
    | cons other' rest' =>
      obtain ⟨hbit, hrest⟩ := tops_cons_inj.1 h
      have hnext := ih (reflectOrExchange k first other).1 (reflectOrExchange k first' other').1
        hrest
      have hpair := dist_reflectOrExchange first first' hbit
      simp only [undoOthers_cons, lows, List.map_cons, distance] at hnext ⊢
      omega

/-- Cells of one block are as far from each other as the cells that stand for them. -/
theorem distance_inBlock (h : tops k cell = tops k cell') :
    distance (inBlock k cell) (inBlock k cell') = distance (lows k cell) (lows k cell') := by
  cases cell with
  | nil => cases cell' <;> rfl
  | cons first rest =>
    cases cell' with
    | nil => cases h
    | cons first' rest' =>
      obtain ⟨hbit, hrest⟩ := tops_cons_inj.1 h
      have hfirst : Nat.dist (reflect k first % 2 ^ k) (reflect k first' % 2 ^ k) =
          Nat.dist (first % 2 ^ k) (first' % 2 ^ k) := by
        rw [reflect_mod, reflect_mod, ← hbit]
        split
        · exact dist_reflect ..
        · rfl
      have hothers := distance_undoOthers (reflect k first) (reflect k first') hrest
      rw [hfirst] at hothers
      exact hothers

theorem eq_top_add_low {x : Nat} (h : x < 2 ^ (k + 1)) :
    x = 2 ^ k * (x.testBit k).toNat + x % 2 ^ k := by
  rw [Nat.toNat_testBit, Nat.mod_eq_of_lt (Nat.div_lt_of_lt_mul (Nat.pow_succ 2 k ▸ h)),
    Nat.div_add_mod]

/-- The distance of two cells of one block. -/
theorem distance_lows (hcell : cell ∈ grid (k + 1) axes) (hcell' : cell' ∈ grid (k + 1) axes)
    (h : tops k cell = tops k cell') :
    distance (lows k cell) (lows k cell') = distance cell cell' := by
  obtain ⟨rfl, hlt⟩ := hcell
  obtain ⟨_, hlt'⟩ := hcell'
  induction cell generalizing cell' with
  | nil => cases cell' <;> rfl
  | cons x cell ih =>
    cases cell' with
    | nil => cases h
    | cons x' cell' =>
      obtain ⟨hbit, hrest⟩ := tops_cons_inj.1 h
      rw [List.forall_mem_cons] at hlt hlt'
      have hx := eq_top_add_low hlt.1
      have hx' := eq_top_add_low hlt'.1
      rw [← hbit] at hx'
      have hlength : cell'.length = cell.length := by
        simpa only [length_tops] using congrArg List.length hrest.symm
      have hnext := ih hrest hlt.2 hlength hlt'.2
      simp only [lows, List.map_cons, distance, Nat.dist] at hnext ⊢
      omega

/-! ## The order of the blocks -/

theorem length_accumulate (before : Nat) (cell : List Nat) :
    (accumulate before cell).length = cell.length := by
  induction cell generalizing before with
  | nil => rfl
  | cons x cell ih => exact congrArg (· + 1) (ih _)

/-- The accumulated bits of the axes count the blocks. -/
theorem digit_accumulate (k before : Nat) (cell : List Nat) :
    digit k (accumulate before cell) = grayRank (before.testBit k) (tops k cell) := by
  induction cell generalizing before with
  | nil => rfl
  | cons x cell ih =>
    rw [accumulate, digit_cons, ih, Nat.testBit_xor, length_accumulate, ← length_tops k cell]
    rfl

/-- The last of the accumulated axes tells whether the rank is odd. -/
theorem testBit_getLastD (k before : Nat) (cell : List Nat) :
    ((accumulate before cell).getLastD 0).testBit k =
      decide (grayRank (before.testBit k) (tops k cell) % 2 = 1) := by
  rw [← digit_accumulate]
  generalize accumulate before cell = axes
  rcases List.eq_nil_or_concat' axes with rfl | ⟨init, last, rfl⟩
  · simp [digit]
  · rw [List.getLastD_concat, digit, List.foldl_append, List.foldl_cons, List.foldl_nil]
    cases last.testBit k <;> simp [Nat.add_mod]

theorem undoBit_tops {i : Nat} (hi : k ≤ i) (cell : List Nat) :
    tops i (undoBit k cell) = tops i cell := by
  have hothers (first : Nat) (rest : List Nat) :
      (undoOthers k first rest).1.testBit i = first.testBit i ∧
        tops i (undoOthers k first rest).2 = tops i rest := by
    induction rest generalizing first with
    | nil => exact ⟨rfl, rfl⟩
    | cons other rest ih =>
      obtain ⟨hfirst, hother⟩ := testBit_reflectOrExchange hi first other
      rw [undoOthers_cons]
      exact ⟨(ih _).1.trans hfirst, tops_cons_inj.2 ⟨hother, (ih _).2⟩⟩
  cases cell with
  | nil => rfl
  | cons first rest =>
    rw [undoBit_cons]
    obtain ⟨hfirst, hrest⟩ := hothers (reflect k first) rest
    exact tops_cons_inj.2 ⟨hfirst.trans (testBit_reflect_of_le hi first), hrest⟩

theorem undoBits_tops {i : Nat} (hi : k ≤ i) (cell : List Nat) :
    tops i (undoBits k cell) = tops i cell := by
  induction k generalizing cell with
  | zero => rfl
  | succ k ih => rw [undoBits, ih (Nat.le_of_succ_le hi), undoBit_tops hi]

theorem length_inBlock (k : Nat) (cell : List Nat) : (inBlock k cell).length = cell.length := by
  have hlength := congrArg List.length (undoBit_tops (Nat.le_refl k) cell)
  rw [length_tops, length_tops] at hlength
  exact (List.length_map _).trans hlength

theorem length_transpose (bits : Nat) (cell : List Nat) :
    (transpose bits cell).length = cell.length := by
  have hlength := congrArg List.length (undoBits_tops (Nat.le_refl (bits - 1)) cell)
  rw [length_tops, length_tops] at hlength
  rw [transpose_eq, correct, List.length_map, length_accumulate, hlength]

/-- The key begins with the rank of the block. -/
theorem digit_transpose (k : Nat) (cell : List Nat) :
    digit k (transpose (k + 1) cell) = grayRank false (tops k cell) := by
  have hcarry (last : Nat) : (carry last k).testBit k = false :=
    Nat.testBit_lt_two_pow (carry_lt last k)
  rw [transpose_eq, Nat.add_sub_cancel, correct, digit, List.foldl_map]
  simp only [Nat.testBit_xor, hcarry, Bool.xor_false]
  rw [← digit, digit_accumulate, undoBits_tops (Nat.le_refl k), Nat.zero_testBit]

/-! ## The way through a block -/

theorem lows_undoBits {j : Nat} (h : j < k) (cell : List Nat) :
    lows k (undoBits j cell) = undoBits j (lows k cell) := by
  induction j generalizing cell with
  | zero => rfl
  | succ j ih =>
    rw [undoBits, ih (Nat.lt_of_succ_lt h), undoBits, lows, lows, (window_mod h).undoBit]

theorem lows_undoBits_inBlock (k : Nat) (cell : List Nat) :
    lows k (undoBits k cell) = undoBits (k - 1) (inBlock k cell) := by
  rw [undoBits_eq]
  cases k with
  | zero => rfl
  | succ k => exact lows_undoBits (Nat.lt_succ_self k) _

theorem carry_mod {j : Nat} (h : j < k) (last : Nat) : carry (last % 2 ^ k) j = carry last j := by
  induction j with
  | zero => rfl
  | succ j ih => rw [carry, carry, ih (Nat.lt_of_succ_lt h), (window_mod h).testBit_eq]

theorem carry_mod_pred (k last : Nat) : carry (last % 2 ^ k) (k - 1) = carry last (k - 1) := by
  cases k with
  | zero => rfl
  | succ k => exact carry_mod (Nat.lt_succ_self k) last

/-- What a cell is transposed to, below its top bits, is what the cell is transposed to that
    stands for it, with all bits flipped in the blocks of odd rank. -/
theorem lows_transpose (k : Nat) (cell : List Nat) :
    lows k (transpose (k + 1) cell) = (transpose k (inBlock k cell)).map
      (· ^^^ if grayRank false (tops k cell) % 2 = 1 then below k else 0) := by
  have hflip := testBit_getLastD k 0 (undoBits k cell)
  rw [undoBits_tops (Nat.le_refl k), Nat.zero_testBit] at hflip
  have haccumulate := accumulate_map (f := (· % 2 ^ k)) (fun _ _ => Nat.xor_mod_two_pow) 0
    (undoBits k cell)
  rw [Nat.zero_mod] at haccumulate
  rw [transpose_eq, Nat.add_sub_cancel, transpose_eq, ← lows_undoBits_inBlock, lows, lows,
    haccumulate]
  generalize accumulate 0 (undoBits k cell) = axes at hflip ⊢
  rw [correct, correct, getLastD_map_zero (f := (· % 2 ^ k)) (Nat.zero_mod _), carry_mod_pred,
    List.map_map, List.map_map, List.map_map]
  refine List.map_congr_left fun x _ => ?_
  simp only [Function.comp_apply]
  rw [Nat.xor_mod_two_pow, Nat.mod_eq_of_lt (carry_lt ..), carry_eq]
  simp only [hflip, decide_eq_true_eq, Nat.xor_assoc, Nat.xor_comm (carry _ _)]

theorem interleave_lows {j : Nat} (h : j ≤ k) (cell : List Nat) :
    interleave j (lows k cell) = interleave j cell := by
  induction j with
  | zero => rfl
  | succ j ih =>
    have hdigit : digit j (lows k cell) = digit j cell := by
      simp only [digit, lows, List.foldl_map, (window_mod h).testBit_eq]
    rw [interleave, interleave, ih (Nat.le_of_succ_le h), hdigit, lows, List.length_map]

/-- With all bits flipped, a number is counted from the other end. -/
theorem interleave_flip {j : Nat} (h : j ≤ k) (cell : List Nat) :
    interleave j (cell.map (· ^^^ below k)) + interleave j cell + 1 = 2 ^ (cell.length * j) := by
  have hdigit {i : Nat} (hi : i < k) (cell : List Nat) :
      digit i (cell.map (· ^^^ below k)) + digit i cell + 1 = 2 ^ cell.length := by
    induction cell with
    | nil => rfl
    | cons x cell ih =>
      have hbit : ((x ^^^ below k).testBit i).toNat = 1 - (x.testBit i).toNat := by
        rw [Nat.testBit_xor, testBit_below, decide_eq_true hi]
        cases x.testBit i <;> rfl
      rw [List.map_cons, digit_cons, digit_cons, hbit, List.length_map, List.length_cons,
        Nat.pow_succ]
      cases x.testBit i <;> simp <;> omega
  induction j with
  | zero => rfl
  | succ j ih =>
    have htop := hdigit h cell
    have hrest := ih (Nat.le_of_succ_le h)
    rw [interleave_succ, interleave_succ, List.length_map, Nat.mul_succ, Nat.pow_add, ← htop,
      Nat.mul_add, Nat.mul_add]
    omega

theorem key_succ (k : Nat) (cell : List Nat) : key (k + 1) cell =
    2 ^ (cell.length * k) * grayRank false (tops k cell) +
      interleave k ((transpose k (inBlock k cell)).map
        (· ^^^ if grayRank false (tops k cell) % 2 = 1 then below k else 0)) := by
  have hlength : (transpose (k + 1) cell).length = cell.length := length_transpose ..
  rw [key, interleave_succ, digit_transpose, hlength, ← lows_transpose,
    interleave_lows (Nat.le_refl k)]

/-- In the blocks of even rank, the curve goes as in the smaller grid. -/
theorem key_succ_of_even (h : grayRank false (tops k cell) % 2 = 0) : key (k + 1) cell =
    2 ^ (cell.length * k) * grayRank false (tops k cell) + key k (inBlock k cell) := by
  rw [key_succ, if_neg (by omega)]
  simp [key]

/-- In the blocks of odd rank, the curve goes backwards. -/
theorem key_succ_of_odd (h : grayRank false (tops k cell) % 2 = 1) :
    key (k + 1) cell + key k (inBlock k cell) + 1 =
      2 ^ (cell.length * k) * (grayRank false (tops k cell) + 1) := by
  have hflip := interleave_flip (Nat.le_refl k) (transpose k (inBlock k cell))
  have hlength : (transpose k (inBlock k cell)).length = cell.length :=
    (length_transpose ..).trans (length_inBlock ..)
  rw [hlength] at hflip
  rw [key_succ, if_pos h, Nat.mul_succ, ← hflip, key]
  omega

end SharedMesh.Hilbert
