import SharedMesh.Proofs.Curve.Blocks

/-!
# The curve is continuous

From one position to the next, the curve moves to a neighbour (`adjacent_of_consecutive`). In a
block this is so because it is so in the smaller grid that the block stands for. From one block
to the next, one digit of the Gray code changes (`grayStep_of_rank`), and the curve crosses the
side of the blocks along that axis: in a block of even rank it ends, and in the next one it
begins, in the cell that stands for the last one of the smaller grid; after a block of odd rank
it is the first one. These corners of the blocks are known from the digits (`eq_corner`).
-/

namespace SharedMesh.Hilbert

-- Powers are those of core, also beside Mathlib.
attribute [local instance (high)] instPowNat

variable {axes k : Nat} {cell cell' : List Nat}

/-- Cells that differ by one along one axis, and agree along all others. -/
def Adjacent (cell cell' : List Nat) : Prop :=
  ∃ before x x' after, cell = before ++ x :: after ∧ cell' = before ++ x' :: after ∧
    (x + 1 = x' ∨ x' + 1 = x)

theorem Adjacent.symm (h : Adjacent cell cell') : Adjacent cell' cell := by
  obtain ⟨before, x, x', after, rfl, rfl, hx⟩ := h
  exact ⟨before, x', x, after, rfl, rfl, hx.symm⟩

theorem eq_of_distance_eq_zero (hlength : cell.length = cell'.length)
    (h : distance cell cell' = 0) : cell = cell' := by
  induction cell generalizing cell' with
  | nil => exact (List.eq_nil_of_length_eq_zero hlength.symm).symm
  | cons x cell ih =>
    cases cell' with
    | nil => cases hlength
    | cons x' cell' =>
      rw [distance, Nat.add_eq_zero_iff] at h
      rw [Nat.eq_of_dist_eq_zero h.1, ih (Nat.succ.inj hlength) h.2]

theorem adjacent_of_distance (hlength : cell.length = cell'.length)
    (h : distance cell cell' = 1) : Adjacent cell cell' := by
  induction cell generalizing cell' with
  | nil => cases h
  | cons x cell ih =>
    cases cell' with
    | nil => cases hlength
    | cons x' cell' =>
      have hrest : cell.length = cell'.length := Nat.succ.inj hlength
      rw [distance, Nat.add_eq_one_iff] at h
      rcases h with ⟨hx, hcell⟩ | ⟨hx, hcell⟩
      · obtain rfl := Nat.eq_of_dist_eq_zero hx
        obtain ⟨before, y, y', after, rfl, rfl, hy⟩ := ih hrest hcell
        exact ⟨x :: before, y, y', after, rfl, rfl, hy⟩
      · obtain rfl := eq_of_distance_eq_zero hrest hcell
        refine ⟨[], x, x', cell, rfl, rfl, ?_⟩
        rw [Nat.dist] at hx
        omega

/-! ## Corners of blocks -/

/-- A coordinate in the block with the given digit, on the far side of the block or on the near
    one. -/
def atSide (k : Nat) (digit far : Bool) : Nat := 2 ^ k * digit.toNat + below k * far.toNat

/-- The coordinates after the first one, where the curve comes to an end of a block. -/
def cornerOthers (k : Nat) (last : Bool) : List Bool → List Nat
  | [] => []
  | digit :: digits =>
    atSide k digit (!digit && side last digits) :: cornerOthers k last digits

/-- The cell in which the curve comes to an end of a block, by its digits. -/
def corner (k : Nat) (last : Bool) : List Bool → List Nat
  | [] => []
  | digit :: digits => atSide k digit (digit ^^ side last digits) :: cornerOthers k last digits

/-- The first cell of a grid or the last one. -/
def endCell (k : Nat) (last : Bool) (others : Nat) : List Nat :=
  below k * last.toNat :: List.replicate others 0

theorem eq_atSide {x : Nat} {far : Bool} (hx : x < 2 ^ (k + 1))
    (h : x % 2 ^ k = below k * far.toNat) : x = atSide k (x.testBit k) far := by
  rw [atSide, ← h]
  exact eq_top_add_low hx

/-- What is reflected to a side was on the opposite one. -/
theorem eq_of_below_sub {x : Nat} {far : Bool} (h : below k - x % 2 ^ k = below k * far.toNat) :
    x % 2 ^ k = below k * (!far).toNat := by
  have hlt : x % 2 ^ k < 2 ^ k := Nat.mod_lt _ (Nat.two_pow_pos k)
  rw [below] at h ⊢
  cases far <;> simp at h ⊢ <;> omega

/-- The other axes at an end of a block, and where the first axis was before it met them. -/
theorem eq_cornerOthers {last : Bool} {first : Nat} {rest : List Nat}
    (hrest : rest ∈ grid (k + 1) axes)
    (hfirst : (undoOthers k first rest).1 % 2 ^ k = below k * last.toNat)
    (hothers : lows k (undoOthers k first rest).2 = List.replicate axes 0) :
    first % 2 ^ k = below k * (side last (tops k rest)).toNat ∧
      rest = cornerOthers k last (tops k rest) := by
  induction rest generalizing first axes with
  | nil => exact ⟨hfirst, rfl⟩
  | cons other rest ih =>
    obtain ⟨rfl, hlt⟩ := hrest
    rw [List.forall_mem_cons] at hlt
    rw [undoOthers_cons, lows, List.map_cons, ← lows, List.length_cons, List.replicate_succ,
      List.cons.injEq] at hothers
    rw [undoOthers_cons] at hfirst
    obtain ⟨hside, hcorner⟩ := ih ⟨rfl, hlt.2⟩ hfirst hothers.2
    have hpair := reflectOrExchange_mod k first other
    rw [hside, hothers.1] at hpair
    have htops : tops k (other :: rest) = other.testBit k :: tops k rest := rfl
    rw [htops, side, cornerOthers, ← hcorner]
    cases hbit : other.testBit k with
    | true =>
      rw [if_pos hbit, Prod.mk.injEq] at hpair
      refine ⟨eq_of_below_sub hpair.1.symm, congrArg (· :: rest) ?_⟩
      rw [← hbit]
      exact eq_atSide hlt.1 (by rw [← hpair.2, hbit]; rfl)
    | false =>
      rw [if_neg (by rw [hbit]; exact Bool.false_ne_true), Prod.mk.injEq] at hpair
      refine ⟨hpair.2.symm, congrArg (· :: rest) ?_⟩
      rw [← hbit]
      exact eq_atSide hlt.1 (by rw [← hpair.1, hbit]; rfl)

/-- The cells that stand for an end of the smaller grid are the corners of the blocks. -/
theorem eq_corner {last : Bool} (hcell : cell ∈ grid (k + 1) (axes + 1))
    (h : inBlock k cell = endCell k last axes) : cell = corner k last (tops k cell) := by
  match cell with
  | [] => cases h
  | first :: rest =>
    obtain ⟨hlength, hlt⟩ := hcell
    rw [List.forall_mem_cons] at hlt
    rw [inBlock, undoBit_cons, lows, List.map_cons, ← lows, endCell, List.cons.injEq] at h
    obtain ⟨hside, hrest⟩ := eq_cornerOthers ⟨Nat.succ.inj hlength, hlt.2⟩ h.1 h.2
    have htops : tops k (first :: rest) = first.testBit k :: tops k rest := rfl
    rw [htops, corner, ← hrest]
    refine congrArg (· :: rest) (eq_atSide hlt.1 ?_)
    rw [reflect_mod] at hside
    split at hside
    · next hbit =>
      rw [hbit, Bool.true_xor]
      exact eq_of_below_sub hside
    · next hbit => rw [Bool.eq_false_of_not_eq_true hbit, Bool.false_xor, hside]

/-- Where a digit changes, the coordinate crosses the side where the blocks meet. -/
theorem dist_atSide (k : Nat) (digit : Bool) :
    Nat.dist (atSide k digit (!digit)) (atSide k (!digit) digit) = 1 := by
  have := Nat.two_pow_pos k
  rw [atSide, atSide, below, Nat.dist]
  cases digit <;> simp <;> omega

theorem GrayStep.distance_cornerOthers {last : Bool} {digits digits' : List Bool}
    (h : GrayStep last digits digits') : side last digits = side last digits' ∧
      distance (cornerOthers k last digits) (cornerOthers k last digits') = 1 := by
  induction h with
  | @here digit digits hside =>
    rw [side, side, cornerOthers, cornerOthers, distance, distance_self, hside, Bool.and_true,
      Bool.and_true, Bool.not_not, dist_atSide]
    exact ⟨by cases digit <;> rfl, rfl⟩
  | there _ ih =>
    rw [side, side, cornerOthers, cornerOthers, distance, ih.1, ih.2, Nat.dist_self]
    exact ⟨rfl, rfl⟩

/-- From one block to the next, the curve moves to a neighbour. -/
theorem GrayStep.distance_corner {last : Bool} {digits digits' : List Bool}
    (h : GrayStep last digits digits') :
    distance (corner k last digits) (corner k last digits') = 1 := by
  cases h with
  | @here digit digits hside =>
    rw [corner, corner, distance, distance_self, hside, Bool.xor_true, Bool.xor_true,
      Bool.not_not, dist_atSide]
  | there h =>
    obtain ⟨hside, hothers⟩ := h.distance_cornerOthers (k := k)
    rw [corner, corner, distance, hside, hothers, Nat.dist_self]

/-! ## Ends of the curve -/

/-- The curve begins in the first cell. -/
theorem eq_endCell_of_key_eq_zero (hcell : cell ∈ grid k (axes + 1)) (h : key k cell = 0) :
    cell = endCell k false axes := by
  have hzero : List.replicate (axes + 1) 0 ∈ grid k (axes + 1) := by
    refine ⟨List.length_replicate, fun x hx => ?_⟩
    rw [List.eq_of_mem_replicate hx]
    exact Nat.two_pow_pos k
  have hkey : key k (List.replicate (axes + 1) 0) = 0 := by
    rw [key, transpose_replicate, interleave_replicate]
  exact key_injOn k (axes + 1) hcell hzero (h.trans hkey.symm)

/-- The key of a cell lies among those of its block. -/
theorem key_succ_bounds (hcell : cell ∈ grid (k + 1) axes) :
    2 ^ (axes * k) * grayRank false (tops k cell) ≤ key (k + 1) cell ∧
      key (k + 1) cell < 2 ^ (axes * k) * (grayRank false (tops k cell) + 1) := by
  have hlt := key_lt (inBlock_mem_grid hcell)
  rcases Nat.mod_two_eq_zero_or_one (grayRank false (tops k cell)) with heven | hodd
  · have hkey := key_succ_of_even heven
    rw [hcell.1] at hkey
    rw [Nat.mul_succ]
    omega
  · have hkey := key_succ_of_odd hodd
    rw [hcell.1, Nat.mul_succ] at hkey
    rw [Nat.mul_succ]
    omega

theorem cornerOthers_eq_replicate {digits : List Bool} (h : grayRank false digits = 0) :
    cornerOthers k false digits = List.replicate digits.length 0 := by
  induction digits with
  | nil => rfl
  | cons digit digits ih =>
    cases digit with
    | false =>
      rw [grayRank_cons_of_false rfl] at h
      rw [cornerOthers, side_eq_false h, ih h, List.length_cons, List.replicate_succ]
      rfl
    | true =>
      have := Nat.two_pow_pos digits.length
      rw [grayRank_cons_of_true rfl] at h
      omega

/-- The first cell of the last block stands for the last cell. -/
theorem corner_eq_endCell {digits : List Bool} (hlength : digits.length = axes + 1)
    (h : grayRank true digits = 0) : corner k false digits = endCell (k + 1) true axes := by
  match digits with
  | [] => cases hlength
  | false :: digits =>
    have := Nat.two_pow_pos digits.length
    rw [grayRank_cons_of_true rfl] at h
    omega
  | true :: digits =>
    rw [grayRank_cons_of_false rfl] at h
    have hfar : atSide k true true = below (k + 1) * true.toNat := by
      have := Nat.two_pow_pos k
      rw [atSide, below, below, Nat.pow_succ, Bool.toNat_true]
      omega
    rw [corner, side_eq_false h, cornerOthers_eq_replicate h, Nat.succ.inj hlength, endCell,
      ← hfar]
    rfl

/-- The curve ends in the last cell. -/
theorem eq_endCell_of_key_eq_last (hcell : cell ∈ grid k (axes + 1))
    (h : key k cell + 1 = 2 ^ ((axes + 1) * k)) : cell = endCell k true axes := by
  cases k with
  | zero =>
    refine List.eq_replicate_iff.2 ⟨hcell.1, fun x hx => ?_⟩
    exact Nat.lt_one_iff.1 (hcell.2 x hx)
  | succ k =>
    have hrank := grayRank_lt false (tops k cell)
    have hflip := grayRank_flip (tops k cell)
    rw [length_tops, hcell.1] at hrank hflip
    rw [Nat.mul_add_one, Nat.pow_add] at h
    -- the cell is in the last block, which is passed backwards
    have hlast : grayRank false (tops k cell) + 1 = 2 ^ (axes + 1) := by
      have hlt := (key_succ_bounds hcell).2
      rw [← Nat.succ_le_iff, Nat.succ_eq_add_one, h] at hlt
      have := Nat.le_of_mul_le_mul_left hlt (Nat.two_pow_pos _)
      omega
    have hodd : grayRank false (tops k cell) % 2 = 1 := by
      rw [Nat.pow_succ] at hlast
      omega
    have hkey := key_succ_of_odd hodd
    rw [hcell.1, hlast] at hkey
    have hfirst := eq_endCell_of_key_eq_zero (inBlock_mem_grid hcell) (by omega)
    rw [eq_corner hcell hfirst]
    exact corner_eq_endCell ((length_tops k cell).trans hcell.1) (by omega)

/-! ## Consecutive cells -/

/-- Cells of one block follow each other as the cells do that stand for them, or the other way
    around. -/
theorem consecutive_inBlock (hcell : cell ∈ grid (k + 1) axes)
    (hcell' : cell' ∈ grid (k + 1) axes) (h : key (k + 1) cell' = key (k + 1) cell + 1)
    (htops : tops k cell = tops k cell') :
    key k (inBlock k cell') = key k (inBlock k cell) + 1 ∨
      key k (inBlock k cell) = key k (inBlock k cell') + 1 := by
  rcases Nat.mod_two_eq_zero_or_one (grayRank false (tops k cell)) with heven | hodd
  · have hkey := key_succ_of_even heven
    have hkey' := key_succ_of_even (htops ▸ heven)
    rw [hcell.1] at hkey
    rw [hcell'.1, ← htops] at hkey'
    omega
  · have hkey := key_succ_of_odd hodd
    have hkey' := key_succ_of_odd (htops ▸ hodd)
    rw [hcell.1] at hkey
    rw [hcell'.1, ← htops] at hkey'
    omega

/-- Where a cell is the last one of its block, and the next cell the first one of the next
    block, both stand for the same end of the smaller grid. -/
theorem ends_inBlock (hcell : cell ∈ grid (k + 1) (axes + 1))
    (hcell' : cell' ∈ grid (k + 1) (axes + 1)) (h : key (k + 1) cell' = key (k + 1) cell + 1)
    (hrank : grayRank false (tops k cell') = grayRank false (tops k cell) + 1) :
    inBlock k cell = endCell k (decide (grayRank false (tops k cell) % 2 = 0)) axes ∧
      inBlock k cell' = endCell k (decide (grayRank false (tops k cell) % 2 = 0)) axes := by
  have hin := inBlock_mem_grid hcell
  have hin' := inBlock_mem_grid hcell'
  rcases Nat.mod_two_eq_zero_or_one (grayRank false (tops k cell)) with heven | hodd
  · have hkey := key_succ_of_even heven
    have hodd : grayRank false (tops k cell') % 2 = 1 := by omega
    have hkey' := key_succ_of_odd hodd
    have hlt := key_lt hin
    have hlt' := key_lt hin'
    rw [hcell.1] at hkey
    rw [hcell'.1, hrank, Nat.mul_succ, Nat.mul_succ] at hkey'
    rw [decide_eq_true heven]
    exact ⟨eq_endCell_of_key_eq_last hin (by omega), eq_endCell_of_key_eq_last hin' (by omega)⟩
  · have hkey := key_succ_of_odd hodd
    have heven : grayRank false (tops k cell') % 2 = 0 := by omega
    have hkey' := key_succ_of_even heven
    rw [hcell.1] at hkey
    rw [hcell'.1, hrank] at hkey'
    rw [decide_eq_false (by omega)]
    exact ⟨eq_endCell_of_key_eq_zero hin (by omega), eq_endCell_of_key_eq_zero hin' (by omega)⟩

/-- The curve stays in a block or goes on to the next one. -/
theorem grayRank_consecutive (hcell : cell ∈ grid (k + 1) axes)
    (hcell' : cell' ∈ grid (k + 1) axes) (h : key (k + 1) cell' = key (k + 1) cell + 1) :
    grayRank false (tops k cell') = grayRank false (tops k cell) ∨
      grayRank false (tops k cell') = grayRank false (tops k cell) + 1 := by
  obtain ⟨hle, hlt⟩ := key_succ_bounds hcell
  obtain ⟨hle', hlt'⟩ := key_succ_bounds hcell'
  rw [h] at hle' hlt'
  have hup := Nat.le_of_mul_le_mul_left (hle'.trans hlt) (Nat.two_pow_pos _)
  have hdown := Nat.lt_of_mul_lt_mul_left (hle.trans_lt (Nat.lt_of_succ_lt hlt'))
  omega

theorem distance_of_consecutive (hcell : cell ∈ grid k axes) (hcell' : cell' ∈ grid k axes)
    (h : key k cell' = key k cell + 1) : distance cell cell' = 1 := by
  induction k generalizing cell cell' with
  | zero => cases h
  | succ k ih =>
    have hlength : (tops k cell).length = (tops k cell').length := by
      rw [length_tops, length_tops, hcell.1, hcell'.1]
    rcases grayRank_consecutive hcell hcell' h with hrank | hrank
    · -- in one block, as in the smaller grid
      have htops := grayRank_inj hlength hrank.symm
      rw [← distance_lows hcell hcell' htops, ← distance_inBlock htops]
      rcases consecutive_inBlock hcell hcell' h htops with hkey | hkey
      · exact ih (inBlock_mem_grid hcell) (inBlock_mem_grid hcell') hkey
      · rw [distance_comm]
        exact ih (inBlock_mem_grid hcell') (inBlock_mem_grid hcell) hkey
    · -- from corner to corner, where the blocks meet
      cases axes with
      | zero =>
        rw [List.eq_nil_of_length_eq_zero hcell.1, List.eq_nil_of_length_eq_zero hcell'.1] at hrank
        cases hrank
      | succ axes =>
        obtain ⟨hend, hend'⟩ := ends_inBlock hcell hcell' h hrank
        rw [eq_corner hcell hend, eq_corner hcell' hend']
        exact (grayStep_of_rank hlength hrank).distance_corner

/-- Cells at positions that differ by one are neighbours. -/
theorem adjacent_of_consecutive {bits : Nat} (hcell : cell ∈ grid bits axes)
    (hcell' : cell' ∈ grid bits axes)
    (h : position bits cell + 1 = position bits cell' ∨
      position bits cell' + 1 = position bits cell) : Adjacent cell cell' := by
  have hlength : cell.length = cell'.length := hcell.1.trans hcell'.1.symm
  rw [position_eq_key hcell, position_eq_key hcell'] at h
  rcases h with h | h
  · exact adjacent_of_distance hlength (distance_of_consecutive hcell hcell' h.symm)
  · refine (adjacent_of_distance hlength.symm ?_).symm
    exact distance_of_consecutive hcell' hcell h.symm

/-- The step out of the first half of a cube with four cells along each axis. -/
theorem adjacent_of_consecutive_cube :
    [1, 2, 0] ∈ grid 2 3 ∧ [2, 2, 0] ∈ grid 2 3 ∧ position 2 [1, 2, 0] = 31 ∧
      position 2 [2, 2, 0] = 32 ∧ Adjacent [1, 2, 0] [2, 2, 0] := by
  have hcell : [1, 2, 0] ∈ grid 2 3 := ⟨rfl, by decide⟩
  have hcell' : [2, 2, 0] ∈ grid 2 3 := ⟨rfl, by decide⟩
  have hposition : position 2 [1, 2, 0] = 31 := by decide
  have hposition' : position 2 [2, 2, 0] = 32 := by decide
  exact ⟨hcell, hcell', hposition, hposition',
    adjacent_of_consecutive hcell hcell' (.inl (by rw [hposition, hposition']))⟩

end SharedMesh.Hilbert
