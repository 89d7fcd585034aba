import Mathlib.Data.Finite.Prod
import Mathlib.Data.Nat.Bitwise
import Mathlib.Data.Set.Finite.Range
import SharedMesh.Curve.Cell

/-!
# Transposing loses nothing

Every step from a cell to the transposed bits of its key can be undone: a reflection or an
exchange of two axes, done twice, changes nothing (`reflectOrExchange_twice`), and the bits
that a correction mask flips at a bit depend on higher bits alone (`testBit_carry_congr`).
So transposing is injective (`transpose_injective`), and it stays in the grid
(`transpose_mem_grid`). On the zero cell, and where there is one axis, it changes nothing.
-/

namespace SharedMesh.Hilbert

-- Powers are those of core, also beside Mathlib.
attribute [local instance (high)] instPowNat

variable {bits k : Nat}

/-- The cells of a grid of `2 ^ bits` cells along each axis. -/
def grid (bits axes : Nat) : Set (List Nat) :=
  {cell | cell.length = axes ∧ ∀ x ∈ cell, x < 2 ^ bits}

theorem finite_grid (bits axes : Nat) : (grid bits axes).Finite := by
  refine (Set.finite_range fun f : Fin axes → Fin (2 ^ bits) =>
    List.ofFn fun i => (f i).val).subset ?_
  rintro cell ⟨rfl, hlt⟩
  exact ⟨fun i => ⟨cell.get i, hlt _ (List.get_mem _ _)⟩, List.ofFn_get cell⟩

/-! ## Masks -/

theorem testBit_below (k i : Nat) : (below k).testBit i = decide (i < k) :=
  Nat.testBit_two_pow_sub_one k i

theorem below_lt (h : k ≤ bits) : below k < 2 ^ bits :=
  Nat.lt_of_lt_of_le (Nat.sub_one_lt (Nat.ne_of_gt (Nat.two_pow_pos k)))
    (Nat.pow_le_pow_right Nat.two_pos h)

/-! ## Two axes -/

theorem reflectOrExchange_of_testBit {first other : Nat} (h : other.testBit k = true) :
    reflectOrExchange k first other = (first ^^^ below k, other) := if_pos h

theorem reflectOrExchange_of_not_testBit {first other : Nat} (h : other.testBit k = false) :
    reflectOrExchange k first other =
      (first ^^^ ((first ^^^ other) &&& below k), other ^^^ ((first ^^^ other) &&& below k)) :=
  if_neg (by simp [h])

theorem reflectOrExchange_twice (k first other : Nat) :
    reflectOrExchange k (reflectOrExchange k first other).1 (reflectOrExchange k first other).2 =
      (first, other) := by
  cases hbit : other.testBit k with
  | true =>
    rw [reflectOrExchange_of_testBit hbit, reflectOrExchange_of_testBit hbit,
      Nat.xor_xor_cancel_right]
  | false =>
    rw [reflectOrExchange_of_not_testBit hbit]
    generalize hd : (first ^^^ other) &&& below k = difference
    -- what is exchanged lies below the bit, and is the same both times
    have hbit' : (other ^^^ difference).testBit k = false := by
      simp [← hd, hbit, testBit_below]
    have hd' : ((first ^^^ difference) ^^^ (other ^^^ difference)) &&& below k = difference := by
      rw [Nat.xor_comm other, Nat.xor_assoc, Nat.xor_xor_cancel_left, hd]
    rw [reflectOrExchange_of_not_testBit hbit', hd', Nat.xor_xor_cancel_right,
      Nat.xor_xor_cancel_right]

theorem reflectOrExchange_inj {first other first' other' : Nat}
    (h : reflectOrExchange k first other = reflectOrExchange k first' other') :
    first = first' ∧ other = other' := by
  have := reflectOrExchange_twice k first other
  rw [h, reflectOrExchange_twice] at this
  exact ⟨(congrArg Prod.fst this).symm, (congrArg Prod.snd this).symm⟩

theorem reflectOrExchange_lt {first other : Nat} (hk : k ≤ bits) (hfirst : first < 2 ^ bits)
    (hother : other < 2 ^ bits) :
    (reflectOrExchange k first other).1 < 2 ^ bits ∧
      (reflectOrExchange k first other).2 < 2 ^ bits := by
  cases hbit : other.testBit k with
  | true =>
    rw [reflectOrExchange_of_testBit hbit]
    exact ⟨Nat.xor_lt_two_pow hfirst (below_lt hk), hother⟩
  | false =>
    rw [reflectOrExchange_of_not_testBit hbit]
    have hdifference : (first ^^^ other) &&& below k < 2 ^ bits :=
      Nat.and_lt_two_pow _ (below_lt hk)
    exact ⟨Nat.xor_lt_two_pow hfirst hdifference, Nat.xor_lt_two_pow hother hdifference⟩

/-- An axis against itself. -/
def reflect (k x : Nat) : Nat := if x.testBit k then x ^^^ below k else x

theorem testBit_reflect (k x : Nat) : (reflect k x).testBit k = x.testBit k := by
  rw [reflect]
  split
  · simp [testBit_below]
  · rfl

theorem reflect_reflect (k x : Nat) : reflect k (reflect k x) = x := by
  rw [reflect, testBit_reflect, reflect]
  split
  · exact Nat.xor_xor_cancel_right ..
  · rfl

theorem reflect_lt {x : Nat} (hk : k ≤ bits) (h : x < 2 ^ bits) : reflect k x < 2 ^ bits := by
  rw [reflect]
  split
  · exact Nat.xor_lt_two_pow h (below_lt hk)
  · exact h

/-! ## All axes -/

theorem undoOthers_cons (k first other : Nat) (rest : List Nat) :
    undoOthers k first (other :: rest) =
      ((undoOthers k (reflectOrExchange k first other).1 rest).1,
        (reflectOrExchange k first other).2 ::
          (undoOthers k (reflectOrExchange k first other).1 rest).2) := rfl

theorem undoBit_cons (k first : Nat) (rest : List Nat) :
    undoBit k (first :: rest) =
      (undoOthers k (reflect k first) rest).1 :: (undoOthers k (reflect k first) rest).2 := rfl

theorem undoOthers_inj {first first' : Nat} {rest rest' : List Nat}
    (h : undoOthers k first rest = undoOthers k first' rest') :
    first = first' ∧ rest = rest' := by
  induction rest generalizing first first' rest' with
  | nil =>
    cases rest' with
    | nil => exact ⟨congrArg Prod.fst h, rfl⟩
    | cons other' rest' => cases congrArg Prod.snd h
  | cons other rest ih =>
    cases rest' with
    | nil => cases congrArg Prod.snd h
    | cons other' rest' =>
      rw [undoOthers_cons, undoOthers_cons, Prod.mk.injEq, List.cons.injEq] at h
      obtain ⟨hlast, hother, hrest⟩ := h
      obtain ⟨hfirst, rfl⟩ := ih (Prod.ext hlast hrest)
      obtain ⟨rfl, rfl⟩ := reflectOrExchange_inj (Prod.ext hfirst hother)
      exact ⟨rfl, rfl⟩

theorem undoBit_injective (k : Nat) : Function.Injective (undoBit k) := by
  intro cell cell' h
  match cell, cell' with
  | [], [] => rfl
  | first :: rest, first' :: rest' =>
    rw [undoBit_cons, undoBit_cons, List.cons.injEq] at h
    obtain ⟨hreflect, rfl⟩ := undoOthers_inj (Prod.ext h.1 h.2)
    rw [← reflect_reflect k first, hreflect, reflect_reflect]

theorem undoBits_injective (k : Nat) : Function.Injective (undoBits k) := by
  induction k with
  | zero => exact fun _ _ h => h
  | succ k ih => exact ih.comp (undoBit_injective (k + 1))

theorem undoOthers_mem_grid {first axes : Nat} {rest : List Nat} (hk : k ≤ bits)
    (hfirst : first < 2 ^ bits) (hrest : rest ∈ grid bits axes) :
    (undoOthers k first rest).1 < 2 ^ bits ∧ (undoOthers k first rest).2 ∈ grid bits axes := by
  induction rest generalizing first axes with
  | nil => exact ⟨hfirst, hrest⟩
  | cons other rest ih =>
    obtain ⟨rfl, hlt⟩ := hrest
    rw [List.forall_mem_cons] at hlt
    obtain ⟨hfirst', hother'⟩ := reflectOrExchange_lt hk hfirst hlt.1
    obtain ⟨hlast, hlength, hlt'⟩ := ih hfirst' ⟨rfl, hlt.2⟩
    refine ⟨hlast, congrArg (· + 1) hlength, ?_⟩
    exact List.forall_mem_cons.2 ⟨hother', hlt'⟩

theorem undoBit_mem_grid {axes : Nat} {cell : List Nat} (hk : k ≤ bits)
    (h : cell ∈ grid bits axes) : undoBit k cell ∈ grid bits axes := by
  match cell with
  | [] => exact h
  | first :: rest =>
    obtain ⟨rfl, hlt⟩ := h
    rw [List.forall_mem_cons] at hlt
    obtain ⟨hlast, hlength, hlt'⟩ :=
      undoOthers_mem_grid hk (reflect_lt hk hlt.1) (⟨rfl, hlt.2⟩ : rest ∈ grid bits rest.length)
    exact ⟨congrArg (· + 1) hlength, List.forall_mem_cons.2 ⟨hlast, hlt'⟩⟩

theorem undoBits_mem_grid {axes : Nat} {cell : List Nat} (hk : k ≤ bits)
    (h : cell ∈ grid bits axes) : undoBits k cell ∈ grid bits axes := by
  induction k generalizing cell with
  | zero => exact h
  | succ k ih => exact ih (Nat.le_of_succ_le hk) (undoBit_mem_grid hk h)

/-! ## The Gray code -/

theorem accumulate_injective (before : Nat) : Function.Injective (accumulate before) := by
  intro cell cell' h
  induction cell generalizing before cell' with
  | nil =>
    cases cell' with
    | nil => rfl
    | cons => cases h
  | cons x cell ih =>
    cases cell' with
    | nil => cases h
    | cons x' cell' =>
      rw [accumulate, accumulate, List.cons.injEq] at h
      obtain ⟨hx, hcell⟩ := h
      obtain rfl : x = x' := Nat.xor_left_inj.1 hx
      rw [ih _ hcell]

theorem accumulate_mem_grid {before axes : Nat} {cell : List Nat} (hbefore : before < 2 ^ bits)
    (h : cell ∈ grid bits axes) : accumulate before cell ∈ grid bits axes := by
  induction cell generalizing before axes with
  | nil => exact h
  | cons x cell ih =>
    obtain ⟨rfl, hlt⟩ := h
    rw [List.forall_mem_cons] at hlt
    have hx : x ^^^ before < 2 ^ bits := Nat.xor_lt_two_pow hlt.1 hbefore
    obtain ⟨hlength, hlt'⟩ := ih hx ⟨rfl, hlt.2⟩
    exact ⟨congrArg (· + 1) hlength, List.forall_mem_cons.2 ⟨hx, hlt'⟩⟩

/-! ## The correction mask -/

theorem carry_lt (last k : Nat) : carry last k < 2 ^ k := by
  induction k with
  | zero => exact Nat.one_pos
  | succ k ih =>
    refine Nat.xor_lt_two_pow ?_ (Nat.lt_trans ih (Nat.pow_lt_pow_succ Nat.one_lt_two))
    split
    · exact below_lt (Nat.le_refl _)
    · exact Nat.two_pow_pos _

theorem testBit_carry_succ (last k i : Nat) :
    (carry last (k + 1)).testBit i =
      ((last.testBit (k + 1) && decide (i < k + 1)) ^^ (carry last k).testBit i) := by
  rw [carry, Nat.testBit_xor]
  cases last.testBit (k + 1) <;> simp [testBit_below]

/-- Whether a bit is flipped depends on the bits above it. -/
theorem testBit_carry_congr {last last' i : Nat}
    (h : ∀ j, i < j → last.testBit j = last'.testBit j) (k : Nat) :
    (carry last k).testBit i = (carry last' k).testBit i := by
  induction k with
  | zero => rfl
  | succ k ih =>
    rw [testBit_carry_succ, testBit_carry_succ, ih]
    by_cases hi : i < k + 1
    · rw [h (k + 1) hi]
    · simp [hi]

/-- The mask can be told from the axis that it has been applied to. -/
theorem xor_carry_injective (k : Nat) : Function.Injective fun last => last ^^^ carry last k := by
  intro last last' h
  have hbit (i) : (last.testBit i ^^ (carry last k).testBit i) =
      (last'.testBit i ^^ (carry last' k).testBit i) := by
    rw [← Nat.testBit_xor, ← Nat.testBit_xor]
    exact congrArg (Nat.testBit · i) h
  -- from the top bit down, by induction on the distance from `k`
  have hdown : ∀ m i, k ≤ i + m → last.testBit i = last'.testBit i := by
    intro m
    induction m with
    | zero =>
      intro i hi
      have hzero (l : Nat) : (carry l k).testBit i = false :=
        Nat.testBit_lt_two_pow (Nat.lt_of_lt_of_le (carry_lt l k)
          (Nat.pow_le_pow_right Nat.two_pos hi))
      have := hbit i
      rwa [hzero, hzero, Bool.xor_false, Bool.xor_false] at this
    | succ m ih =>
      intro i hi
      have hcarry : (carry last k).testBit i = (carry last' k).testBit i :=
        testBit_carry_congr (fun j hj => ih j (by omega)) k
      have := hbit i
      rw [hcarry] at this
      exact Bool.xor_left_inj.1 this
  exact Nat.eq_of_testBit_eq fun i => hdown k i (Nat.le_add_left ..)

/-- Every axis corrected by the mask of the last one. -/
def correct (k : Nat) (axes : List Nat) : List Nat := axes.map (· ^^^ carry (axes.getLastD 0) k)

theorem correct_injective (k : Nat) : Function.Injective (correct k) := by
  intro axes axes' h
  have hlength : axes.length = axes'.length := by
    simpa [correct] using congrArg List.length h
  rcases List.eq_nil_or_concat' axes with rfl | ⟨init, last, rfl⟩
  · exact (List.eq_nil_of_length_eq_zero hlength.symm).symm
  rcases List.eq_nil_or_concat' axes' with rfl | ⟨init', last', rfl⟩
  · simp at hlength
  simp only [correct, List.map_append, List.getLastD_concat, List.map_singleton] at h
  obtain ⟨hinit, hlast⟩ := List.append_inj' h rfl
  obtain rfl : last = last' := xor_carry_injective k (List.singleton_inj.1 hlast)
  rw [List.map_injective_iff.2 (fun _ _ => Nat.xor_left_inj.1) hinit]

theorem correct_mem_grid {axes : Nat} {cell : List Nat} (hk : k ≤ bits)
    (h : cell ∈ grid bits axes) : correct k cell ∈ grid bits axes := by
  refine ⟨(List.length_map _).trans h.1, fun y hy => ?_⟩
  obtain ⟨x, hx, rfl⟩ := List.mem_map.1 hy
  exact Nat.xor_lt_two_pow (h.2 x hx)
    (Nat.lt_of_lt_of_le (carry_lt ..) (Nat.pow_le_pow_right Nat.two_pos hk))

/-! ## The whole transposition -/

theorem transpose_eq (bits : Nat) (cell : List Nat) :
    transpose bits cell = correct (bits - 1) (accumulate 0 (undoBits (bits - 1) cell)) := rfl

theorem transpose_injective (bits : Nat) : Function.Injective (transpose bits) :=
  (correct_injective _).comp ((accumulate_injective 0).comp (undoBits_injective _))

theorem transpose_mem_grid {axes : Nat} {cell : List Nat} (h : cell ∈ grid bits axes) :
    transpose bits cell ∈ grid bits axes := by
  have hbits : bits - 1 ≤ bits := Nat.sub_le ..
  exact correct_mem_grid hbits
    (accumulate_mem_grid (Nat.two_pow_pos bits) (undoBits_mem_grid hbits h))

theorem undoOthers_replicate (k axes : Nat) :
    undoOthers k 0 (List.replicate axes 0) = (0, List.replicate axes 0) := by
  induction axes with
  | zero => rfl
  | succ axes ih =>
    have hzero : reflectOrExchange k 0 0 = (0, 0) := by
      simp [reflectOrExchange]
    rw [List.replicate_succ, undoOthers_cons, hzero, ih]

theorem undoBits_replicate (k axes : Nat) :
    undoBits k (List.replicate axes 0) = List.replicate axes 0 := by
  induction k with
  | zero => rfl
  | succ k ih =>
    have hbit : undoBit (k + 1) (List.replicate axes 0) = List.replicate axes 0 := by
      cases axes with
      | zero => rfl
      | succ axes =>
        have hzero : reflect (k + 1) 0 = 0 := by simp [reflect]
        rw [List.replicate_succ, undoBit_cons, hzero, undoOthers_replicate]
    rw [undoBits, hbit, ih]

theorem accumulate_replicate (axes : Nat) :
    accumulate 0 (List.replicate axes 0) = List.replicate axes 0 := by
  induction axes with
  | zero => rfl
  | succ axes ih => rw [List.replicate_succ, accumulate, Nat.xor_zero, ih]

theorem carry_zero (k : Nat) : carry 0 k = 0 := by
  induction k with
  | zero => rfl
  | succ k ih => simp [carry, ih]

theorem transpose_replicate (bits axes : Nat) :
    transpose bits (List.replicate axes 0) = List.replicate axes 0 := by
  have hlast : (List.replicate axes 0).getLastD 0 = 0 := by
    cases axes <;> simp [List.getLastD_eq_getLast?, List.getLast?_replicate]
  rw [transpose_eq, undoBits_replicate, accumulate_replicate, correct, hlast, carry_zero]
  simp

/-- Along one axis, the corrections take back the reflections. -/
theorem exists_undoBits_singleton (k x : Nat) :
    ∃ y, undoBits k [x] = [y] ∧ y ^^^ carry y k = x := by
  induction k generalizing x with
  | zero => exact ⟨x, rfl, Nat.xor_zero x⟩
  | succ k ih =>
    obtain ⟨y, hy, hcarry⟩ := ih (reflect (k + 1) x)
    refine ⟨y, hy, ?_⟩
    have hbit : y.testBit (k + 1) = x.testBit (k + 1) := by
      rw [← testBit_reflect (k + 1) x, ← hcarry, Nat.testBit_xor,
        Nat.testBit_lt_two_pow (Nat.lt_trans (carry_lt y k) (Nat.pow_lt_pow_right _ _)),
        Bool.xor_false]
      all_goals omega
    calc y ^^^ carry y (k + 1)
        = (y ^^^ carry y k) ^^^ (if x.testBit (k + 1) then below (k + 1) else 0) := by
          rw [carry, hbit, Nat.xor_comm (ite ..), Nat.xor_assoc]
      _ = reflect (k + 1) (reflect (k + 1) x) := by
          rw [hcarry, reflect.eq_1 _ (reflect (k + 1) x), testBit_reflect]
          split
          · rfl
          · exact Nat.xor_zero _
      _ = x := reflect_reflect ..

theorem transpose_singleton (bits x : Nat) : transpose bits [x] = [x] := by
  obtain ⟨y, hy, hcarry⟩ := exists_undoBits_singleton (bits - 1) x
  rw [transpose_eq, hy, accumulate, accumulate, Nat.xor_zero, correct]
  exact congrArg (fun z => [z]) hcarry

end SharedMesh.Hilbert
