import SharedMesh.Proofs.Curve.Transposing

/-!
# Passes over some of the bits

Transposing treats the bits of the coordinates in the same way at every height. So if a map
cuts the same bits out of every word (`Window`), it does not matter whether the axes are passed
over before or after that: where bits are dropped at the lower end (`window_shiftRight`), and
where they are dropped at the upper end (`window_mod`).
-/

namespace SharedMesh.Hilbert

-- Powers are those of core, also beside Mathlib.
attribute [local instance (high)] instPowNat

variable {k k' : Nat} {f : Nat → Nat}

/-- A map of words that works bit by bit and takes bit `k`, with the bits below it that are
    left, to bit `k'`. -/
structure Window (f : Nat → Nat) (k k' : Nat) : Prop where
  xor : ∀ x y, f (x ^^^ y) = f x ^^^ f y
  and : ∀ x y, f (x &&& y) = f x &&& f y
  below_eq : f (below k) = below k'
  testBit_eq : ∀ x, (f x).testBit k' = x.testBit k

theorem below_shiftRight (k : Nat) : below (k + 1) >>> 1 = below k := by
  rw [Nat.shiftRight_one, below, below, Nat.pow_succ]
  have := Nat.two_pow_pos k
  omega

/-- The lowest bit is dropped. -/
theorem window_shiftRight (k : Nat) : Window (· >>> 1) (k + 1) k where
  xor _ _ := Nat.shiftRight_xor_distrib
  and _ _ := Nat.shiftRight_and_distrib
  below_eq := below_shiftRight k
  testBit_eq x := by rw [Nat.testBit_shiftRight, Nat.add_comm]

/-- The bits from `bits` on are dropped. -/
theorem window_mod {bits : Nat} (h : k < bits) : Window (· % 2 ^ bits) k k where
  xor _ _ := Nat.xor_mod_two_pow
  and _ _ := Nat.and_mod_two_pow
  below_eq := Nat.mod_eq_of_lt (below_lt (Nat.le_of_lt h))
  testBit_eq x := by rw [Nat.testBit_mod_two_pow, decide_eq_true h, Bool.true_and]

/-! ## Reflections and exchanges -/

namespace Window

variable (h : Window f k k')

include h

theorem reflectOrExchange (first other : Nat) : reflectOrExchange k' (f first) (f other) =
    (f (reflectOrExchange k first other).1, f (reflectOrExchange k first other).2) := by
  cases hbit : other.testBit k with
  | true =>
    rw [reflectOrExchange_of_testBit hbit,
      reflectOrExchange_of_testBit ((h.testBit_eq other).trans hbit), h.xor, h.below_eq]
  | false =>
    rw [reflectOrExchange_of_not_testBit hbit,
      reflectOrExchange_of_not_testBit ((h.testBit_eq other).trans hbit)]
    simp only [h.xor, h.and, h.below_eq]

theorem reflect (x : Nat) : reflect k' (f x) = f (reflect k x) := by
  rw [Hilbert.reflect, Hilbert.reflect, h.testBit_eq]
  split
  · rw [h.xor, h.below_eq]
  · rfl

theorem undoOthers (first : Nat) (rest : List Nat) : undoOthers k' (f first) (rest.map f) =
    (f (undoOthers k first rest).1, (undoOthers k first rest).2.map f) := by
  induction rest generalizing first with
  | nil => rfl
  | cons other rest ih =>
    rw [List.map_cons, undoOthers_cons, h.reflectOrExchange, ih, undoOthers_cons, List.map_cons]

theorem undoBit (cell : List Nat) : undoBit k' (cell.map f) = (undoBit k cell).map f := by
  cases cell with
  | nil => rfl
  | cons first rest =>
    rw [List.map_cons, undoBit_cons, h.reflect, h.undoOthers, undoBit_cons, List.map_cons]

end Window

/-- Below the lowest bit there is nothing to undo. -/
theorem undoBit_zero (cell : List Nat) : undoBit 0 cell = cell := by
  have hexchange (first other : Nat) : reflectOrExchange 0 first other = (first, other) := by
    simp [reflectOrExchange, below]
  have hothers (first : Nat) (rest : List Nat) : undoOthers 0 first rest = (first, rest) := by
    induction rest with
    | nil => rfl
    | cons other rest ih => rw [undoOthers_cons, hexchange, ih]
  cases cell with
  | nil => rfl
  | cons first rest =>
    have hreflect : reflect 0 first = first := by simp [reflect, below]
    rw [undoBit_cons, hreflect, hothers]

/-- The top bit is undone first, also if it is the lowest one. -/
theorem undoBits_eq (k : Nat) (cell : List Nat) :
    undoBits k cell = undoBits (k - 1) (undoBit k cell) := by
  cases k with
  | zero => rw [undoBit_zero]
  | succ k => rfl

/-! ## Accumulated axes -/

theorem accumulate_map (hxor : ∀ x y, f (x ^^^ y) = f x ^^^ f y) (before : Nat)
    (cell : List Nat) : accumulate (f before) (cell.map f) = (accumulate before cell).map f := by
  induction cell generalizing before with
  | nil => rfl
  | cons x cell ih => rw [List.map_cons, accumulate, ← hxor, ih, accumulate, List.map_cons]

theorem getLastD_map_zero (hzero : f 0 = 0) (cell : List Nat) :
    (cell.map f).getLastD 0 = f (cell.getLastD 0) := by
  have hmap := List.getLastD_map (f := f) (l := cell) (a := 0)
  rwa [hzero] at hmap

/-! ## Corrections -/

/-- The top bit of the last axis corrects first, also if it is the lowest one. -/
theorem carry_eq (last k : Nat) :
    carry last k = (if last.testBit k then below k else 0) ^^^ carry last (k - 1) := by
  cases k with
  | zero => simp [carry, below]
  | succ k => rfl

end SharedMesh.Hilbert
