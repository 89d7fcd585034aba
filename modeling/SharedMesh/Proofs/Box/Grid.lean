import Mathlib.Algebra.Order.Sub.Prod
import Mathlib.Data.List.Nodup
import Mathlib.Order.Lattice
import SharedMesh.Box.Mesh

/-!
# The grid of a box

A point of a grid is found by its steps along the axes, and points are compared axis by axis. The
vertices of a box are numbered along `x` first, so that the number of a point tells its steps
(`pointOf_number`).

A block of some extent has a lowest corner, and lies in the grid if its highest corner does
(`mem_places`). Points are blocks of no extent, and cells are blocks of one step along each axis
that is cut. `places` lists the lowest corners of the blocks of an extent in the order of their
numbers, and how many there are is a product (`length_places`).
-/

namespace SharedMesh.Box

/-- A point of a grid: the steps along `x`, `y` and `z`. -/
abbrev GridPoint := Nat × Nat × Nat

variable {cells extent p q : GridPoint}

/-- The number of a point in a grid of so many cells along each axis. -/
def number (cells p : GridPoint) : Nat := vertex cells.1 cells.2.1 p.1 p.2.1 p.2.2

/-- The point with a number. -/
def pointOf (cells : GridPoint) (v : Nat) : GridPoint :=
  (v % (cells.1 + 1), v / (cells.1 + 1) % (cells.2.1 + 1), v / (cells.1 + 1) / (cells.2.1 + 1))

theorem le_iff : p ≤ q ↔ p.1 ≤ q.1 ∧ p.2.1 ≤ q.2.1 ∧ p.2.2 ≤ q.2.2 := Iff.rfl

/-- A point is counted in its line, and its line among all lines. -/
theorem number_eq (cells p : GridPoint) : number cells p =
    (p.2.2 * (cells.2.1 + 1) + p.2.1) * (cells.1 + 1) + p.1 := by
  rw [number, vertex, Nat.mul_comm (cells.1 + 1), ← Nat.mul_assoc, ← Nat.add_mul]

theorem mul_add_div_of_lt {a b c : Nat} (h : c < b) : (a * b + c) / b = a := by
  rw [Nat.add_comm, Nat.add_mul_div_right _ _ (Nat.zero_lt_of_lt h), Nat.div_eq_of_lt h,
    Nat.zero_add]

/-- The number of a point tells its steps. -/
theorem pointOf_number (h : p ≤ cells) : pointOf cells (number cells p) = p := by
  obtain ⟨hx, hy, -⟩ := le_iff.1 h
  have hx := Nat.lt_succ_of_le hx
  have hy := Nat.lt_succ_of_le hy
  rw [pointOf, number_eq, Nat.mul_add_mod_of_lt hx, mul_add_div_of_lt hx, Nat.mul_add_mod_of_lt hy,
    mul_add_div_of_lt hy]

theorem mul_add_lt_mul {a b c n : Nat} (ha : a < n) (hc : c < b) : a * b + c < n * b :=
  calc a * b + c < a * b + b := Nat.add_lt_add_left hc _
    _ = (a + 1) * b := (Nat.succ_mul a b).symm
    _ ≤ n * b := Nat.mul_le_mul_right b ha

theorem number_inj (hp : p ≤ cells) (hq : q ≤ cells) : number cells p = number cells q ↔ p = q :=
  ⟨fun h => by rw [← pointOf_number hp, h, pointOf_number hq], fun h => h ▸ rfl⟩

theorem number_lt (h : p ≤ cells) :
    number cells p < (cells.1 + 1) * (cells.2.1 + 1) * (cells.2.2 + 1) := by
  obtain ⟨hx, hy, hz⟩ := le_iff.1 h
  have hline := mul_add_lt_mul (Nat.lt_succ_of_le hz) (Nat.lt_succ_of_le hy)
  calc number cells p
      = (p.2.2 * (cells.2.1 + 1) + p.2.1) * (cells.1 + 1) + p.1 := number_eq cells p
    _ < (cells.2.2 + 1) * (cells.2.1 + 1) * (cells.1 + 1) :=
      mul_add_lt_mul hline (Nat.lt_succ_of_le hx)
    _ = (cells.1 + 1) * (cells.2.1 + 1) * (cells.2.2 + 1) := by ac_rfl

/-! ## Blocks -/

/-- The lowest corners of the blocks of an extent in a grid, in order. -/
def places (cells extent : GridPoint) : List GridPoint :=
  (List.range (cells.2.2 + 1 - extent.2.2)).flatMap fun k =>
    (List.range (cells.2.1 + 1 - extent.2.1)).flatMap fun j =>
      (List.range (cells.1 + 1 - extent.1)).map fun i => (i, j, k)

/-- A block lies in the grid if its highest corner does. -/
theorem mem_places : p ∈ places cells extent ↔ p + extent ≤ cells := by
  obtain ⟨i, j, k⟩ := p
  have hlt : ∀ {a n e : Nat}, a < n + 1 - e ↔ a + e ≤ n := by omega
  simp only [places, List.mem_flatMap, List.mem_map, List.mem_range, Prod.mk.injEq, le_iff, hlt,
    Prod.fst_add, Prod.snd_add]
  constructor
  · rintro ⟨_, hk, _, hj, _, hi, rfl, rfl, rfl⟩
    exact ⟨hi, hj, hk⟩
  · rintro ⟨hi, hj, hk⟩
    exact ⟨k, hk, j, hj, i, hi, rfl, rfl, rfl⟩

/-- Lists of items that tell which list they are from have no item in common. -/
theorem nodup_flatMap_of_key {α β : Type} {f : α → List β} (key : β → α) {xs : List α}
    (h : xs.Nodup) (hf : ∀ x ∈ xs, (f x).Nodup) (hkey : ∀ x ∈ xs, ∀ y ∈ f x, key y = x) :
    (xs.flatMap f).Nodup := by
  refine List.nodup_flatMap.2 ⟨hf, h.pairwise_of_forall_ne fun x hx x' hx' hne y hy hy' => hne ?_⟩
  rw [← hkey x hx y hy, hkey x' hx' y hy']

theorem nodup_places (cells extent : GridPoint) : (places cells extent).Nodup := by
  refine nodup_flatMap_of_key (·.2.2) List.nodup_range (fun k _ => ?_) fun k _ p hp => ?_
  · refine nodup_flatMap_of_key (·.2.1) List.nodup_range (fun j _ => ?_) fun j _ p hp => ?_
    · exact List.nodup_range.map fun i i' hi => (Prod.ext_iff.1 hi).1
    · obtain ⟨i, -, rfl⟩ := List.mem_map.1 hp
      rfl
  · obtain ⟨j, -, hp⟩ := List.mem_flatMap.1 hp
    obtain ⟨i, -, rfl⟩ := List.mem_map.1 hp
    rfl

/-- A block that fits into a cell and into the grid lies in a cell of the grid. -/
theorem exists_cell_around {base step : GridPoint} (hcells : extent ≤ cells)
    (hbase : base + step ≤ cells) (hstep : step ≤ extent) :
    ∃ c, c ≤ base ∧ c + extent ≤ cells ∧ base - c + step ≤ extent := by
  refine ⟨base ⊓ (cells - extent), inf_le_left, ?_, ?_⟩
  all_goals
    simp only [le_iff, Prod.fst_add, Prod.snd_add, Prod.fst_sub, Prod.snd_sub, Prod.fst_inf,
      Prod.snd_inf] at *
    omega

theorem length_places (cells extent : GridPoint) : (places cells extent).length =
    (cells.1 + 1 - extent.1) * (cells.2.1 + 1 - extent.2.1) * (cells.2.2 + 1 - extent.2.2) := by
  simp only [places, List.length_flatMap, List.length_map, List.length_range, List.map_const',
    List.sum_replicate_nat]
  ac_rfl

end SharedMesh.Box
