import Mathlib.Algebra.Order.Group.Nat
import Mathlib.Algebra.Order.Monoid.Prod
import Mathlib.Data.Finset.Lattice.Fold
import Mathlib.Data.Finset.Prod
import Mathlib.Order.Lattice.Nat
import SharedMesh.Proofs.Box.Cells
import SharedMesh.Proofs.Skeleton.Enumerating

/-!
# The parts of cells

Some points of a grid have a lowest corner, their *base*, and the steps from there to each of them
are their *form*. The parts of cells include their lowest corners, and so they are told apart by
their bases and their forms (`block_inj`).

A `Pattern` says which parts the elements of a cell have. A tiling has the parts of its pattern in
every cell (`Pattern.Fits.partAt_elements`): the base of a part in the cell is added to the place of
the cell, and the form is kept (`toFinset_map_number`). The cells of boxes fit their patterns
(`fits_cellPattern`), for which there are finitely many cases to look at.
-/

namespace SharedMesh.Box

variable {cells extent p q base base' : GridPoint} {K L : Finset GridPoint}

/-! ## Forms -/

/-- The lowest corner of some points of a cell. -/
def lowest (points : List GridPoint) : GridPoint := points.foldr (· ⊓ ·) (1, 1, 1)

/-- The steps from the lowest corner to each point, in order. -/
def steps (points : List GridPoint) : List GridPoint := points.map (· - lowest points)

/-- The steps to the points as a set. -/
def form (points : List GridPoint) : Finset GridPoint := (steps points).toFinset

/-- The steps from the lowest to the highest corner. -/
def span (K : Finset GridPoint) : GridPoint := K.sup id

/-- The vertices at the points of a form, from a base on. -/
def block (cells base : GridPoint) (K : Finset GridPoint) : Finset Nat :=
  K.image fun o => number cells (base + o)

theorem lowest_le {points : List GridPoint} (h : p ∈ points) : lowest points ≤ p := by
  induction points with
  | nil => cases h
  | cons q points ih =>
    rcases List.mem_cons.1 h with rfl | h
    · exact inf_le_left
    · exact inf_le_right.trans (ih h)

theorem zero_mem_form {points : List GridPoint} (h : lowest points ∈ points) :
    0 ∈ form points :=
  List.mem_toFinset.2 (List.mem_map.2 ⟨_, h, tsub_self _⟩)

/-- The points are found from their lowest corner on. -/
theorem map_number_eq (cells p : GridPoint) (points : List GridPoint) :
    (points.map fun o => number cells (p + o)) =
      (steps points).map fun o => number cells (p + lowest points + o) := by
  rw [steps, List.map_map]
  refine List.map_congr_left fun o ho => ?_
  rw [Function.comp_apply, add_assoc, add_tsub_cancel_of_le (lowest_le ho)]

/-- The vertices at some points, in a cell or anywhere else, by their form. -/
theorem toFinset_map_number (cells p : GridPoint) (points : List GridPoint) :
    (points.map fun o => number cells (p + o)).toFinset =
      block cells (p + lowest points) (form points) := by
  rw [map_number_eq, block, form]
  exact Finset.ext fun v => by simp only [List.mem_toFinset, List.mem_map, Finset.mem_image]

/-- All points of a form are in the grid if the highest corner is. -/
theorem add_span_le_iff (h : 0 ∈ K) : base + span K ≤ cells ↔ ∀ o ∈ K, base + o ≤ cells := by
  constructor
  · intro hspan o ho
    exact (add_le_add_right (Finset.le_sup (f := id) ho) base).trans hspan
  · intro hpoints
    have hbase : base ≤ cells := by simpa using hpoints 0 h
    rw [← le_tsub_iff_left hbase]
    exact Finset.sup_le fun o ho => (le_tsub_iff_left hbase).2 (hpoints o ho)

theorem base_le_of_image_eq (hK : 0 ∈ K) (h : K.image (base + ·) = L.image (base' + ·)) :
    base' ≤ base := by
  have hmem : base ∈ K.image (base + ·) := Finset.mem_image.2 ⟨0, hK, add_zero base⟩
  rw [h] at hmem
  obtain ⟨o, -, rfl⟩ := Finset.mem_image.1 hmem
  exact le_self_add

/-- Forms that start at the origin are told apart wherever they are put, and so are their bases. -/
theorem image_add_inj (hK : 0 ∈ K) (hL : 0 ∈ L) :
    K.image (base + ·) = L.image (base' + ·) ↔ base = base' ∧ K = L := by
  constructor
  · intro h
    obtain rfl := (base_le_of_image_eq hL h.symm).antisymm (base_le_of_image_eq hK h)
    exact ⟨rfl, Finset.image_injective (add_right_injective base) h⟩
  · rintro ⟨rfl, rfl⟩
    rfl

theorem image_pointOf_block (hK : 0 ∈ K) (h : base + span K ≤ cells) :
    (block cells base K).image (pointOf cells) = K.image (base + ·) := by
  rw [block, Finset.image_image]
  refine Finset.image_congr fun o ho => ?_
  exact pointOf_number ((add_span_le_iff hK).1 h o ho)

/-- The vertices of a block tell its form and where it is. -/
theorem block_inj (hK : 0 ∈ K) (hL : 0 ∈ L) (hbase : base + span K ≤ cells)
    (hbase' : base' + span L ≤ cells) :
    block cells base K = block cells base' L ↔ base = base' ∧ K = L := by
  rw [← image_add_inj hK hL, ← image_pointOf_block hK hbase, ← image_pointOf_block hL hbase']
  refine ⟨fun h => h ▸ rfl, fun h => ?_⟩
  rw [image_pointOf_block hK hbase, image_pointOf_block hL hbase', image_add_inj hK hL] at h
  rw [h.1, h.2]

/-! ## Patterns -/

/-- The parts of one dimension of the elements in a cell. -/
structure Pattern where
  extent : GridPoint
  /-- The elements, by the corners of the cell. -/
  slots : List Nat
  degree : Nat
  /-- The parts of an element. -/
  template : List Nat
  subDegree : Nat

/-- Elements are parts of themselves. -/
theorem recordAt_eq_partAt {degree e : Nat} {elements : List Nat}
    (he : e < elements.length / degree) :
    recordAt degree elements e = partAt degree degree (List.range degree) elements e 0 := by
  rw [recordAt_eq_map_getD he, partAt]
  refine List.map_congr_left fun s hs => ?_
  have hslot : (List.range degree).getD s 0 = s := by
    rw [List.getD_eq_getElem?_getD, List.getElem?_range (List.mem_range.1 hs), Option.getD_some]
  rw [Nat.zero_mul, Nat.zero_add, hslot]

namespace Pattern

variable {P : Pattern}

/-- How many elements there are in a cell. -/
def size (P : Pattern) : Nat := P.slots.length / P.degree

/-- How many parts an element has. -/
def rowCount (P : Pattern) : Nat := P.template.length / P.subDegree

/-- The parts in a cell: an element and a row of the template for each. -/
def indices (P : Pattern) : List (Nat × Nat) := List.range P.size ×ˢ List.range P.rowCount

/-- The points of a part, in the cell at the origin. -/
def part (P : Pattern) (f : Nat × Nat) : List GridPoint :=
  (partAt P.degree P.subDegree P.template P.slots f.1 f.2).map cornerPoint

/-- The elements of a grid in whose cells the pattern is repeated. -/
def elements (P : Pattern) (cells : GridPoint) : List Nat := tiling cells P.extent P.slots

/-- A pattern whose parts are parts of its cell. -/
structure Fits (P : Pattern) : Prop where
  degree_pos : 0 < P.degree
  whole : P.slots.length = P.size * P.degree
  slot_lt : ∀ i < P.rowCount * P.subDegree, P.template.getD i 0 < P.degree
  corner_le : ∀ s ∈ P.slots, cornerPoint s ≤ P.extent
  nodup : ∀ f ∈ P.indices, (P.part f).Nodup
  /-- The lowest corner of a part is a point of it. -/
  anchored : ∀ f ∈ P.indices, lowest (P.part f) ∈ P.part f

theorem mem_indices {f : Nat × Nat} : f ∈ P.indices ↔ f.1 < P.size ∧ f.2 < P.rowCount := by
  rw [indices, List.mem_product, List.mem_range, List.mem_range]

namespace Fits

variable {f : Nat × Nat} {c : GridPoint}

/-- The corners of a part are corners of its element. -/
theorem index_lt (h : P.Fits) (hf : f ∈ P.indices) {s : Nat} (hs : s < P.subDegree) :
    f.1 * P.degree + P.template.getD (f.2 * P.subDegree + s) 0 < P.slots.length := by
  obtain ⟨hr, ht⟩ := mem_indices.1 hf
  rw [h.whole]
  exact mul_add_lt_mul hr (h.slot_lt _ (mul_add_lt_mul ht hs))

theorem part_le (h : P.Fits) (hf : f ∈ P.indices) (hp : p ∈ P.part f) : p ≤ P.extent := by
  obtain ⟨corner, hcorner, rfl⟩ := List.mem_map.1 hp
  obtain ⟨s, hs, rfl⟩ := List.mem_map.1 hcorner
  have hi := h.index_lt hf (List.mem_range.1 hs)
  exact h.corner_le _ (List.mem_of_getElem? (getElem?_eq_some_getD hi))

/-- In every cell of a tiling, the parts are those of the pattern. -/
theorem partAt_elements (h : P.Fits) {x : Nat} (hx : (places cells P.extent)[x]? = some c)
    (hf : f ∈ P.indices) :
    partAt P.degree P.subDegree P.template (P.elements cells) (x * P.size + f.1) f.2 =
      (P.part f).map fun o => number cells (c + o) := by
  rw [partAt, part, partAt, List.map_map, List.map_map]
  refine List.map_congr_left fun s hs => ?_
  have hi := h.index_lt hf (List.mem_range.1 hs)
  have hposition : (x * P.size + f.1) * P.degree = x * P.slots.length + f.1 * P.degree := by
    rw [h.whole, Nat.add_mul, Nat.mul_assoc]
  have hrecord : recordAt P.slots.length (P.elements cells) x =
      P.slots.map fun s => number cells (c + cornerPoint s) :=
    recordAt_flatMap (fun _ _ => List.length_map _) hx
  rw [hposition, Nat.add_assoc, List.getD_eq_getElem?_getD, ← getElem?_recordAt hi, hrecord,
    List.getElem?_map, getElem?_eq_some_getD hi]
  rfl

theorem zero_mem (h : P.Fits) (hf : f ∈ P.indices) : 0 ∈ form (P.part f) :=
  zero_mem_form (h.anchored f hf)

theorem add_part_le (h : P.Fits) (hc : c ∈ places cells P.extent) (hf : f ∈ P.indices)
    (hp : p ∈ P.part f) : c + p ≤ cells :=
  (add_le_add_right (h.part_le hf hp) c).trans (mem_places.1 hc)

/-- A part lies in the grid with its cell. -/
theorem add_span_le (h : P.Fits) (hc : c ∈ places cells P.extent) (hf : f ∈ P.indices) :
    c + lowest (P.part f) + span (form (P.part f)) ≤ cells := by
  refine (add_span_le_iff (h.zero_mem hf)).2 fun o ho => ?_
  rw [form, List.mem_toFinset] at ho
  obtain ⟨p, hp, rfl⟩ := List.mem_map.1 ho
  rw [add_assoc, add_tsub_cancel_of_le (lowest_le hp)]
  exact h.add_part_le hc hf hp

theorem span_le (h : P.Fits) (hf : f ∈ P.indices) : span (form (P.part f)) ≤ P.extent := by
  have hzero : (0 : GridPoint) ∈ places P.extent P.extent := mem_places.2 (zero_add P.extent).le
  exact le_add_self.trans (h.add_span_le hzero hf)

theorem lt_of_mem_elements (h : P.Fits) {v : Nat} (hv : v ∈ P.elements cells) :
    v < (cells.1 + 1) * (cells.2.1 + 1) * (cells.2.2 + 1) := by
  obtain ⟨c, hc, hv⟩ := List.mem_flatMap.1 hv
  obtain ⟨s, hs, rfl⟩ := List.mem_map.1 hv
  exact number_lt ((add_le_add_right (h.corner_le s hs) c).trans (mem_places.1 hc))

theorem length_elements (h : P.Fits) (cells : GridPoint) :
    (P.elements cells).length = (places cells P.extent).length * P.size * P.degree := by
  rw [elements, tiling, List.length_flatMap]
  simp only [List.length_map, List.map_const', List.sum_replicate_nat]
  rw [h.whole, Nat.mul_assoc]

/-- The elements of a tiling are found cell by cell. -/
theorem exists_cell (h : P.Fits) {e t : Nat} (he : e < (P.elements cells).length / P.degree)
    (ht : t < P.rowCount) : ∃ x c f, (places cells P.extent)[x]? = some c ∧ f ∈ P.indices ∧
      e = x * P.size + f.1 ∧ t = f.2 := by
  rw [h.length_elements, Nat.mul_div_cancel _ h.degree_pos] at he
  have hsize : 0 < P.size := Nat.pos_of_mul_pos_left (Nat.zero_lt_of_lt he)
  have hx : e / P.size < (places cells P.extent).length :=
    Nat.div_lt_of_lt_mul (by rwa [Nat.mul_comm])
  exact ⟨e / P.size, _, (e % P.size, t), List.getElem?_eq_getElem hx,
    mem_indices.2 ⟨Nat.mod_lt _ hsize, ht⟩, (Nat.div_add_mod' ..).symm, rfl⟩

theorem element_lt (h : P.Fits) {x : Nat} (hx : (places cells P.extent)[x]? = some c)
    (hf : f ∈ P.indices) : x * P.size + f.1 < (P.elements cells).length / P.degree := by
  rw [h.length_elements, Nat.mul_div_cancel _ h.degree_pos]
  exact mul_add_lt_mul (List.getElem?_eq_some_iff.1 hx).1 (mem_indices.1 hf).1

/-- The parts of a tiling, cell by cell. -/
theorem mem_partList_iff (h : P.Fits) {part : List Nat} :
    part ∈ partList P.degree P.subDegree P.template (P.elements cells) ↔
      ∃ c ∈ places cells P.extent, ∃ f ∈ P.indices,
        part = (P.part f).map fun o => number cells (c + o) := by
  simp only [partList, List.mem_flatMap, List.mem_map, List.mem_range]
  constructor
  · rintro ⟨e, he, t, ht, rfl⟩
    obtain ⟨x, c, f, hx, hf, rfl, rfl⟩ := h.exists_cell he ht
    exact ⟨c, List.mem_of_getElem? hx, f, hf, h.partAt_elements hx hf⟩
  · rintro ⟨c, hc, f, hf, rfl⟩
    obtain ⟨x, hx⟩ := List.mem_iff_getElem?.1 hc
    exact ⟨_, h.element_lt hx hf, f.2, (mem_indices.1 hf).2, h.partAt_elements hx hf⟩

theorem nodup_of_mem_partList (h : P.Fits) {part : List Nat}
    (hpart : part ∈ partList P.degree P.subDegree P.template (P.elements cells)) :
    part.Nodup := by
  obtain ⟨c, hc, f, hf, rfl⟩ := h.mem_partList_iff.1 hpart
  refine (h.nodup f hf).map_on fun p hp q hq hpq => ?_
  rw [number_inj (h.add_part_le hc hf hp) (h.add_part_le hc hf hq)] at hpq
  exact add_left_cancel hpq

/-- Where the parts are the elements themselves, no element repeats a vertex. -/
theorem nodup_of_mem_rows (h : P.Fits) (hsub : P.subDegree = P.degree)
    (htemplate : P.template = List.range P.degree) {element : List Nat}
    (helement : element ∈ rows P.degree (P.elements cells)) : element.Nodup := by
  rw [rows_eq_map_range] at helement
  obtain ⟨e, he, rfl⟩ := List.mem_map.1 helement
  have hrow : 0 < P.template.length / P.subDegree := by
    rw [htemplate, hsub, List.length_range, Nat.div_self h.degree_pos]
    exact Nat.one_pos
  have hpart : partAt P.degree P.subDegree P.template (P.elements cells) e 0 ∈
      partList P.degree P.subDegree P.template (P.elements cells) :=
    List.mem_flatMap.2 ⟨e, he, List.mem_map_of_mem (List.mem_range.2 hrow)⟩
  have hnodup := h.nodup_of_mem_partList hpart
  rw [hsub, htemplate, ← recordAt_eq_partAt (List.mem_range.1 he)] at hnodup
  exact hnodup

end Fits

end Pattern

/-! ## Cells of boxes -/

/-- The parts of dimension `sub` in the cells of a box of `dim` dimensions. -/
def cellPattern (shape : Shape) (dim sub : Nat) : Pattern where
  extent := cellExtent dim
  slots := cellSlots shape dim
  degree := (shape.corners dim).toOption.getD 0
  template := (shape.parts dim sub).toOption.getD []
  subDegree := (shape.corners sub).toOption.getD 0

/-- The dimensions of boxes that are cut along `x` and `y`, and those of their parts. -/
theorem dim_cases {dim sub : Nat} (hsub : 0 < sub) (h : sub ≤ dim) (hdim : dim = 2 ∨ dim = 3) :
    dim = 2 ∧ sub = 1 ∨ dim = 2 ∧ sub = 2 ∨ dim = 3 ∧ sub = 1 ∨ dim = 3 ∧ sub = 2 ∨
      dim = 3 ∧ sub = 3 := by omega

section

variable (shape : Shape) {dim sub : Nat} (hsub : 0 < sub) (h : sub ≤ dim)
  (hdim : dim = 2 ∨ dim = 3)

include hsub h hdim

theorem between_cellPattern : Between shape dim sub (cellPattern shape dim sub).degree
    (cellPattern shape dim sub).subDegree (cellPattern shape dim sub).template := by
  rcases dim_cases hsub h hdim with
    ⟨rfl, rfl⟩ | ⟨rfl, rfl⟩ | ⟨rfl, rfl⟩ | ⟨rfl, rfl⟩ | ⟨rfl, rfl⟩ <;> cases shape <;>
    exact ⟨rfl, rfl, rfl, by decide, by decide, by decide, by decide, by decide, by decide,
      by decide⟩

theorem fits_cellPattern : (cellPattern shape dim sub).Fits := by
  rcases dim_cases hsub h hdim with
    ⟨rfl, rfl⟩ | ⟨rfl, rfl⟩ | ⟨rfl, rfl⟩ | ⟨rfl, rfl⟩ | ⟨rfl, rfl⟩ <;> cases shape <;>
    exact ⟨by decide, by decide, by decide, by decide, by decide +kernel, by decide +kernel⟩

end

section

variable {α : Type} {b : Box α}

theorem dim_eq (b : Box α) : b.dim = 2 ∨ b.dim = 3 := by
  rw [dim]
  split
  · exact .inl rfl
  · exact .inr rfl

theorem dim_sub_one_pos (b : Box α) : 0 < b.dim - 1 := by
  have := b.dim_eq
  omega

theorem extent_le_cells (hx : 0 < b.nx) (hy : 0 < b.ny) : cellExtent b.dim ≤ b.cells := by
  rw [dim]
  split
  · exact ⟨hx, hy, Nat.zero_le _⟩
  · next hz => exact ⟨hx, hy, Nat.pos_of_ne_zero hz⟩

end

end SharedMesh.Box
