import Mathlib.Data.List.Rotate
import Mathlib.Tactic.IntervalCases
import Mathlib.Tactic.MkIffOfInductiveProp
import SharedMesh.Proofs.Box.Parts

/-!
# Elements of a box meet facet to facet

A facet of an element in a cell has one *mate* (`Pattern.Mates`), the only other facet of its form
in the cell. A facet in the inside of a cell shares its points with its mate; the mate of a facet
beside the cell is beside it on the other side. Facets of a tiling have the same vertices if they
have the same base and the same form (`Pattern.mem_facetsWith_iff`), so a facet shares its vertices
with its mate in the same cell or in the next one. There is no next cell just for the facets on a
side of the grid (`Pattern.Mates.exists_cell_iff`).

So in a box, two elements meet at each facet that is not on a side, and they go around it in
opposite directions (`mesh_conforms`).
-/

namespace SharedMesh.Box

variable {cells c base p q : GridPoint} {K : Finset GridPoint}

/-! ## Opposite directions -/

/-- Cycles that go around in opposite directions, and pairs that are each other's reverse. -/
def Opposed {α : Type} (x y : List α) : Prop :=
  if x.length ≤ 2 then y = x.reverse else x.reverse.IsRotated y

instance {α : Type} [DecidableEq α] (x y : List α) : Decidable (Opposed x y) :=
  inferInstanceAs (Decidable (ite _ _ _))

theorem Opposed.map {α β : Type} {x y : List α} (f : α → β) (h : Opposed x y) :
    Opposed (x.map f) (y.map f) := by
  rw [Opposed] at *
  rw [List.length_map, ← List.map_reverse]
  split at h
  · next hlength => rw [if_pos hlength, h]
  · next hlength =>
    rw [if_neg hlength]
    exact h.map f

theorem Opposed.perm {α : Type} {x y : List α} (h : Opposed x y) : y.Perm x := by
  rw [Opposed] at h
  split at h
  · exact h ▸ x.reverse_perm
  · exact h.perm.symm.trans x.reverse_perm

/-! ## Sides -/

/-- The steps of a point along an axis. -/
def along : Nat → GridPoint → Nat
  | 0, p => p.1
  | 1, p => p.2.1
  | _, p => p.2.2

/-- One step along an axis. -/
def unit : Nat → GridPoint
  | 0 => (1, 0, 0)
  | 1 => (0, 1, 0)
  | _ => (0, 0, 1)

/-- Some vertices lie on one side of a grid, across one of the first `dim` axes. -/
def OnSide (cells : GridPoint) (dim : Nat) (vertices : List Nat) : Prop :=
  ∃ a < dim, (∀ v ∈ vertices, along a (pointOf cells v) = 0) ∨
    ∀ v ∈ vertices, along a (pointOf cells v) = along a cells

theorem along_add (a : Nat) (p q : GridPoint) : along a (p + q) = along a p + along a q := by
  rcases a with _ | _ | a <;> rfl

theorem along_le (a : Nat) (h : p ≤ q) : along a p ≤ along a q := by
  rcases a with _ | _ | a
  exacts [h.1, h.2.1, h.2.2]

theorem along_span (a : Nat) (K : Finset GridPoint) : along a (span K) = K.sup (along a) :=
  Finset.apply_sup_eq_sup_comp (along a) (by rcases a with _ | _ | a <;> exact fun _ _ => rfl)
    (by rcases a with _ | _ | a <;> rfl)

theorem unit_le_iff (a : Nat) : unit a ≤ p ↔ 0 < along a p := by
  rcases a with _ | _ | a <;> simp [unit, along, le_iff, Nat.one_le_iff_ne_zero, Nat.pos_iff_ne_zero]

theorem add_unit_le_iff (a : Nat) (h : p ≤ q) : p + unit a ≤ q ↔ along a p < along a q := by
  rw [le_iff] at *
  rcases a with _ | _ | a <;> simp only [unit, along, Prod.fst_add, Prod.snd_add] <;> omega

theorem along_unit {a a' : Nat} (ha : a < 3) (ha' : a' < 3) :
    along a' (unit a) = if a' = a then 1 else 0 := by
  interval_cases a <;> interval_cases a' <;> rfl

/-- All vertices of a block have the same steps along an axis if the form does not extend along
    it. -/
theorem forall_along_eq_iff (hK : 0 ∈ K) (hroom : base + span K ≤ cells) {vertices : List Nat}
    (hvertices : vertices.toFinset = block cells base K) (a n : Nat) :
    (∀ v ∈ vertices, along a (pointOf cells v) = n) ↔
      along a (span K) = 0 ∧ along a base = n := by
  have hpoints : (∀ v ∈ vertices, along a (pointOf cells v) = n) ↔
      ∀ o ∈ K, along a base + along a o = n := by
    constructor
    · intro h o ho
      have hv : number cells (base + o) ∈ vertices := by
        rw [← List.mem_toFinset, hvertices]
        exact Finset.mem_image_of_mem _ ho
      rw [← along_add, ← pointOf_number ((add_span_le_iff hK).1 hroom o ho)]
      exact h _ hv
    · intro h v hv
      rw [← List.mem_toFinset, hvertices] at hv
      obtain ⟨o, ho, rfl⟩ := Finset.mem_image.1 hv
      rw [pointOf_number ((add_span_le_iff hK).1 hroom o ho), along_add]
      exact h o ho
  have hspan : along a (span K) = 0 ↔ ∀ o ∈ K, along a o = 0 := by
    rw [along_span]
    exact Finset.sup_eq_bot_iff _ _
  rw [hpoints, hspan]
  constructor
  · intro h
    have hbase : along a base = n := by
      rw [← h 0 hK, ← along_add, add_zero]
    exact ⟨fun o ho => Nat.add_left_cancel ((h o ho).trans hbase.symm), hbase⟩
  · rintro ⟨hflat, hbase⟩ o ho
    rw [hflat o ho, hbase, Nat.add_zero]

/-- A block is on a side if it has no extent across it and its base is there. -/
theorem onSide_iff {dim : Nat} (hK : 0 ∈ K) (hroom : base + span K ≤ cells) {vertices : List Nat}
    (hvertices : vertices.toFinset = block cells base K) : OnSide cells dim vertices ↔
      ∃ a < dim, along a (span K) = 0 ∧ (along a base = 0 ∨ along a base = along a cells) := by
  simp only [OnSide, forall_along_eq_iff hK hroom hvertices, and_or_left]

/-! ## Mates -/

/-- A cell has another one below it, unless it is at the lower end of the grid. -/
theorem exists_cell_below_iff {extent : GridPoint} {a : Nat} (ha : along a extent = 1)
    (hc : c + extent ≤ cells) : (∃ c', c' + extent ≤ cells ∧ c' + unit a = c) ↔
      ¬(along a c = 0 ∨ along a c = along a cells) := by
  have hinside := along_le a hc
  have hbelow : ¬(along a c = 0 ∨ along a c = along a cells) ↔ unit a ≤ c := by
    rw [unit_le_iff]
    rw [along_add, ha] at hinside
    omega
  rw [hbelow]
  constructor
  · rintro ⟨c', -, rfl⟩
    exact le_add_self
  · intro hle
    exact ⟨c - unit a, (add_le_add_left tsub_le_self _).trans hc, tsub_add_cancel_of_le hle⟩

/-- A cell has another one above it, unless it is at the upper end of the grid. -/
theorem exists_cell_above_iff {extent : GridPoint} {a : Nat} (hdim : a < 3)
    (ha : along a extent = 1) (hc : c + extent ≤ cells) :
    (∃ c', c' + extent ≤ cells ∧ c' + 0 = c + unit a) ↔
      ¬(along a (c + unit a) = 0 ∨ along a (c + unit a) = along a cells) := by
  have hinside := along_le a hc
  have habove : ¬(along a (c + unit a) = 0 ∨ along a (c + unit a) = along a cells) ↔
      c + extent + unit a ≤ cells := by
    rw [add_unit_le_iff a hc, along_add, along_add, along_unit hdim hdim, if_pos rfl, ha]
    rw [along_add, ha] at hinside
    omega
  rw [habove, add_right_comm]
  simp only [add_zero, exists_eq_right]

namespace Pattern

variable {P : Pattern} {f g : Nat × Nat} {dim : Nat}

/-- A facet of a cell whose vertices are those of one other facet, of the same cell or of the cell
    across the only axis along which it does not extend. -/
@[mk_iff]
structure Mates (P : Pattern) (dim : Nat) (f g : Nat × Nat) : Prop where
  only : ∀ h ∈ P.indices, form (P.part h) = form (P.part f) → h = f ∨ h = g
  apart : lowest (P.part g) = lowest (P.part f) → g.1 ≠ f.1
  across : lowest (P.part g) = lowest (P.part f) ∧ span (form (P.part f)) = P.extent ∨
    ∃ a < dim, span (form (P.part f)) + unit a = P.extent ∧
      (lowest (P.part f) = 0 ∧ lowest (P.part g) = unit a ∨
        lowest (P.part f) = unit a ∧ lowest (P.part g) = 0)
  opposed : Opposed (steps (P.part f)) (steps (P.part g))

instance (P : Pattern) (dim : Nat) (f g : Nat × Nat) : Decidable (Mates P dim f g) :=
  decidable_of_iff' _ (mates_iff P dim f g)

namespace Mates

variable (h : P.Mates dim f g)

include h

/-- There is a cell with the mate of a facet, unless the facet is on a side. -/
theorem exists_cell_iff (hdim : dim ≤ 3) (hextent : ∀ a < dim, along a P.extent = 1)
    (hc : c + P.extent ≤ cells) :
    (∃ c', c' + P.extent ≤ cells ∧ c' + lowest (P.part g) = c + lowest (P.part f)) ↔
      ¬∃ a < dim, along a (span (form (P.part f))) = 0 ∧
        (along a (c + lowest (P.part f)) = 0 ∨
          along a (c + lowest (P.part f)) = along a cells) := by
  rcases h.across with ⟨hsame, hspan⟩ | ⟨a, ha, hspan, hlowest⟩
  · -- both are parts of one cell, and extend along all axes
    rw [hspan, hsame]
    refine iff_of_true ⟨c, hc, rfl⟩ ?_
    rintro ⟨a, ha, hflat, -⟩
    exact absurd hflat (by rw [hextent a ha]; decide)
  · -- the axis across the facet is the only one along which it does not extend
    have hflat : ∀ a' < dim, along a' (span (form (P.part f))) = 0 ↔ a' = a := by
      intro a' ha'
      have hsum := hextent a' ha'
      rw [← hspan, along_add, along_unit (by omega) (by omega)] at hsum
      split at hsum <;> omega
    have haxis : (∃ a' < dim, along a' (span (form (P.part f))) = 0 ∧
        (along a' (c + lowest (P.part f)) = 0 ∨
          along a' (c + lowest (P.part f)) = along a' cells)) ↔
        along a (c + lowest (P.part f)) = 0 ∨ along a (c + lowest (P.part f)) = along a cells :=
      ⟨fun ⟨a', ha', hzero, hside⟩ => (hflat a' ha').1 hzero ▸ hside,
        fun hside => ⟨a, ha, (hflat a ha).2 rfl, hside⟩⟩
    rw [haxis]
    rcases hlowest with ⟨hf, hg⟩ | ⟨hf, hg⟩
    · rw [hf, hg, add_zero]
      exact exists_cell_below_iff (hextent a ha) hc
    · rw [hf, hg]
      exact exists_cell_above_iff (by omega) (hextent a ha) hc

end Mates

end Pattern

/-! ## Facets of a tiling -/

/-- The facets with some vertices: for each its element, and its row in the template. -/
def carriers (degree subDegree : Nat) (template elements : List Nat) (s : Finset Nat) :
    Finset (Nat × Nat) :=
  (Finset.range (elements.length / degree) ×ˢ
    Finset.range (template.length / subDegree)).filter fun f =>
      (partAt degree subDegree template elements f.1 f.2).toFinset = s

namespace Pattern

variable {P : Pattern} {f g : Nat × Nat} {dim : Nat}

/-- The vertices of a facet, given by its element and its row. -/
def facet (P : Pattern) (cells : GridPoint) (i : Nat × Nat) : List Nat :=
  partAt P.degree P.subDegree P.template (P.elements cells) i.1 i.2

/-- The facets of a tiling with some vertices. -/
def facetsWith (P : Pattern) (cells : GridPoint) (s : Finset Nat) : Finset (Nat × Nat) :=
  carriers P.degree P.subDegree P.template (P.elements cells) s

/-- The element and the row of a facet in the cell at a position. -/
def address (P : Pattern) (x : Nat) (f : Nat × Nat) : Nat × Nat := (x * P.size + f.1, f.2)

theorem position_inj {extent : GridPoint} {x x' : Nat} (hx : (places cells extent)[x]? = some c)
    (hx' : (places cells extent)[x']? = some c) : x = x' :=
  (List.getElem?_inj (List.getElem?_eq_some_iff.1 hx).1 (nodup_places cells extent)).1
    (hx.trans hx'.symm)

theorem address_inj {x x' : Nat} (hf : f ∈ P.indices) (hg : g ∈ P.indices)
    (h : (P.address x f).1 = (P.address x' g).1) : x = x' ∧ f.1 = g.1 := by
  obtain ⟨hf, -⟩ := mem_indices.1 hf
  obtain ⟨hg, -⟩ := mem_indices.1 hg
  have h : x * P.size + f.1 = x' * P.size + g.1 := h
  have hx := congrArg (· / P.size) h
  have hrest := congrArg (· % P.size) h
  simp only [mul_add_div_of_lt hf, mul_add_div_of_lt hg, Nat.mul_add_mod_of_lt hf,
    Nat.mul_add_mod_of_lt hg] at hx hrest
  exact ⟨hx, hrest⟩

theorem exists_address (h : P.Fits) {i : Nat × Nat}
    (hi : i.1 < (P.elements cells).length / P.degree ∧ i.2 < P.rowCount) :
    ∃ x c f, (places cells P.extent)[x]? = some c ∧ f ∈ P.indices ∧ i = P.address x f := by
  obtain ⟨x, c, f, hx, hf, he, ht⟩ := h.exists_cell hi.1 hi.2
  exact ⟨x, c, f, hx, hf, Prod.ext he ht⟩

section

variable (h : P.Fits) {x : Nat} (hx : (places cells P.extent)[x]? = some c) (hf : f ∈ P.indices)

include h hx hf

theorem facet_address : P.facet cells (P.address x f) =
    (steps (P.part f)).map fun o => number cells (c + lowest (P.part f) + o) := by
  rw [facet, address, h.partAt_elements hx hf, map_number_eq]

theorem toFinset_facet_address : (P.facet cells (P.address x f)).toFinset =
    block cells (c + lowest (P.part f)) (form (P.part f)) := by
  rw [facet, address, h.partAt_elements hx hf, toFinset_map_number]

/-- A facet has the vertices of another one if both start at the same point and have one form. -/
theorem mem_facetsWith_iff {i : Nat × Nat} :
    i ∈ P.facetsWith cells (P.facet cells (P.address x f)).toFinset ↔
      ∃ x' c' g, (places cells P.extent)[x']? = some c' ∧ g ∈ P.indices ∧ i = P.address x' g ∧
        c' + lowest (P.part g) = c + lowest (P.part f) ∧ form (P.part g) = form (P.part f) := by
  have hc := List.mem_of_getElem? hx
  have hsame : ∀ {x' c' g}, (places cells P.extent)[x']? = some c' → g ∈ P.indices →
      ((P.facet cells (P.address x' g)).toFinset = (P.facet cells (P.address x f)).toFinset ↔
        c' + lowest (P.part g) = c + lowest (P.part f) ∧ form (P.part g) = form (P.part f)) := by
    intro x' c' g hx' hg
    rw [toFinset_facet_address h hx' hg, toFinset_facet_address h hx hf]
    exact block_inj (h.zero_mem hg) (h.zero_mem hf)
      (h.add_span_le (List.mem_of_getElem? hx') hg) (h.add_span_le hc hf)
  rw [facetsWith, carriers, Finset.mem_filter, Finset.mem_product, Finset.mem_range,
    Finset.mem_range]
  constructor
  · rintro ⟨hi, hvertices⟩
    obtain ⟨x', c', g, hx', hg, rfl⟩ := exists_address h hi
    exact ⟨x', c', g, hx', hg, rfl, (hsame hx' hg).1 hvertices⟩
  · rintro ⟨x', c', g, hx', hg, rfl, hvertices⟩
    exact ⟨⟨h.element_lt hx' hg, (mem_indices.1 hg).2⟩, (hsame hx' hg).2 hvertices⟩

variable (hm : P.Mates dim f g)

include hm

/-- There is a cell with the mate of a facet just if the facet is on no side. -/
theorem exists_mate_cell_iff (hdim : dim ≤ 3) (hextent : ∀ a < dim, along a P.extent = 1) :
    (∃ c', c' + P.extent ≤ cells ∧ c' + lowest (P.part g) = c + lowest (P.part f)) ↔
      ¬OnSide cells dim (P.facet cells (P.address x f)) := by
  have hc := List.mem_of_getElem? hx
  rw [onSide_iff (h.zero_mem hf) (h.add_span_le hc hf) (toFinset_facet_address h hx hf)]
  exact hm.exists_cell_iff hdim hextent (mem_places.1 hc)

/-- Without a cell for its mate, a facet is the only one with its vertices. -/
theorem facetsWith_eq_singleton (halone : ¬∃ c', c' + P.extent ≤ cells ∧
      c' + lowest (P.part g) = c + lowest (P.part f)) :
    P.facetsWith cells (P.facet cells (P.address x f)).toFinset = {P.address x f} := by
  ext i
  rw [mem_facetsWith_iff h hx hf, Finset.mem_singleton]
  constructor
  · rintro ⟨x', c', k, hx', hk, rfl, hbase, hform⟩
    rcases hm.only k hk hform with rfl | rfl
    · obtain rfl := add_right_cancel hbase
      rw [position_inj hx' hx]
    · exact absurd ⟨c', mem_places.1 (List.mem_of_getElem? hx'), hbase⟩ halone
  · rintro rfl
    exact ⟨x, c, f, hx, hf, rfl, rfl, rfl⟩

/-- With a cell for its mate, a facet and the mate are those with its vertices. -/
theorem facetsWith_eq_pair (hg : g ∈ P.indices) {c' : GridPoint} {x' : Nat}
    (hx' : (places cells P.extent)[x']? = some c')
    (hbase : c' + lowest (P.part g) = c + lowest (P.part f)) :
    P.facetsWith cells (P.facet cells (P.address x f)).toFinset =
      {P.address x f, P.address x' g} := by
  ext i
  rw [mem_facetsWith_iff h hx hf, Finset.mem_insert, Finset.mem_singleton]
  constructor
  · rintro ⟨y, d, k, hy, hk, rfl, hbase', hform⟩
    rcases hm.only k hk hform with rfl | rfl
    · obtain rfl := add_right_cancel hbase'
      exact .inl (by rw [position_inj hy hx])
    · obtain rfl := add_right_cancel (hbase'.trans hbase.symm)
      exact .inr (by rw [position_inj hy hx'])
  · rintro (rfl | rfl)
    · exact ⟨x, c, f, hx, hf, rfl, rfl, rfl⟩
    · exact ⟨x', c', g, hx', hg, rfl, hbase, List.toFinset_eq_of_perm _ _ hm.opposed.perm⟩

end

section

variable (h : P.Fits) (hmates : ∀ f ∈ P.indices, ∃ g ∈ P.indices, P.Mates dim f g) (hdim : dim ≤ 3)
  (hextent : ∀ a < dim, along a P.extent = 1) {i : Nat × Nat}
  (hi : i.1 < (P.elements cells).length / P.degree ∧ i.2 < P.rowCount)

include h hmates hdim hextent hi

theorem facetsWith_of_onSide (hside : OnSide cells dim (P.facet cells i)) :
    P.facetsWith cells (P.facet cells i).toFinset = {i} := by
  obtain ⟨x, c, f, hx, hf, rfl⟩ := exists_address h hi
  obtain ⟨g, hg, hm⟩ := hmates f hf
  refine facetsWith_eq_singleton h hx hf hm fun hmate => ?_
  exact (exists_mate_cell_iff h hx hf hm hdim hextent).1 hmate hside

theorem exists_mate_of_not_onSide (hside : ¬OnSide cells dim (P.facet cells i)) :
    ∃ j, j.1 ≠ i.1 ∧ P.facetsWith cells (P.facet cells i).toFinset = {i, j} ∧
      Opposed (P.facet cells i) (P.facet cells j) := by
  obtain ⟨x, c, f, hx, hf, rfl⟩ := exists_address h hi
  obtain ⟨g, hg, hm⟩ := hmates f hf
  obtain ⟨c', hc', hbase⟩ := (exists_mate_cell_iff h hx hf hm hdim hextent).2 hside
  obtain ⟨x', hx'⟩ := List.mem_iff_getElem?.1 (mem_places.2 hc')
  refine ⟨P.address x' g, fun hsame => ?_, facetsWith_eq_pair h hx hf hm hg hx' hbase, ?_⟩
  · -- two facets of one element would start at one point of one cell
    obtain ⟨rfl, helement⟩ := address_inj hg hf hsame
    obtain rfl : c' = c := Option.some.inj (hx'.symm.trans hx)
    exact hm.apart (add_left_cancel hbase) helement
  · rw [facet_address h hx hf, facet_address h hx' hg, hbase]
    exact hm.opposed.map _

end

end Pattern

theorem exists_mates (shape : Shape) {dim : Nat} (hdim : dim = 2 ∨ dim = 3) :
    ∀ f ∈ (cellPattern shape dim (dim - 1)).indices,
      ∃ g ∈ (cellPattern shape dim (dim - 1)).indices,
        (cellPattern shape dim (dim - 1)).Mates dim f g := by
  rcases hdim with rfl | rfl <;> cases shape <;> decide +kernel

/-! ## Boxes -/

theorem along_cellExtent {dim a : Nat} (hdim : dim = 2 ∨ dim = 3) (ha : a < dim) :
    along a (cellExtent dim) = 1 := by
  rcases hdim with rfl | rfl <;> interval_cases a <;> rfl

variable {α : Type} [Scalar α]

/-- How many elements there are in each cell. -/
def elementsPerCell (shape : Shape) (dim : Nat) : Nat :=
  match shape with
  | .hypercube => 1
  | .simplex => if dim = 2 then 2 else 6

/-- The elements of a box meet along whole facets, which neighbours go around in opposite
    directions: there are two elements at a facet, and one at a facet on a side of the box. -/
structure Conforming (b : Box α) (m : FlatMesh α) (degree subDegree : Nat) (template : List Nat) :
    Prop where
  vertexCount_eq : m.vertexCount = .ok ((b.nx + 1) * (b.ny + 1) * (b.nz + 1))
  /-- The vertices are points of the grid. -/
  located : ∀ v < (b.nx + 1) * (b.ny + 1) * (b.nz + 1),
    recordAt m.dim m.coords v = b.coordinates (pointOf b.cells v)
  /-- There are whole elements in every cell. -/
  length_eq : m.elements.length =
    b.nx * b.ny * max b.nz 1 * elementsPerCell b.shape m.dim * degree
  vertex_lt : ∀ v ∈ m.elements, v < (b.nx + 1) * (b.ny + 1) * (b.nz + 1)
  nodup : ∀ element ∈ rows degree m.elements, element.Nodup
  outer : ∀ e < m.elements.length / degree, ∀ t < template.length / subDegree,
    let facet := partAt degree subDegree template m.elements e t
    OnSide b.cells m.dim facet →
      carriers degree subDegree template m.elements facet.toFinset = {(e, t)}
  inner : ∀ e < m.elements.length / degree, ∀ t < template.length / subDegree,
    let facet := partAt degree subDegree template m.elements e t
    ¬OnSide b.cells m.dim facet → ∃ e' t', e' ≠ e ∧
      carriers degree subDegree template m.elements facet.toFinset = {(e, t), (e', t')} ∧
      Opposed facet (partAt degree subDegree template m.elements e' t')

/-- The elements of a box repeat no vertex. -/
theorem nodup_of_mem_rows {b : Box α} {degree : Nat} (hdegree : b.shape.corners b.dim = .ok degree)
    {element : List Nat} (helement : element ∈ rows degree b.layout.elements) :
    element.Nodup := by
  have hbetween := between_cellPattern b.shape b.dim_pos (Nat.le_refl _) b.dim_eq
  have hfits := fits_cellPattern b.shape b.dim_pos (Nat.le_refl _) b.dim_eq
  have htemplate : (cellPattern b.shape b.dim b.dim).template =
      List.range (cellPattern b.shape b.dim b.dim).degree := by
    rcases b.dim_eq with hdim | hdim <;> rw [hdim] <;> cases b.shape <;> rfl
  obtain rfl := Except.ok.inj (hbetween.corners_dim.symm.trans hdegree)
  exact hfits.nodup_of_mem_rows rfl htemplate helement

theorem length_elements_layout {b : Box α} {degree : Nat}
    (hdegree : b.shape.corners b.dim = .ok degree) : b.layout.elements.length =
      b.nx * b.ny * max b.nz 1 * elementsPerCell b.shape b.dim * degree := by
  have hbetween := between_cellPattern b.shape b.dim_pos (Nat.le_refl _) b.dim_eq
  have hfits := fits_cellPattern b.shape b.dim_pos (Nat.le_refl _) b.dim_eq
  have hsize : (cellPattern b.shape b.dim b.dim).size = elementsPerCell b.shape b.dim := by
    rcases b.dim_eq with hdim | hdim <;> rw [hdim] <;> cases b.shape <;> rfl
  have hcells : (places b.cells (cellExtent b.dim)).length = b.nx * b.ny * max b.nz 1 := by
    rw [length_places, dim]
    split
    · next hz => simp [cells, cellExtent, hz]
    · next hz => simp [cells, cellExtent, Nat.max_eq_left (Nat.pos_of_ne_zero hz)]
  obtain rfl := Except.ok.inj (hbetween.corners_dim.symm.trans hdegree)
  rw [← hsize, ← hcells]
  exact hfits.length_elements b.cells

/-- A mesh whose elements repeat a pattern of facets with mates is conforming. -/
theorem conforming_of_fits {b : Box α} {P : Pattern} (h : P.Fits)
    (hmates : ∀ f ∈ P.indices, ∃ g ∈ P.indices, P.Mates b.dim f g)
    (hextent : P.extent = cellExtent b.dim) (hslots : P.slots = cellSlots b.shape b.dim)
    (hdegree : b.shape.corners b.dim = .ok P.degree) :
    Conforming b b.layout P.degree P.subDegree P.template := by
  have helements : b.layout.elements = P.elements b.cells := by
    rw [Pattern.elements, hextent, hslots]
    rfl
  have hunit : ∀ a < b.dim, along a P.extent = 1 := fun a ha => by
    rw [hextent]
    exact along_cellExtent b.dim_eq ha
  have hdim : b.dim ≤ 3 := by
    have := b.dim_eq
    omega
  refine ⟨vertexCount_layout b, fun v hv => recordAt_coords hv, length_elements_layout hdegree,
    fun v hv => ?_,
    fun element helement => nodup_of_mem_rows hdegree helement, ?_, ?_⟩
  · rw [helements] at hv
    exact h.lt_of_mem_elements hv
  · rw [helements]
    intro e he t ht facet hside
    exact Pattern.facetsWith_of_onSide h hmates hdim hunit (i := (e, t)) ⟨he, ht⟩ hside
  · rw [helements]
    intro e he t ht facet hside
    obtain ⟨j, hne, hcarriers, hopposed⟩ :=
      Pattern.exists_mate_of_not_onSide h hmates hdim hunit (i := (e, t)) ⟨he, ht⟩ hside
    exact ⟨j.1, j.2, hne, hcarriers, hopposed⟩

/-- The mesh of a box is conforming, and there is one exactly if the box can be built. -/
theorem mesh_conforms (b : Box α) (hx : 0 < b.nx) (hy : 0 < b.ny) :
    ((∃ m, b.mesh = .ok m) ↔ b.Buildable) ∧ ∀ m, b.mesh = .ok m →
      m.shape = b.shape ∧ m.dim = (if b.nz = 0 then 2 else 3) ∧
      ∃ degree subDegree template, b.shape.corners m.dim = .ok degree ∧
        b.shape.corners (m.dim - 1) = .ok subDegree ∧
        b.shape.parts m.dim (m.dim - 1) = .ok template ∧
        Conforming b m degree subDegree template := by
  refine ⟨exists_mesh_iff hx hy, fun m hm => ?_⟩
  obtain ⟨-, rfl⟩ := (mesh_eq_ok_iff hx hy).1 hm
  have hbetween := between_cellPattern b.shape b.dim_sub_one_pos (Nat.sub_le _ _) b.dim_eq
  have hfits := fits_cellPattern b.shape b.dim_sub_one_pos (Nat.sub_le _ _) b.dim_eq
  exact ⟨rfl, rfl, _, _, _, hbetween.corners_dim, hbetween.corners_sub, hbetween.parts,
    conforming_of_fits hfits (exists_mates b.shape b.dim_eq) rfl rfl hbetween.corners_dim⟩

/-- Twelve tetrahedra in two cubes are conforming. -/
theorem mesh_conforms_twoCubes : (0 < (twoCubes .simplex).nx ∧ 0 < (twoCubes .simplex).ny) ∧
    ∃ m, (twoCubes .simplex).mesh = .ok m ∧
      Conforming (twoCubes .simplex) m 4 3 Shape.tetrahedronFaces.flatten := by
  refine ⟨by decide, ?_⟩
  obtain ⟨hiff, hconforms⟩ := mesh_conforms (twoCubes .simplex) (by decide) (by decide)
  obtain ⟨m, hm⟩ := hiff.2 (buildable_twoCubes .simplex)
  obtain ⟨-, hdim, _, _, _, hdegree, hsub, htemplate, hconforming⟩ := hconforms m hm
  rw [hdim] at hdegree hsub htemplate
  cases hdegree
  cases hsub
  cases htemplate
  exact ⟨m, hm, hconforming⟩

end SharedMesh.Box
