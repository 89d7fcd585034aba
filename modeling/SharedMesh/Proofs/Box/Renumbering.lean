import SharedMesh.Box.Renumber
import SharedMesh.Proofs.Checked
import SharedMesh.Proofs.Curve.Clouds
import SharedMesh.Proofs.Skeleton

/-!
# Renumbered meshes

A mesh is renumbered by an order of its vertices and an order of its elements
(`FlatMesh.rearranged`). It stays the same mesh up to the numbers of its vertices
(`renumbers_rearranged`), and each vertex and each centroid keeps its coordinates, so that the
clouds of both are only rearranged (`vertices_rearranged`, `centroids_rearranged`).

Along the curve, vertices and elements come in the orders in which it visits the vertices and the
centroids (`alongCurve_eq_ok`). As a cloud in the order of the curve stays in it, a mesh that was
renumbered once is not changed again (`alongCurve_renumbers`).
-/

namespace SharedMesh.FlatMesh

-- The order of lists is that of core, also beside Mathlib.
attribute [local instance (high)] List.instLE List.decidableLE

variable {α : Type} [Scalar α] {m m' : FlatMesh α} {degree : Nat}

/-- The coordinates of the vertices. -/
def vertices (m : FlatMesh α) : List (List α) := rows m.dim m.coords

/-- The coordinates of the corners of each element, in order. -/
def corners (degree : Nat) (m : FlatMesh α) : List (List (List α)) :=
  (rows degree m.elements).map fun element => element.filterMap (m.vertices[·]?)

/-- The centroids of the elements. -/
def centroids (degree : Nat) (m : FlatMesh α) : List (List α) :=
  (m.corners degree).map (centroid m.dim)

/-- The mesh has whole vertices with finite coordinates, and whole elements with finite centroids
    that name its vertices. -/
structure Renumberable (degree : Nat) (m : FlatMesh α) : Prop where
  dim_pos : 0 < m.dim
  dim_le : m.dim ≤ 3
  degree_eq : m.shape.corners m.dim = .ok degree
  whole_coords : m.coords.length % m.dim = 0
  finite_coords : ∀ x ∈ m.coords, Scalar.isFinite x = true
  whole_elements : m.elements.length % degree = 0
  named : ∀ v ∈ m.elements, v < m.vertices.length
  finite_centroids : ∀ centroid ∈ m.centroids degree, ∀ x ∈ centroid, Scalar.isFinite x = true

/-- The mesh is another one under new numbers for its vertices, with its elements in another
    order. -/
structure Renumbers (degree : Nat) (m m' : FlatMesh α) : Prop where
  shape_eq : m'.shape = m.shape
  dim_eq : m'.dim = m.dim
  vertices_perm : m'.vertices.Perm m.vertices
  corners_perm : (m'.corners degree).Perm (m.corners degree)
  /-- One numbering renames the vertices of all elements, and keeps their coordinates. -/
  renames : ∃ number : Nat → Nat,
    Set.BijOn number (Set.Iio m.vertices.length) (Set.Iio m.vertices.length) ∧
      (∀ v < m.vertices.length, m'.vertices[number v]? = m.vertices[v]?) ∧
      (rows degree m'.elements).Perm ((rows degree m.elements).map (List.map number))

/-- The keys of the vertices ascend, and those of the centroids. -/
structure OnCurve (degree : Nat) (m : FlatMesh α) : Prop where
  vertices_ascend : ∃ keys, Hilbert.keys m.dim m.coords = .ok keys ∧ keys.Pairwise (· ≤ ·)
  centroids_ascend : ∃ keys, Hilbert.keys m.dim (m.centroids degree).flatten = .ok keys ∧
    keys.Pairwise (· ≤ ·)

/-! ## Clouds of a mesh -/

theorem length_centroids (degree : Nat) (m : FlatMesh α) :
    (m.centroids degree).length = (rows degree m.elements).length := by
  rw [centroids, corners, List.length_map, List.length_map]

theorem length_centroid {dim : Nat} {points : List (List α)}
    (h : ∀ point ∈ points, point.length = dim) : (centroid dim points).length = dim := by
  rw [centroid]
  generalize points.length = degree
  have hzero : (List.replicate dim (Scalar.zero : α)).length = dim := List.length_replicate
  revert hzero
  generalize List.replicate dim (Scalar.zero : α) = sum
  intro hsum
  induction points generalizing sum with
  | nil => exact hsum
  | cons point points ih =>
    refine ih (fun p hp => h p (List.mem_cons_of_mem _ hp)) _ ?_
    simp only [Scalar.addEach, List.length_zipWith, List.length_map, hsum,
      h point List.mem_cons_self, Nat.min_self]

namespace Renumberable

variable (h : Renumberable degree m)

include h

theorem degree_pos : 0 < degree := degree_pos_of_corners h.degree_eq

theorem coords_length : m.coords.length = m.coords.length / m.dim * m.dim :=
  (Nat.div_mul_cancel (Nat.dvd_of_mod_eq_zero h.whole_coords)).symm

theorem elements_length : m.elements.length = m.elements.length / degree * degree :=
  (Nat.div_mul_cancel (Nat.dvd_of_mod_eq_zero h.whole_elements)).symm

theorem flatten_vertices : m.vertices.flatten = m.coords :=
  flatten_rows h.dim_pos h.coords_length

theorem isCloud_vertices : Hilbert.IsCloud m.dim m.vertices := by
  intro point hpoint
  refine ⟨length_of_mem_rows h.dim_pos h.coords_length point hpoint, fun x hx => ?_⟩
  refine h.finite_coords x ?_
  rw [← h.flatten_vertices]
  exact List.mem_flatten_of_mem hpoint hx

theorem named_rows : ∀ element ∈ rows degree m.elements, ∀ v ∈ element, v < m.vertices.length := by
  intro element helement v hv
  refine h.named v ?_
  rw [← flatten_rows h.degree_pos h.elements_length]
  exact List.mem_flatten_of_mem helement hv

theorem isCloud_centroids : Hilbert.IsCloud m.dim (m.centroids degree) := by
  intro point hpoint
  refine ⟨?_, h.finite_centroids point hpoint⟩
  obtain ⟨points, hpoints, rfl⟩ := List.mem_map.1 hpoint
  obtain ⟨element, _, rfl⟩ := List.mem_map.1 hpoints
  refine length_centroid fun corner hcorner => ?_
  obtain ⟨v, _, hv⟩ := List.mem_filterMap.1 hcorner
  exact (h.isCloud_vertices corner (List.mem_of_getElem? hv)).1

end Renumberable

/-! ## Meshes in another order -/

/-- The mesh with its vertices and its elements in given orders. -/
def rearranged (degree : Nat) (vertexOrder elementOrder : List Nat) (m : FlatMesh α) :
    FlatMesh α :=
  { m with
    elements := (arranged ((rows degree m.elements).map (List.map vertexOrder.idxOf))
      elementOrder).flatten
    coords := (arranged m.vertices vertexOrder).flatten }

section

variable (h : Renumberable degree m) {vertexOrder elementOrder : List Nat}
  (hvertices : vertexOrder.Perm (List.range m.vertices.length))
  (helements : elementOrder.Perm (List.range (rows degree m.elements).length))

include h

section

include hvertices

theorem vertices_rearranged :
    (m.rearranged degree vertexOrder elementOrder).vertices = arranged m.vertices vertexOrder :=
  rows_flatten h.dim_pos fun point hpoint =>
    (h.isCloud_vertices point ((arranged_perm hvertices).mem_iff.1 hpoint)).1

end

section

include helements

theorem length_of_mem_renamed : ∀ element ∈ arranged ((rows degree m.elements).map
    (List.map vertexOrder.idxOf)) elementOrder, element.length = degree := by
  intro element helement
  have hmem := (arranged_perm (by rwa [List.length_map])).mem_iff.1 helement
  obtain ⟨old, hold, rfl⟩ := List.mem_map.1 hmem
  rw [List.length_map]
  exact length_of_mem_rows h.degree_pos h.elements_length old hold

theorem rows_rearranged :
    rows degree (m.rearranged degree vertexOrder elementOrder).elements =
      arranged ((rows degree m.elements).map (List.map vertexOrder.idxOf)) elementOrder :=
  rows_flatten h.degree_pos (length_of_mem_renamed h helements)

end

include hvertices helements

theorem corners_rearranged :
    (m.rearranged degree vertexOrder elementOrder).corners degree =
      arranged (m.corners degree) elementOrder := by
  rw [corners, corners, rows_rearranged h helements, vertices_rearranged h hvertices,
    ← arranged_map, List.map_map]
  refine congrArg (arranged · elementOrder) (List.map_congr_left fun element helement => ?_)
  exact filterMap_arranged_idxOf hvertices (h.named_rows element helement)

/-- Elements keep their centroids. -/
theorem centroids_rearranged :
    (m.rearranged degree vertexOrder elementOrder).centroids degree =
      arranged (m.centroids degree) elementOrder := by
  rw [centroids, centroids, corners_rearranged h hvertices helements, arranged_map]
  rfl

/-- In another order, it is the same mesh under other numbers. -/
theorem renumbers_rearranged :
    Renumbers degree m (m.rearranged degree vertexOrder elementOrder) where
  shape_eq := rfl
  dim_eq := rfl
  vertices_perm := by
    rw [vertices_rearranged h hvertices]
    exact arranged_perm hvertices
  corners_perm := by
    rw [corners_rearranged h hvertices helements]
    exact arranged_perm (by rwa [corners, List.length_map])
  renames := by
    refine ⟨vertexOrder.idxOf, bijOn_idxOf_order hvertices, fun v hv => ?_, ?_⟩
    · rw [vertices_rearranged h hvertices, getElem?_arranged_idxOf hvertices hv]
    · rw [rows_rearranged h helements]
      exact arranged_perm (by rwa [List.length_map])

/-- In another order, a mesh can be renumbered again. -/
theorem renumberable_rearranged :
    Renumberable degree (m.rearranged degree vertexOrder elementOrder) where
  dim_pos := h.dim_pos
  dim_le := h.dim_le
  degree_eq := h.degree_eq
  whole_coords := by
    rw [rearranged, length_flatten_of_width fun point hpoint =>
      ((h.isCloud_vertices.perm (arranged_perm hvertices).symm) point hpoint).1, Nat.mul_mod_left]
  finite_coords x hx := by
    obtain ⟨point, hpoint, hx⟩ := List.mem_flatten.1 hx
    exact (h.isCloud_vertices point ((arranged_perm hvertices).mem_iff.1 hpoint)).2 x hx
  whole_elements := by
    rw [rearranged, length_flatten_of_width (length_of_mem_renamed h helements), Nat.mul_mod_left]
  named v hv := by
    obtain ⟨element, helement, hv⟩ := List.mem_flatten.1 hv
    have hmem := (arranged_perm (by rwa [List.length_map])).mem_iff.1 helement
    obtain ⟨old, hold, rfl⟩ := List.mem_map.1 hmem
    obtain ⟨u, hu, rfl⟩ := List.mem_map.1 hv
    rw [vertices_rearranged h hvertices, length_arranged hvertices]
    exact (bijOn_idxOf_order hvertices).mapsTo (h.named_rows old hold u hu)
  finite_centroids centroid hcentroid := by
    rw [centroids_rearranged h hvertices helements] at hcentroid
    exact h.finite_centroids centroid
      ((arranged_perm (by rwa [length_centroids])).mem_iff.1 hcentroid)

end

theorem rearranged_range (h : Renumberable degree m) :
    m.rearranged degree (List.range m.vertices.length)
      (List.range (rows degree m.elements).length) = m := by
  have hrenamed : (rows degree m.elements).map (List.map (List.range m.vertices.length).idxOf) =
      rows degree m.elements := by
    refine (List.map_congr_left fun element helement => ?_).trans (List.map_id _)
    refine (List.map_congr_left fun v hv => ?_).trans (List.map_id _)
    exact idxOf_range (h.named_rows element helement v hv)
  rw [rearranged, hrenamed, arranged_range, arranged_range, h.flatten_vertices,
    flatten_rows h.degree_pos h.elements_length]

omit [Scalar α] in
theorem cornerCoords_eq_ok {points : List (List α)} {element : List Nat}
    (h : ∀ v ∈ element, v < points.length) :
    cornerCoords points.toArray element = .ok (element.filterMap (points[·]?)) := by
  have hsome : ∀ v ∈ element, points[v]? = some (points.getD v []) := fun v hv => by
    rw [List.getD_eq_getElem?_getD, List.getElem?_eq_getElem (h v hv), Option.getD_some]
  rw [List.filterMap_congr hsome, List.filterMap_eq_map']
  refine mapM_eq_ok fun v hv => ?_
  rw [List.getElem?_toArray, hsome v hv]

/-- Along the curve, a mesh comes in the orders in which the curve visits its vertices and its
    centroids. -/
theorem alongCurve_eq_ok (h : Renumberable degree m) :
    m.alongCurve = .ok (m.rearranged degree (Hilbert.curveOrder m.dim m.vertices)
      (Hilbert.curveOrder m.dim (m.centroids degree))) := by
  have hvertices := Hilbert.curveOrder_perm m.dim m.vertices
  have horder := Hilbert.order_flatten h.dim_pos h.dim_le h.isCloud_vertices
  have helementOrder := Hilbert.order_flatten h.dim_pos h.dim_le h.isCloud_centroids
  rw [h.flatten_vertices] at horder
  generalize Hilbert.curveOrder m.dim m.vertices = vertexOrder at *
  have hcorners : (rows degree (m.elements.map vertexOrder.idxOf)).mapM
      (cornerCoords (arranged m.vertices vertexOrder).toArray) = .ok (m.corners degree) := by
    rw [rows_map, List.mapM_map]
    refine mapM_eq_ok fun element helement => ?_
    have hnamed := h.named_rows element helement
    rw [Function.comp_apply, cornerCoords_eq_ok, filterMap_arranged_idxOf hvertices hnamed]
    intro v hv
    obtain ⟨u, hu, rfl⟩ := List.mem_map.1 hv
    rw [length_arranged hvertices]
    exact (bijOn_idxOf_order hvertices).mapsTo (hnamed u hu)
  rw [centroids, ← List.flatMap_def] at helementOrder
  rw [alongCurve, h.degree_eq]
  refine (bind_of_ok horder _).trans ?_
  refine (bind_of_ok (a := m.elements.map vertexOrder.idxOf) (mapM_eq_ok fun v hv => ?_) _).trans ?_
  · rw [positions_eq hvertices]
    simp [h.named v hv]
  · refine (bind_of_ok hcorners _).trans ?_
    refine (bind_of_ok helementOrder _).trans ?_
    rw [rearranged, rows_map]
    rfl

theorem onCurve_of_pairwise (h : Renumberable degree m)
    (hvertices : (Hilbert.cloudKeys m.dim m.vertices).Pairwise (· ≤ ·))
    (hcentroids : (Hilbert.cloudKeys m.dim (m.centroids degree)).Pairwise (· ≤ ·)) :
    OnCurve degree m where
  vertices_ascend := by
    rw [← h.flatten_vertices]
    exact ⟨_, Hilbert.keys_flatten h.dim_pos h.dim_le h.isCloud_vertices, hvertices⟩
  centroids_ascend := ⟨_, Hilbert.keys_flatten h.dim_pos h.dim_le h.isCloud_centroids, hcentroids⟩

/-- A mesh in the order of the curve is not changed. -/
theorem alongCurve_of_pairwise (h : Renumberable degree m)
    (hvertices : (Hilbert.cloudKeys m.dim m.vertices).Pairwise (· ≤ ·))
    (hcentroids : (Hilbert.cloudKeys m.dim (m.centroids degree)).Pairwise (· ≤ ·)) :
    m.alongCurve = .ok m := by
  rw [alongCurve_eq_ok h, Hilbert.curveOrder_of_pairwise hvertices,
    Hilbert.curveOrder_of_pairwise hcentroids, length_centroids, rearranged_range h]

/-- Along the curve, a mesh is the same one under other numbers; its vertices and its centroids
    are in the order of the curve, and it is not changed again. -/
theorem alongCurve_renumbers (hfree : OrderFree α) (h : Renumberable degree m) :
    ∃ m', m.alongCurve = .ok m' ∧ Renumbers degree m m' ∧ Renumberable degree m' ∧
      OnCurve degree m' ∧ m'.alongCurve = .ok m' := by
  have hvertices := Hilbert.curveOrder_perm m.dim m.vertices
  have helements := Hilbert.curveOrder_perm m.dim (m.centroids degree)
  rw [length_centroids] at helements
  have h' := renumberable_rearranged h hvertices helements
  have hvertexKeys := Hilbert.pairwise_cloudKeys_arranged hfree h.isCloud_vertices
  have hcentroidKeys := Hilbert.pairwise_cloudKeys_arranged hfree h.isCloud_centroids
  rw [← vertices_rearranged h hvertices] at hvertexKeys
  rw [← centroids_rearranged h hvertices helements] at hcentroidKeys
  exact ⟨_, alongCurve_eq_ok h, renumbers_rearranged h hvertices helements, h',
    onCurve_of_pairwise h' hvertexKeys hcentroidKeys,
    alongCurve_of_pairwise h' hvertexKeys hcentroidKeys⟩

/-- A unit square cut into two triangles, with its vertices in some order. -/
def mixedSquare : FlatMesh Exact where
  shape := .simplex
  dim := 2
  elements := [3, 0, 2, 1, 0, 3]
  coords := [.number 1, .number 0, .number 0, .number 0, .number 1, .number 1, .number 0, .number 1]

/-- The square is renumbered once, and not again. -/
theorem alongCurve_renumbers_mixedSquare : (OrderFree Exact ∧ Renumberable 3 mixedSquare) ∧
    ∃ m', mixedSquare.alongCurve = .ok m' ∧ m' ≠ mixedSquare ∧ Renumbers 3 mixedSquare m' ∧
      m'.alongCurve = .ok m' := by
  have hsquare : Renumberable 3 mixedSquare := by
    refine ⟨by decide, by decide, rfl, by decide, ?_, by decide, by decide, ?_⟩ <;> decide +kernel
  obtain ⟨m', hm', hrenumbers, _, honCurve, hagain⟩ := alongCurve_renumbers orderFree_exact hsquare
  refine ⟨⟨orderFree_exact, hsquare⟩, m', hm', fun heq => ?_, hrenumbers, hagain⟩
  -- the keys of the square do not ascend
  obtain ⟨keys, hkeys, hascend⟩ := honCurve.vertices_ascend
  rw [heq] at hkeys
  have hmixed : ¬(Hilbert.cloudKeys 2 mixedSquare.vertices).Pairwise (· ≤ ·) := by decide +kernel
  have := Hilbert.keys_flatten hsquare.dim_pos hsquare.dim_le hsquare.isCloud_vertices
  rw [hsquare.flatten_vertices, hkeys] at this
  cases this
  exact hmixed hascend

end SharedMesh.FlatMesh
