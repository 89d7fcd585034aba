import SharedMesh.Mesh.Excerpt
import SharedMesh.Proofs.Route.Filling
import SharedMesh.Proofs.Shares
import SharedMesh.Proofs.Skeleton

/-!
# Meshes in slices

A mesh with whole elements and the coordinates of all their vertices (`FlatMesh.Whole`) is
dealt out in slices (`FlatMesh.Whole.sliceFor_eq_ok`) that pass the checks
(`FlatMesh.Whole.check_sliceAt`). The coordinates of any vertices can then be fetched from the
ranks that have them (`fetchCoords_together`): a vertex is a root on the rank of its slice, and
what this root answers is a record of the coordinates.
-/

namespace SharedMesh

variable {κ α : Type} {n : Nat}

/-! ## Slices -/

theorem countSliced_eq_ok (what : Subject) {width : Nat} (hw : 0 < width) (count : Nat) :
    countSliced what (count * width) width = .ok count := by
  rw [countSliced, if_neg (by simp [Nat.ne_of_gt hw]), Nat.mul_div_cancel _ hw]

/-- The slice of a rank's share passes. -/
theorem checkSlice_eq_ok (what : Subject) {total r : Nat} (hr : r < n) (ht : total < 2 ^ 64) :
    checkSlice (Seat.of r n) what total ((⟨total, n⟩ : Shares).first r)
      ((⟨total, n⟩ : Shares).length r) = .ok () := by
  have hle : (⟨total, n⟩ : Shares).first r + (⟨total, n⟩ : Shares).length r ≤ total :=
    Shares.first_add_length_le hr
  refine (bind_of_ok (Shares.slice_eq_ok hr ht) _).trans ?_
  refine (bind_of_ok (word_eq_ok (hle.trans_lt ht)) _).trans ?_
  exact if_neg (by simp)

namespace FlatMesh

/-- Whole elements of `degree` vertices, and `dim` coordinates for each vertex. -/
structure Whole (m : FlatMesh α) (degree elementCount vertexCount : Nat) : Prop where
  dim_pos : 0 < m.dim
  dim_le : m.dim ≤ 3
  corners : m.shape.corners m.dim = .ok degree
  length_elements : m.elements.length = elementCount * degree
  length_coords : m.coords.length = vertexCount * m.dim
  vertex_lt : ∀ v ∈ m.elements, v < vertexCount

/-- The slice of a rank, if elements have `degree` vertices. -/
def sliceAt (m : FlatMesh α) (degree n r : Nat) : MeshSlice α where
  shape := m.shape
  dim := m.dim
  elementTotal := m.elements.length / degree
  elementStart := (⟨m.elements.length / degree, n⟩ : Shares).first r
  elements := dealtRecords n degree m.elements r
  vertexTotal := m.coords.length / m.dim
  vertexStart := (⟨m.coords.length / m.dim, n⟩ : Shares).first r
  coords := dealtRecords n m.dim m.coords r

/-- The elements of a rank's slice. -/
def elementSlice (m : FlatMesh α) (degree n r : Nat) : List (List Nat) :=
  rows degree (m.sliceAt degree n r).elements

/-- The values of a slice are those of the records of the rank. -/
theorem sliceRecords_eq {β : Type} (width r : Nat) (values : List β) :
    let shares : Shares := ⟨values.length / width, n⟩
    sliceRecords width ⟨shares.first r, shares.first r + shares.length r⟩ values =
      dealtRecords n width values r := by
  simp only [sliceRecords, dealtRecords, Slice.size, Nat.add_sub_cancel_left]

namespace Whole

variable {m : FlatMesh α} {degree elementCount vertexCount : Nat}
  (h : m.Whole degree elementCount vertexCount)

include h

theorem degree_pos : 0 < degree := degree_pos_of_corners h.corners

theorem elementTotal_eq : m.elements.length / degree = elementCount := by
  rw [h.length_elements, Nat.mul_div_cancel _ h.degree_pos]

theorem vertexTotal_eq : m.coords.length / m.dim = vertexCount := by
  rw [h.length_coords, Nat.mul_div_cancel _ h.dim_pos]

theorem elementCount_le : elementCount ≤ m.elements.length :=
  h.length_elements ▸ Nat.le_mul_of_pos_right elementCount h.degree_pos

theorem vertexCount_le : vertexCount ≤ m.coords.length :=
  h.length_coords ▸ Nat.le_mul_of_pos_right vertexCount h.dim_pos

/-- Every rank can be given its slice. -/
theorem sliceFor_eq_ok (helements : elementCount < 2 ^ 64) (hvertices : vertexCount < 2 ^ 64)
    {r : Nat} (hr : r < n) : m.sliceFor (Seat.of r n) = .ok (m.sliceAt degree n r) := by
  rw [← h.elementTotal_eq] at helements
  rw [← h.vertexTotal_eq] at hvertices
  refine (bind_of_ok h.corners _).trans ?_
  refine (bind_of_ok (Shares.slice_eq_ok hr helements) _).trans ?_
  refine (bind_of_ok (Shares.slice_eq_ok hr hvertices) _).trans ?_
  simp only [sliceRecords_eq]
  rfl

theorem length_elements_sliceAt {r : Nat} (hr : r < n) :
    (m.sliceAt degree n r).elements.length = (⟨elementCount, n⟩ : Shares).length r * degree :=
  length_dealtRecords h.degree_pos h.length_elements hr

theorem length_coords_sliceAt {r : Nat} (hr : r < n) :
    (m.sliceAt degree n r).coords.length = (⟨vertexCount, n⟩ : Shares).length r * m.dim :=
  length_dealtRecords h.dim_pos h.length_coords hr

theorem deal_sliceAt {r : Nat} (hr : r < n) :
    Shares.deal (m.sliceAt degree n r).vertexTotal (Seat.of r n).size = .ok ⟨vertexCount, n⟩ :=
  (if_neg (Nat.ne_of_gt (Nat.zero_lt_of_lt hr))).trans
    (congrArg (fun total => Except.ok (Shares.mk total n)) h.vertexTotal_eq)

/-- The slice of a rank passes its checks. -/
theorem check_sliceAt (helements : elementCount < 2 ^ 64) (hvertices : vertexCount < 2 ^ 64)
    {r : Nat} (hr : r < n) : (m.sliceAt degree n r).check (Seat.of r n) degree =
      .ok ((⟨elementCount, n⟩ : Shares).length r, (⟨vertexCount, n⟩ : Shares).length r) := by
  have helementTotal : (m.sliceAt degree n r).elementTotal = elementCount := h.elementTotal_eq
  have hvertexTotal : (m.sliceAt degree n r).vertexTotal = vertexCount := h.vertexTotal_eq
  have helementStart : (m.sliceAt degree n r).elementStart =
      (⟨elementCount, n⟩ : Shares).first r := by rw [← h.elementTotal_eq]; rfl
  have hvertexStart : (m.sliceAt degree n r).vertexStart =
      (⟨vertexCount, n⟩ : Shares).first r := by rw [← h.vertexTotal_eq]; rfl
  rw [MeshSlice.check, h.length_elements_sliceAt hr, h.length_coords_sliceAt hr, helementTotal,
    hvertexTotal, helementStart, hvertexStart]
  refine (bind_of_ok (countSliced_eq_ok _ h.degree_pos _) _).trans ?_
  refine (bind_of_ok (countSliced_eq_ok _ h.dim_pos _) _).trans ?_
  refine (bind_of_ok (checkSlice_eq_ok _ hr helements) _).trans ?_
  exact bind_of_ok (checkSlice_eq_ok _ hr hvertices) _

/-- A slice only names vertices of the mesh. -/
theorem vertex_lt_sliceAt (r : Nat) : ∀ v ∈ (m.sliceAt degree n r).elements, v < vertexCount :=
  fun v hv => h.vertex_lt v (List.mem_of_mem_drop (List.mem_of_mem_take hv))

theorem flatten_elementSlice {r : Nat} (hr : r < n) :
    (m.elementSlice degree n r).flatten = (m.sliceAt degree n r).elements :=
  flatten_rows h.degree_pos (h.length_elements_sliceAt hr)

theorem length_elementSlice {r : Nat} (hr : r < n) :
    (m.elementSlice degree n r).length = (⟨elementCount, n⟩ : Shares).length r := by
  rw [elementSlice, length_rows, h.length_elements_sliceAt hr, Nat.mul_div_cancel _ h.degree_pos]

theorem length_of_mem_elementSlice {r : Nat} (hr : r < n) :
    ∀ element ∈ m.elementSlice degree n r, element.length = degree :=
  length_of_mem_rows h.degree_pos (h.length_elements_sliceAt hr)

theorem vertex_lt_elementSlice {r : Nat} (hr : r < n) :
    ∀ element ∈ m.elementSlice degree n r, ∀ g ∈ element, g < vertexCount :=
  fun _ helement g hg => h.vertex_lt_sliceAt r g
    (h.flatten_elementSlice hr ▸ List.mem_flatten_of_mem helement hg)

theorem mem_rows_of_mem_elementSlice {r : Nat} (hr : r < n) :
    ∀ element ∈ m.elementSlice degree n r, element ∈ rows degree m.elements := by
  intro element helement
  rw [elementSlice, sliceAt, rows_dealtRecords h.degree_pos h.length_elements hr] at helement
  exact List.mem_of_mem_drop (List.mem_of_mem_take helement)

theorem itemTotal_elementSlice_le : itemTotal n (m.elementSlice degree n) ≤ elementCount := by
  have hsum : itemTotal n (m.elementSlice degree n) =
      ((List.range n).map (⟨elementCount, n⟩ : Shares).length).sum :=
    congrArg List.sum (List.map_congr_left fun r hr => h.length_elementSlice (List.mem_range.1 hr))
  rw [hsum, Shares.sum_length]
  exact Shares.first_size_le ⟨elementCount, n⟩

theorem itemTotal_elements_le :
    itemTotal n (fun r => (m.sliceAt degree n r).elements) ≤ m.elements.length := by
  have hmul : itemTotal n (fun r => (m.sliceAt degree n r).elements) * 1 ≤
      itemTotal n (m.elementSlice degree n) * degree :=
    itemTotal_mul_le fun r hr => by
      rw [h.length_elements_sliceAt hr, h.length_elementSlice hr, Nat.mul_one]
  rw [Nat.mul_one] at hmul
  rw [h.length_elements]
  exact hmul.trans (Nat.mul_le_mul_right degree h.itemTotal_elementSlice_le)

/-- The corners of the elements of a slice. -/
theorem corners_eq {r : Nat} (hr : r < n) :
    (rows (degree * m.dim) ((m.sliceAt degree n r).elements.flatMap
      (recordAt m.dim m.coords))).map (rows m.dim) =
        (m.elementSlice degree n r).map fun element => element.map (recordAt m.dim m.coords) :=
  rows_flatMap h.degree_pos h.dim_pos (h.length_elements_sliceAt hr) fun g hg =>
    length_recordAt h.dim_pos h.length_coords (h.vertex_lt_sliceAt r g hg)

end Whole

end FlatMesh

/-! ## Coordinates from their slices -/

section

variable {count : Nat} {vertices : Nat → List Nat}
  (hvertices : ∀ r < n, ∀ g ∈ vertices r, g < count)

include hvertices

/-- Every vertex has a place in the slice of a rank. -/
theorem sound_places : Route.Sound n (fun r => (vertices r).map (⟨count, n⟩ : Shares).place)
    (⟨count, n⟩ : Shares).length := by
  constructor
  case rank_lt =>
    intro r hr p hp
    obtain ⟨g, hg, rfl⟩ := List.mem_map.1 hp
    exact Shares.rank_lt_size (Nat.zero_lt_of_lt hr) (hvertices r hr g hg)
  case index_lt =>
    intro r hr p hp
    obtain ⟨g, hg, rfl⟩ := List.mem_map.1 hp
    exact Shares.index_lt_length (hvertices r hr g hg)

omit hvertices in
theorem fits_places (hcount : (count + 1) * 8 < 2 ^ 63)
    (hnumbers : itemTotal n vertices * 32 < 2 ^ 63) :
    Route.Fits n (fun r => (vertices r).map (⟨count, n⟩ : Shares).place)
      (⟨count, n⟩ : Shares).length := by
  have htotal : itemTotal n (fun r => (vertices r).map (⟨count, n⟩ : Shares).place) * 32 <
      2 ^ 63 := by
    simpa [itemTotal] using hnumbers
  constructor
  case roots_room =>
    intro r hr
    have : (⟨count, n⟩ : Shares).first r + (⟨count, n⟩ : Shares).length r ≤ count :=
      Shares.first_add_length_le hr
    omega
  case items_room =>
    intro r hr
    have := length_le_itemTotal (fun r => (vertices r).map (⟨count, n⟩ : Shares).place) hr
    omega
  case copies_room =>
    intro r _
    have := Route.length_copies_le_sum (n := n)
      (fun r => (vertices r).map (⟨count, n⟩ : Shares).place) r ((⟨count, n⟩ : Shares).length r)
    omega

variable [Alphabet κ] [LawfulAlphabet κ] [Layout κ α] [LawfulLayout κ α]

/-- The coordinates of vertices are those of the mesh, wherever they are needed. -/
theorem fetchCoords_together {dim : Nat} {coords : List α} (hdim : 0 < dim)
    (hwhole : coords.length = count * dim) (hcoords : (coords.length + 1) * 8 < 2 ^ 63)
    (hnumbers : itemTotal n vertices * 32 < 2 ^ 63)
    (hroom : itemTotal n vertices * dim * Layout.size κ α < 2 ^ 63) :
    Together n (List.range n)
      (fun r => (fetchCoords (Seat.of r n) ⟨count, n⟩ ((⟨count, n⟩ : Shares).length r) dim
        (dealtRecords n dim coords r) (vertices r) : Proc κ (List α)).toProgram)
      (fun r => .ok ((vertices r).flatMap (recordAt dim coords))) := by
  let shares : Shares := ⟨count, n⟩
  have hcount : count ≤ coords.length := hwhole ▸ Nat.le_mul_of_pos_right count hdim
  have hslice : ∀ r < n, shares.first r + shares.length r ≤ count := fun r hr =>
    Shares.first_add_length_le hr
  have htotal : itemTotal n (fun r => (vertices r).map shares.place) = itemTotal n vertices := by
    simp [itemTotal]
  -- the coordinates at a place are a record
  let answer : Place → List α := fun p => recordAt dim coords (shares.first p.rank + p.index)
  have hanswer : ∀ r < n, ∀ k < shares.length r, (answer ⟨r, k⟩).length = dim := by
    intro r hr k hk
    have := hslice r hr
    exact length_recordAt hdim hwhole (show shares.first r + k < count by omega)
  have hvalues : ∀ r < n, shares.length r * dim < 2 ^ 64 := by
    intro r hr
    have := Nat.mul_le_mul_right dim ((Nat.le_add_left _ _).trans (hslice r hr))
    rw [← hwhole] at this
    omega
  refine Together.ofCheckedThen (fun r hr => Shares.holders_eq_ok
    (Nat.zero_lt_of_lt (List.mem_range.1 hr)) (hvertices r (List.mem_range.1 hr))
      (show count + 1 < 2 ^ 64 by omega)) ?_
  refine (Route.plan_together (sound_places hvertices) (fits_places (by omega) hnumbers)).andThen ?_
  refine (Route.broadcastRecords_together (sound_places hvertices) hdim hvalues
    (Route.hasRoom_of_sum _ _ (htotal ▸ hroom)) answer hanswer).congr
      (fun r hr => ?_) fun r _ => congrArg Except.ok ?_
  · rw [dealtRecords_eq_flatMap hdim hwhole (List.mem_range.1 hr), Place.own, List.flatMap_map]
  · rw [List.flatMap_map]
    exact List.flatMap_congr fun g _ => congrArg (recordAt dim coords) (shares.first_add_index g)

end

end SharedMesh
