import SharedMesh.Proofs.Bisection.Permuting
import SharedMesh.Proofs.Mesh.Localizing
import SharedMesh.Proofs.Mesh.Slicing

/-!
# Assembling keeps the mesh

A mesh that is handed out in slices is the same mesh after it was assembled: every element is
found where it was sent, with the same vertices in the same order, and every rank has just the
vertices that its elements need, with the coordinates that they had
(`assemble_preserves`). It does not matter where the elements are, as long as the bisection
takes their centroids.
-/

namespace SharedMesh

open Route

variable {κ α : Type} {n : Nat} [Scalar α]

/-! ## Centroids -/

/-- A centroid has three coordinates, also in fewer dimensions. -/
theorem length_meanCorner {corners : List (List α)} (h : ∀ x ∈ corners, x.length ≤ 3) :
    (meanCorner corners).length = 3 := by
  have hsum : ∀ sum : List α, sum.length = 3 → (corners.foldl (fun sum x =>
      Scalar.addEach sum x ++ sum.drop x.length) sum).length = 3 := by
    induction corners with
    | nil => exact fun _ hsum => hsum
    | cons x corners ih =>
      intro sum hsum
      have hx := h x List.mem_cons_self
      refine ih (fun y hy => h y (List.mem_cons_of_mem x hy)) _ ?_
      simp only [Scalar.addEach, List.length_append, List.length_zipWith, List.length_drop, hsum]
      omega
  rw [meanCorner, List.length_map]
  exact hsum _ List.length_replicate

namespace FlatMesh

/-- The centroid of an element. -/
def elementCentroid (m : FlatMesh α) (element : List Nat) : List α :=
  meanCorner (element.map (recordAt m.dim m.coords))

/-- The centroids of a rank's slice. -/
def centroidSlice (m : FlatMesh α) (degree n r : Nat) : List α :=
  (m.elementSlice degree n r).flatMap m.elementCentroid

/-- All elements have the same mass. -/
def massSlice (m : FlatMesh α) (degree n r : Nat) : List α :=
  List.replicate (m.elementSlice degree n r).length (Scalar.ofNat 1)

/-- The elements have finite centroids, and their mass is positive. -/
structure Weighable (m : FlatMesh α) (degree : Nat) : Prop where
  finite : ∀ element ∈ rows degree m.elements, ∀ c ∈ m.elementCentroid element,
    Scalar.isFinite c = true
  mass_finite : Scalar.isFinite (Scalar.ofNat 1 : α) = true
  mass_pos : Scalar.lt Scalar.zero (Scalar.ofNat 1 : α) = true

namespace Whole

variable {m : FlatMesh α} {degree elementCount vertexCount : Nat}
  (h : m.Whole degree elementCount vertexCount)

include h

theorem centroidSlice_eq {r : Nat} (hr : r < n) :
    ((rows (degree * m.dim) ((m.sliceAt degree n r).elements.flatMap
      (recordAt m.dim m.coords))).map (rows m.dim)).flatMap meanCorner =
        m.centroidSlice degree n r := by
  rw [h.corners_eq hr, List.flatMap_map]
  rfl

theorem massSlice_eq {r : Nat} (hr : r < n) :
    List.replicate ((⟨elementCount, n⟩ : Shares).length r) (Scalar.ofNat 1) =
      m.massSlice degree n r := by
  rw [massSlice, h.length_elementSlice hr]

/-- The centroids of a slice are points that can be bisected. -/
theorem weightedPoints (hweighable : m.Weighable degree) {r : Nat} (hr : r < n) :
    WeightedPoints (m.centroidSlice degree n r) (m.massSlice degree n r) := by
  have hcentroid : ∀ c ∈ (m.elementSlice degree n r).map m.elementCentroid, c.length = 3 := by
    intro c hc
    obtain ⟨element, helement, rfl⟩ := List.mem_map.1 hc
    refine length_meanCorner fun x hx => ?_
    obtain ⟨g, hg, rfl⟩ := List.mem_map.1 hx
    have hg := h.vertex_lt_elementSlice hr element helement g hg
    exact (length_recordAt h.dim_pos h.length_coords hg).trans_le h.dim_le
  constructor
  case length_coords =>
    rw [centroidSlice, List.flatMap_def, length_flatten_of_width hcentroid, List.length_map,
      massSlice, List.length_replicate]
  case finite =>
    intro c hc
    obtain ⟨element, helement, hc⟩ := List.mem_flatMap.1 hc
    exact hweighable.finite element (h.mem_rows_of_mem_elementSlice hr element helement) c hc
  case positive =>
    intro mass hmass
    rw [List.eq_of_mem_replicate hmass]
    exact ⟨hweighable.mass_finite, hweighable.mass_pos⟩

end Whole

/-! ## Parts -/

/-- Where the elements of a rank's slice go. -/
def bisection (settings : BisectionSettings α) [AxisSolver α] (m : FlatMesh α) (degree n : Nat) :
    Nat → Bisection α :=
  bisected settings (m.centroidSlice degree n) (m.massSlice degree n) n

/-- The elements that a rank gets, by global vertices. -/
def movedElements (settings : BisectionSettings α) [AxisSolver α] (m : FlatMesh α)
    (degree n : Nat) : Nat → List (List Nat) :=
  moved n (fun r => (m.bisection settings degree n r).places)
    (fun r => (m.bisection settings degree n r).count) (m.elementSlice degree n)

/-- The part that a rank gets. -/
def assembledPart (settings : BisectionSettings α) [AxisSolver α] (m : FlatMesh α)
    (degree n r : Nat) : Assembled α :=
  let numbers := (m.movedElements settings degree n r).flatten
  { elements := (localize numbers).1
    vertices := (localize numbers).2
    coords := (localize numbers).2.flatMap (recordAt m.dim m.coords)
    places := (m.bisection settings degree n r).places }

section

variable [AxisSolver α] (settings : BisectionSettings α) {m : FlatMesh α}
  {degree elementCount vertexCount : Nat} (h : m.Whole degree elementCount vertexCount)
  (hweighable : m.Weighable degree)

include h hweighable

theorem length_places_bisection {r : Nat} (hr : r < n) :
    (m.bisection settings degree n r).places.length = (m.elementSlice degree n r).length :=
  (length_places_bisected settings _ _ (fun _ hr => h.weightedPoints hweighable hr) hr).trans
    List.length_replicate

theorem fills_bisection : Fills n (fun r => (m.bisection settings degree n r).places)
    fun r => (m.bisection settings degree n r).count :=
  fills_bisected settings _ _ fun _ hr => h.weightedPoints hweighable hr

theorem length_movedElements {r : Nat} (hr : r < n) :
    (m.movedElements settings degree n r).length = (m.bisection settings degree n r).count :=
  (fills_bisection settings h hweighable).length_moved
    (fun _ hr => (length_places_bisection settings h hweighable hr).symm) hr

omit hweighable in
theorem length_of_mem_movedElements (r : Nat) :
    ∀ element ∈ m.movedElements settings degree n r, element.length = degree := by
  intro element helement
  obtain ⟨s, hs, helement⟩ := mem_of_mem_moved helement
  exact h.length_of_mem_elementSlice hs element helement

omit hweighable in
theorem vertex_lt_movedElements (r : Nat) :
    ∀ g ∈ (m.movedElements settings degree n r).flatten, g < vertexCount := by
  intro g hg
  obtain ⟨element, helement, hg⟩ := List.mem_flatten.1 hg
  obtain ⟨s, hs, helement⟩ := mem_of_mem_moved helement
  exact h.vertex_lt_elementSlice hs element helement g hg

omit hweighable in
/-- The elements of a part, by global vertices, are those that were moved there. -/
theorem globalRecords_assembledPart (r : Nat) :
    globalRecords degree (m.assembledPart settings degree n r).elements
      (m.assembledPart settings degree n r).vertices = m.movedElements settings degree n r :=
  (congrArg (rows degree) (renumbered_localize _).globals).trans
    (rows_flatten h.degree_pos (length_of_mem_movedElements settings h r))

theorem length_elements_assembledPart {r : Nat} (hr : r < n) :
    (m.assembledPart settings degree n r).elements.length =
      (m.bisection settings degree n r).count * degree := by
  refine (renumbered_localize (m.movedElements settings degree n r).flatten).length_eq.trans ?_
  rw [length_flatten_of_width (length_of_mem_movedElements settings h r),
    length_movedElements settings h hweighable hr]

/-- No element is lost. -/
theorem itemTotal_places : itemTotal n (fun r => (m.bisection settings degree n r).places) =
    itemTotal n (m.elementSlice degree n) :=
  congrArg List.sum (List.map_congr_left fun _ hr =>
    length_places_bisection settings h hweighable (List.mem_range.1 hr))

/-- The ranks have no more vertices than the elements have corners. -/
theorem itemTotal_vertices_le :
    itemTotal n (fun r => (m.assembledPart settings degree n r).vertices) ≤ m.elements.length := by
  have hmul : itemTotal n (fun r => (m.assembledPart settings degree n r).vertices) * 1 ≤
      itemTotal n (m.movedElements settings degree n) * degree := itemTotal_mul_le fun r _ => by
    rw [Nat.mul_one, ← length_flatten_of_width (length_of_mem_movedElements settings h r)]
    exact length_occurring_le _
  have hmoved : itemTotal n (m.movedElements settings degree n) ≤ elementCount :=
    ((fills_bisection settings h hweighable).itemTotal_moved fun _ hr =>
      (length_places_bisection settings h hweighable hr).symm).trans_le h.itemTotal_elementSlice_le
  rw [Nat.mul_one] at hmul
  rw [h.length_elements]
  exact hmul.trans (Nat.mul_le_mul_right degree hmoved)

end

/-! ## Together -/

/-- What is in memory takes less than half of all addresses: a word for each coordinate and one
    more, four words for each corner of an element, as it is fetched along a route, the
    coordinates of these corners, and a point for each element. -/
structure AssemblyRoom (κ : Type) [Alphabet κ] [Layout κ α] (m : FlatMesh α)
    (n elementCount : Nat) : Prop where
  rank_room : n ≤ 2 ^ 32
  coord_room : (m.coords.length + 1) * 8 < 2 ^ 63
  number_room : m.elements.length * 32 < 2 ^ 63
  corner_room : m.elements.length * m.dim * Layout.size κ α < 2 ^ 63
  point_room : elementCount * pointRoom κ α < 2 ^ 63

section

variable [AxisSolver α] (settings : BisectionSettings α) {m : FlatMesh α}
  {degree elementCount vertexCount : Nat} (h : m.Whole degree elementCount vertexCount)
  (hweighable : m.Weighable degree) [Alphabet κ] [LawfulAlphabet κ] [Layout κ α]
  (hroom : m.AssemblyRoom κ n elementCount)

include h hweighable hroom

/-- The elements move to their parts, as lists of global vertices. -/
theorem moveElements_together : Together n (List.range n)
    (fun r => (do
      let toParts ← Route.plan (Seat.of r n) (m.bisection settings degree n r).places
        (m.bisection settings degree n r).count
      toParts.carryNumbers (Seat.of r n) degree (m.sliceAt degree n r).elements :
        Proc κ (List Nat)).toProgram)
    (fun r => .ok (m.movedElements settings degree n r).flatten) := by
  have hfills := fills_bisection (n := n) settings h hweighable
  have hlength : ∀ r < n, (m.elementSlice degree n r).length =
      (m.bisection settings degree n r).places.length := fun r hr =>
    (length_places_bisection settings h hweighable hr).symm
  have htotal : itemTotal n (fun r => (m.bisection settings degree n r).places) ≤ elementCount :=
    (itemTotal_places settings h hweighable).trans_le h.itemTotal_elementSlice_le
  have hcorners := Nat.mul_le_mul_right degree htotal
  rw [← h.length_elements] at hcorners
  have hcount := h.elementCount_le
  have hnumbers := hroom.number_room
  have hrecords : Records n
      (fun r => (planned n (fun s => (m.bisection settings degree n s).places)
        (fun s => (m.bisection settings degree n s).count) r).near)
          degree (m.elementSlice degree n) :=
    fun r hr => ⟨by rw [itemCount_planned, hlength r hr], h.length_of_mem_elementSlice hr⟩
  refine (plan_together hfills.sound (hfills.fits (by omega))).andThen ?_
  refine (carryNumbers_together (paired_planned hfills.sound) h.degree_pos
    (hasRoom_of_sum _ _ ?room) hrecords ?words).congr
      (fun r hr => ?sent) fun r _ => congrArg Except.ok ?moved
  case room => exact show itemTotal n _ * degree * 8 < 2 ^ 63 by omega
  case words =>
    intro r hr element helement g hg
    have := h.vertex_lt_elementSlice hr element helement g hg
    have := h.vertexCount_le
    have := hroom.coord_room
    omega
  case sent => rw [h.flatten_elementSlice (List.mem_range.1 hr)]
  case moved =>
    rw [delivered_eq_moved hlength]
    rfl

/-- All ranks assemble together. -/
theorem assemble_together [LawfulLayout κ α] : Together n (List.range n)
    (fun r => (assemble (Seat.of r n) settings (m.sliceAt degree n r) :
      Proc κ (Assembled α)).toProgram)
    (fun r => .ok (m.assembledPart settings degree n r)) := by
  have hcoords := hroom.coord_room
  have hnumbers := hroom.number_room
  have hcount := h.elementCount_le
  have hvertices := h.vertexCount_le
  have hpoints : ∀ r < n, WeightedPoints (m.centroidSlice degree n r) (m.massSlice degree n r) :=
    fun _ hr => h.weightedPoints hweighable hr
  have hdim : ∀ r, ¬((m.sliceAt degree n r).dim = 0 ∨ 3 < (m.sliceAt degree n r).dim) := fun _ =>
    not_or.2 ⟨Nat.ne_of_gt h.dim_pos, Nat.not_lt.2 h.dim_le⟩
  -- coordinates can be fetched for no more vertices than there are corners
  have hfetch : ∀ vertices : Nat → List Nat, itemTotal n vertices ≤ m.elements.length →
      itemTotal n vertices * 32 < 2 ^ 63 ∧ itemTotal n vertices * m.dim * Layout.size κ α < 2 ^ 63 :=
    fun vertices hle => ⟨by omega, (Nat.mul_le_mul_right _ (Nat.mul_le_mul_right _ hle)).trans_lt
      hroom.corner_room⟩
  have hcorners := hfetch _ (h.itemTotal_elements_le (n := n))
  have hparts := hfetch _ (itemTotal_vertices_le (n := n) settings h hweighable)
  simp only [assemble, if_neg (hdim _)]
  refine Together.ofCheckedThen (fun _ _ => h.corners) ?_
  refine Together.allPassThen (fun r hr => h.check_sliceAt (by omega) (by omega) hr) ?_
  refine Together.ofCheckedThen (fun r hr => h.deal_sliceAt (List.mem_range.1 hr)) ?_
  refine Together.andThen (fetchCoords_together (fun r _ => h.vertex_lt_sliceAt r) h.dim_pos
    h.length_coords hcoords hcorners.1 hcorners.2) ?_
  refine Together.andThen ((bisect_together settings _ _ hpoints hroom.rank_room ?_).congr
    (fun r hr => ?_) fun _ _ => rfl) ?_
  · have hmasses : itemTotal n (m.massSlice degree n) = itemTotal n (m.elementSlice degree n) := by
      simp [itemTotal, massSlice]
    rw [hmasses]
    exact (Nat.mul_le_mul_right _ h.itemTotal_elementSlice_le).trans_lt hroom.point_room
  · have hr := List.mem_range.1 hr
    rw [← h.centroidSlice_eq hr, ← h.massSlice_eq hr]
    rfl
  · refine Together.congr ((moveElements_together settings h hweighable hroom).andThen ?_)
      (fun r _ => congrArg Proc.toProgram (bind_assoc _ _ _)) fun _ _ => rfl
    exact (fetchCoords_together (fun r _ g hg => vertex_lt_movedElements settings h r g
      (mem_occurring.1 hg)) h.dim_pos h.length_coords hcoords hparts.1 hparts.2).mapOk

end

end FlatMesh

/-! ## The law of assembling -/

open FlatMesh

/-- What assembling the slices of a mesh promises: `slices` is what the ranks are given of the
    mesh, and `parts` is what they get. -/
structure Assembles (κ : Type) [Alphabet κ] [Layout κ α] [AxisSolver α] (n : Nat)
    (settings : BisectionSettings α) (m : FlatMesh α) (degree : Nat) (slices : Nat → MeshSlice α)
    (parts : Nat → Assembled α) : Prop where
  /-- Every rank is given the slice of its share. -/
  sliced : ∀ r < n, m.sliceFor (Seat.of r n) = .ok (slices r)
  /-- Every rank gets its part, in any order of sends and receives. -/
  returned : (World.start ((List.range n).map fun r =>
      (assemble (κ := κ) (Seat.of r n) settings (slices r)).toProgram)).Yields
    ((List.range n).map fun r => .ok (parts r))
  /-- A part has whole elements. -/
  whole : ∀ r < n, degree ∣ (parts r).elements.length
  /-- Every element of a slice is told a place. -/
  length_places : ∀ r < n, (parts r).places.length = (slices r).elements.length / degree
  /-- The places are those of the elements of all parts, each once. -/
  bijOn : Set.BijOn (targetAt fun r => (parts r).places)
    (slotSet n fun r => (slices r).elements.length / degree)
    (slotSet n fun r => (parts r).elements.length / degree)
  /-- The element at a place has the global vertices it had, in the same order. -/
  found : ∀ p ∈ slotSet n (fun r => (slices r).elements.length / degree),
    let q := targetAt (fun r => (parts r).places) p
    (globalRecords degree (parts q.rank).elements (parts q.rank).vertices)[q.index]? =
      (rows degree (slices p.rank).elements)[p.index]?
  /-- The elements name vertices of their rank. -/
  named : ∀ r < n, ∀ v ∈ (parts r).elements, v < (parts r).vertices.length
  /-- The vertices of a rank are strictly ascending. -/
  ascending : ∀ r < n, (parts r).vertices.Pairwise (· < ·)
  /-- The vertices of a rank are those of its elements. -/
  used : ∀ r < n, ∀ g, g ∈ (parts r).vertices ↔
    ∃ v ∈ (parts r).elements, (parts r).vertices[v]? = some g
  /-- The vertices of a rank are vertices of the mesh. -/
  vertex_lt : ∀ r < n, ∀ g ∈ (parts r).vertices, g < m.coords.length / m.dim
  /-- Every vertex has the coordinates that it has in the mesh. -/
  coords_eq : ∀ r < n, (parts r).coords =
    (parts r).vertices.flatMap fun g => (m.coords.drop (g * m.dim)).take m.dim

/-- Assembling the slices of a mesh keeps its elements and coordinates, if there are no more than
    `2 ^ 32` ranks, as ranks travel in four bytes, and if the mesh fits in the memory of a rank. -/
theorem assemble_preserves [Alphabet κ] [LawfulAlphabet κ] [Layout κ α] [LawfulLayout κ α]
    [AxisSolver α] (settings : BisectionSettings α) {m : FlatMesh α}
    {degree elementCount vertexCount : Nat} (h : m.Whole degree elementCount vertexCount)
    (hweighable : m.Weighable degree) (hroom : m.AssemblyRoom κ n elementCount) :
    ∃ slices parts, Assembles κ n settings m degree slices parts := by
  have hfills := fills_bisection (n := n) settings h hweighable
  have hplaces : ∀ r < n, (m.elementSlice degree n r).length =
      (m.bisection settings degree n r).places.length := fun _ hr =>
    (length_places_bisection settings h hweighable hr).symm
  have hslice : ∀ r < n, (m.sliceAt degree n r).elements.length / degree =
      (m.bisection settings degree n r).places.length := fun r hr =>
    (length_rows degree _).symm.trans (hplaces r hr)
  have hlength : ∀ r < n, (m.assembledPart settings degree n r).elements.length =
      (m.bisection settings degree n r).count * degree := fun _ hr =>
    length_elements_assembledPart settings h hweighable hr
  have hcount : ∀ r < n, (m.assembledPart settings degree n r).elements.length / degree =
      (m.bisection settings degree n r).count := fun r hr => by
    rw [hlength r hr, Nat.mul_div_cancel _ h.degree_pos]
  refine ⟨m.sliceAt degree n, m.assembledPart settings degree n, ?_⟩
  constructor
  case sliced =>
    have := h.elementCount_le
    have := h.vertexCount_le
    have := hroom.number_room
    have := hroom.coord_room
    exact fun r hr => h.sliceFor_eq_ok (by omega) (by omega) hr
  case returned => exact (assemble_together settings h hweighable hroom).yields
  case whole => exact fun r hr => ⟨_, (hlength r hr).trans (Nat.mul_comm _ _)⟩
  case length_places => exact fun r hr => (hslice r hr).symm
  case bijOn =>
    rw [slotSet_congr hslice, slotSet_congr hcount]
    exact hfills
  case found =>
    intro p hp
    rw [slotSet_congr hslice] at hp
    simp only [globalRecords_assembledPart settings h]
    exact hfills.getElem?_moved hplaces hp
  case named => exact fun r _ => (renumbered_localize _).named
  case ascending => exact fun r _ => pairwise_occurring _
  case used => exact fun r _ g => mem_localize_iff
  case vertex_lt =>
    intro r _ g hg
    rw [h.vertexTotal_eq]
    exact vertex_lt_movedElements settings h r g (mem_occurring.1 hg)
  case coords_eq => exact fun _ _ => rfl

/-! ## A square in two triangles -/

attribute [local instance] wordScalar wordAxis

/-- A square that is cut into two triangles. -/
def squareMesh : FlatMesh UInt64 := ⟨.simplex, 2, [0, 1, 2, 2, 1, 3], [0, 0, 3, 0, 0, 3, 3, 3]⟩

theorem whole_squareMesh : squareMesh.Whole 3 2 4 where
  dim_pos := Nat.two_pos
  dim_le := Nat.le_succ 2
  corners := rfl
  length_elements := rfl
  length_coords := rfl
  vertex_lt := by simp [squareMesh]

theorem weighable_squareMesh : squareMesh.Weighable 3 where
  finite element helement c hc := by
    have hcentroids : (rows 3 squareMesh.elements).flatMap squareMesh.elementCentroid =
        [1, 1, 0, 2, 2, 0] := rfl
    have hfinite : ∀ c ∈ (rows 3 squareMesh.elements).flatMap squareMesh.elementCentroid,
        Scalar.isFinite c = true := by
      rw [hcentroids]
      simp [Scalar.isFinite]
    exact hfinite c (List.mem_flatMap.2 ⟨element, helement, hc⟩)
  mass_finite := rfl
  mass_pos := rfl

/-- Two triangles for three ranks: one of them is given none. -/
theorem assemble_preserves_squareMesh :
    squareMesh.Whole 3 2 4 ∧ squareMesh.Weighable 3 ∧ squareMesh.AssemblyRoom UInt8 3 2 ∧
      ∃ slices parts, Assembles UInt8 3 ⟨1, 64⟩ squareMesh 3 slices parts := by
  have hpoint : 2 * pointRoom UInt8 UInt64 = 96 := rfl
  have hcorner : squareMesh.elements.length * squareMesh.dim * Layout.size UInt8 UInt64 = 96 := rfl
  have hroom : squareMesh.AssemblyRoom UInt8 3 2 := by
    refine ⟨by omega, ?_, ?_, by omega, by omega⟩
    · show (8 + 1) * 8 < 2 ^ 63
      omega
    · show 6 * 32 < 2 ^ 63
      omega
  exact ⟨whole_squareMesh, weighable_squareMesh, hroom,
    assemble_preserves ⟨1, 64⟩ whole_squareMesh weighable_squareMesh hroom⟩

end SharedMesh
