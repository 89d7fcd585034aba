import SharedMesh.Proofs.Mesh.Shortcut
import SharedMesh.Proofs.Network.Returning
import SharedMesh.Proofs.Record.Invariant

/-!
# Degenerate elements

No element is checked by itself. An element that repeats a vertex is noticed if one of its edges
or faces repeats it, and these are derived below the dimension of the element only. So what is
not noticed are repetitions at corners that no edge or face has in common (`farCorners`): the ends
of a segment, and the diagonals of a quadrilateral and of a hexahedron.

A rank refuses a vertex that is repeated at other corners, whatever the other ranks do, and
repetitions at far corners are accepted (`build_refuses_near_repeats`,
`not_build_refuses_repeats`).
-/

namespace SharedMesh

variable {κ : Type} {shape : Shape} {dim degree : Nat} {vs gs : List Nat}

/-! ## Far corners -/

/-- The corners of an element that have no edge or face in common, in ascending order. -/
def farCorners : Shape → Nat → List (Nat × Nat)
  | _, 1 => [(0, 1)]
  | .hypercube, 2 => [(0, 2), (1, 3)]
  | .hypercube, 3 => [(0, 6), (1, 7), (2, 4), (3, 5)]
  | _, _ => []

/-- The element repeats a vertex at corners that are not far. -/
def RepeatsNear (shape : Shape) (dim : Nat) (element : List Nat) : Prop :=
  ∃ j < element.length, ∃ i < j, (i, j) ∉ farCorners shape dim ∧ element[i]? = element[j]?

instance (shape : Shape) (dim : Nat) (element : List Nat) :
    Decidable (RepeatsNear shape dim element) :=
  inferInstanceAs (Decidable (∃ j < element.length, ∃ i < j, _))

/-- Some part between vertices and elements repeats a vertex. -/
def PartRepeats (shape : Shape) (dim : Nat) (elements : List Nat) : Prop :=
  ∃ sub ∈ List.range' 1 (dim - 1), ∃ part ∈ partsOf shape dim sub elements, ¬part.Nodup

instance (shape : Shape) (dim : Nat) (elements : List Nat) :
    Decidable (PartRepeats shape dim elements) :=
  inferInstanceAs (Decidable (∃ sub ∈ List.range' 1 (dim - 1), _))

/-- What the tables of parts say of the corners of one element. -/
structure CornerLaw (shape : Shape) (dim degree : Nat) : Prop where
  nodup : ∀ sub ∈ List.range' 1 (dim - 1), ∀ slots ∈ partsOf shape dim sub (List.range degree),
    slots.Nodup
  slot_lt : ∀ sub ∈ List.range' 1 (dim - 1), ∀ slots ∈ partsOf shape dim sub (List.range degree),
    ∀ i ∈ slots, i < degree
  far_iff : ∀ j < degree, ∀ i < j, (i, j) ∈ farCorners shape dim ↔
    ∀ sub ∈ List.range' 1 (dim - 1), ∀ slots ∈ partsOf shape dim sub (List.range degree),
      i ∈ slots → j ∉ slots

section

variable (hdim : 0 < dim) (hle : dim ≤ 3) (hcorners : shape.corners dim = .ok degree)

include hdim hle hcorners

theorem cornerLaw : CornerLaw shape dim degree := by
  have hcases : dim = 1 ∨ dim = 2 ∨ dim = 3 := by omega
  rcases hcases with rfl | rfl | rfl <;> cases shape <;> cases hcorners <;>
    exact ⟨by decide, by decide, by decide⟩

/-- An element that repeats a vertex has a part that does, unless the corners are far. -/
theorem repeatsNear_iff {element : List Nat} (hlength : element.length = degree) :
    RepeatsNear shape dim element ↔ PartRepeats shape dim element := by
  have hlaw := cornerLaw hdim hle hcorners
  have helement : (List.range degree).map (fun i => element.getD i 0) = element := by
    refine List.ext_getElem (by simp [hlength]) fun i hi _ => ?_
    have hi : i < element.length := by simpa [hlength] using hi
    simp [hi]
  have hparts : ∀ sub, partsOf shape dim sub element =
      (partsOf shape dim sub (List.range degree)).map (List.map fun i => element.getD i 0) :=
    fun sub => by rw [← partsOf_map, helement]
  have hread : ∀ i < degree, ∀ j < degree, element[i]? = element[j]? ↔
      element.getD i 0 = element.getD j 0 := fun i hi j hj => by
    rw [getElem?_eq_some_getD (hlength ▸ hi), getElem?_eq_some_getD (hlength ▸ hj),
      Option.some.injEq]
  constructor
  · rintro ⟨j, hj, i, hij, hnear, heq⟩
    rw [hlength] at hj
    rw [hlaw.far_iff j hj i hij] at hnear
    push Not at hnear
    obtain ⟨sub, hsub, slots, hslots, hi, hj'⟩ := hnear
    refine ⟨sub, hsub, _, hparts sub ▸ List.mem_map_of_mem hslots, fun hnodup => ?_⟩
    have hinj := (List.nodup_map_iff_inj_on (hlaw.nodup sub hsub slots hslots)).1 hnodup
    exact Nat.ne_of_lt hij (hinj i hi j hj' ((hread i (hij.trans hj) j hj).1 heq))
  · rintro ⟨sub, hsub, part, hpart, hrepeat⟩
    rw [hparts] at hpart
    obtain ⟨slots, hslots, rfl⟩ := List.mem_map.1 hpart
    rw [List.nodup_map_iff_inj_on (hlaw.nodup sub hsub slots hslots)] at hrepeat
    push Not at hrepeat
    obtain ⟨i, hi, j, hj, heq, hne⟩ := hrepeat
    have hlt := hlaw.slot_lt sub hsub slots hslots
    have hnear : ∀ i ∈ slots, ∀ j ∈ slots, i < j → element.getD i 0 = element.getD j 0 →
        RepeatsNear shape dim element := fun i hi j hj hij heq =>
      ⟨j, hlength ▸ hlt j hj, i, hij,
        fun hfar => (hlaw.far_iff j (hlt j hj) i hij).1 hfar sub hsub slots hslots hi hj,
        (hread i (hlt i hi) j (hlt j hj)).2 heq⟩
    rcases Nat.lt_or_gt_of_ne hne with hij | hji
    · exact hnear i hi j hj hij heq
    · exact hnear j hj i hi hji heq.symm

/-- Of whole elements, some part repeats a vertex if an element repeats one at near corners. -/
theorem partRepeats_iff (hwhole : vs.length % degree = 0) : PartRepeats shape dim vs ↔
    ∃ element ∈ rows degree vs, RepeatsNear shape dim element := by
  have hpos := degree_pos_of_corners hcorners
  have hlength := length_of_mem_rows hpos
    (Nat.div_mul_cancel (Nat.dvd_of_mod_eq_zero hwhole)).symm
  have hparts : ∀ sub ∈ List.range' 1 (dim - 1), partsOf shape dim sub vs =
      (rows degree vs).flatMap (partsOf shape dim sub) := fun sub hsub => by
    obtain ⟨hsub, hlt⟩ := mem_range'_between hsub
    obtain ⟨_, _, hb⟩ := exists_between_of_corners hcorners hsub hlt hle
    rw [hb.partsOf_eq]
    refine List.flatMap_congr fun element helement => ?_
    rw [hb.partsOf_eq, rows_of_length hpos (hlength element helement), List.flatMap_singleton]
  constructor
  · rintro ⟨sub, hsub, part, hpart, hrepeat⟩
    rw [hparts sub hsub] at hpart
    obtain ⟨element, helement, hpart⟩ := List.mem_flatMap.1 hpart
    refine ⟨element, helement, ?_⟩
    rw [repeatsNear_iff hdim hle hcorners (hlength element helement)]
    exact ⟨sub, hsub, part, hpart, hrepeat⟩
  · rintro ⟨element, helement, hnear⟩
    rw [repeatsNear_iff hdim hle hcorners (hlength element helement)] at hnear
    obtain ⟨sub, hsub, part, hpart, hrepeat⟩ := hnear
    exact ⟨sub, hsub, part, hparts sub hsub ▸ List.mem_flatMap.2 ⟨element, helement, hpart⟩,
      hrepeat⟩

end

/-! ## Refused -/

section

variable [Alphabet κ] (seat : Seat)

/-- No layer of parts comes of a skeleton that is refused. -/
theorem refuses_derivedLayers {subs : List Nat} {sub : Nat} (hsub : sub ∈ subs)
    (h : ∃ e, skeleton vs shape dim sub = .error e) :
    (Part.derivedLayers seat shape dim vs gs subs : Proc κ (List Layer)).toProgram.Refuses := by
  induction hsub with
  | head subs =>
    obtain ⟨e, he⟩ := h
    refine Proc.refuses_bind ?_ _
    rw [Part.derivedLayer, he, Proc.ofChecked_error_bind]
    exact Proc.refuses_of_error e
  | tail _ _ ih => exact Proc.refuses_andThen _ fun _ => Proc.refuses_bind ih _

/-- A rank refuses parts that repeat a vertex. -/
theorem refuses_of_partRepeats (hle : dim ≤ 3) (h : PartRepeats shape dim vs) :
    (Part.build seat shape dim vs gs : Proc κ Part).toProgram.Refuses := by
  obtain ⟨sub, hsub, hrepeat⟩ := h
  obtain ⟨hpos, hlt⟩ := mem_range'_between hsub
  obtain ⟨_, subDegree, template, hb⟩ := exists_between shape hpos hlt hle
  rw [hb.partsOf_eq_partList] at hrepeat
  have hskeleton := hb.skeleton_eq_error (.inr hrepeat)
  rw [build_eq]
  refine Proc.refuses_andThen _ fun _ => Proc.refuses_andThen _ fun _ => ?_
  exact Proc.refuses_bind (refuses_derivedLayers seat hsub hskeleton) _

/-- A rank refuses elements that repeat a vertex at near corners. -/
theorem refuses_of_repeatsNear (hdim : 0 < dim) (hle : dim ≤ 3)
    (hcorners : shape.corners dim = .ok degree)
    (h : ∃ element ∈ rows degree vs, RepeatsNear shape dim element) :
    (Part.build seat shape dim vs gs : Proc κ Part).toProgram.Refuses := by
  by_cases hwhole : vs.length % degree = 0
  · exact refuses_of_partRepeats seat hle ((partRepeats_iff hdim hle hcorners hwhole).2 h)
  · -- elements that are not whole do not pass the first check
    cases hchecked : Part.checkElements shape dim vs gs with
    | error e =>
      rw [build_eq, hchecked, Proc.ofChecked_error_bind]
      exact Proc.refuses_of_error e
    | ok degree' =>
      obtain ⟨_, hcorners', hwhole', _⟩ := Part.of_checkElements hchecked
      cases hcorners'.symm.trans hcorners
      exact absurd hwhole' hwhole

end

/-! ## Accepted -/

theorem nodup_of_not_partRepeats (h : ¬PartRepeats shape dim vs) {sub : Nat}
    (hsub : sub ∈ List.range' 1 (dim - 1)) : ∀ part ∈ partsOf shape dim sub vs, part.Nodup := by
  intro part hpart
  by_contra hrepeat
  exact h ⟨sub, hsub, part, hpart, hrepeat⟩

/-- Elements that pass the first check, of vertices with different numbers. -/
structure CheckedElements (shape : Shape) (dim degree : Nat) (vs gs : List Nat) : Prop where
  checked : Part.checkElements shape dim vs gs = .ok degree
  nodup : gs.Nodup
  number_lt : ∀ g ∈ gs, g < 2 ^ 64 - 2

namespace CheckedElements

variable (h : CheckedElements shape dim degree vs gs) (hparts : ¬PartRepeats shape dim vs)

include h

theorem corners : shape.corners dim = .ok degree := (Part.of_checkElements h.checked).2.1

theorem whole : vs.length % degree = 0 := (Part.of_checkElements h.checked).2.2.1

theorem named : ∀ v ∈ vs, v < gs.length := (Part.of_checkElements h.checked).2.2.2

theorem length_eq : vs.length = vs.length / degree * degree := by
  rw [Nat.div_mul_cancel (Nat.dvd_of_mod_eq_zero h.whole)]

include hparts

/-- Different vertices have different numbers, in parts too. -/
theorem rankElements (hle : dim ≤ 3) : RankElements shape dim degree vs gs where
  whole := h.whole
  named := h.named
  number_lt := h.number_lt
  simple sub hpos hlt part hpart := by
    obtain ⟨_, _, hb⟩ := exists_between_of_corners h.corners hpos hlt hle
    have hsub : sub ∈ List.range' 1 (dim - 1) := by
      rw [List.mem_range'_1]
      omega
    refine nodup_map_getD h.nodup (nodup_of_not_partRepeats hparts hsub part hpart) fun v hv => ?_
    exact h.named v ((hb.of_mem_partsOf h.length_eq hpart).2 v hv)

/-- A layer between vertices and elements, on a single rank. -/
theorem derivedLayer_sole [Alphabet κ] (hle : dim ≤ 3)
    (hroom : PartsRoom 1 (fun _ => vs) fun _ => gs) {sub : Nat}
    (hsub : sub ∈ List.range' 1 (dim - 1)) :
    (Part.derivedLayer (Seat.of 0 1) shape dim vs gs sub : Proc κ Layer).toProgram.alone =
      .ok (betweenLayer 1 shape dim (fun _ => vs) (fun _ => gs) sub 0) := by
  obtain ⟨hpos, hlt⟩ := mem_range'_between hsub
  obtain ⟨subDegree, template, hb⟩ := exists_between_of_corners h.corners hpos hlt hle
  have hnodup := nodup_of_not_partRepeats hparts hsub
  have hrecords : (recordKeys subDegree (skeletonRecords shape dim sub vs).flatten gs).length * 16 <
      2 ^ 63 := by
    have := hroom.records hb (fun _ _ => h.length_eq) Nat.zero_lt_one
    omega
  refine (Proc.alone_ofChecked (hb.skeleton_eq_ok h.length_eq hnodup) _).trans ?_
  refine (Proc.alone_ofChecked hb.corners_sub _).trans ?_
  rw [hb.betweenLayer_eq]
  exact soleEntities_eq _ rfl (acceptable_of_nodup hb h.length_eq h.named h.nodup hnodup)
    (nodup_recordKeys hb h.length_eq h.named h.nodup hnodup) hrecords

/-- A single rank accepts elements of which no part repeats a vertex. -/
theorem build_sole [Alphabet κ] (hle : dim ≤ 3) (hroom : PartsRoom 1 (fun _ => vs) fun _ => gs) :
    (Part.build (Seat.of 0 1) shape dim vs gs : Proc κ Part).toProgram =
      .done (.ok (builtPart (Seat.of 0 1) shape dim degree (fun _ => vs) fun _ => gs)) := by
  have hbetween := derivedLayers_alone fun sub hsub =>
    h.derivedLayer_sole (κ := κ) hparts hle hroom hsub
  have hvertices := hroom.vertices Nat.zero_lt_one
  have helements := hroom.elements degree Nat.zero_lt_one
  have hfirst : (firstLayer (Seat.of 0 1) gs : Proc κ Layer).toProgram.alone =
      .ok (vertexLayer 1 (fun _ => gs) 0) :=
    soleVertices_eq (Seat.of 0 1) rfl h.nodup (by omega)
  have hlast : (lastLayer (Seat.of 0 1) degree vs : Proc κ Layer).toProgram.alone =
      .ok (elementLayer degree (fun _ => vs) 0) :=
    soleElements_eq (Seat.of 0 1) rfl (by omega)
  have halone : (Part.build (Seat.of 0 1) shape dim vs gs : Proc κ Part).toProgram.alone =
      .ok (builtPart (Seat.of 0 1) shape dim degree (fun _ => vs) fun _ => gs) := by
    rw [build_eq]
    refine (Proc.alone_ofChecked h.checked _).trans ?_
    refine (Proc.alone_bind hfirst _).trans ?_
    exact (Proc.alone_bind hbetween _).trans (Proc.alone_bind hlast _)
  obtain ⟨outcome, houtcome⟩ := build_silent (κ := κ) true shape dim vs gs
  rw [show Seat.sole true = Seat.of 0 1 from rfl] at houtcome
  rw [houtcome] at halone ⊢
  exact congrArg Program.done halone

end CheckedElements

/-- Ranks accept elements of which no part repeats a vertex, and hold them as they are. -/
theorem parts_of_not_partRepeats [Alphabet κ] [LawfulAlphabet κ] {n : Nat}
    (locals numbers : Nat → List Nat) (hn : 0 < n) (hle : dim ≤ 3)
    (h : ∀ r < n, CheckedElements shape dim degree (locals r) (numbers r))
    (hroom : PartsRoom n locals numbers) (hparts : ∀ r < n, ¬PartRepeats shape dim (locals r)) :
    ∃ parts : Nat → Part,
      (World.start ((List.range n).map fun r => (Part.build (κ := κ) (Seat.of r n) shape dim
        (locals r) (numbers r)).toProgram)).Yields ((List.range n).map fun r => .ok (parts r)) ∧
      ∀ r < n, ∃ layer, (parts r).layer dim = .ok layer ∧ layer.vertices = locals r := by
  obtain ⟨hdim, hcorners, _⟩ := Part.of_checkElements (h 0 hn).checked
  by_cases hmany : 1 < n
  · refine ⟨_, (parts_together hmany hroom hdim hle hcorners fun r hr =>
      (h r hr).rankElements (hparts r hr) hle).yields, fun r _ => ?_⟩
    exact ⟨_, layer_builtPart_top _ _ hdim, rfl⟩
  · obtain rfl : n = 1 := by omega
    have hsole : PartsRoom 1 (fun _ => locals 0) fun _ => numbers 0 :=
      ⟨hroom.rank_room, hroom.share_room, hroom.element_room, hroom.number_room⟩
    have htogether : Together 1 (List.range 1) (fun r => (Part.build (κ := κ) (Seat.of r 1) shape
        dim (locals r) (numbers r)).toProgram) fun _ => .ok (builtPart (Seat.of 0 1) shape dim
          degree (fun _ => locals 0) fun _ => numbers 0) := by
      refine (Together.done _).congr (fun r hr => ?_) fun _ _ => rfl
      obtain rfl : r = 0 := Nat.lt_one_iff.1 (List.mem_range.1 hr)
      exact ((h 0 hn).build_sole (hparts 0 hn) hle hsole).symm
    refine ⟨_, htogether.yields, fun r hr => ?_⟩
    obtain rfl : r = 0 := Nat.lt_one_iff.1 hr
    exact ⟨_, layer_builtPart_top _ _ hdim, rfl⟩

/-- A rank fails on elements that repeat a vertex at near corners, whatever the others do. Ranks
    whose elements do not, and which have room, accept them and hold them as they are, whatever
    vertices are repeated at far corners. -/
theorem build_refuses_near_repeats [Alphabet κ] [LawfulAlphabet κ] (hdim : 0 < dim) (hle : dim ≤ 3)
    (hcorners : shape.corners dim = .ok degree) :
    (∀ (seat : Seat) (vs gs : List Nat),
      (∃ element ∈ rows degree vs, RepeatsNear shape dim element) →
      (Part.build seat shape dim vs gs : Proc κ Part).toProgram.Fails) ∧
    ∀ (n : Nat) (locals numbers : Nat → List Nat), 0 < n →
      (∀ r < n, CheckedElements shape dim degree (locals r) (numbers r)) →
      PartsRoom n locals numbers →
      (∀ r < n, ∀ element ∈ rows degree (locals r), ¬RepeatsNear shape dim element) →
      ∃ parts : Nat → Part,
        (World.start ((List.range n).map fun r => (Part.build (κ := κ) (Seat.of r n) shape dim
          (locals r) (numbers r)).toProgram)).Yields ((List.range n).map fun r => .ok (parts r)) ∧
        ∀ r < n, ∃ layer, (parts r).layer dim = .ok layer ∧ layer.vertices = locals r := by
  refine ⟨fun seat vs gs h => (refuses_of_repeatsNear seat hdim hle hcorners h).fails,
    fun n locals numbers hn h hroom hnear => ?_⟩
  refine parts_of_not_partRepeats locals numbers hn hle h hroom fun r hr hrepeat => ?_
  obtain ⟨element, helement, hrepeats⟩ :=
    (partRepeats_iff hdim hle hcorners (h r hr).whole).1 hrepeat
  exact hnear r hr element helement hrepeats

/-- A quadrilateral that repeats a vertex along an edge is refused, and one that does at the ends
    of a diagonal is accepted, by two ranks. -/
theorem build_refuses_near_repeats_quadrilaterals :
    (0 < 2 ∧ 2 ≤ 3 ∧ Shape.hypercube.corners 2 = .ok 4) ∧
    (Part.build (κ := UInt8) (Seat.of 0 2) .hypercube 2 [0, 0, 1, 2] [7, 3, 5]).toProgram.Fails ∧
    ∃ parts : Nat → Part,
      (World.start ((List.range 2).map fun r => (Part.build (κ := UInt8) (Seat.of r 2) .hypercube 2
        [0, 1, 0, 2] [7, 3, 5 + r]).toProgram)).Yields ((List.range 2).map fun r => .ok (parts r)) ∧
      ∀ r < 2, ∃ layer, (parts r).layer 2 = .ok layer ∧ layer.vertices = [0, 1, 0, 2] := by
  obtain ⟨hrefuse, haccept⟩ := build_refuses_near_repeats (κ := UInt8) (by decide : 0 < 2)
    (by decide : 2 ≤ 3) (rfl : Shape.hypercube.corners 2 = .ok 4)
  refine ⟨⟨by decide, by decide, rfl⟩, hrefuse _ _ _ ⟨_, List.mem_singleton.2 rfl, ?_⟩,
    haccept 2 (fun _ => [0, 1, 0, 2]) (fun r => [7, 3, 5 + r]) (by decide) (fun r hr => ?_) ?_ ?_⟩
  · decide
  · have hnodup : ∀ r < 2, [7, 3, 5 + r].Nodup := by decide
    have hlt : ∀ r < 2, ∀ g ∈ [7, 3, 5 + r], g < 2 ^ 64 - 2 := by decide
    exact ⟨rfl, hnodup r hr, hlt r hr⟩
  · exact ⟨by decide, by decide, by decide, by decide⟩
  · decide

/-- It is not refused that elements repeat vertices: a quadrilateral may, at the ends of a
    diagonal. -/
theorem not_build_refuses_repeats :
    ¬ ∀ (shape : Shape) (dim degree n : Nat) (locals numbers : Nat → List Nat), 0 < dim →
      dim ≤ 3 → shape.corners dim = .ok degree → ∀ r < n,
      (∃ element ∈ rows degree (locals r), ¬element.Nodup) →
      ∃ e, (World.run ((List.range n).map fun r => (Part.build (κ := UInt8) (Seat.of r n) shape dim
        (locals r) (numbers r)).toProgram))[r]? = some (.error e) := by
  intro h
  obtain ⟨e, he⟩ := h .hypercube 2 4 1 (fun _ => [0, 1, 0, 2]) (fun _ => [0, 1, 2]) (by decide)
    (by decide) rfl 0 (by decide) ⟨_, List.mem_singleton.2 rfl, by decide⟩
  have hparts : ¬PartRepeats .hypercube 2 [0, 1, 0, 2] := by decide
  obtain ⟨parts, hyields, _⟩ := parts_of_not_partRepeats (κ := UInt8) (fun _ => [0, 1, 0, 2])
    (fun _ => [0, 1, 2]) (by decide : 0 < 1) (by decide) (fun _ _ => ⟨rfl, by decide, by decide⟩)
    ⟨by decide, by decide, by decide, by decide⟩ fun _ _ => hparts
  rw [hyields.run_eq] at he
  cases he

end SharedMesh
