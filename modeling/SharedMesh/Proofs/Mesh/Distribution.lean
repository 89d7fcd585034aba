import SharedMesh.Proofs.Mesh.Building
import SharedMesh.Proofs.Mesh.Consistency

/-!
# Elements in any distribution

The elements of a mesh may be on any ranks, and a rank may have none. If the ranks have room
for it, they build parts that fit together in every dimension (`build_consistent`): the
derived entities are numbered without gaps and each is owned once, vertices with the same
number have the same owner, and elements own themselves.

Large numbers of vertices leave no room, even if there are few vertices
(`not_build_consistent_of_elements`).
-/

namespace SharedMesh

variable {κ : Type} {shape : Shape} {dim degree n : Nat} {locals numbers : Nat → List Nat}

/-- Elements by the local vertices of a rank, of which no derived entity has a number twice
    (and so no vertex twice). -/
structure RankElements (shape : Shape) (dim degree : Nat) (locals numbers : List Nat) : Prop where
  whole : locals.length % degree = 0
  named : ∀ v ∈ locals, v < numbers.length
  number_lt : ∀ g ∈ numbers, g < 2 ^ 64 - 2
  simple : ∀ sub, 0 < sub → sub < dim → ∀ part ∈ partsOf shape dim sub locals,
    (part.map fun v => numbers.getD v 0).Nodup

/-- What the ranks build takes less than half of all addresses: on each rank three words for each
    number that it serves, and on all ranks six words for each corner of an element, and four
    for each vertex. -/
structure PartsRoom (n : Nat) (locals numbers : Nat → List Nat) : Prop where
  rank_room : n ≤ 2 ^ 32
  share_room : ∀ r < n, (sharesOf n numbers).length r * 24 < 2 ^ 63
  element_room : itemTotal n locals * 48 < 2 ^ 63
  number_room : itemTotal n numbers * 32 < 2 ^ 63

theorem RankElements.length_eq {vs gs : List Nat} (h : RankElements shape dim degree vs gs) :
    vs.length = vs.length / degree * degree := by
  rw [Nat.div_mul_cancel (Nat.dvd_of_mod_eq_zero h.whole)]

/-! ## Room -/

theorem PartsRoom.vertices (h : PartsRoom n locals numbers) {r : Nat} (hr : r < n) :
    (numbers r).length * 32 < 2 ^ 63 :=
  (Nat.mul_le_mul_right 32 (length_le_itemTotal numbers hr)).trans_lt h.number_room

theorem PartsRoom.elements (h : PartsRoom n locals numbers) (degree : Nat) {r : Nat} (hr : r < n) :
    (locals r).length / degree * 32 < 2 ^ 63 := by
  have hlength := length_le_itemTotal locals hr
  have hcount := Nat.div_le_self (locals r).length degree
  have hroom := h.element_room
  omega

theorem length_firstSeen_le (seen : List (List Nat)) (parts : List (List Nat × List Nat)) :
    (firstSeen seen parts).length ≤ parts.length := by
  fun_induction firstSeen seen parts with
  | case1 => exact Nat.le_refl _
  | case2 seen record key rest _ ih => exact Nat.le_succ_of_le ih
  | case3 seen record key rest _ ih => exact Nat.succ_le_succ ih

section

variable {sub subDegree : Nat} {template : List Nat}
  (hb : Between shape dim sub degree subDegree template)

include hb

/-- A rank has no more records than its elements have parts. -/
theorem length_recordKeys_le {vs : List Nat} (hwhole : vs.length = vs.length / degree * degree)
    (gs : List Nat) :
    (recordKeys subDegree (skeletonRecords shape dim sub vs).flatten gs).length ≤
      vs.length / degree * (rows subDegree template).length := by
  rw [recordKeys, List.length_map, globalRecords_skeleton hb hwhole, List.length_map,
    ← hb.length_partsOf, skeletonRecords]
  exact (length_firstSeen_le _ _).trans_eq (List.length_map _)

/-- The keys of all records take no more than six words for each corner, and neither do the
    records where they arrive. -/
theorem room_recordKeys (numbers : Nat → List Nat)
    (hwhole : ∀ r < n, (locals r).length = (locals r).length / degree * degree)
    (hroom : itemTotal n locals * 48 < 2 ^ 63) :
    let keys : Nat → List (List Nat) := fun r =>
      recordKeys subDegree (skeletonRecords shape dim sub (locals r)).flatten (numbers r)
    itemTotal n keys * subDegree * 8 < 2 ^ 63 ∧ itemTotal n keys * 32 < 2 ^ 63 := by
  have hrank : ∀ r < n,
      (recordKeys subDegree (skeletonRecords shape dim sub (locals r)).flatten
        (numbers r)).length * subDegree * 8 ≤ (locals r).length * 48 ∧
      (recordKeys subDegree (skeletonRecords shape dim sub (locals r)).flatten
        (numbers r)).length * 32 ≤ (locals r).length * 48 := by
    intro r hr
    have hle := hb.room_le (length_recordKeys_le hb (hwhole r hr) (numbers r))
    rwa [← hwhole r hr] at hle
  constructor
  · rw [Nat.mul_assoc]
    exact (itemTotal_mul_le fun r hr => Nat.mul_assoc _ _ _ ▸ (hrank r hr).1).trans_lt hroom
  · exact (itemTotal_mul_le fun r hr => (hrank r hr).2).trans_lt hroom

/-- The records of a rank leave as much room. -/
theorem PartsRoom.records (h : PartsRoom n locals numbers)
    (hwhole : ∀ r < n, (locals r).length = (locals r).length / degree * degree) {r : Nat}
    (hr : r < n) : (recordKeys subDegree (skeletonRecords shape dim sub (locals r)).flatten
      (numbers r)).length * 32 < 2 ^ 63 := by
  obtain ⟨_, hitems⟩ := room_recordKeys hb numbers hwhole h.element_room
  exact (Nat.mul_le_mul_right 32 (length_le_itemTotal (fun r => recordKeys subDegree
    (skeletonRecords shape dim sub (locals r)).flatten (numbers r)) hr)).trans_lt hitems

theorem RankElements.acceptable {vs gs : List Nat} (h : RankElements shape dim degree vs gs)
    (hpos : 0 < sub) (hlt : sub < dim) :
    Acceptable subDegree (skeletonRecords shape dim sub vs).flatten gs :=
  acceptable_skeleton hb h.length_eq h.named (h.simple sub hpos hlt)

/-! ## Together -/

/-- The ranks make their layers of derived entities together. -/
theorem entities_together [Alphabet κ] [LawfulAlphabet κ] (hn : 1 < n) (hpos : 0 < sub)
    (hlt : sub < dim) (h : ∀ r < n, RankElements shape dim degree (locals r) (numbers r))
    (hroom : PartsRoom n locals numbers) :
    Together n (List.range n) (fun r => (Part.derivedLayer (Seat.of r n) shape dim (locals r)
        (numbers r) sub : Proc κ Layer).toProgram)
      (fun r => .ok (betweenLayer n shape dim locals numbers sub r)) := by
  have hacceptable : ∀ r < n, Acceptable subDegree
      (skeletonRecords shape dim sub (locals r)).flatten (numbers r) :=
    fun r hr => (h r hr).acceptable hb hpos hlt
  have hitems := room_recordKeys hb numbers (fun r hr => (h r hr).length_eq)
    hroom.element_room
  refine Together.ofCheckedThen (a := fun r => (skeletonRecords shape dim sub (locals r)).flatten)
    (fun r hr => hb.skeleton_eq_ok (h r (List.mem_range.1 hr)).length_eq fun part hpart =>
      ((h r (List.mem_range.1 hr)).simple sub hpos hlt part hpart).of_map) ?_
  refine Together.ofCheckedThen (fun _ _ => hb.corners_sub) ?_
  rw [hb.betweenLayer_eq]
  refine Together.ofSize (Nat.zero_lt_of_lt hn) (fun _ => ?_) fun hone => by omega
  refine sharedEntities_together hacceptable
    (keyed_recordKeys (fun r hr => (h r hr).number_lt) hacceptable hb.sub_pos)
    (meetingRoom_of_shares hroom.rank_room hroom.share_room hitems.1 hitems.2)
    (numberingRoom_of_sum ?_)
  have howners : itemTotal n (firstOwners n fun r => recordKeys subDegree
      (skeletonRecords shape dim sub (locals r)).flatten (numbers r)) =
        itemTotal n fun r => recordKeys subDegree
          (skeletonRecords shape dim sub (locals r)).flatten (numbers r) := by
    simp only [itemTotal, firstOwners, List.length_map]
  rw [howners]
  exact hitems.2

end

section

variable [Alphabet κ] [LawfulAlphabet κ] (hn : 1 < n) (hroom : PartsRoom n locals numbers)

include hn hroom

theorem vertices_together (h : ∀ r < n, ∀ g ∈ numbers r, g < 2 ^ 64 - 2) :
    Together n (List.range n)
      (fun r => (firstLayer (Seat.of r n) (numbers r) : Proc κ Layer).toProgram)
      (fun r => .ok (vertexLayer n numbers r)) := by
  refine Together.ofSize (Nat.zero_lt_of_lt hn) (fun _ => ?_) fun hone => by omega
  have hitems : itemTotal n (fun r => numberKeys (numbers r)) = itemTotal n numbers := by
    simp [itemTotal, numberKeys]
  have := hroom.number_room
  exact sharedVertices_together h
    (meetingRoom_of_shares hroom.rank_room hroom.share_room (by omega) (by omega))

theorem elements_together :
    Together n (List.range n)
      (fun r => (lastLayer (Seat.of r n) degree (locals r) : Proc κ Layer).toProgram)
      (fun r => .ok (elementLayer degree locals r)) := by
  refine Together.ofSize (Nat.zero_lt_of_lt hn) (fun _ => ?_) fun hone => by omega
  refine sharedElements_together (numberingRoom_of_sum ?_)
  have hle : itemTotal n (elementOwners degree locals) * 32 ≤ itemTotal n locals * 48 :=
    itemTotal_mul_le fun r _ => by
      rw [elementOwners, Place.length_own]
      have := Nat.div_le_self (locals r).length degree
      omega
  exact hle.trans_lt hroom.element_room

/-- The ranks build their parts together, whatever elements they have. -/
theorem parts_together (hdim : 0 < dim) (hle : dim ≤ 3) (hcorners : shape.corners dim = .ok degree)
    (h : ∀ r < n, RankElements shape dim degree (locals r) (numbers r)) :
    Together n (List.range n) (fun r => (Part.build (Seat.of r n) shape dim (locals r) (numbers r) :
        Proc κ Part).toProgram)
      (fun r => .ok (builtPart (Seat.of r n) shape dim degree locals numbers)) := by
  simp only [build_eq]
  refine Together.ofCheckedThen (fun r hr => Part.checkElements_eq_ok hdim hcorners
    (h r (List.mem_range.1 hr)).whole (h r (List.mem_range.1 hr)).named) ?_
  refine Together.andThen (vertices_together hn hroom fun r hr => (h r hr).number_lt) ?_
  refine Together.andThen (derivedLayers_together (f := betweenLayer n shape dim locals numbers)
    fun sub hsub => ?_) ?_
  · obtain ⟨hpos, hlt⟩ := mem_range'_between hsub
    obtain ⟨subDegree, template, hb⟩ := exists_between_of_corners hcorners hpos hlt hle
    exact entities_together hb hn hpos hlt h hroom
  exact Together.andThen (elements_together hn hroom) (Together.done _)

end

/-- Two ranks or more that hold any elements build parts that fit together: derived entities
    are numbered by owners that are their first copies, vertices with one number have the
    first of them as owner, and elements are numbered rank by rank and own themselves. -/
theorem build_consistent [Alphabet κ] [LawfulAlphabet κ] (hn : 1 < n) (hdim : 0 < dim)
    (hle : dim ≤ 3) (hcorners : shape.corners dim = .ok degree)
    (h : ∀ r < n, RankElements shape dim degree (locals r) (numbers r))
    (hroom : PartsRoom n locals numbers) :
    ∃ parts : Nat → Part,
      (World.start ((List.range n).map fun r => (Part.build (κ := κ) (Seat.of r n) shape dim
        (locals r) (numbers r)).toProgram)).Yields ((List.range n).map fun r => .ok (parts r)) ∧
      (∃ layers : Nat → Layer, (∀ r < n, (parts r).layer 0 = .ok (layers r)) ∧
        SharesOwners n numbers layers) ∧
      (∀ d, 0 < d → d < dim → ∃ (k : Nat) (layers : Nat → Layer), shape.corners d = .ok k ∧
        (∀ r < n, (parts r).layer d = .ok (layers r)) ∧
        Consistent n k numbers (fun r => skeletonRecords shape dim d (locals r)) layers) ∧
      ∃ layers : Nat → Layer, (∀ r < n, (parts r).layer dim = .ok (layers r)) ∧
        ∀ r < n, (layers r).vertices = locals r ∧
          (layers r).owners = Place.own r ((locals r).length / degree) ∧
          (layers r).globals = List.range' (((List.range r).map fun s =>
            (locals s).length / degree).sum) ((locals r).length / degree) := by
  refine ⟨_, (parts_together hn hroom hdim hle hcorners h).yields,
    ⟨_, fun _ _ => rfl, sharesOwners_vertexLayer n numbers⟩, fun d hd hlt => ?_,
    _, fun _ _ => layer_builtPart_top _ _ hdim, fun _ _ => ⟨rfl, rfl, rfl⟩⟩
  obtain ⟨_, subDegree, template, hb⟩ := exists_between shape hd hlt hle
  cases hb.corners_dim.symm.trans hcorners
  refine ⟨subDegree, _, hb.corners_sub, fun _ _ => layer_builtPart_between _ _ hd hlt, ?_⟩
  have hconsistent := consistent_entityLayer hb.sub_le fun r hr =>
    (h r hr).acceptable hb hd hlt
  rw [← hb.betweenLayer_eq] at hconsistent
  refine ⟨fun r hr => ?_, fun r hr => ?_, hconsistent.smallest_first, hconsistent.owner_iff,
    hconsistent.number_iff, hconsistent.first_owns, hconsistent.once, hconsistent.numbers_used⟩
  · rw [← rows_skeletonRecords hb (h r hr).length_eq]
    exact hconsistent.turned r hr
  · rw [← rows_skeletonRecords hb (h r hr).length_eq]
    exact hconsistent.counted r hr

/-- Two triangles with a common edge, on the first and the last of three ranks. -/
def farTriangles (r : Nat) : List Nat × List Nat :=
  if r = 0 then ([1, 2, 0], [2, 0, 1]) else if r = 1 then ([], []) else ([0, 1, 2], [1, 3, 2])

theorem build_consistent_farTriangles :
    ∃ (parts : Nat → Part) (layers : Nat → Layer),
      (World.start ((List.range 3).map fun r => (Part.build (κ := UInt8) (Seat.of r 3) .simplex 2
        (farTriangles r).1 (farTriangles r).2).toProgram)).Yields
          ((List.range 3).map fun r => .ok (parts r)) ∧
      (∀ r < 3, (parts r).layer 1 = .ok (layers r)) ∧
      Consistent 3 2 (fun r => (farTriangles r).2)
        (fun r => skeletonRecords .simplex 2 1 (farTriangles r).1) layers := by
  have h : ∀ r < 3, RankElements .simplex 2 3 (farTriangles r).1 (farTriangles r).2 := by
    have hsimple : ∀ r < 3, ∀ part ∈ partsOf .simplex 2 1 (farTriangles r).1,
        (part.map fun v => (farTriangles r).2.getD v 0).Nodup := by decide
    have hwhole : ∀ r < 3, (farTriangles r).1.length % 3 = 0 := by decide
    have hnamed : ∀ r < 3, ∀ v ∈ (farTriangles r).1, v < (farTriangles r).2.length := by decide
    have hnumber : ∀ r < 3, ∀ g ∈ (farTriangles r).2, g < 2 ^ 64 - 2 := by decide
    intro r hr
    refine ⟨hwhole r hr, hnamed r hr, hnumber r hr, fun sub hsub hlt => ?_⟩
    obtain rfl : sub = 1 := by omega
    exact hsimple r hr
  have hroom : PartsRoom 3 (fun r => (farTriangles r).1) fun r => (farTriangles r).2 :=
    ⟨by decide, by decide, by decide, by decide⟩
  obtain ⟨parts, hparts, _, hbetween, _⟩ := build_consistent (κ := UInt8) (by decide) (by decide)
    (by decide) rfl h hroom
  obtain ⟨k, layers, hk, hlayers, hconsistent⟩ := hbetween 1 (by decide) (by decide)
  cases hk
  exact ⟨parts, layers, hparts, hlayers, hconsistent⟩

/-- It is not enough that the elements are whole and that no derived entity has a number
    twice: a triangle with one large number leaves no room for the numbers before it. -/
theorem not_build_consistent_of_elements :
    ¬ ∀ (shape : Shape) (dim degree n : Nat) (locals numbers : Nat → List Nat), 1 < n →
      0 < dim → dim ≤ 3 → shape.corners dim = .ok degree →
      (∀ r < n, RankElements shape dim degree (locals r) (numbers r)) →
      ∃ parts : Nat → Part,
        (World.start ((List.range n).map fun r => (Part.build (κ := UInt8) (Seat.of r n) shape dim
          (locals r) (numbers r)).toProgram)).Yields
            ((List.range n).map fun r => .ok (parts r)) := by
  intro h
  let numbers : Nat → List Nat := fun r => if r = 0 then [0, 1, 2 ^ 62] else []
  let locals : Nat → List Nat := fun r => if r = 0 then [0, 1, 2] else []
  have helements : ∀ r < 2, RankElements .simplex 2 3 (locals r) (numbers r) := by
    have hsimple : ∀ r < 2, ∀ part ∈ partsOf .simplex 2 1 (locals r),
        (part.map fun v => (numbers r).getD v 0).Nodup := by decide
    intro r hr
    have hcases : r = 0 ∨ r = 1 := by omega
    refine ⟨?_, ?_, ?_, fun sub hsub hlt => ?_⟩
    · rcases hcases with rfl | rfl <;> decide
    · rcases hcases with rfl | rfl <;> decide
    · rcases hcases with rfl | rfl <;> decide
    · obtain rfl : sub = 1 := by omega
      exact hsimple r hr
  obtain ⟨parts, hparts⟩ := h .simplex 2 3 2 locals numbers (by decide) (by decide) (by decide) rfl
    helements
  -- each of the ranks serves `2 ^ 61` numbers or more
  have hsound : Route.Sound 2 (fun r => (numberKeys (numbers r)).map (homeOf 2 numbers))
      (sharesOf 2 numbers).length := ⟨by decide, by decide⟩
  have hplan := Route.plan_together_noRoom (κ := UInt8) hsound (by decide) (by decide) (by decide)
    (by decide)
  have howners := ownersOfNumbers_of_meetAtHome
    (meetAtHome_of_meet .smallest (keyed_numberKeys (by decide)) hplan.orFail)
  have hfail : Together 2 (List.range 2) (fun r => (Part.build (κ := UInt8) (Seat.of r 2) .simplex 2
      (locals r) (numbers r)).toProgram) fun _ => .error (.breach .noRoom) := by
    simp only [build_eq]
    refine Together.ofCheckedThen (a := fun _ => 3) (by decide) ?_
    exact howners.orFail.orFail
  have hfail := hfail.yields.run_eq
  rw [hparts.run_eq] at hfail
  simp [List.range_succ] at hfail

end SharedMesh
