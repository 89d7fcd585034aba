import SharedMesh.Proofs.Checked
import SharedMesh.Proofs.Distinct
import SharedMesh.Proofs.Sorting
import SharedMesh.Skeleton

/-!
# Skeletons list every part once

The skeleton of some elements consists of the first parts with each set of vertices. So if
parts have the same vertices exactly if something else about them is the same, the
skeleton lists what is different in the order of first appearance (`map_firstSeen`).

Parts are taken slot by slot, so they are renumbered with the elements (`partsOf_map`).
-/

namespace SharedMesh

variable {α β : Type}

/-! ## Sets of vertices -/

theorem vertexSet_perm (a : List Nat) : (vertexSet a).Perm a := List.mergeSort_perm a _

/-- Parts are the same if they have the same vertices. -/
theorem vertexSet_eq_iff {a b : List Nat} : vertexSet a = vertexSet b ↔ a.Perm b := by
  constructor
  · intro h
    exact (vertexSet_perm a).symm.trans (h ▸ vertexSet_perm b)
  · intro h
    have hsorted : ∀ c : List Nat, (vertexSet c).Pairwise fun x y => decide (x ≤ y) = true :=
      List.pairwise_mergeSort key_le_trans key_le_total
    refine List.Perm.eq_of_pairwise ?_ (hsorted a) (hsorted b)
      ((vertexSet_perm a).trans (h.trans (vertexSet_perm b).symm))
    intro x y _ _ hxy hyx
    rw [decide_eq_true_eq] at *
    exact Nat.le_antisymm hxy hyx

theorem adjacentRepeat?_of_nodup {l : List Nat} (h : l.Nodup) : adjacentRepeat? l = none := by
  fun_induction adjacentRepeat? l with
  | case1 a b => simp at h
  | case2 a b rest hne ih => exact ih (List.nodup_cons.1 h).2
  | case3 l => rfl

theorem checkedPart_eq_ok {record : List Nat} (h : record.Nodup) :
    checkedPart record = .ok (record, vertexSet record) := by
  rw [checkedPart, adjacentRepeat?_of_nodup ((vertexSet_perm record).nodup_iff.2 h)]

/-- The first parts with each set of vertices, in terms of what is the same for parts with
    the same vertices. -/
theorem map_firstSeen [BEq β] [LawfulBEq β] {f : List Nat → β} {records : List (List Nat)}
    (hf : ∀ a ∈ records, ∀ b ∈ records, vertexSet a = vertexSet b ↔ f a = f b)
    (seen : List (List Nat)) :
    (firstSeen seen (records.map fun record => (record, vertexSet record))).map f =
      ((records.filter fun record => vertexSet record ∉ seen).map f).eraseDups := by
  induction records generalizing seen with
  | nil => rfl
  | cons record rest ih =>
    have ih := ih fun a ha b hb => hf a (List.mem_cons_of_mem _ ha) b (List.mem_cons_of_mem _ hb)
    rw [List.map_cons, firstSeen]
    by_cases hseen : vertexSet record ∈ seen
    · rw [if_pos hseen, List.filter_cons_of_neg (by simpa using hseen), ih]
    · rw [if_neg hseen, List.filter_cons_of_pos (by simpa using hseen), List.map_cons,
        List.map_cons, List.eraseDups_cons, ih, List.filter_map, List.filter_filter]
      -- the rest is met after this part, and so parts with its vertices are not kept
      refine congrArg (fun l => f record :: (List.map f l).eraseDups)
        (List.filter_congr fun other hother => ?_)
      have hsame := hf other (List.mem_cons_of_mem _ hother) record List.mem_cons_self
      by_cases h : vertexSet other = vertexSet record
      · simp [h, hsame.1 h]
      · have hne : f other ≠ f record := mt hsame.2 h
        simp [h, hne]

/-! ## Parts of elements -/

/-- The parts of dimension `sub` of some elements, element by element. -/
def partsOf (shape : Shape) (dim sub : Nat) (elements : List Nat) : List (List Nat) :=
  match shape.corners dim, shape.corners sub, shape.parts dim sub with
  | .ok degree, .ok subDegree, .ok template =>
    (rows degree elements).flatMap (elementParts (rows subDegree template))
  | _, _, _ => []

theorem degree_pos_of_corners {shape : Shape} {dim degree : Nat}
    (h : shape.corners dim = .ok degree) : 0 < degree := by
  unfold Shape.corners at h
  split at h
  · cases h
  · cases shape <;> cases h
    · exact Nat.succ_pos _
    · exact Nat.two_pow_pos _

/-- A dimension between that of vertices and that of elements, with the template of the
    parts. -/
structure Between (shape : Shape) (dim sub degree subDegree : Nat) (template : List Nat) :
    Prop where
  corners_dim : shape.corners dim = .ok degree
  corners_sub : shape.corners sub = .ok subDegree
  parts : shape.parts dim sub = .ok template
  degree_pos : 0 < degree
  sub_pos : 0 < subDegree
  sub_le : subDegree ≤ 128
  length_slots : ∀ slots ∈ rows subDegree template, slots.length = subDegree
  slot_lt : ∀ slots ∈ rows subDegree template, ∀ i ∈ slots, i < degree
  /-- The keys of the parts take no more than six words for each corner, and neither do the
      parts where they arrive, at four words each. -/
  keys_le : (rows subDegree template).length * subDegree * 8 ≤ degree * 48
  arrivals_le : (rows subDegree template).length * 32 ≤ degree * 48

theorem exists_between (shape : Shape) {dim sub : Nat} (hsub : 0 < sub) (h : sub < dim)
    (hdim : dim ≤ 3) : ∃ degree subDegree template,
      Between shape dim sub degree subDegree template := by
  have hcases : dim = 2 ∧ sub = 1 ∨ dim = 3 ∧ sub = 1 ∨ dim = 3 ∧ sub = 2 := by omega
  rcases hcases with ⟨rfl, rfl⟩ | ⟨rfl, rfl⟩ | ⟨rfl, rfl⟩ <;> cases shape <;>
    exact ⟨_, _, _, rfl, rfl, rfl, by decide, by decide, by decide, by decide, by decide,
      by decide, by decide⟩

/-- The dimensions between, if it is known how many corners the elements have. -/
theorem exists_between_of_corners {shape : Shape} {dim sub degree : Nat}
    (hcorners : shape.corners dim = .ok degree) (hsub : 0 < sub) (h : sub < dim) (hdim : dim ≤ 3) :
    ∃ subDegree template, Between shape dim sub degree subDegree template := by
  obtain ⟨degree', subDegree, template, hb⟩ := exists_between shape hsub h hdim
  cases hb.corners_dim.symm.trans hcorners
  exact ⟨subDegree, template, hb⟩

theorem elementParts_map (template : List (List Nat)) (f : Nat → Nat) (element : List Nat) :
    elementParts template (element.map f) = (elementParts template element).map (List.map f) := by
  simp only [elementParts, List.map_map]
  refine List.map_congr_left fun slots _ => ?_
  simp only [List.getElem?_map, Function.comp_apply, List.map_filterMap]

/-- Parts are renumbered with the elements. -/
theorem partsOf_map (shape : Shape) (dim sub : Nat) (f : Nat → Nat) (elements : List Nat) :
    partsOf shape dim sub (elements.map f) = (partsOf shape dim sub elements).map (List.map f) := by
  rw [partsOf, partsOf]
  split
  · simp only [rows_map, List.flatMap_map, elementParts_map, List.map_flatMap]
  · rfl

namespace Between

variable {shape : Shape} {dim sub degree subDegree : Nat} {template : List Nat}

theorem partsOf_eq (h : Between shape dim sub degree subDegree template) (elements : List Nat) :
    partsOf shape dim sub elements =
      (rows degree elements).flatMap (elementParts (rows subDegree template)) := by
  rw [partsOf, h.corners_dim, h.corners_sub, h.parts]

/-- A part has all its corners, and they are corners of an element. -/
theorem of_mem_partsOf (h : Between shape dim sub degree subDegree template) {elements : List Nat}
    {count : Nat} (hwhole : elements.length = count * degree) {part : List Nat}
    (hpart : part ∈ partsOf shape dim sub elements) :
    part.length = subDegree ∧ ∀ v ∈ part, v ∈ elements := by
  rw [h.partsOf_eq] at hpart
  obtain ⟨element, helement, hpart⟩ := List.mem_flatMap.1 hpart
  obtain ⟨slots, hslots, rfl⟩ := List.mem_map.1 hpart
  have hlength := length_of_mem_rows h.degree_pos hwhole element helement
  constructor
  · have hsome : ∀ i ∈ slots, (element[i]?).isSome := fun i hi => by
      simpa [hlength] using h.slot_lt slots hslots i hi
    rw [List.filterMap_length_eq_length.2 hsome]
    exact h.length_slots slots hslots
  · intro v hv
    obtain ⟨i, _, hi⟩ := List.mem_filterMap.1 hv
    rw [← flatten_rows h.degree_pos hwhole]
    exact List.mem_flatten_of_mem helement (List.mem_of_getElem? hi)

theorem length_partsOf (h : Between shape dim sub degree subDegree template) (elements : List Nat) :
    (partsOf shape dim sub elements).length =
      elements.length / degree * (rows subDegree template).length := by
  have hlength : ∀ element, (elementParts (rows subDegree template) element).length =
      (rows subDegree template).length := fun _ => List.length_map _
  rw [h.partsOf_eq, List.length_flatMap]
  simp only [hlength, List.map_const', List.sum_replicate_nat, length_rows]

/-- Keys that are no more than the parts of some elements take no more than six words for each
    corner of these, and neither do the parts where they arrive. -/
theorem room_le (h : Between shape dim sub degree subDegree template) {count k : Nat}
    (hk : k ≤ count * (rows subDegree template).length) :
    k * subDegree * 8 ≤ count * degree * 48 ∧ k * 32 ≤ count * degree * 48 := by
  rw [Nat.mul_assoc count]
  constructor
  · calc k * subDegree * 8
        ≤ count * (rows subDegree template).length * subDegree * 8 := by gcongr
      _ = count * ((rows subDegree template).length * subDegree * 8) := by
        simp only [Nat.mul_assoc]
      _ ≤ count * (degree * 48) := Nat.mul_le_mul_left _ h.keys_le
  · calc k * 32
        ≤ count * (rows subDegree template).length * 32 := by gcongr
      _ = count * ((rows subDegree template).length * 32) := Nat.mul_assoc _ _ _
      _ ≤ count * (degree * 48) := Nat.mul_le_mul_left _ h.arrivals_le

/-- The skeleton of elements whose parts have different corners. -/
theorem skeleton_eq_ok (h : Between shape dim sub degree subDegree template) {elements : List Nat}
    {count : Nat} (hwhole : elements.length = count * degree)
    (hnodup : ∀ part ∈ partsOf shape dim sub elements, part.Nodup) :
    skeleton elements shape dim sub = .ok (firstSeen [] ((partsOf shape dim sub elements).map
      fun record => (record, vertexSet record))).flatten := by
  rw [h.partsOf_eq] at *
  have hmod : elements.length % degree = 0 := by rw [hwhole, Nat.mul_mod_left]
  rw [skeleton, h.corners_dim, h.corners_sub, h.parts]
  refine (if_neg (not_not_intro hmod)).trans ?_
  exact bind_of_ok (mapM_eq_ok fun part hpart => checkedPart_eq_ok (hnodup part hpart)) _

end Between

end SharedMesh
