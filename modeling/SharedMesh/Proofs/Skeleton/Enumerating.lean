import SharedMesh.Proofs.Shares
import SharedMesh.Proofs.Skeleton

/-!
# Skeletons in order of first appearance

A part of an element is read slot by slot from the flat lists of elements and of slots
(`partAt`). Element by element and row by row of the template, these are the parts among which a
skeleton is found (`Between.partsOf_eq_partList`). It consists of those that have not come before
(`firstSeen_eq_firstParts`), and is refused only for elements that are not whole and for parts that
repeat a vertex. So a skeleton lists every part once, in the order of first appearance
(`skeleton_enumerates`).
-/

namespace SharedMesh

/-! ## Parts of elements, slot by slot -/

/-- The vertices of the element `e` in the row `t` of a template. -/
def partAt (degree subDegree : Nat) (template elements : List Nat) (e t : Nat) : List Nat :=
  (List.range subDegree).map fun s =>
    elements.getD (e * degree + template.getD (t * subDegree + s) 0) 0

/-- The parts of all elements in all rows: the elements in order, and the rows of each in order. -/
def partList (degree subDegree : Nat) (template elements : List Nat) : List (List Nat) :=
  (List.range (elements.length / degree)).flatMap fun e =>
    (List.range (template.length / subDegree)).map (partAt degree subDegree template elements e)

theorem rows_eq_map_range {α : Type} (width : Nat) (values : List α) :
    rows width values = (List.range (values.length / width)).map (recordAt width values) := by
  refine List.ext_getElem (by simp) fun i hi _ => ?_
  rw [length_rows] at hi
  have hrow : (rows width values)[i]? = some (recordAt width values i) :=
    getElem?_takeRows width _ values hi
  simpa using (List.getElem?_eq_some_iff.1 hrow).2

theorem getElem?_eq_some_getD {values : List Nat} {i : Nat} (h : i < values.length) :
    values[i]? = some (values.getD i 0) := by
  rw [List.getD_eq_getElem?_getD, List.getElem?_eq_getElem h, Option.getD_some]

theorem getElem?_recordAt {α : Type} {width : Nat} {values : List α} {g s : Nat} (hs : s < width) :
    (recordAt width values g)[s]? = values[g * width + s]? := by
  rw [recordAt, List.getElem?_take_of_lt hs, List.getElem?_drop]

/-- A record is read value by value. -/
theorem recordAt_eq_map_getD {width g : Nat} {values : List Nat}
    (hg : g < values.length / width) :
    recordAt width values g = (List.range width).map fun s => values.getD (g * width + s) 0 := by
  have hend : g * width + width ≤ values.length := by
    rw [← Nat.succ_mul]
    exact (Nat.mul_le_mul_right width hg).trans (Nat.div_mul_le_self _ _)
  refine List.ext_getElem? fun s => ?_
  by_cases hs : s < width
  · rw [getElem?_recordAt hs, List.getElem?_map, List.getElem?_range hs, Option.map_some,
      getElem?_eq_some_getD (by omega)]
  · rw [List.getElem?_eq_none (by simpa [recordAt] using .inl (Nat.le_of_not_lt hs)),
      List.getElem?_eq_none (by simpa using Nat.le_of_not_lt hs)]

namespace Between

variable {shape : Shape} {dim sub degree subDegree : Nat} {template elements : List Nat}

/-- The parts of an element, one for each row of the template. -/
theorem elementParts_recordAt (h : Between shape dim sub degree subDegree template) {e : Nat}
    (he : e < elements.length / degree) :
    elementParts (rows subDegree template) (recordAt degree elements e) =
      (List.range (template.length / subDegree)).map
        (partAt degree subDegree template elements e) := by
  have hend : e * degree + degree ≤ elements.length := by
    rw [← Nat.succ_mul]
    exact (Nat.mul_le_mul_right degree he).trans (Nat.div_mul_le_self _ _)
  have hslots := h.slot_lt
  rw [rows_eq_map_range] at hslots ⊢
  rw [elementParts, List.map_map]
  refine List.map_congr_left fun t ht => ?_
  have hlt := hslots _ (List.mem_map_of_mem ht)
  rw [recordAt_eq_map_getD (List.mem_range.1 ht)] at hlt
  rw [Function.comp_apply, recordAt_eq_map_getD (List.mem_range.1 ht), List.filterMap_map, partAt,
    ← List.filterMap_eq_map]
  refine List.filterMap_congr fun s hs => ?_
  have hslot := hlt _ (List.mem_map_of_mem hs)
  have hin : e * degree + template.getD (t * subDegree + s) 0 < elements.length := by omega
  rw [Function.comp_apply, Function.comp_apply, getElem?_recordAt hslot, getElem?_eq_some_getD hin]

/-- The parts of dimension `sub` are those in the rows of the template. -/
theorem partsOf_eq_partList (h : Between shape dim sub degree subDegree template)
    (elements : List Nat) :
    partsOf shape dim sub elements = partList degree subDegree template elements := by
  rw [h.partsOf_eq, rows_eq_map_range degree, List.flatMap_map, partList]
  exact List.flatMap_congr fun e he => h.elementParts_recordAt (List.mem_range.1 he)

end Between

/-- There are templates for the corners, and for elements themselves, too. -/
theorem exists_between_of_le (shape : Shape) {dim sub : Nat} (h : sub ≤ dim) (hdim : dim ≤ 3) :
    ∃ degree subDegree template, Between shape dim sub degree subDegree template := by
  have hcases : (0 < sub ∧ sub < dim) ∨ sub = 0 ∨ sub = dim := by omega
  rcases hcases with ⟨hpos, hlt⟩ | rfl | rfl
  · exact exists_between shape hpos hlt hdim
  · have : dim = 0 ∨ dim = 1 ∨ dim = 2 ∨ dim = 3 := by omega
    rcases this with rfl | rfl | rfl | rfl <;> cases shape <;>
      exact ⟨_, _, _, rfl, rfl, rfl, by decide, by decide, by decide, by decide, by decide,
        by decide, by decide⟩
  · have : sub = 0 ∨ sub = 1 ∨ sub = 2 ∨ sub = 3 := by omega
    rcases this with rfl | rfl | rfl | rfl <;> cases shape <;>
      exact ⟨_, _, _, rfl, rfl, rfl, by decide, by decide, by decide, by decide, by decide,
        by decide, by decide⟩

/-! ## First appearances -/

/-- The parts whose vertices are not those of any part before. -/
def firstParts (parts : List (List Nat)) : List (List Nat) :=
  (parts.zipIdx.filter fun (x : List Nat × Nat) => ∀ before ∈ parts.take x.2,
    before.toFinset ≠ x.1.toFinset).map Prod.fst

theorem mem_of_mem_firstParts {parts : List (List Nat)} {part : List Nat}
    (h : part ∈ firstParts parts) : part ∈ parts := by
  obtain ⟨x, hx, rfl⟩ := List.mem_map.1 h
  exact List.fst_mem_of_mem_zipIdx (List.mem_filter.1 hx).1

/-- The parts that are kept are those that have not been seen, neither at first nor among the
    parts before. -/
theorem firstSeen_eq_filter (seen records : List (List Nat)) :
    firstSeen seen (records.map fun record => (record, vertexSet record)) =
      (records.zipIdx.filter fun (x : List Nat × Nat) => vertexSet x.1 ∉ seen ∧
        ∀ before ∈ records.take x.2, vertexSet before ≠ vertexSet x.1).map Prod.fst := by
  induction records generalizing seen with
  | nil => rfl
  | cons record rest ih =>
    rw [List.map_cons, firstSeen, List.zipIdx_cons, List.zipIdx_succ]
    by_cases hseen : vertexSet record ∈ seen
    · rw [if_pos hseen, ih, List.filter_cons_of_neg (by simp [hseen]), List.filter_map,
        List.map_map]
      refine congrArg (List.map _) (List.filter_congr fun x _ => decide_eq_decide.2 ?_)
      -- what has not been seen differs from a part that has
      have hne : vertexSet x.1 ∉ seen → vertexSet record ≠ vertexSet x.1 := fun hx h =>
        hx (h ▸ hseen)
      simpa using fun hx _ => hne hx
    · rw [if_neg hseen, ih, List.filter_cons_of_pos (by simp [hseen]), List.filter_map,
        List.map_cons, List.map_map]
      refine congrArg (record :: List.map _ ·) (List.filter_congr fun x _ => decide_eq_decide.2 ?_)
      have hcomm : vertexSet record = vertexSet x.1 ↔ vertexSet x.1 = vertexSet record := eq_comm
      simp [hcomm, and_assoc, and_left_comm]

/-- Parts without repetitions have the same vertices if they are the same sets. -/
theorem vertexSet_eq_iff_toFinset {a b : List Nat} (ha : a.Nodup) (hb : b.Nodup) :
    vertexSet a = vertexSet b ↔ a.toFinset = b.toFinset := by
  rw [vertexSet_eq_iff, List.toFinset_eq_iff_perm_dedup, ha.dedup, hb.dedup]

/-- The parts that are kept are those that come first with their vertices. -/
theorem firstSeen_eq_firstParts {parts : List (List Nat)} (h : ∀ part ∈ parts, part.Nodup) :
    firstSeen [] (parts.map fun part => (part, vertexSet part)) = firstParts parts := by
  rw [firstSeen_eq_filter, firstParts]
  refine congrArg (List.map _) (List.filter_congr fun x hx => decide_eq_decide.2 ?_)
  have hpart : x.1 ∈ parts := List.fst_mem_of_mem_zipIdx hx
  simp only [List.not_mem_nil, not_false_eq_true, true_and]
  exact forall₂_congr fun before hbefore =>
    not_congr (vertexSet_eq_iff_toFinset (h before (List.mem_of_mem_take hbefore)) (h _ hpart))

/-- What a list of records promises of some parts: each set of vertices is listed once, with the
    part that comes first with it. -/
structure Enumerates (parts records : List (List Nat)) : Prop where
  /-- No set of vertices is listed twice. -/
  distinct : records.Pairwise fun a b => a.toFinset ≠ b.toFinset
  /-- The sets of vertices are those of the parts. -/
  covers : ∀ vertices : Finset Nat,
    (∃ record ∈ records, record.toFinset = vertices) ↔ ∃ part ∈ parts, part.toFinset = vertices
  /-- The records are the parts whose vertices have not come before, in order. -/
  first_come : records = firstParts parts

theorem enumerates_firstSeen {parts : List (List Nat)} (h : ∀ part ∈ parts, part.Nodup) :
    Enumerates parts (firstSeen [] (parts.map fun part => (part, vertexSet part))) := by
  have hsets := map_firstSeen (f := List.toFinset)
    (fun a ha b hb => vertexSet_eq_iff_toFinset (h a ha) (h b hb)) []
  simp only [List.not_mem_nil, not_false_eq_true, decide_true, List.filter_true] at hsets
  refine ⟨?_, fun vertices => ?_, firstSeen_eq_firstParts h⟩
  · rw [← List.pairwise_map, hsets]
    exact nodup_eraseDups _
  · rw [← List.mem_map, hsets, List.mem_eraseDups, List.mem_map]

/-! ## Refusals -/

theorem nodup_of_adjacentRepeat? {l : List Nat} (hsorted : l.Pairwise (· ≤ ·))
    (h : adjacentRepeat? l = none) : l.Nodup := by
  fun_induction adjacentRepeat? l with
  | case1 a b => cases h
  | case2 a b rest hne ih =>
    obtain ⟨hle, hrest⟩ := List.pairwise_cons.1 hsorted
    refine List.nodup_cons.2 ⟨fun ha => ?_, ih hrest h⟩
    -- what follows is not below `b`, which is above `a`
    have hlt : a < b := Nat.lt_of_le_of_ne (hle b List.mem_cons_self) hne
    rcases List.mem_cons.1 ha with rfl | ha
    · exact hne rfl
    · exact absurd ((List.pairwise_cons.1 hrest).1 a ha) (Nat.not_le.2 hlt)
  | case3 short hshort =>
    rcases short with _ | ⟨a, _ | ⟨b, rest⟩⟩
    · exact .nil
    · exact List.nodup_singleton a
    · exact (hshort a b rest rfl).elim

theorem pairwise_vertexSet (record : List Nat) : (vertexSet record).Pairwise (· ≤ ·) := by
  have hsorted : (vertexSet record).Pairwise fun a b => decide (id a ≤ id b) = true :=
    List.pairwise_mergeSort key_le_trans key_le_total record
  exact hsorted.imp of_decide_eq_true

/-- A part that repeats a vertex is refused. -/
theorem checkedPart_eq_error {record : List Nat} (h : ¬record.Nodup) :
    ∃ v, checkedPart record = .error (.connectivity (.repeatedVertex v)) := by
  rw [checkedPart]
  cases hrepeat : adjacentRepeat? (vertexSet record) with
  | some v => exact ⟨v, rfl⟩
  | none =>
    have hnodup := nodup_of_adjacentRepeat? (pairwise_vertexSet record) hrepeat
    exact absurd ((vertexSet_perm record).nodup_iff.1 hnodup) h

/-- What the skeleton of some elements promises of their parts in the rows of a template. -/
structure SkeletonLaw (degree subDegree : Nat) (template elements : List Nat)
    (outcome : Checked (List Nat)) : Prop where
  /-- Of whole elements whose parts repeat no vertex, every part is listed. -/
  enumerates : elements.length % degree = 0 →
    (∀ part ∈ partList degree subDegree template elements, part.Nodup) →
    ∃ records, outcome = .ok records.flatten ∧ (∀ record ∈ records, record.length = subDegree) ∧
      Enumerates (partList degree subDegree template elements) records
  /-- Nothing else is accepted. -/
  fails_iff : (∃ e, outcome = .error e) ↔ elements.length % degree ≠ 0 ∨
    ∃ part ∈ partList degree subDegree template elements, ¬part.Nodup

namespace Between

variable {shape : Shape} {dim sub degree subDegree : Nat} {template elements : List Nat}

theorem skeleton_eq_error (h : Between shape dim sub degree subDegree template)
    (hbad : elements.length % degree ≠ 0 ∨
      ∃ part ∈ partList degree subDegree template elements, ¬part.Nodup) :
    ∃ e, skeleton elements shape dim sub = .error e := by
  rw [skeleton, h.corners_dim, h.corners_sub, h.parts]
  by_cases hwhole : elements.length % degree = 0
  · obtain ⟨part, hpart, hrepeat⟩ := hbad.resolve_left (not_not_intro hwhole)
    rw [← h.partsOf_eq_partList, h.partsOf_eq] at hpart
    obtain ⟨v, hv⟩ := checkedPart_eq_error hrepeat
    obtain ⟨_, _, e, _, he⟩ := mapM_eq_error ⟨part, hpart, _, hv⟩
    refine ⟨e, (if_neg (not_not_intro hwhole)).trans ?_⟩
    exact congrArg (· >>= fun parts => pure (firstSeen [] parts).flatten) he
  · exact ⟨_, if_pos hwhole⟩

theorem skeletonLaw (h : Between shape dim sub degree subDegree template) (elements : List Nat) :
    SkeletonLaw degree subDegree template elements (skeleton elements shape dim sub) := by
  have henumerates : elements.length % degree = 0 →
      (∀ part ∈ partList degree subDegree template elements, part.Nodup) →
      ∃ records, skeleton elements shape dim sub = .ok records.flatten ∧
        (∀ record ∈ records, record.length = subDegree) ∧
        Enumerates (partList degree subDegree template elements) records := by
    intro hmod hnodup
    have hwhole : elements.length = elements.length / degree * degree :=
      (Nat.div_mul_cancel (Nat.dvd_of_mod_eq_zero hmod)).symm
    rw [← h.partsOf_eq_partList] at hnodup ⊢
    refine ⟨_, h.skeleton_eq_ok hwhole hnodup, fun record hrecord => ?_,
      enumerates_firstSeen hnodup⟩
    rw [firstSeen_eq_firstParts hnodup] at hrecord
    exact (h.of_mem_partsOf hwhole (mem_of_mem_firstParts hrecord)).1
  refine ⟨henumerates, fun ⟨e, he⟩ => ?_, h.skeleton_eq_error⟩
  by_contra hgood
  push Not at hgood
  obtain ⟨records, hrecords, _⟩ := henumerates hgood.1 hgood.2
  rw [he] at hrecords
  cases hrecords

end Between

/-- The skeleton of any elements lists each of their parts once, in the order of first appearance,
    and is refused only if elements are not whole or parts repeat vertices. -/
theorem skeleton_enumerates (shape : Shape) {dim sub : Nat} (hsub : sub ≤ dim) (hdim : dim ≤ 3)
    (elements : List Nat) : ∃ degree subDegree template, shape.corners dim = .ok degree ∧
      shape.corners sub = .ok subDegree ∧ shape.parts dim sub = .ok template ∧
      SkeletonLaw degree subDegree template elements (skeleton elements shape dim sub) := by
  obtain ⟨degree, subDegree, template, h⟩ := exists_between_of_le shape hsub hdim
  exact ⟨degree, subDegree, template, h.corners_dim, h.corners_sub, h.parts,
    h.skeletonLaw elements⟩

/-- Two triangles with an edge in common have five edges; with a corner repeated, they have no
    skeleton. -/
theorem skeleton_enumerates_twoTriangles : (1 ≤ 2 ∧ 2 ≤ 3) ∧
    (∃ records, skeleton [0, 1, 2, 2, 1, 3] .simplex 2 1 = .ok records.flatten ∧
      records = [[0, 1], [1, 2], [2, 0], [1, 3], [3, 2]]) ∧
    ∃ e, skeleton [0, 1, 2, 2, 2, 3] .simplex 2 1 = .error e := by
  obtain ⟨_, _, _, hdegree, hsub, htemplate, hlaw⟩ :=
    skeleton_enumerates .simplex (by decide : 1 ≤ 2) (by decide : 2 ≤ 3) [0, 1, 2, 2, 1, 3]
  cases hdegree
  cases hsub
  cases htemplate
  obtain ⟨records, hrecords, _, henumerates⟩ := hlaw.enumerates (by decide) (by decide)
  refine ⟨by decide, ⟨records, hrecords, henumerates.first_come.trans (by decide)⟩, ?_⟩
  obtain ⟨_, _, _, hdegree, hsub, htemplate, hlaw⟩ :=
    skeleton_enumerates .simplex (by decide : 1 ≤ 2) (by decide : 2 ≤ 3) [0, 1, 2, 2, 2, 3]
  cases hdegree
  cases hsub
  cases htemplate
  exact hlaw.fails_iff.2 (.inr (by decide))

end SharedMesh
