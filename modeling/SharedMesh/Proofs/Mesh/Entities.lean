import SharedMesh.Proofs.Record.Canonical
import SharedMesh.Proofs.Shares
import SharedMesh.Proofs.Skeleton

/-!
# Entities of a mesh

An entity between vertices and elements is known by its key, the canonical list of its
vertices. The keys of a mesh are those of the parts of its elements, each once
(`entityKeys`).

Where elements are dealt out to ranks, each rank has vertices of its own, with the numbers of
the whole mesh (`Renumbered`). The keys of its records are those of its slice of the
elements (`Renumbered.recordKeys_eq`), and the keys of all slices are those of the mesh
(`entityKeys_dealt`).
-/

namespace SharedMesh

variable {shape : Shape} {dim sub degree subDegree : Nat} {template : List Nat}

/-! ## Keys -/

/-- The parts of dimension `sub` of the elements have no vertex twice, and parts with the
    same vertices are the same cycle. -/
structure Regular (shape : Shape) (dim sub : Nat) (elements : List Nat) : Prop where
  nodup : ∀ part ∈ partsOf shape dim sub elements, part.Nodup
  cyclic : ∀ a ∈ partsOf shape dim sub elements, ∀ b ∈ partsOf shape dim sub elements,
    a.Perm b → SameCycle a b

/-- The keys of the entities of dimension `sub`, in the order of first appearance. -/
def entityKeys (shape : Shape) (dim sub subDegree : Nat) (elements : List Nat) :
    List (List Nat) :=
  ((partsOf shape dim sub elements).map (canonicalForm subDegree)).eraseDups

/-- The records of the skeleton. -/
def skeletonRecords (shape : Shape) (dim sub : Nat) (elements : List Nat) : List (List Nat) :=
  firstSeen [] ((partsOf shape dim sub elements).map fun record => (record, vertexSet record))

theorem mem_of_mem_firstSeen {record : List Nat} {seen : List (List Nat)}
    {parts : List (List Nat × List Nat)} (h : record ∈ firstSeen seen parts) :
    record ∈ parts.map Prod.fst := by
  fun_induction firstSeen seen parts with
  | case1 => cases h
  | case2 seen record key rest _ ih => exact List.mem_cons_of_mem _ (ih h)
  | case3 seen record key rest _ ih =>
    rcases List.mem_cons.1 h with rfl | h
    · exact List.mem_cons_self
    · exact List.mem_cons_of_mem _ (ih h)

theorem mem_partsOf_of_mem_skeletonRecords {elements record : List Nat}
    (h : record ∈ skeletonRecords shape dim sub elements) :
    record ∈ partsOf shape dim sub elements := by
  have := mem_of_mem_firstSeen h
  rwa [List.map_map, show Prod.fst ∘ (fun record : List Nat => (record, vertexSet record)) = id
    from rfl, List.map_id] at this

/-- Parts of regular elements have the same key exactly if they have the same vertices. -/
theorem Regular.canonicalForm_eq_iff (hb : Between shape dim sub degree subDegree template)
    {elements : List Nat} {count : Nat} (hwhole : elements.length = count * degree)
    (h : Regular shape dim sub elements) {a b : List Nat} (ha : a ∈ partsOf shape dim sub elements)
    (hb' : b ∈ partsOf shape dim sub elements) :
    canonicalForm subDegree a = canonicalForm subDegree b ↔ a.Perm b := by
  rw [SharedMesh.canonicalForm_eq_iff hb.sub_pos hb.sub_le (hb.of_mem_partsOf hwhole ha).1
    (hb.of_mem_partsOf hwhole hb').1 (h.nodup a ha) (h.nodup b hb')]
  exact ⟨SameCycle.perm, h.cyclic a ha b hb'⟩

/-! ## Records of a rank -/

section

variable {locals numbers : List Nat} {count : Nat}
  (hb : Between shape dim sub degree subDegree template) (hwhole : locals.length = count * degree)

include hb hwhole

theorem length_of_mem_skeletonRecords {record : List Nat}
    (h : record ∈ skeletonRecords shape dim sub locals) : record.length = subDegree :=
  (hb.of_mem_partsOf hwhole (mem_partsOf_of_mem_skeletonRecords h)).1

theorem rows_skeletonRecords : rows subDegree (skeletonRecords shape dim sub locals).flatten =
    skeletonRecords shape dim sub locals :=
  rows_flatten hb.sub_pos fun _ hrecord => length_of_mem_skeletonRecords hb hwhole hrecord

theorem globalRecords_skeleton :
    globalRecords subDegree (skeletonRecords shape dim sub locals).flatten numbers =
      (skeletonRecords shape dim sub locals).map (List.map fun v => numbers.getD v 0) := by
  rw [globalRecords, rows_map, rows_skeletonRecords hb hwhole]

/-- The records of the skeleton have canonical forms, if no part has a number twice. -/
theorem acceptable_skeleton (hnamed : ∀ v ∈ locals, v < numbers.length)
    (hnodup : ∀ part ∈ partsOf shape dim sub locals,
      (part.map fun v => numbers.getD v 0).Nodup) :
    Acceptable subDegree (skeletonRecords shape dim sub locals).flatten numbers where
  degree_pos := hb.sub_pos
  whole := by
    have hlength : (skeletonRecords shape dim sub locals).flatten.length =
        (skeletonRecords shape dim sub locals).length * subDegree :=
      length_flatten_of_width fun _ hrecord => length_of_mem_skeletonRecords hb hwhole hrecord
    rw [hlength, Nat.mul_div_cancel _ hb.sub_pos]
  named v hv := by
    obtain ⟨record, hrecord, hv⟩ := List.mem_flatten.1 hv
    have hpart := mem_partsOf_of_mem_skeletonRecords hrecord
    exact hnamed v ((hb.of_mem_partsOf hwhole hpart).2 v hv)
  nodup record hrecord := by
    rw [globalRecords_skeleton hb hwhole] at hrecord
    obtain ⟨part, hpart, rfl⟩ := List.mem_map.1 hrecord
    exact hnodup part (mem_partsOf_of_mem_skeletonRecords hpart)

end

/-! ## Vertices of a rank -/

/-- Elements of a rank with vertices of its own, of which `numbers` has the global numbers. -/
structure Renumbered (locals numbers elements : List Nat) : Prop where
  nodup : numbers.Nodup
  named : ∀ v ∈ locals, v < numbers.length
  globals : locals.map (fun v => numbers.getD v 0) = elements

/-- Vertices that keep their numbers. -/
theorem renumbered_range {elements : List Nat} {count : Nat} (h : ∀ v ∈ elements, v < count) :
    Renumbered elements (List.range count) elements where
  nodup := List.nodup_range
  named v hv := by simpa using h v hv
  globals := (List.map_congr_left fun v hv => by simp [h v hv]).trans (List.map_id _)

namespace Renumbered

variable {locals numbers elements : List Nat} {count : Nat}

theorem length_eq (h : Renumbered locals numbers elements) : locals.length = elements.length := by
  rw [← h.globals, List.length_map]

/-- Lists of vertices are the same if they have the same numbers. -/
theorem perm_map_iff (h : Renumbered locals numbers elements) {a b : List Nat}
    (ha : ∀ v ∈ a, v < numbers.length) (hb : ∀ v ∈ b, v < numbers.length) :
    (a.map fun v => numbers.getD v 0).Perm (b.map fun v => numbers.getD v 0) ↔ a.Perm b := by
  constructor
  · intro hperm
    have hback : ∀ c : List Nat, (∀ v ∈ c, v < numbers.length) →
        (c.map fun v => numbers.getD v 0).map numbers.idxOf = c := by
      intro c hc
      rw [List.map_map]
      refine (List.map_congr_left fun v hv => ?_).trans (List.map_id c)
      simp [hc v hv, h.nodup.idxOf_getElem v (hc v hv)]
    rw [← hback a ha, ← hback b hb]
    exact hperm.map _
  · exact fun hperm => hperm.map _

variable (hb : Between shape dim sub degree subDegree template)
  (hwhole : elements.length = count * degree) (hregular : Regular shape dim sub elements)

include hb hwhole

theorem of_mem_partsOf (h : Renumbered locals numbers elements) {part : List Nat}
    (hpart : part ∈ partsOf shape dim sub locals) : part.length = subDegree ∧
      (∀ v ∈ part, v < numbers.length) ∧
        part.map (fun v => numbers.getD v 0) ∈ partsOf shape dim sub elements := by
  obtain ⟨hlength, hmem⟩ := hb.of_mem_partsOf (h.length_eq.trans hwhole) hpart
  refine ⟨hlength, fun v hv => h.named v (hmem v hv), ?_⟩
  rw [← h.globals, partsOf_map]
  exact List.mem_map_of_mem hpart

include hregular

theorem skeleton_eq_ok (h : Renumbered locals numbers elements) :
    skeleton locals shape dim sub = .ok (skeletonRecords shape dim sub locals).flatten :=
  hb.skeleton_eq_ok (h.length_eq.trans hwhole) fun _ hpart =>
    (hregular.nodup _ (of_mem_partsOf hb hwhole h hpart).2.2).of_map

/-- The records of the skeleton have canonical forms. -/
theorem acceptable (h : Renumbered locals numbers elements) :
    Acceptable subDegree (skeletonRecords shape dim sub locals).flatten numbers :=
  acceptable_skeleton hb (h.length_eq.trans hwhole) h.named fun _ hpart =>
    hregular.nodup _ (of_mem_partsOf hb hwhole h hpart).2.2

/-- The keys of the records are those of the elements. -/
theorem recordKeys_eq (h : Renumbered locals numbers elements) :
    recordKeys subDegree (skeletonRecords shape dim sub locals).flatten numbers =
      entityKeys shape dim sub subDegree elements := by
  rw [recordKeys, globalRecords_skeleton hb (h.length_eq.trans hwhole), List.map_map,
    skeletonRecords, map_firstSeen fun a ha b hb' => ?_, entityKeys, ← h.globals, partsOf_map,
    List.map_map]
  · simp
  · -- by its vertices or by its key, a part is known to be met again
    obtain ⟨_, ha, ha'⟩ := of_mem_partsOf hb hwhole h ha
    obtain ⟨_, hb₂, hb'⟩ := of_mem_partsOf hb hwhole h hb'
    rw [vertexSet_eq_iff, Function.comp_apply, Function.comp_apply,
      hregular.canonicalForm_eq_iff hb hwhole ha' hb', h.perm_map_iff ha hb₂]

end Renumbered

/-! ## Slices of the elements -/

/-- The elements of a rank, if elements of `degree` vertices are dealt out to `n` ranks. -/
def dealtElements (n degree : Nat) (elements : List Nat) (r : Nat) : List Nat :=
  dealtRecords n degree elements r

section

variable {n : Nat} {elements : List Nat} {count : Nat}

theorem length_dealtElements (hdegree : 0 < degree) (hwhole : elements.length = count * degree)
    {r : Nat} (hr : r < n) :
    (dealtElements n degree elements r).length = (⟨count, n⟩ : Shares).length r * degree :=
  length_dealtRecords hdegree hwhole hr

theorem rows_dealtElements (hdegree : 0 < degree) (hwhole : elements.length = count * degree)
    {r : Nat} (hr : r < n) : rows degree (dealtElements n degree elements r) =
      ((rows degree elements).drop ((⟨count, n⟩ : Shares).first r)).take
        ((⟨count, n⟩ : Shares).length r) :=
  rows_dealtRecords hdegree hwhole hr

theorem flatMap_rows_dealtElements (hn : 0 < n) (hdegree : 0 < degree)
    (hwhole : elements.length = count * degree) :
    (List.range n).flatMap (fun r => rows degree (dealtElements n degree elements r)) =
      rows degree elements :=
  flatMap_rows_dealtRecords hn hdegree hwhole

theorem flatMap_partsOf_dealtElements (hb : Between shape dim sub degree subDegree template)
    (hn : 0 < n) (hwhole : elements.length = count * degree) :
    (List.range n).flatMap (fun r => partsOf shape dim sub (dealtElements n degree elements r)) =
      partsOf shape dim sub elements := by
  simp only [hb.partsOf_eq]
  rw [← flatMap_rows_dealtElements hn hb.degree_pos hwhole, List.flatMap_assoc]

/-- The elements of a rank are as regular as all elements. -/
theorem Regular.dealt (hb : Between shape dim sub degree subDegree template) (hn : 0 < n)
    (hwhole : elements.length = count * degree) (h : Regular shape dim sub elements) {r : Nat}
    (hr : r < n) : Regular shape dim sub (dealtElements n degree elements r) := by
  have hmem : ∀ part ∈ partsOf shape dim sub (dealtElements n degree elements r),
      part ∈ partsOf shape dim sub elements := fun part hpart => by
    rw [← flatMap_partsOf_dealtElements hb hn hwhole]
    exact List.mem_flatMap.2 ⟨r, List.mem_range.2 hr, hpart⟩
  exact ⟨fun part hpart => h.nodup part (hmem part hpart),
    fun a ha b hb' => h.cyclic a (hmem a ha) b (hmem b hb')⟩

/-- The keys of the mesh are those of all slices. -/
theorem entityKeys_dealt (hb : Between shape dim sub degree subDegree template) (hn : 0 < n)
    (hwhole : elements.length = count * degree) :
    ((List.range n).flatMap fun r =>
      entityKeys shape dim sub subDegree (dealtElements n degree elements r)).eraseDups =
        entityKeys shape dim sub subDegree elements := by
  simp only [entityKeys]
  rw [eraseDups_flatMap, ← flatMap_partsOf_dealtElements hb hn hwhole, List.map_flatMap]

end

end SharedMesh
