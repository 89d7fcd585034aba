import SharedMesh.Proofs.Distinct
import SharedMesh.Proofs.Sorting
import SharedMesh.Record.Arrange

/-!
# Items in an order

An order of some items lists the number of each of them once. Brought into the order, the items
are the same ones (`arranged_perm`), and an item is found at the position of its number
(`getElem?_arranged_idxOf`).
-/

namespace SharedMesh

variable {α β : Type} {items : List α} {order : List Nat} {n v : Nat}

theorem arranged_eq_filterMap (items : List α) (order : List Nat) :
    arranged items order = order.filterMap (items[·]?) := by
  simp [arranged]

theorem arranged_range (items : List α) : arranged items (List.range items.length) = items := by
  rw [arranged_eq_filterMap]
  refine List.ext_getElem? fun i => ?_
  rw [getElem?_filterMap fun x hx => by simpa using hx]
  by_cases hi : i < items.length
  · rw [List.getElem?_range hi, Option.bind_some]
  · rw [List.getElem?_eq_none (by simpa using hi), Option.bind_none,
      List.getElem?_eq_none (Nat.le_of_not_lt hi)]

/-- No item is lost. -/
theorem arranged_perm (h : order.Perm (List.range items.length)) :
    (arranged items order).Perm items := by
  have hperm : (arranged items order).Perm (arranged items (List.range items.length)) := by
    rw [arranged_eq_filterMap, arranged_eq_filterMap]
    exact h.filterMap _
  rwa [arranged_range] at hperm

theorem length_arranged (h : order.Perm (List.range items.length)) :
    (arranged items order).length = items.length :=
  (arranged_perm h).length_eq

theorem arranged_map (f : α → β) (items : List α) (order : List Nat) :
    arranged (items.map f) order = (arranged items order).map f := by
  simp only [arranged_eq_filterMap, List.getElem?_map, List.map_filterMap]

/-- An item is found at the position of its number. -/
theorem getElem?_arranged_idxOf (h : order.Perm (List.range items.length)) (hv : v < items.length) :
    (arranged items order)[order.idxOf v]? = items[v]? := by
  have hmem : ∀ i ∈ order, i < items.length := fun i hi => List.mem_range.1 (h.mem_iff.1 hi)
  rw [arranged_eq_filterMap, getElem?_filterMap fun i hi => by simpa using hmem i hi,
    List.getElem?_idxOf (h.mem_iff.2 (List.mem_range.2 hv)), Option.bind_some]

/-- Numbers that are renamed to positions name the items they did. -/
theorem filterMap_arranged_idxOf (h : order.Perm (List.range items.length)) {numbers : List Nat}
    (hnumbers : ∀ v ∈ numbers, v < items.length) :
    (numbers.map order.idxOf).filterMap ((arranged items order)[·]?) =
      numbers.filterMap (items[·]?) := by
  rw [List.filterMap_map]
  exact List.filterMap_congr fun v hv => getElem?_arranged_idxOf h (hnumbers v hv)

theorem idxOf_range (h : v < n) : (List.range n).idxOf v = v := by
  have := List.nodup_range.idxOf_getElem v (by rwa [List.length_range])
  rwa [List.getElem_range] at this

/-- Each number has a position of its own. -/
theorem bijOn_idxOf_order (h : order.Perm (List.range n)) :
    Set.BijOn order.idxOf (Set.Iio n) (Set.Iio n) := by
  have hnodup : order.Nodup := h.nodup_iff.2 List.nodup_range
  have hmem : {x | x ∈ order} = Set.Iio n := Set.ext fun x => h.mem_iff.trans List.mem_range
  have hlength : order.length = n := by rw [h.length_eq, List.length_range]
  have := bijOn_idxOf hnodup
  rwa [hmem, hlength] at this

/-- The positions are those of the numbers in turn. -/
theorem positions_eq (h : order.Perm (List.range n)) :
    positions order = (List.range n).map order.idxOf := by
  have hnodup : (order.map id).Nodup := by
    rw [List.map_id]
    exact h.nodup_iff.2 List.nodup_range
  have hzip : order.zipIdx.Perm ((List.range n).map fun v => (v, order.idxOf v)) := by
    rw [zipIdx_eq_map_idxOf hnodup]
    simpa using h.map _
  have hsorted : ((List.range n).map fun v => (v, order.idxOf v)).Pairwise fun a b => a.1 < b.1 :=
    List.pairwise_map.2 List.pairwise_lt_range
  rw [positions, mergeSort_key_eq_of_perm hzip hsorted, List.map_map]
  rfl

end SharedMesh
