import SharedMesh.Proofs.Curve.Bijection
import SharedMesh.Proofs.Curve.Clouds

/-!
# Sorting along the curve is stable

Keys are sorted without moving equal ones past each other (`sortedBy_stable`), as what sorting
leaves of some items that tie is what it was given (`filter_mergeSort`).

Between two arrangements of a cloud little can differ. The bounding box is that of the points, so
every point keeps its key; sorted keys are the same whatever they were sorted from
(`arranged_sortedBy_perm`); and where no two points share a cell, each key is that of one point,
so that the points come in one order (`arranged_curveOrder_perm`). `order_stable` puts this
together for coordinates in a flat list.
-/

namespace SharedMesh.Hilbert

-- Powers and the order of lists are those of core, also beside Mathlib.
attribute [local instance (high)] instPowNat List.instLE List.decidableLE

/-! ## Stability -/

/-- An order that lists the number of every key once, along which the keys ascend, and equal ones
    are as they were. -/
structure StablySorts (keys : List (List Nat)) (visit : List Nat) : Prop where
  perm : visit.Perm (List.range keys.length)
  ascending : (arranged keys visit).Pairwise (· ≤ ·)
  stable : visit.Pairwise fun i j => keys[i]? = keys[j]? → i < j

/-- Items that tie with each other are not rearranged. -/
theorem filter_mergeSort {β : Type} {le : β → β → Bool}
    (trans : ∀ a b c, le a b = true → le b c = true → le a c = true)
    (total : ∀ a b, (le a b || le b a) = true) (xs : List β) {p : β → Bool}
    (hp : ∀ a b, p a = true → p b = true → le a b = true) :
    (xs.mergeSort le).filter p = xs.filter p := by
  have htie : (xs.filter p).Pairwise fun a b => le a b = true :=
    List.pairwise_of_forall_mem_list fun a ha b hb =>
      hp a b (List.mem_filter.1 ha).2 (List.mem_filter.1 hb).2
  have hsublist : (xs.filter p).Sublist ((xs.mergeSort le).filter p) := by
    have := (List.sublist_mergeSort trans total htie List.filter_sublist).filter p
    rwa [List.filter_filter, funext fun a => Bool.and_self (p a)] at this
  exact (hsublist.eq_of_length ((List.mergeSort_perm xs le).filter p).length_eq.symm).symm

theorem sortedBy_stable (keys : List (List Nat)) : StablySorts keys (sortedBy keys) where
  perm := sortedBy_perm keys
  ascending := pairwise_arranged_sortedBy keys
  stable := by
    rw [sortedBy, List.pairwise_map]
    refine List.pairwise_iff_forall_sublist.2 fun {a b} hab heq => ?_
    have hkey : ∀ x ∈ [a, b], keys[x.2]? = some x.1 := fun x hx =>
      List.mem_zipIdx_iff_getElem?.1 (List.mem_mergeSort.1 (hab.subset hx))
    have hone : b.1 = a.1 := by
      rw [hkey a (by simp), hkey b (by simp)] at heq
      exact (Option.some.inj heq).symm
    -- both are among the pairs with one key, and those are as they were
    have hsame := hab.filter fun x => decide (x.1 = a.1)
    rw [filter_mergeSort words_le_trans words_le_total keys.zipIdx fun x y hx hy => by
      rw [of_decide_eq_true hx, of_decide_eq_true hy]
      exact decide_eq_true (List.le_refl _)] at hsame
    have hpair : [a, b].Sublist keys.zipIdx := by
      have : [a, b].filter (fun x => decide (x.1 = a.1)) = [a, b] := by simp [hone]
      exact this ▸ hsame.trans List.filter_sublist
    have hnumbers := hpair.map Prod.snd
    rw [List.zipIdx_map_snd, ← List.range_eq_range'] at hnumbers
    exact List.pairwise_iff_forall_sublist.1 List.pairwise_lt_range hnumbers

/-- The keys along the order are those of any other arrangement. -/
theorem arranged_sortedBy_perm {keys keys' : List (List Nat)} (h : keys.Perm keys') :
    arranged keys' (sortedBy keys') = arranged keys (sortedBy keys) :=
  List.Perm.eq_of_pairwise (fun _ _ _ _ => List.le_antisymm) (pairwise_arranged_sortedBy keys')
    (pairwise_arranged_sortedBy keys)
    ((arranged_perm (sortedBy_perm keys')).trans (h.symm.trans
      (arranged_perm (sortedBy_perm keys)).symm))

/-! ## Cells of a cloud -/

variable {α : Type} [Scalar α] {dim : Nat} {cloud cloud' : List (List α)}

/-- The cells of the points of a cloud, in the grid over its bounding box. -/
def cloudCells (dim : Nat) (cloud : List (List α)) : List (List Nat) :=
  let lower := lowerCorner dim cloud
  cloud.map (cellOf lower (largestSide lower (upperCorner dim cloud)))

theorem cellAlong_lt (side offset : α) : cellAlong side offset < 2 ^ resolution := by
  rw [cellAlong]
  split
  · exact Nat.lt_of_le_of_lt (Nat.min_le_right _ _) (Nat.sub_one_lt (Nat.two_pow_pos _).ne')
  · exact Nat.two_pow_pos _

theorem cellOf_mem_grid {lower point : List α} (side : α) (hlower : lower.length = dim)
    (hpoint : point.length = dim) : cellOf lower side point ∈ grid resolution dim := by
  refine ⟨by rw [cellOf, List.length_zipWith, hlower, hpoint, Nat.min_self], fun cell hcell => ?_⟩
  obtain ⟨axis, haxis, rfl⟩ := List.mem_iff_getElem.1 hcell
  simp only [cellOf, List.getElem_zipWith]
  exact cellAlong_lt ..

theorem cloudKeys_eq_map_cells (dim : Nat) (cloud : List (List α)) :
    cloudKeys dim cloud = (cloudCells dim cloud).map (keyWords resolution) := by
  rw [cloudCells, List.map_map]
  rfl

theorem cloudCells_mem_grid (h : IsCloud dim cloud) :
    ∀ cell ∈ cloudCells dim cloud, cell ∈ grid resolution dim := by
  intro cell hcell
  obtain ⟨point, hpoint, rfl⟩ := List.mem_map.1 hcell
  exact cellOf_mem_grid _ (length_foldl_zipWith h _ List.length_replicate) (h point hpoint).1

/-- Points of different cells have different keys. -/
theorem nodup_cloudKeys (h : IsCloud dim cloud) (hcells : (cloudCells dim cloud).Nodup) :
    (cloudKeys dim cloud).Nodup := by
  rw [cloudKeys_eq_map_cells]
  exact hcells.map_on fun cell hcell cell' hcell' heq =>
    keyWords_injOn _ _ (cloudCells_mem_grid h cell hcell) (cloudCells_mem_grid h cell' hcell') heq

/-! ## Arrangements of a cloud -/

theorem cloudKeys_perm (hfree : OrderFree α) (h : IsCloud dim cloud) (hperm : cloud.Perm cloud') :
    (cloudKeys dim cloud).Perm (cloudKeys dim cloud') := by
  rw [cloudKeys_eq_map, cloudKeys_eq_map, cloudKey_perm hfree h hperm]
  exact hperm.map _

/-- Where no two points share a cell, they come in one order, however they were arranged. -/
theorem arranged_curveOrder_perm (hfree : OrderFree α) (h : IsCloud dim cloud)
    (hperm : cloud.Perm cloud') (hcells : (cloudCells dim cloud).Nodup) :
    arranged cloud' (curveOrder dim cloud') = arranged cloud (curveOrder dim cloud) := by
  have hvisited := arranged_perm (curveOrder_perm dim cloud)
  have hvisited' := arranged_perm (curveOrder_perm dim cloud')
  have hascending {points : List (List α)} (hpoints : cloud.Perm points) :
      (arranged points (curveOrder dim points)).Pairwise
        fun p q => cloudKey dim cloud p ≤ cloudKey dim cloud q := by
    rw [curveOrder, cloudKeys_eq_map, ← cloudKey_perm hfree h hpoints, ← List.pairwise_map,
      ← arranged_map]
    exact pairwise_arranged_sortedBy _
  have hkeys := nodup_cloudKeys h hcells
  rw [cloudKeys_eq_map] at hkeys
  refine List.Perm.eq_of_pairwise (fun p q hp hq hpq hqp => ?_) (hascending hperm)
    (hascending (.refl _)) (hvisited'.trans (hperm.symm.trans hvisited.symm))
  exact List.inj_on_of_nodup_map hkeys (hperm.mem_iff.2 (hvisited'.mem_iff.1 hp))
    (hvisited.mem_iff.1 hq) (List.le_antisymm hpq hqp)

/-- For one to three axes and any finite points, where minima and maxima do not depend on the
    order of the numbers: the order of the curve is a stable sort of the points by their keys. If
    the points are given in another order, the same keys are found along it, and where no two
    points share a cell, the same points. -/
theorem order_stable (hfree : OrderFree α) (hdim : 0 < dim) (hle : dim ≤ 3)
    (h : IsCloud dim cloud) :
    ∃ found visit, keys dim cloud.flatten = .ok found ∧ order dim cloud.flatten = .ok visit ∧
      found.length = cloud.length ∧ StablySorts found visit ∧
      ∀ cloud', cloud.Perm cloud' → ∃ found' visit',
        keys dim cloud'.flatten = .ok found' ∧ order dim cloud'.flatten = .ok visit' ∧
        arranged found' visit' = arranged found visit ∧
        ((cloudCells dim cloud).Nodup → arranged cloud' visit' = arranged cloud visit) := by
  refine ⟨_, _, keys_flatten hdim hle h, order_flatten hdim hle h, ?_, sortedBy_stable _, ?_⟩
  · rw [cloudKeys_eq_map, List.length_map]
  · intro cloud' hperm
    have h' : IsCloud dim cloud' := h.perm hperm
    exact ⟨_, _, keys_flatten hdim hle h', order_flatten hdim hle h',
      arranged_sortedBy_perm (cloudKeys_perm hfree h hperm), arranged_curveOrder_perm hfree h hperm⟩

/-- The corners of the unit square, in some order. -/
def squareCorners : List (List Exact) :=
  [[.number 1, .number 0], [.number 0, .number 0], [.number 1, .number 1], [.number 0, .number 1]]

/-- The curve visits the corners in one order, also if they are given from the last one to the
    first. -/
theorem order_stable_squareCorners :
    (OrderFree Exact ∧ IsCloud 2 squareCorners ∧ (cloudCells 2 squareCorners).Nodup) ∧
    ∃ found visit visit', keys 2 squareCorners.flatten = .ok found ∧
      order 2 squareCorners.flatten = .ok visit ∧ StablySorts found visit ∧
      order 2 squareCorners.reverse.flatten = .ok visit' ∧
      arranged squareCorners.reverse visit' = arranged squareCorners visit := by
  have hcloud : IsCloud 2 squareCorners := by simp [IsCloud, squareCorners, Scalar.isFinite]
  have hcells : (cloudCells 2 squareCorners).Nodup := by decide +kernel
  obtain ⟨found, visit, hfound, hvisit, _, hstable, hperm⟩ :=
    order_stable orderFree_exact Nat.two_pos (by decide) hcloud
  obtain ⟨_, visit', _, hvisit', _, hpoints⟩ := hperm _ (List.reverse_perm _).symm
  exact ⟨⟨orderFree_exact, hcloud, hcells⟩, found, visit, visit', hfound, hvisit, hstable, hvisit',
    hpoints hcells⟩

end SharedMesh.Hilbert
