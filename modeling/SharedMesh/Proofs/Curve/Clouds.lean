import SharedMesh.Curve.Order
import SharedMesh.Proofs.Record.Arranging
import SharedMesh.Proofs.Scalar.Picking

/-!
# Clouds along the curve

The order in which the curve visits a cloud is a stable sort of the points by their keys: it lists
every point once (`sortedBy_perm`), along it the keys ascend (`pairwise_arranged_sortedBy`), and
points whose keys ascend stay as they are (`sortedBy_of_pairwise`).

Keys depend on the bounding box of the cloud. Where minima and maxima do not depend on the order
in which numbers come (`OrderFree`), the box is that of the points, however they are arranged
(`cloudKey_perm`). So once a cloud is in the order of the curve, it stays in it
(`pairwise_cloudKeys_arranged`).
-/

namespace SharedMesh

-- The order of lists is that of core, also beside Mathlib.
attribute [local instance (high)] instPowNat List.instLE List.decidableLE

/-- Minima and maxima of finite numbers do not depend on the order in which these come. -/
structure OrderFree (α : Type) [Scalar α] : Prop where
  least_perm : ∀ {xs ys : List α}, (∀ x ∈ xs, Scalar.isFinite x = true) → xs.Perm ys →
    Scalar.least xs = Scalar.least ys
  greatest_perm : ∀ {xs ys : List α}, (∀ x ∈ xs, Scalar.isFinite x = true) → xs.Perm ys →
    Scalar.greatest xs = Scalar.greatest ys

/-- Exact numbers are picked however they are arranged. -/
theorem orderFree_exact : OrderFree Exact where
  least_perm _ hperm := orders_le.foldl_perm _ hperm
  greatest_perm _ hperm := orders_le.swap.foldl_perm _ hperm

namespace Hilbert

/-! ## Sorting by keys -/

section

variable {keys : List (List Nat)}

theorem sortedBy_perm (keys : List (List Nat)) :
    (sortedBy keys).Perm (List.range keys.length) := by
  have hperm := (List.mergeSort_perm keys.zipIdx fun a b => decide (a.1 ≤ b.1)).map Prod.snd
  rwa [List.zipIdx_map_snd, ← List.range_eq_range'] at hperm

/-- Along the order, the keys are those that were sorted. -/
theorem arranged_sortedBy (keys : List (List Nat)) : arranged keys (sortedBy keys) =
    (keys.zipIdx.mergeSort fun a b => decide (a.1 ≤ b.1)).map Prod.fst := by
  rw [arranged_eq_filterMap, sortedBy, List.filterMap_map, ← List.filterMap_eq_map]
  refine List.filterMap_congr fun x hx => ?_
  exact List.mem_zipIdx_iff_getElem?.1 (List.mem_mergeSort.1 hx)

theorem words_le_trans (a b c : List Nat × Nat) (hab : decide (a.1 ≤ b.1) = true)
    (hbc : decide (b.1 ≤ c.1) = true) : decide (a.1 ≤ c.1) = true := by
  rw [decide_eq_true_eq] at *
  exact List.le_trans hab hbc

theorem words_le_total (a b : List Nat × Nat) :
    (decide (a.1 ≤ b.1) || decide (b.1 ≤ a.1)) = true := by
  rw [Bool.or_eq_true_iff, decide_eq_true_eq, decide_eq_true_eq]
  exact List.le_total _ _

theorem pairwise_arranged_sortedBy (keys : List (List Nat)) :
    (arranged keys (sortedBy keys)).Pairwise (· ≤ ·) := by
  rw [arranged_sortedBy, List.pairwise_map]
  exact (List.pairwise_mergeSort words_le_trans words_le_total _).imp of_decide_eq_true

/-- Where the keys ascend, nothing is moved. -/
theorem sortedBy_of_pairwise (h : keys.Pairwise (· ≤ ·)) :
    sortedBy keys = List.range keys.length := by
  rw [sortedBy, List.mergeSort_of_pairwise, List.zipIdx_map_snd, List.range_eq_range']
  rw [← List.zipIdx_map_fst 0 keys, List.pairwise_map] at h
  exact h.imp fun hle => decide_eq_true hle

end

/-! ## Bounding boxes -/

variable {α : Type} [Scalar α] {dim : Nat} {cloud cloud' : List (List α)}

/-- The points of a cloud have one coordinate along each axis, all of them finite. -/
def IsCloud (dim : Nat) (cloud : List (List α)) : Prop :=
  ∀ point ∈ cloud, point.length = dim ∧ ∀ x ∈ point, Scalar.isFinite x = true

theorem IsCloud.perm (h : IsCloud dim cloud) (hperm : cloud.Perm cloud') : IsCloud dim cloud' :=
  fun point hpoint => h point (hperm.mem_iff.2 hpoint)

/-- The coordinates of the points along an axis. -/
def column (cloud : List (List α)) (axis : Nat) : List α := cloud.filterMap (·[axis]?)

theorem IsCloud.finite_column (h : IsCloud dim cloud) (axis : Nat) :
    ∀ x ∈ column cloud axis, Scalar.isFinite x = true := by
  intro x hx
  obtain ⟨point, hpoint, hx⟩ := List.mem_filterMap.1 hx
  exact (h point hpoint).2 x (List.mem_of_getElem? hx)

theorem length_foldl_zipWith (h : IsCloud dim cloud) (f : α → α → α) {start : List α}
    (hstart : start.length = dim) : (cloud.foldl (List.zipWith f) start).length = dim := by
  induction cloud generalizing start with
  | nil => exact hstart
  | cons point cloud ih =>
    refine ih (fun p hp => h p (List.mem_cons_of_mem _ hp)) ?_
    rw [List.length_zipWith, hstart, (h point List.mem_cons_self).1, Nat.min_self]

/-- Points are folded along each axis by itself. -/
theorem getElem?_foldl_zipWith (h : IsCloud dim cloud) (f : α → α → α) {start : List α}
    {axis : Nat} (haxis : axis < dim) : (cloud.foldl (List.zipWith f) start)[axis]? =
      start[axis]?.map ((column cloud axis).foldl f) := by
  induction cloud generalizing start with
  | nil => simp [column]
  | cons point cloud ih =>
    have hlt : axis < point.length := (h point List.mem_cons_self).1.symm ▸ haxis
    have hx : point[axis]? = some point[axis] := List.getElem?_eq_getElem hlt
    have hcolumn : column (point :: cloud) axis = point[axis] :: column cloud axis :=
      List.filterMap_cons_some hx
    rw [List.foldl_cons, ih fun p hp => h p (List.mem_cons_of_mem _ hp), List.getElem?_zipWith, hx,
      hcolumn]
    cases start[axis]? <;> rfl

theorem foldl_zipWith_perm (h : IsCloud dim cloud) (hperm : cloud.Perm cloud') (f : α → α → α)
    (start : α) (hf : ∀ axis < dim,
      (column cloud axis).foldl f start = (column cloud' axis).foldl f start) :
    cloud.foldl (List.zipWith f) (List.replicate dim start) =
      cloud'.foldl (List.zipWith f) (List.replicate dim start) := by
  have hlength : (List.replicate dim start).length = dim := List.length_replicate
  refine List.ext_getElem? fun axis => ?_
  by_cases haxis : axis < dim
  · rw [getElem?_foldl_zipWith h f haxis, getElem?_foldl_zipWith (h.perm hperm) f haxis,
      List.getElem?_replicate_of_lt haxis, Option.map_some, Option.map_some, hf axis haxis]
  · have hle : dim ≤ axis := Nat.le_of_not_lt haxis
    rw [List.getElem?_eq_none (by rwa [length_foldl_zipWith h f hlength]),
      List.getElem?_eq_none (by rwa [length_foldl_zipWith (h.perm hperm) f hlength])]

/-- The key of a point in the bounding box of a cloud. -/
def cloudKey (dim : Nat) (cloud : List (List α)) (point : List α) : List Nat :=
  keyWords resolution (cellOf (lowerCorner dim cloud)
    (largestSide (lowerCorner dim cloud) (upperCorner dim cloud)) point)

theorem cloudKeys_eq_map (dim : Nat) (cloud : List (List α)) :
    cloudKeys dim cloud = cloud.map (cloudKey dim cloud) := rfl

/-- The box of a cloud does not depend on the arrangement of its points. -/
theorem cloudKey_perm (hfree : OrderFree α) (h : IsCloud dim cloud) (hperm : cloud.Perm cloud') :
    cloudKey dim cloud = cloudKey dim cloud' := by
  have hlower : lowerCorner dim cloud = lowerCorner dim cloud' :=
    foldl_zipWith_perm h hperm _ _ fun axis _ =>
      hfree.least_perm (h.finite_column axis) (hperm.filterMap _)
  have hupper : upperCorner dim cloud = upperCorner dim cloud' :=
    foldl_zipWith_perm h hperm _ _ fun axis _ =>
      hfree.greatest_perm (h.finite_column axis) (hperm.filterMap _)
  funext point
  rw [cloudKey, cloudKey, hlower, hupper]

/-! ## The order of a cloud -/

/-- The order in which the curve visits the points of a cloud. -/
def curveOrder (dim : Nat) (cloud : List (List α)) : List Nat := sortedBy (cloudKeys dim cloud)

theorem curveOrder_perm (dim : Nat) (cloud : List (List α)) :
    (curveOrder dim cloud).Perm (List.range cloud.length) := by
  have := sortedBy_perm (cloudKeys dim cloud)
  rwa [cloudKeys_eq_map, List.length_map] at this

/-- A cloud in the order of the curve has ascending keys. -/
theorem pairwise_cloudKeys_arranged (hfree : OrderFree α) (h : IsCloud dim cloud) :
    (cloudKeys dim (arranged cloud (curveOrder dim cloud))).Pairwise (· ≤ ·) := by
  rw [cloudKeys_eq_map, ← cloudKey_perm hfree h (arranged_perm (curveOrder_perm dim cloud)).symm,
    ← arranged_map]
  exact pairwise_arranged_sortedBy _

theorem curveOrder_of_pairwise (h : (cloudKeys dim cloud).Pairwise (· ≤ ·)) :
    curveOrder dim cloud = List.range cloud.length := by
  rw [curveOrder, sortedBy_of_pairwise h, cloudKeys_eq_map, List.length_map]

/-- The coordinates of a cloud are read point by point. -/
theorem points_flatten (hdim : 0 < dim) (hle : dim ≤ 3) (h : IsCloud dim cloud) :
    points dim cloud.flatten = .ok cloud := by
  have hlength : ∀ point ∈ cloud, point.length = dim := fun point hpoint => (h point hpoint).1
  have hfind : cloud.flatten.find? (fun c => !Scalar.isFinite c) = none := by
    refine List.find?_eq_none.2 fun x hx => ?_
    obtain ⟨point, hpoint, hx⟩ := List.mem_flatten.1 hx
    simp [(h point hpoint).2 x hx]
  have hmod : cloud.flatten.length % dim = 0 := by
    rw [length_flatten_of_width hlength, Nat.mul_mod_left]
  rw [points, if_neg (by omega), if_neg (not_not_intro hmod), hfind, rows_flatten hdim hlength]
  rfl

theorem keys_flatten (hdim : 0 < dim) (hle : dim ≤ 3) (h : IsCloud dim cloud) :
    keys dim cloud.flatten = .ok (cloudKeys dim cloud) := by
  rw [keys, points_flatten hdim hle h]
  rfl

theorem order_flatten (hdim : 0 < dim) (hle : dim ≤ 3) (h : IsCloud dim cloud) :
    order dim cloud.flatten = .ok (curveOrder dim cloud) := by
  rw [order, keys_flatten hdim hle h]
  rfl

end Hilbert

end SharedMesh
