import SharedMesh.Proofs.Network.Blocks
import SharedMesh.Proofs.Route.Answering

/-!
# Routes that fill the roots

A route fills its roots if every root is the target of one item (`Fills`). Then what is
carried along it is only rearranged: each item is found at its target
(`Fills.getElem?_moved`), and no rank has anything else (`Fills.length_moved`).

Blocks of ranks fill their roots on their own (`Fills.ofBlocks`), and items that know where
their home is still know it after they moved (`Fills.after`).
-/

namespace SharedMesh.Route

variable {κ T : Type} {n : Nat} {targets : Nat → List Place} {roots : Nat → Nat}

theorem hasRoom_of_sum [Layout κ T] (targets : Nat → List Place) (roots : Nat → Nat) {width : Nat}
    (h : itemTotal n targets * width * Layout.size κ T < 2 ^ 63) :
    HasRoom κ T n (planned n targets roots) width := by
  intro r hr
  have hbound : ∀ k ≤ itemTotal n targets, k * width * Layout.size κ T < 2 ^ 63 := fun k hk =>
    (Nat.mul_le_mul_right _ (Nat.mul_le_mul_right _ hk)).trans_lt h
  rw [itemCount_planned, itemCount_far_planned]
  exact ⟨hbound _ (length_le_itemTotal targets hr), hbound _ (length_copies_le_sum _ _ _)⟩

/-! ## Filling -/

/-- Every root is the target of one item. -/
def Fills (n : Nat) (targets : Nat → List Place) (roots : Nat → Nat) : Prop :=
  Set.BijOn (targetAt targets) (slotSet n fun r => (targets r).length) (slotSet n roots)

theorem getElem?_targetAt {q : Place} (h : q.index < (targets q.rank).length) :
    (targets q.rank)[q.index]? = some (targetAt targets q) := by
  simp [targetAt, h]

namespace Fills

theorem sound (h : Fills n targets roots) : Sound n targets roots := by
  have hmem : ∀ r < n, ∀ p ∈ targets r, p ∈ slotSet n roots := by
    intro r hr p hp
    obtain ⟨i, hi, rfl⟩ := List.getElem_of_mem hp
    have := h.mapsTo (show (⟨r, i⟩ : Place) ∈ slotSet n _ from ⟨hr, hi⟩)
    simpa [targetAt, hi] using this
  exact ⟨fun r hr p hp => (hmem r hr p hp).1, fun r hr p hp => (hmem r hr p hp).2⟩

/-- There are as many items as roots. -/
theorem sum_length (h : Fills n targets roots) :
    ((List.range n).map fun r => (targets r).length).sum = ((List.range n).map roots).sum := by
  rw [← ncard_slotSet, ← ncard_slotSet, ← h.image_eq, h.injOn.ncard_image]

theorem roots_le (h : Fills n targets roots) {r : Nat} (hr : r < n) :
    roots r ≤ itemTotal n targets := by
  rw [itemTotal, h.sum_length]
  exact List.le_sum_of_mem (List.mem_map_of_mem (List.mem_range.2 hr))

/-- A route can be planned if the items of all ranks could arrive on one. -/
theorem fits (h : Fills n targets roots) (hroom : itemTotal n targets * 32 < 2 ^ 63) :
    Fits n targets roots := by
  refine ⟨fun r hr => ?_, fun r hr => ?_, fun r _ => ?_⟩
  · have := h.roots_le hr
    omega
  · have := length_le_itemTotal targets hr
    omega
  · have := length_copies_le_sum (n := n) targets r (roots r)
    omega

/-- A root is named by the one item whose target it is. -/
theorem namers_eq (h : Fills n targets roots) {q : Place}
    (hq : q ∈ slotSet n fun r => (targets r).length) :
    namers n targets (targetAt targets q) = [q] := by
  refine List.perm_singleton.1 ((List.perm_ext_iff_of_nodup
    (Place.nodup_of_before (pairwise_namers _)) (List.nodup_singleton q)).2 fun p => ?_)
  rw [List.mem_singleton]
  constructor
  · intro hp
    obtain ⟨hrank, hindex⟩ := mem_namers.1 hp
    exact h.injOn ⟨hrank, (List.getElem?_eq_some_iff.1 hindex).1⟩ hq (targetAt_of_mem_namers hp)
  · rintro rfl
    exact mem_namers.2 ⟨hq.1, getElem?_targetAt hq.2⟩

/-- The copies on a rank are the items whose targets are its roots, root by root. -/
theorem exists_copies_eq (h : Fills n targets roots) : ∃ source : Place → Place,
    (∀ q ∈ slotSet n fun r => (targets r).length, source (targetAt targets q) = q) ∧
      ∀ r < n, copies n targets r (roots r) = (Place.own r (roots r)).map source := by
  refine ⟨Function.invFunOn (targetAt targets) (slotSet n fun r => (targets r).length),
    fun q hq => h.invOn_invFunOn.1 hq, fun r hr => ?_⟩
  rw [copies, Place.own, List.map_map, List.map_eq_flatMap]
  refine List.flatMap_congr fun k hk => ?_
  obtain ⟨q, hq, htarget⟩ := h.surjOn (show (⟨r, k⟩ : Place) ∈ slotSet n roots from
    ⟨hr, List.mem_range.1 hk⟩)
  rw [Function.comp_apply, ← htarget, h.namers_eq hq, h.invOn_invFunOn.1 hq]

theorem length_copies (h : Fills n targets roots) {r : Nat} (hr : r < n) :
    (copies n targets r (roots r)).length = roots r := by
  obtain ⟨source, _, hcopies⟩ := h.exists_copies_eq
  rw [hcopies r hr]
  simp [Place.own]

/-- An item is the copy in the slot of its target. -/
theorem getElem?_copies (h : Fills n targets roots) {q : Place}
    (hq : q ∈ slotSet n fun r => (targets r).length) :
    (copies n targets (targetAt targets q).rank (roots (targetAt targets q).rank))[
      (targetAt targets q).index]? = some q := by
  obtain ⟨source, hsource, hcopies⟩ := h.exists_copies_eq
  obtain ⟨hrank, hindex⟩ := h.mapsTo hq
  rw [hcopies _ hrank, List.getElem?_map, Place.own, List.getElem?_map,
    List.getElem?_range hindex]
  exact congrArg some (hsource q hq)

/-- Blocks of ranks that fill their roots on their own. -/
theorem ofBlocks {block : Nat → List Nat} (hblocks : Blocks n block)
    (h : ∀ r < n, Set.BijOn (targetAt targets)
      {p | p.rank ∈ block r ∧ p.index < (targets p.rank).length}
      {q | q.rank ∈ block r ∧ q.index < roots q.rank}) : Fills n targets roots := by
  have hself : ∀ p ∈ slotSet n fun r => (targets r).length,
      p ∈ {q : Place | q.rank ∈ block p.rank ∧ q.index < (targets q.rank).length} :=
    fun p hp => ⟨hblocks.mem p.rank hp.1, hp.2⟩
  refine ⟨fun p hp => ?_, fun p hp q hq hpq => ?_, fun q hq => ?_⟩
  · obtain ⟨hmem, hindex⟩ := (h p.rank hp.1).mapsTo (hself p hp)
    exact ⟨hblocks.lt p.rank hp.1 _ hmem, hindex⟩
  · -- items with one target are of one block
    have hp' := (h p.rank hp.1).mapsTo (hself p hp)
    have hq' := (h q.rank hq.1).mapsTo (hself q hq)
    rw [hpq] at hp'
    have hsame := hblocks.eq_of_mem hp.1 hq.1 hp'.1 hq'.1
    have hq := hself q hq
    rw [← hsame] at hq
    exact (h p.rank hp.1).injOn (hself p hp) hq hpq
  · obtain ⟨p, hp, hpq⟩ := (h q.rank hq.1).surjOn ⟨hblocks.mem q.rank hq.1, hq.2⟩
    exact ⟨p, ⟨hblocks.lt q.rank hq.1 _ hp.1, hp.2⟩, hpq⟩

/-- The copy in the slot of an item's target is that item. -/
theorem targetAt_copies (h : Fills n targets roots) {q : Place}
    (hq : q ∈ slotSet n fun r => (targets r).length) :
    targetAt (fun r => copies n targets r (roots r)) (targetAt targets q) = q := by
  rw [targetAt, List.getD_eq_getElem?_getD, h.getElem?_copies hq, Option.getD_some]

/-- The way back fills the items. -/
theorem copies_fill (h : Fills n targets roots) :
    Fills n (fun r => copies n targets r (roots r)) fun r => (targets r).length := by
  have hslots : (slotSet n fun r => (copies n targets r (roots r)).length) = slotSet n roots :=
    slotSet_congr fun r hr => h.length_copies hr
  have hleft : Set.LeftInvOn (targetAt fun r => copies n targets r (roots r)) (targetAt targets)
      (slotSet n fun r => (targets r).length) := fun q hq => h.targetAt_copies hq
  rw [Fills, hslots]
  refine Set.BijOn.symm ⟨fun p hp => ?_, hleft⟩ h
  obtain ⟨q, hq, rfl⟩ := h.surjOn hp
  rw [h.targetAt_copies hq]

end Fills

/-! ## What is moved -/

/-- What is on a rank after the items moved to their targets. -/
def moved (n : Nat) (targets : Nat → List Place) (roots : Nat → Nat) (items : Nat → List T)
    (r : Nat) : List T :=
  (copies n targets r (roots r)).filterMap fun q => (items q.rank)[q.index]?

theorem moved_map {β : Type} (f : T → β) (items : Nat → List T) (r : Nat) :
    moved n targets roots (fun s => (items s).map f) r = (moved n targets roots items r).map f := by
  simp only [moved, List.map_filterMap, List.getElem?_map]

/-- Only what was there before is moved. -/
theorem mem_of_mem_moved {items : Nat → List T} {r : Nat} {x : T}
    (hx : x ∈ moved n targets roots items r) : ∃ s < n, x ∈ items s := by
  obtain ⟨q, hq, hx⟩ := List.mem_filterMap.1 hx
  exact ⟨q.rank, (mem_copies.1 hq).1, List.mem_of_getElem? hx⟩

/-- Records of one value are delivered as they are moved. -/
theorem flatten_delivered_singletons {β : Type} (f : T → β) (items : Nat → List T) (r : Nat) :
    (delivered (planned n targets roots) (fun s => (items s).map fun x => [f x]) r).flatten =
      (moved n targets roots items r).map f := by
  rw [delivered_planned, ← List.flatMap_def, moved, List.map_filterMap,
    List.filterMap_eq_flatMap_toList]
  refine List.flatMap_congr fun q _ => ?_
  rw [List.getD_eq_getElem?_getD, List.getElem?_map]
  cases (items q.rank)[q.index]? <;> rfl

theorem isSome_of_mem_copies {items : Nat → List T}
    (hitems : ∀ r < n, (items r).length = (targets r).length) {r : Nat} :
    ∀ q ∈ copies n targets r (roots r), ((items q.rank)[q.index]?).isSome := by
  intro q hq
  obtain ⟨hrank, root, _, hroot⟩ := mem_copies.1 hq
  have hindex := (List.getElem?_eq_some_iff.1 hroot).1
  rw [← hitems _ hrank] at hindex
  simp [hindex]

/-- Records of any width are delivered as they are moved. -/
theorem delivered_eq_moved {items : Nat → List (List T)}
    (hitems : ∀ r < n, (items r).length = (targets r).length) (r : Nat) :
    delivered (planned n targets roots) items r = moved n targets roots items r := by
  rw [delivered_planned, moved, ← List.filterMap_eq_map]
  refine List.filterMap_congr fun q hq => ?_
  obtain ⟨record, hrecord⟩ := Option.isSome_iff_exists.1 (isSome_of_mem_copies hitems q hq)
  simp [hrecord]

namespace Fills

variable {items : Nat → List T} (h : Fills n targets roots)
  (hitems : ∀ r < n, (items r).length = (targets r).length)

include h hitems

theorem length_moved {r : Nat} (hr : r < n) : (moved n targets roots items r).length = roots r := by
  rw [moved, List.filterMap_length_eq_length.2 (isSome_of_mem_copies hitems), h.length_copies hr]

/-- There are as many items as before. -/
theorem itemTotal_moved : itemTotal n (moved n targets roots items) = itemTotal n items := by
  have hroots : itemTotal n (moved n targets roots items) = ((List.range n).map roots).sum :=
    congrArg List.sum (List.map_congr_left fun r hr => h.length_moved hitems (List.mem_range.1 hr))
  rw [hroots, ← h.sum_length]
  exact congrArg List.sum (List.map_congr_left fun r hr => (hitems r (List.mem_range.1 hr)).symm)

/-- An item is found at its target. -/
theorem getElem?_moved {q : Place} (hq : q ∈ slotSet n fun r => (targets r).length) :
    (moved n targets roots items (targetAt targets q).rank)[(targetAt targets q).index]? =
      (items q.rank)[q.index]? := by
  rw [moved, getElem?_filterMap (isSome_of_mem_copies hitems), h.getElem?_copies hq]
  rfl

end Fills

/-- Items that know a home each still do after they moved. -/
theorem Fills.after {homes : Nat → List Place} {counts : Nat → Nat} (h : Fills n targets roots)
    (hhomes : Fills n homes counts) (hlength : ∀ r < n, (homes r).length = (targets r).length) :
    Fills n (moved n targets roots homes) counts := by
  have hslots : (slotSet n fun r => (moved n targets roots homes r).length) =
      targetAt targets '' slotSet n fun r => (targets r).length :=
    (slotSet_congr fun r hr => h.length_moved hlength hr).trans h.image_eq.symm
  have hitems : (slotSet n fun r => (targets r).length) = slotSet n fun r => (homes r).length :=
    slotSet_congr fun r hr => (hlength r hr).symm
  rw [Fills, hslots, ← Set.bijOn_comp_iff h.injOn]
  have hmoved : Set.BijOn (targetAt homes) (slotSet n fun r => (targets r).length)
      (slotSet n counts) := hitems ▸ hhomes
  refine hmoved.congr fun q hq => ?_
  rw [Function.comp_apply, targetAt, targetAt, List.getD_eq_getElem?_getD,
    List.getD_eq_getElem?_getD, h.getElem?_moved hlength hq]

end SharedMesh.Route
