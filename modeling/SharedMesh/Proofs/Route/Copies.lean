import Mathlib.Algebra.BigOperators.Ring.List
import Mathlib.Algebra.Order.BigOperators.Group.List
import Mathlib.Algebra.Order.Group.Nat
import SharedMesh.Proofs.Distinct
import SharedMesh.Proofs.Sorting
import SharedMesh.Route.Plan

/-!
# Copies

Where a route goes can be told from the targets of all ranks alone: a root gets a copy of
every item that names it, in the order of ranks and items (`namers`), and a rank holds the
copies of its roots one root after the other (`copies`). From this follow both sides of the
route on every rank (`planned`), and that they fit together (`Paired`).
-/

namespace SharedMesh

/-- The first of two places by rank, and on one rank by index. -/
def Place.Before (p q : Place) : Prop := p.rank < q.rank ∨ p.rank = q.rank ∧ p.index < q.index

namespace Place

theorem Before.le {p q : Place} (h : p.Before q) : p.le q = true ∧ q.le p = false := by
  refine ⟨le_iff.2 (h.imp id fun h => ⟨h.1, Nat.le_of_lt h.2⟩), ?_⟩
  rw [← Bool.not_eq_true, le_iff]
  rcases h with h | ⟨h, h'⟩ <;> omega

theorem nodup_of_before {places : List Place} (h : places.Pairwise Before) : places.Nodup :=
  h.imp fun hpq heq => by
    subst heq
    rcases hpq with h | ⟨_, h⟩ <;> exact Nat.lt_irrefl _ h

end Place

/-! ## Slots -/

/-- The slots of all ranks, as many on each as are counted there. -/
def slotSet (n : Nat) (count : Nat → Nat) : Set Place := {p | p.rank < n ∧ p.index < count p.rank}

theorem slotSet_congr {n : Nat} {count count' : Nat → Nat} (h : ∀ r < n, count r = count' r) :
    slotSet n count = slotSet n count' :=
  Set.ext fun _ => and_congr_right fun hr => by rw [h _ hr]

/-- The slots of all ranks, in order. -/
def allSlots (n : Nat) (count : Nat → Nat) : List Place :=
  (List.range n).flatMap fun r => Place.own r (count r)

theorem mem_allSlots {count : Nat → Nat} {p : Place} :
    p ∈ allSlots n count ↔ p.rank < n ∧ p.index < count p.rank := by
  simp only [allSlots, Place.own, List.mem_flatMap, List.mem_range, List.mem_map]
  constructor
  · rintro ⟨r, hr, i, hi, rfl⟩
    exact ⟨hr, hi⟩
  · rintro ⟨hr, hi⟩
    exact ⟨p.rank, hr, p.index, hi, rfl⟩

theorem pairwise_allSlots (n : Nat) (count : Nat → Nat) :
    (allSlots n count).Pairwise Place.Before := by
  rw [allSlots, List.pairwise_flatMap]
  constructor
  · intro r _
    exact List.pairwise_map.2 (List.pairwise_lt_range.imp fun hlt => .inr ⟨rfl, hlt⟩)
  · refine List.pairwise_lt_range.imp fun hlt p hp q hq => .inl ?_
    obtain ⟨_, _, rfl⟩ := List.mem_map.1 hp
    obtain ⟨_, _, rfl⟩ := List.mem_map.1 hq
    exact hlt

theorem length_allSlots (n : Nat) (count : Nat → Nat) :
    (allSlots n count).length = ((List.range n).map count).sum := by
  rw [allSlots, List.length_flatMap]
  simp [Place.own]

theorem ncard_slotSet (n : Nat) (count : Nat → Nat) :
    (slotSet n count).ncard = ((List.range n).map count).sum := by
  have hset : slotSet n count = {p | p ∈ allSlots n count} := Set.ext fun _ => mem_allSlots.symm
  rw [hset, ncard_setOf_mem (Place.nodup_of_before (pairwise_allSlots n count)), length_allSlots]

/-- The number of items of all ranks. -/
def itemTotal {β : Type} (n : Nat) (items : Nat → List β) : Nat :=
  ((List.range n).map fun r => (items r).length).sum

theorem length_le_itemTotal {β : Type} {n : Nat} (items : Nat → List β) {r : Nat} (hr : r < n) :
    (items r).length ≤ itemTotal n items :=
  List.le_sum_of_mem (List.mem_map_of_mem (List.mem_range.2 hr))

/-- What is bounded on each rank is bounded on all ranks. -/
theorem itemTotal_mul_le {β γ : Type} {n a b : Nat} {xs : Nat → List β} {ys : Nat → List γ}
    (h : ∀ r < n, (xs r).length * a ≤ (ys r).length * b) :
    itemTotal n xs * a ≤ itemTotal n ys * b := by
  rw [itemTotal, itemTotal, ← List.sum_map_mul_right, ← List.sum_map_mul_right]
  exact List.sum_le_sum fun r hr => h r (List.mem_range.1 hr)

/-- Distinct places of items are not more than the items. -/
theorem length_le_of_subset_items {β : Type} {n : Nat} {items : Nat → List β} {places : List Place}
    (hnodup : places.Nodup) (h : ∀ p ∈ places, p.rank < n ∧ p.index < (items p.rank).length) :
    places.length ≤ itemTotal n items := by
  have hsubset : places ⊆ allSlots n fun r => (items r).length :=
    fun p hp => mem_allSlots.2 (h p hp)
  exact (hnodup.subperm hsubset).length_le.trans_eq (length_allSlots n _)

namespace Route

variable {n : Nat} {targets : Nat → List Place} {roots : Nat → Nat}

/-! ## Which items name a root -/

/-- The items of all ranks that are tagged `b`, such as those whose target is a given root. -/
def namers {β : Type} [DecidableEq β] (n : Nat) (tags : Nat → List β) (b : β) : List Place :=
  (List.range n).flatMap fun r => ((tags r).zipIdx.filter fun x => x.1 = b).map fun x => ⟨r, x.2⟩

/-- The items of all ranks whose targets are among the first `count` roots of `rank`. -/
def copies (n : Nat) (targets : Nat → List Place) (rank count : Nat) : List Place :=
  (List.range count).flatMap fun root => namers n targets ⟨rank, root⟩

theorem mem_namers {β : Type} [DecidableEq β] {tags : Nat → List β} {b : β} {q : Place} :
    q ∈ namers n tags b ↔ q.rank < n ∧ (tags q.rank)[q.index]? = some b := by
  obtain ⟨r, i⟩ := q
  simp only [namers, List.mem_flatMap, List.mem_range, List.mem_map, List.mem_filter,
    decide_eq_true_eq, List.mem_zipIdx_iff_getElem?, Place.mk.injEq]
  constructor
  · rintro ⟨r, hr, x, ⟨hx, rfl⟩, rfl, rfl⟩
    exact ⟨hr, hx⟩
  · rintro ⟨hr, hx⟩
    exact ⟨r, hr, (b, i), ⟨hx, rfl⟩, rfl, rfl⟩

theorem mem_copies {rank count : Nat} {q : Place} : q ∈ copies n targets rank count ↔
    q.rank < n ∧ ∃ root < count, (targets q.rank)[q.index]? = some ⟨rank, root⟩ := by
  simp only [copies, List.mem_flatMap, List.mem_range, mem_namers]
  constructor
  · rintro ⟨root, hroot, hr, h⟩
    exact ⟨hr, root, hroot, h⟩
  · rintro ⟨hr, root, hroot, h⟩
    exact ⟨root, hroot, hr, h⟩

theorem pairwise_zipIdx {α : Type} (xs : List α) (k : Nat) :
    (xs.zipIdx k).Pairwise fun x y => x.2 < y.2 := by
  rw [← List.pairwise_map (f := Prod.snd), List.zipIdx_map_snd]
  exact List.pairwise_lt_range'

/-- The items with a tag come in order. -/
theorem pairwise_namers {β : Type} [DecidableEq β] {tags : Nat → List β} (b : β) :
    (namers n tags b).Pairwise Place.Before := by
  rw [namers, List.pairwise_flatMap]
  constructor
  · intro r _
    rw [List.pairwise_map]
    exact ((pairwise_zipIdx _ 0).filter _).imp fun h => .inr ⟨rfl, h⟩
  · refine List.pairwise_lt_range.imp fun hrs x hx y hy => .inl ?_
    obtain ⟨_, _, rfl⟩ := List.mem_map.1 hx
    obtain ⟨_, _, rfl⟩ := List.mem_map.1 hy
    exact hrs

/-- An item has one target, so there is one copy of it. -/
theorem nodup_copies (rank count : Nat) : (copies n targets rank count).Nodup := by
  rw [copies, List.Nodup, List.pairwise_flatMap]
  refine ⟨fun root _ => Place.nodup_of_before (pairwise_namers _), ?_⟩
  refine List.pairwise_lt_range.imp fun hlt p hp q hq hpq => ?_
  subst hpq
  have := (mem_namers.1 hp).2.symm.trans (mem_namers.1 hq).2
  simp only [Option.some.injEq, Place.mk.injEq, true_and] at this
  omega

/-- Every copy on a rank is one of the items of all ranks. -/
theorem length_copies_le_sum (targets : Nat → List Place) (rank count : Nat) :
    (copies n targets rank count).length ≤ itemTotal n targets := by
  refine length_le_of_subset_items (nodup_copies rank count) fun q hq => ?_
  obtain ⟨hrank, root, _, hroot⟩ := mem_copies.1 hq
  exact ⟨hrank, (List.getElem?_eq_some_iff.1 hroot).1⟩

theorem copies_succ (rank count : Nat) : copies n targets rank (count + 1) =
    copies n targets rank count ++ namers n targets ⟨rank, count⟩ := by
  simp [copies, List.range_succ]

theorem length_copies_le (rank : Nat) {k m : Nat} (h : k ≤ m) :
    (copies n targets rank k).length ≤ (copies n targets rank m).length := by
  induction h with
  | refl => exact Nat.le_refl _
  | step _ ih =>
    rw [copies_succ, List.length_append]
    exact Nat.le_add_right_of_le ih

/-- The copies on a rank, numbered, root by root. -/
theorem zipIdx_copies (s count : Nat) : (copies n targets s count).zipIdx =
    (List.range count).flatMap fun root =>
      (namers n targets ⟨s, root⟩).zipIdx (copies n targets s root).length := by
  induction count with
  | zero => rfl
  | succ count ih =>
    rw [copies_succ, List.zipIdx_append, ih, List.range_succ, List.flatMap_append,
      List.flatMap_singleton, Nat.zero_add]

/-! ## The planned route -/

/-- The route between the items and the roots, as `rank` is to know it. -/
def planned (n : Nat) (targets : Nat → List Place) (roots : Nat → Nat) (rank : Nat) : Route where
  near :=
    { links := (targets rank).zipIdx.map fun x =>
        ⟨x.1.rank, x.1.index, (copies n targets x.1.rank (roots x.1.rank)).idxOf ⟨rank, x.2⟩⟩
      fan := List.range ((targets rank).length + 1) }
  far :=
    { links := (copies n targets rank (roots rank)).map fun q => ⟨q.rank, q.index, q.index⟩
      fan := (List.range (roots rank + 1)).map fun k => (copies n targets rank k).length }

theorem itemCount_planned (r : Nat) :
    (planned n targets roots r).near.itemCount = (targets r).length := by
  simp [planned, Side.itemCount]

theorem itemCount_far_planned (r : Nat) :
    (planned n targets roots r).far.itemCount = (copies n targets r (roots r)).length := by
  simp [planned, Side.itemCount]

theorem rootCount_far_planned (r : Nat) :
    (planned n targets roots r).far.rootCount = roots r := by
  simp [planned, Side.rootCount]

/-- The origins of the copies, in the order in which they landed. -/
theorem places_planned (rank : Nat) :
    (planned n targets roots rank).far.places = copies n targets rank (roots rank) := by
  simp [planned, Side.places, Function.comp_def]

end Route

/-! ## Fans -/

namespace Side

/-- The counterparts of the items that belong to a root. -/
def group (s : Side) (root : Nat) : List Place :=
  (s.places.take (s.fan.getD (root + 1) 0)).drop (s.fan.getD root 0)

theorem zip_tail_map_range (f : Nat → Nat) (m : Nat) :
    ((List.range (m + 1)).map f).zip ((List.range (m + 1)).map f).tail =
      (List.range m).map fun k => (f k, f (k + 1)) :=
  List.ext_getElem (by simp) fun i _ _ => by simp

/-- How many items each root has, in a fan that is given by how many items come before
    each root. -/
theorem fanCounts_map_range {s : Side} {f : Nat → Nat} {m : Nat}
    (h : s.fan = (List.range (m + 1)).map f) :
    s.fanCounts = (List.range m).map fun k => f (k + 1) - f k := by
  rw [fanCounts, h]
  exact List.ext_getElem (by simp) fun i _ _ => by simp

/-- A side is sound if its fan counts the items before each root. -/
theorem check_eq_ok {s : Side} {size m : Nat} {f : Nat → Nat}
    (h : s.fan = (List.range (m + 1)).map f) (hzero : f 0 = 0) (hlast : f m = s.itemCount)
    (hmono : ∀ k < m, f k ≤ f (k + 1)) (hrank : ∀ l ∈ s.links, l.rank < size) :
    s.check size = .ok () := by
  have hsound : s.fanIsSound = true := by
    rw [fanIsSound, h, zip_tail_map_range]
    simpa [List.getLast?_range, List.head?_range, hzero, hlast, List.all_eq_true] using hmono
  have hfind : s.links.find? (fun l => decide (size ≤ l.rank)) = none :=
    List.find?_eq_none.2 fun l hl => by simpa using hrank l hl
  rw [check, hsound, hfind]
  rfl

end Side

namespace Route

variable {n : Nat} {targets : Nat → List Place} {roots : Nat → Nat}

/-- The copies of a root are the items that name it. -/
theorem group_planned {rank root : Nat} (h : root < roots rank) :
    (planned n targets roots rank).far.group root = namers n targets ⟨rank, root⟩ := by
  have hinitial : ∀ m, root < m → copies n targets rank (root + 1) <+: copies n targets rank m := by
    intro m hm
    induction hm with
    | refl => exact List.prefix_rfl
    | @step m _ ih =>
      rw [copies_succ rank m]
      exact ih.trans (List.prefix_append _ _)
  obtain ⟨rest, hrest⟩ := hinitial _ h
  have hfan : ∀ k ≤ roots rank, (planned n targets roots rank).far.fan.getD k 0 =
      (copies n targets rank k).length := by
    intro k hk
    simp [planned, Nat.lt_succ_of_le hk]
  rw [Side.group, places_planned, hfan _ h, hfan _ (Nat.le_of_lt h), ← hrest,
    List.take_left, copies_succ, List.drop_left]

/-! ## The two sides -/

/-- The targets are roots of ranks of a world of `n`. -/
structure Sound (n : Nat) (targets : Nat → List Place) (roots : Nat → Nat) : Prop where
  rank_lt : ∀ r < n, ∀ p ∈ targets r, p.rank < n
  index_lt : ∀ r < n, ∀ p ∈ targets r, p.index < roots p.rank

/-- The counterpart of every item on one side is on the other side, and is linked back. -/
def Meets (n : Nat) (sides others : Nat → Side) : Prop :=
  ∀ r < n, ∀ (i : Nat) (l : Link), (sides r).links[i]? = some l → l.rank < n ∧
    ∃ l' : Link, (others l.rank).links[l.slot]? = some l' ∧ l'.rank = r ∧ l'.slot = i

/-- The near sides and the far sides of the routes of all ranks are linked to each other. -/
def Paired (n : Nat) (routes : Nat → Route) : Prop :=
  Meets n (fun r => (routes r).near) (fun r => (routes r).far) ∧
    Meets n (fun r => (routes r).far) (fun r => (routes r).near)

theorem Paired.reverse {routes : Nat → Route} (h : Paired n routes) :
    Paired n fun r => (routes r).reverse :=
  h.symm

theorem paired_planned (h : Sound n targets roots) : Paired n (planned n targets roots) := by
  constructor
  · intro r hr i l hl
    simp only [planned, List.getElem?_map, Option.map_eq_some_iff] at hl
    obtain ⟨⟨p, i⟩, hp, rfl⟩ := hl
    have hi := List.getElem?_eq_some_iff.1 hp
    obtain ⟨hi, hpi⟩ := hi
    rw [List.getElem_zipIdx, Prod.mk.injEq, Nat.zero_add] at hpi
    obtain ⟨rfl, rfl⟩ := hpi
    have hi : i < (targets r).length := by simpa using hi
    have hmem : (targets r)[i] ∈ targets r := List.getElem_mem hi
    have hcopy : (⟨r, i⟩ : Place) ∈ copies n targets (targets r)[i].rank
        (roots (targets r)[i].rank) :=
      mem_copies.2 ⟨hr, _, h.index_lt r hr _ hmem, List.getElem?_eq_getElem hi⟩
    refine ⟨h.rank_lt r hr _ hmem, ⟨r, i, i⟩, ?_, rfl, rfl⟩
    simp only [planned, List.getElem?_map, Option.map_eq_some_iff]
    exact ⟨⟨r, i⟩, List.getElem?_idxOf hcopy, rfl⟩
  · intro s hs j l hl
    simp only [planned, List.getElem?_map, Option.map_eq_some_iff] at hl
    obtain ⟨q, hq, rfl⟩ := hl
    obtain ⟨hrank, root, _, hroot⟩ := mem_copies.1 (List.mem_of_getElem? hq)
    refine ⟨hrank, ⟨s, root, j⟩, ?_, rfl, rfl⟩
    obtain ⟨hi, hi'⟩ := List.getElem?_eq_some_iff.1 hroot
    obtain ⟨hj, rfl⟩ := List.getElem?_eq_some_iff.1 hq
    simp only [planned, List.getElem?_map, List.getElem?_zipIdx, hroot, Option.map_some,
      Nat.zero_add]
    rw [(nodup_copies s (roots s)).idxOf_getElem j hj]

theorem checkNear_planned (h : Sound n targets roots) {r : Nat} (hr : r < n) :
    (planned n targets roots r).near.check n = .ok () := by
  refine Side.check_eq_ok (f := id) (m := (targets r).length) (List.map_id _).symm rfl
    (by simp [planned, Side.itemCount]) (fun k _ => Nat.le_succ k) fun l hl => ?_
  obtain ⟨i, hi⟩ := List.mem_iff_getElem?.1 hl
  exact ((paired_planned h).1 r hr i l hi).1

theorem checkFar_planned (h : Sound n targets roots) {r : Nat} (hr : r < n) :
    (planned n targets roots r).far.check n = .ok () := by
  refine Side.check_eq_ok (m := roots r) rfl rfl (by simp [planned, Side.itemCount])
    (fun k _ => length_copies_le r (Nat.le_succ k)) fun l hl => ?_
  obtain ⟨j, hj⟩ := List.mem_iff_getElem?.1 hl
  exact ((paired_planned h).2 r hr j l hj).1

end Route

end SharedMesh
