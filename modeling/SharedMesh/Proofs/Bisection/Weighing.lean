import SharedMesh.Proofs.Bisection.Permuting

/-!
# What groups hold together

Points have weights, and the ranks of a group hold some weight together (`load`). At one
level a group keeps its load, as its points only move within it (`Arranged.load_next`), and
each of its halves gets the load of the points on its side of the plane (`Arranged.load_half`).
-/

namespace SharedMesh

open Route

variable {α M : Type} [AddCommMonoid M] {n : Nat}

/-- The weight of the points that the ranks of a group hold. -/
def load (weight : Point α → M) (g : Group) (points : Nat → List (Point α)) : M :=
  (g.ranks.map fun r => ((points r).map weight).sum).sum

/-- The weight of the point at a place. -/
def weightAt (weight : Point α → M) (points : Nat → List (Point α)) (p : Place) : M :=
  ((points p.rank)[p.index]?).elim 0 weight

/-- The places on the ranks of a group, as many on each as are counted there. -/
def Group.places (g : Group) (count : Nat → Nat) : List Place :=
  g.ranks.flatMap fun r => Place.own r (count r)

theorem Group.mem_places {g : Group} {count : Nat → Nat} {p : Place} :
    p ∈ g.places count ↔ p.rank ∈ g.ranks ∧ p.index < count p.rank := by
  simp only [places, Place.own, List.mem_flatMap, List.mem_map, List.mem_range]
  constructor
  · rintro ⟨r, hr, i, hi, rfl⟩
    exact ⟨hr, hi⟩
  · rintro ⟨hr, hi⟩
    exact ⟨p.rank, hr, p.index, hi, rfl⟩

theorem Group.nodup_places {g : Group} (hg : g.ranks.Nodup) (count : Nat → Nat) :
    (g.places count).Nodup := by
  rw [places, List.Nodup, List.pairwise_flatMap]
  refine ⟨fun r _ => nodup_own _ _, hg.imp fun hne p hp q hq hpq => hne ?_⟩
  obtain ⟨_, _, rfl⟩ := List.mem_map.1 hp
  obtain ⟨_, _, rfl⟩ := List.mem_map.1 hq
  exact (Place.mk.inj hpq).1

variable (weight : Point α → M) (points : Nat → List (Point α))

/-- Whatever is told of the points of a rank can be told of their places. -/
theorem map_own_points {β : Type} (f : Place → β) (f' : Point α → β) (r : Nat)
    (h : ∀ (i : Nat) (hi : i < (points r).length), f ⟨r, i⟩ = f' (points r)[i]) :
    (Place.own r (points r).length).map f = (points r).map f' := by
  refine List.ext_getElem (by simp [Place.own]) fun i _ hi => ?_
  have hi : i < (points r).length := by simpa using hi
  simp [Place.own, h i hi]

theorem weightAt_getElem {r i : Nat} (hi : i < (points r).length) :
    weightAt weight points ⟨r, i⟩ = weight (points r)[i] := by
  simp [weightAt, hi]

/-- The load of a group, place by place. -/
theorem load_eq_sum_places (g : Group) : load weight g points =
    ((g.places fun r => (points r).length).map (weightAt weight points)).sum := by
  rw [load, Group.places, List.map_flatMap, List.flatMap_def, List.sum_flatten, List.map_map]
  refine congrArg List.sum (List.map_congr_left fun r _ => congrArg List.sum ?_)
  exact (map_own_points points _ _ r fun i hi => weightAt_getElem weight points hi).symm

/-- The load of the points on one side, place by place. -/
theorem load_side_eq_sum_places (isAbove : Point α → Bool) (g : Group) (side : Bool) :
    load weight g (fun r => (points r).filter fun p => isAbove p = side) =
      ((sideItems g (fun r => (points r).map isAbove) side).map (weightAt weight points)).sum := by
  rw [load, sideItems, List.map_flatMap, List.flatMap_def, List.sum_flatten, List.map_map]
  refine congrArg List.sum (List.map_congr_left fun r _ => congrArg List.sum ?_)
  have hpairs := map_own_points points
    (fun p => (aboveAt (fun r => (points r).map isAbove) p, weightAt weight points p))
    (fun x => (isAbove x, weight x)) r fun i hi =>
      Prod.ext (by simp [aboveAt, hi]) (weightAt_getElem weight points hi)
  have hfilter := congrArg (fun pairs => (pairs.filter fun pair => pair.1 = side).map Prod.snd) hpairs
  simp only [List.filter_map, List.map_map] at hfilter
  simp only [ownSide, List.length_map]
  exact hfilter.symm

/-- If points are moved to all places of some ranks, these hold what the points weigh. -/
theorem load_of_bijOn {points' : Nat → List (Point α)} {move : Place → Place} {places : List Place}
    {g : Group} (hplaces : places.Nodup) (hg : g.ranks.Nodup)
    (hmove : Set.BijOn move {p | p ∈ places}
      {q | q.rank ∈ g.ranks ∧ q.index < (points' q.rank).length})
    (hsame : ∀ p ∈ places, (points' (move p).rank)[(move p).index]? = (points p.rank)[p.index]?) :
    load weight g points' = (places.map (weightAt weight points)).sum := by
  have hperm : (places.map move).Perm (g.places fun r => (points' r).length) := by
    refine (List.perm_ext_iff_of_nodup (List.Nodup.map_on (fun p hp q hq => hmove.injOn hp hq)
      hplaces) (Group.nodup_places hg _)).2 fun q => ?_
    rw [Group.mem_places, List.mem_map]
    exact (Set.ext_iff.1 hmove.image_eq q)
  rw [load_eq_sum_places, ← (hperm.map _).sum_eq, List.map_map]
  exact congrArg List.sum (List.map_congr_left fun p hp => congrArg (Option.elim · 0 weight)
    (hsame p hp))

theorem load_append (g g' : Group) : load weight ⟨g.ranks ++ g'.ranks⟩ points =
    load weight g points + load weight g' points := by
  rw [load, List.map_append, List.sum_append]
  rfl

/-- The halves of a group hold together what the group holds. -/
theorem load_halves (g : Group) :
    load weight g.low points + load weight g.high points = load weight g points := by
  rw [← load_append, g.low_append_high]

section

variable [Scalar α] [AxisSolver α] (tolerance : α) (steps : Nat) {h : Nat → Holding α}
  (harranged : Arranged n fun r => (h r).group)

include harranged

/-- A level moves a point of a group to its slot. -/
theorem Arranged.getElem?_nextHolding {p : Place} (hrank : p.rank < n)
    (hindex : p.index < (h p.rank).points.length) :
    (nextHolding tolerance steps n h (levelSlot tolerance steps h p).rank).points[
      (levelSlot tolerance steps h p).index]? = (h p.rank).points[p.index]? := by
  have hmoves := harranged.movesWithin tolerance steps
  rw [← targetAt_levelTargets tolerance steps hindex]
  exact hmoves.same p ⟨hrank, hindex⟩

/-- A group keeps its load. -/
theorem Arranged.load_next {r : Nat} (hr : r < n) :
    load weight (h r).group (fun s => (nextHolding tolerance steps n h s).points) =
      load weight (h r).group fun s => (h s).points := by
  have hbij := harranged.bijOn_levelTargets tolerance steps hr
  have hplaces : {p : Place | p.rank ∈ (h r).group.ranks ∧
      p.index < (levelTargets tolerance steps h p.rank).length} =
        {p | p ∈ (h r).group.places fun s => (h s).points.length} :=
    Set.ext fun p => (and_congr_right fun _ => by rw [length_levelTargets]).trans
      Group.mem_places.symm
  have hslots : {q : Place | q.rank ∈ (h r).group.ranks ∧
      q.index < levelCount tolerance steps h q.rank} = {q | q.rank ∈ (h r).group.ranks ∧
        q.index < (nextHolding tolerance steps n h q.rank).points.length} :=
    Set.ext fun q => and_congr_right fun hq => by
      rw [harranged.length_nextHolding tolerance steps (harranged.blocks.lt r hr _ hq)]
  rw [hplaces, hslots] at hbij
  rw [load_eq_sum_places weight fun s => (h s).points]
  refine load_of_bijOn weight (fun s => (h s).points)
    (Group.nodup_places (harranged.nodup r hr) _) (harranged.nodup r hr) hbij fun p hp => ?_
  obtain ⟨hrank, hindex⟩ := Group.mem_places.1 hp
  exact (harranged.movesWithin tolerance steps).same p ⟨harranged.blocks.lt r hr _ hrank, hindex⟩

/-- A half gets the points on its side of the plane. -/
theorem Arranged.load_half {r : Nat} (hr : r < n) (hsize : 1 < (h r).group.size) (side : Bool) :
    load weight ((h r).group.half side) (fun s => (nextHolding tolerance steps n h s).points) =
      load weight (h r).group fun s => (h s).points.filter fun p =>
        (levelCut tolerance steps h r).isAbove p = side := by
  have hbij := bijOn_side (levelAbove tolerance steps h r) (harranged.nodup r hr) hsize side
  have hslots : {q : Place | q.rank ∈ ((h r).group.half side).ranks ∧
      q.index < slotCount (h r).group (levelAbove tolerance steps h r) q.rank} =
        {q | q.rank ∈ ((h r).group.half side).ranks ∧
          q.index < (nextHolding tolerance steps n h q.rank).points.length} :=
    Set.ext fun q => and_congr_right fun hq => by
      have hmem := Group.mem_of_mem_half hq
      rw [harranged.length_nextHolding tolerance steps (harranged.blocks.lt r hr _ hmem), levelCount,
        harranged.same hr hmem, if_neg (Nat.not_le.2 hsize),
        harranged.levelAbove_eq tolerance steps hr hmem]
  rw [hslots] at hbij
  rw [load_side_eq_sum_places]
  refine load_of_bijOn weight (fun s => (h s).points) (nodup_sideItems (harranged.nodup r hr) side)
    (Group.nodup_half (harranged.nodup r hr) side) hbij fun p hp => ?_
  obtain ⟨hrank, hindex, _⟩ := mem_sideItems.1 hp
  simp only [List.length_map] at hindex
  have hslot : levelSlot tolerance steps h p = slotOf (h r).group (levelAbove tolerance steps h r) p := by
    rw [levelSlot, harranged.same hr hrank, if_neg (Nat.not_le.2 hsize),
      harranged.levelAbove_eq tolerance steps hr hrank]
  rw [← hslot]
  exact harranged.getElem?_nextHolding tolerance steps (harranged.blocks.lt r hr _ hrank) hindex

end

end SharedMesh
