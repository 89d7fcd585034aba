import Mathlib.Logic.Function.Iterate
import SharedMesh.Bisection.Recursive
import SharedMesh.Proofs.Bisection.Cutting
import SharedMesh.Proofs.Bisection.Spreading
import SharedMesh.Proofs.Route.Filling

/-!
# Levels of a bisection

What the ranks hold after one level can be told from what all of them held before
(`nextHolding`): each group cuts its points and spreads them over its halves, which fills
the slots of the group (`Arranged.fills`), so that together the points are rearranged
among all ranks. The groups of the next level are arranged again (`Arranged.next`), and
every point still knows its origin (`Bisecting.next`). From this follows what a level does
(`bisectLevel_together`), and by induction what all levels do (`bisectLevels_together`).
-/

namespace SharedMesh

open Route

variable {κ α : Type} {n : Nat}

/-! ## Groups -/

/-- The group of a rank at the next level. A rank that is alone stays so. -/
def Group.next (g : Group) (rank : Nat) : Group := if g.size ≤ 1 then g else g.halfOf rank

theorem Group.next_eq (g : Group) (rank : Nat) :
    g.next rank = if g.size ≤ 1 then g else g.half (g.sideOf rank) := by
  rw [next, halfOf_eq]

/-- The ranks are in groups that all their members know. -/
structure Arranged (n : Nat) (groups : Nat → Group) : Prop where
  blocks : Blocks n fun r => (groups r).ranks
  nodup : ∀ r < n, (groups r).ranks.Nodup

namespace Arranged

variable {groups : Nat → Group}

theorem same (h : Arranged n groups) {r s : Nat} (hr : r < n) (hs : s ∈ (groups r).ranks) :
    groups s = groups r :=
  congrArg Group.mk (h.blocks.same r hr s hs)

/-- At first, all ranks are in one group. -/
theorem all (n : Nat) : Arranged n fun r => Group.all (Seat.of r n) := by
  simp only [Group.all_of]
  exact ⟨⟨fun _ hr => List.mem_range.2 hr, fun _ _ _ hs => List.mem_range.1 hs,
    fun _ _ _ _ => rfl⟩, fun _ _ => List.nodup_range⟩

/-- The halves of arranged groups are arranged. -/
theorem next (h : Arranged n groups) : Arranged n fun r => (groups r).next r := by
  have hsub : ∀ r, ∀ s ∈ ((groups r).next r).ranks, s ∈ (groups r).ranks := by
    intro r s hs
    rw [Group.next_eq] at hs
    split at hs
    · exact hs
    · exact Group.mem_of_mem_half hs
  refine ⟨⟨fun r hr => ?_, fun r hr s hs => h.blocks.lt r hr s (hsub r s hs),
    fun r hr s hs => ?_⟩, fun r hr => ?_⟩
  · rw [Group.next_eq]
    split
    · exact h.blocks.mem r hr
    · exact Group.mem_half_sideOf (h.blocks.mem r hr)
  · -- members of a half are on the same side
    rw [h.same hr (hsub r s hs)]
    rw [Group.next_eq, Group.next_eq]
    rw [Group.next_eq] at hs
    by_cases hsize : (groups r).size ≤ 1
    · rw [if_pos hsize, if_pos hsize]
    · rw [if_neg hsize] at hs
      rw [Group.sideOf_of_mem (h.nodup r hr) hs]
  · rw [Group.next_eq]
    split
    · exact h.nodup r hr
    · exact Group.nodup_half (h.nodup r hr) _

end Arranged

/-! ## Records -/

/-- How many bytes a rank needs for a point that comes to it: those of its record, and not less
    than the four words that its route takes. -/
def pointRoom (κ α : Type) [Alphabet κ] [Layout κ α] : Nat :=
  max (Layout.size κ (PointRecord α)) 32

/-- Records of floating-point numbers are longer than that. -/
example : pointRoom UInt8 Binary64 = 48 := rfl

section

variable {count : Nat} [Alphabet κ] [Layout κ α] (h : count * pointRoom κ α < 2 ^ 63)

include h

theorem records_lt_of_pointRoom : count * Layout.size κ (PointRecord α) < 2 ^ 63 :=
  (Nat.mul_le_mul_left count (le_max_left _ _)).trans_lt h

theorem arrivals_lt_of_pointRoom : count * 32 < 2 ^ 63 :=
  (Nat.mul_le_mul_left count (le_max_right _ _)).trans_lt h

end

/-! ## One level -/

section

variable [Scalar α] [AxisSolver α] (tolerance : α) (steps : Nat) (h : Nat → Holding α)

/-- The cut of the group of a rank. -/
def levelCut (r : Nat) : Cut α := cutOf (h r).group tolerance steps fun s => (h s).points

/-- Which points of a rank are above the cut of another rank's group. -/
def levelAbove (r s : Nat) : List Bool := (h s).points.map (levelCut tolerance steps h r).isAbove

/-- Where the point at a place goes. -/
def levelSlot (p : Place) : Place :=
  if (h p.rank).group.size ≤ 1 then p
  else slotOf (h p.rank).group (levelAbove tolerance steps h p.rank) p

/-- Where the points of a rank go. -/
def levelTargets (r : Nat) : List Place :=
  (Place.own r (h r).points.length).map (levelSlot tolerance steps h)

/-- How many points a rank gets. -/
def levelCount (r : Nat) : Nat :=
  if (h r).group.size ≤ 1 then (h r).points.length
  else slotCount (h r).group (levelAbove tolerance steps h r) r

/-- The cuts of a rank, with that of this level. -/
def levelCuts (r : Nat) : List (Cut α) :=
  if (h r).group.size ≤ 1 then (h r).cuts else levelCut tolerance steps h r :: (h r).cuts

/-- The calls of a group at one level. A rank that is alone makes none. -/
def levelCalls (g : Group) : List UInt16 :=
  if g.size ≤ 1 then []
  else cutCalls g tolerance steps (fun s => (h s).points) ++ [spreadTag, spreadTag]

/-- What a rank of `n` holds after a level. -/
def nextHolding (n : Nat) (h : Nat → Holding α) (r : Nat) : Holding α :=
  ⟨(h r).group.next r, moved n (levelTargets tolerance steps h) (levelCount tolerance steps h)
    (fun s => (h s).points) r, levelCuts tolerance steps h r⟩

variable {h}

theorem length_levelTargets (r : Nat) :
    (levelTargets tolerance steps h r).length = (h r).points.length := by
  simp [levelTargets, Place.own]

theorem levelTargets_eq (r : Nat) : levelTargets tolerance steps h r =
    if (h r).group.size ≤ 1 then Place.own r (h r).points.length
    else (Place.own r (h r).points.length).map
      (slotOf (h r).group (levelAbove tolerance steps h r)) := by
  have hrank : ∀ p ∈ Place.own r (h r).points.length, p.rank = r := fun p hp => by
    obtain ⟨_, _, rfl⟩ := List.mem_map.1 hp
    rfl
  split
  · next hsize =>
    exact (List.map_congr_left fun p hp => by rw [levelSlot, hrank p hp, if_pos hsize]; rfl).trans
      (List.map_id _)
  · next hsize =>
    exact List.map_congr_left fun p hp => by rw [levelSlot, hrank p hp, if_neg hsize]

theorem targetAt_levelTargets {p : Place} (hp : p.index < (h p.rank).points.length) :
    targetAt (levelTargets tolerance steps h) p = levelSlot tolerance steps h p := by
  simp [targetAt, levelTargets, Place.own, hp]

theorem itemTotal_levelTargets : itemTotal n (levelTargets tolerance steps h) =
    itemTotal n fun r => (h r).points := by
  simp only [itemTotal, length_levelTargets]

variable (harranged : Arranged n fun r => (h r).group)

include harranged

/-- The members of a group have one cut. -/
theorem Arranged.levelCut_eq {r s : Nat} (hr : r < n) (hs : s ∈ (h r).group.ranks) :
    levelCut tolerance steps h s = levelCut tolerance steps h r := by
  rw [levelCut, levelCut, harranged.same hr hs]

theorem Arranged.levelAbove_eq {r s : Nat} (hr : r < n) (hs : s ∈ (h r).group.ranks) :
    levelAbove tolerance steps h s = levelAbove tolerance steps h r := by
  funext q
  rw [levelAbove, levelAbove, harranged.levelCut_eq tolerance steps hr hs]

/-- The points of a group fill its slots. -/
theorem Arranged.bijOn_levelTargets {r : Nat} (hr : r < n) :
    Set.BijOn (targetAt (levelTargets tolerance steps h))
      {p | p.rank ∈ (h r).group.ranks ∧ p.index < (levelTargets tolerance steps h p.rank).length}
      {q | q.rank ∈ (h r).group.ranks ∧ q.index < levelCount tolerance steps h q.rank} := by
  have hgroup : ∀ s ∈ (h r).group.ranks, (h s).group = (h r).group := fun s hs =>
    harranged.same hr hs
  simp only [length_levelTargets]
  by_cases hsize : (h r).group.size ≤ 1
  · have hcount : {q : Place | q.rank ∈ (h r).group.ranks ∧
        q.index < levelCount tolerance steps h q.rank} =
          {p | p.rank ∈ (h r).group.ranks ∧ p.index < (h p.rank).points.length} :=
      Set.ext fun q => and_congr_right fun hq => by rw [levelCount, hgroup _ hq, if_pos hsize]
    rw [hcount]
    refine (Set.bijOn_id _).congr fun p hp => ?_
    rw [targetAt_levelTargets _ _ hp.2, levelSlot, hgroup _ hp.1, if_pos hsize]
    rfl
  · have hcount : {q : Place | q.rank ∈ (h r).group.ranks ∧
        q.index < levelCount tolerance steps h q.rank} =
          {q | q.rank ∈ (h r).group.ranks ∧
            q.index < slotCount (h r).group (levelAbove tolerance steps h r) q.rank} :=
      Set.ext fun q => and_congr_right fun hq => by
        rw [levelCount, hgroup _ hq, if_neg hsize, harranged.levelAbove_eq tolerance steps hr hq]
    have hslots := bijOn_slotOf (levelAbove tolerance steps h r) (harranged.nodup r hr)
      (Nat.lt_of_not_le hsize)
    simp only [levelAbove, List.length_map] at hslots
    rw [hcount]
    refine hslots.congr fun p hp => ?_
    rw [targetAt_levelTargets _ _ hp.2, levelSlot, hgroup _ hp.1, if_neg hsize,
      harranged.levelAbove_eq tolerance steps hr hp.1]

/-- The points are rearranged. -/
theorem Arranged.fills : Fills n (levelTargets tolerance steps h) (levelCount tolerance steps h) :=
  Fills.ofBlocks harranged.blocks fun _ hr => harranged.bijOn_levelTargets tolerance steps hr

theorem Arranged.length_nextHolding {r : Nat} (hr : r < n) :
    (nextHolding tolerance steps n h r).points.length = levelCount tolerance steps h r :=
  (harranged.fills tolerance steps).length_moved (fun _ _ => (length_levelTargets ..).symm) hr

/-- On one side of the plane of a group there are no more points than on all ranks. -/
theorem Arranged.length_sideItems_le {r : Nat} (hr : r < n) (side : Bool) :
    (sideItems (h r).group (levelAbove tolerance steps h r) side).length ≤
      itemTotal n fun s => (h s).points := by
  refine length_le_of_subset_items (nodup_sideItems (harranged.nodup r hr) side) fun p hp => ?_
  obtain ⟨hrank, hindex, _⟩ := mem_sideItems.1 hp
  rw [levelAbove, List.length_map] at hindex
  exact ⟨harranged.blocks.lt r hr _ hrank, hindex⟩

variable [Alphabet κ] [LawfulAlphabet κ] [Layout κ α] [LawfulLayout κ α]

/-- The members of a group choose slots for their points in step. -/
theorem chooseSlots_inStep {r : Nat} (hr : r < n)
    (hroom : itemTotal n (fun r => (h r).points) + 1 < 2 ^ 64) :
    InStep n (h r).group
      (fun s => (chooseSlots (Seat.of s n) tolerance steps (h s) : Proc κ _).toProgram)
      (fun s => .ok (levelTargets tolerance steps h s, levelCount tolerance steps h s,
        levelCuts tolerance steps h s)) (levelCalls tolerance steps h (h r).group) := by
  have hgroup : ∀ s ∈ (h r).group.ranks, (h s).group = (h r).group := fun s hs =>
    harranged.same hr hs
  by_cases hsize : (h r).group.size ≤ 1
  · rw [levelCalls, if_pos hsize]
    refine (InStep.done _).congr (fun s hs => ?_) fun _ _ => rfl
    rw [chooseSlots, levelTargets_eq, levelCount, levelCuts, hgroup s hs, if_pos hsize,
      if_pos hsize, if_pos hsize, if_pos hsize]
    rfl
  · have hside : ∀ side, (sideItems (h r).group (levelAbove tolerance steps h r) side).length + 1 <
        2 ^ 64 := fun side =>
      (Nat.succ_le_succ (harranged.length_sideItems_le tolerance steps hr side)).trans_lt hroom
    have hcut := cutGroup_inStep (κ := κ) (harranged.nodup r hr) (harranged.blocks.lt r hr)
      (fun s => (h s).points) tolerance steps
    have hspread := spreadHalves_inStep (κ := κ) (Nat.lt_of_not_le hsize) hside
      (harranged.nodup r hr) (harranged.blocks.lt r hr)
    rw [levelCalls, if_neg hsize]
    refine InStep.congr (p := fun s => (cutGroup (Seat.of s n) (h r).group tolerance steps
      (h s).points >>= fun cut => do
        let slots ← spreadHalves (Seat.of s n) (h r).group ((h s).points.map cut.isAbove)
        return (slots.1, slots.2, cut :: (h s).cuts) : Proc κ _).toProgram)
      (hcut.andThen hspread.mapOk) (fun s hs => ?_) fun s hs => congrArg Except.ok ?_
    · rw [chooseSlots, hgroup s hs, if_neg hsize]
    · rw [levelTargets_eq, levelCount, levelCuts, hgroup s hs, if_neg hsize, if_neg hsize,
        if_neg hsize, harranged.levelCut_eq tolerance steps hr hs,
        harranged.levelAbove_eq tolerance steps hr hs]
      simp only [levelAbove, List.length_map]
      rfl

/-- All ranks choose slots for their points. -/
theorem chooseSlots_together (hroom : itemTotal n (fun r => (h r).points) + 1 < 2 ^ 64) :
    Together n (List.range n)
      (fun r => (chooseSlots (Seat.of r n) tolerance steps (h r) : Proc κ _).toProgram)
      (fun r => .ok (levelTargets tolerance steps h r, levelCount tolerance steps h r,
        levelCuts tolerance steps h r)) :=
  .ofBlocks harranged.blocks fun _ hr =>
    (chooseSlots_inStep tolerance steps harranged hr hroom).together

/-- Once the slots are chosen, all ranks move their points there, and get what they hold
    next. -/
theorem movePoints_together
    (hroom : itemTotal n (fun r => (h r).points) * pointRoom κ α < 2 ^ 63)
    (horigin : ∀ r < n, ∀ p ∈ (h r).points, p.origin.rank < 2 ^ 32 ∧ p.origin.index < 2 ^ 64) :
    Together n (List.range n)
      (fun r => (do
        let route ← Route.plan (Seat.of r n) (levelTargets tolerance steps h r)
          (levelCount tolerance steps h r)
        let records ← route.carry (Seat.of r n) 1 ((h r).points.map Point.toRecord)
        return ⟨(h r).group.next r, records.map Point.ofRecord, levelCuts tolerance steps h r⟩ :
          Proc κ (Holding α)).toProgram)
      (fun r => .ok (nextHolding tolerance steps n h r)) := by
  have hfills := harranged.fills tolerance steps
  have hlength : ∀ r < n, (h r).points.length = (levelTargets tolerance steps h r).length :=
    fun r _ => (length_levelTargets ..).symm
  rw [← itemTotal_levelTargets tolerance steps] at hroom
  have hitems : Records n (fun r => (planned n (levelTargets tolerance steps h)
      (levelCount tolerance steps h) r).near) 1
        fun r => (h r).points.map fun p => [p.toRecord] := by
    refine fun r hr => ⟨?_, fun record hrecord => ?_⟩
    · rw [List.length_map, itemCount_planned, hlength r hr]
    · obtain ⟨p, _, rfl⟩ := List.mem_map.1 hrecord
      rfl
  have hcarry := carry_together (κ := κ) (paired_planned hfills.sound) Nat.one_pos
    (hasRoom_of_sum _ _ (by simpa using records_lt_of_pointRoom hroom)) hitems
  simp only [flatten_singletons, flatten_delivered_singletons] at hcarry
  refine (plan_together hfills.sound (hfills.fits (arrivals_lt_of_pointRoom hroom))).andThen ?_
  refine hcarry.mapOk.congr (fun _ _ => rfl) fun r hr => congrArg Except.ok ?_
  have hread : ((moved n (levelTargets tolerance steps h) (levelCount tolerance steps h)
      (fun s => (h s).points) r).map Point.toRecord).map Point.ofRecord =
        moved n (levelTargets tolerance steps h) (levelCount tolerance steps h)
          (fun s => (h s).points) r := by
    rw [List.map_map]
    refine (List.map_congr_left fun p hp => ?_).trans (List.map_id _)
    obtain ⟨s, hs, hp⟩ := mem_of_mem_moved hp
    exact Point.ofRecord_toRecord (horigin s hs p hp).1 (horigin s hs p hp).2
  rw [hread]
  rfl

/-- All ranks take part in a level, and get what they hold next. -/
theorem bisectLevel_together
    (hroom : itemTotal n (fun r => (h r).points) * pointRoom κ α < 2 ^ 63)
    (horigin : ∀ r < n, ∀ p ∈ (h r).points, p.origin.rank < 2 ^ 32 ∧ p.origin.index < 2 ^ 64) :
    Together n (List.range n)
      (fun r => (bisectLevel (Seat.of r n) tolerance steps (h r) : Proc κ _).toProgram)
      (fun r => .ok (nextHolding tolerance steps n h r)) := by
  refine (chooseSlots_together tolerance steps harranged ?_).andThen
    (movePoints_together tolerance steps harranged hroom horigin)
  have := arrivals_lt_of_pointRoom hroom
  omega

end

/-! ## All levels -/

/-- What the levels of a bisection keep to: the groups are arranged, and of the points that
    were given each is held by one rank, as it was given at its origin. -/
structure Bisecting (n : Nat) (given : Nat → List (Point α)) (h : Nat → Holding α) : Prop where
  arranged : Arranged n fun r => (h r).group
  origins : Fills n (fun r => (h r).points.map Point.origin) fun r => (given r).length
  kept : ∀ r < n, ∀ p ∈ (h r).points, (given p.origin.rank)[p.origin.index]? = some p

namespace Bisecting

variable {given : Nat → List (Point α)} {h : Nat → Holding α}

theorem itemTotal_eq (hb : Bisecting n given h) :
    itemTotal n (fun r => (h r).points) = itemTotal n given := by
  have := hb.origins.sum_length
  simp only [List.length_map] at this
  exact this

theorem origin_lt (hb : Bisecting n given h) {r : Nat} (hr : r < n) {p : Point α}
    (hp : p ∈ (h r).points) :
    p.origin.rank < n ∧ p.origin.index < (given p.origin.rank).length :=
  ⟨hb.origins.sound.rank_lt r hr _ (List.mem_map_of_mem hp),
    hb.origins.sound.index_lt r hr _ (List.mem_map_of_mem hp)⟩

/-- Origins travel in four and eight bytes. -/
theorem origin_fits [Alphabet κ] [Layout κ α] (hb : Bisecting n given h) (hn : n ≤ 2 ^ 32)
    (hroom : itemTotal n given * pointRoom κ α < 2 ^ 63) :
    ∀ r < n, ∀ p ∈ (h r).points, p.origin.rank < 2 ^ 32 ∧ p.origin.index < 2 ^ 64 := by
  intro r hr p hp
  obtain ⟨hrank, hindex⟩ := hb.origin_lt hr hp
  have hlength := length_le_itemTotal given hrank
  have := arrivals_lt_of_pointRoom hroom
  omega

/-- At first, all ranks are in one group, and every point is at home. -/
theorem start (h : ∀ r < n, (given r).map Point.origin = Place.own r (given r).length) :
    Bisecting n given fun r => ⟨Group.all (Seat.of r n), given r, []⟩ := by
  have horigin : ∀ r < n, ∀ (i : Nat) (hi : i < (given r).length),
      (given r)[i].origin = ⟨r, i⟩ := by
    intro r hr i hi
    have := congrArg (·[i]?) (h r hr)
    simpa [Place.own, hi] using this
  refine ⟨Arranged.all n, ?_, fun r hr p hp => ?_⟩
  · simp only [Fills, List.length_map]
    refine (Set.bijOn_id _).congr fun q hq => ?_
    have hindex : q.index < (given q.rank).length := hq.2
    simp [targetAt, hindex, horigin q.rank hq.1]
  · obtain ⟨i, hi, rfl⟩ := List.getElem_of_mem hp
    simp [horigin r hr, hi]

variable [Scalar α] [AxisSolver α] (tolerance : α) (steps : Nat)

/-- A level keeps to it. -/
theorem next (hb : Bisecting n given h) : Bisecting n given (nextHolding tolerance steps n h) := by
  refine ⟨hb.arranged.next, ?_, fun r _ p hp => ?_⟩
  · have hlength : ∀ r < n, ((h r).points.map Point.origin).length =
        (levelTargets tolerance steps h r).length := fun r _ => by
      rw [List.length_map, length_levelTargets]
    have := (hb.arranged.fills tolerance steps).after hb.origins hlength
    rwa [show moved n (levelTargets tolerance steps h) (levelCount tolerance steps h)
      (fun r => (h r).points.map Point.origin) =
        fun r => (nextHolding tolerance steps n h r).points.map Point.origin from
          funext (moved_map _ _)] at this
  · simp only [nextHolding] at hp
    obtain ⟨s, hs, hp⟩ := mem_of_mem_moved hp
    exact hb.kept s hs p hp

/-- Any number of levels keep to it. -/
theorem iterate (hb : Bisecting n given h) (levels : Nat) :
    Bisecting n given ((nextHolding tolerance steps n)^[levels] h) := by
  induction levels generalizing h with
  | zero => exact hb
  | succ levels ih => exact ih (hb.next tolerance steps)

end Bisecting

section

variable [Scalar α] [AxisSolver α] [Alphabet κ] [LawfulAlphabet κ] [Layout κ α] [LawfulLayout κ α]
  (tolerance : α) (steps : Nat) {given : Nat → List (Point α)} {h : Nat → Holding α}

/-- All ranks take part in a level. -/
theorem Bisecting.level_together (hb : Bisecting n given h) (hn : n ≤ 2 ^ 32)
    (hroom : itemTotal n given * pointRoom κ α < 2 ^ 63) :
    Together n (List.range n)
      (fun r => (bisectLevel (Seat.of r n) tolerance steps (h r) : Proc κ _).toProgram)
      (fun r => .ok (nextHolding tolerance steps n h r)) :=
  bisectLevel_together tolerance steps hb.arranged (by rwa [hb.itemTotal_eq])
    (hb.origin_fits hn hroom)

/-- All ranks take part in all levels. -/
theorem bisectLevels_together (hb : Bisecting n given h) (hn : n ≤ 2 ^ 32)
    (hroom : itemTotal n given * pointRoom κ α < 2 ^ 63) (levels : Nat) :
    Together n (List.range n)
      (fun r => (bisectLevels (Seat.of r n) tolerance steps levels (h r) : Proc κ _).toProgram)
      (fun r => .ok ((nextHolding tolerance steps n)^[levels] h r)) := by
  induction levels generalizing h with
  | zero => exact Together.done _
  | succ levels ih =>
    exact (hb.level_together tolerance steps hn hroom).andThen (ih (hb.next tolerance steps))

end

end SharedMesh
