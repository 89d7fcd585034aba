import SharedMesh.Proofs.Bisection.Levels

/-!
# Bisection permutes the points

Weighted points that are bisected are neither lost nor made up: bisection returns on every
rank, the places it reports are the slots of all ranks, each once, and the point that a
place is reported for rests there (`bisect_permutes`). At every level points only move
within the groups of their ranks (`Arranged.movesWithin`). None of this hangs on what the
operations on scalars yield, which only decide on which side of a plane a point lies.
-/

namespace SharedMesh

open Route

variable {κ α : Type} [Scalar α] {n : Nat}

/-! ## Given points -/

/-- Three finite coordinates for every mass, and positive masses. -/
structure WeightedPoints (coords masses : List α) : Prop where
  length_coords : coords.length = masses.length * 3
  finite : ∀ c ∈ coords, Scalar.isFinite c = true
  positive : ∀ m ∈ masses, Scalar.isFinite m = true ∧ Scalar.lt Scalar.zero m = true

theorem WeightedPoints.of_check {coords masses : List α} (h : checkPoints coords masses = .ok ()) :
    WeightedPoints coords masses := by
  by_cases hlength : coords.length = masses.length * 3
  case neg =>
    rw [checkPoints, if_pos hlength] at h
    cases h
  rw [checkPoints, if_neg (not_not_intro hlength)] at h
  cases hcoords : coords.find? fun c => !Scalar.isFinite c with
  | some c =>
    rw [hcoords] at h
    cases h
  | none =>
    cases hmasses : masses.find? fun m => !(Scalar.isFinite m && Scalar.lt Scalar.zero m) with
    | some m =>
      rw [hcoords, hmasses] at h
      cases h
    | none =>
      refine ⟨hlength, fun c hc => ?_, fun m hm => ?_⟩
      · simpa using List.find?_eq_none.1 hcoords c hc
      · simpa using List.find?_eq_none.1 hmasses m hm

theorem WeightedPoints.check {coords masses : List α} (h : WeightedPoints coords masses) :
    checkPoints coords masses = .ok () := by
  have hcoords : coords.find? (fun c => !Scalar.isFinite c) = none :=
    List.find?_eq_none.2 fun c hc => by simp [h.finite c hc]
  have hmasses : masses.find? (fun m => !(Scalar.isFinite m && Scalar.lt Scalar.zero m)) = none :=
    List.find?_eq_none.2 fun m hm => by simp [h.positive m hm]
  rw [checkPoints, if_neg (not_not_intro h.length_coords), hcoords, hmasses]
  rfl

/-- The points of a rank are at home. -/
theorem map_origin_homePoints (rank : Nat) {coords masses : List α}
    (h : coords.length = masses.length * 3) :
    (homePoints rank coords masses).map Point.origin = Place.own rank masses.length := by
  have hrows : (masses.zip (Place.own rank masses.length)).length ≤ (rows 3 coords).length := by
    simp [h, Place.own]
  have hown : (Place.own rank masses.length).length ≤ masses.length := by simp [Place.own]
  calc (homePoints rank coords masses).map Point.origin
      = (((rows 3 coords).zip (masses.zip (Place.own rank masses.length))).map Prod.snd).map
          Prod.snd := by
        rw [homePoints, List.map_map, List.map_map]
        rfl
    _ = Place.own rank masses.length := by
        rw [List.map_snd_zip hrows, List.map_snd_zip hown]

theorem length_homePoints (rank : Nat) {coords masses : List α}
    (h : coords.length = masses.length * 3) :
    (homePoints rank coords masses).length = masses.length := by
  have := congrArg List.length (map_origin_homePoints rank h)
  simpa [Place.own] using this

theorem itemTotal_homePoints {coords masses : Nat → List α}
    (h : ∀ r < n, WeightedPoints (coords r) (masses r)) :
    itemTotal n (fun r => homePoints r (coords r) (masses r)) = itemTotal n masses :=
  congrArg List.sum (List.map_congr_left fun r hr =>
    length_homePoints r (h r (List.mem_range.1 hr)).length_coords)

/-! ## All levels, and home again -/

variable [AxisSolver α] (settings : BisectionSettings α) (coords masses : Nat → List α)

/-- What a level may miss. -/
def levelTolerance (settings : BisectionSettings α) (n : Nat) : α :=
  if 0 < halvings n then settings.tolerance / Scalar.ofNat (halvings n) else settings.tolerance

/-- What the ranks hold after some levels. -/
def heldAfter (n : Nat) (levels : Nat) : Nat → Holding α :=
  (nextHolding (levelTolerance settings n) settings.steps n)^[levels] fun r =>
    ⟨Group.all (Seat.of r n), homePoints r (coords r) (masses r), []⟩

theorem heldAfter_succ (n levels : Nat) : heldAfter settings coords masses n (levels + 1) =
    nextHolding (levelTolerance settings n) settings.steps n
      (heldAfter settings coords masses n levels) :=
  Function.iterate_succ_apply' _ _ _

/-- The points of a rank at the end. -/
def restingPoints (n r : Nat) : List (Point α) :=
  (heldAfter settings coords masses n (halvings n) r).points

/-- What a rank gets from bisecting. -/
def bisected (n r : Nat) : Bisection α where
  places := copies n (fun s => (restingPoints settings coords masses n s).map Point.origin) r
    (masses r).length
  count := (restingPoints settings coords masses n r).length
  cuts := (heldAfter settings coords masses n (halvings n) r).cuts

section

variable (h : ∀ r < n, WeightedPoints (coords r) (masses r))

include h

theorem bisecting_heldAfter (levels : Nat) :
    Bisecting n (fun r => homePoints r (coords r) (masses r))
      (heldAfter settings coords masses n levels) :=
  (Bisecting.start fun r hr => by
    have := (h r hr).length_coords
    rw [map_origin_homePoints r this, length_homePoints r this]).iterate _ _ levels

/-- The points of all ranks call home. -/
theorem fills_origins : Fills n
    (fun r => (restingPoints settings coords masses n r).map Point.origin)
      fun r => (masses r).length := by
  have horigins := (bisecting_heldAfter settings coords masses h (halvings n)).origins
  rw [Fills, slotSet_congr fun r hr => length_homePoints r (h r hr).length_coords] at horigins
  exact horigins

theorem length_places_bisected {r : Nat} (hr : r < n) :
    (bisected settings coords masses n r).places.length = (masses r).length :=
  (fills_origins settings coords masses h).length_copies hr

/-- The points are sent to the slots of all ranks, each once. -/
theorem fills_bisected : Fills n (fun r => (bisected settings coords masses n r).places)
    fun r => (bisected settings coords masses n r).count := by
  have hback := (fills_origins settings coords masses h).copies_fill
  simp only [List.length_map] at hback
  exact hback

theorem itemTotal_restingPoints :
    itemTotal n (restingPoints settings coords masses n) = itemTotal n masses :=
  (bisecting_heldAfter settings coords masses h (halvings n)).itemTotal_eq.trans
    (itemTotal_homePoints h)

variable [Alphabet κ] [LawfulAlphabet κ]

/-- The origins learn where their points are. -/
theorem callHome_together (hn : n ≤ 2 ^ 32) (hroom : itemTotal n masses * 32 < 2 ^ 63) :
    Together n (List.range n)
      (fun r => (do
        let last := heldAfter settings coords masses n (halvings n) r
        let home ← Route.plan (Seat.of r n) (last.points.map Point.origin) (masses r).length
        let places ← home.carryPlaces (Seat.of r n) (Place.own r last.points.length)
        return ⟨places, last.points.length, last.cuts⟩ : Proc κ (Bisection α)).toProgram)
      (fun r => .ok (bisected settings coords masses n r)) := by
  have hfills := fills_origins settings coords masses h
  have htotal : itemTotal n
      (fun r => (restingPoints settings coords masses n r).map Point.origin) =
        itemTotal n masses := by
    rw [← itemTotal_restingPoints settings coords masses h]
    simp only [itemTotal, List.length_map]
  rw [← htotal] at hroom
  refine (plan_together hfills.sound (hfills.fits hroom)).andThen ?_
  refine (carryPlaces_together (paired_planned hfills.sound)
    (hasRoom_of_sum _ _ ?_) (fun r _ => ?_)
      fun r hr p hp => ?_).mapOk.congr (fun _ _ => rfl) fun r hr => congrArg Except.ok ?_
  · have hsize : Layout.size κ PlaceRecord = 16 := rfl
    rw [hsize]
    omega
  · simp [itemCount_planned, Place.own, restingPoints]
  · obtain ⟨i, hi, rfl⟩ := List.mem_map.1 hp
    have hlength := length_le_itemTotal
      (fun r => (restingPoints settings coords masses n r).map Point.origin) hr
    rw [List.length_map] at hlength
    have : i < (restingPoints settings coords masses n r).length := List.mem_range.1 hi
    exact ⟨by simp only; omega, by simp only; omega⟩
  · -- a copy is told its own place
    refine congrArg (Bisection.mk · _ _) ?_
    have hcopies : ∀ q ∈ copies n (fun s =>
        (restingPoints settings coords masses n s).map Point.origin) r (masses r).length,
        q.index < (restingPoints settings coords masses n q.rank).length := fun q hq => by
      obtain ⟨_, _, _, hq⟩ := mem_copies.1 hq
      simpa using (List.getElem?_eq_some_iff.1 hq).1
    simp only [planned, List.map_map]
    refine (List.map_congr_left fun q hq => ?_).trans (List.map_id _)
    have := hcopies q hq
    rw [restingPoints] at this
    simp [Place.own, this]

variable [Layout κ α] [LawfulLayout κ α]

/-- All ranks bisect together. -/
theorem bisect_together (hn : n ≤ 2 ^ 32)
    (hroom : itemTotal n masses * pointRoom κ α < 2 ^ 63) :
    Together n (List.range n)
      (fun r => (bisect (Seat.of r n) settings (coords r) (masses r) :
        Proc κ (Bisection α)).toProgram)
      (fun r => .ok (bisected settings coords masses n r)) := by
  refine Together.ofCheckedThen (a := fun _ => ())
    (fun r hr => (h r (List.mem_range.1 hr)).check) ?_
  refine (bisectLevels_together (levelTolerance settings n) settings.steps
    (bisecting_heldAfter settings coords masses h 0) hn ?_ (halvings n)).andThen ?_
  · rwa [itemTotal_homePoints h]
  · exact callHome_together settings coords masses h hn (arrivals_lt_of_pointRoom hroom)

end

/-! ## Moves -/

/-- Points of the ranks are moved, each to a rank of its rank's group, and stay what they
    are. -/
structure MovesWithin (n : Nat) (h h' : Nat → Holding α) (move : Place → Place) : Prop where
  bijOn : Set.BijOn move (slotSet n fun r => (h r).points.length)
    (slotSet n fun r => (h' r).points.length)
  within : ∀ p ∈ slotSet n (fun r => (h r).points.length), (move p).rank ∈ (h p.rank).group.ranks
  same : ∀ p ∈ slotSet n (fun r => (h r).points.length),
    (h' (move p).rank).points[(move p).index]? = (h p.rank).points[p.index]?

/-- A level moves points within the groups. -/
theorem Arranged.movesWithin (tolerance : α) (steps : Nat) {h : Nat → Holding α}
    (harranged : Arranged n fun r => (h r).group) :
    MovesWithin n h (nextHolding tolerance steps n h)
      (targetAt (levelTargets tolerance steps h)) := by
  have hfills := harranged.fills tolerance steps
  have hlength : ∀ r < n, (h r).points.length = (levelTargets tolerance steps h r).length :=
    fun r _ => (length_levelTargets ..).symm
  have hslots : (slotSet n fun r => (h r).points.length) =
      slotSet n fun r => (levelTargets tolerance steps h r).length := slotSet_congr hlength
  constructor
  case bijOn =>
    rw [hslots, slotSet_congr fun r hr => harranged.length_nextHolding tolerance steps hr]
    exact hfills
  case within =>
    intro p hp
    rw [hslots] at hp
    exact ((harranged.bijOn_levelTargets tolerance steps hp.1).mapsTo
      ⟨harranged.blocks.mem p.rank hp.1, hp.2⟩).1
  case same =>
    intro p hp
    rw [hslots] at hp
    exact hfills.getElem?_moved hlength hp

/-! ## The law of bisection -/

/-- What bisecting weighted points promises: `held` is what the ranks hold level by level,
    and `results` is what they get. -/
structure Permutes (κ : Type) [Alphabet κ] [Layout κ α] (n : Nat) (settings : BisectionSettings α)
    (coords masses : Nat → List α) (held : Nat → Nat → Holding α) (results : Nat → Bisection α) :
    Prop where
  /-- Every rank gets its result, in any order of sends and receives. -/
  returned : (World.start ((List.range n).map fun r =>
      (bisect (κ := κ) (Seat.of r n) settings (coords r) (masses r)).toProgram)).Yields
    ((List.range n).map fun r => .ok (results r))
  /-- Every point is told a place. -/
  length_places : ∀ r < n, (results r).places.length = (masses r).length
  /-- The places are the slots of all ranks, each once. -/
  bijOn : Set.BijOn (targetAt fun r => (results r).places)
    (slotSet n fun r => (masses r).length) (slotSet n fun r => (results r).count)
  /-- The ranks start with all points at home. -/
  held_zero : ∀ r < n, held 0 r = ⟨Group.all (Seat.of r n), homePoints r (coords r) (masses r), []⟩
  /-- Every level is played to its end. -/
  held_succ : ∀ level < halvings n, (World.start ((List.range n).map fun r =>
      (bisectLevel (κ := κ) (Seat.of r n) (levelTolerance settings n) settings.steps
        (held level r)).toProgram)).Yields
    ((List.range n).map fun r => .ok (held (level + 1) r))
  /-- At every level, points only move within their groups. -/
  moves : ∀ level < halvings n, ∃ move, MovesWithin n (held level) (held (level + 1)) move
  /-- After the last level, the ranks hold as many points as they report. -/
  count_eq : ∀ r < n, (results r).count = (held (halvings n) r).points.length
  /-- A point rests at the place that is reported for it. -/
  rests : ∀ p ∈ slotSet n (fun r => (masses r).length),
    let q := targetAt (fun r => (results r).places) p
    (held (halvings n) q.rank).points[q.index]? =
      (homePoints p.rank (coords p.rank) (masses p.rank))[p.index]?

/-- Bisection permutes the points of all ranks, if there are no more than `2 ^ 32` ranks, as ranks
    travel in four bytes, and if the points fit in the memory of a rank. -/
theorem bisect_permutes [Alphabet κ] [LawfulAlphabet κ] [Layout κ α] [LawfulLayout κ α]
    (settings : BisectionSettings α) {coords masses : Nat → List α}
    (h : ∀ r < n, WeightedPoints (coords r) (masses r)) (hn : n ≤ 2 ^ 32)
    (hroom : itemTotal n masses * pointRoom κ α < 2 ^ 63) :
    ∃ held results, Permutes κ n settings coords masses held results := by
  have hfills := fills_origins settings coords masses h
  have hbisecting := bisecting_heldAfter settings coords masses h
  refine ⟨heldAfter settings coords masses n, bisected settings coords masses n, ?_⟩
  constructor
  case returned => exact (bisect_together settings coords masses h hn hroom).yields
  case length_places => exact fun r hr => length_places_bisected settings coords masses h hr
  case bijOn =>
    have hslots := fills_bisected settings coords masses h
    rwa [Fills, slotSet_congr fun r hr => length_places_bisected settings coords masses h hr]
      at hslots
  case held_zero => exact fun _ _ => rfl
  case held_succ =>
    intro level _
    rw [heldAfter_succ]
    refine ((hbisecting level).level_together _ _ hn ?_).yields
    rwa [itemTotal_homePoints h]
  case moves =>
    intro level _
    rw [heldAfter_succ]
    exact ⟨_, (hbisecting level).arranged.movesWithin _ _⟩
  case count_eq => exact fun _ _ => rfl
  case rests =>
    intro p hp
    obtain ⟨q, hq, rfl⟩ := hfills.surjOn hp
    have hplace : targetAt (fun r => (bisected settings coords masses n r).places)
        (targetAt (fun r => (restingPoints settings coords masses n r).map Point.origin) q) = q :=
      hfills.targetAt_copies hq
    have hindex : q.index < (restingPoints settings coords masses n q.rank).length := by
      simpa using hq.2
    have hkept := (hbisecting (halvings n)).kept q.rank hq.1 _ (List.getElem_mem hindex)
    have horigin :
        targetAt (fun r => (restingPoints settings coords masses n r).map Point.origin) q =
          (restingPoints settings coords masses n q.rank)[q.index].origin := by
      simp [targetAt, hindex]
    simp only [hplace]
    rw [horigin, hkept]
    exact List.getElem?_eq_getElem hindex

/-! ## Levels as they are played -/

/-- Bisecting plays level by level, and after the last one the ranks hold as many points as
    they report. -/
structure Plays (κ : Type) [Alphabet κ] [Layout κ α] (n : Nat) (settings : BisectionSettings α)
    (coords masses : Nat → List α) (held : Nat → Nat → Holding α) (results : Nat → Bisection α) :
    Prop where
  held_zero : ∀ r < n, held 0 r = ⟨Group.all (Seat.of r n), homePoints r (coords r) (masses r), []⟩
  held_succ : ∀ level < halvings n, (World.start ((List.range n).map fun r =>
      (bisectLevel (κ := κ) (Seat.of r n) (levelTolerance settings n) settings.steps
        (held level r)).toProgram)).Yields
    ((List.range n).map fun r => .ok (held (level + 1) r))
  returned : (World.start ((List.range n).map fun r =>
      (bisect (κ := κ) (Seat.of r n) settings (coords r) (masses r)).toProgram)).Yields
    ((List.range n).map fun r => .ok (results r))
  count_eq : ∀ r < n, (results r).count = (held (halvings n) r).points.length
  cuts_eq : ∀ r < n, (results r).cuts = (held (halvings n) r).cuts

theorem plays_heldAfter [Alphabet κ] [LawfulAlphabet κ] [Layout κ α] [LawfulLayout κ α]
    (settings : BisectionSettings α) {coords masses : Nat → List α}
    (h : ∀ r < n, WeightedPoints (coords r) (masses r)) (hn : n ≤ 2 ^ 32)
    (hroom : itemTotal n masses * pointRoom κ α < 2 ^ 63) :
    Plays κ n settings coords masses (heldAfter settings coords masses n)
      (bisected settings coords masses n) := by
  constructor
  case held_zero => exact fun _ _ => rfl
  case held_succ =>
    intro level _
    rw [heldAfter_succ]
    refine ((bisecting_heldAfter settings coords masses h level).level_together _ _ hn ?_).yields
    rwa [itemTotal_homePoints h]
  case returned => exact (bisect_together settings coords masses h hn hroom).yields
  case count_eq => exact fun _ _ => rfl
  case cuts_eq => exact fun _ _ => rfl

/-! ## Words as scalars -/

/-- The words are scalars, whose arithmetic wraps around. All but the largest are finite. -/
@[reducible] def wordScalar : Scalar UInt64 where
  neg x := 0 - x
  ofNat := UInt64.ofNat
  infinity := 0xffffffffffffffff
  min x y := if x < y then x else y
  max x y := if y < x then x else y
  abs x := x
  lt x y := x < y
  le x y := x ≤ y
  isFinite x := x ≠ 0xffffffffffffffff
  floor := UInt64.toNat
  text x := toString x.toNat

/-- All tensors have the same axis. -/
@[reducible] def wordAxis : AxisSolver UInt64 := ⟨fun _ => ⟨1, 0, 0⟩⟩

attribute [local instance] wordScalar wordAxis

/-- Two points on the first of three ranks, none on the second and one on the last. -/
def wordCoords (r : Nat) : List UInt64 :=
  if r = 0 then [9, 1, 4, 2, 2, 2] else if r = 2 then [5, 0, 7] else []

/-- The masses of these points. -/
def wordMasses (r : Nat) : List UInt64 := if r = 0 then [3, 1] else if r = 2 then [2] else []

theorem bisect_permutes_words :
    (∀ r < 3, WeightedPoints (wordCoords r) (wordMasses r)) ∧ 3 ≤ 2 ^ 32 ∧
      itemTotal 3 wordMasses * pointRoom UInt8 UInt64 < 2 ^ 63 ∧
        ∃ held results, Permutes UInt8 3 ⟨1, 64⟩ wordCoords wordMasses held results := by
  have hpoints : ∀ r < 3, WeightedPoints (wordCoords r) (wordMasses r) := by
    intro r hr
    have : r = 0 ∨ r = 1 ∨ r = 2 := by omega
    rcases this with rfl | rfl | rfl <;> exact ⟨rfl, by simp [wordCoords, Scalar.isFinite],
      by simp [wordMasses, Scalar.isFinite, Scalar.lt, Scalar.zero, Scalar.ofNat]⟩
  have hsize : itemTotal 3 wordMasses * pointRoom UInt8 UInt64 = 144 := rfl
  have hroom : itemTotal 3 wordMasses * pointRoom UInt8 UInt64 < 2 ^ 63 := by omega
  exact ⟨hpoints, by omega, hroom, bisect_permutes ⟨1, 64⟩ hpoints (by omega) hroom⟩

end SharedMesh
