import SharedMesh.Proofs.Bisection.ExactCuts
import SharedMesh.Proofs.Bisection.Halving

/-!
# Bisection balances the masses

With exact arithmetic, if every group of several ranks that holds points finds a plane with
nearly the target mass below, a level halves the share of each group, up to a part of its
mean (`Arranged.halves_share`). So after all levels every rank has its fair share, up to the
tolerance (`bisect_balances`), whatever the axes are.
-/

namespace SharedMesh

open Route Exact

variable {κ : Type} {n : Nat}

/-! ## Shares of groups -/

/-- The mass of the group of a rank, and how many ranks it has. -/
def shareOf (h : Nat → Holding Exact) (r : Nat) : GroupShare :=
  ⟨(h r).group.size, load Point.weight (h r).group fun s => (h s).points⟩

theorem Group.size_low_add_size_high (g : Group) : g.low.size + g.high.size = g.size := by
  have := congrArg List.length g.low_append_high
  rwa [List.length_append] at this

/-- Points that are not above the plane of a cut are below it. -/
theorem Cut.isAbove_eq_false {c : Cut Exact} {search : Search Exact} (h : c.search = some search)
    (p : Point Exact) :
    decide (c.isAbove p = false) = Scalar.le (c.inertia.distance p) search.plane := by
  rw [isAbove, h, Bool.decide_eq_false]
  exact (congrArg not (lt_eq_not_le _ _)).trans (Bool.not_not _)

/-- A group without points does not miss anything. -/
theorem load_of_no_points {g : Group} {points : Nat → List (Point Exact)}
    (h : ∀ s ∈ g.ranks, points s = []) : load Point.weight g points = 0 := by
  refine List.sum_eq_zero fun sum hsum => ?_
  obtain ⟨s, hs, rfl⟩ := List.mem_map.1 hsum
  rw [h s hs]
  rfl

section

variable [AxisSolver Exact] {ε : ℚ} {steps : Nat} {h : Nat → Holding Exact} {r : Nat}

variable (harranged : Arranged n fun s => (h s).group) (hr : r < n)
  (hmassive : Massive (h r).group fun s => (h s).points)
  (htarget : 1 < (h r).group.size → (∃ s ∈ (h r).group.ranks, (h s).points ≠ []) →
    (levelCut (.number ε) steps h r).OnTarget (h r).group fun s => (h s).points)

include harranged hr hmassive htarget

/-- The first half gets nearly its part of the mass. -/
theorem Arranged.load_low_near (hsize : 1 < (h r).group.size) :
    |load Point.weight (h r).group.low (fun s => (nextHolding (.number ε) steps n h s).points) -
      (h r).group.low.size * (shareOf h r).mean| ≤ ε * (shareOf h r).mean := by
  have hlow := harranged.load_half Point.weight (.number ε) steps hr hsize false
  rw [show (h r).group.half false = (h r).group.low from rfl] at hlow
  rw [hlow]
  by_cases hpoints : ∃ s ∈ (h r).group.ranks, (h s).points ≠ []
  · obtain ⟨search, hsearch, hnear⟩ := htarget hsize hpoints
    rw [levelCut, cutOf_target hmassive, cutOf_allowed hmassive, value_number, value_number,
      ← levelCut] at hnear
    simp only [Cut.isAbove_eq_false hsearch]
    rw [GroupShare.mean, shareOf, ← mul_div_assoc, ← mul_div_assoc, mul_comm _ (load _ _ _)]
    exact hnear
  · push Not at hpoints
    have hmean : (shareOf h r).mean = 0 := by
      rw [GroupShare.mean, shareOf, load_of_no_points hpoints, zero_div]
    rw [load_of_no_points fun s hs => by rw [hpoints s hs]; rfl, hmean]
    simp

/-- What one half has too much the other one lacks. -/
theorem Arranged.load_half_near (hsize : 1 < (h r).group.size) (side : Bool) :
    |load Point.weight ((h r).group.half side)
        (fun s => (nextHolding (.number ε) steps n h s).points) -
      ((h r).group.half side).size * (shareOf h r).mean| ≤ ε * (shareOf h r).mean := by
  have hlow := harranged.load_low_near hr hmassive htarget hsize
  cases side with
  | false => exact hlow
  | true =>
    have hload := load_halves Point.weight
      (fun s => (nextHolding (.number ε) steps n h s).points) (h r).group
    rw [harranged.load_next Point.weight (.number ε) steps hr] at hload
    have hcount : ((h r).group.low.size + (h r).group.high.size : ℚ) = (h r).group.size := by
      exact_mod_cast (h r).group.size_low_add_size_high
    have hpos : (0 : ℚ) < (h r).group.size := by exact_mod_cast Nat.zero_lt_of_lt hsize
    have hmean : (h r).group.size * (shareOf h r).mean =
        load Point.weight (h r).group fun s => (h s).points := mul_div_cancel₀ _ hpos.ne'
    rw [abs_sub_comm] at hlow
    refine le_of_eq_of_le (congrArg abs ?_) hlow
    change load Point.weight (h r).group.high _ - (h r).group.high.size * _ = _
    rw [← hcount, ← hload] at hmean
    linarith

/-- A level halves the shares of the groups. -/
theorem Arranged.halves_share :
    Halves ε (shareOf h r) (shareOf (nextHolding (.number ε) steps n h) r) := by
  have hgroup : (nextHolding (.number ε) steps n h r).group = (h r).group.next r := rfl
  have hhalf : 1 < (h r).group.size → (nextHolding (.number ε) steps n h r).group =
      (h r).group.half ((h r).group.sideOf r) := fun hsize => by
    rw [hgroup, Group.next_eq, if_neg (Nat.not_le.2 hsize)]
  constructor
  case alone =>
    intro hsize
    have hstays : (nextHolding (.number ε) steps n h r).group = (h r).group := by
      rw [hgroup, Group.next]
      exact if_pos hsize
    rw [shareOf, hstays, harranged.load_next Point.weight (.number ε) steps hr]
    rfl
  case size_pos =>
    intro hsize
    rw [shareOf, hhalf hsize]
    exact Group.size_half_pos hsize _
  case size_le =>
    intro hsize
    rw [shareOf, hhalf hsize]
    exact Group.size_half_le _ _
  case near =>
    intro hsize
    rw [shareOf, hhalf hsize]
    exact harranged.load_half_near hr hmassive htarget hsize _

end

/-! ## Given points -/

/-- The points of a rank have the given masses. -/
theorem map_mass_homePoints {α : Type} [Scalar α] (rank : Nat) {coords masses : List α}
    (h : coords.length = masses.length * 3) :
    (homePoints rank coords masses).map Point.mass = masses := by
  have hrows : (masses.zip (Place.own rank masses.length)).length ≤ (rows 3 coords).length := by
    simp [h, Place.own]
  have hown : masses.length ≤ (Place.own rank masses.length).length := by simp [Place.own]
  calc (homePoints rank coords masses).map Point.mass
      = (((rows 3 coords).zip (masses.zip (Place.own rank masses.length))).map Prod.snd).map
          Prod.fst := by
        rw [homePoints, List.map_map, List.map_map]
        rfl
    _ = masses := by rw [List.map_snd_zip hrows, List.map_fst_zip hown]

/-- Masses are positive numbers. -/
theorem WeightedPoints.eq_number_of_mem {coords masses : List Exact} (h : WeightedPoints coords masses)
    {m : Exact} (hm : m ∈ masses) : m = .number m.value ∧ 0 < m.value := by
  obtain ⟨hfinite, hpos⟩ := h.positive m hm
  have hnumber := eq_number hfinite
  rw [hnumber, zero_eq, lt_number, decide_eq_true_eq] at hpos
  exact ⟨hnumber, hpos⟩

/-- The mass of the points of all ranks. -/
def totalMass (n : Nat) (masses : Nat → List Exact) : ℚ :=
  ((List.range n).map fun r => ((masses r).map Exact.value).sum).sum

section

variable [AxisSolver Exact] (settings : BisectionSettings Exact) (coords masses : Nat → List Exact)

omit [AxisSolver Exact] in
theorem totalMass_nonneg {coords masses : Nat → List Exact}
    (h : ∀ r < n, WeightedPoints (coords r) (masses r)) : 0 ≤ totalMass n masses := by
  refine List.sum_nonneg fun sum hsum => ?_
  obtain ⟨r, hr, rfl⟩ := List.mem_map.1 hsum
  refine List.sum_nonneg fun mass hmass => ?_
  obtain ⟨m, hm, rfl⟩ := List.mem_map.1 hmass
  exact ((h r (List.mem_range.1 hr)).eq_number_of_mem hm).2.le

/-- In the course of a bisection, all points have positive masses. -/
theorem massive_heldAfter (h : ∀ r < n, WeightedPoints (coords r) (masses r)) (levels : Nat)
    {r : Nat} (hr : r < n) : Massive (heldAfter settings coords masses n levels r).group
      fun s => (heldAfter settings coords masses n levels s).points := by
  have hb := bisecting_heldAfter settings coords masses h levels
  intro s hs p hp
  have hs := hb.arranged.blocks.lt r hr s hs
  have hgiven := List.mem_map_of_mem (f := Point.mass) (List.mem_of_getElem? (hb.kept s hs p hp))
  have hpoints := h p.origin.rank (hb.origin_lt hs hp).1
  rw [map_mass_homePoints _ hpoints.length_coords] at hgiven
  exact hpoints.eq_number_of_mem hgiven

/-- At first, the group of all ranks holds all mass. -/
theorem shareOf_start (h : ∀ r < n, WeightedPoints (coords r) (masses r)) (r : Nat) :
    shareOf (heldAfter settings coords masses n 0) r = ⟨n, totalMass n masses⟩ := by
  have hranks : (Group.all (Seat.of r n)).ranks = List.range n := by rw [Group.all_of]
  have hsize : (Group.all (Seat.of r n)).size = n := by rw [Group.size, hranks, List.length_range]
  have hload : load Point.weight (Group.all (Seat.of r n)) (fun s =>
      homePoints s (coords s) (masses s)) = totalMass n masses := by
    rw [load, hranks, totalMass]
    refine congrArg List.sum (List.map_congr_left fun s hs => congrArg List.sum ?_)
    conv_rhs => rw [← map_mass_homePoints s (h s (List.mem_range.1 hs)).length_coords, List.map_map]
    rfl
  exact congrArg₂ GroupShare.mk hsize hload

end

/-! ## The law of balance -/

/-- At one level, every group of several ranks that holds points found a plane with nearly the
    target mass below. -/
def OnTarget (n : Nat) (h h' : Nat → Holding Exact) : Prop :=
  ∀ r < n, 1 < (h r).group.size → (∃ s ∈ (h r).group.ranks, (h s).points ≠ []) →
    ∃ cut, (h' r).cuts = cut :: (h r).cuts ∧ cut.OnTarget (h r).group fun s => (h s).points

/-- What bisecting with exact arithmetic promises of the masses: `held` is what the ranks hold
    level by level. -/
structure Balances (n : Nat) (masses : Nat → List Exact) (tolerance : ℚ)
    (held : Nat → Nat → Holding Exact) : Prop where
  /-- A search that ends converged has found a plane with nearly the target mass below. -/
  onTarget_of_converged : ∀ level < halvings n, ∀ r < n, ∀ cut search,
    1 < (held level r).group.size → (held (level + 1) r).cuts = cut :: (held level r).cuts →
    cut.search = some search → search.converged = true →
      cut.OnTarget (held level r).group fun s => (held level s).points
  /-- If all groups find such planes, all ranks have their fair share. -/
  balanced : (∀ level < halvings n, OnTarget n (held level) (held (level + 1))) → ∀ r < n,
    |((held (halvings n) r).points.map Point.weight).sum - totalMass n masses / n| ≤
      tolerance * (totalMass n masses / n)

/-- Each level may miss an equal part of the tolerance. -/
theorem exists_levelTolerance {settings : BisectionSettings Exact} {tolerance : ℚ}
    (h : settings.tolerance = .number tolerance) (hpos : 0 ≤ tolerance) (n : Nat) :
    ∃ ε : ℚ, levelTolerance settings n = .number ε ∧ 0 ≤ ε ∧ halvings n * ε ≤ tolerance := by
  rw [levelTolerance, h, ofNat_eq, number_div]
  split
  · next hlevels =>
    have hcast : (0 : ℚ) < halvings n := by exact_mod_cast hlevels
    exact ⟨_, rfl, div_nonneg hpos hcast.le, (mul_div_cancel₀ _ hcast.ne').le⟩
  · next hlevels =>
    rw [Nat.eq_zero_of_not_pos hlevels]
    exact ⟨tolerance, rfl, hpos, by simpa using hpos⟩

section

variable [AxisSolver Exact] {settings : BisectionSettings Exact} {coords masses : Nat → List Exact}
  {ε : ℚ} (h : ∀ r < n, WeightedPoints (coords r) (masses r))
  (hlevel : levelTolerance settings n = .number ε)

include hlevel

/-- The cut of a level comes first in the list of cuts. -/
theorem cuts_heldAfter_succ {level r : Nat}
    (hsize : 1 < (heldAfter settings coords masses n level r).group.size) :
    (heldAfter settings coords masses n (level + 1) r).cuts =
      levelCut (.number ε) settings.steps (heldAfter settings coords masses n level) r ::
        (heldAfter settings coords masses n level r).cuts := by
  rw [heldAfter_succ, hlevel]
  exact if_neg (Nat.not_le.2 hsize)

include h

theorem halves_heldAfter {level r : Nat} (hr : r < n)
    (htarget : OnTarget n (heldAfter settings coords masses n level)
      (heldAfter settings coords masses n (level + 1))) :
    Halves ε (shareOf (heldAfter settings coords masses n level) r)
      (shareOf (heldAfter settings coords masses n (level + 1)) r) := by
  have harranged := (bisecting_heldAfter settings coords masses h level).arranged
  rw [heldAfter_succ, hlevel]
  refine harranged.halves_share hr (massive_heldAfter settings coords masses h level hr)
    fun hsize hpoints => ?_
  obtain ⟨cut, hcut, honTarget⟩ := htarget r hr hsize hpoints
  rw [cuts_heldAfter_succ hlevel hsize, List.cons.injEq] at hcut
  rwa [hcut.1]

/-- After all levels every rank is alone, with nearly its fair share. -/
theorem heldAfter_near (hε : 0 ≤ ε) (hone : halvings n * ε ≤ 1)
    (htarget : ∀ level < halvings n, OnTarget n (heldAfter settings coords masses n level)
      (heldAfter settings coords masses n (level + 1))) {r : Nat} (hr : r < n) :
    |((heldAfter settings coords masses n (halvings n) r).points.map Point.weight).sum -
      totalMass n masses / n| ≤ halvings n * (ε * (totalMass n masses / n)) := by
  have hchain := @Halves.chain ε (fun level => shareOf (heldAfter settings coords masses n level) r)
    (halvings n) hε fun level hlt => halves_heldAfter h hlevel hr (htarget level hlt)
  simp only [shareOf_start settings coords masses h] at hchain
  obtain ⟨halone, hnear⟩ := hchain (Nat.zero_lt_of_lt hr) le_rfl hone
    (div_nonneg (totalMass_nonneg h) (Nat.cast_nonneg n))
  -- a rank that is alone is its group
  have hmem := (bisecting_heldAfter settings coords masses h (halvings n)).arranged.blocks.mem r hr
  obtain ⟨s, hs⟩ := List.length_eq_one_iff.1 halone
  rw [hs, List.mem_singleton] at hmem
  subst hmem
  have hload : (shareOf (heldAfter settings coords masses n (halvings n)) r).mean =
      ((heldAfter settings coords masses n (halvings n) r).points.map Point.weight).sum := by
    rw [GroupShare.mean, halone, Nat.cast_one, div_one, shareOf, load, hs]
    simp
  rwa [← hload]

end

/-- With exact arithmetic, bisection balances the masses, whatever the axes are. The ranks play
    it if there are no more than `2 ^ 32` of them, and if the points fit in the memory of one. -/
theorem bisect_balances [AxisSolver Exact] [Alphabet κ] [LawfulAlphabet κ] [Layout κ Exact]
    [LawfulLayout κ Exact] (settings : BisectionSettings Exact) {coords masses : Nat → List Exact}
    {tolerance : ℚ} (h : ∀ r < n, WeightedPoints (coords r) (masses r))
    (htolerance : settings.tolerance = .number tolerance) (hpos : 0 ≤ tolerance)
    (hone : tolerance ≤ 1) :
    Balances n masses tolerance (heldAfter settings coords masses n) ∧
      (n ≤ 2 ^ 32 → itemTotal n masses * pointRoom κ Exact < 2 ^ 63 →
        ∃ results, Plays κ n settings coords masses (heldAfter settings coords masses n) results) := by
  obtain ⟨ε, hlevel, hε, hmiss⟩ := exists_levelTolerance htolerance hpos n
  refine ⟨⟨?onTarget_of_converged, ?balanced⟩, fun hn hroom =>
    ⟨_, plays_heldAfter settings h hn hroom⟩⟩
  case onTarget_of_converged =>
    intro level _ r hr cut search hsize hcut hsearch hconverged
    rw [cuts_heldAfter_succ hlevel hsize, List.cons.injEq] at hcut
    rw [← hcut.1] at hsearch ⊢
    exact cutOf_onTarget (massive_heldAfter settings coords masses h level hr) hsearch hconverged
  case balanced =>
    intro htarget r hr
    refine (heldAfter_near h hlevel hε (hmiss.trans hone) htarget hr).trans ?_
    rw [← mul_assoc]
    exact mul_le_mul_of_nonneg_right hmiss
      (div_nonneg (totalMass_nonneg h) (Nat.cast_nonneg n))

/-! ## Points on a line -/

/-- Cells that hold a byte or an exact number. -/
abbrev ExactCell := UInt8 ⊕ Exact

@[reducible] def exactAlphabet : Alphabet ExactCell where
  ofByte := .inl
  toByte cell := cell.elim id fun _ => 0

/-- An exact number takes one cell. -/
@[reducible] def exactLayout : Layout ExactCell Exact where
  size := 1
  encode x := [.inr x]
  decode
    | [.inr x] => x
    | _ => .infinity

/-- All tensors have the first coordinate axis. -/
@[reducible] def firstAxisSolver : AxisSolver Exact := ⟨fun _ => Vec3.firstAxis⟩

attribute [local instance] exactAlphabet exactLayout firstAxisSolver

theorem lawful_exactAlphabet : LawfulAlphabet ExactCell := ⟨fun _ => rfl⟩

theorem lawful_exactLayout : LawfulLayout ExactCell Exact :=
  ⟨Nat.one_pos, fun _ => rfl, fun _ => rfl⟩

attribute [local instance] lawful_exactAlphabet lawful_exactLayout

/-- Two points on the first of three ranks, one on the second and none on the last. -/
def lineCoords (r : Nat) : List Exact :=
  if r = 0 then [.number 0, .number 0, .number 0, .number 3, .number 0, .number 0]
  else if r = 1 then [.number 4, .number 0, .number 0]
  else []

/-- The masses of these points. -/
def lineMasses (r : Nat) : List Exact :=
  if r = 0 then [.number 1, .number 1] else if r = 1 then [.number 1] else []

/-- A tenth of imbalance. -/
def lineSettings : BisectionSettings Exact := ⟨.number (1 / 10), 64⟩

/-- The points of a line are balanced, as all of their groups find planes on target. -/
theorem bisect_balances_line :
    (∀ r < 3, WeightedPoints (lineCoords r) (lineMasses r)) ∧
      lineSettings.tolerance = .number (1 / 10) ∧ (0 : ℚ) ≤ 1 / 10 ∧ (1 / 10 : ℚ) ≤ 1 ∧
      Balances 3 lineMasses (1 / 10) (heldAfter lineSettings lineCoords lineMasses 3) ∧
      (∃ results, Plays ExactCell 3 lineSettings lineCoords lineMasses
        (heldAfter lineSettings lineCoords lineMasses 3) results) ∧
      ∀ level < halvings 3, OnTarget 3 (heldAfter lineSettings lineCoords lineMasses 3 level)
        (heldAfter lineSettings lineCoords lineMasses 3 (level + 1)) := by
  have hpoints : ∀ r < 3, WeightedPoints (lineCoords r) (lineMasses r) := by
    intro r hr
    have : r = 0 ∨ r = 1 ∨ r = 2 := by omega
    rcases this with rfl | rfl | rfl <;> exact ⟨rfl, by decide +kernel, by decide +kernel⟩
  have hroom : itemTotal 3 lineMasses * pointRoom ExactCell Exact < 2 ^ 63 := by
    decide
  obtain ⟨hbalances, hplays⟩ := bisect_balances (κ := ExactCell) lineSettings hpoints rfl
    (by norm_num) (by norm_num)
  refine ⟨hpoints, rfl, by norm_num, by norm_num, hbalances, hplays (by norm_num) hroom,
    fun level hlevel r hr hsize _ => ?_⟩
  have hlevelTolerance : levelTolerance lineSettings 3 = .number (1 / 20) := by decide +kernel
  have hconverged : ∀ level < halvings 3, ∀ r < 3,
      1 < (heldAfter lineSettings lineCoords lineMasses 3 level r).group.size →
        ((levelCut (.number (1 / 20)) 64 (heldAfter lineSettings lineCoords lineMasses 3 level)
          r).search.any (·.converged)) = true := by decide +kernel
  have hcut := cuts_heldAfter_succ hlevelTolerance hsize
  obtain ⟨search, hsearch, htrue⟩ := (Option.any_eq_true _ _).1
    (hconverged level hlevel r hr hsize)
  exact ⟨_, hcut, hbalances.onTarget_of_converged level hlevel r hr _ search hsize hcut hsearch htrue⟩

end SharedMesh
