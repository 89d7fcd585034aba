import SharedMesh.Proofs.Route.Carrying

/-!
# The law of routes

What planning a route and carrying data along it promise together (`Lawful`): whatever the
order of sends and receives, every rank gets a route on which the copies of each root are
the items that name it, in order; data that is carried arrives at the copies of its items;
and what is carried there and back, in either direction, is unchanged.

This holds for all targets that are roots of some rank (`plan_lawful`), as long as what is
planned and carried can be held in memory. Without that, planning stops
(`not_plan_lawful_of_sound`).
-/

namespace SharedMesh.Route

/-- The routes are what the ranks plan, and they carry data to where the targets say. -/
structure Lawful (κ : Type) [Alphabet κ] (n : Nat) (targets : Nat → List Place)
    (roots : Nat → Nat) (routes : Nat → Route) : Prop where
  /-- Every rank gets its route, whose sides are sound. -/
  planned : (World.start ((List.range n).map fun r =>
      (plan (κ := κ) (Seat.of r n) (targets r) (roots r)).toProgram)).Yields
    ((List.range n).map fun r => .ok (routes r))
  sound : ∀ r < n, (routes r).near.check n = .ok () ∧ (routes r).far.check n = .ok ()
  /-- The copies are grouped by the roots of the rank. -/
  rootCount : ∀ r < n, (routes r).far.rootCount = roots r
  groups : ∀ r < n, (routes r).far.places = (List.range (roots r)).flatMap (routes r).far.group
  /-- The group of a root consists of the items of all ranks that name it. -/
  mem_group : ∀ r < n, ∀ root < roots r, ∀ q : Place, q ∈ (routes r).far.group root ↔
    q.rank < n ∧ (targets q.rank)[q.index]? = some ⟨r, root⟩
  /-- Within a group, copies come by the rank and the number of the item. -/
  pairwise_group : ∀ r < n, ∀ root < roots r, ((routes r).far.group root).Pairwise Place.Before
  /-- A copy gets what its item holds, the item that the reversed route names for it. -/
  carried : ∀ {T : Type} [Layout κ T] [LawfulLayout κ T] (width : Nat) (data : Nat → List T),
    0 < width → (∀ r < n, (data r).length = (targets r).length * width) →
    HasRoom κ T n routes width →
    (World.start ((List.range n).map fun r =>
        (carry (κ := κ) (routes r) (Seat.of r n) width (data r)).toProgram)).Yields
      ((List.range n).map fun r => .ok ((routes r).reverse.near.places.flatMap fun q =>
        ((data q.rank).drop (q.index * width)).take width))
  /-- What items hold comes back to them. -/
  there_and_back : ∀ {T : Type} [Layout κ T] [LawfulLayout κ T] (width : Nat)
    (data : Nat → List T),
    0 < width → (∀ r < n, (data r).length = (targets r).length * width) →
    HasRoom κ T n routes width →
    (World.start ((List.range n).map fun r =>
      (carry (κ := κ) (routes r) (Seat.of r n) width (data r)
        >>= carry (routes r).reverse (Seat.of r n) width).toProgram)).Yields
      ((List.range n).map fun r => .ok (data r))
  /-- What copies hold comes back to them. -/
  back_and_there : ∀ {T : Type} [Layout κ T] [LawfulLayout κ T] (width : Nat)
    (data : Nat → List T),
    0 < width → (∀ r < n, (data r).length = (routes r).far.itemCount * width) →
    HasRoom κ T n routes width →
    (World.start ((List.range n).map fun r =>
        (carry (κ := κ) (routes r).reverse (Seat.of r n) width (data r)
          >>= carry (routes r) (Seat.of r n) width).toProgram)).Yields
      ((List.range n).map fun r => .ok (data r))

variable {κ T : Type} {n : Nat} {targets : Nat → List Place} {roots : Nat → Nat}

/-! ## Data in records -/

theorem records_rows (sides : Nat → Side) {width : Nat} (hw : 0 < width) {data : Nat → List T}
    (h : ∀ r < n, (data r).length = (sides r).itemCount * width) :
    Records n sides width fun r => rows width (data r) :=
  fun r hr => ⟨by rw [length_rows, h r hr, Nat.mul_div_cancel _ hw],
    length_of_mem_rows hw (h r hr)⟩

/-- What arrives, value by value. -/
theorem flatten_delivered {width : Nat} (hw : 0 < width) {data : Nat → List T}
    (hdata : ∀ r < n, (data r).length = (targets r).length * width) (r : Nat) :
    (delivered (Route.planned n targets roots) (fun s => rows width (data s)) r).flatten =
      (Route.planned n targets roots r).reverse.near.places.flatMap fun q =>
        ((data q.rank).drop (q.index * width)).take width := by
  rw [show (Route.planned n targets roots r).reverse.near.places =
    copies n targets r (roots r) from places_planned r, List.flatMap_def, delivered]
  refine congrArg List.flatten ?_
  simp only [Route.planned, List.map_map]
  refine List.map_congr_left fun q hq => ?_
  obtain ⟨hq, root, _, hi⟩ := mem_copies.1 hq
  have hi := (List.getElem?_eq_some_iff.1 hi).1
  simp only [Function.comp_apply, List.getD_eq_getElem?_getD, rows, hdata _ hq,
    Nat.mul_div_cancel _ hw]
  rw [getElem?_takeRows _ _ _ hi]
  rfl

/-! ## The law -/

section

variable [Alphabet κ] [LawfulAlphabet κ] {routes : Nat → Route}

/-- Records that are carried along the routes and then along the reversed ones come back. -/
theorem roundTrip_together [Layout κ T] [LawfulLayout κ T] (h : Paired n routes) {width : Nat}
    (hw : 0 < width) (hroom : HasRoom κ T n routes width) {data : Nat → List T}
    (hdata : ∀ r < n, (data r).length = (routes r).near.itemCount * width) :
    Together n (List.range n)
      (fun r => (carry (routes r) (Seat.of r n) width (data r) >>=
        carry (routes r).reverse (Seat.of r n) width : Proc κ (List T)).toProgram)
      (fun r => .ok (data r)) := by
  have hitems := records_rows (fun r => (routes r).near) hw hdata
  have hflatten : ∀ r ∈ List.range n, (rows width (data r)).flatten = data r := fun r hr =>
    flatten_rows hw (hdata r (List.mem_range.1 hr))
  have hback := carry_together h.reverse hw hroom.reverse (records_delivered h hitems)
  refine ((carry_together h hw hroom hitems).congr (fun r hr => by rw [hflatten r hr])
    fun _ _ => rfl).andThen (hback.congr (fun _ _ => rfl) fun r hr => ?_)
  rw [delivered_reverse h hitems (List.mem_range.1 hr), hflatten r hr]

end

/-- The ranks plan lawful routes to all targets that are there. -/
theorem plan_lawful [Alphabet κ] [LawfulAlphabet κ] (h : Sound n targets roots)
    (hfits : Fits n targets roots) : Lawful κ n targets roots (Route.planned n targets roots) := by
  have hpaired := paired_planned h
  constructor
  case planned => exact (plan_together h hfits).yields
  case sound => exact fun r hr => ⟨checkNear_planned h hr, checkFar_planned h hr⟩
  case rootCount => exact fun r _ => rootCount_far_planned r
  case groups =>
    intro r _
    rw [places_planned, copies]
    exact List.flatMap_congr fun root hroot => (group_planned (List.mem_range.1 hroot)).symm
  case mem_group =>
    intro r _ root hroot q
    rw [group_planned hroot, mem_namers]
  case pairwise_group =>
    intro r _ root hroot
    rw [group_planned hroot]
    exact pairwise_namers _
  case carried =>
    intro T _ _ width data hw hdata hroom
    have hitems := records_rows (fun r => (Route.planned n targets roots r).near) hw
      fun r hr => (hdata r hr).trans (by rw [itemCount_planned])
    refine ((carry_together hpaired hw hroom hitems).congr (fun r hr => ?_) fun r _ => ?_).yields
    · rw [flatten_rows hw (hdata r (List.mem_range.1 hr))]
    · rw [flatten_delivered hw hdata]
  case there_and_back =>
    intro T _ _ width data hw hdata hroom
    exact (roundTrip_together hpaired hw hroom fun r hr => by
      rw [itemCount_planned, hdata r hr]).yields
  case back_and_there =>
    intro T _ _ width data hw hdata hroom
    exact (roundTrip_together hpaired.reverse hw hroom.reverse hdata).yields

/-- The targets of two ranks: the first has items for roots of both ranks, the second one
    for a root that an item of the first names twice. -/
def twoRanks (r : Nat) : List Place :=
  if r = 0 then [⟨1, 0⟩, ⟨0, 1⟩, ⟨1, 0⟩] else [⟨1, 0⟩]

theorem plan_lawful_twoRanks :
    Sound 2 twoRanks (fun _ => 2) ∧ Fits 2 twoRanks (fun _ => 2) ∧
      Lawful UInt8 2 twoRanks (fun _ => 2) (Route.planned 2 twoRanks fun _ => 2) := by
  have hsound : Sound 2 twoRanks fun _ => 2 := ⟨by decide, by decide⟩
  have hfits : Fits 2 twoRanks fun _ => 2 := ⟨by decide, by decide, by decide⟩
  exact ⟨hsound, hfits, plan_lawful hsound hfits⟩

/-- It is not enough that the targets are there: a rank that holds too many roots to count
    them stops. -/
theorem not_plan_lawful_of_sound : ¬ ∀ (n : Nat) (targets : Nat → List Place) (roots : Nat → Nat),
    Sound n targets roots → ∃ routes, Lawful UInt8 n targets roots routes := by
  intro h
  have hsound : Sound 1 (fun _ => []) fun _ => 2 ^ 60 := ⟨by simp, by simp⟩
  obtain ⟨routes, hroutes⟩ := h 1 (fun _ => []) (fun _ => 2 ^ 60) hsound
  have hfail := (plan_together_noRoom (κ := UInt8) hsound (by decide) (by decide) (by decide)
    (by decide)).yields.run_eq
  rw [hroutes.planned.run_eq] at hfail
  simp at hfail

end SharedMesh.Route
