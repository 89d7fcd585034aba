import SharedMesh.Proofs.Bisection.ExactCuts
import SharedMesh.Proofs.Scalar.Picking

/-!
# Bounds of a group's points

The members of a group reduce the distances of their points to the smallest and to the largest
one: the first of them in some order (`pickFirst`). What is picked from all of them is a
distance that comes before all others (`Orders.bound_eq`). So if the points lie at distances
between two that are met (`Spans`), a cut starts its search with these (`cutOf_eq`).
-/

namespace SharedMesh

open Exact

/-! ## What ranks pick -/

/-- Single numbers are reduced to what is picked from them. -/
theorem headD_reduced_singletons (pick : Exact → Exact → Exact) (f : Nat → Exact) (r : Nat)
    (ranks : List Nat) : (reduced pick (fun r => [f r]) (r :: ranks)).headD Scalar.zero =
      (ranks.map f).foldl pick (f r) := by
  have hfold : ∀ x, ranks.foldl (fun sofar r => sofar.zipWith pick [f r]) [x] =
      [(ranks.map f).foldl pick x] := by
    induction ranks with
    | nil => exact fun _ => rfl
    | cons s ranks ih => exact fun x => ih (pick x (f s))
  rw [reduced, hfold]
  rfl

namespace Orders

variable {before : Exact → Exact → Bool}

/-- What some ranks pick from a number of each is one of these, and comes before all. -/
theorem reduced_spec (h : Orders before) (f : Nat → Exact) {ranks : List Nat} (hne : ranks ≠ []) :
    (∃ r ∈ ranks, f r = (reduced (pickFirst before) (fun r => [f r]) ranks).headD Scalar.zero) ∧
      ∀ r ∈ ranks, before
        ((reduced (pickFirst before) (fun r => [f r]) ranks).headD Scalar.zero) (f r) = true := by
  obtain ⟨r, ranks, rfl⟩ := List.exists_cons_of_ne_nil hne
  have hspec := h.foldl_spec (f r) (ranks.map f)
  rwa [← headD_reduced_singletons, ← List.map_cons, List.mem_map, List.forall_mem_map] at hspec

/-- The members of a group pick the number that comes before all others of the group. -/
theorem bound_eq (h : Orders before) {start bound : Exact} {ranks : List Nat}
    {values : Nat → List Exact} (hmem : ∃ r ∈ ranks, bound ∈ values r)
    (hfirst : ∀ r ∈ ranks, ∀ x ∈ values r, before bound x = true)
    (hstart : before bound start = true) :
    (reduced (pickFirst before) (fun r => [(values r).foldl (pickFirst before) start])
      ranks).headD Scalar.zero = bound := by
  obtain ⟨s, hs, hbound⟩ := hmem
  obtain ⟨⟨r, hr, hpicked⟩, hbefore⟩ := h.reduced_spec
    (fun r => (values r).foldl (pickFirst before) start) (List.ne_nil_of_mem hs)
  refine h.antisymm ?_ ?_
  · exact h.trans (hbefore s hs) ((h.foldl_spec _ _).2 bound (List.mem_cons_of_mem _ hbound))
  · rw [← hpicked]
    rcases List.mem_cons.1 (h.foldl_spec start (values r)).1 with heq | hmem
    · rwa [heq]
    · exact hfirst r hr _ hmem

end Orders

/-! ## Bounds of cuts -/

/-- The points of a group lie at distances from `low` to `high`, and at both of these. -/
structure Spans (g : Group) (points : Nat → List (Point Exact)) (inertia : Inertia Exact)
    (low high : ℚ) : Prop where
  between : ∀ r ∈ g.ranks, ∀ p ∈ points r,
    ∃ d, inertia.distance p = .number d ∧ low ≤ d ∧ d ≤ high
  low_met : ∃ r ∈ g.ranks, ∃ p ∈ points r, inertia.distance p = .number low
  high_met : ∃ r ∈ g.ranks, ∃ p ∈ points r, inertia.distance p = .number high

variable {g : Group} {points : Nat → List (Point Exact)}

/-- A group with points has some mass. -/
theorem load_weight_pos (h : Massive g points) {r : Nat} (hr : r ∈ g.ranks) {p : Point Exact}
    (hp : p ∈ points r) : 0 < load Point.weight g points :=
  calc 0 < p.weight := (h r hr p hp).2
    _ ≤ ((points r).map Point.weight).sum :=
      List.single_le_sum (h.weight_nonneg hr) _ (List.mem_map_of_mem hp)
    _ ≤ load Point.weight g points := List.single_le_sum h.sum_nonneg _ (List.mem_map_of_mem hr)

/-- The mass that belongs to the first half of a group. -/
def targetOf (g : Group) (points : Nat → List (Point Exact)) : ℚ :=
  load Point.weight g points * g.low.size / g.size

/-- What the mass below a plane may miss of the target: a part of a member's mean. -/
def allowedOf (tolerance : ℚ) (g : Group) (points : Nat → List (Point Exact)) : ℚ :=
  tolerance * load Point.weight g points / g.size

namespace Spans

variable {inertia : Inertia Exact} {low high : ℚ}

theorem load_pos (hspans : Spans g points inertia low high) (h : Massive g points) :
    0 < load Point.weight g points := by
  obtain ⟨r, hr, p, hp, _⟩ := hspans.low_met
  exact load_weight_pos h hr hp

/-- The members agree on the smallest distance. -/
theorem lowest_eq (hspans : Spans g points inertia low high) :
    (reduced Scalar.min (fun r => [Scalar.least ((points r).map inertia.distance)])
      g.ranks).headD Scalar.zero = .number low := by
  refine orders_le.bound_eq ?_ (fun r hr x hx => ?_) rfl
  · obtain ⟨r, hr, p, hp, hd⟩ := hspans.low_met
    exact ⟨r, hr, hd ▸ List.mem_map_of_mem hp⟩
  · obtain ⟨p, hp, rfl⟩ := List.mem_map.1 hx
    obtain ⟨d, hd, hle, _⟩ := hspans.between r hr p hp
    rw [hd, le_number, decide_eq_true hle]

/-- The members agree on the largest distance. -/
theorem highest_eq (hspans : Spans g points inertia low high) :
    (reduced Scalar.max (fun r => [Scalar.greatest ((points r).map inertia.distance)])
      g.ranks).headD Scalar.zero = .number high := by
  refine orders_le.swap.bound_eq ?_ (fun r hr x hx => ?_) rfl
  · obtain ⟨r, hr, p, hp, hd⟩ := hspans.high_met
    exact ⟨r, hr, hd ▸ List.mem_map_of_mem hp⟩
  · obtain ⟨p, hp, rfl⟩ := List.mem_map.1 hx
    obtain ⟨d, hd, _, hle⟩ := hspans.between r hr p hp
    rw [hd, le_number, decide_eq_true hle]

end Spans

section

variable [AxisSolver Exact] {low high : ℚ} (h : Massive g points)
  (hspans : Spans g points (inertiaOf g points) low high)

include h hspans

/-- A group with points has mass, and searches between its bounds. -/
theorem cutOf_eq (tolerance : ℚ) (steps : Nat) : cutOf g (.number tolerance) steps points =
    ⟨inertiaOf g points, .number low, .number high, .number (targetOf g points),
      .number (allowedOf tolerance g points),
      some (planeOf (massBelowOf g (inertiaOf g points) points) (.number (targetOf g points))
        (.number (allowedOf tolerance g points)) steps (.number low) (.number high)
        (Search.fresh (.number high)))⟩ := by
  have hmassive : Scalar.le (number (load Point.weight g points)) Scalar.zero = false := by
    rw [zero_eq, le_number]
    exact decide_eq_false (not_le.2 (hspans.load_pos h))
  have hfinite : Scalar.isFinite (number low) = true := rfl
  simp only [cutOf, hspans.lowest_eq, hspans.highest_eq, inertiaOf_mass h, hmassive, hfinite,
    ofNat_eq, number_mul, number_div, Bool.not_true, Bool.or_false, Bool.false_eq_true, if_false]
  rfl

/-- The calls of a group with points: two for the moments, two for the bounds, and one for each
    plane that is tried. -/
theorem cutCalls_eq (tolerance : Exact) (steps : Nat) : cutCalls g tolerance steps points =
    momentsTag :: momentsTag :: boundsTag :: boundsTag ::
      List.replicate (cutOf g tolerance steps points).tried.length planeTag := by
  have hmass := inertiaOf_mass h
  rw [cutCalls, inertiaCalls]
  simp only [inertiaOf] at hmass ⊢
  split at hmass
  · rw [zero_eq, number.injEq] at hmass
    exact absurd hmass (hspans.load_pos h).ne
  · next hsome =>
    rw [if_neg hsome]
    rfl

end

end SharedMesh
