import SharedMesh.Proofs.Bisection.Weighing
import SharedMesh.Proofs.Scalar.Exact

/-!
# Cuts of exact masses

With exact arithmetic, the masses that the members of a group reduce are those of its points
(`inertiaOf_mass`, `massBelowOf_eq`). A search that ends converged has found a plane that
leaves nearly the target mass below (`planeOf_near`, `cutOf_onTarget`): the best plane met
misses the target by no more than the last one.
-/

namespace SharedMesh

open Route Exact

variable {κ : Type} {n : Nat}

/-! ## Masses -/

/-- The mass of a point, as a rational number. -/
def Point.weight (p : Point Exact) : ℚ := p.mass.value

/-- The points of a group have positive masses. -/
def Massive (g : Group) (points : Nat → List (Point Exact)) : Prop :=
  ∀ r ∈ g.ranks, ∀ p ∈ points r, p.mass = .number p.weight ∧ 0 < p.weight

theorem Massive.weight_nonneg {g : Group} {points : Nat → List (Point Exact)}
    (h : Massive g points) {r : Nat} (hr : r ∈ g.ranks) :
    ∀ weight ∈ (points r).map Point.weight, 0 ≤ weight := by
  intro weight hweight
  obtain ⟨p, hp, rfl⟩ := List.mem_map.1 hweight
  exact (h r hr p hp).2.le

theorem Massive.sum_nonneg {g : Group} {points : Nat → List (Point Exact)}
    (h : Massive g points) :
    ∀ sum ∈ g.ranks.map fun r => ((points r).map Point.weight).sum, 0 ≤ sum := by
  intro sum hsum
  obtain ⟨r, hr, rfl⟩ := List.mem_map.1 hsum
  exact List.sum_nonneg (h.weight_nonneg hr)

theorem load_weight_nonneg {g : Group} {points : Nat → List (Point Exact)}
    (h : Massive g points) : 0 ≤ load Point.weight g points :=
  List.sum_nonneg h.sum_nonneg

/-- Lists that are added up position by position begin with the sum of what they begin with. -/
theorem exists_foldl_addEach {β : Type} {f : β → List Exact} {first : β → ℚ} {xs : List β}
    (h : ∀ x ∈ xs, ∃ rest, f x = .number (first x) :: rest) (q : ℚ) (sums : List Exact) :
    ∃ sums', xs.foldl (fun sums x => Scalar.addEach sums (f x)) (.number q :: sums) =
      .number (q + (xs.map first).sum) :: sums' := by
  induction xs generalizing q sums with
  | nil => exact ⟨sums, by simp⟩
  | cons x xs ih =>
    obtain ⟨⟨rest, hx⟩, hxs⟩ := List.forall_mem_cons.1 h
    obtain ⟨sums', hsums⟩ := ih hxs (q + first x) (sums.zipWith (· + ·) rest)
    refine ⟨sums', ?_⟩
    rw [List.foldl_cons, hx, Scalar.addEach, List.zipWith_cons_cons, number_add, hsums,
      List.map_cons, List.sum_cons, add_assoc]

/-- Lists of one group that are reduced to sums begin with the sum of what they begin with. -/
theorem headD_reduced_add {values : Nat → List Exact} {first : Nat → ℚ} {ranks : List Nat}
    (h : ∀ r ∈ ranks, ∃ rest, values r = .number (first r) :: rest) :
    (reduced (· + ·) values ranks).headD Scalar.zero = .number (ranks.map first).sum := by
  cases ranks with
  | nil => exact zero_eq
  | cons r ranks =>
    obtain ⟨⟨rest, hr⟩, hranks⟩ := List.forall_mem_cons.1 h
    obtain ⟨sums, hsums⟩ := exists_foldl_addEach hranks (first r) rest
    rw [reduced, hr]
    exact congrArg (List.headD · Scalar.zero) hsums

theorem sum_eq_number {β : Type} {f : β → Exact} {first : β → ℚ} {xs : List β}
    (h : ∀ x ∈ xs, f x = .number (first x)) :
    Scalar.sum (xs.map f) = .number (xs.map first).sum := by
  have hmap : xs.map f = xs.map fun x => number (first x) := List.map_congr_left h
  rw [Scalar.sum, hmap, List.foldl_map, zero_eq, neg_number, foldl_add, neg_zero, zero_add]

variable {g : Group} {points : Nat → List (Point Exact)}

/-- The first moments begin with the mass. -/
theorem exists_firstMoments {own : List (Point Exact)}
    (h : ∀ p ∈ own, p.mass = .number p.weight) :
    ∃ rest, firstMoments own = .number (own.map Point.weight).sum :: rest := by
  have hfirst : ∀ p ∈ own, ∃ rest, (p.mass :: p.position.toList.map fun x => p.mass * x) =
      .number p.weight :: rest := fun p hp => ⟨_, congrArg (· :: _) (h p hp)⟩
  obtain ⟨rest, hrest⟩ := exists_foldl_addEach hfirst 0 (List.replicate 3 Scalar.zero)
  rw [zero_add, ← zero_eq] at hrest
  exact ⟨rest, hrest⟩

/-- The mass below a plane is that of the points that are not above it. -/
theorem massBelowOf_eq (h : Massive g points) (inertia : Inertia Exact) (plane : Exact) :
    massBelowOf g inertia points plane = .number (load Point.weight g fun r =>
      (points r).filter fun p => Scalar.le (inertia.distance p) plane) := by
  refine headD_reduced_add fun r hr => ⟨[], congrArg (· :: []) ?_⟩
  exact sum_eq_number fun p hp => (h r hr p (List.mem_filter.1 hp).1).1

section

variable [AxisSolver Exact]

/-- The mass that a group finds is that of its points. -/
theorem inertiaOf_mass (h : Massive g points) :
    (inertiaOf g points).mass = .number (load Point.weight g points) := by
  have hmass := headD_reduced_add fun r hr => exists_firstMoments fun p hp => (h r hr p hp).1
  have hhead : ∀ sums : List Exact, sums.getD 0 Scalar.zero = sums.headD Scalar.zero :=
    fun sums => by cases sums <;> rfl
  rw [← load, ← hhead] at hmass
  simp only [inertiaOf, hmass]
  split
  · next hle =>
    rw [zero_eq, le_number, decide_eq_true_eq] at hle
    exact zero_eq.trans (congrArg number (le_antisymm (load_weight_nonneg h) hle))
  · rfl

/-- The target is the part of the mass that belongs to the first half. -/
theorem cutOf_target (h : Massive g points) (tolerance : Exact) (steps : Nat) :
    (cutOf g tolerance steps points).target =
      .number (load Point.weight g points * g.low.size / g.size) := by
  have hmass := inertiaOf_mass h
  simp only [cutOf]
  split <;> simp only [hmass, ofNat_eq, number_mul, number_div]

/-- What is allowed is a part of the mean. -/
theorem cutOf_allowed (h : Massive g points) (tolerance : ℚ) (steps : Nat) :
    (cutOf g (.number tolerance) steps points).allowed =
      .number (tolerance * load Point.weight g points / g.size) := by
  have hmass := inertiaOf_mass h
  simp only [cutOf]
  split <;> simp only [hmass, ofNat_eq, number_mul, number_div]

end

/-! ## Searches -/

/-- The error of a search is that of its plane, if it has tried any. -/
def Search.Measured (miss : Exact → ℚ) (s : Search Exact) : Prop :=
  s.error = .infinity ∨ s.error = .number (miss s.plane)

/-- After another plane was tried, the plane of the search is at least as good as that. -/
theorem Search.Measured.record {miss : Exact → ℚ} {s : Search Exact} (h : s.Measured miss)
    (plane : Exact) : (s.record plane (.number (miss plane))).error =
        .number (miss (s.record plane (.number (miss plane))).plane) ∧
      miss (s.record plane (.number (miss plane))).plane ≤ miss plane := by
  rw [Search.record]
  split
  · exact ⟨rfl, le_refl _⟩
  · next hworse =>
    rcases h with h | h
    · rw [h] at hworse
      exact absurd rfl hworse
    · rw [h, lt_number, decide_eq_true_eq, not_lt] at hworse
      exact ⟨h, hworse⟩

/-- A search that ends converged has found a plane that misses the target by no more than what
    is allowed. -/
theorem planeOf_near {below : Exact → Exact} {mass : Exact → ℚ} {target allowed : ℚ}
    (hbelow : ∀ plane, below plane = .number (mass plane)) {steps : Nat} {low high : Exact}
    {s : Search Exact} (hs : s.Measured fun plane => |mass plane - target|)
    (hrunning : s.converged = false)
    (h : (planeOf below (.number target) (.number allowed) steps low high s).converged = true) :
    |mass (planeOf below (.number target) (.number allowed) steps low high s).plane - target| ≤
      allowed := by
  induction steps generalizing low high s with
  | zero => exact absurd (hrunning.symm.trans h) Bool.false_ne_true
  | succ steps ih =>
    have hnext := hs.record (middle low high)
    have hstays : ∀ error, (s.record (middle low high) error).converged = false := fun error => by
      rw [Search.record]
      split <;> exact hrunning
    simp only [planeOf_succ, hbelow, number_sub, abs_number, le_number] at h ⊢
    split at h
    · exact absurd (hrunning.symm.trans h) Bool.false_ne_true
    · next hopen =>
      rw [if_neg hopen]
      split at h
      · next hnear =>
        rw [if_pos hnear]
        exact hnext.2.trans (of_decide_eq_true hnear)
      · next hfar =>
        rw [if_neg hfar]
        split at h
        · next hless =>
          rw [if_pos hless]
          exact ih (.inr hnext.1) (hstays _) h
        · next hmore =>
          rw [if_neg hmore]
          exact ih (.inr hnext.1) (hstays _) h

/-- The plane of a cut leaves nearly the target mass below. -/
def Cut.OnTarget (c : Cut Exact) (g : Group) (points : Nat → List (Point Exact)) : Prop :=
  ∃ search, c.search = some search ∧
    |load Point.weight g (fun r => (points r).filter fun p =>
      Scalar.le (c.inertia.distance p) search.plane) - c.target.value| ≤ c.allowed.value

section

variable [AxisSolver Exact]

/-- A cut whose search ended converged is on target. -/
theorem cutOf_onTarget (h : Massive g points) {tolerance : ℚ} {steps : Nat}
    {search : Search Exact} (hsearch : (cutOf g (.number tolerance) steps points).search = some search)
    (hconverged : search.converged = true) :
    (cutOf g (.number tolerance) steps points).OnTarget g points := by
  refine ⟨search, hsearch, ?_⟩
  have htarget := cutOf_target h (.number tolerance) steps
  have hallowed := cutOf_allowed h tolerance steps
  rw [htarget, hallowed, value_number, value_number]
  simp only [cutOf] at hsearch htarget hallowed ⊢
  split at hsearch
  · cases hsearch
  · next hmass =>
    rw [if_neg hmass] at htarget hallowed ⊢
    simp only at htarget hallowed
    rw [htarget, hallowed, Option.some.injEq] at hsearch
    rw [← hsearch] at hconverged ⊢
    exact planeOf_near (massBelowOf_eq h _) (.inl rfl) rfl hconverged

end

end SharedMesh
