import Mathlib.Data.Int.Log
import Mathlib.Data.Rat.Floor
import SharedMesh.Proofs.Bisection.Balancing
import SharedMesh.Proofs.Bisection.Bounding

/-!
# Searching for planes

With exact arithmetic, every step of a search halves its interval. The mass that is not above a
plane grows with the plane, so no step cuts off planes that have nearly the target mass below
(`cut_keeps`): if these fill an interval, one of them is met before the interval of the search
is shorter than theirs (`planeOf_meets`). However a search ends, its plane is the best of all
that it has tried (`Search.Best`). So the members of a group find good planes, and keep the best
one (`cutGroup_searches`).
-/

namespace SharedMesh

open Exact

variable {κ : Type} {n : Nat}

/-! ## The best plane -/

/-- If planes were tried, that of the search is one of them, and misses by no more than any. -/
structure Search.Best (miss : Exact → ℚ) (s : Search Exact) : Prop where
  error_eq : s.error = if s.tried = [] then .infinity else .number (miss s.plane)
  mem : s.tried ≠ [] → s.plane ∈ s.tried
  le_miss : ∀ plane ∈ s.tried, miss s.plane ≤ miss plane

/-- A search that has just met a plane which misses by no more than is allowed, after at most
    so many tries. -/
structure Search.Meets (miss : Exact → ℚ) (allowed : ℚ) (tries : Nat) (s : Search Exact) :
    Prop where
  converged : s.converged = true
  last : ∃ plane, s.tried.head? = some plane ∧ miss plane ≤ allowed
  tries_le : s.tried.length ≤ tries

theorem Search.tried_record (s : Search Exact) (plane error : Exact) :
    (s.record plane error).tried = plane :: s.tried := by
  rw [record]
  split <;> rfl

namespace Search.Best

variable {miss : Exact → ℚ} {s : Search Exact}

theorem fresh (top : Exact) : (Search.fresh top).Best miss :=
  ⟨rfl, fun h => absurd rfl h, fun _ h => absurd h List.not_mem_nil⟩

/-- The best plane is kept when another one is tried. -/
theorem record (h : s.Best miss) (plane : Exact) :
    (s.record plane (.number (miss plane))).Best miss := by
  rw [Search.record]
  split
  · next hbetter =>
    refine ⟨rfl, fun _ => List.mem_cons_self, ?_⟩
    rw [List.forall_mem_cons]
    refine ⟨le_refl _, fun q hq => ?_⟩
    rw [h.error_eq, if_neg (List.ne_nil_of_mem hq), lt_number, decide_eq_true_eq] at hbetter
    exact hbetter.le.trans (h.le_miss q hq)
  · next hworse =>
    have hne : s.tried ≠ [] := fun hnil => by
      rw [h.error_eq, if_pos hnil] at hworse
      exact hworse rfl
    rw [h.error_eq, if_neg hne, lt_number, decide_eq_true_eq, not_lt] at hworse
    refine ⟨by simp [h.error_eq, hne], fun _ => List.mem_cons_of_mem _ (h.mem hne), ?_⟩
    rw [List.forall_mem_cons]
    exact ⟨hworse, h.le_miss⟩

end Search.Best

/-! ## Steps of a search -/

section

variable {below : Exact → Exact} {mass : Exact → ℚ} {target allowed : ℚ} {s : Search Exact}
  (hbelow : ∀ plane, below plane = .number (mass plane))

include hbelow

/-- What every step keeps, a search keeps. -/
theorem planeOf_keeps {P : Search Exact → Prop}
    (hrecord : ∀ s plane, P s → P (s.record plane (.number |mass plane - target|)))
    (hconverged : ∀ s, P s → P { s with converged := true }) (steps : Nat) (low high : Exact)
    (hs : P s) : P (planeOf below (.number target) (.number allowed) steps low high s) := by
  induction steps generalizing low high s with
  | zero => exact hs
  | succ steps ih =>
    have hnext := hrecord s (middle low high) hs
    simp only [planeOf_succ, hbelow, number_sub, abs_number]
    split
    · exact hs
    split
    · exact hconverged _ hnext
    split
    · exact ih _ _ hnext
    · exact ih _ _ hnext

/-- A search keeps the best of the planes that it tries. -/
theorem planeOf_best (steps : Nat) (low high top : Exact) :
    (planeOf below (.number target) (.number allowed) steps low high (Search.fresh top)).Best
      fun plane => |mass plane - target| :=
  planeOf_keeps hbelow (fun _ plane h => h.record plane)
    (fun _ h => ⟨h.error_eq, h.mem, h.le_miss⟩) steps low high (Search.Best.fresh top)

omit hbelow in
theorem middle_number (low high : ℚ) :
    middle (number low) (number high) = .number ((low + high) / 2) := by
  change number _ = _
  congr 1
  push_cast
  ring

/-- Between numbers there always is a plane to be tried. -/
theorem planeOf_step {low high : ℚ} (hlt : low < high) (steps : Nat) :
    planeOf below (.number target) (.number allowed) (steps + 1) (.number low) (.number high) s =
      let p := (low + high) / 2
      let miss := |mass (.number p) - target|
      let s' := s.record (.number p) (.number miss)
      if miss ≤ allowed then { s' with converged := true }
      else if mass (.number p) < target then
        planeOf below (.number target) (.number allowed) steps (.number p) (.number high) s'
      else planeOf below (.number target) (.number allowed) steps (.number low) (.number p) s' := by
  have hlow : Scalar.le (number ((low + high) / 2)) (number low) = false :=
    decide_eq_false (not_le.2 (by linarith))
  have hhigh : Scalar.le (number high) (number ((low + high) / 2)) = false :=
    decide_eq_false (not_le.2 (by linarith))
  simp only [planeOf_succ, middle_number, hlow, hhigh, Bool.or_self, Bool.false_eq_true, if_false]
  simp only [hbelow, number_sub, abs_number, le_number, lt_number, decide_eq_true_eq]

/-- A search with any step left tries a plane. -/
theorem tried_planeOf_ne_nil {low high : ℚ} (hlt : low < high) {steps : Nat} (hsteps : 0 < steps)
    (s : Search Exact) : (planeOf below (.number target) (.number allowed) steps (.number low)
      (.number high) s).tried ≠ [] := by
  obtain ⟨steps, rfl⟩ := Nat.exists_eq_add_one.2 hsteps
  have hrecord : ∀ (s : Search Exact) plane error, (s.record plane error).tried ≠ [] :=
    fun s plane error => s.tried_record plane error ▸ List.cons_ne_nil _ _
  have hkeeps : ∀ low high s, s.tried ≠ [] →
      (planeOf below (.number target) (.number allowed) steps low high s).tried ≠ [] :=
    fun low high _ => planeOf_keeps hbelow (P := fun s => s.tried ≠ [])
      (fun _ _ _ => hrecord _ _ _) (fun _ h => h) steps low high
  rw [planeOf_step hbelow hlt]
  simp only
  split
  · exact hrecord _ _ _
  split
  · exact hkeeps _ _ _ (hrecord _ _ _)
  · exact hkeeps _ _ _ (hrecord _ _ _)

/-! ## Meeting a good plane -/

variable {a b : ℚ}

omit hbelow in
/-- If the mass grows with the plane, a plane that misses lies on the side of all good planes
    that its mass tells. -/
theorem cut_keeps (hmono : ∀ p q : ℚ, p ≤ q → mass (.number p) ≤ mass (.number q)) (hab : a < b)
    (hgood : ∀ p, a ≤ p → p < b → |mass (.number p) - target| ≤ allowed) {p : ℚ}
    (hmiss : ¬|mass (.number p) - target| ≤ allowed) :
    (mass (.number p) < target → p ≤ a) ∧ (target ≤ mass (.number p) → b ≤ p) := by
  have hfirst := abs_le.1 (hgood a le_rfl hab)
  have hout : p < a ∨ b ≤ p := by
    by_contra hin
    push Not at hin
    exact hmiss (hgood p hin.1 hin.2)
  rw [abs_le, not_and_or, not_le, not_le] at hmiss
  rcases hout with hp | hp
  · refine ⟨fun _ => hp.le, fun hmore => ?_⟩
    have := hmono p a hp.le
    rcases hmiss with hmiss | hmiss <;> linarith
  · refine ⟨fun hless => ?_, fun _ => hp⟩
    have := hmono a p (hab.le.trans hp)
    rcases hmiss with hmiss | hmiss <;> linarith

/-- After some halvings the interval of a search would be shorter than that of the good planes,
    so one of them has been met by then. -/
theorem planeOf_meets (hmono : ∀ p q : ℚ, p ≤ q → mass (.number p) ≤ mass (.number q))
    (hab : a < b) (hgood : ∀ p, a ≤ p → p < b → |mass (.number p) - target| ≤ allowed)
    {halvings : Nat} (more : Nat) {low high : ℚ} (hlow : low ≤ a) (hhigh : b ≤ high)
    (hlength : high - low < 2 ^ halvings * (b - a)) (s : Search Exact) :
    (planeOf below (.number target) (.number allowed) (halvings + more) (.number low)
      (.number high) s).Meets (fun plane => |mass plane - target|) allowed
        (s.tried.length + halvings) := by
  induction halvings generalizing low high s with
  | zero => linarith
  | succ halvings ih =>
    have hlt : low < high := by linarith
    rw [pow_succ] at hlength
    have hcount : ∀ plane error, s.tried.length + (halvings + 1) =
        (s.record plane error).tried.length + halvings := fun plane error => by
      rw [Search.tried_record, List.length_cons, Nat.add_assoc, Nat.add_comm 1]
    rw [Nat.add_right_comm, planeOf_step hbelow hlt,
      hcount (.number ((low + high) / 2)) (.number |mass (.number ((low + high) / 2)) - target|)]
    simp only
    split
    · next hnear =>
      exact ⟨rfl, ⟨_, congrArg List.head? (s.tried_record _ _), hnear⟩, Nat.le_add_right _ _⟩
    · next hmiss =>
      obtain ⟨hless, hmore⟩ := cut_keeps hmono hab hgood hmiss
      split
      · next h => exact ih (hless h) hhigh (by linarith) _
      · next h => exact ih hlow (hmore (not_lt.1 h)) (by linarith) _

end

/-! ## Searches of groups -/

variable {g : Group} {points : Nat → List (Point Exact)}

/-- How far the mass that is not above a plane is from the target of a cut. -/
def Cut.miss (c : Cut Exact) (g : Group) (points : Nat → List (Point Exact)) (plane : Exact) : ℚ :=
  |load Point.weight g (fun r => (points r).filter fun p =>
    Scalar.le (c.inertia.distance p) plane) - c.target.value|

/-- How many planes are tried at most until one from `a` up to `b` is met: one more than the
    binary logarithm of the ratio of the lengths, rounded up. -/
def triesUntil (low high a b : ℚ) : ℕ := (Int.clog 2 ((high - low) / (b - a))).toNat + 1

/-- More mass is not above planes farther on. -/
theorem load_filter_le (h : Massive g points) (inertia : Inertia Exact) {x y : Exact}
    (hxy : Scalar.le x y = true) :
    load Point.weight g (fun r => (points r).filter fun p => Scalar.le (inertia.distance p) x) ≤
      load Point.weight g fun r =>
        (points r).filter fun p => Scalar.le (inertia.distance p) y := by
  refine List.sum_le_sum fun r hr => ?_
  have hsub : ((points r).filter fun p => Scalar.le (inertia.distance p) x).Sublist
      ((points r).filter fun p => Scalar.le (inertia.distance p) y) :=
    List.monotone_filter_right _ fun p hp => orders_le.trans hp hxy
  exact (hsub.map Point.weight).sum_le_sum fun weight hweight =>
    h.weight_nonneg hr weight ((List.filter_sublist.map _).subset hweight)

/-- So many halvings make an interval shorter than a part of it. -/
theorem length_lt_triesUntil {low high a b : ℚ} (hlow : low ≤ a) (hab : a < b) (hhigh : b ≤ high) :
    high - low < 2 ^ triesUntil low high a b * (b - a) := by
  have hpos : 0 < b - a := sub_pos.2 hab
  have hone : 1 ≤ (high - low) / (b - a) := (one_le_div hpos).2 (by linarith)
  have hclog := Int.clog_of_one_le_right 2 hone
  have hle := Int.self_le_zpow_clog one_lt_two ((high - low) / (b - a))
  rw [hclog, zpow_natCast, Nat.cast_ofNat, div_le_iff₀ hpos] at hle
  rw [triesUntil, hclog, Int.toNat_natCast]
  exact hle.trans_lt (mul_lt_mul_of_pos_right (pow_lt_pow_right₀ one_lt_two (Nat.lt_succ_self _))
    hpos)

/-- What searching promises of a cut of a group whose points lie between two distances, with
    exact arithmetic. -/
structure SearchLaw (g : Group) (points : Nat → List (Point Exact)) (low high tolerance : ℚ)
    (steps : Nat) (c : Cut Exact) (s : Search Exact) : Prop where
  spans : Spans g points c.inertia low high
  target_eq : c.target = .number (targetOf g points)
  allowed_eq : c.allowed = .number (allowedOf tolerance g points)
  /-- If planes from `a` up to `b` have nearly the target mass below, then such a plane is met
      soon, and the points that are not above the plane of the cut have nearly that mass. -/
  meets : ∀ a b, low ≤ a → a < b → b ≤ high →
    (∀ plane, a ≤ plane → plane < b → c.miss g points (.number plane) ≤ c.allowed.value) →
    triesUntil low high a b ≤ steps →
    s.Meets (c.miss g points) c.allowed.value (triesUntil low high a b) ∧
      |load Point.weight g (fun r => (points r).filter fun p => c.isAbove p = false) -
        c.target.value| ≤ c.allowed.value
  /-- The plane of the cut was tried, if any was. -/
  plane_mem : 0 < steps → s.plane ∈ s.tried
  /-- The plane of the cut is the best of all that were tried. -/
  plane_best : ∀ plane ∈ s.tried, c.miss g points s.plane ≤ c.miss g points plane

/-- The cut of a group keeps to the law. -/
theorem searchLaw_cutOf [AxisSolver Exact] (h : Massive g points) {low high : ℚ}
    (hspans : Spans g points (inertiaOf g points) low high) (hlt : low < high) (tolerance : ℚ)
    (steps : Nat) : ∃ s, (cutOf g (.number tolerance) steps points).search = some s ∧
      SearchLaw g points low high tolerance steps (cutOf g (.number tolerance) steps points) s := by
  have hbelow := massBelowOf_eq h (inertiaOf g points)
  have honTarget : ∀ s, (cutOf g (.number tolerance) steps points).search = some s →
      s.converged = true → (cutOf g (.number tolerance) steps points).OnTarget g points :=
    fun _ => cutOf_onTarget h
  rw [cutOf_eq h hspans] at honTarget ⊢
  refine ⟨_, rfl, hspans, rfl, rfl, ?meets, ?plane_mem, ?plane_best⟩
  case meets =>
    intro a b hlow hab hhigh hgood htries
    obtain ⟨more, rfl⟩ := Nat.exists_eq_add_of_le htries
    have hmeets := planeOf_meets hbelow
      (fun p q hpq => load_filter_le h _ ((le_number p q).trans (decide_eq_true hpq))) hab hgood
      more hlow hhigh (length_lt_triesUntil hlow hab hhigh) (Search.fresh (.number high))
    rw [Search.fresh, List.length_nil, Nat.zero_add, ← Search.fresh] at hmeets
    obtain ⟨_, hsome, hnear⟩ := honTarget _ rfl hmeets.converged
    cases hsome
    refine ⟨hmeets, ?_⟩
    simp only [Cut.isAbove_eq_false (c := Cut.mk _ _ _ _ _ _) rfl]
    exact hnear
  case plane_mem =>
    exact fun hsteps => (planeOf_best hbelow _ _ _ _).mem (tried_planeOf_ne_nil hbelow hlt hsteps _)
  case plane_best => exact (planeOf_best hbelow _ _ _ _).le_miss

/-- With exact arithmetic, the members of a group search for a plane in step, with a call for
    every plane that is tried. They meet a good plane as soon as their interval is short enough,
    and keep the best plane of all. -/
theorem cutGroup_searches [AxisSolver Exact] [Alphabet κ] [LawfulAlphabet κ] [Layout κ Exact]
    [LawfulLayout κ Exact] (hg : g.ranks.Nodup) (hn : ∀ r ∈ g.ranks, r < n)
    (h : Massive g points) {low high : ℚ} (hspans : Spans g points (inertiaOf g points) low high)
    (hlt : low < high) (tolerance : ℚ) (steps : Nat) :
    ∃ s, (cutOf g (.number tolerance) steps points).search = some s ∧
      SearchLaw g points low high tolerance steps (cutOf g (.number tolerance) steps points) s ∧
      InStep n g (fun r => (cutGroup (Seat.of r n) g (.number tolerance) steps (points r) :
        Proc κ (Cut Exact)).toProgram) (fun _ => .ok (cutOf g (.number tolerance) steps points))
        (momentsTag :: momentsTag :: boundsTag :: boundsTag ::
          List.replicate s.tried.length planeTag) := by
  obtain ⟨s, hsearch, hlaw⟩ := searchLaw_cutOf h hspans hlt tolerance steps
  have hstep := cutGroup_inStep (κ := κ) hg hn points (.number tolerance) steps
  rw [cutCalls_eq h hspans, Cut.tried, hsearch] at hstep
  exact ⟨s, hsearch, hlaw, hstep⟩

/-! ## Points on a line -/

attribute [local instance] exactAlphabet exactLayout firstAxisSolver lawful_exactAlphabet
  lawful_exactLayout

/-- The mass that is not above a plane can be told from distances and masses. -/
theorem load_filter_eq (g : Group) (points : Nat → List (Point Exact)) (inertia : Inertia Exact)
    (plane : Exact) :
    load Point.weight g (fun r => (points r).filter fun p =>
        Scalar.le (inertia.distance p) plane) =
      ((g.ranks.map fun r => (points r).map fun p => (inertia.distance p, p.weight)).map
        fun pairs => ((pairs.filter fun x => Scalar.le x.1 plane).map Prod.snd).sum).sum := by
  simp only [load, List.map_map, List.filter_map, Function.comp_def]

/-- Three ranks with points on a line. -/
def lineGroup : Group := ⟨[0, 1, 2]⟩

/-- The points of these ranks. -/
def linePoints (r : Nat) : List (Point Exact) := homePoints r (lineCoords r) (lineMasses r)

/-- Of three points on a line one belongs below. Planes that leave it there are met at the second
    try at the latest. -/
theorem cutGroup_searches_line :
    lineGroup.ranks.Nodup ∧ (∀ r ∈ lineGroup.ranks, r < 3) ∧ Massive lineGroup linePoints ∧
      Spans lineGroup linePoints (inertiaOf lineGroup linePoints) (-7 / 3) (5 / 3) ∧
      (-7 / 3 : ℚ) < 5 / 3 ∧ triesUntil (-7 / 3) (5 / 3) (-7 / 3) (2 / 3) = 2 ∧
      ∃ s, (cutOf lineGroup (.number (1 / 10)) 64 linePoints).search = some s ∧
        s.converged = true ∧ s.tried.length ≤ 2 := by
  have hmassive : Massive lineGroup linePoints := by
    rw [Massive]
    decide +kernel
  have hspans : Spans lineGroup linePoints (inertiaOf lineGroup linePoints) (-7 / 3) (5 / 3) := by
    have hbetween : ∀ r ∈ lineGroup.ranks, ∀ p ∈ linePoints r,
        (inertiaOf lineGroup linePoints).distance p =
          .number ((inertiaOf lineGroup linePoints).distance p).value ∧
        -7 / 3 ≤ ((inertiaOf lineGroup linePoints).distance p).value ∧
        ((inertiaOf lineGroup linePoints).distance p).value ≤ 5 / 3 := by decide +kernel
    exact ⟨fun r hr p hp => ⟨_, hbetween r hr p hp⟩, by decide +kernel, by decide +kernel⟩
  have htries : triesUntil (-7 / 3) (5 / 3) (-7 / 3) (2 / 3) = 2 := by decide +kernel
  obtain ⟨s, hsearch, hlaw, _⟩ := cutGroup_searches (κ := ExactCell) (n := 3) (by decide)
    (by decide) hmassive hspans (by norm_num) (1 / 10) 64
  have hgood : ∀ plane : ℚ, -7 / 3 ≤ plane → plane < 2 / 3 →
      (cutOf lineGroup (.number (1 / 10)) 64 linePoints).miss lineGroup linePoints (.number plane) ≤
        (cutOf lineGroup (.number (1 / 10)) 64 linePoints).allowed.value := by
    intro plane hlow hhigh
    have hdistances : lineGroup.ranks.map (fun r => (linePoints r).map fun p =>
        ((cutOf lineGroup (.number (1 / 10)) 64 linePoints).inertia.distance p, p.weight)) =
          [[(.number (-7 / 3), 1), (.number (2 / 3), 1)], [(.number (5 / 3), 1)], []] := by
      decide +kernel
    have hvalues : (cutOf lineGroup (.number (1 / 10)) 64 linePoints).target.value = 1 ∧
        (cutOf lineGroup (.number (1 / 10)) 64 linePoints).allowed.value = 1 / 10 := by
      decide +kernel
    have hfar : ¬5 / 3 ≤ plane := by linarith
    rw [Cut.miss, load_filter_eq, hdistances, hvalues.1, hvalues.2]
    simp [hlow, not_le.2 hhigh, hfar]
  obtain ⟨hmeets, _⟩ := hlaw.meets (-7 / 3) (2 / 3) le_rfl (by norm_num) (by norm_num) hgood
    (by rw [htries]; norm_num)
  rw [htries] at hmeets
  exact ⟨by decide, by decide, hmassive, hspans, by norm_num, htries, s, hsearch,
    hmeets.converged, hmeets.tries_le⟩

end SharedMesh
