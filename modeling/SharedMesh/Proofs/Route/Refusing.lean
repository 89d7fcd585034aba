import SharedMesh.Proofs.Route.Planning

/-!
# Planning fails together

If a target is not a root that is there, no rank gets a route
(`plan_together_of_not_sound`). A target on a rank that does not exist is refused before
anything is announced. A root that does not exist is refused by the rank that was to hold
it, once its items are announced there.
-/

namespace SharedMesh.Route

variable {n : Nat} {targets : Nat → List Place} {roots : Nat → Nat}

theorem checkTargets_eq_error {r : Nat} {p : Place} (hp : p ∈ targets r) (hrank : n ≤ p.rank) :
    ∃ e, checkTargets n (targets r) = .error e := by
  rw [checkTargets]
  cases hfind : (targets r).find? fun p => n ≤ p.rank with
  | none => simpa [hrank] using List.find?_eq_none.1 hfind p hp
  | some q => exact ⟨_, rfl⟩

/-- Every item is announced to the rank of its target. -/
theorem exists_mem_arriving {r : Nat} (hr : r < n) {p : Place} (hp : p ∈ targets r) :
    ∃ a ∈ arriving n targets p.rank, a.root = p.index := by
  obtain ⟨i, hi⟩ := List.mem_iff_getElem?.1 hp
  have hmem : (p, i) ∈ bound (targets r) p.rank := mem_bound.2 ⟨hi, rfl⟩
  obtain ⟨t, ht⟩ := List.mem_iff_getElem?.1 hmem
  refine ⟨⟨p.index, r, i, t⟩, ?_, rfl⟩
  exact List.mem_flatMap.2 ⟨r, List.mem_range.2 hr,
    List.mem_map.2 ⟨((p, i), t), List.mem_zipIdx_iff_getElem?.2 ht, rfl⟩⟩

theorem checkRoots_eq_error {s : Nat} {a : Arrival} (ha : a ∈ arriving n targets s)
    (hroot : roots s ≤ a.root) :
    ∃ e, checkRoots s (roots s) (arriving n targets s) = .error e := by
  rw [checkRoots]
  cases hfind : (arriving n targets s).find? fun a => roots s ≤ a.root with
  | none => simpa [hroot] using List.find?_eq_none.1 hfind a ha
  | some b => exact ⟨_, rfl⟩

/-- What the ranks make of their targets: they check the ranks first, and then the roots. -/
def refusal (n : Nat) (targets : Nat → List Place) (roots : Nat → Nat) (r : Nat) :
    Checked Unit := do
  agreed n .routeRanks (fun s => checkTargets n (targets s)) r
  agreed n .routeRoots (fun s => checkRoots s (roots s) (arriving n targets s)) r

variable {κ : Type} [Alphabet κ] [LawfulAlphabet κ]

/-- If the targets are not all roots of the ranks, planning fails on all ranks. Room for what
    arrives is needed only where the targets are on ranks that are there. -/
theorem plan_together_of_not_sound (h : ¬ Sound n targets roots)
    (hindex : ∀ r < n, ∀ p ∈ targets r, p.index < 2 ^ 64)
    (hlength : ∀ r < n, (targets r).length < 2 ^ 64)
    (harrivals : (∀ r < n, ∀ p ∈ targets r, p.rank < n) →
      ∀ r < n, (arriving n targets r).length * 32 < 2 ^ 63) :
    ∃ e : Nat → MeshError, (∀ r < n, refusal n targets roots r = .error (e r)) ∧
      Together n (List.range n)
        (fun r => (plan (Seat.of r n) (targets r) (roots r) : Proc κ Route).toProgram)
        fun r => .error (e r) := by
  by_cases hrank : ∀ r < n, ∀ p ∈ targets r, p.rank < n
  · -- some root is not there
    have hwords : Sound n targets fun _ => 2 ^ 64 := ⟨hrank, hindex⟩
    obtain ⟨r, hr, p, hp, hroot⟩ : ∃ r < n, ∃ p ∈ targets r, roots p.rank ≤ p.index := by
      by_contra hnone
      push Not at hnone
      exact h ⟨hrank, hnone⟩
    obtain ⟨a, ha, haroot⟩ := exists_mem_arriving hr hp
    obtain ⟨e, he⟩ := checkRoots_eq_error ha (haroot ▸ hroot)
    obtain ⟨errors, hagreed, hfail⟩ := Together.allPassFails (κ := κ) (β := Route) .routeRoots
      (fun s => checkRoots s (roots s) (arriving n targets s)) (hrank r hr p hp) he
    refine ⟨errors, fun r hr => ?_, ?_⟩
    · rw [refusal, agreed_ok (fun _ hr => checkTargets_eq_ok hwords hr) hr]
      exact hagreed r
    simp only [plan_eq, accept, bind_assoc]
    refine (announceAll_together hrank hindex hlength).andThen ?_
    refine Together.ofCheckedThen (fun r hr =>
      checkRoom_eq_ok (harrivals hrank r (List.mem_range.1 hr))) ?_
    exact hfail _
  · -- some target is on no rank
    push Not at hrank
    obtain ⟨r, hr, p, hp, hrank⟩ := hrank
    obtain ⟨e, he⟩ := checkTargets_eq_error hp hrank
    obtain ⟨errors, hagreed, hfail⟩ := Together.allPassFails (κ := κ) (β := Route) .routeRanks
      (fun s => checkTargets n (targets s)) hr he
    refine ⟨errors, fun r _ => ?_, hfail _⟩
    rw [refusal, hagreed r]
    rfl

end SharedMesh.Route
