import SharedMesh.Proofs.Route.Answering
import SharedMesh.Proofs.Route.Refusing
import SharedMesh.Proofs.Shares

/-!
# Roots broadcast to their items

A route that was planned is the one that the targets describe: otherwise some rank would not
have got one (`eq_planned_of_yields`). So broadcasting along its reverse gives every item what
the rank of its target holds for the root there (`broadcast_gathers`), however the items share
the roots.
-/

namespace SharedMesh.Route

variable {κ T : Type} [Alphabet κ] [LawfulAlphabet κ] {n : Nat} {targets : Nat → List Place}
  {roots : Nat → Nat} {routes : Nat → Route}

section

variable (hindex : ∀ r < n, ∀ p ∈ targets r, p.index < 2 ^ 64)
  (hlength : ∀ r < n, (targets r).length < 2 ^ 64)
  (hplanned : (World.start ((List.range n).map fun r =>
      (plan (κ := κ) (Seat.of r n) (targets r) (roots r)).toProgram)).Yields
    ((List.range n).map fun r => .ok (routes r)))

include hindex hlength hplanned

/-- Ranks that get routes had room for what arrived, if the targets are on ranks. -/
theorem arrivals_room_of_yields (hrank : ∀ r < n, ∀ p ∈ targets r, p.rank < n) {r : Nat}
    (hr : r < n) : (arriving n targets r).length * 32 < 2 ^ 63 := by
  simp only [plan_eq, accept, bind_assoc] at hplanned
  have hrest := (announceAll_together (κ := κ) hrank hindex hlength).rest_yields_of_ok hplanned
  obtain ⟨u, hroom⟩ := Together.passed_of_yields hrest hr
  exact lt_of_checkRoom hroom

/-- Ranks that get routes have named targets that are there. -/
theorem sound_of_yields : Sound n targets roots := by
  by_contra hstray
  obtain ⟨e, _, hfail⟩ := plan_together_of_not_sound (κ := κ) hstray hindex hlength
    fun hrank _ => arrivals_room_of_yields hindex hlength hplanned hrank
  rcases Nat.eq_zero_or_pos n with rfl | hn
  · exact hstray ⟨by simp, by simp⟩
  · have hresult : (.ok (routes 0) : Checked Route) = .error (e 0) :=
      List.map_inj_left.1 (hplanned.run_eq.symm.trans hfail.yields.run_eq) 0 (List.mem_range.2 hn)
    exact nomatch hresult

/-- Ranks that get routes had room for all that they planned. -/
theorem fits_of_yields : Fits n targets roots := by
  have hsound := sound_of_yields hindex hlength hplanned
  have harrivals : ∀ r < n, (arriving n targets r).length * 32 < 2 ^ 63 := fun _ =>
    arrivals_room_of_yields hindex hlength hplanned hsound.rank_lt
  simp only [plan_eq] at hplanned
  -- each check was passed by every rank, as none stopped there
  have hland := (accept_together (κ := κ) hsound harrivals).rest_yields_of_ok
    ((announceAll_together hsound.rank_lt hindex hlength).rest_yields_of_ok hplanned)
  have hroots : ∀ r < n, roots r * 8 < 2 ^ 63 := by
    intro r hr
    simp only [land, bind_assoc] at hland
    obtain ⟨u, hroom⟩ := Together.passed_of_yields hland hr
    exact lt_of_checkRoom hroom
  have hjoin := (land_together (κ := κ) hsound hroots hlength).rest_yields_of_ok hland
  have hrooms : ∀ r < n, (targets r).length * 24 < 2 ^ 63 ∧ (roots r + 1) * 8 < 2 ^ 63 := by
    intro r hr
    obtain ⟨_, hok⟩ := Together.passed_of_yields (f := fun _ => pure) (by simpa using hjoin) hr
    obtain ⟨_, hitems, hok⟩ := bind_eq_ok hok
    obtain ⟨_, _, hok⟩ := bind_eq_ok hok
    obtain ⟨_, hroots, _⟩ := bind_eq_ok hok
    exact ⟨lt_of_checkRoom hitems, lt_of_checkRoom hroots⟩
  exact ⟨fun r hr => (hrooms r hr).2, fun r hr => (hrooms r hr).1, fun r hr =>
    length_arriving hsound r ▸ harrivals r hr⟩

/-- The routes that ranks get are the ones that their targets describe. -/
theorem eq_planned_of_yields {r : Nat} (hr : r < n) : routes r = planned n targets roots r := by
  have hplan := plan_together (κ := κ) (sound_of_yields hindex hlength hplanned)
    (fits_of_yields hindex hlength hplanned)
  have := List.map_inj_left.1 (hplanned.run_eq.symm.trans hplan.yields.run_eq) r
    (List.mem_range.2 hr)
  exact Except.ok.inj this

end

/-- Along routes that the ranks have planned, every item gets the `width` values that the rank
    of its target holds for the root there, in the order of the items. Indices and lengths are
    64-bit words, and the records of the items and of the copies fit in memory (`HasRoom`):
    less than half of all addresses. -/
theorem broadcast_gathers [Layout κ T] [LawfulLayout κ T]
    (hindex : ∀ r < n, ∀ p ∈ targets r, p.index < 2 ^ 64)
    (hlength : ∀ r < n, (targets r).length < 2 ^ 64)
    (hplanned : (World.start ((List.range n).map fun r =>
        (plan (κ := κ) (Seat.of r n) (targets r) (roots r)).toProgram)).Yields
      ((List.range n).map fun r => .ok (routes r)))
    {width : Nat} (hw : 0 < width) {data : Nat → List T}
    (hdata : ∀ r < n, (data r).length = roots r * width) (hwords : ∀ r < n, (data r).length < 2 ^ 64)
    (hroom : HasRoom κ T n routes width) :
    (World.start ((List.range n).map fun r =>
        (broadcast (κ := κ) (routes r).reverse (Seat.of r n) width (data r)).toProgram)).Yields
      ((List.range n).map fun r =>
        .ok ((targets r).flatMap fun p => recordAt width (data p.rank) p.index)) ∧
    ∀ r < n, ∀ p ∈ targets r, (recordAt width (data p.rank) p.index).length = width := by
  have hsound := sound_of_yields hindex hlength hplanned
  have hroutes : ∀ r < n, routes r = planned n targets roots r := fun _ hr =>
    eq_planned_of_yields hindex hlength hplanned hr
  have hroom' : HasRoom κ T n (planned n targets roots) width := fun r hr =>
    hroutes r hr ▸ hroom r hr
  have hrecord : ∀ r < n, ∀ k < roots r, (recordAt width (data r) k).length = width :=
    fun r hr _ hk => length_recordAt hw (hdata r hr) hk
  refine ⟨?_, fun r hr p hp =>
    hrecord p.rank (hsound.rank_lt r hr p hp) p.index (hsound.index_lt r hr p hp)⟩
  refine ((broadcastRecords_together hsound hw (fun r hr => hdata r hr ▸ hwords r hr) hroom'
    (fun p => recordAt width (data p.rank) p.index) hrecord).congr (fun r hr => ?_)
    fun _ _ => rfl).yields
  have hr := List.mem_range.1 hr
  -- what a rank holds for its roots, record by record
  have hrows : (Place.own r (roots r)).flatMap (fun p => recordAt width (data p.rank) p.index) =
      data r := by
    rw [Place.own, List.flatMap_map, List.flatMap_def, ← rows_eq_map_recordAt hw (hdata r hr),
      flatten_rows hw (hdata r hr)]
  rw [hrows, hroutes r hr]

/-- The targets of two ranks: items of both name one root, and another root is named by none. -/
def sharedRoots (r : Nat) : List Place :=
  if r = 0 then [⟨1, 0⟩, ⟨0, 1⟩, ⟨1, 0⟩] else [⟨0, 1⟩, ⟨1, 0⟩]

/-- Two values for each root. -/
def sharedData (r : Nat) : List UInt64 := if r = 0 then [10, 11, 12, 13] else [20, 21]

theorem broadcast_gathers_sharedRoots :
    (World.start ((List.range 2).map fun r => (broadcast (κ := UInt8)
      (planned 2 sharedRoots (fun r => 2 - r) r).reverse (Seat.of r 2) 2
      (sharedData r)).toProgram)).Yields
        [.ok [20, 21, 12, 13, 20, 21], .ok [12, 13, 20, 21]] := by
  have hsound : Sound 2 sharedRoots fun r => 2 - r := ⟨by decide, by decide⟩
  have hfits : Fits 2 sharedRoots fun r => 2 - r := ⟨by decide, by decide, by decide⟩
  have hdata : ∀ r < 2, (sharedData r).length = (2 - r) * 2 := by decide
  have hroom : HasRoom UInt8 UInt64 2 (planned 2 sharedRoots fun r => 2 - r) 2 := by
    unfold HasRoom
    decide
  exact (broadcast_gathers (by decide) (by decide) (plan_together hsound hfits).yields
    (by decide) hdata (by decide) hroom).1

end SharedMesh.Route
