import SharedMesh.Proofs.Ownership.Room
import SharedMesh.Proofs.Route.Refusing

/-!
# Numbers from any owners

The ranks may name any places as owners. If all of these own themselves, every entity gets
the number of its owner, which is how many places that own themselves come before it
(`ownedNumber`); these numbers are counted without gaps (`bijOn_ownedNumber`). Otherwise no
rank gets any number. Both hold for every play of the world (`numberOwned_yields`).
-/

namespace SharedMesh

open Route

variable {n : Nat} {owners : Nat → List Place}

/-- The places of all ranks could arrive on one, at 32 bytes each, and take less than half of
    all addresses there; and their indices are words. -/
structure InMemory (n : Nat) (places : Nat → List Place) : Prop where
  index_lt : ∀ r < n, ∀ p ∈ places r, p.index < 2 ^ 64
  room : itemTotal n places * 32 < 2 ^ 63

theorem InMemory.length_lt (h : InMemory n owners) {r : Nat} (hr : r < n) :
    (owners r).length < 2 ^ 64 := by
  have := length_le_itemTotal owners hr
  have := h.room
  omega

theorem InMemory.numberingRoom (h : InMemory n owners) : NumberingRoom n owners :=
  numberingRoom_of_sum h.room

/-! ## The numbers -/

/-- The places that own themselves. -/
def selfOwners (n : Nat) (owners : Nat → List Place) : Set Place :=
  {p | p.rank < n ∧ (owners p.rank)[p.index]? = some p}

/-- How many places that own themselves come before a place. -/
noncomputable def ownedNumber (n : Nat) (owners : Nat → List Place) (p : Place) : Nat :=
  {q | q ∈ selfOwners n owners ∧ q.Before p}.ncard

theorem Place.Before.asymm {p q : Place} (h : p.Before q) : ¬ q.Before p := by
  rintro (h' | ⟨_, h'⟩) <;> rcases h with h | ⟨_, h⟩ <;> omega

theorem Place.Before.trans {p q s : Place} (h : p.Before q) (h' : q.Before s) : p.Before s := by
  rcases h with h | ⟨h₁, h₂⟩ <;> rcases h' with h' | ⟨h₁', h₂'⟩
  · exact .inl (h.trans h')
  · exact .inl (h₁' ▸ h)
  · exact .inl (h₁ ▸ h')
  · exact .inr ⟨h₁.trans h₁', h₂.trans h₂'⟩

theorem Place.before_or_eq (p q : Place) : p.Before q ∨ p = q ∨ q.Before p := by
  obtain ⟨r, i⟩ := p
  obtain ⟨s, j⟩ := q
  simp only [Before, mk.injEq]
  omega

/-- In a list of places in order, a place is behind those that come before it. -/
theorem idxOf_eq_ncard {places : List Place} (h : places.Pairwise Place.Before) {p : Place}
    (hp : p ∈ places) : places.idxOf p = {q | q ∈ places ∧ q.Before p}.ncard := by
  obtain ⟨before, after, rfl⟩ := List.append_of_mem hp
  obtain ⟨hbefore, hrest, hacross⟩ := List.pairwise_append.1 h
  have hfirst : ∀ q ∈ before, q.Before p := fun q hq => hacross q hq p List.mem_cons_self
  have hset : {q | q ∈ before ++ p :: after ∧ q.Before p} = {q | q ∈ before} := by
    ext q
    constructor
    · rintro ⟨hq, hlt⟩
      rcases List.mem_append.1 hq with hq | hq
      · exact hq
      · rcases List.mem_cons.1 hq with rfl | hq
        · exact absurd hlt hlt.asymm
        · exact absurd hlt ((List.pairwise_cons.1 hrest).1 q hq).asymm
    · exact fun hq => ⟨List.mem_append_left _ hq, hfirst q hq⟩
  have hfresh : p ∉ before := fun hmem => (hfirst p hmem).asymm (hfirst p hmem)
  rw [hset, ncard_setOf_mem (Place.nodup_of_before hbefore), List.idxOf_append_of_notMem hfresh,
    List.idxOf_cons_self, Nat.add_zero]

theorem pairwise_allOwned : (allOwned n owners).Pairwise Place.Before := by
  rw [allOwned, List.pairwise_flatMap]
  constructor
  · intro r _
    refine List.Pairwise.filter _ (List.pairwise_map.2 ?_)
    exact List.pairwise_lt_range.imp fun hlt => .inr ⟨rfl, hlt⟩
  · refine List.pairwise_lt_range.imp fun hlt p hp q hq => .inl ?_
    rwa [(mem_ownedPlaces.1 hp).1, (mem_ownedPlaces.1 hq).1]

theorem selfOwners_eq : selfOwners n owners = {p | p ∈ allOwned n owners} :=
  Set.ext fun _ => mem_allOwned.symm

theorem idxOf_allOwned {p : Place} (hp : p ∈ selfOwners n owners) :
    (allOwned n owners).idxOf p = ownedNumber n owners p := by
  rw [ownedNumber, selfOwners_eq]
  exact idxOf_eq_ncard pairwise_allOwned (mem_allOwned.2 hp)

/-- The places that own themselves are counted from zero, without gaps. -/
theorem bijOn_ownedNumber (n : Nat) (owners : Nat → List Place) :
    Set.BijOn (ownedNumber n owners) (selfOwners n owners)
      (Set.Iio (selfOwners n owners).ncard) := by
  have hbij : Set.BijOn (allOwned n owners).idxOf (selfOwners n owners)
      (Set.Iio (allOwned n owners).length) := by
    rw [selfOwners_eq]
    exact bijOn_idxOf nodup_allOwned
  rw [show (selfOwners n owners).ncard = (allOwned n owners).length by
    rw [selfOwners_eq, ncard_setOf_mem nodup_allOwned]]
  exact hbij.congr fun p hp => idxOf_allOwned hp

/-- Later places that own themselves have larger numbers. -/
theorem ownedNumber_lt {p q : Place} (hp : p ∈ selfOwners n owners) (h : p.Before q) :
    ownedNumber n owners p < ownedNumber n owners q := by
  have hfinite : (selfOwners n owners).Finite := by
    rw [selfOwners_eq]
    exact List.finite_toSet _
  refine Set.ncard_lt_ncard ⟨fun s hs => ⟨hs.1, hs.2.trans h⟩, fun hle => ?_⟩
    (hfinite.subset fun s hs => hs.1)
  have := (hle ⟨hp, h⟩).2
  exact this.asymm this

theorem SelfOwned.mem_selfOwners (h : SelfOwned n owners) {r : Nat} (hr : r < n) {p : Place}
    (hp : p ∈ owners r) : p ∈ selfOwners n owners :=
  ⟨h.rank_lt r hr p hp, h.owner r hr p hp⟩

/-! ## Owners that do not own themselves -/

/-- An owner that does not own itself is found by its rank. -/
theorem checkReferences_eq_error {r : Nat} (hr : r < n) {p : Place} (hp : p ∈ owners r)
    (hindex : p.index < (owners p.rank).length) (hstray : (owners p.rank)[p.index]? ≠ some p) :
    ∃ e, checkReferences p.rank
      (planned n owners (fun r => (owners r).length) p.rank).reverse.near.fanCounts
      (ownedMask (Seat.of p.rank n) (owners p.rank)) = .error e := by
  obtain ⟨i, hi⟩ := List.mem_iff_getElem?.1 hp
  have hnamed : 0 < (namers n owners p).length :=
    List.length_pos_of_mem ((mem_namers (q := ⟨r, i⟩)).2 ⟨hr, hi⟩)
  rw [checkReferences, zip_fanCounts_ownedMask]
  cases hfind : List.findIdx? (fun x : Nat × Bool => 0 < x.1 && !x.2)
      ((List.range (owners p.rank).length).map fun k =>
        ((namers n owners ⟨p.rank, k⟩).length,
          decide ((owners p.rank)[k]? = some ⟨p.rank, k⟩))) with
  | some k => exact ⟨_, rfl⟩
  | none =>
    have := List.findIdx?_eq_none_iff.1 hfind _
      (List.mem_map.2 ⟨p.index, List.mem_range.2 hindex, rfl⟩)
    simp [hnamed, hstray] at this

variable {κ : Type} [Alphabet κ] [LawfulAlphabet κ]

/-- If some owner does not own itself, no rank numbers its entities. -/
theorem numberOwned_together_of_not_selfOwned (hmemory : InMemory n owners)
    (h : ¬ SelfOwned n owners) :
    ∃ e : Nat → MeshError, Together n (List.range n)
      (fun r => (numberOwned (Seat.of r n) (owners r) : Proc κ (List Nat)).toProgram)
      fun r => .error (e r) := by
  have hroom := hmemory.numberingRoom
  by_cases hsound : Sound n owners fun r => (owners r).length
  · -- all owners are there, but some names another one
    obtain ⟨r, hr, p, hp, hstray⟩ :
        ∃ r < n, ∃ p ∈ owners r, (owners p.rank)[p.index]? ≠ some p := by
      by_contra hnone
      push Not at hnone
      exact h ⟨hsound.rank_lt, hnone⟩
    obtain ⟨e, he⟩ := checkReferences_eq_error hr hp (hsound.index_lt r hr p hp) hstray
    obtain ⟨errors, _, hfail⟩ := Together.allPassFails (κ := κ) (β := List Nat) .ownerReferences
      (fun s => checkReferences s
        (planned n owners (fun r => (owners r).length) s).reverse.near.fanCounts
        (ownedMask (Seat.of s n) (owners s))) (hsound.rank_lt r hr p hp) he
    refine ⟨errors, Together.andThen (countOwned_together hroom.total_lt) ?_⟩
    exact Together.andThen (plan_together hsound hroom.fits) (hfail _)
  · obtain ⟨errors, _, hfail⟩ := plan_together_of_not_sound (κ := κ) hsound hmemory.index_lt
      (fun r hr => hmemory.length_lt hr) fun _ => hroom.arrivals_room
    exact ⟨errors, Together.andThen (countOwned_together hroom.total_lt) hfail.orFail⟩

/-- If all owners own themselves, the ranks number their entities: an entity gets the number
    of its owner, the places that own themselves are counted in order and without gaps, and
    two entities have one number only if they have one owner. Otherwise all ranks fail. What is
    asked of the machine is that the owners of all ranks fit in memory (`InMemory`). -/
theorem numberOwned_yields (hmemory : InMemory n owners) :
    (SelfOwned n owners →
      (World.start ((List.range n).map fun r =>
        (numberOwned (κ := κ) (Seat.of r n) (owners r)).toProgram)).Yields
          ((List.range n).map fun r => .ok ((owners r).map (ownedNumber n owners))) ∧
      Set.BijOn (ownedNumber n owners) (selfOwners n owners)
        (Set.Iio (selfOwners n owners).ncard) ∧
      (∀ p ∈ selfOwners n owners, ∀ q ∈ selfOwners n owners,
        ownedNumber n owners p < ownedNumber n owners q ↔ p.Before q) ∧
      ∀ r < n, ∀ s < n, ∀ p ∈ owners r, ∀ q ∈ owners s,
        ownedNumber n owners p = ownedNumber n owners q ↔ p = q) ∧
    (¬ SelfOwned n owners → ∃ e : Nat → MeshError,
      (World.start ((List.range n).map fun r =>
        (numberOwned (κ := κ) (Seat.of r n) (owners r)).toProgram)).Yields
          ((List.range n).map fun r => .error (e r))) := by
  constructor
  · intro h
    refine ⟨?_, bijOn_ownedNumber n owners, fun p hp q hq => ⟨fun hlt => ?_, ownedNumber_lt hp⟩,
      fun r hr s hs p hp q hq => ?_⟩
    · refine ((numberOwned_together h hmemory.numberingRoom).congr (fun _ _ => rfl)
        fun r hr => congrArg Except.ok (List.map_congr_left fun p hp => ?_)).yields
      exact idxOf_allOwned (h.mem_selfOwners (List.mem_range.1 hr) hp)
    · rcases Place.before_or_eq p q with hpq | rfl | hqp
      · exact hpq
      · exact absurd hlt (Nat.lt_irrefl _)
      · exact absurd (ownedNumber_lt hq hqp) (Nat.lt_asymm hlt)
    · exact (bijOn_ownedNumber n owners).injOn.eq_iff (h.mem_selfOwners hr hp)
        (h.mem_selfOwners hs hq)
  · intro h
    obtain ⟨e, he⟩ := numberOwned_together_of_not_selfOwned (κ := κ) hmemory h
    exact ⟨e, he.yields⟩

/-- The owners on two ranks: both hold an entity of the other one. -/
def crossedOwners (r : Nat) : List Place :=
  if r = 0 then [⟨1, 1⟩, ⟨0, 1⟩, ⟨0, 2⟩] else [⟨0, 1⟩, ⟨1, 1⟩]

/-- The owners on two ranks, of which the first names an entity that is owned by another. -/
def chainedOwners (r : Nat) : List Place :=
  if r = 0 then [⟨1, 0⟩] else [⟨1, 1⟩, ⟨1, 1⟩]

theorem numberOwned_yields_crossed :
    (World.start ((List.range 2).map fun r =>
      (numberOwned (κ := UInt8) (Seat.of r 2) (crossedOwners r)).toProgram)).Yields
        [.ok [2, 0, 1], .ok [0, 2]] ∧
    ∃ e : Nat → MeshError, (World.start ((List.range 2).map fun r =>
      (numberOwned (κ := UInt8) (Seat.of r 2) (chainedOwners r)).toProgram)).Yields
        ((List.range 2).map fun r => .error (e r)) := by
  have hself : SelfOwned 2 crossedOwners := ⟨by decide, by decide⟩
  have hstray : ¬ SelfOwned 2 chainedOwners := fun h =>
    absurd (h.owner 0 (by decide) ⟨1, 0⟩ (by decide)) (by decide)
  have hcrossed : InMemory 2 crossedOwners := ⟨by decide, by decide⟩
  have hchained : InMemory 2 chainedOwners := ⟨by decide, by decide⟩
  obtain ⟨hyields, _⟩ := (numberOwned_yields (κ := UInt8) hcrossed).1 hself
  have hnumbers : ((List.range 2).map fun r => (Except.ok
      ((crossedOwners r).map (ownedNumber 2 crossedOwners)) : Checked (List Nat))) =
        [.ok [2, 0, 1], .ok [0, 2]] := by
    have hnumber : ∀ r < 2, (crossedOwners r).map (ownedNumber 2 crossedOwners) =
        (crossedOwners r).map (allOwned 2 crossedOwners).idxOf := fun r hr =>
      List.map_congr_left fun p hp => (idxOf_allOwned (hself.mem_selfOwners hr hp)).symm
    have hzero : (crossedOwners 0).map (allOwned 2 crossedOwners).idxOf = [2, 0, 1] := by decide
    have hone : (crossedOwners 1).map (allOwned 2 crossedOwners).idxOf = [0, 2] := by decide
    rw [← hzero, ← hone, ← hnumber 0 (by decide), ← hnumber 1 (by decide)]
    rfl
  exact ⟨hnumbers ▸ hyields, (numberOwned_yields hchained).2 hstray⟩

end SharedMesh
