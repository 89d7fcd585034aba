import SharedMesh.Mesh.Part
import SharedMesh.Proofs.Ownership.Resolving
import SharedMesh.Proofs.Ownership.Room

/-!
# Layers

What the ranks make of each dimension. The entities between vertices and elements are
numbered as the distinct keys of all ranks (`entityLayer`), the elements one rank after the
other (`elementLayer`). A single rank, which sends nothing, makes the same layers.
-/

namespace SharedMesh

variable {κ : Type} {n degree : Nat} {vertices numbers : Nat → List Nat}

/-! ## Layers of all ranks -/

/-- The vertices of a rank, which keep their numbers. -/
def vertexLayer (n : Nat) (numbers : Nat → List Nat) (r : Nat) : Layer where
  vertices := List.range (numbers r).length
  owners := firstOwners n (fun s => numberKeys (numbers s)) r
  globals := numbers r

/-- The keys of the entities of all ranks, each once. -/
def distinctKeys (n degree : Nat) (vertices numbers : Nat → List Nat) : List (List Nat) :=
  ((List.range n).flatMap fun r => recordKeys degree (vertices r) (numbers r)).eraseDups

/-- The entities with the given vertices, in canonical form. -/
def entityLayer (n degree : Nat) (vertices numbers : Nat → List Nat) (r : Nat) : Layer where
  vertices := (canonicalRecords degree (vertices r) (numbers r)).vertices
  owners := firstOwners n (fun s => recordKeys degree (vertices s) (numbers s)) r
  globals := (recordKeys degree (vertices r) (numbers r)).map
    (distinctKeys n degree vertices numbers).idxOf

/-- The elements of a rank, after those of the ranks before. -/
def elementLayer (degree : Nat) (vertices : Nat → List Nat) (r : Nat) : Layer where
  vertices := vertices r
  owners := Place.own r ((vertices r).length / degree)
  globals := List.range' (((List.range r).map fun s => (vertices s).length / degree).sum)
    ((vertices r).length / degree)

/-! ## Elements -/

/-- The owners of the elements of a rank: they own themselves. -/
def elementOwners (degree : Nat) (vertices : Nat → List Nat) (r : Nat) : List Place :=
  Place.own r ((vertices r).length / degree)

theorem soleOwners_eq_ok (seat : Seat) {count : Nat} (hroom : count * 16 < 2 ^ 63) :
    soleOwners seat count = .ok (Place.own seat.rank count) :=
  bind_of_ok (checkRoom_eq_ok hroom) _

theorem getElem?_own {r count i : Nat} (hi : i < count) :
    (Place.own r count)[i]? = some ⟨r, i⟩ := by
  simp [Place.own, hi]

/-- What is owned where it is owns itself. -/
theorem selfOwned_own (count : Nat → Nat) : SelfOwned n fun r => Place.own r (count r) := by
  constructor <;> intro r hr p hp <;> obtain ⟨i, hi, rfl⟩ := List.mem_map.1 hp
  · exact hr
  · exact getElem?_own (List.mem_range.1 hi)

theorem ownedPlaces_own (count : Nat → Nat) (r : Nat) :
    ownedPlaces (fun s => Place.own s (count s)) r = Place.own r (count r) := by
  rw [ownedPlaces, Place.length_own]
  refine List.filter_eq_self.2 fun p hp => decide_eq_true ?_
  obtain ⟨i, hi, rfl⟩ := List.mem_map.1 hp
  exact getElem?_own (List.mem_range.1 hi)

theorem selfOwned_elementOwners : SelfOwned n (elementOwners degree vertices) := selfOwned_own _

theorem ownedPlaces_elementOwners (r : Nat) :
    ownedPlaces (elementOwners degree vertices) r = elementOwners degree vertices r :=
  ownedPlaces_own _ r

theorem numberFrom_replicate (next count : Nat) :
    numberFrom next (List.replicate count true) = List.range' next count := by
  induction count generalizing next with
  | zero => rfl
  | succ count ih => rw [List.replicate_succ, numberFrom, ih, List.range'_succ]

/-- Elements are numbered rank by rank. -/
theorem map_idxOf_elementOwners {r : Nat} (hr : r < n) :
    (elementOwners degree vertices r).map (allOwned n (elementOwners degree vertices)).idxOf =
      (elementLayer degree vertices r).globals := by
  have hlength : ∀ s, (elementOwners degree vertices s).length = (vertices s).length / degree :=
    fun s => Place.length_own s _
  have hmask : ownedMask (Seat.of r n) (elementOwners degree vertices r) =
      List.replicate ((vertices r).length / degree) true := by
    rw [ownedMask_eq, hlength]
    refine List.eq_replicate_iff.2 ⟨by simp [Place.own], fun b hb => ?_⟩
    obtain ⟨p, hp, rfl⟩ := List.mem_map.1 hb
    obtain ⟨i, hi, rfl⟩ := List.mem_map.1 hp
    exact decide_eq_true (getElem?_own (List.mem_range.1 hi))
  have hnumbers := numberFrom_ownedMask (elementOwners degree vertices) hr
  rw [hmask, numberFrom_replicate, hlength] at hnumbers
  simp only [ownedPlaces_elementOwners, hlength] at hnumbers
  rw [elementLayer, hnumbers]
  refine List.map_congr_left fun p hp => ?_
  obtain ⟨i, hi, rfl⟩ := List.mem_map.1 hp
  exact (if_pos (getElem?_own (List.mem_range.1 hi))).symm

/-! ## Together -/

section

variable [Alphabet κ] [LawfulAlphabet κ]

theorem sharedVertices_together (h : ∀ r < n, ∀ g ∈ numbers r, g < 2 ^ 64 - 2)
    (hroom : MeetingRoom n 1 numbers fun r => numberKeys (numbers r)) :
    Together n (List.range n)
      (fun r => (Part.sharedVertices (Seat.of r n) (numbers r) : Proc κ Layer).toProgram)
      (fun r => .ok (vertexLayer n numbers r)) :=
  (ownersOfNumbers_together h hroom fun _ hr _ hkey => resolves_smallest hr hkey).mapOk

theorem sharedEntities_together (h : ∀ r < n, Acceptable degree (vertices r) (numbers r))
    (hkeyed : Keyed n degree numbers fun r => recordKeys degree (vertices r) (numbers r))
    (hroom : MeetingRoom n degree numbers fun r => recordKeys degree (vertices r) (numbers r))
    (hnumbering : NumberingRoom n
      (firstOwners n fun r => recordKeys degree (vertices r) (numbers r))) :
    Together n (List.range n) (fun r => (Part.sharedEntities (Seat.of r n) degree (vertices r)
        (numbers r) : Proc κ Layer).toProgram)
      (fun r => .ok (entityLayer n degree vertices numbers r)) := by
  refine Together.andThen (resolveCopies_together h hkeyed hroom fun _ hr _ hkey =>
    resolves_smallest hr hkey) ?_
  refine (numberOwned_together selfOwned_firstOwners hnumbering).mapOk.congr (fun _ _ => rfl)
    fun r hr => ?_
  rw [map_idxOf_firstOwners (List.mem_range.1 hr)]
  rfl

theorem sharedElements_together (hroom : NumberingRoom n (elementOwners degree vertices)) :
    Together n (List.range n) (fun r => (Part.sharedElements (Seat.of r n) degree (vertices r) :
        Proc κ Layer).toProgram)
      (fun r => .ok (elementLayer degree vertices r)) := by
  have howners : ∀ r ∈ List.range n, soleOwners (Seat.of r n) ((vertices r).length / degree) =
      .ok (elementOwners degree vertices r) := by
    intro r hr
    have := hroom.items_room r (List.mem_range.1 hr)
    rw [elementOwners, Place.length_own] at this
    exact soleOwners_eq_ok _ (by omega)
  refine Together.ofCheckedThen howners ?_
  refine (numberOwned_together selfOwned_elementOwners hroom).mapOk.congr (fun _ _ => rfl)
    fun r hr => ?_
  rw [map_idxOf_elementOwners (List.mem_range.1 hr)]
  rfl

end

/-! ## Alone -/

variable (seat : Seat) {vs gs : List Nat}

theorem soleVertices_eq (hseat : seat.rank = 0) (h : gs.Nodup) (hroom : gs.length * 16 < 2 ^ 63) :
    Part.soleVertices seat gs = .ok (vertexLayer 1 (fun _ => gs) 0) := by
  have hnodup : (numberKeys gs).Nodup := h.map fun _ _ => List.head_eq_of_cons_eq
  refine (bind_of_ok (soleOwners_eq_ok seat hroom) _).trans (congrArg Except.ok ?_)
  rw [vertexLayer, firstOwners_one hnodup, hseat, numberKeys, List.length_map]

/-- On a single rank the distinct keys are its keys. -/
theorem distinctKeys_one (h : (recordKeys degree vs gs).Nodup) :
    distinctKeys 1 degree (fun _ => vs) (fun _ => gs) = recordKeys degree vs gs := by
  rw [distinctKeys, List.range_one, List.flatMap_singleton, eraseDups_of_nodup h]

theorem map_idxOf_self {α : Type} [BEq α] [LawfulBEq α] {xs : List α} (h : xs.Nodup) :
    xs.map xs.idxOf = List.range xs.length := by
  refine List.ext_getElem (by simp) fun i hi _ => ?_
  have hi : i < xs.length := by simpa using hi
  simp [h.idxOf_getElem i hi]

theorem count_canonicalRecords (degree : Nat) (vs gs : List Nat) :
    (canonicalRecords degree vs gs).count = (recordKeys degree vs gs).length := by
  simp [Canonical.count, canonicalRecords, recordKeys]

theorem soleEntities_eq (hseat : seat.rank = 0) (h : Acceptable degree vs gs)
    (hnodup : (recordKeys degree vs gs).Nodup)
    (hroom : (recordKeys degree vs gs).length * 16 < 2 ^ 63) :
    Part.soleEntities seat degree vs gs =
      .ok (entityLayer 1 degree (fun _ => vs) (fun _ => gs) 0) := by
  refine (bind_of_ok (ofRecords_eq_ok h) _).trans ?_
  rw [count_canonicalRecords]
  refine (bind_of_ok (soleOwners_eq_ok seat hroom) _).trans (congrArg Except.ok ?_)
  rw [entityLayer, firstOwners_one hnodup, distinctKeys_one hnodup, map_idxOf_self hnodup, hseat]

theorem soleElements_eq (hseat : seat.rank = 0) (hroom : vs.length / degree * 16 < 2 ^ 63) :
    Part.soleElements seat degree vs = .ok (elementLayer degree (fun _ => vs) 0) := by
  refine (bind_of_ok (soleOwners_eq_ok seat hroom) _).trans (congrArg Except.ok ?_)
  rw [elementLayer, hseat, List.range_eq_range']
  rfl

end SharedMesh
