import SharedMesh.Ownership.Number
import SharedMesh.Proofs.Collective.Gather
import SharedMesh.Proofs.Route.Answering

/-!
# Numbers by ownership

If all owners own themselves, the places that own themselves, rank by rank, number the
entities: every entity gets the position of its owner in that list
(`numberOwned_together`).
-/

namespace SharedMesh

open Route

variable {κ : Type} {n : Nat} {owners : Nat → List Place}

/-- The owners are places of ranks, and own themselves. -/
structure SelfOwned (n : Nat) (owners : Nat → List Place) : Prop where
  rank_lt : ∀ r < n, ∀ p ∈ owners r, p.rank < n
  owner : ∀ r < n, ∀ p ∈ owners r, (owners p.rank)[p.index]? = some p

/-- The places of a rank that own themselves. -/
def ownedPlaces (owners : Nat → List Place) (r : Nat) : List Place :=
  (Place.own r (owners r).length).filter fun p => (owners r)[p.index]? = some p

/-- The places of all ranks that own themselves. -/
def allOwned (n : Nat) (owners : Nat → List Place) : List Place :=
  (List.range n).flatMap (ownedPlaces owners)

/-- What the ranks number takes less than half of all addresses, three words for each entity and
    four for each that asks for its number, and can be numbered. -/
structure NumberingRoom (n : Nat) (owners : Nat → List Place) : Prop where
  items_room : ∀ r < n, (owners r).length * 24 < 2 ^ 63
  arrivals_room : ∀ r < n, (arriving n owners r).length * 32 < 2 ^ 63
  total_lt : (allOwned n owners).length < 2 ^ 64

/-! ## Places that own themselves -/

theorem mem_ownedPlaces {r : Nat} {p : Place} :
    p ∈ ownedPlaces owners r ↔ p.rank = r ∧ (owners r)[p.index]? = some p := by
  simp only [ownedPlaces, Place.own, List.mem_filter, List.mem_map, List.mem_range,
    decide_eq_true_eq]
  constructor
  · rintro ⟨⟨i, _, rfl⟩, hp⟩
    exact ⟨rfl, hp⟩
  · rintro ⟨rfl, hp⟩
    exact ⟨⟨p.index, (List.getElem?_eq_some_iff.1 hp).1, rfl⟩, hp⟩

theorem mem_allOwned {p : Place} :
    p ∈ allOwned n owners ↔ p.rank < n ∧ (owners p.rank)[p.index]? = some p := by
  simp only [allOwned, List.mem_flatMap, List.mem_range, mem_ownedPlaces]
  constructor
  · rintro ⟨r, hr, rfl, hp⟩
    exact ⟨hr, hp⟩
  · rintro ⟨hr, hp⟩
    exact ⟨p.rank, hr, rfl, hp⟩

theorem nodup_own (r count : Nat) : (Place.own r count).Nodup :=
  List.nodup_range.map fun i j hij => by simpa using hij

theorem nodup_allOwned : (allOwned n owners).Nodup := by
  rw [allOwned, List.Nodup, List.pairwise_flatMap]
  refine ⟨fun r _ => (nodup_own _ _).filter _,
    List.pairwise_lt_range.imp fun hlt p hp q hq hpq => ?_⟩
  rw [mem_ownedPlaces] at hp hq
  rw [hpq, hq.1] at hp
  omega

/-- The mask of owned entities, place by place. -/
theorem ownedMask_eq (r : Nat) : ownedMask (Seat.of r n) (owners r) =
    (Place.own r (owners r).length).map fun p => decide ((owners r)[p.index]? = some p) := by
  refine List.ext_getElem (by simp [ownedMask, Place.own]) fun i hi _ => ?_
  have hi : i < (owners r).length := by simpa [ownedMask] using hi
  simp [ownedMask, Place.own, hi]

theorem count_ownedMask (r : Nat) :
    (ownedMask (Seat.of r n) (owners r)).count true = (ownedPlaces owners r).length := by
  rw [ownedMask_eq, ownedPlaces, List.count, List.countP_map, List.countP_eq_length_filter]
  simp only [Function.comp_def, beq_true]

/-- Each number is that of one place that owns itself. -/
theorem existsUnique_owned {g : Nat} (hg : g < (allOwned n owners).length) :
    ∃! p : Place, p.rank < n ∧
      ((owners p.rank).map (allOwned n owners).idxOf)[p.index]? = some g ∧
        (ownedMask (Seat.of p.rank n) (owners p.rank))[p.index]? = some true := by
  have hmask : ∀ p : Place, (ownedMask (Seat.of p.rank n) (owners p.rank))[p.index]? = some true ↔
      (owners p.rank)[p.index]? = some p := by
    intro p
    simp only [ownedMask, List.getElem?_map, List.getElem?_zipIdx, Option.map_map,
      Option.map_eq_some_iff, Function.comp_apply, Seat.rank_of, Nat.zero_add]
    constructor
    · rintro ⟨owner, howner, hp⟩
      rwa [of_decide_eq_true hp] at howner
    · intro hp
      exact ⟨p, hp, decide_eq_true rfl⟩
  refine ⟨(allOwned n owners)[g], ?_, ?_⟩
  · obtain ⟨hrank, howner⟩ := mem_allOwned.1 (List.getElem_mem hg)
    refine ⟨hrank, ?_, (hmask _).2 howner⟩
    rw [List.getElem?_map, howner, Option.map_some, nodup_allOwned.idxOf_getElem g hg]
  · rintro p ⟨hrank, hnumber, howned⟩
    have howner := (hmask p).1 howned
    rw [List.getElem?_map, howner, Option.map_some, Option.some.injEq] at hnumber
    simp only [← hnumber, List.getElem_idxOf]

/-! ## Numbers -/

/-- Numbers are positions among what is numbered, after what came before. -/
theorem numberFrom_map {α : Type} [DecidableEq α] (q : α → Bool) {before items : List α}
    (h : (before ++ items).Nodup) : numberFrom before.length (items.map q) =
      items.map fun x => if q x then (before ++ items.filter q).idxOf x else 0 := by
  induction items generalizing before with
  | nil => rfl
  | cons x items ih =>
    have hx : x ∉ before := fun hx => (List.nodup_append.1 h).2.2 x hx x List.mem_cons_self rfl
    cases hq : q x with
    | false =>
      have ih := ih (h.sublist (List.Sublist.append_left (List.sublist_cons_self x items) before))
      simp [numberFrom, hq, ih]
    | true =>
      have ih := @ih (before ++ [x]) (by simpa using h)
      rw [List.length_append, List.length_singleton] at ih
      simp [numberFrom, hq, ih, List.idxOf_append, hx]

/-- The numbers that a rank gives to its own entities, and zeros. -/
def ownNumber (n : Nat) (owners : Nat → List Place) (p : Place) : Nat :=
  if (owners p.rank)[p.index]? = some p then (allOwned n owners).idxOf p else 0

theorem numberFrom_ownedMask (owners : Nat → List Place) {r : Nat} (hr : r < n) :
    numberFrom ((List.range r).map fun s => (ownedPlaces owners s).length).sum
      (ownedMask (Seat.of r n) (owners r)) =
        (Place.own r (owners r).length).map (ownNumber n owners) := by
  -- the ranks before, this rank, and the ranks after it
  obtain ⟨k, rfl⟩ := Nat.exists_eq_add_of_lt hr
  have hsplit : allOwned (r + k + 1) owners = ((List.range r).flatMap (ownedPlaces owners) ++
      ownedPlaces owners r) ++ ((List.range k).map (r + 1 + ·)).flatMap (ownedPlaces owners) := by
    rw [allOwned, show r + k + 1 = r + 1 + k by omega, List.range_add, List.flatMap_append,
      List.range_succ, List.flatMap_append, List.flatMap_singleton]
  have hnodup : ((List.range r).flatMap (ownedPlaces owners) ++
      Place.own r (owners r).length).Nodup := by
    refine List.nodup_append.2 ⟨nodup_allOwned (n := r), nodup_own _ _, fun p hp q hq hpq => ?_⟩
    have hrank := (mem_allOwned.1 hp).1
    obtain ⟨i, _, rfl⟩ := List.mem_map.1 hq
    rw [hpq] at hrank
    exact Nat.lt_irrefl r hrank
  rw [← List.length_flatMap, ownedMask_eq, numberFrom_map _ hnodup]
  refine List.map_congr_left fun p hp => ?_
  obtain ⟨i, _, rfl⟩ := List.mem_map.1 hp
  by_cases howned : (owners r)[i]? = some ⟨r, i⟩
  · have hmem : (⟨r, i⟩ : Place) ∈ (List.range r).flatMap (ownedPlaces owners) ++
        ownedPlaces owners r :=
      List.mem_append_right _ (mem_ownedPlaces.2 ⟨rfl, howned⟩)
    simp only [ownNumber, howned, decide_true, if_true]
    rw [hsplit, List.idxOf_append_of_mem hmem]
    rfl
  · simp [ownNumber, howned]

/-! ## All ranks -/

theorem SelfOwned.sound (h : SelfOwned n owners) :
    Sound n owners fun r => (owners r).length :=
  ⟨h.rank_lt, fun r hr p hp => (List.getElem?_eq_some_iff.1 (h.owner r hr p hp)).1⟩

theorem NumberingRoom.copies_room (h : NumberingRoom n owners) {r : Nat} (hr : r < n) :
    (copies n owners r (owners r).length).length * 32 < 2 ^ 63 := by
  have := h.arrivals_room r hr
  have : (copies n owners r (owners r).length).length ≤ (arriving n owners r).length :=
    length_copies_le_arriving r _
  omega

theorem NumberingRoom.fits (h : NumberingRoom n owners) :
    Fits n owners fun r => (owners r).length := by
  refine ⟨fun r hr => ?_, h.items_room, fun r hr => h.copies_room hr⟩
  have := h.items_room r hr
  omega

/-- The numbers of the entities can be carried back. -/
theorem NumberingRoom.hasRoom [Alphabet κ] (h : NumberingRoom n owners) :
    HasRoom κ UInt64 n (planned n owners fun r => (owners r).length) 1 := by
  intro r hr
  have hsize : Layout.size κ UInt64 = 8 := rfl
  have hitems := h.items_room r hr
  have hcopies := h.copies_room hr
  rw [itemCount_planned, itemCount_far_planned, hsize]
  omega

/-- How many ask for the number of each entity, and whether it owns itself. -/
theorem zip_fanCounts_ownedMask (owners : Nat → List Place) (r : Nat) :
    (planned n owners (fun r => (owners r).length) r).reverse.near.fanCounts.zip
      (ownedMask (Seat.of r n) (owners r)) = (List.range (owners r).length).map fun k =>
        ((namers n owners ⟨r, k⟩).length, decide ((owners r)[k]? = some ⟨r, k⟩)) := by
  have hcounts : (planned n owners (fun r => (owners r).length) r).reverse.near.fanCounts =
      (List.range (owners r).length).map fun k => (namers n owners ⟨r, k⟩).length :=
    fanCounts_planned owners (fun r => (owners r).length) r
  rw [hcounts, ownedMask_eq, Place.own, List.map_map, List.zip_map, List.zip, List.zipWith_self,
    List.map_map]
  rfl

/-- Only places that own themselves are named as owners. -/
theorem checkReferences_eq_ok (h : SelfOwned n owners) (r : Nat) :
    checkReferences r (planned n owners (fun r => (owners r).length) r).reverse.near.fanCounts
      (ownedMask (Seat.of r n) (owners r)) = .ok () := by
  have hnone : (((planned n owners (fun r => (owners r).length) r).reverse.near.fanCounts.zip
      (ownedMask (Seat.of r n) (owners r))).findIdx? fun x => 0 < x.1 && !x.2) = none := by
    rw [List.findIdx?_eq_none_iff, zip_fanCounts_ownedMask]
    intro x hx
    obtain ⟨k, _, rfl⟩ := List.mem_map.1 hx
    by_cases hpos : 0 < (namers n owners ⟨r, k⟩).length
    · obtain ⟨q, hq⟩ := List.exists_mem_of_length_pos hpos
      obtain ⟨hrank, hq⟩ := mem_namers.1 hq
      simp [h.owner _ hrank _ (List.mem_of_getElem? hq)]
    · simp [Nat.eq_zero_of_not_pos hpos]
  rw [checkReferences, hnone]

/-- Every rank starts from how many entities the ranks before it own. -/
theorem countOwned_together [Alphabet κ] [LawfulAlphabet κ]
    (htotal : (allOwned n owners).length < 2 ^ 64) :
    Together n (List.range n)
      (fun r => (scanNumbers (Seat.of r n) (Group.all (Seat.of r n)) scanTag
        ((ownedMask (Seat.of r n) (owners r)).count true) : Proc κ (Nat × Nat)).toProgram)
      (fun r => .ok (((List.range r).map fun s => (ownedPlaces owners s).length).sum,
        (allOwned n owners).length)) := by
  have hsum : ((List.range n).map fun r => (ownedMask (Seat.of r n) (owners r)).count true).sum =
      (allOwned n owners).length := by
    simp only [count_ownedMask, allOwned, List.length_flatMap]
  simp only [Group.all_of]
  refine (scanNumbers_together (g := ⟨List.range n⟩) List.nodup_range
    (fun _ hr => List.mem_range.1 hr)
    (fun r => (ownedMask (Seat.of r n) (owners r)).count true) ?_).congr (fun _ _ => rfl)
      fun r hr => ?_
  · rw [hsum]
    exact htotal
  · rw [takeWhile_ne_range (List.mem_range.1 hr), hsum]
    simp only [count_ownedMask]

/-- Every entity gets the number of its owner, the position among all that own
    themselves. -/
theorem numberOwned_together [Alphabet κ] [LawfulAlphabet κ] (h : SelfOwned n owners)
    (hroom : NumberingRoom n owners) :
    Together n (List.range n)
      (fun r => (numberOwned (Seat.of r n) (owners r) : Proc κ (List Nat)).toProgram)
      (fun r => .ok ((owners r).map (allOwned n owners).idxOf)) := by
  have hnumber : ∀ p, (allOwned n owners).idxOf p < 2 ^ 64 := fun p =>
    Nat.lt_of_le_of_lt List.idxOf_le_length hroom.total_lt
  refine Together.andThen (countOwned_together hroom.total_lt) ?_
  refine Together.andThen (plan_together h.sound hroom.fits) ?_
  refine Together.allPassThen (fun r _ => checkReferences_eq_ok h r) ?_
  refine Together.andThen (a := fun r => (owners r).map fun p =>
    UInt64.ofNat (ownNumber n owners p)) ?_ ?_
  · refine (broadcast_together h.sound (fun _ => hroom.fits.items_lt) hroom.hasRoom
      fun p => UInt64.ofNat (ownNumber n owners p)).congr (fun r hr => ?_) fun _ _ => rfl
    rw [numberFrom_ownedMask owners (List.mem_range.1 hr), List.map_map]
    rfl
  · refine (Together.done _).congr (fun _ _ => rfl) fun r hr => congrArg Except.ok ?_
    rw [List.map_map]
    refine List.map_congr_left fun p hp => ?_
    rw [Function.comp_apply, ownNumber, if_pos (h.owner r (List.mem_range.1 hr) p hp),
      toNat_ofNat_word (hnumber p)]

end SharedMesh
