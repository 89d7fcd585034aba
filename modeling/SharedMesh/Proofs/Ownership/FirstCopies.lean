import SharedMesh.Proofs.Ownership.Meeting
import SharedMesh.Proofs.Ownership.Numbering

/-!
# First copies

If the first copy of each entity is its owner, every entity has one (`resolves_smallest`).
The places that own themselves are those at which keys appear for the first time, rank
by rank. So the entities are numbered as if the keys of all ranks were laid end to end, and
made distinct (`map_idxOf_firstOwners`).
-/

namespace SharedMesh

open Route

variable {n : Nat} {keys : Nat → List (List Nat)}

/-! ## The first of some places -/

theorem foldl_min_of_le {p : Place} {ps : List Place} (h : ∀ q ∈ ps, p.le q = true) :
    ps.foldl min p = p := by
  induction ps with
  | nil => rfl
  | cons q ps ih =>
    rw [List.foldl_cons, show min p q = p from if_pos (h q List.mem_cons_self),
      ih fun q hq => h q (List.mem_cons_of_mem _ hq)]

/-- The first of places that come in order. -/
theorem first?_of_pairwise {ps : List Place} (h : ps.Pairwise Place.Before) :
    Place.first? ps = ps.head? := by
  cases ps with
  | nil => rfl
  | cons p ps =>
    rw [Place.first?, List.min?_cons',
      foldl_min_of_le fun q hq => ((List.pairwise_cons.1 h).1 q hq).le.1]
    rfl

/-! ## Keys and their first places -/

/-- The places of the items of all ranks. -/
def itemPlaces (n : Nat) (keys : Nat → List (List Nat)) : List Place :=
  (List.range n).flatMap fun r => Place.own r (keys r).length

theorem mem_itemPlaces {p : Place} :
    p ∈ itemPlaces n keys ↔ p.rank < n ∧ p.index < (keys p.rank).length :=
  mem_allSlots

/-- The items come rank by rank. -/
theorem pairwise_itemPlaces : (itemPlaces n keys).Pairwise Place.Before := pairwise_allSlots _ _

theorem nodup_itemPlaces : (itemPlaces n keys).Nodup := Place.nodup_of_before pairwise_itemPlaces

theorem map_keyAt_own (r : Nat) : (Place.own r (keys r).length).map (keyAt keys) = keys r := by
  refine List.ext_getElem (by simp [Place.own]) fun i hi _ => ?_
  have hi : i < (keys r).length := by simpa [Place.own] using hi
  simp [Place.own, keyAt, hi]

theorem map_keyAt_itemPlaces :
    (itemPlaces n keys).map (keyAt keys) = (List.range n).flatMap keys := by
  simp only [itemPlaces, List.map_flatMap, map_keyAt_own]

/-- The items with a key are in the places where the key is. -/
theorem namers_eq_filter (key : List Nat) :
    namers n keys key = (itemPlaces n keys).filter fun p => keyAt keys p = key := by
  rw [namers, itemPlaces, List.filter_flatMap]
  refine List.flatMap_congr fun r _ => ?_
  have hzip : (keys r).zipIdx =
      (List.range (keys r).length).map fun i => (keyAt keys ⟨r, i⟩, i) := by
    refine List.ext_getElem (by simp) fun i hi _ => ?_
    have hi : i < (keys r).length := by simpa using hi
    simp [keyAt, hi]
  rw [hzip, List.filter_map, List.map_map, Place.own, List.filter_map]
  rfl

/-- The owner of a key is where it is for the first time. -/
theorem ownerOf_smallest (key : List Nat) : ownerOf n keys .smallest key =
    ((itemPlaces n keys).find? fun p => keyAt keys p = key).getD default := by
  rw [ownerOf, OwnerPolicy.smallest, first?_of_pairwise (pairwise_namers key), namers_eq_filter,
    List.head?_filter]

theorem find?_itemPlaces {r : Nat} (hr : r < n) {key : List Nat} (hkey : key ∈ keys r) :
    (itemPlaces n keys).find? (fun p => keyAt keys p = key) =
      some (ownerOf n keys .smallest key) := by
  have hmem : key ∈ (itemPlaces n keys).map (keyAt keys) := by
    rw [map_keyAt_itemPlaces]
    exact List.mem_flatMap.2 ⟨r, List.mem_range.2 hr, hkey⟩
  obtain ⟨p, hp, rfl⟩ := List.mem_map.1 hmem
  rw [ownerOf_smallest]
  cases h : (itemPlaces n keys).find? fun q => keyAt keys q = keyAt keys p with
  | none => exact absurd (List.find?_eq_none.1 h p hp) (by simp)
  | some q => rfl

/-- The owner of an item is the first one with the same key. -/
theorem ownerOf_first {p : Place} (hp : p ∈ itemPlaces n keys) :
    let q := ownerOf n keys .smallest (keyAt keys p)
    q ∈ itemPlaces n keys ∧ keyAt keys q = keyAt keys p ∧
      ∀ s ∈ itemPlaces n keys, keyAt keys s = keyAt keys p → s = q ∨ q.Before s := by
  obtain ⟨hrank, hindex⟩ := mem_itemPlaces.1 hp
  have hkey : keyAt keys p ∈ keys p.rank := by simp [keyAt, hindex]
  obtain ⟨hq, before, after, hsplit, hbefore⟩ :=
    List.find?_eq_some_iff_append.1 (find?_itemPlaces hrank hkey)
  have hordered : (itemPlaces n keys).Pairwise Place.Before := pairwise_itemPlaces
  rw [hsplit] at hordered
  refine ⟨hsplit ▸ List.mem_append_right _ List.mem_cons_self, by simpa using hq,
    fun s hs hsame => ?_⟩
  rw [hsplit] at hs
  rcases List.mem_append.1 hs with hs | hs
  · simpa [hsame] using hbefore s hs
  · exact (List.mem_cons.1 hs).imp id fun hs =>
      (List.pairwise_cons.1 (List.pairwise_append.1 hordered).2.1).1 s hs

/-- The owner of a key is one of the items with that key. -/
theorem ownerOf_mem_namers {r : Nat} (hr : r < n) {key : List Nat} (hkey : key ∈ keys r) :
    ownerOf n keys .smallest key ∈ namers n keys key := by
  have h := find?_itemPlaces hr hkey
  have howner := List.find?_some h
  rw [namers_eq_filter, List.mem_filter]
  exact ⟨List.mem_of_find?_eq_some h, howner⟩

/-- Every key that is there has a first item. -/
theorem resolves_smallest {r : Nat} (hr : r < n) {key : List Nat} (hkey : key ∈ keys r) :
    Resolves n keys .smallest key := by
  refine ⟨_, ownerOf_mem_namers hr hkey, (first?_of_pairwise (pairwise_namers key)).trans ?_⟩
  rw [namers_eq_filter, List.head?_filter, find?_itemPlaces hr hkey]

/-! ## Numbers -/

/-- The owners of the items of a rank, if those are the first items with their keys. -/
def firstOwners (n : Nat) (keys : Nat → List (List Nat)) (r : Nat) : List Place :=
  (keys r).map (ownerOf n keys .smallest)

theorem selfOwned_firstOwners : SelfOwned n (firstOwners n keys) := by
  constructor <;> intro r hr p hp <;> obtain ⟨key, hkey, rfl⟩ := List.mem_map.1 hp <;>
    obtain ⟨hrank, howner⟩ := mem_namers.1 (ownerOf_mem_namers hr hkey)
  · exact hrank
  · rw [firstOwners, List.getElem?_map, howner, Option.map_some]

/-- A single rank without repeated keys owns all its items. -/
theorem firstOwners_one (h : (keys 0).Nodup) :
    firstOwners 1 keys 0 = Place.own 0 (keys 0).length := by
  refine List.ext_getElem (by simp [firstOwners, Place.own]) fun i hi _ => ?_
  have hi : i < (keys 0).length := by simpa [firstOwners] using hi
  have hmem := ownerOf_mem_namers (n := 1) Nat.one_pos (List.getElem_mem hi)
  obtain ⟨hrank, hkey⟩ := mem_namers.1 hmem
  have hrank : (ownerOf 1 keys .smallest (keys 0)[i]).rank = 0 := Nat.lt_one_iff.1 hrank
  rw [hrank, ← List.getElem?_eq_getElem hi] at hkey
  -- no other item has the key of the owner
  have hindex := (List.getElem?_inj hi h).1 hkey.symm
  simp only [firstOwners, Place.own, List.getElem_map, List.getElem_range]
  calc ownerOf 1 keys .smallest (keys 0)[i]
      = ⟨(ownerOf 1 keys .smallest (keys 0)[i]).rank,
          (ownerOf 1 keys .smallest (keys 0)[i]).index⟩ := rfl
    _ = ⟨0, i⟩ := by rw [hrank, ← hindex]

/-- The places that own themselves are those at which a key is for the first time. -/
theorem allOwned_firstOwners : allOwned n (firstOwners n keys) =
    (itemPlaces n keys).filter fun p =>
      (itemPlaces n keys).find? (fun q => keyAt keys q = keyAt keys p) = some p := by
  rw [allOwned, itemPlaces, List.filter_flatMap, ← itemPlaces]
  refine List.flatMap_congr fun r hr => ?_
  rw [ownedPlaces, firstOwners, List.length_map]
  refine List.filter_congr fun p hp => decide_eq_decide.2 ?_
  obtain ⟨i, hi, rfl⟩ := List.mem_map.1 hp
  have hi : i < (keys r).length := List.mem_range.1 hi
  have hkey : keyAt keys ⟨r, i⟩ ∈ keys r := by simp [keyAt, hi]
  rw [find?_itemPlaces (List.mem_range.1 hr) hkey]
  simp [keyAt, hi]

/-- The entities are the distinct keys of all ranks. -/
theorem map_keyAt_allOwned : (allOwned n (firstOwners n keys)).map (keyAt keys) =
    ((List.range n).flatMap keys).eraseDups := by
  rw [allOwned_firstOwners, map_filter_first _ nodup_itemPlaces, map_keyAt_itemPlaces]

/-- Every item gets the number of its key among the distinct keys of all ranks. -/
theorem map_idxOf_firstOwners {r : Nat} (hr : r < n) :
    (firstOwners n keys r).map (allOwned n (firstOwners n keys)).idxOf =
      (keys r).map ((List.range n).flatMap keys).eraseDups.idxOf := by
  rw [firstOwners, List.map_map]
  refine List.map_congr_left fun key hkey => ?_
  have hmem := ownerOf_mem_namers hr hkey
  obtain ⟨hrank, howner⟩ := mem_namers.1 hmem
  have howned : ownerOf n keys .smallest key ∈ allOwned n (firstOwners n keys) := by
    refine mem_allOwned.2 ⟨hrank, ?_⟩
    rw [firstOwners, List.getElem?_map, howner, Option.map_some]
  have hkeyAt : keyAt keys (ownerOf n keys .smallest key) = key := by
    rw [namers_eq_filter, List.mem_filter] at hmem
    simpa using hmem.2
  have hnodup : ((allOwned n (firstOwners n keys)).map (keyAt keys)).Nodup := by
    rw [map_keyAt_allOwned]
    exact nodup_eraseDups _
  rw [Function.comp_apply, ← idxOf_map hnodup howned, map_keyAt_allOwned, hkeyAt]

end SharedMesh
