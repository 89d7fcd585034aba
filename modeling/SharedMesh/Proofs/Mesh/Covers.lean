import SharedMesh.Proofs.Mesh.Entities
import SharedMesh.Proofs.Mesh.Layers

/-!
# Layers cover the whole mesh

The layers that the ranks make are parts of the layer that a single rank makes of the whole
mesh (`Covers`): an entity has its number and its vertices from there, and is owned
by one of the ranks that hold it.
-/

namespace SharedMesh

/-- The layers of the ranks are parts of the layer of the whole mesh. -/
structure Covers (n degree : Nat) (numbers : Nat → List Nat) (whole : Layer)
    (layers : Nat → Layer) : Prop where
  /-- The entities of the whole mesh are numbered in order. -/
  numbered : whole.globals = List.range whole.count
  /-- Every entity of a rank has the number that it has in the whole mesh, and the same
      vertices in the same order. -/
  entity : ∀ r < n, ∀ i < (layers r).count, ∃ g record, (layers r).globals[i]? = some g ∧
    (rows degree (layers r).vertices)[i]? = some record ∧
      (rows degree whole.vertices)[g]? = some (record.map fun v => (numbers r).getD v 0)
  /-- One of the ranks owns it. -/
  once : ∀ g < whole.count, ∃! p : Place, p.rank < n ∧ (layers p.rank).globals[p.index]? = some g ∧
    (ownedMask (Seat.of p.rank n) (layers p.rank).owners)[p.index]? = some true

variable {n degree : Nat} {vertices numbers : Nat → List Nat}

/-! ## Entities -/

/-- Vertices that keep their numbers are listed as in the keys. -/
theorem rows_canonicalRecords_range {vs : List Nat} {count : Nat}
    (h : Acceptable degree vs (List.range count)) :
    rows degree (canonicalRecords degree vs (List.range count)).vertices =
      recordKeys degree vs (List.range count) := by
  have hkept : vs.map (fun v => (List.range count).getD v 0) = vs :=
    (List.map_congr_left fun v hv => by
      have hlt : v < count := by simpa using h.named v hv
      simp [hlt]).trans (List.map_id vs)
  have hrows : (rows degree vs).map (List.map fun v => (List.range count).getD v 0) =
      (rows degree vs).map id := by rw [← rows_map, hkept, List.map_id]
  rw [rows_canonicalRecords h, recordKeys, globalRecords, hkept]
  refine List.map_congr_left fun record hrecord => ?_
  rw [List.map_inj_left.1 hrows record hrecord]
  rfl

theorem getElem?_idxOf_map {α : Type} [BEq α] [LawfulBEq α] {xs ks : List α} (h : ∀ k ∈ ks, k ∈ xs)
    {i : Nat} {k : α} (hk : ks[i]? = some k) :
    ∃ g, (ks.map xs.idxOf)[i]? = some g ∧ xs[g]? = some k :=
  ⟨xs.idxOf k, by rw [List.getElem?_map, hk, Option.map_some],
    List.getElem?_idxOf (h k (List.mem_of_getElem? hk))⟩

/-- The layers of entities are parts of the layer of a single rank with the same keys. -/
theorem covers_entityLayer {vs : List Nat} {count : Nat}
    (h : ∀ r < n, Acceptable degree (vertices r) (numbers r))
    (hwhole : Acceptable degree vs (List.range count))
    (hkeys : recordKeys degree vs (List.range count) = distinctKeys n degree vertices numbers) :
    Covers n degree numbers (entityLayer 1 degree (fun _ => vs) (fun _ => List.range count) 0)
      (entityLayer n degree vertices numbers) := by
  have hnodup : (recordKeys degree vs (List.range count)).Nodup := by
    rw [hkeys]
    exact nodup_eraseDups _
  have hcount : (entityLayer 1 degree (fun _ => vs) (fun _ => List.range count) 0).count =
      (distinctKeys n degree vertices numbers).length := by
    rw [← hkeys]
    simp [Layer.count, entityLayer, firstOwners]
  constructor
  case numbered =>
    rw [hcount, ← hkeys]
    simp only [entityLayer, distinctKeys_one hnodup, map_idxOf_self hnodup]
  case entity =>
    intro r hr i hi
    have hi : i < (recordKeys degree (vertices r) (numbers r)).length := by
      simpa [Layer.count, entityLayer, firstOwners] using hi
    have hmem : ∀ key ∈ recordKeys degree (vertices r) (numbers r),
        key ∈ distinctKeys n degree vertices numbers := fun key hkey =>
      List.mem_eraseDups.2 (List.mem_flatMap.2 ⟨r, List.mem_range.2 hr, hkey⟩)
    obtain ⟨key, hkey⟩ : ∃ key, (recordKeys degree (vertices r) (numbers r))[i]? = some key :=
      ⟨_, List.getElem?_eq_getElem hi⟩
    obtain ⟨g, hg, hsame⟩ := getElem?_idxOf_map hmem hkey
    rw [← map_rows_canonicalRecords (h r hr), List.getElem?_map, Option.map_eq_some_iff] at hkey
    obtain ⟨record, hrecord, rfl⟩ := hkey
    refine ⟨g, record, hg, hrecord, ?_⟩
    simp only [entityLayer]
    rw [rows_canonicalRecords_range hwhole, hkeys, hsame]
  case once =>
    intro g hg
    rw [hcount] at hg
    have hlength : (allOwned n (firstOwners n fun r => recordKeys degree (vertices r)
        (numbers r))).length = (distinctKeys n degree vertices numbers).length := by
      rw [distinctKeys, ← map_keyAt_allOwned, List.length_map]
    refine (existsUnique_congr fun p => and_congr_right fun hp => ?_).1
      (existsUnique_owned (hlength ▸ hg))
    rw [map_idxOf_firstOwners hp]
    rfl

/-! ## Elements -/

section

variable {elements : List Nat} {count : Nat}

/-- A rank holds as many elements as were dealt out to it. -/
theorem length_div_of_renumbered (hdegree : 0 < degree) (hwhole : elements.length = count * degree)
    {r : Nat} (hr : r < n)
    (h : Renumbered (vertices r) (numbers r) (dealtElements n degree elements r)) :
    (vertices r).length / degree = (⟨count, n⟩ : Shares).length r := by
  rw [h.length_eq, length_dealtElements hdegree hwhole hr, Nat.mul_div_cancel _ hdegree]

/-- The elements of a rank are numbered as its slice. -/
theorem globals_elementLayer (hdegree : 0 < degree) (hwhole : elements.length = count * degree)
    (h : ∀ r < n, Renumbered (vertices r) (numbers r) (dealtElements n degree elements r)) {r : Nat}
    (hr : r < n) : (elementLayer degree vertices r).globals =
      List.range' ((⟨count, n⟩ : Shares).first r) ((⟨count, n⟩ : Shares).length r) := by
  have hbefore : (List.range r).map (fun s => (vertices s).length / degree) =
      (List.range r).map (⟨count, n⟩ : Shares).length := List.map_congr_left fun s hs => by
    have hs : s < n := Nat.lt_trans (List.mem_range.1 hs) hr
    exact length_div_of_renumbered hdegree hwhole hs (h s hs)
  rw [elementLayer, hbefore, Shares.sum_length, length_div_of_renumbered hdegree hwhole hr (h r hr)]

theorem length_allOwned_elementOwners (hn : 0 < n) (hdegree : 0 < degree)
    (hwhole : elements.length = count * degree)
    (h : ∀ r < n, Renumbered (vertices r) (numbers r) (dealtElements n degree elements r)) :
    (allOwned n (elementOwners degree vertices)).length = count := by
  have hlengths : (List.range n).map (fun r => (elementOwners degree vertices r).length) =
      (List.range n).map (⟨count, n⟩ : Shares).length := List.map_congr_left fun r hr => by
    have hr : r < n := List.mem_range.1 hr
    rw [← length_div_of_renumbered hdegree hwhole hr (h r hr)]
    simp [elementOwners, Place.own]
  rw [allOwned, List.length_flatMap]
  simp only [ownedPlaces_elementOwners]
  rw [hlengths, Shares.sum_length, Shares.first_size hn]

/-- The elements of the ranks are those of the whole mesh. -/
theorem covers_elementLayer (hn : 0 < n) (hdegree : 0 < degree)
    (hwhole : elements.length = count * degree)
    (h : ∀ r < n, Renumbered (vertices r) (numbers r) (dealtElements n degree elements r)) :
    Covers n degree numbers (elementLayer degree (fun _ => elements) 0)
      (elementLayer degree vertices) := by
  have hcount : (elementLayer degree (fun _ => elements) 0).count = elements.length / degree := by
    simp [Layer.count, elementLayer, Place.own]
  constructor
  case numbered =>
    rw [hcount, List.range_eq_range']
    rfl
  case entity =>
    intro r hr i hi
    have hlength := length_div_of_renumbered hdegree hwhole hr (h r hr)
    have hi : i < (⟨count, n⟩ : Shares).length r := by
      rw [← hlength]
      simpa [Layer.count, elementLayer, Place.own] using hi
    obtain ⟨record, hrecord⟩ : ∃ record, (rows degree (vertices r))[i]? = some record :=
      ⟨_, List.getElem?_eq_getElem (by rw [length_rows, hlength]; exact hi)⟩
    refine ⟨(⟨count, n⟩ : Shares).first r + i, record, ?_, hrecord, ?_⟩
    · rw [globals_elementLayer hdegree hwhole h hr, List.getElem?_range' hi, Nat.one_mul]
    · have hrow := congrArg (·[i]?) (rows_dealtElements hdegree hwhole hr)
      simp only [List.getElem?_take_of_lt hi, List.getElem?_drop] at hrow
      rw [← (h r hr).globals, rows_map, List.getElem?_map, hrecord, Option.map_some] at hrow
      exact hrow.symm
  case once =>
    intro g hg
    rw [hcount, hwhole, Nat.mul_div_cancel _ hdegree,
      ← length_allOwned_elementOwners hn hdegree hwhole h] at hg
    refine (existsUnique_congr fun p => and_congr_right fun hp => ?_).1 (existsUnique_owned hg)
    rw [map_idxOf_elementOwners hp]
    rfl

end

end SharedMesh
