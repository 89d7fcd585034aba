import SharedMesh.Proofs.Mesh.Layers

/-!
# Consistent layers

Whatever records the ranks have, the layers that they make of them fit together
(`Consistent`): copies of one entity are those that denote the same cycle of vertices, they
have one owner and one number, the first of them is the owner, and the numbers count the
entities. All of this can be told from the keys of the records (`consistent_entityLayer`).
Vertices have as owner the first one with the same number (`sharesOwners_vertexLayer`).
-/

namespace SharedMesh

open Route

variable {n degree : Nat} {vertices numbers : Nat → List Nat}

/-! ## Entities of all ranks -/

/-- The places of the entities of all ranks. -/
def entityPlaces (n : Nat) (layers : Nat → Layer) : Set Place :=
  {p | p.rank < n ∧ p.index < (layers p.rank).count}

/-- The owner of the entity in a place. -/
def ownerAt (layers : Nat → Layer) (p : Place) : Option Place :=
  (layers p.rank).owners[p.index]?

/-- The global number of the entity in a place. -/
def numberAt (layers : Nat → Layer) (p : Place) : Option Nat :=
  (layers p.rank).globals[p.index]?

/-- The global numbers of the vertices of the entity in a place. -/
def cycleAt (degree : Nat) (numbers : Nat → List Nat) (layers : Nat → Layer) (p : Place) :
    List Nat :=
  ((rows degree (layers p.rank).vertices).getD p.index []).map fun v => (numbers p.rank).getD v 0

/-- Where the copies of the entity in a place are: those that denote the same cycle. -/
def copiesOf (n degree : Nat) (numbers : Nat → List Nat) (layers : Nat → Layer) (p : Place) :
    Set Place :=
  {q | q ∈ entityPlaces n layers ∧
    SameCycle (cycleAt degree numbers layers q) (cycleAt degree numbers layers p)}

/-- The first of some places. -/
def Place.IsFirst (q : Place) (places : Set Place) : Prop :=
  q ∈ places ∧ ∀ s ∈ places, s = q ∨ q.Before s

/-- The layers that the ranks make of some records fit together. -/
structure Consistent (n degree : Nat) (numbers : Nat → List Nat)
    (records : Nat → List (List Nat)) (layers : Nat → Layer) : Prop where
  /-- The entities of a rank are its records, each perhaps read from another vertex on, or
      backwards. -/
  turned : ∀ r < n, List.Forall₂ SameCycle (records r) (rows degree (layers r).vertices)
  counted : ∀ r < n, (layers r).count = (records r).length
  /-- The vertex with the smallest number comes first. -/
  smallest_first : ∀ p ∈ entityPlaces n layers, ∀ g ∈ cycleAt degree numbers layers p,
    (cycleAt degree numbers layers p).getD 0 0 ≤ g
  /-- Copies of one entity, and only they, have the same owner. -/
  owner_iff : ∀ p ∈ entityPlaces n layers, ∀ q ∈ entityPlaces n layers,
    ownerAt layers p = ownerAt layers q ↔
      SameCycle (cycleAt degree numbers layers p) (cycleAt degree numbers layers q)
  /-- Copies of one entity, and only they, have the same number. -/
  number_iff : ∀ p ∈ entityPlaces n layers, ∀ q ∈ entityPlaces n layers,
    numberAt layers p = numberAt layers q ↔
      SameCycle (cycleAt degree numbers layers p) (cycleAt degree numbers layers q)
  /-- The first copy is the owner of all copies. -/
  first_owns : ∀ p ∈ entityPlaces n layers, ∃ q : Place,
    q.IsFirst (copiesOf n degree numbers layers p) ∧
      ∀ s ∈ copiesOf n degree numbers layers p, ownerAt layers s = some q
  /-- One copy owns itself. -/
  once : ∀ p ∈ entityPlaces n layers, ∃! q : Place,
    q ∈ copiesOf n degree numbers layers p ∧ ownerAt layers q = some q
  /-- The numbers count the entities. -/
  numbers_used : {g | ∃ p ∈ entityPlaces n layers, numberAt layers p = some g} =
    Set.Iio (copiesOf n degree numbers layers '' entityPlaces n layers).ncard

/-- Vertices keep their numbers, and the first one with a number owns all with this number. -/
structure SharesOwners (n : Nat) (numbers : Nat → List Nat) (layers : Nat → Layer) : Prop where
  vertices : ∀ r < n, (layers r).vertices = List.range (numbers r).length
  globals : ∀ r < n, (layers r).globals = numbers r
  counted : ∀ r < n, (layers r).count = (numbers r).length
  first_owns : ∀ p ∈ entityPlaces n layers, ∃ q : Place,
    q.IsFirst {s | s ∈ entityPlaces n layers ∧ numberAt layers s = numberAt layers p} ∧
      ownerAt layers p = some q

/-! ## Owners by keys -/

theorem mem_entityPlaces_of_keys {keys : Nat → List (List Nat)} {layers : Nat → Layer}
    (h : ∀ r < n, (layers r).count = (keys r).length) {p : Place} :
    p ∈ entityPlaces n layers ↔ p ∈ itemPlaces n keys := by
  rw [mem_itemPlaces]
  exact and_congr_right fun hrank => by rw [h _ hrank]

theorem ownerAt_of_firstOwners {keys : Nat → List (List Nat)} {layers : Nat → Layer}
    (h : ∀ r, (layers r).owners = firstOwners n keys r) {p : Place} (hp : p ∈ itemPlaces n keys) :
    ownerAt layers p = some (ownerOf n keys .smallest (keyAt keys p)) := by
  have hindex := (mem_itemPlaces.1 hp).2
  simp [ownerAt, h, firstOwners, keyAt, hindex]

/-! ## Vertices -/

theorem sharesOwners_vertexLayer (n : Nat) (numbers : Nat → List Nat) :
    SharesOwners n numbers (vertexLayer n numbers) := by
  have hcount : ∀ r < n, (vertexLayer n numbers r).count = (numberKeys (numbers r)).length :=
    fun r _ => by simp [vertexLayer, Layer.count, firstOwners]
  -- a vertex is known by its number
  have hkey : ∀ p, numberAt (vertexLayer n numbers) p =
      (keyAt (fun r => numberKeys (numbers r)) p).head? := by
    intro p
    rw [numberAt, keyAt, numberKeys, List.getD_eq_getElem?_getD, List.getElem?_map]
    simp only [vertexLayer]
    cases (numbers p.rank)[p.index]? <;> rfl
  refine ⟨fun _ _ => rfl, fun _ _ => rfl, fun r hr => (hcount r hr).trans (List.length_map _),
    fun p hp => ?_⟩
  rw [mem_entityPlaces_of_keys hcount] at hp
  obtain ⟨hq, hsame, hfirst⟩ := ownerOf_first hp
  refine ⟨_, ⟨⟨(mem_entityPlaces_of_keys hcount).2 hq, ?_⟩, fun s hs => hfirst s ?_ ?_⟩,
    ownerAt_of_firstOwners (fun _ => rfl) hp⟩
  · rw [hkey, hkey, hsame]
  · exact (mem_entityPlaces_of_keys hcount).1 hs.1
  · have hlength : ∀ {q}, q ∈ itemPlaces n (fun r => numberKeys (numbers r)) →
        ∃ g, keyAt (fun r => numberKeys (numbers r)) q = [g] := by
      intro q hq
      have hindex : q.index < (numbers q.rank).length := by
        simpa [numberKeys] using (mem_itemPlaces.1 hq).2
      exact ⟨(numbers q.rank)[q.index], by simp [keyAt, numberKeys, hindex]⟩
    obtain ⟨g, hg⟩ := hlength ((mem_entityPlaces_of_keys hcount).1 hs.1)
    obtain ⟨g', hg'⟩ := hlength hp
    have := hs.2
    rw [hkey, hkey, hg, hg'] at this
    rw [hg, hg', Option.some.inj this]

/-! ## Derived entities -/

section

variable (hdegree : degree ≤ 128) (h : ∀ r < n, Acceptable degree (vertices r) (numbers r))

theorem count_entityLayer (r : Nat) : (entityLayer n degree vertices numbers r).count =
    (recordKeys degree (vertices r) (numbers r)).length := by
  simp [entityLayer, Layer.count, firstOwners]

theorem numberAt_entityLayer {p : Place}
    (hp : p ∈ itemPlaces n fun r => recordKeys degree (vertices r) (numbers r)) :
    numberAt (entityLayer n degree vertices numbers) p =
      some ((distinctKeys n degree vertices numbers).idxOf
        (keyAt (fun r => recordKeys degree (vertices r) (numbers r)) p)) := by
  have hindex := (mem_itemPlaces.1 hp).2
  simp [numberAt, entityLayer, keyAt, hindex]

theorem mem_entityPlaces_entityLayer {p : Place} :
    p ∈ entityPlaces n (entityLayer n degree vertices numbers) ↔
      p ∈ itemPlaces n fun r => recordKeys degree (vertices r) (numbers r) :=
  mem_entityPlaces_of_keys fun r _ => count_entityLayer r

/-- The distinct keys are those of the entities. -/
theorem mem_distinctKeys {key : List Nat} : key ∈ distinctKeys n degree vertices numbers ↔
    ∃ p ∈ itemPlaces n fun r => recordKeys degree (vertices r) (numbers r),
      keyAt (fun r => recordKeys degree (vertices r) (numbers r)) p = key := by
  rw [distinctKeys, List.mem_eraseDups, ← map_keyAt_itemPlaces, List.mem_map]

/-- The numbers count the distinct keys. -/
theorem numbers_entityLayer : {g | ∃ p ∈ entityPlaces n (entityLayer n degree vertices numbers),
      numberAt (entityLayer n degree vertices numbers) p = some g} =
    Set.Iio (distinctKeys n degree vertices numbers).length := by
  ext g
  constructor
  · rintro ⟨p, hp, hg⟩
    rw [mem_entityPlaces_entityLayer] at hp
    rw [numberAt_entityLayer hp, Option.some.injEq] at hg
    exact hg ▸ List.idxOf_lt_length_of_mem (mem_distinctKeys.2 ⟨p, hp, rfl⟩)
  · intro hg
    obtain ⟨p, hp, hkey⟩ := mem_distinctKeys.1 (List.getElem_mem hg)
    refine ⟨p, mem_entityPlaces_entityLayer.2 hp, ?_⟩
    rw [numberAt_entityLayer hp, hkey]
    exact congrArg some ((nodup_eraseDups _).idxOf_getElem g hg)

include h

/-- The vertices of an entity are those of its key. -/
theorem cycleAt_entityLayer {p : Place}
    (hp : p ∈ itemPlaces n fun r => recordKeys degree (vertices r) (numbers r)) :
    cycleAt degree numbers (entityLayer n degree vertices numbers) p =
      keyAt (fun r => recordKeys degree (vertices r) (numbers r)) p := by
  have hrank := (mem_itemPlaces.1 hp).1
  rw [keyAt, ← map_rows_canonicalRecords (h _ hrank), cycleAt, List.getD_eq_getElem?_getD,
    List.getD_eq_getElem?_getD, List.getElem?_map]
  simp only [entityLayer]
  cases (rows degree (canonicalRecords degree (vertices p.rank)
    (numbers p.rank)).vertices)[p.index]? <;> rfl

/-- An entity has the key of one of the records. -/
theorem exists_record_of_keyAt {p : Place}
    (hp : p ∈ itemPlaces n fun r => recordKeys degree (vertices r) (numbers r)) :
    ∃ record ∈ globalRecords degree (vertices p.rank) (numbers p.rank),
      record.length = degree ∧ record.Nodup ∧
        keyAt (fun r => recordKeys degree (vertices r) (numbers r)) p =
          canonicalForm degree record := by
  obtain ⟨hrank, hindex⟩ := mem_itemPlaces.1 hp
  have hkey : keyAt (fun r => recordKeys degree (vertices r) (numbers r)) p ∈
      recordKeys degree (vertices p.rank) (numbers p.rank) := by
    simp [keyAt, hindex]
  obtain ⟨record, hrecord, hform⟩ := List.mem_map.1 hkey
  exact ⟨record, hrecord, (h _ hrank).length_globalRecords record hrecord,
    (h _ hrank).nodup record hrecord, hform.symm⟩

include hdegree

/-- Entities denote the same cycle if they have the same key. -/
theorem sameCycle_keyAt_iff {p q : Place}
    (hp : p ∈ itemPlaces n fun r => recordKeys degree (vertices r) (numbers r))
    (hq : q ∈ itemPlaces n fun r => recordKeys degree (vertices r) (numbers r)) :
    SameCycle (keyAt (fun r => recordKeys degree (vertices r) (numbers r)) p)
        (keyAt (fun r => recordKeys degree (vertices r) (numbers r)) q) ↔
      keyAt (fun r => recordKeys degree (vertices r) (numbers r)) p =
        keyAt (fun r => recordKeys degree (vertices r) (numbers r)) q := by
  obtain ⟨a, _, ha, hna, hkeyp⟩ := exists_record_of_keyAt h hp
  obtain ⟨b, _, hb, hnb, hkeyq⟩ := exists_record_of_keyAt h hq
  have hpos := (h _ (mem_itemPlaces.1 hp).1).degree_pos
  constructor
  · intro hsame
    rw [hkeyp, hkeyq] at hsame ⊢
    exact (canonicalForm_eq_iff hpos hdegree ha hb hna hnb).2
      (((canonicalForm_sameCycle ha).trans hsame).trans (canonicalForm_sameCycle hb).symm)
  · intro hkey
    rw [hkey]
    exact .refl _

/-- The copies of an entity are the items with its key. -/
theorem copiesOf_entityLayer {p : Place}
    (hp : p ∈ itemPlaces n fun r => recordKeys degree (vertices r) (numbers r)) :
    copiesOf n degree numbers (entityLayer n degree vertices numbers) p =
      {q | q ∈ itemPlaces n (fun r => recordKeys degree (vertices r) (numbers r)) ∧
        keyAt (fun r => recordKeys degree (vertices r) (numbers r)) q =
          keyAt (fun r => recordKeys degree (vertices r) (numbers r)) p} := by
  ext q
  rw [copiesOf, Set.mem_ofPred_eq, Set.mem_ofPred_eq,
    mem_entityPlaces_entityLayer]
  refine and_congr_right fun hq => ?_
  rw [cycleAt_entityLayer h hq, cycleAt_entityLayer h hp, sameCycle_keyAt_iff hdegree h hq hp]

/-- There are as many entities as distinct keys. -/
theorem ncard_copiesOf : (copiesOf n degree numbers (entityLayer n degree vertices numbers) ''
    entityPlaces n (entityLayer n degree vertices numbers)).ncard =
      (distinctKeys n degree vertices numbers).length := by
  let itemsOf : List Nat → Set Place := fun key =>
    {q | q ∈ itemPlaces n (fun r => recordKeys degree (vertices r) (numbers r)) ∧
      keyAt (fun r => recordKeys degree (vertices r) (numbers r)) q = key}
  have himage : copiesOf n degree numbers (entityLayer n degree vertices numbers) ''
      entityPlaces n (entityLayer n degree vertices numbers) =
        itemsOf '' {key | key ∈ distinctKeys n degree vertices numbers} := by
    ext copies
    constructor
    · rintro ⟨p, hp, rfl⟩
      rw [mem_entityPlaces_entityLayer] at hp
      exact ⟨_, mem_distinctKeys.2 ⟨p, hp, rfl⟩, (copiesOf_entityLayer hdegree h hp).symm⟩
    · rintro ⟨key, hkey, rfl⟩
      obtain ⟨p, hp, rfl⟩ := mem_distinctKeys.1 hkey
      refine ⟨p, ?_, copiesOf_entityLayer hdegree h hp⟩
      rwa [mem_entityPlaces_entityLayer]
  have hinjective : Set.InjOn itemsOf {key | key ∈ distinctKeys n degree vertices numbers} := by
    intro key hkey key' _ hsame
    obtain ⟨p, hp, rfl⟩ := mem_distinctKeys.1 hkey
    have hmem : p ∈ itemsOf key' := hsame ▸ ⟨hp, rfl⟩
    exact hmem.2
  rw [himage, hinjective.ncard_image]
  exact ncard_setOf_mem (nodup_eraseDups _)

/-- The layers that ranks make of records in canonical form fit together. -/
theorem consistent_entityLayer : Consistent n degree numbers (fun r => rows degree (vertices r))
    (entityLayer n degree vertices numbers) := by
  have howner : ∀ p ∈ itemPlaces n fun r => recordKeys degree (vertices r) (numbers r),
      ownerAt (entityLayer n degree vertices numbers) p = some (ownerOf n
        (fun r => recordKeys degree (vertices r) (numbers r)) .smallest
          (keyAt (fun r => recordKeys degree (vertices r) (numbers r)) p)) :=
    fun _ hp => ownerAt_of_firstOwners (fun _ => rfl) hp
  constructor
  case turned =>
    intro r hr
    simp only [entityLayer]
    rw [rows_canonicalRecords (h r hr), List.forall₂_map_right_iff, List.forall₂_same]
    exact fun record hrecord =>
      Turn.sameCycle_apply _ ((h r hr).length_rows_vertices record hrecord)
  case counted =>
    intro r _
    rw [count_entityLayer, recordKeys, List.length_map, globalRecords, rows_map,
      List.length_map]
  case smallest_first =>
    intro p hp
    rw [mem_entityPlaces_entityLayer] at hp
    obtain ⟨record, _, hlength, hnodup, hkey⟩ := exists_record_of_keyAt h hp
    rw [cycleAt_entityLayer h hp, hkey]
    have hpos := (h _ (mem_itemPlaces.1 hp).1).degree_pos
    exact (isCanonical_canonicalForm hpos hdegree hlength hnodup).head_le
  case owner_iff =>
    intro p hp q hq
    rw [mem_entityPlaces_entityLayer] at hp hq
    rw [howner p hp, howner q hq, Option.some.injEq, cycleAt_entityLayer h hp,
      cycleAt_entityLayer h hq, sameCycle_keyAt_iff hdegree h hp hq]
    refine ⟨fun hsame => ?_, fun hsame => by rw [hsame]⟩
    rw [← (ownerOf_first hp).2.1, ← (ownerOf_first hq).2.1, hsame]
  case number_iff =>
    intro p hp q hq
    rw [mem_entityPlaces_entityLayer] at hp hq
    rw [numberAt_entityLayer hp, numberAt_entityLayer hq, Option.some.injEq,
      cycleAt_entityLayer h hp, cycleAt_entityLayer h hq, sameCycle_keyAt_iff hdegree h hp hq]
    exact List.idxOf_inj (mem_distinctKeys.2 ⟨p, hp, rfl⟩)
  case first_owns =>
    intro p hp
    rw [mem_entityPlaces_entityLayer] at hp
    obtain ⟨hq, hsame, hfirst⟩ := ownerOf_first hp
    rw [copiesOf_entityLayer hdegree h hp]
    exact ⟨_, ⟨⟨hq, hsame⟩, fun s hs => hfirst s hs.1 hs.2⟩, fun s hs => by
      rw [howner s hs.1, hs.2]⟩
  case once =>
    intro p hp
    rw [mem_entityPlaces_entityLayer] at hp
    obtain ⟨hq, hsame, _⟩ := ownerOf_first hp
    rw [copiesOf_entityLayer hdegree h hp]
    refine ⟨_, ⟨⟨hq, hsame⟩, by rw [howner _ hq, hsame]⟩, fun s hs => ?_⟩
    obtain ⟨⟨hs, hsame⟩, hself⟩ := hs
    rw [howner s hs, hsame, Option.some.injEq] at hself
    exact hself.symm
  case numbers_used =>
    rw [ncard_copiesOf hdegree h]
    exact numbers_entityLayer

end

end SharedMesh
