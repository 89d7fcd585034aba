import SharedMesh.Proofs.Ownership.FirstCopies
import SharedMesh.Proofs.Ownership.Resolving
import SharedMesh.Proofs.Record.Invariant
import SharedMesh.Proofs.Record.Twisting
import SharedMesh.Proofs.Skeleton.Enumerating

/-!
# One entity, on a rank and between ranks

A rank lists two parts of its elements as one entity if they have the same vertices
(`listedOnce_iff_perm`). Ranks find one owner for two copies if these have the same canonical form
(`resolveCopies_matches`), that is, if they denote the same cycle (`oneCanonical_iff`). Edges and
triangles with the same vertices do, and so do quadrilaterals unless one is twisted against the
other. Then they are one entity on a rank, and two between ranks (`identity_agrees_iff`,
`not_identity_agrees`).
-/

namespace SharedMesh

open Route

/-- One record of a skeleton has the vertices of both parts. -/
def ListedOnce (degree : Nat) (found a b : List Nat) : Prop :=
  ∃ record ∈ rows degree found, record.Perm a ∧ record.Perm b

/-- Both parts have the same numbers in canonical form. -/
def OneCanonical (degree : Nat) (numbers a b : List Nat) : Prop :=
  ∃ c c', Canonical.ofRecords degree a numbers = .ok c ∧
    Canonical.ofRecords degree b numbers = .ok c' ∧ c.globals = c'.globals

/-! ## On a rank -/

namespace Between

variable {shape : Shape} {dim sub degree subDegree : Nat} {template elements found : List Nat}
  {a b : List Nat}

/-- Elements that have a skeleton are whole, and their parts repeat no vertex. -/
theorem of_skeleton_eq_ok (h : Between shape dim sub degree subDegree template)
    (hfound : skeleton elements shape dim sub = .ok found) :
    elements.length = elements.length / degree * degree ∧
      ∀ part ∈ partsOf shape dim sub elements, part.Nodup := by
  have hgood := mt (h.skeletonLaw elements).fails_iff.2 fun ⟨e, he⟩ => by
    rw [hfound] at he
    cases he
  push Not at hgood
  rw [h.partsOf_eq_partList]
  exact ⟨(Nat.div_mul_cancel (Nat.dvd_of_mod_eq_zero hgood.1)).symm, hgood.2⟩

/-- Parts are listed as one if they have the same vertices. -/
theorem listedOnce_iff_perm (h : Between shape dim sub degree subDegree template)
    (hfound : skeleton elements shape dim sub = .ok found)
    (ha : a ∈ partsOf shape dim sub elements) : ListedOnce subDegree found a b ↔ a.Perm b := by
  obtain ⟨hwhole, hnodup⟩ := h.of_skeleton_eq_ok hfound
  constructor
  · rintro ⟨record, _, hrecord, hrecord'⟩
    exact hrecord.symm.trans hrecord'
  · intro hperm
    rw [h.skeleton_eq_ok hwhole hnodup, firstSeen_eq_firstParts hnodup, Except.ok.injEq] at hfound
    have hmem : ∀ record ∈ firstParts (partsOf shape dim sub elements),
        record ∈ partsOf shape dim sub elements := fun _ => mem_of_mem_firstParts
    have hcovers := (enumerates_firstSeen hnodup).covers a.toFinset
    rw [firstSeen_eq_firstParts hnodup] at hcovers
    obtain ⟨record, hrecord, hset⟩ := hcovers.2 ⟨a, ha, rfl⟩
    have hsame : record.Perm a := vertexSet_eq_iff.1
      ((vertexSet_eq_iff_toFinset (hnodup record (hmem record hrecord)) (hnodup a ha)).2 hset)
    refine ⟨record, ?_, hsame, hsame.trans hperm⟩
    rwa [← hfound, rows_flatten h.sub_pos fun record hrecord =>
      (h.of_mem_partsOf hwhole (hmem record hrecord)).1]

end Between

/-! ## Between ranks -/

section

variable {degree : Nat} {numbers a b : List Nat}

theorem globalRecords_single (hpos : 0 < degree) (ha : a.length = degree) :
    globalRecords degree a numbers = [a.map fun v => numbers.getD v 0] :=
  rows_of_length hpos (by simpa using ha)

theorem idxOf_getD (hnumbers : numbers.Nodup) {v : Nat} (hv : v < numbers.length) :
    numbers.idxOf (numbers.getD v 0) = v := by
  rw [List.getD_eq_getElem?_getD, List.getElem?_eq_getElem hv, Option.getD_some,
    hnumbers.idxOf_getElem]

/-- Distinct vertices have distinct numbers. -/
theorem map_idxOf_getD (hnumbers : numbers.Nodup) (hnamed : ∀ v ∈ a, v < numbers.length) :
    (a.map fun v => numbers.getD v 0).map numbers.idxOf = a := by
  rw [List.map_map]
  exact (List.map_congr_left fun v hv => idxOf_getD hnumbers (hnamed v hv)).trans (List.map_id a)

theorem acceptable_single (hpos : 0 < degree) (ha : a.length = degree) (hnodup : a.Nodup)
    (hnumbers : numbers.Nodup) (hnamed : ∀ v ∈ a, v < numbers.length) :
    Acceptable degree a numbers where
  degree_pos := hpos
  whole := by rw [ha, Nat.div_self hpos, Nat.one_mul]
  named := hnamed
  nodup := by
    rw [globalRecords_single hpos ha, List.forall_mem_singleton]
    rw [← map_idxOf_getD hnumbers hnamed] at hnodup
    exact hnodup.of_map _

theorem canonicalRecords_single (h : Acceptable degree a numbers) (ha : a.length = degree) :
    (canonicalRecords degree a numbers).globals =
      canonicalForm degree (a.map fun v => numbers.getD v 0) := by
  have hkeys : recordKeys degree a numbers =
      [canonicalForm degree (a.map fun v => numbers.getD v 0)] :=
    congrArg _ (globalRecords_single h.degree_pos ha)
  exact (congrArg List.flatten hkeys).trans List.flatten_singleton

theorem oneCanonical_iff_canonicalForm (ha : Acceptable degree a numbers)
    (hb : Acceptable degree b numbers) (hla : a.length = degree) (hlb : b.length = degree) :
    OneCanonical degree numbers a b ↔ canonicalForm degree (a.map fun v => numbers.getD v 0) =
      canonicalForm degree (b.map fun v => numbers.getD v 0) := by
  rw [← canonicalRecords_single ha hla, ← canonicalRecords_single hb hlb]
  constructor
  · rintro ⟨c, c', hc, hc', hglobals⟩
    rwa [(ofRecords_eq_ok_iff.1 hc).2, (ofRecords_eq_ok_iff.1 hc').2] at hglobals
  · exact fun h => ⟨_, _, ofRecords_eq_ok ha, ofRecords_eq_ok hb, h⟩

/-- Parts have one canonical form if they denote the same cycle. -/
theorem oneCanonical_iff (hle : degree ≤ 128) (hnumbers : numbers.Nodup)
    (ha : Acceptable degree a numbers) (hb : Acceptable degree b numbers)
    (hla : a.length = degree) (hlb : b.length = degree) :
    OneCanonical degree numbers a b ↔ SameCycle a b := by
  have hnodup {a : List Nat} (h : Acceptable degree a numbers) (hla : a.length = degree) :
      (a.map fun v => numbers.getD v 0).Nodup :=
    h.nodup _ (globalRecords_single h.degree_pos hla ▸ List.mem_singleton_self _)
  rw [oneCanonical_iff_canonicalForm ha hb hla hlb, canonicalForm_eq_iff ha.degree_pos hle
    (by simpa using hla) (by simpa using hlb) (hnodup ha hla) (hnodup hb hlb)]
  refine ⟨fun h => ?_, fun h => h.map _⟩
  have hvertices := h.map numbers.idxOf
  rwa [map_idxOf_getD hnumbers ha.named, map_idxOf_getD hnumbers hb.named] at hvertices

end

section

variable {κ : Type} [Alphabet κ] [LawfulAlphabet κ] {n degree : Nat}
  {vertices numbers : Nat → List Nat}

/-- Ranks whose records have canonical forms, and that have the room to find their owners. -/
structure Resolvable (n degree : Nat) (vertices numbers : Nat → List Nat) : Prop where
  accepted : ∀ r < n, Acceptable degree (vertices r) (numbers r)
  number_lt : ∀ r < n, ∀ g ∈ numbers r, g < 2 ^ 64 - 2
  room : MeetingRoom n degree numbers fun r => recordKeys degree (vertices r) (numbers r)

/-- Different keys have different owners. -/
theorem ownerOf_smallest_eq_iff (keys : Nat → List (List Nat)) {r s : Nat} (hr : r < n)
    (hs : s < n) {key key' : List Nat} (hkey : key ∈ keys r) (hkey' : key' ∈ keys s) :
    ownerOf n keys .smallest key = ownerOf n keys .smallest key' ↔ key = key' := by
  refine ⟨fun howner => ?_, fun h => by rw [h]⟩
  -- an owner is an item with the key
  have hitem := (mem_namers.1 (ownerOf_mem_namers hr hkey)).2
  rw [howner, (mem_namers.1 (ownerOf_mem_namers hs hkey')).2] at hitem
  exact (Option.some.inj hitem).symm

/-- Ranks find one owner for two records if these have the same canonical form. -/
theorem resolveCopies_matches (hpos : 0 < degree) (h : Resolvable n degree vertices numbers) :
    ∃ resolved : Nat → Resolved,
      (World.start ((List.range n).map fun r => (resolveCopies (κ := κ) (Seat.of r n) (numbers r)
        degree (vertices r) .smallest).toProgram)).Yields
          ((List.range n).map fun r => .ok (resolved r)) ∧
      ∀ r < n, ∀ s < n, ∀ (i j : Nat) (x y : List Nat),
        (globalRecords degree (vertices r) (numbers r))[i]? = some x →
        (globalRecords degree (vertices s) (numbers s))[j]? = some y →
        ((resolved r).owners[i]? = (resolved s).owners[j]? ↔
          canonicalForm degree x = canonicalForm degree y) := by
  have hkeyed := keyed_recordKeys h.number_lt h.accepted hpos
  have htogether := resolveCopies_together (κ := κ) h.accepted hkeyed h.room fun r hr key hkey =>
    resolves_smallest hr hkey
  refine ⟨_, htogether.yields, ?_⟩
  intro r hr s hs i j x y hx hy
  have hkey {r i : Nat} {x : List Nat}
      (hx : (globalRecords degree (vertices r) (numbers r))[i]? = some x) :
      canonicalForm degree x ∈ recordKeys degree (vertices r) (numbers r) :=
    List.mem_map_of_mem (List.mem_of_getElem? hx)
  rw [← ownerOf_smallest_eq_iff (fun r => recordKeys degree (vertices r) (numbers r)) hr hs
    (hkey hx) (hkey hy)]
  simp only [recordKeys, List.getElem?_map, hx, hy, Option.map_some, Option.some_inj]

end

/-! ## Both -/

theorem corners_le_four {shape : Shape} {sub degree : Nat} (hsub : sub < 3)
    (h : shape.corners sub = .ok degree) :
    degree ≤ 4 ∧ (degree = 4 → shape = .hypercube ∧ sub = 2) := by
  have hcases : sub = 0 ∨ sub = 1 ∨ sub = 2 := by omega
  rcases hcases with rfl | rfl | rfl <;> cases shape <;> cases h <;> decide

/-- Of two parts of some elements, whose vertices have distinct numbers, the rank lists one if and
    only if they have one canonical form, unless they are quadrilaterals of which one is twisted
    against the other. Wherever their numbers come on two ranks, these find one owner if and only if
    there is one canonical form. -/
theorem identity_agrees_iff {κ : Type} [Alphabet κ] [LawfulAlphabet κ] (shape : Shape)
    {dim sub : Nat} (hsub : 0 < sub) (hlt : sub < dim) (hdim : dim ≤ 3)
    {elements found numbers : List Nat} (hfound : skeleton elements shape dim sub = .ok found)
    (hnamed : ∀ v ∈ elements, v < numbers.length) (hnumbers : numbers.Nodup) {a b : List Nat}
    (ha : a ∈ partsOf shape dim sub elements) (hb : b ∈ partsOf shape dim sub elements) :
    ∃ degree, shape.corners sub = .ok degree ∧
      ((ListedOnce degree found a b ↔ OneCanonical degree numbers a b) ↔ ¬Twisted a b) ∧
      (Twisted a b → shape = .hypercube ∧ sub = 2) ∧
      ∀ (n : Nat) (vertices names : Nat → List Nat), Resolvable n degree vertices names →
        ∃ resolved : Nat → Resolved,
          (World.start ((List.range n).map fun r => (resolveCopies (κ := κ) (Seat.of r n) (names r)
            degree (vertices r) .smallest).toProgram)).Yields
              ((List.range n).map fun r => .ok (resolved r)) ∧
          ∀ r < n, ∀ s < n, r ≠ s → ∀ i j : Nat,
            (globalRecords degree (vertices r) (names r))[i]? =
              some (a.map fun v => numbers.getD v 0) →
            (globalRecords degree (vertices s) (names s))[j]? =
              some (b.map fun v => numbers.getD v 0) →
            ((resolved r).owners[i]? = (resolved s).owners[j]? ↔
              OneCanonical degree numbers a b) := by
  obtain ⟨degree, subDegree, template, h⟩ := exists_between shape hsub hlt hdim
  obtain ⟨hwhole, hnodup⟩ := h.of_skeleton_eq_ok hfound
  obtain ⟨hfour, hquadrilateral⟩ := corners_le_four (by omega) h.corners_sub
  have hla : a.length = subDegree := (h.of_mem_partsOf hwhole ha).1
  have hlb : b.length = subDegree := (h.of_mem_partsOf hwhole hb).1
  have haccepted {part : List Nat} (hpart : part ∈ partsOf shape dim sub elements) :
      Acceptable subDegree part numbers := by
    obtain ⟨hlength, hmem⟩ := h.of_mem_partsOf hwhole hpart
    exact acceptable_single h.sub_pos hlength (hnodup part hpart) hnumbers fun v hv =>
      hnamed v (hmem v hv)
  have hlisted := h.listedOnce_iff_perm hfound ha (b := b)
  have hcanonical := oneCanonical_iff h.sub_le hnumbers (haccepted ha) (haccepted hb) hla hlb
  have hcycle : SameCycle a b ↔ a.Perm b ∧ ¬Twisted a b :=
    sameCycle_iff (hnodup a ha) (hla.trans_le hfour)
  refine ⟨subDegree, h.corners_sub, ?_, fun htwisted => ?_, fun n vertices names hresolvable => ?_⟩
  · rw [hlisted, hcanonical, hcycle]
    constructor
    · intro hagree htwisted
      exact (hagree.1 htwisted.perm).2 htwisted
    · intro hnot
      exact ⟨fun hperm => ⟨hperm, hnot⟩, And.left⟩
  · exact hquadrilateral (hla.symm.trans htwisted.length_eq)
  · obtain ⟨resolved, hyields, hmatches⟩ := resolveCopies_matches (κ := κ) h.sub_pos hresolvable
    refine ⟨resolved, hyields, fun r hr s hs _ i j hi hj => ?_⟩
    rw [hmatches r hr s hs i j _ _ hi hj,
      oneCanonical_iff_canonicalForm (haccepted ha) (haccepted hb) hla hlb]

/-- Elements whose parts repeat no vertex have a skeleton. -/
theorem exists_skeleton (shape : Shape) {dim sub : Nat} (hsub : 0 < sub) (hlt : sub < dim)
    (hdim : dim ≤ 3) {degree : Nat} (hdegree : shape.corners dim = .ok degree)
    {elements : List Nat} (hwhole : elements.length % degree = 0)
    (hnodup : ∀ part ∈ partsOf shape dim sub elements, part.Nodup) :
    ∃ found, skeleton elements shape dim sub = .ok found := by
  obtain ⟨_, _, h⟩ := exists_between_of_corners hdegree hsub hlt hdim
  rw [h.partsOf_eq_partList] at hnodup
  obtain ⟨records, hfound, _⟩ := (h.skeletonLaw elements).enumerates hwhole hnodup
  exact ⟨_, hfound⟩

/-- Two cubes side by side. -/
def twoCubes : List Nat := [0, 1, 2, 3, 4, 5, 6, 7, 1, 8, 9, 2, 5, 10, 11, 6]

/-- The face that they share, as it is listed on two ranks that hold its four vertices. -/
def sharedFace (r : Nat) : List Nat := if r = 0 then [0, 1, 2, 3] else [1, 0, 3, 2]

/-- The face that two cubes share is one, also between two ranks that hold a cube each. -/
theorem identity_agrees_iff_twoCubes :
    ∃ found, (0 < 2 ∧ 2 < 3 ∧ 3 ≤ 3 ∧ skeleton twoCubes .hypercube 3 2 = .ok found ∧
        (∀ v ∈ twoCubes, v < (List.range 12).reverse.length) ∧ (List.range 12).reverse.Nodup ∧
        [1, 2, 6, 5] ∈ partsOf .hypercube 3 2 twoCubes ∧
        [2, 1, 5, 6] ∈ partsOf .hypercube 3 2 twoCubes) ∧
      (ListedOnce 4 found [1, 2, 6, 5] [2, 1, 5, 6] ∧
        OneCanonical 4 (List.range 12).reverse [1, 2, 6, 5] [2, 1, 5, 6]) ∧
      ∃ resolved : Nat → Resolved,
        (World.start ((List.range 2).map fun r => (resolveCopies (κ := UInt8) (Seat.of r 2)
          [10, 9, 5, 6] 4 (sharedFace r) .smallest).toProgram)).Yields
            ((List.range 2).map fun r => .ok (resolved r)) ∧
        (resolved 0).owners[0]? = (resolved 1).owners[0]? := by
  obtain ⟨found, hfound⟩ := exists_skeleton .hypercube (by decide : 0 < 2) (by decide : 2 < 3)
    (by decide) rfl (by decide : twoCubes.length % 8 = 0) (by decide)
  have hhypotheses : 0 < 2 ∧ 2 < 3 ∧ 3 ≤ 3 ∧ skeleton twoCubes .hypercube 3 2 = .ok found ∧
      (∀ v ∈ twoCubes, v < (List.range 12).reverse.length) ∧ (List.range 12).reverse.Nodup ∧
      [1, 2, 6, 5] ∈ partsOf .hypercube 3 2 twoCubes ∧
      [2, 1, 5, 6] ∈ partsOf .hypercube 3 2 twoCubes :=
    ⟨by decide, by decide, by decide, hfound, by decide, by decide, by decide, by decide⟩
  have ⟨hsub, hlt, hdim, _, hnamed, hnumbers, ha, hb⟩ := hhypotheses
  obtain ⟨degree, hdegree, hagree, _, hranks⟩ :=
    identity_agrees_iff (κ := UInt8) .hypercube hsub hlt hdim hfound hnamed hnumbers ha hb
  cases hdegree
  have hcanonical : OneCanonical 4 (List.range 12).reverse [1, 2, 6, 5] [2, 1, 5, 6] :=
    ⟨_, _, rfl, rfl, by decide⟩
  have hresolvable : Resolvable 2 4 sharedFace fun _ => [10, 9, 5, 6] := by
    refine ⟨fun r hr => ?_, by decide, ⟨by decide, by decide, by decide, by decide⟩⟩
    match r, hr with
    | 0, _ => exact ⟨by decide, by decide, by decide, by decide⟩
    | 1, _ => exact ⟨by decide, by decide, by decide, by decide⟩
  obtain ⟨resolved, hyields, howners⟩ := hranks 2 _ _ hresolvable
  exact ⟨found, hhypotheses, ⟨(hagree.2 (by decide)).2 hcanonical, hcanonical⟩, resolved, hyields,
    (howners 0 (by decide) 1 (by decide) (by decide) 0 0 (by decide) (by decide)).2 hcanonical⟩

/-- Two cubes, one of which has the shared face twisted. -/
def twistedCubes : List Nat := [0, 1, 2, 3, 4, 5, 6, 7, 0, 2, 1, 3, 8, 9, 10, 11]

/-- A rank lists the twisted face once, but between ranks it is two faces. -/
theorem not_identity_agrees : ¬∀ (shape : Shape) (dim sub degree : Nat)
    (elements found numbers a b : List Nat), 0 < sub → sub < dim → dim ≤ 3 →
      shape.corners sub = .ok degree → skeleton elements shape dim sub = .ok found →
      (∀ v ∈ elements, v < numbers.length) → numbers.Nodup →
      a ∈ partsOf shape dim sub elements → b ∈ partsOf shape dim sub elements →
      (ListedOnce degree found a b ↔ OneCanonical degree numbers a b) := by
  intro h
  obtain ⟨_, _, _, hbetween⟩ := exists_between .hypercube (by decide : 0 < 2) (by decide : 2 < 3)
    (by decide)
  obtain ⟨found, hfound⟩ := exists_skeleton .hypercube (by decide : 0 < 2) (by decide : 2 < 3)
    (by decide) rfl (by decide : twistedCubes.length % 8 = 0) (by decide)
  have ha : [1, 0, 3, 2] ∈ partsOf .hypercube 3 2 twistedCubes := by decide
  have hagree := h .hypercube 3 2 4 twistedCubes found (List.range 12) [1, 0, 3, 2] [2, 0, 3, 1]
    (by decide) (by decide) (by decide) rfl hfound (by decide) (by decide) ha (by decide)
  cases hbetween.corners_sub
  obtain ⟨c, c', hc, hc', hglobals⟩ :=
    hagree.1 ((hbetween.listedOnce_iff_perm hfound ha).2 (by decide))
  cases hc
  cases hc'
  exact absurd hglobals (by decide)

end SharedMesh
