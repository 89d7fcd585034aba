import Mathlib.Data.List.Permutation
import SharedMesh.Proofs.Collective.Alone
import SharedMesh.Proofs.Mesh.Distribution
import SharedMesh.Proofs.Skeleton.Enumerating

/-!
# The shortcut of a single rank

A single rank does not look for other copies of its entities: each is its own owner, and is
numbered as it comes. This is a shortcut for what several ranks do (`Part.buildShared`), and it
comes to the same part, or fails with the same error (`build_agrees_buildShared`). For the shared
way to come to these owners and numbers, no two records of a rank may have the same key. They
do not, as the records of a skeleton have different vertices (`nodup_recordKeys`).

The shared way needs more room, three words for each number up to the largest one. Where there is
none, the shortcut is taken all the same (`not_build_agrees_buildShared_of_numbers`).
-/

namespace SharedMesh

variable {κ : Type} {shape : Shape} {dim degree : Nat} {vs gs : List Nat}

/-! ## The shared way -/

namespace Part

variable [Alphabet κ]

/-- The layer of one dimension between vertices and elements, as the ranks agree on it. -/
def sharedLayer (seat : Seat) (shape : Shape) (dim : Nat) (vertices numbers : List Nat)
    (sub : Nat) : Proc κ Layer := do
  let records ← Proc.ofChecked (skeleton vertices shape dim sub)
  let degree ← Proc.ofChecked (shape.corners sub)
  sharedEntities seat degree records numbers

/-- The part of a rank, with all layers made as several ranks make them. -/
def buildShared (seat : Seat) (shape : Shape) (dim : Nat) (vertices numbers : List Nat) :
    Proc κ Part := do
  let degree ← Proc.ofChecked (checkElements shape dim vertices numbers)
  let bottom ← sharedVertices seat numbers
  let between ← (List.range' 1 (dim - 1)).mapM (sharedLayer seat shape dim vertices numbers)
  let top ← sharedElements seat degree vertices
  return ⟨seat, shape, dim, bottom :: between ++ [top]⟩

theorem derivedLayers_eq_mapM {seat : Seat} {f : Nat → Proc κ Layer} {subs : List Nat}
    (h : ∀ sub ∈ subs, derivedLayer seat shape dim vs gs sub = f sub) :
    (derivedLayers seat shape dim vs gs subs : Proc κ (List Layer)) = subs.mapM f := by
  induction subs with
  | nil => rfl
  | cons sub subs ih =>
    rw [derivedLayers, List.mapM_cons, h sub List.mem_cons_self,
      ih fun sub hsub => h sub (List.mem_cons_of_mem _ hsub)]

/-- This is how more than one rank build their parts. -/
theorem build_eq_buildShared {seat : Seat} (h : 1 < seat.size) :
    (build seat shape dim vs gs : Proc κ Part) = buildShared seat shape dim vs gs := by
  have hlayer : ∀ sub, (derivedLayer seat shape dim vs gs sub : Proc κ Layer) =
      sharedLayer seat shape dim vs gs sub := fun sub => by
    simp only [derivedLayer, sharedLayer, if_pos h]
  simp only [build, buildShared, if_pos h, derivedLayers_eq_mapM fun sub _ => hlayer sub]

/-- What the first check finds out. -/
theorem of_checkElements (h : checkElements shape dim vs gs = .ok degree) :
    0 < dim ∧ shape.corners dim = .ok degree ∧ vs.length % degree = 0 ∧
      ∀ v ∈ vs, v < gs.length := by
  rw [checkElements] at h
  split at h
  · cases h
  · next hdim =>
    obtain ⟨degree', hcorners, h⟩ := bind_eq_ok h
    by_cases hwhole : vs.length % degree' = 0
    · rw [if_neg (not_not_intro hwhole)] at h
      cases hfind : vs.find? fun v => gs.length ≤ v with
      | some v =>
        rw [hfind] at h
        cases h
      | none =>
        rw [hfind] at h
        cases h
        exact ⟨Nat.pos_of_ne_zero hdim, hcorners, hwhole, fun v hv => by
          simpa using List.find?_eq_none.1 hfind v hv⟩
    · rw [if_pos hwhole] at h
      cases h

end Part

/-! ## Different keys -/

/-- Different vertices have different numbers. -/
theorem nodup_map_getD (hgs : gs.Nodup) {part : List Nat} (hpart : part.Nodup)
    (hnamed : ∀ v ∈ part, v < gs.length) : (part.map fun v => gs.getD v 0).Nodup := by
  refine hpart.map_on fun v hv w hw heq => ?_
  refine (List.getElem?_inj (hnamed v hv) hgs).1 ?_
  rw [getElem?_eq_some_getD (hnamed v hv), getElem?_eq_some_getD (hnamed w hw), heq]

section

variable {sub subDegree : Nat} {template : List Nat}
  (hb : Between shape dim sub degree subDegree template)
  (hwhole : vs.length = vs.length / degree * degree) (hnamed : ∀ v ∈ vs, v < gs.length)
  (hgs : gs.Nodup) (hparts : ∀ part ∈ partsOf shape dim sub vs, part.Nodup)

include hb hwhole hnamed hgs hparts

theorem acceptable_of_nodup :
    Acceptable subDegree (skeletonRecords shape dim sub vs).flatten gs :=
  acceptable_skeleton hb hwhole hnamed fun part hpart => nodup_map_getD hgs (hparts part hpart)
    fun v hv => hnamed v ((hb.of_mem_partsOf hwhole hpart).2 v hv)

/-- No two records of a skeleton have the same key, as no two of them have the same vertices. -/
theorem nodup_recordKeys :
    (recordKeys subDegree (skeletonRecords shape dim sub vs).flatten gs).Nodup := by
  have hrank : Renumbered vs gs (vs.map fun v => gs.getD v 0) := ⟨hgs, hnamed, rfl⟩
  have hpart : ∀ record ∈ skeletonRecords shape dim sub vs, record.Nodup ∧
      record.length = subDegree ∧ ∀ v ∈ record, v < gs.length := fun record hrecord => by
    have hmem := mem_partsOf_of_mem_skeletonRecords hrecord
    obtain ⟨hlength, hvertices⟩ := hb.of_mem_partsOf hwhole hmem
    exact ⟨hparts record hmem, hlength, fun v hv => hnamed v (hvertices v hv)⟩
  rw [recordKeys, globalRecords_skeleton hb hwhole, List.map_map, List.Nodup, List.pairwise_map]
  refine (enumerates_firstSeen hparts).distinct.imp_of_mem fun {a b} ha hb' hne hkey => hne ?_
  obtain ⟨hna, hla, hva⟩ := hpart a ha
  obtain ⟨hnb, hlb, hvb⟩ := hpart b hb'
  have hcycle := (canonicalForm_eq_iff hb.sub_pos hb.sub_le (by simpa using hla)
    (by simpa using hlb) (nodup_map_getD hgs hna hva) (nodup_map_getD hgs hnb hvb)).1 hkey
  exact List.toFinset_eq_of_perm _ _ ((hrank.perm_map_iff hva hvb).1 hcycle.perm)

end

/-! ## Alone -/

section

variable [Alphabet κ] [LawfulAlphabet κ] (networked : Bool)

/-- What a single rank owns itself is numbered as it comes. -/
theorem numberOwned_sole {count : Nat} (hroom : count * 32 < 2 ^ 63) :
    (numberOwned (Seat.sole networked) (Place.own 0 count) : Proc κ (List Nat)) =
      Proc.ofChecked (.ok (List.range count)) := by
  have hnumbering : NumberingRoom 1 fun r => Place.own r count :=
    numberingRoom_of_sum (by simpa [itemTotal] using hroom)
  have hall : allOwned 1 (fun r => Place.own r count) = Place.own 0 count := by
    rw [allOwned, List.range_one, List.flatMap_singleton, ownedPlaces_own fun _ => count]
  have hnumbers := (numberOwned_silent (κ := κ) (Place.own 0 count)).eq_of_together
    (t := fun r => numberOwned (Seat.of r 1) (Place.own r count))
    (numberOwned_together (selfOwned_own fun _ => count) hnumbering)
  simp only [hall, map_idxOf_self (nodup_own 0 count), Place.length_own] at hnumbers
  exact hnumbers

/-- Different numbers on a single rank are their own owners. -/
theorem ownersOfNumbers_sole (hgs : gs.Nodup) (hlt : ∀ g ∈ gs, g < 2 ^ 64 - 2)
    (hroom : MeetingRoom 1 1 (fun _ => gs) fun _ => numberKeys gs) :
    (ownersOfNumbers (Seat.sole networked) gs none .smallest : Proc κ (List Place)) =
      Proc.ofChecked (.ok (Place.own 0 gs.length)) := by
  have hnodup : (numberKeys gs).Nodup := hgs.map fun _ _ => List.head_eq_of_cons_eq
  have howners := (ownersOfNumbers_silent (κ := κ) gs none .smallest).eq_of_together
    (t := fun r => ownersOfNumbers (Seat.of r 1) gs none .smallest)
    (ownersOfNumbers_together (fun _ _ => hlt) hroom fun _ hr _ hkey => resolves_smallest hr hkey)
  have hown : firstOwners 1 (fun _ => numberKeys gs) 0 = Place.own 0 gs.length := by
    rw [firstOwners_one hnodup, numberKeys, List.length_map]
  exact howners.trans (congrArg (fun owners => Proc.ofChecked (.ok owners)) hown)

/-- Records with different keys on a single rank are their own owners. -/
theorem resolveCopies_sole {k : Nat} {records : List Nat} (h : Acceptable k records gs)
    (hkeys : (recordKeys k records gs).Nodup) (hlt : ∀ g ∈ gs, g < 2 ^ 64 - 2)
    (hroom : MeetingRoom 1 k (fun _ => gs) fun _ => recordKeys k records gs) :
    (resolveCopies (Seat.sole networked) gs k records .smallest : Proc κ Resolved) =
      Proc.ofChecked (.ok
        { vertices := (canonicalRecords k records gs).vertices
          turns := (canonicalRecords k records gs).turns
          owners := Place.own 0 (canonicalRecords k records gs).count }) := by
  have hresolved := (resolveCopies_silent (κ := κ) gs k records .smallest).eq_of_together
    (t := fun r => resolveCopies (Seat.of r 1) gs k records .smallest)
    (resolveCopies_together (fun _ _ => h) (keyed_recordKeys (fun _ _ => hlt) (fun _ _ => h)
      h.degree_pos) hroom fun _ hr _ hkey => resolves_smallest hr hkey)
  have hown : firstOwners 1 (fun _ => recordKeys k records gs) 0 =
      Place.own 0 (canonicalRecords k records gs).count := by
    rw [firstOwners_one hkeys, count_canonicalRecords]
  rw [← hown]
  exact hresolved

/-- The vertices of a single rank. -/
theorem sharedVertices_sole (hgs : gs.Nodup) (hlt : ∀ g ∈ gs, g < 2 ^ 64 - 2)
    (hroom : MeetingRoom 1 1 (fun _ => gs) fun _ => numberKeys gs)
    (howners : gs.length * 32 < 2 ^ 63) :
    (Part.sharedVertices (Seat.sole networked) gs : Proc κ Layer) =
      Proc.ofChecked (Part.soleVertices (Seat.sole networked) gs) := by
  rw [Part.sharedVertices, ownersOfNumbers_sole networked hgs hlt hroom, Part.soleVertices,
    soleOwners_eq_ok _ (by omega)]
  rfl

/-- The elements of a single rank. -/
theorem sharedElements_sole (hroom : vs.length / degree * 32 < 2 ^ 63) :
    (Part.sharedElements (Seat.sole networked) degree vs : Proc κ Layer) =
      Proc.ofChecked (Part.soleElements (Seat.sole networked) degree vs) := by
  have hnumbers := numberOwned_sole (κ := κ) networked hroom
  rw [Part.sharedElements, Part.soleElements, soleOwners_eq_ok _ (by omega),
    Proc.ofChecked_ok_bind, show (Seat.sole networked).rank = 0 from rfl, hnumbers]
  rfl

end

/-- What a single rank has that passes the first check: elements whose vertices are there, with
    different numbers, and room for what ranks would build of them. -/
structure SoleElements (shape : Shape) (dim degree : Nat) (vs gs : List Nat) : Prop where
  checked : Part.checkElements shape dim vs gs = .ok degree
  dim_le : dim ≤ 3
  nodup : gs.Nodup
  number_lt : ∀ g ∈ gs, g < 2 ^ 64 - 2
  room : PartsRoom 1 (fun _ => vs) fun _ => gs

namespace SoleElements

variable {sub subDegree : Nat} {template : List Nat}

theorem named (h : SoleElements shape dim degree vs gs) : ∀ v ∈ vs, v < gs.length :=
  (Part.of_checkElements h.checked).2.2.2

theorem length_eq (h : SoleElements shape dim degree vs gs) :
    vs.length = vs.length / degree * degree := by
  rw [Nat.div_mul_cancel (Nat.dvd_of_mod_eq_zero (Part.of_checkElements h.checked).2.2.1)]

theorem between (h : SoleElements shape dim degree vs gs) {sub : Nat} (hpos : 0 < sub)
    (hlt : sub < dim) : ∃ subDegree template, Between shape dim sub degree subDegree template :=
  exists_between_of_corners (Part.of_checkElements h.checked).2.1 hpos hlt h.dim_le

theorem meetingRoom_vertices (h : SoleElements shape dim degree vs gs) :
    MeetingRoom 1 1 (fun _ => gs) fun _ => numberKeys gs := by
  have hitems : itemTotal 1 (fun _ => numberKeys gs) = itemTotal 1 fun _ => gs := by
    simp [itemTotal, numberKeys]
  have := h.room.number_room
  exact meetingRoom_of_shares h.room.rank_room h.room.share_room (by omega) (by omega)

variable [Alphabet κ] [LawfulAlphabet κ] (networked : Bool)

/-- The owners and numbers of derived entities, as the shared way finds them. -/
theorem resolved (h : SoleElements shape dim degree vs gs) (hpos : 0 < sub) (hlt : sub < dim)
    {records : List Nat} (hrecords : skeleton vs shape dim sub = .ok records) :
    ∃ k canonical, shape.corners sub = .ok k ∧ Canonical.ofRecords k records gs = .ok canonical ∧
      canonical.count * 32 < 2 ^ 63 ∧
      (resolveCopies (Seat.sole networked) gs k records .smallest : Proc κ Resolved) =
        Proc.ofChecked
          (.ok ⟨canonical.vertices, canonical.turns, Place.own 0 canonical.count⟩) ∧
      (numberOwned (Seat.sole networked) (Place.own 0 canonical.count) : Proc κ (List Nat)) =
        Proc.ofChecked (.ok (List.range canonical.count)) := by
  obtain ⟨k, template, hb⟩ := h.between hpos hlt
  have hparts : ∀ part ∈ partsOf shape dim sub vs, part.Nodup := by
    by_contra hrepeat
    push Not at hrepeat
    rw [hb.partsOf_eq_partList] at hrepeat
    obtain ⟨e, he⟩ := hb.skeleton_eq_error (.inr hrepeat)
    rw [hrecords] at he
    cases he
  rw [hb.skeleton_eq_ok h.length_eq hparts, Except.ok.injEq, ← skeletonRecords] at hrecords
  subst hrecords
  have hacceptable := acceptable_of_nodup hb h.length_eq h.named h.nodup hparts
  have hkeys := nodup_recordKeys hb h.length_eq h.named h.nodup hparts
  have hitems := room_recordKeys hb (fun _ => gs) (fun _ _ => h.length_eq) h.room.element_room
  have hmeeting := meetingRoom_of_shares h.room.rank_room h.room.share_room hitems.1 hitems.2
  have hcount := h.room.records hb (fun _ _ => h.length_eq) Nat.zero_lt_one
  rw [← count_canonicalRecords] at hcount
  exact ⟨k, _, hb.corners_sub, ofRecords_eq_ok hacceptable, hcount,
    resolveCopies_sole networked hacceptable hkeys h.number_lt hmeeting,
    numberOwned_sole networked hcount⟩

/-- A layer between vertices and elements is the same either way. -/
theorem derivedLayer_eq (h : SoleElements shape dim degree vs gs) (hpos : 0 < sub)
    (hlt : sub < dim) : (Part.derivedLayer (Seat.sole networked) shape dim vs gs sub :
      Proc κ Layer) = Part.sharedLayer (Seat.sole networked) shape dim vs gs sub := by
  rw [Part.derivedLayer, Part.sharedLayer]
  cases hrecords : skeleton vs shape dim sub with
  | error e => rw [Proc.ofChecked_error_bind, Proc.ofChecked_error_bind]
  | ok records =>
    obtain ⟨k, canonical, hk, hcanonical, hroom, hresolve, hnumber⟩ :=
      h.resolved (κ := κ) networked hpos hlt hrecords
    have howners : soleOwners (Seat.sole networked) canonical.count = .ok _ :=
      soleOwners_eq_ok _ (by omega)
    simp only [hk, Proc.ofChecked_ok_bind, Part.sharedEntities, hresolve, hnumber,
      Part.soleEntities, bind_of_ok hcanonical, bind_of_ok howners]
    rfl

/-- A single rank builds the same part either way. -/
theorem build_eq (h : SoleElements shape dim degree vs gs) :
    (Part.build (Seat.sole networked) shape dim vs gs : Proc κ Part) =
      Part.buildShared (Seat.sole networked) shape dim vs gs := by
  have hlayers := Part.derivedLayers_eq_mapM (κ := κ) fun sub hsub =>
    h.derivedLayer_eq networked (mem_range'_between hsub).1 (mem_range'_between hsub).2
  rw [SharedMesh.build_eq, Part.buildShared, hlayers]
  simp only [h.checked, Proc.ofChecked_ok_bind,
    sharedVertices_sole networked h.nodup h.number_lt h.meetingRoom_vertices
      (h.room.vertices Nat.zero_lt_one),
    sharedElements_sole networked (h.room.elements degree Nat.zero_lt_one)]
  rfl

end SoleElements

/-- Without others, a part is built without the network. -/
theorem build_silent [Alphabet κ] (networked : Bool) (shape : Shape) (dim : Nat)
    (vs gs : List Nat) :
    (Part.build (Seat.sole networked) shape dim vs gs : Proc κ Part).Silent := by
  have hlayers : ∀ subs, (Part.derivedLayers (Seat.sole networked) shape dim vs gs subs :
      Proc κ (List Layer)).Silent := by
    intro subs
    induction subs with
    | nil => exact .pure _
    | cons sub subs ih =>
      refine .bind ?_ fun _ => .bind ih fun _ => .pure _
      exact .bind (.ofChecked _) fun _ => .bind (.ofChecked _) fun _ => .ofChecked _
  rw [build_eq]
  exact .bind (.ofChecked _) fun _ => .bind (.ofChecked _) fun _ => .bind (hlayers _) fun _ =>
    .bind (.ofChecked _) fun _ => .pure _

/-- On a single rank the shortcut agrees with the shared way. It fails just if the shared way
    does, and otherwise makes the same layers: vertices own themselves, derived entities are
    their own owners in canonical form, and they and the elements are numbered as they come.
    Neither way uses the network, if there is any. -/
theorem build_agrees_buildShared [Alphabet κ] [LawfulAlphabet κ] (networked : Bool)
    (h : SoleElements shape dim degree vs gs) :
    let seat := Seat.sole networked
    (∃ outcome : Checked Part,
      (Part.build seat shape dim vs gs : Proc κ Part).toProgram = .done outcome ∧
      (Part.buildShared seat shape dim vs gs : Proc κ Part).toProgram = .done outcome) ∧
    (ownersOfNumbers seat gs none .smallest : Proc κ (List Place)).toProgram =
      .done (.ok (Place.own 0 gs.length)) ∧
    (∀ sub, 0 < sub → sub < dim → ∀ records, skeleton vs shape dim sub = .ok records →
      ∃ k canonical, shape.corners sub = .ok k ∧
        Canonical.ofRecords k records gs = .ok canonical ∧
        (resolveCopies seat gs k records .smallest : Proc κ Resolved).toProgram =
          .done (.ok ⟨canonical.vertices, canonical.turns, Place.own 0 canonical.count⟩) ∧
        (numberOwned seat (Place.own 0 canonical.count) : Proc κ (List Nat)).toProgram =
          .done (.ok (List.range canonical.count))) ∧
    (numberOwned seat (Place.own 0 (vs.length / degree)) : Proc κ (List Nat)).toProgram =
      .done (.ok (List.range (vs.length / degree))) := by
  intro seat
  refine ⟨?_, ?_, fun sub hpos hlt records hrecords => ?_, ?_⟩
  · obtain ⟨outcome, houtcome⟩ := build_silent (κ := κ) networked shape dim vs gs
    refine ⟨outcome, congrArg Proc.toProgram houtcome, ?_⟩
    exact congrArg Proc.toProgram ((h.build_eq networked).symm.trans houtcome)
  · exact congrArg Proc.toProgram
      (ownersOfNumbers_sole networked h.nodup h.number_lt h.meetingRoom_vertices)
  · obtain ⟨k, canonical, hk, hcanonical, _, hresolve, hnumber⟩ :=
      h.resolved (κ := κ) networked hpos hlt hrecords
    exact ⟨k, canonical, hk, hcanonical, congrArg Proc.toProgram hresolve,
      congrArg Proc.toProgram hnumber⟩
  · exact congrArg Proc.toProgram (numberOwned_sole networked (h.room.elements degree Nat.zero_lt_one))

/-- Two triangles with a common edge have the same part either way, and a triangle that repeats a
    vertex is refused either way. -/
theorem build_agrees_buildShared_triangles :
    (SoleElements .simplex 2 3 [0, 1, 2, 2, 1, 3] [5, 0, 3, 9] ∧
      SoleElements .simplex 2 3 [0, 1, 1] [5, 0]) ∧
    (∃ part : Part,
      (Part.build (κ := UInt8) (Seat.sole true) .simplex 2 [0, 1, 2, 2, 1, 3]
        [5, 0, 3, 9]).toProgram = .done (.ok part) ∧
      (Part.buildShared (κ := UInt8) (Seat.sole true) .simplex 2 [0, 1, 2, 2, 1, 3]
        [5, 0, 3, 9]).toProgram = .done (.ok part)) ∧
    ∃ e : MeshError,
      (Part.build (κ := UInt8) (Seat.sole true) .simplex 2 [0, 1, 1] [5, 0]).toProgram =
        .done (.error e) ∧
      (Part.buildShared (κ := UInt8) (Seat.sole true) .simplex 2 [0, 1, 1] [5, 0]).toProgram =
        .done (.error e) := by
  have htwo : SoleElements .simplex 2 3 [0, 1, 2, 2, 1, 3] [5, 0, 3, 9] :=
    ⟨rfl, by decide, by decide, by decide, ⟨by decide, by decide, by decide, by decide⟩⟩
  have hbad : SoleElements .simplex 2 3 [0, 1, 1] [5, 0] :=
    ⟨rfl, by decide, by decide, by decide, ⟨by decide, by decide, by decide, by decide⟩⟩
  obtain ⟨⟨outcome, hbuild, hshared⟩, _⟩ := build_agrees_buildShared (κ := UInt8) true htwo
  obtain ⟨⟨outcome', hbuild', hshared'⟩, _⟩ := build_agrees_buildShared (κ := UInt8) true hbad
  have hpart : (Part.build (κ := UInt8) (Seat.sole true) .simplex 2 [0, 1, 2, 2, 1, 3]
      [5, 0, 3, 9]).toProgram.result?.map Except.toBool = some true := by cbv
  have herror : (Part.build (κ := UInt8) (Seat.sole true) .simplex 2 [0, 1, 1]
      [5, 0]).toProgram.result?.map Except.toBool = some false := by cbv
  rw [hbuild] at hpart
  rw [hbuild'] at herror
  cases outcome with
  | error e => cases hpart
  | ok part =>
    cases outcome' with
    | ok part' => cases herror
    | error e => exact ⟨⟨htwo, hbad⟩, ⟨part, hbuild, hshared⟩, e, hbuild', hshared'⟩

/-- It is not enough that the numbers are different words: the shortcut is taken without room for
    all numbers up to the largest one, for which the shared way stops. -/
theorem not_build_agrees_buildShared_of_numbers :
    ¬ ∀ (shape : Shape) (dim degree : Nat) (vs gs : List Nat),
      Part.checkElements shape dim vs gs = .ok degree → dim ≤ 3 → gs.Nodup →
      (∀ g ∈ gs, g < 2 ^ 64 - 2) →
      ((∃ e, (Part.build (κ := UInt8) (Seat.sole true) shape dim vs gs).toProgram =
          .done (.error e)) ↔
        ∃ e, (Part.buildShared (κ := UInt8) (Seat.sole true) shape dim vs gs).toProgram =
          .done (.error e)) := by
  intro h
  have hlt : ∀ g ∈ [0, 2 ^ 62], g < 2 ^ 64 - 2 := by decide
  -- the rank serves more numbers than it can count
  have hsound : Route.Sound 1
      (fun _ => (numberKeys [0, 2 ^ 62]).map (homeOf 1 fun _ => [0, 2 ^ 62]))
      (sharesOf 1 fun _ => [0, 2 ^ 62]).length := ⟨by decide, by decide⟩
  have hplan := Route.plan_together_noRoom (κ := UInt8) hsound (by decide) (by decide) (by decide)
    (by decide)
  have howners : (ownersOfNumbers (Seat.sole true) [0, 2 ^ 62] none .smallest :
      Proc UInt8 (List Place)) = Proc.ofChecked (.error (.breach .noRoom)) :=
    (ownersOfNumbers_silent [0, 2 ^ 62] none .smallest).eq_of_together
      (t := fun r => ownersOfNumbers (Seat.of r 1) [0, 2 ^ 62] none .smallest)
      (ownersOfNumbers_of_meetAtHome
        (meetAtHome_of_meet .smallest (keyed_numberKeys fun _ _ => hlt) hplan.orFail))
  have hshared : (Part.buildShared (κ := UInt8) (Seat.sole true) .simplex 1 [0, 1]
      [0, 2 ^ 62]).toProgram = .done (.error (.breach .noRoom)) := by
    have hchecked : Part.checkElements .simplex 1 [0, 1] [0, 2 ^ 62] = .ok 2 := rfl
    simp only [Part.buildShared, hchecked, Proc.ofChecked_ok_bind, Part.sharedVertices, howners,
      Proc.ofChecked_error_bind]
    rfl
  obtain ⟨e, he⟩ := (h .simplex 1 2 [0, 1] [0, 2 ^ 62] rfl (by decide) (by decide) hlt).2
    ⟨_, hshared⟩
  have hbuild : (Part.build (κ := UInt8) (Seat.sole true) .simplex 1 [0, 1]
      [0, 2 ^ 62]).toProgram.result?.map Except.toBool = some true := by cbv
  rw [he] at hbuild
  cases hbuild

end SharedMesh
