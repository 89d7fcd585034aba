import SharedMesh.Proofs.Ownership.Homes
import SharedMesh.Proofs.Record.Canonical

/-!
# Resolving copies

Records of two vertices' numbers, or more, are copies of one entity if they denote the same
cycle. Somebody who sees the records of all ranks would list all copies of an entity
(`entityCopies`) and ask the policy for its owner. The ranks, none of which sees all
records, come to the same owners (`resolveCopies_yields`).

This is so because copies of one entity, and only they, have the same canonical form, and
meet where its first number is at home (`namers_recordKeys`).
-/

namespace SharedMesh

open Route

/-! ## The entities of all ranks -/

/-- The policy chooses one of the copies. -/
def Decides (policy : OwnerPolicy) (copies : List Place) : Prop :=
  ∃ owner ∈ copies, policy copies = some owner

instance (policy : OwnerPolicy) (copies : List Place) : Decidable (Decides policy copies) :=
  inferInstanceAs (Decidable (∃ owner ∈ copies, policy copies = some owner))

/-- The records of all ranks that denote the same cycle as `record`, by rank and index. -/
def entityCopies (n degree : Nat) (vertices numbers : Nat → List Nat) (record : List Nat) :
    List Place :=
  (List.range n).flatMap fun r =>
    ((globalRecords degree (vertices r) (numbers r)).zipIdx.filter
      fun x => SameCycle x.1 record).map fun x => ⟨r, x.2⟩

/-- What a rank is to know of its entities: each has the owner that the policy chooses among
    all copies, and its vertices are in canonical order. -/
structure IsResolved (degree : Nat) (vertices numbers : List Nat) (policy : OwnerPolicy)
    (copies : List Nat → List Place) (resolved : Resolved) : Prop where
  owners : resolved.owners.map some =
    (globalRecords degree vertices numbers).map fun record => policy (copies record)
  length_vertices : resolved.vertices.length = vertices.length
  canonical : List.Forall₂ (fun record turned =>
      SameCycle record turned ∧ IsCanonical (turned.map fun v => numbers.getD v 0))
    (rows degree vertices) (rows degree resolved.vertices)

/-! ## Records and keys -/

variable {κ : Type} {n degree : Nat} {vertices numbers : Nat → List Nat} {policy : OwnerPolicy}

/-- A record and its key are of the same numbers. -/
theorem perm_canonicalForm {vs gs : List Nat} (h : Acceptable degree vs gs) {record : List Nat}
    (hrecord : record ∈ globalRecords degree vs gs) : record.Perm (canonicalForm degree record) :=
  (canonicalForm_sameCycle (h.length_globalRecords record hrecord)).perm

theorem mem_numbers_of_mem_globalRecords {vs gs : List Nat} (h : Acceptable degree vs gs)
    {record : List Nat} (hrecord : record ∈ globalRecords degree vs gs) {g : Nat}
    (hg : g ∈ record) : g ∈ gs := by
  have hflat : (globalRecords degree vs gs).flatten = vs.map fun v => gs.getD v 0 := by
    rw [globalRecords, rows]
    exact flatten_takeRows _ _ _ (by rw [List.length_map]; exact h.whole)
  have hmem : g ∈ vs.map fun v => gs.getD v 0 := hflat ▸ List.mem_flatten_of_mem hrecord hg
  obtain ⟨v, hv, rfl⟩ := List.mem_map.1 hmem
  rw [List.getD_eq_getElem?_getD, List.getElem?_eq_getElem (h.named v hv)]
  exact List.getElem_mem _

/-- The items with the key of a record are all copies of its entity. -/
theorem namers_recordKeys (hdegree : degree ≤ 128)
    (h : ∀ r < n, Acceptable degree (vertices r) (numbers r)) {r : Nat} (hr : r < n)
    {record : List Nat} (hrecord : record ∈ globalRecords degree (vertices r) (numbers r)) :
    namers n (fun r => recordKeys degree (vertices r) (numbers r)) (canonicalForm degree record) =
      entityCopies n degree vertices numbers record := by
  rw [namers, entityCopies]
  refine List.flatMap_congr fun s hs => ?_
  have hs := h s (List.mem_range.1 hs)
  rw [recordKeys, List.zipIdx_map, List.filter_map, List.map_map]
  refine congrArg (List.map _) (List.filter_congr fun x hx => decide_eq_decide.2 ?_)
  have hx := List.fst_mem_of_mem_zipIdx hx
  exact canonicalForm_eq_iff (h r hr).degree_pos hdegree (hs.length_globalRecords _ hx)
    ((h r hr).length_globalRecords _ hrecord) (hs.nodup _ hx) ((h r hr).nodup _ hrecord)

/-- The keys of accepted records are of known numbers. -/
theorem keyed_recordKeys (hnumbers : ∀ r < n, ∀ g ∈ numbers r, g < 2 ^ 64 - 2)
    (h : ∀ r < n, Acceptable degree (vertices r) (numbers r)) (hpos : 0 < degree) :
    Keyed n degree numbers fun r => recordKeys degree (vertices r) (numbers r) where
  width_pos := hpos
  length_key r hr := (h r hr).length_recordKeys
  mem_numbers r hr key hkey g hg := by
    obtain ⟨record, hrecord, rfl⟩ := List.mem_map.1 hkey
    exact mem_numbers_of_mem_globalRecords (h r hr) hrecord
      ((perm_canonicalForm (h r hr) hrecord).mem_iff.2 hg)
  number_lt := hnumbers

theorem firstGlobals_canonicalRecords {vs gs : List Nat} (h : Acceptable degree vs gs) :
    (canonicalRecords degree vs gs).firstGlobals =
      (recordKeys degree vs gs).map (List.headD · 0) := by
  rw [Canonical.firstGlobals, canonicalRecords, rows_flatten h.degree_pos h.length_recordKeys]
  refine List.filterMap_eq_map_iff_forall_eq_some.2 fun key hkey => ?_
  have hlength := h.length_recordKeys key hkey
  have hpos := h.degree_pos
  cases key with
  | nil => simp only [List.length_nil] at hlength; omega
  | cons g rest => rfl

/-- The first number of a key is the smallest of its record. -/
theorem headD_canonicalForm (hdegree : degree ≤ 128) {vs gs : List Nat}
    (h : Acceptable degree vs gs) {record : List Nat}
    (hrecord : record ∈ globalRecords degree vs gs) :
    record.min?.getD 0 = (canonicalForm degree record).headD 0 := by
  have hlength := h.length_globalRecords record hrecord
  have hcanonical := isCanonical_canonicalForm h.degree_pos hdegree hlength
    (h.nodup record hrecord)
  have hperm := perm_canonicalForm h hrecord
  have hpos : 0 < (canonicalForm degree record).length := by
    rw [length_canonicalForm hlength]
    exact h.degree_pos
  cases hform : canonicalForm degree record with
  | nil => rw [hform] at hpos; cases hpos
  | cons g rest =>
    rw [hform] at hperm hcanonical
    have hmin : record.min? = some g := List.min?_eq_some_iff.2
      ⟨hperm.mem_iff.2 List.mem_cons_self, fun b hb => hcanonical.head_le b (hperm.mem_iff.1 hb)⟩
    rw [hmin]
    rfl

/-- The canonical records of a rank, with the owners of their keys, are resolved. -/
theorem isResolved_canonicalRecords (hdegree : degree ≤ 128)
    (h : ∀ r < n, Acceptable degree (vertices r) (numbers r)) {r : Nat} (hr : r < n)
    (hall : ∀ record ∈ globalRecords degree (vertices r) (numbers r),
      Decides policy (entityCopies n degree vertices numbers record)) :
    IsResolved degree (vertices r) (numbers r) policy (entityCopies n degree vertices numbers)
      { vertices := (canonicalRecords degree (vertices r) (numbers r)).vertices
        turns := (canonicalRecords degree (vertices r) (numbers r)).turns
        owners := (recordKeys degree (vertices r) (numbers r)).map
          (ownerOf n (fun r => recordKeys degree (vertices r) (numbers r)) policy) } := by
  constructor
  case owners =>
    rw [recordKeys, List.map_map, List.map_map]
    refine List.map_congr_left fun record hrecord => ?_
    obtain ⟨owner, _, howner⟩ := hall record hrecord
    simp only [Function.comp_apply, ownerOf]
    rw [namers_recordKeys hdegree h hr hrecord, howner]
    rfl
  case length_vertices =>
    rw [canonicalRecords, length_flatten_of_width fun row hrow => ?_, List.length_map, length_rows]
    · exact (h r hr).whole.symm
    · obtain ⟨record, hrecord, rfl⟩ := List.mem_map.1 hrow
      exact Turn.length_apply _ ((h r hr).length_rows_vertices record hrecord)
  case canonical =>
    rw [rows_canonicalRecords (h r hr), List.forall₂_map_right_iff, List.forall₂_same]
    intro record hrecord
    refine ⟨Turn.sameCycle_apply _ ((h r hr).length_rows_vertices record hrecord), ?_⟩
    have hglobal : record.map (fun v => (numbers r).getD v 0) ∈
        globalRecords degree (vertices r) (numbers r) := by
      rw [globalRecords, rows_map]
      exact List.mem_map_of_mem hrecord
    rw [← Turn.apply_map]
    exact isCanonical_canonicalForm (h r hr).degree_pos hdegree
      ((h r hr).length_globalRecords _ hglobal) ((h r hr).nodup _ hglobal)

/-! ## All ranks -/

section

variable [Alphabet κ] [LawfulAlphabet κ]

/-- Ranks whose records have canonical forms let the keys meet, and add the owners. -/
theorem resolveCopies_of_meetAtHome (h : ∀ r < n, Acceptable degree (vertices r) (numbers r))
    {y : Nat → Checked Resolved}
    (hmeet : Together n (List.range n) (fun r => (meetAtHome (κ := κ) (Seat.of r n) (numbers r)
      ((recordKeys degree (vertices r) (numbers r)).map (List.headD · 0)) degree
      (recordKeys degree (vertices r) (numbers r)).flatten policy >>= fun owners => pure
        { vertices := (canonicalRecords degree (vertices r) (numbers r)).vertices
          turns := (canonicalRecords degree (vertices r) (numbers r)).turns
          owners }).toProgram) y) :
    Together n (List.range n) (fun r => (resolveCopies (κ := κ) (Seat.of r n) (numbers r) degree
      (vertices r) policy).toProgram) y := by
  refine Together.allPassThen (fun r hr => ofRecords_eq_ok (h r hr)) ?_
  refine hmeet.congr (fun r hr => ?_) fun _ _ => rfl
  rw [← firstGlobals_canonicalRecords (h r (List.mem_range.1 hr))]
  simp only [meetAtHome, meet, bind_assoc]
  rfl

/-- If the policy resolves all keys, each record gets the owner of its key. -/
theorem resolveCopies_together (h : ∀ r < n, Acceptable degree (vertices r) (numbers r))
    (hkeyed : Keyed n degree numbers fun r => recordKeys degree (vertices r) (numbers r))
    (hroom : MeetingRoom n degree numbers fun r => recordKeys degree (vertices r) (numbers r))
    (hresolves : ∀ r < n, ∀ key ∈ recordKeys degree (vertices r) (numbers r),
      Resolves n (fun r => recordKeys degree (vertices r) (numbers r)) policy key) :
    Together n (List.range n) (fun r => (resolveCopies (κ := κ) (Seat.of r n) (numbers r) degree
        (vertices r) policy).toProgram) fun r => .ok
      { vertices := (canonicalRecords degree (vertices r) (numbers r)).vertices
        turns := (canonicalRecords degree (vertices r) (numbers r)).turns
        owners := (recordKeys degree (vertices r) (numbers r)).map
          (ownerOf n (fun r => recordKeys degree (vertices r) (numbers r)) policy) } :=
  resolveCopies_of_meetAtHome h (meetAtHome_together hkeyed hroom hresolves).mapOk

/-- The ranks resolve the copies of all entities as somebody would who sees all records. If
    the policy does not choose a copy for each, all ranks fail, and those on which the
    smallest number of such an entity is held report it. -/
theorem resolveCopies_yields (policy : OwnerPolicy) (hdegree : degree ≤ 128)
    (hnumbers : ∀ r < n, ∀ g ∈ numbers r, g < 2 ^ 64 - 2)
    (haccepted : ∀ r < n, ∃ c, Canonical.ofRecords degree (vertices r) (numbers r) = .ok c)
    (hroom : MeetingRoom n degree numbers fun r => recordKeys degree (vertices r) (numbers r)) :
    ((∀ r < n, ∀ record ∈ globalRecords degree (vertices r) (numbers r),
        Decides policy (entityCopies n degree vertices numbers record)) →
      ∃ resolved : Nat → Resolved,
        (World.start ((List.range n).map fun r => (resolveCopies (κ := κ) (Seat.of r n) (numbers r)
          degree (vertices r) policy).toProgram)).Yields
            ((List.range n).map fun r => .ok (resolved r)) ∧
        ∀ r < n, IsResolved degree (vertices r) (numbers r) policy
          (entityCopies n degree vertices numbers) (resolved r)) ∧
    ((∃ r < n, ∃ record ∈ globalRecords degree (vertices r) (numbers r),
        ¬ Decides policy (entityCopies n degree vertices numbers record)) →
      ∃ e : Nat → MeshError,
        (World.start ((List.range n).map fun r => (resolveCopies (κ := κ) (Seat.of r n) (numbers r)
          degree (vertices r) policy).toProgram)).Yields
            ((List.range n).map fun r => .error (e r)) ∧
        ∀ r < n, ∀ record ∈ globalRecords degree (vertices r) (numbers r),
          ¬ Decides policy (entityCopies n degree vertices numbers record) →
            ∃ p : Place, (sharesOf n numbers).holder (record.min?.getD 0) = .ok p ∧ p.rank < n ∧
              ∃ vertex owner, e p.rank = .unresolved vertex owner) := by
  have h : ∀ r < n, Acceptable degree (vertices r) (numbers r) := fun r hr => by
    obtain ⟨c, hc⟩ := haccepted r hr
    exact acceptable_of_ofRecords hc
  have hkeyed : 0 < n →
      Keyed n degree numbers fun r => recordKeys degree (vertices r) (numbers r) :=
    fun hn => keyed_recordKeys hnumbers h (h 0 hn).degree_pos
  have hresolves : ∀ r < n, ∀ record ∈ globalRecords degree (vertices r) (numbers r),
      (Resolves n (fun r => recordKeys degree (vertices r) (numbers r)) policy
        (canonicalForm degree record) ↔
          Decides policy (entityCopies n degree vertices numbers record)) := by
    intro r hr record hrecord
    rw [Resolves, namers_recordKeys hdegree h hr hrecord, Decides]
  constructor
  · intro hall
    refine ⟨_, Together.yields ?_, fun r hr =>
      isResolved_canonicalRecords hdegree h hr (hall r hr)⟩
    rcases Nat.eq_zero_or_pos n with rfl | hn
    · exact fun _ _ _ => .refl _
    refine resolveCopies_together h (hkeyed hn) hroom fun r hr key hkey => ?_
    obtain ⟨record, hrecord, rfl⟩ := List.mem_map.1 hkey
    exact (hresolves r hr record hrecord).2 (hall r hr record hrecord)
  · rintro ⟨r, hr, record, hrecord, hfails⟩
    have hkeyed := hkeyed (Nat.zero_lt_of_lt hr)
    obtain ⟨e, hmeet, he⟩ := meetAtHome_together_error (κ := κ) hkeyed hroom hr
      (List.mem_map_of_mem hrecord) (mt (hresolves r hr record hrecord).1 hfails)
    refine ⟨e, Together.yields (resolveCopies_of_meetAtHome h hmeet.orFail),
      fun r hr record hrecord hfails => ?_⟩
    have hkey := List.mem_map_of_mem (f := canonicalForm degree) hrecord
    have hhead := hkeyed.head_lt hr hkey
    refine ⟨homeOf n numbers (canonicalForm degree record), ?_,
      Shares.rank_lt_size (Nat.zero_lt_of_lt hr) hhead,
      he r hr _ hkey (mt (hresolves r hr record hrecord).1 hfails)⟩
    rw [headD_canonicalForm hdegree (h r hr) hrecord]
    exact Shares.holder_eq_ok (Nat.zero_lt_of_lt hr) hhead hkeyed.total_lt

end

/-- Two ranks that share a triangle, of which the second holds another one. -/
def sharedTriangle (r : Nat) : List Nat × List Nat :=
  if r = 0 then ([0, 1, 2], [4, 2, 7]) else ([0, 1, 2, 1, 3, 0], [7, 4, 2, 5])

theorem resolveCopies_yields_sharedTriangle :
    (∃ resolved : Nat → Resolved,
      (World.start ((List.range 2).map fun r => (resolveCopies (κ := UInt8) (Seat.of r 2)
        (sharedTriangle r).2 3 (sharedTriangle r).1 .smallest).toProgram)).Yields
          ((List.range 2).map fun r => .ok (resolved r)) ∧
      (resolved 0).owners = [⟨0, 0⟩] ∧ (resolved 1).owners = [⟨0, 0⟩, ⟨1, 1⟩]) ∧
    ∃ e : Nat → MeshError,
      (World.start ((List.range 2).map fun r => (resolveCopies (κ := UInt8) (Seat.of r 2)
        (sharedTriangle r).2 3 (sharedTriangle r).1 fun _ => none).toProgram)).Yields
          ((List.range 2).map fun r => .error (e r)) := by
  have hnumbers : ∀ r < 2, ∀ g ∈ (sharedTriangle r).2, g < 2 ^ 64 - 2 := by decide
  have haccepted : ∀ r < 2, ∃ c, Canonical.ofRecords 3 (sharedTriangle r).1 (sharedTriangle r).2 =
      .ok c := by
    intro r hr
    match r, hr with
    | 0, _ => exact ⟨_, rfl⟩
    | 1, _ => exact ⟨_, rfl⟩
  have hroom : MeetingRoom 2 3 (fun r => (sharedTriangle r).2) fun r =>
      recordKeys 3 (sharedTriangle r).1 (sharedTriangle r).2 :=
    ⟨by decide, by decide, by decide, by decide⟩
  have hyields := fun policy => resolveCopies_yields (κ := UInt8) policy (by decide) hnumbers
    haccepted hroom
  obtain ⟨resolved, hresolved, h⟩ := (hyields .smallest).1 (by decide)
  obtain ⟨e, he, _⟩ := (hyields fun _ => none).2 (by decide)
  have howners : ∀ {owners owners' : List Place}, owners.map some = owners'.map some →
      owners = owners' := fun h => List.map_injective_iff.2 (fun _ _ => Option.some.inj) h
  exact ⟨⟨resolved, hresolved, howners ((h 0 (by decide)).owners.trans (by decide)),
    howners ((h 1 (by decide)).owners.trans (by decide))⟩, e, he⟩

/-- Accepted records and small numbers are not enough: a rank that serves too many numbers
    to count them stops. -/
theorem not_resolveCopies_yields_of_accepted :
    ¬ ∀ (n degree : Nat) (vertices numbers : Nat → List Nat) (policy : OwnerPolicy),
      0 < degree → degree ≤ 128 → (∀ r < n, ∀ g ∈ numbers r, g < 2 ^ 64 - 2) →
      (∀ r < n, ∃ c, Canonical.ofRecords degree (vertices r) (numbers r) = .ok c) →
      (∀ r < n, ∀ record ∈ globalRecords degree (vertices r) (numbers r),
        Decides policy (entityCopies n degree vertices numbers record)) →
      ∃ resolved : Nat → Resolved,
        (World.start ((List.range n).map fun r => (resolveCopies (κ := UInt8) (Seat.of r n)
          (numbers r) degree (vertices r) policy).toProgram)).Yields
            ((List.range n).map fun r => .ok (resolved r)) := by
  intro h
  have hacceptable : ∀ r < 1, Acceptable 2 [0, 1] [2 ^ 62, 0] := fun r _ =>
    acceptable_of_ofRecords (c := canonicalRecords 2 [0, 1] [2 ^ 62, 0]) rfl
  obtain ⟨resolved, hresolved⟩ := h 1 2 (fun _ => [0, 1]) (fun _ => [2 ^ 62, 0]) .smallest
    (by decide) (by decide) (by decide) (fun _ _ => ⟨_, rfl⟩) (by decide)
  have hkeyed : Keyed 1 2 (fun _ => [2 ^ 62, 0]) fun _ => recordKeys 2 [0, 1] [2 ^ 62, 0] :=
    keyed_recordKeys (by decide) hacceptable (by decide)
  have hsound : Route.Sound 1 (fun _ => (recordKeys 2 [0, 1] [2 ^ 62, 0]).map
      (homeOf 1 fun _ => [2 ^ 62, 0])) (sharesOf 1 fun _ => [2 ^ 62, 0]).length :=
    ⟨by decide, by decide⟩
  have hmeet := meetAtHome_of_meet (κ := UInt8) .smallest hkeyed
    (plan_together_noRoom hsound (by decide) (by decide) (by decide) (by decide)).orFail
  have hfail := (resolveCopies_of_meetAtHome hacceptable hmeet.orFail).yields.run_eq
  rw [hresolved.run_eq] at hfail
  simp at hfail

end SharedMesh
